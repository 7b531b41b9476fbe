import CodeSLoop.Sec.RijndaelTables

/-!
# The Rijndael cipher (`sec/rijndael-alg-fst.c`)

The code works on the four columns of a state as 32-bit words, and takes from tables what a byte
contributes to a column; it deciphers with tables of its own, with keys in the opposite order to which
`MixColumns` was applied backwards.

`FULL_UNROLL` is not defined, so the rounds are the loop.
-/

namespace CodeSLoop.Rijndael

/-! ## The code -/

/-- `t[i]`. -/
def look (t : List U32) (i : U32) : U32 := t.getD i.toNat 0

/-- `GETU32`, of the four bytes from `i` on. -/
def getU32 (p : List UInt8) (i : Nat) : U32 :=
  ((p.getD i 0).toBitVec.setWidth 32 <<< 24) ^^^ ((p.getD (i + 1) 0).toBitVec.setWidth 32 <<< 16) ^^^
    ((p.getD (i + 2) 0).toBitVec.setWidth 32 <<< 8) ^^^ (p.getD (i + 3) 0).toBitVec.setWidth 32

/-- `PUTU32`. -/
def putU32 (st : U32) : List UInt8 :=
  [⟨(st >>> 24).setWidth 8⟩, ⟨(st >>> 16).setWidth 8⟩, ⟨(st >>> 8).setWidth 8⟩, ⟨st.setWidth 8⟩]

/-- A word in a round that is not the last, of the words that its bytes are taken from. -/
def Tables.column (t : Tables) (a b c d k : U32) : U32 :=
  look t.t0 (a >>> 24) ^^^ look t.t1 ((b >>> 16) &&& 0xff#32) ^^^ look t.t2 ((c >>> 8) &&& 0xff#32) ^^^
    look t.t3 (d &&& 0xff#32) ^^^ k

/-- A word in the last round. -/
def Tables.lastColumn (t : Tables) (a b c d k : U32) : U32 :=
  (look t.t4 (a >>> 24) &&& 0xff000000#32) ^^^ (look t.t4 ((b >>> 16) &&& 0xff#32) &&& 0x00ff0000#32) ^^^
    (look t.t4 ((c >>> 8) &&& 0xff#32) &&& 0x0000ff00#32) ^^^ (look t.t4 (d &&& 0xff#32) &&& 0x000000ff#32) ^^^ k

/-- The variables `s0` to `s3`, or `t0` to `t3`. -/
structure Block where
  s0 : U32
  s1 : U32
  s2 : U32
  s3 : U32

/-- A round of `rijndaelEncrypt`, with the words of the key that `rk` points to. -/
def encStep (col : U32 → U32 → U32 → U32 → U32 → U32) (rk : List U32) (s : Block) : Block where
  s0 := col s.s0 s.s1 s.s2 s.s3 (rk.getD 0 0)
  s1 := col s.s1 s.s2 s.s3 s.s0 (rk.getD 1 0)
  s2 := col s.s2 s.s3 s.s0 s.s1 (rk.getD 2 0)
  s3 := col s.s3 s.s0 s.s1 s.s2 (rk.getD 3 0)

/-- A round of `rijndaelDecrypt`. -/
def decStep (col : U32 → U32 → U32 → U32 → U32 → U32) (rk : List U32) (s : Block) : Block where
  s0 := col s.s0 s.s3 s.s2 s.s1 (rk.getD 0 0)
  s1 := col s.s1 s.s0 s.s3 s.s2 (rk.getD 1 0)
  s2 := col s.s2 s.s1 s.s0 s.s3 (rk.getD 2 0)
  s3 := col s.s3 s.s2 s.s1 s.s0 (rk.getD 3 0)

/-- The loop, when `r` is one more than here: the last words and where `rk` points to then. -/
def roundLoop (step : List U32 → Block → Block) : Nat → List U32 → Block → Block × List U32
  | 0, rk, s => (step (rk.drop 4) s, rk.drop 8)
  | r + 1, rk, s =>
    let t := step (rk.drop 4) s
    let rk := rk.drop 8
    roundLoop step r rk (step rk t)

/-- The words of a block, with the first key added. -/
def loadBlock (rk : List U32) (input : List UInt8) : Block where
  s0 := getU32 input 0 ^^^ rk.getD 0 0
  s1 := getU32 input 4 ^^^ rk.getD 1 0
  s2 := getU32 input 8 ^^^ rk.getD 2 0
  s3 := getU32 input 12 ^^^ rk.getD 3 0

def storeBlock (s : Block) : List UInt8 :=
  putU32 s.s0 ++ putU32 s.s1 ++ putU32 s.s2 ++ putU32 s.s3

/-- What `rijndaelEncrypt` and `rijndaelDecrypt` have in common. -/
def crypt (step : (U32 → U32 → U32 → U32 → U32 → U32) → List U32 → Block → Block) (t : Tables)
    (rk : List U32) (nr : Nat) (input : List UInt8) : List UInt8 :=
  let s := loadBlock rk input
  let (s, rk) := roundLoop (step t.column) (nr / 2 - 1) rk s
  storeBlock (step t.lastColumn rk s)

def rijndaelEncrypt (rk : List U32) (nr : Nat) (pt : List UInt8) : List UInt8 :=
  crypt encStep te rk nr pt

def rijndaelDecrypt (rk : List U32) (nr : Nat) (ct : List UInt8) : List UInt8 :=
  crypt decStep td rk nr ct

/-- The four table lookups for the first word of a round key. -/
def subRot (x : U32) : U32 :=
  (look te4 ((x >>> 16) &&& 0xff#32) &&& 0xff000000#32) ^^^ (look te4 ((x >>> 8) &&& 0xff#32) &&& 0x00ff0000#32) ^^^
    (look te4 (x &&& 0xff#32) &&& 0x0000ff00#32) ^^^ (look te4 (x >>> 24) &&& 0x000000ff#32)

/-- Those in the middle of the eight words for a key of 256 bits. -/
def subOnly (x : U32) : U32 :=
  (look te4 (x >>> 24) &&& 0xff000000#32) ^^^ (look te4 ((x >>> 16) &&& 0xff#32) &&& 0x00ff0000#32) ^^^
    (look te4 ((x >>> 8) &&& 0xff#32) &&& 0x0000ff00#32) ^^^ (look te4 (x &&& 0xff#32) &&& 0x000000ff#32)

/-- An assignment `rk[j] = rk[j - nk] ^ f(rk[j - 1])`, `rk` being what was assigned before. -/
def put (nk : Nat) (f : U32 → U32) (rk : List U32) : List U32 :=
  rk ++ [rk.getD (rk.length - nk) 0 ^^^ f (rk.getD (rk.length - 1) 0)]

/-- The first assignment for a round of the key setup. -/
def putFirst (nk i : Nat) (rk : List U32) : List U32 :=
  put nk (fun x => subRot x ^^^ rcon.getD i 0) rk

def step128 (rk : List U32) (i : Nat) : List U32 :=
  put 4 id (put 4 id (put 4 id (putFirst 4 i rk)))

/-- The part of a round that comes before `return 12`. -/
def half192 (rk : List U32) (i : Nat) : List U32 :=
  put 6 id (put 6 id (put 6 id (putFirst 6 i rk)))

def step192 (rk : List U32) (i : Nat) : List U32 :=
  put 6 id (put 6 id (half192 rk i))

/-- The part of a round that comes before `return 14`. -/
def half256 (rk : List U32) (i : Nat) : List U32 :=
  put 8 id (put 8 id (put 8 id (putFirst 8 i rk)))

def step256 (rk : List U32) (i : Nat) : List U32 :=
  put 8 id (put 8 id (put 8 id (put 8 subOnly (half256 rk i))))

/-- The words of the cipher key. -/
def keyWords (cipherKey : List UInt8) (nk : Nat) : List U32 :=
  (List.range nk).map fun i => getU32 cipherKey (4 * i)

/-- The expanded key and the number of rounds. -/
def rijndaelKeySetupEnc (cipherKey : List UInt8) (keyBits : Nat) : List U32 × Nat :=
  if keyBits = 128 then ((List.range 10).foldl step128 (keyWords cipherKey 4), 10)
  else if keyBits = 192 then
    (half192 ((List.range 7).foldl step192 (keyWords cipherKey 6)) 7, 12)
  else if keyBits = 256 then
    (half256 ((List.range 6).foldl step256 (keyWords cipherKey 8)) 6, 14)
  else (keyWords cipherKey 8, 0)

/-- `rk[i]` and `rk[j]` change places. -/
def swap (rk : List U32) (i j : Nat) : List U32 :=
  (rk.set i (rk.getD j 0)).set j (rk.getD i 0)

/-- The loop that inverts the order of the round keys. -/
def invertOrder (rk : List U32) (i j : Nat) : List U32 :=
  if i < j then
    let rk := (List.range 4).foldl (fun rk c => swap rk (i + c) (j + c)) rk
    invertOrder rk (i + 4) (j - 4)
  else rk
termination_by j - i

/-- The inverse `MixColumns` of a word of a round key. -/
def unmixWord (x : U32) : U32 :=
  look td0 (look te4 (x >>> 24) &&& 0xff#32) ^^^ look td1 (look te4 ((x >>> 16) &&& 0xff#32) &&& 0xff#32) ^^^
    look td2 (look te4 ((x >>> 8) &&& 0xff#32) &&& 0xff#32) ^^^ look td3 (look te4 (x &&& 0xff#32) &&& 0xff#32)

/-- One turn of the loop behind. -/
def unmixKey (rk : List U32) (i : Nat) : List U32 :=
  (List.range 4).foldl (fun rk c => rk.set (4 * i + c) (unmixWord (rk.getD (4 * i + c) 0))) rk

def rijndaelKeySetupDec (cipherKey : List UInt8) (keyBits : Nat) : List U32 × Nat :=
  let (rk, nr) := rijndaelKeySetupEnc cipherKey keyBits
  ((List.range' 1 (nr - 1)).foldl unmixKey (invertOrder rk 0 (4 * nr)), nr)

end CodeSLoop.Rijndael
