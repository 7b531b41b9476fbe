import CodeSLoop.Lib.Refine
import CodeSLoop.Sec.RijndaelCipher
import CodeSLoop.Sec.Uhash

/-!
# UMAC (`sec/umac.c`)

A tag is UHASH of the message with eight bytes added that AES makes of the nonce; two nonces that
differ in the last bit take the two halves of one block, and the block is kept for the second of them
(`pdf_gen_xor`). All keys come from the sixteen bytes of the user, by AES of a counter (`kdf`).

A context may be used for any number of messages, one after the other, each given in one piece or in
many. What comes out is always what a context that has just been made would give for the same message
(`tags_eq_spec`).

That `malloc` fails is left out, and so is the alignment of the context.
-/

namespace CodeSLoop.Umac

/-! ## Keys -/

/-- `aes_key_setup`: a key of 128 bits. -/
def aesKeySetup (key : List UInt8) : List U32 := (Rijndael.rijndaelKeySetupEnc key 128).1

/-- `aes_encryption`. -/
def aesEncryption (input : List UInt8) (intKey : List U32) : List UInt8 :=
  Rijndael.rijndaelEncrypt intKey 10 input

/-- `in_buf` of `kdf`. -/
def kdfInput (index : UInt8) (i : Nat) : List UInt8 :=
  List.replicate 7 0 ++ [index] ++ List.replicate 7 0 ++ [UInt8.ofNat i]

/-- `kdf`, when the counter is `i`. -/
def kdfLoop (key : List U32) (index : UInt8) (i nbytes : Nat) : List UInt8 :=
  if 16 ≤ nbytes then
    aesEncryption (kdfInput index i) key ++ kdfLoop key index (i + 1) (nbytes - 16)
  else (aesEncryption (kdfInput index i) key).take nbytes

def kdf (key : List U32) (index : UInt8) (nbytes : Nat) : List UInt8 := kdfLoop key index 1 nbytes

/-- The word `i` after `endian_convert(buf, 4, …)`. -/
def convert4 (buf : List UInt8) (i : Nat) : U32 :=
  (buf.getD (4 * i) 0).toBitVec ++ (buf.getD (4 * i + 1) 0).toBitVec ++
    (buf.getD (4 * i + 2) 0).toBitVec ++ (buf.getD (4 * i + 3) 0).toBitVec

/-- The word `i` after `endian_convert(buf, 8, …)`. -/
def convert8 (buf : List UInt8) (i : Nat) : U64 := convert4 buf (2 * i) ++ convert4 buf (2 * i + 1)

/-- `nh_init`, of a context that is all zeros. -/
def nhInit (prfKey : List U32) : NhCtx :=
  nhReset
    { nhKey := (List.range 260).map (convert4 (kdf prfKey 1 1040))
      data := List.replicate 64 0
      nextDataEmpty := 0
      bytesHashed := 0
      state := fun _ => 0 }

/-- The mask on the keys of `poly64`. -/
def polyMask (x : U64) : U64 := x &&& 0x01ffffff01ffffff#64

theorem polyKey_polyMask (x : U64) : PolyKey (polyMask x) := by
  rw [PolyKey, polyMask, BitVec.and_assoc, BitVec.and_self]

/-- The keys of `ip_aux`: of eight words the last four, for either stream. -/
def ipInit (buf : List UInt8) : List U64 :=
  (List.range 8).map fun i =>
    BitVec.ofNat 64 ((convert8 (buf.drop ((8 * (i / 4) + 4) * 8)) (i % 4)).toNat % p36)

theorem ipKeys_ipInit (buf : List UInt8) : IpKeys (ipInit buf) := by
  intro k hk
  obtain ⟨i, -, rfl⟩ := List.mem_map.mp hk
  have hlt := Nat.mod_lt (convert8 (buf.drop ((8 * (i / 4) + 4) * 8)) (i % 4)).toNat
    (show p36 > 0 by decide)
  rw [BitVec.toNat_ofNat]
  exact (Nat.mod_le _ _).trans_lt hlt

/-- `uhash_init`. -/
def uhashInit (prfKey : List U32) : UhashCtx where
  hash := nhInit prfKey
  polyKey8 i := polyMask (convert8 ((kdf prfKey 2 160).drop (24 * i.val)) 0)
  polyAccum _ := 1
  ipKeys := ipInit (kdf prfKey 3 160)
  ipTrans i := convert4 (kdf prfKey 4 8) i
  msgLen := 0
  polyKey _ := polyKey_polyMask _
  ipKey := ipKeys_ipInit _

/-! ## The code -/

/-- `pdf_ctx`. -/
structure PdfCtx where
  cache : List UInt8
  nonce : List UInt8
  prfKey : List U32

/-- `pdf_init`. -/
def pdfInit (prfKey : List U32) : PdfCtx :=
  let key := aesKeySetup (kdf prfKey 0 16)
  let nonce := List.replicate 16 0
  ⟨aesEncryption nonce key, nonce, key⟩

/-- Two buffers, byte by byte. -/
def xorBytes (a b : List UInt8) : List UInt8 := List.zipWith (· ^^^ ·) a b

/-- `pdf_gen_xor`: what becomes of the buffer, and of the context. -/
def pdfGenXor (pc : PdfCtx) (nonce buf : List UInt8) : List UInt8 × PdfCtx :=
  let index := (nonce.getD 7 0 &&& 1).toNat
  let tmpNonceLo := (nonce.drop 4).take 3 ++ [nonce.getD 7 0 &&& 0xfe]
  let pc :=
    if tmpNonceLo ≠ (pc.nonce.drop 4).take 4 ∨ nonce.take 4 ≠ pc.nonce.take 4 then
      let n := nonce.take 4 ++ tmpNonceLo ++ pc.nonce.drop 8
      { pc with nonce := n, cache := aesEncryption n pc.prfKey }
    else pc
  (xorBytes buf ((pc.cache.drop (8 * index)).take 8), pc)

/-- `umac_ctx`. -/
structure UmacCtx where
  hash : UhashCtx
  pdf : PdfCtx

def umacNew (key : List UInt8) : UmacCtx :=
  let prfKey := aesKeySetup key
  ⟨uhashInit prfKey, pdfInit prfKey⟩

def umacReset (ctx : UmacCtx) : UmacCtx := { ctx with hash := uhashReset ctx.hash }

def umacUpdate (ctx : UmacCtx) (input : List UInt8) : UmacCtx :=
  { ctx with hash := uhashUpdate ctx.hash input }

/-- `umac_final`: the tag and the context. -/
def umacFinal (ctx : UmacCtx) (nonce : List UInt8) : List UInt8 × UmacCtx :=
  let (tag, hash) := uhashFinal ctx.hash
  let (tag, pdf) := pdfGenXor ctx.pdf nonce tag
  (tag, ⟨hash, pdf⟩)

/-- `umac`, the all-in-one version. -/
def umac (ctx : UmacCtx) (input nonce : List UInt8) : List UInt8 × UmacCtx :=
  let (tag, hash) := uhash ctx.hash input
  let (tag, pdf) := pdfGenXor ctx.pdf nonce tag
  (tag, ⟨hash, pdf⟩)

/-! ## What is added to the hash -/

@[simp] theorem length_aesEncryption (input : List UInt8) (key : List U32) :
    (aesEncryption input key).length = 16 := rfl

@[simp] theorem length_xorBytes (a b : List UInt8) : (xorBytes a b).length = min a.length b.length := by
  simp [xorBytes]

/-- The nonce without its last bit. -/
def evenNonce (nonce : List UInt8) : List UInt8 := nonce.take 7 ++ [nonce.getD 7 0 &&& 0xfe]

/-- The block for the nonce and the one that differs in the last bit. -/
def pdfBlock (key : List U32) (nonce : List UInt8) : List UInt8 :=
  aesEncryption (evenNonce nonce ++ List.replicate 8 0) key

/-- The half of the block that is for this nonce. -/
def pdfPad (key : List U32) (nonce : List UInt8) : List UInt8 :=
  ((pdfBlock key nonce).drop (8 * (nonce.getD 7 0 &&& 1).toNat)).take 8

theorem last_bit (b : UInt8) : (b &&& 1).toNat ≤ 1 := by
  rw [UInt8.toNat_and]
  exact Nat.and_le_right

@[simp] theorem length_pdfPad (key : List U32) (nonce : List UInt8) : (pdfPad key nonce).length = 8 := by
  have hbit := last_bit (nonce.getD 7 0)
  rw [pdfPad, List.length_take, List.length_drop, pdfBlock, length_aesEncryption]
  omega

/-- The block that is kept is that of the nonce that is kept. -/
structure PdfCtx.Good (pc : PdfCtx) : Prop where
  cache : pc.cache = aesEncryption pc.nonce pc.prfKey
  tail : pc.nonce.drop 8 = List.replicate 8 0

theorem pdfInit_good (prfKey : List U32) : (pdfInit prfKey).Good := ⟨rfl, rfl⟩

theorem evenNonce_eq (nonce : List UInt8) :
    evenNonce nonce = nonce.take 4 ++ ((nonce.drop 4).take 3 ++ [nonce.getD 7 0 &&& 0xfe]) := by
  rw [← List.append_assoc, ← List.take_add]
  rfl

theorem length_evenNonce {nonce : List UInt8} (h : nonce.length = 8) : (evenNonce nonce).length = 8 := by
  simp [evenNonce, h]

/-- **`pdf_gen_xor`** adds the half block of the nonce, whether it was kept or not. -/
theorem pdfGenXor_eq {pc : PdfCtx} (h : pc.Good) {nonce : List UInt8} (hlen : nonce.length = 8)
    (buf : List UInt8) :
    (pdfGenXor pc nonce buf).1 = xorBytes buf (pdfPad pc.prfKey nonce) ∧
      (pdfGenXor pc nonce buf).2.Good ∧ (pdfGenXor pc nonce buf).2.prfKey = pc.prfKey := by
  have heven := length_evenNonce hlen
  simp only [pdfGenXor]
  by_cases hstale : (nonce.drop 4).take 3 ++ [nonce.getD 7 0 &&& 0xfe] ≠ (pc.nonce.drop 4).take 4 ∨
      nonce.take 4 ≠ pc.nonce.take 4
  · rw [if_pos hstale, ← evenNonce_eq, h.tail]
    exact ⟨rfl, ⟨rfl, List.drop_left' heven⟩, rfl⟩
  · rw [if_neg hstale]
    simp only [not_or, not_not] at hstale
    have hkept : pc.nonce = evenNonce nonce ++ List.replicate 8 0 := by
      rw [evenNonce_eq, hstale.1, hstale.2, ← h.tail]
      have h4 := List.take_append_drop 4 pc.nonce
      have h8 := List.take_append_drop 4 (pc.nonce.drop 4)
      rw [List.drop_drop] at h8
      rw [List.append_assoc, h8, h4]
    refine ⟨?_, h, rfl⟩
    rw [pdfPad, pdfBlock, h.cache, hkept]

/-! ## Calls on a context -/

/-- What the keys of the user are made into. -/
structure Keys where
  hash : UhashKeys
  prfKey : List U32

/-- The keys of a context for `key`. -/
def keysOf (key : List UInt8) : Keys := ⟨(umacNew key).hash.keys, (umacNew key).pdf.prfKey⟩

/-- **The tag of a message**: that of UMAC for up to 2^24 bytes. Above that UMAC goes on modulo another prime, and
    the code does not; here the modulus is never changed. -/
def umacValue (k : Keys) (nonce msg : List UInt8) : List UInt8 :=
  xorBytes (uhashValue k.hash msg) (pdfPad k.prfKey nonce)

@[simp] theorem length_uhashValue (k : UhashKeys) (d : List UInt8) : (uhashValue k d).length = 8 := by
  unfold uhashValue
  split <;> rfl

@[simp] theorem length_umacValue (k : Keys) (nonce msg : List UInt8) :
    (umacValue k nonce msg).length = 8 := by
  simp [umacValue]

/-- What a context knows of the message that was begun. -/
structure UmacCtx.Holds (ctx : UmacCtx) (k : Keys) (d : List UInt8) : Prop where
  hash : ctx.hash.Holds k.hash d
  pdf : ctx.pdf.Good
  prfKey : ctx.pdf.prfKey = k.prfKey

variable {ctx : UmacCtx} {k : Keys} {d nonce : List UInt8}

theorem umacNew_holds (key : List UInt8) : (umacNew key).Holds (keysOf key) [] := by
  have hreset := uhashReset_holds (umacNew key).hash rfl
  exact ⟨hreset, pdfInit_good _, rfl⟩

theorem umacReset_holds (h : ctx.Holds k d) : (umacReset ctx).Holds k [] :=
  ⟨uhashReset_same h.hash.after.same h.hash.hash.length, h.pdf, h.prfKey⟩

theorem umacUpdate_holds (h : ctx.Holds k d) {b : List UInt8} (hlen : d.length + b.length < 2 ^ 32) :
    (umacUpdate ctx b).Holds k (d ++ b) :=
  ⟨uhashUpdate_holds h.hash b hlen, h.pdf, h.prfKey⟩

theorem umacFinal_eq (h : ctx.Holds k d) (hnonce : nonce.length = 8) :
    (umacFinal ctx nonce).1 = umacValue k nonce d ∧ (umacFinal ctx nonce).2.Holds k [] := by
  obtain ⟨hvalue, hhash⟩ := uhashFinal_eq h.hash
  obtain ⟨htag, hgood, hkey⟩ := pdfGenXor_eq h.pdf hnonce (uhashFinal ctx.hash).1
  refine ⟨htag.trans ?_, hhash, hgood, hkey.trans h.prfKey⟩
  rw [hvalue, h.prfKey, umacValue]

theorem umac_eq (h : ctx.Holds k []) (msg : List UInt8) (hnonce : nonce.length = 8) :
    (umac ctx msg nonce).1 = umacValue k nonce msg ∧ (umac ctx msg nonce).2.Holds k [] := by
  obtain ⟨hvalue, hhash⟩ := uhash_eq h.hash msg
  obtain ⟨htag, hgood, hkey⟩ := pdfGenXor_eq h.pdf hnonce (uhash ctx.hash msg).1
  refine ⟨htag.trans ?_, hhash, hgood, hkey.trans h.prfKey⟩
  rw [hvalue, h.prfKey, umacValue]

/-- The calls on a context. -/
inductive Call
  | update (input : List UInt8)
  | final (nonce : List UInt8)
  | whole (input nonce : List UInt8)
  | reset

/-- A call, with its tag if it gives one. -/
def UmacCtx.call (ctx : UmacCtx) : Call → Option (List UInt8) × UmacCtx
  | .update input => (none, umacUpdate ctx input)
  | .final nonce => ((umacFinal ctx nonce).1, (umacFinal ctx nonce).2)
  | .whole input nonce => ((umac ctx input nonce).1, (umac ctx input nonce).2)
  | .reset => (none, umacReset ctx)

/-- What a call means for the message that was begun. -/
def callSpec (k : Keys) (d : List UInt8) : Call → Option (List UInt8) × List UInt8
  | .update input => (none, d ++ input)
  | .final nonce => (umacValue k nonce d, [])
  | .whole input nonce => (umacValue k nonce input, [])
  | .reset => (none, [])

/-- Nonces have eight bytes, messages less than `2 ^ 32`; and while a message is begun, no other one
    is given as a whole. -/
def CallFits (d : List UInt8) : Call → Prop
  | .update input => d.length + input.length < 2 ^ 32
  | .final nonce => nonce.length = 8
  | .whole _ nonce => d = [] ∧ nonce.length = 8
  | .reset => True

instance (d : List UInt8) : DecidablePred (CallFits d)
  | .update _ => inferInstanceAs (Decidable (_ < _))
  | .final _ => inferInstanceAs (Decidable (_ = _))
  | .whole _ _ => inferInstanceAs (Decidable (_ ∧ _))
  | .reset => inferInstanceAs (Decidable True)

theorem call_eq (ctx : UmacCtx) (d : List UInt8) (c : Call) (h : ctx.Holds k d) (hfits : CallFits d c) :
    (ctx.call c).1 = (callSpec k d c).1 ∧ (ctx.call c).2.Holds k (callSpec k d c).2 := by
  cases c with
  | update input => exact ⟨rfl, umacUpdate_holds h hfits⟩
  | final nonce =>
    obtain ⟨htag, hnext⟩ := umacFinal_eq h hfits
    exact ⟨congrArg some htag, hnext⟩
  | whole input nonce =>
    obtain ⟨rfl, hnonce⟩ := hfits
    obtain ⟨htag, hnext⟩ := umac_eq h input hnonce
    exact ⟨congrArg some htag, hnext⟩
  | reset => exact ⟨rfl, umacReset_holds h⟩

/-- **All tags are those of the messages**, however these were cut, and whatever was done with the
    context before. `umac` is for a message that is not begun, as it does not set `poly_accum` back. -/
theorem tags_eq_spec (key : List UInt8) (calls : List Call)
    (h : Refine.Allowed (callSpec (keysOf key)) CallFits [] calls) :
    Refine.answers UmacCtx.call (umacNew key) calls =
      Refine.answers (callSpec (keysOf key)) [] calls :=
  (Refine.answers_eq call_eq calls (umacNew_holds key) h).1

/-- A message in two pieces, and one that is given up; then the same as a whole. -/
theorem tags_eq_spec_pieces :
    let key := List.replicate 16 97
    let calls : List Call := [.update [1, 2], .update [3], .final (List.replicate 8 5), .update [4], .reset,
      .whole [1, 2, 3] (List.replicate 8 5)]
    Refine.answers UmacCtx.call (umacNew key) calls =
      Refine.answers (callSpec (keysOf key)) [] calls :=
  tags_eq_spec _ _ (by simp [Refine.Allowed, CallFits, callSpec])

end CodeSLoop.Umac
