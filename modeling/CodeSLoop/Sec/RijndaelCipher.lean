import CodeSLoop.Sec.Rijndael
import Mathlib.Data.List.GetD
import Mathlib.Tactic.FinCases

/-!
# The Rijndael code is the standard's cipher

With what is in the tables, a round of the code is a round of `Aes.rounds`, in either direction
(`encStep_round`, `decStep_round`), and the loop goes through all keys.
-/

namespace CodeSLoop.Rijndael

open Gf256
open Aes (byte byte_xor getLsbD_byte elem_ext)

/-! ## Places and masks -/

/-- The places in a word that the code reads its bytes at. -/
theorem toNat_bytes (w : U32) :
    (w >>> 24).toNat = (byte w 0).bits.toNat ∧
      ((w >>> 16) &&& 0xff#32).toNat = (byte w 1).bits.toNat ∧
      ((w >>> 8) &&& 0xff#32).toNat = (byte w 2).bits.toNat ∧
      (w &&& 0xff#32).toNat = (byte w 3).bits.toNat := by
  have hmask (x : U32) : (x &&& 0xff#32).toNat = x.toNat % 2 ^ 8 := by
    rw [BitVec.toNat_and]
    exact Nat.and_two_pow_sub_one_eq_mod x.toNat 8
  have htop : (w >>> 24).toNat < 2 ^ 8 := by
    rw [BitVec.toNat_ushiftRight, Nat.shiftRight_eq_div_pow]
    omega
  refine ⟨?_, ?_, ?_, ?_⟩
  · exact ((BitVec.toNat_setWidth _ _).trans (Nat.mod_eq_of_lt htop)).symm
  · exact (hmask _).trans (BitVec.toNat_setWidth _ _).symm
  · exact (hmask _).trans (BitVec.toNat_setWidth _ _).symm
  · simp only [hmask, byte, BitVec.toNat_setWidth]
    rfl

/-- The masks for the last round. -/
def rowMask : Fin 4 → U32 := ![0xff000000#32, 0x00ff0000#32, 0x0000ff00#32, 0x000000ff#32]

theorem getLsbD_rowMask : ∀ j r : Fin 4, ∀ i < 8,
    (rowMask j).getLsbD (24 - 8 * r.val + i) = decide (r = j) := by decide

/-- A mask keeps one byte. -/
@[simp] theorem byte_mask (w : U32) (j r : Fin 4) :
    byte (w &&& rowMask j) r = if r = j then byte w j else 0 := by
  refine elem_ext fun i hi => ?_
  rw [getLsbD_byte, BitVec.getLsbD_and, getLsbD_rowMask j r i hi]
  by_cases h : r = j
  · simp [h, getLsbD_byte]
  · simp [h]

/-! ## Rounds -/

section Rounds

variable {t : Tables} {m : Fin 4 → Gf256} {f : Gf256 → Gf256}

/-- Four words, by row or by column. -/
def words (a b c d : U32) : Fin 4 → U32 := ![a, b, c, d]

theorem Tables.Fits.column (h : t.Fits m f) (a b c d k : U32) (r : Fin 4) :
    byte (t.column a b c d k) r =
      ∑ j, mul (m (j - r)) (f (byte (words a b c d j) j)) + byte k r := by
  have h0 := h.row 0 (byte a 0) r
  have h1 := h.row 1 (byte b 1) r
  have h2 := h.row 2 (byte c 2) r
  have h3 := h.row 3 (byte d 3) r
  simp only [Tables.column, look, byte_xor, (toNat_bytes _).1, (toNat_bytes _).2.1,
    (toNat_bytes _).2.2.1, (toNat_bytes _).2.2.2, Fin.sum_univ_four]
  exact congrArg (· + byte k r) (congrArg₂ (· + ·) (congrArg₂ (· + ·) (congrArg₂ (· + ·) h0 h1) h2) h3)

theorem Tables.Fits.lastColumn (h : t.Fits m f) (a b c d k : U32) (r : Fin 4) :
    byte (t.lastColumn a b c d k) r = f (byte (words a b c d r) r) + byte k r := by
  have hmask (x : U32) (j : Fin 4) := byte_mask x j r
  simp only [Tables.lastColumn, byte_xor, look, (toNat_bytes _).1, (toNat_bytes _).2.1,
    (toNat_bytes _).2.2.1, (toNat_bytes _).2.2.2]
  rw [show 0xff000000#32 = rowMask 0 from rfl, show 0x00ff0000#32 = rowMask 1 from rfl,
    show 0x0000ff00#32 = rowMask 2 from rfl, show 0x000000ff#32 = rowMask 3 from rfl]
  simp only [hmask, h.last]
  fin_cases r <;> simp [words]

end Rounds

/-- The word of the column `c`. -/
def Block.col (s : Block) : Fin 4 → U32 := words s.s0 s.s1 s.s2 s.s3

/-- The columns as a state. -/
def Block.state (s : Block) : Aes.State := fun r c => byte (s.col c) r

/-- The key that `rk` points to. -/
def keyOf (rk : List U32) : Aes.State := fun r c => byte (rk.getD c 0) r

theorem words_add (w : Fin 4 → U32) (c : Fin 4) :
    words (w c) (w (c + 1)) (w (c + 2)) (w (c + 3)) = fun j => w (c + j) := by
  funext j
  fin_cases j <;> simp [words]

theorem words_sub (w : Fin 4 → U32) (c : Fin 4) :
    words (w c) (w (c - 1)) (w (c - 2)) (w (c - 3)) = fun j => w (c - j) := by
  funext j
  fin_cases j <;> simp [words]

variable {col : U32 → U32 → U32 → U32 → U32 → U32} {rk : List U32} {s : Block}

theorem encStep_col (c : Fin 4) : (encStep col rk s).col c =
    col (s.col c) (s.col (c + 1)) (s.col (c + 2)) (s.col (c + 3)) (rk.getD c 0) := by
  fin_cases c <;> rfl

theorem decStep_col (c : Fin 4) : (decStep col rk s).col c =
    col (s.col c) (s.col (c - 1)) (s.col (c - 2)) (s.col (c - 3)) (rk.getD c 0) := by
  fin_cases c <;> rfl

/-- **A round of `rijndaelEncrypt`.** -/
theorem encStep_round :
    (encStep te.column rk s).state = Aes.rounds.round s.state (keyOf rk) := by
  funext r c
  simp only [Block.state, encStep_col, te_fits.column, words_add, Aes.round_apply, keyOf]

theorem encStep_last :
    (encStep te.lastColumn rk s).state = Aes.rounds.sub s.state + keyOf rk := by
  funext r c
  simp only [Block.state, encStep_col, te_fits.lastColumn, words_add, Pi.add_apply, Aes.sub_apply,
    keyOf]

/-- **A round of `rijndaelDecrypt`.** -/
theorem decStep_round :
    (decStep td.column rk s).state = Aes.rounds.unround s.state (keyOf rk) := by
  funext r c
  simp only [Block.state, decStep_col, td_fits.column, words_sub, Aes.unround_apply, keyOf]

theorem decStep_last :
    (decStep td.lastColumn rk s).state = Aes.rounds.sub.symm s.state - keyOf rk := by
  funext r c
  simp only [Block.state, decStep_col, td_fits.lastColumn, words_sub, Pi.sub_apply, Gf256.sub_eq,
    Aes.sub_symm_apply, keyOf]

/-! ## A block -/

/-- The bytes of a block as a state, column by column. -/
def stateOf (p : List UInt8) : Aes.State := fun r c => ⟨(p.getD (4 * c.val + r.val) 0).toBitVec⟩

/-- The bytes of a state. -/
def bytesOf (s : Aes.State) : List UInt8 :=
  (List.finRange 4).flatMap fun c => (List.finRange 4).map fun r => UInt8.ofBitVec (s r c).bits

@[simp] theorem length_bytesOf (s : Aes.State) : (bytesOf s).length = 16 := rfl

@[simp] theorem stateOf_bytesOf (s : Aes.State) : stateOf (bytesOf s) = s := by
  funext r c
  fin_cases r <;> fin_cases c <;> rfl

theorem bytesOf_stateOf {p : List UInt8} (h : p.length = 16) : bytesOf (stateOf p) = p := by
  have hbytes : bytesOf (stateOf p) = (List.range 16).map fun i => p.getD i 0 := rfl
  rw [hbytes]
  refine List.ext_getElem (by simp [h]) fun i _ hi => ?_
  simp [hi]

/-- A byte moved to the row `j`. -/
theorem byte_place (x : BitVec 8) (j r : Fin 4) :
    byte (x.setWidth 32 <<< (24 - 8 * j.val)) r = if r = j then ⟨x⟩ else 0 := by
  refine elem_ext fun i hi => ?_
  rw [getLsbD_byte, BitVec.getLsbD_shiftLeft, BitVec.getLsbD_setWidth]
  by_cases h : r = j
  · have hlt : 24 - 8 * j.val + i < 32 := by omega
    have hi32 : i < 32 := by omega
    simp [h, hi, hlt, hi32]
  · have hne : r.val ≠ j.val := fun heq => h (Fin.ext heq)
    by_cases hlow : 24 - 8 * r.val + i < 24 - 8 * j.val
    · simp [h, hlow]
    · have hout : 8 ≤ 24 - 8 * r.val + i - (24 - 8 * j.val) := by omega
      simp [h, BitVec.getLsbD_of_ge x _ hout]

theorem byte_getU32 (p : List UInt8) (i : Nat) (r : Fin 4) :
    byte (getU32 p i) r = ⟨(p.getD (i + r.val) 0).toBitVec⟩ := by
  have h0 (x : BitVec 8) : byte (x.setWidth 32 <<< 24) r = if r = 0 then ⟨x⟩ else 0 := byte_place x 0 r
  have h1 (x : BitVec 8) : byte (x.setWidth 32 <<< 16) r = if r = 1 then ⟨x⟩ else 0 := byte_place x 1 r
  have h2 (x : BitVec 8) : byte (x.setWidth 32 <<< 8) r = if r = 2 then ⟨x⟩ else 0 := byte_place x 2 r
  have h3 (x : BitVec 8) : byte (x.setWidth 32) r = if r = 3 then ⟨x⟩ else 0 := by
    have h := byte_place x 3 r
    rwa [show 24 - 8 * (3 : Fin 4).val = 0 from rfl, BitVec.shiftLeft_zero] at h
  rw [getU32, byte_xor, byte_xor, byte_xor, h0, h1, h2, h3]
  fin_cases r <;> simp

theorem loadBlock_state (rk : List U32) (p : List UInt8) :
    (loadBlock rk p).state = stateOf p + keyOf rk := by
  funext r c
  fin_cases c <;> simp [loadBlock, Block.state, Block.col, words, keyOf, byte_getU32, stateOf]

theorem storeBlock_eq (s : Block) : storeBlock s = bytesOf s.state := rfl

/-- The keys that are added by the turns of the loop. -/
theorem roundLoop_spec {step : List U32 → Block → Block} {st : Aes.State → Aes.State → Aes.State}
    (hst : ∀ rk s, (step rk s).state = st s.state (keyOf rk)) (n : Nat) (rk : List U32) (s : Block) :
    (roundLoop step n rk s).1.state = ((List.range (2 * n + 1)).map fun i =>
        keyOf (rk.drop (4 * (i + 1)))).foldl st s.state ∧
      (roundLoop step n rk s).2 = rk.drop (4 * (2 * n + 2)) := by
  induction n generalizing rk s with
  | zero => simp [roundLoop, hst]
  | succ n ih =>
    have hrange : List.range (2 * (n + 1) + 1) = 0 :: 1 :: (List.range (2 * n + 1)).map (· + 2) := by
      have hlen : 2 * (n + 1) + 1 = 2 * n + 1 + 1 + 1 := by omega
      rw [hlen, List.range_succ_eq_map, List.range_succ_eq_map]
      simp
    have hplace (i : Nat) : 8 + 4 * (i + 1) = 4 * (i + 2 + 1) := by omega
    have hend : 8 + 4 * (2 * n + 2) = 4 * (2 * (n + 1) + 2) := by omega
    obtain ⟨h1, h2⟩ := ih (rk.drop 8) (step (rk.drop 8) (step (rk.drop 4) s))
    rw [roundLoop, h1, h2, hrange, List.drop_drop, hend]
    simp [hst, List.drop_drop, Function.comp_def, hplace]

/-- The words of `rk` are the bytes of the words of an expanded key, for `nr` rounds. -/
def Holds (rk : List U32) (nr : Nat) (w : Nat → Aes.Word) : Prop :=
  ∀ i < 4 * (nr + 1), byte (rk.getD i 0) = w i

theorem getD_drop' (i k : Nat) : (rk.drop i).getD k 0 = rk.getD (i + k) 0 := by
  simp

theorem Holds.keyOf {nr : Nat} {w : Nat → Aes.Word} (h : Holds rk nr w) {i : Nat} (hi : i ≤ nr) :
    keyOf (rk.drop (4 * i)) = Aes.keyState w i := by
  funext r c
  have hlt : 4 * i + c.val < 4 * (nr + 1) := by omega
  have hw := congrFun (h _ hlt) r
  simpa [Rijndael.keyOf, Aes.keyState] using hw

/-- **`rijndaelEncrypt` is the cipher**, with the key that `rk` has. -/
theorem rijndaelEncrypt_eq {n : Nat} {w : Nat → Aes.Word} (h : Holds rk (2 * n + 2) w)
    (pt : List UInt8) :
    rijndaelEncrypt rk (2 * n + 2) pt = bytesOf (Aes.cipher (2 * n + 2) w (stateOf pt)) := by
  obtain ⟨h1, h2⟩ := @roundLoop_spec (encStep te.column) _ (fun rk s => @encStep_round rk s) n rk
    (loadBlock rk pt)
  have hcount : (2 * n + 2) / 2 - 1 = n := by omega
  have hkeys : ((List.range (2 * n + 1)).map fun i => keyOf (rk.drop (4 * (i + 1)))) =
      Aes.middleKeys w (2 * n + 2) := by
    refine List.map_congr_left fun i hi => ?_
    have hi : i < 2 * n + 1 := List.mem_range.mp hi
    exact h.keyOf (by omega)
  have hfirst : keyOf rk = Aes.keyState w 0 := h.keyOf (Nat.zero_le _)
  have hlast : keyOf (rk.drop (4 * (2 * n + 2))) = Aes.keyState w (2 * n + 2) := h.keyOf le_rfl
  simp only [rijndaelEncrypt, crypt, hcount, storeBlock_eq]
  rw [encStep_last, h2, h1, hkeys, hlast, loadBlock_state, hfirst]
  rfl

/-- The words of `rk` for deciphering: the keys in the opposite order, those between the first and the
    last one with `MixColumns` undone. -/
structure HoldsInv (rk : List U32) (nr : Nat) (w : Nat → Aes.Word) : Prop where
  first : keyOf rk = Aes.keyState w nr
  middle : ∀ i < nr - 1,
    keyOf (rk.drop (4 * (i + 1))) = Aes.mixColumns.symm (Aes.keyState w (nr - (i + 1)))
  final : keyOf (rk.drop (4 * nr)) = Aes.keyState w 0

theorem invKeys_middleKeys (w : Nat → Aes.Word) (nr : Nat) :
    Aes.rounds.invKeys (Aes.middleKeys w nr) =
      (List.range (nr - 1)).map fun i => Aes.mixColumns.symm (Aes.keyState w (nr - (i + 1))) := by
  apply List.ext_getElem
  · simp [Spn.invKeys, Aes.middleKeys]
  · intro i hi hi'
    have hlt : i < nr - 1 := by simpa using hi'
    have hplace : nr - 1 - 1 - i + 1 = nr - (i + 1) := by omega
    simp [Spn.invKeys, Aes.middleKeys, hplace, Aes.rounds]

/-- **`rijndaelDecrypt` is the inverse cipher**, with the keys that `rk` has. -/
theorem rijndaelDecrypt_eq {n : Nat} {w : Nat → Aes.Word} (h : HoldsInv rk (2 * n + 2) w)
    (ct : List UInt8) :
    rijndaelDecrypt rk (2 * n + 2) ct = bytesOf (Aes.invCipher (2 * n + 2) w (stateOf ct)) := by
  obtain ⟨h1, h2⟩ := @roundLoop_spec (decStep td.column) _ (fun rk s => @decStep_round rk s) n rk
    (loadBlock rk ct)
  have hcount : (2 * n + 2) / 2 - 1 = n := by omega
  have hkeys : ((List.range (2 * n + 1)).map fun i => keyOf (rk.drop (4 * (i + 1)))) =
      Aes.rounds.invKeys (Aes.middleKeys w (2 * n + 2)) := by
    rw [invKeys_middleKeys]
    refine List.map_congr_left fun i hi => ?_
    exact h.middle i (List.mem_range.mp hi)
  simp only [rijndaelDecrypt, crypt, hcount, storeBlock_eq]
  rw [decStep_last, h2, h1, hkeys, h.final, loadBlock_state, h.first]
  rfl

/-! ## The key for enciphering -/

/-- The words of a cipher key. -/
def cipherWords (cipherKey : List UInt8) (i : Nat) : Aes.Word := fun r =>
  ⟨(cipherKey.getD (4 * i + r.val) 0).toBitVec⟩

@[simp] theorem byte_zero (r : Fin 4) : byte 0#32 r = 0 := by
  refine elem_ext fun i _ => ?_
  simp [getLsbD_byte]

theorem byte_subOnly (x : U32) : byte (subOnly x) = Aes.subWord (byte x) := by
  funext r
  have h : byte (subOnly x ^^^ 0) r = _ := te_fits.lastColumn x x x x 0 r
  have hwords : words x x x x r = x := by fin_cases r <;> rfl
  simpa [hwords, Aes.subWord] using h

/-- The rotation is in the places that the bytes are read at. -/
theorem byte_subRot (x : U32) : byte (subRot x) = Aes.subWord (Aes.rotWord (byte x)) := by
  funext r
  have hmask (y : U32) (j : Fin 4) := byte_mask y j r
  have hlast := te_fits.last
  simp only [subRot, byte_xor, look, (toNat_bytes _).1, (toNat_bytes _).2.1, (toNat_bytes _).2.2.1,
    (toNat_bytes _).2.2.2]
  rw [show 0xff000000#32 = rowMask 0 from rfl, show 0x00ff0000#32 = rowMask 1 from rfl,
    show 0x0000ff00#32 = rowMask 2 from rfl, show 0x000000ff#32 = rowMask 3 from rfl]
  simp only [hmask, show te4 = te.t4 from rfl, hlast]
  fin_cases r <;> simp [Aes.subWord, Aes.rotWord]

theorem byte_rcon : ∀ i < 10, byte (rcon.getD i 0) = Aes.rcon (i + 1) := by
  decide +kernel

/-- The first `n` words of the expanded key are there. -/
structure Expanded (nk : Nat) (key : Nat → Aes.Word) (n : Nat) (rk : List U32) : Prop where
  length : rk.length = n
  word : ∀ i < n, byte (rk.getD i 0) = Aes.word nk key i

section Expanded

variable {nk n : Nat} {key : Nat → Aes.Word} {rk : List U32}

theorem Expanded.put {f : U32 → U32} (h : Expanded nk key n rk) (hnk : 0 < nk) (hn : nk ≤ n)
    (hf : ∀ x, byte (f x) = Aes.temp nk n (byte x)) : Expanded nk key (n + 1) (put nk f rk) := by
  have hlen := h.length
  refine ⟨by simp [Rijndael.put, hlen], ?_⟩
  intro i hi
  obtain hlt | rfl := Nat.lt_succ_iff_lt_or_eq.mp hi
  · rw [Rijndael.put, List.getD_append _ _ _ _ (hlen.symm ▸ hlt)]
    exact h.word i hlt
  · have hprev : i - 1 < i := by omega
    have hback : i - nk < i := by omega
    have hput : (Rijndael.put nk f rk).getD i 0 = rk.getD (i - nk) 0 ^^^ f (rk.getD (i - 1) 0) := by
      simp [Rijndael.put, hlen]
    rw [hput, Aes.word_of_le key hnk hn, ← h.word _ hprev, ← h.word _ hback, ← hf]
    funext r
    exact byte_xor _ _ r

theorem Expanded.putId (h : Expanded nk key n rk) (hnk : 0 < nk) (hn : nk ≤ n) (h0 : n % nk ≠ 0)
    (h4 : ¬ (6 < nk ∧ n % nk = 4)) : Expanded nk key (n + 1) (Rijndael.put nk id rk) := by
  apply h.put hnk hn
  intro x
  simp only [id_eq, Aes.temp, h0, h4, if_false]

theorem Expanded.putSub (h : Expanded 8 key n rk) (hn : 8 ≤ n) (h4 : n % 8 = 4) :
    Expanded 8 key (n + 1) (Rijndael.put 8 subOnly rk) := by
  apply h.put (by simp) hn
  intro x
  simp [Aes.temp, h4, byte_subOnly]

theorem Expanded.putFirst {i : Nat} (hi : i < 10) (hnk : 0 < nk)
    (h : Expanded nk key (nk * (i + 1)) rk) :
    Expanded nk key (nk * (i + 1) + 1) (putFirst nk i rk) := by
  apply h.put hnk (Nat.le_mul_of_pos_right nk i.succ_pos)
  intro x
  funext r
  simp [Aes.temp, hnk, byte_subRot, ← byte_rcon i hi]

theorem Expanded.step128 {i : Nat} (hi : i < 10) (h : Expanded 4 key (4 * (i + 1)) rk) :
    Expanded 4 key (4 * (i + 2)) (step128 rk i) := by
  refine (((h.putFirst hi (by simp)).putId ?_ ?_ ?_ ?_).putId ?_ ?_ ?_ ?_).putId ?_ ?_ ?_ ?_ <;> omega

theorem Expanded.half192 {i : Nat} (hi : i < 10) (h : Expanded 6 key (6 * (i + 1)) rk) :
    Expanded 6 key (6 * (i + 1) + 4) (half192 rk i) := by
  refine (((h.putFirst hi (by simp)).putId ?_ ?_ ?_ ?_).putId ?_ ?_ ?_ ?_).putId ?_ ?_ ?_ ?_ <;> omega

theorem Expanded.step192 {i : Nat} (hi : i < 10) (h : Expanded 6 key (6 * (i + 1)) rk) :
    Expanded 6 key (6 * (i + 2)) (step192 rk i) := by
  refine ((h.half192 hi).putId ?_ ?_ ?_ ?_).putId ?_ ?_ ?_ ?_ <;> omega

theorem Expanded.half256 {i : Nat} (hi : i < 10) (h : Expanded 8 key (8 * (i + 1)) rk) :
    Expanded 8 key (8 * (i + 1) + 4) (half256 rk i) := by
  refine (((h.putFirst hi (by simp)).putId ?_ ?_ ?_ ?_).putId ?_ ?_ ?_ ?_).putId ?_ ?_ ?_ ?_ <;> omega

theorem Expanded.step256 {i : Nat} (hi : i < 10) (h : Expanded 8 key (8 * (i + 1)) rk) :
    Expanded 8 key (8 * (i + 2)) (step256 rk i) := by
  refine ((((h.half256 hi).putSub ?_ ?_).putId ?_ ?_ ?_ ?_).putId ?_ ?_ ?_ ?_).putId ?_ ?_ ?_ ?_ <;>
    omega

/-- A loop over whole rounds. -/
theorem Expanded.foldl {step : List U32 → Nat → List U32}
    (hstep : ∀ i < 10, ∀ rk, Expanded nk key (nk * (i + 1)) rk →
      Expanded nk key (nk * (i + 2)) (step rk i)) :
    ∀ m ≤ 10, Expanded nk key nk rk →
      Expanded nk key (nk * (m + 1)) ((List.range m).foldl step rk) := by
  intro m hm h
  induction m with
  | zero => simpa using h
  | succ m ih =>
    rw [List.range_succ, List.foldl_append]
    exact hstep m hm _ (ih (Nat.le_of_succ_le hm))

theorem expanded_keyWords (cipherKey : List UInt8) (nk : Nat) :
    Expanded nk (cipherWords cipherKey) nk (keyWords cipherKey nk) := by
  refine ⟨by simp [keyWords], ?_⟩
  intro i hi
  funext r
  rw [Aes.word_of_lt _ hi]
  simp [keyWords, hi, byte_getU32, cipherWords]

end Expanded

/-- The sizes that are supported, in words. -/
def Supported (nk : Nat) : Prop := nk = 4 ∨ nk = 6 ∨ nk = 8

instance (nk : Nat) : Decidable (Supported nk) := inferInstanceAs (Decidable (_ ∨ _))

/-- **`rijndaelKeySetupEnc` is the expansion of the key.** -/
theorem rijndaelKeySetupEnc_eq {nk : Nat} (h : Supported nk) (cipherKey : List UInt8) :
    ∃ rk, rijndaelKeySetupEnc cipherKey (32 * nk) = (rk, nk + 6) ∧
      Expanded nk (cipherWords cipherKey) (4 * (nk + 7)) rk := by
  have hwords := expanded_keyWords cipherKey nk
  obtain rfl | rfl | rfl := h
  · exact ⟨_, rfl, Expanded.foldl (fun i hi rk h => h.step128 hi) 10 le_rfl hwords⟩
  · have hloop := Expanded.foldl (fun i hi rk h => h.step192 hi) 7 (by simp) hwords
    exact ⟨_, rfl, hloop.half192 (by simp)⟩
  · have hloop := Expanded.foldl (fun i hi rk h => h.step256 hi) 6 (by simp) hwords
    exact ⟨_, rfl, hloop.half256 (by simp)⟩

/-! ## The key for deciphering -/

theorem getD_set (l : List U32) (i k : Nat) (x : U32) :
    (l.set i x).getD k 0 = if k = i ∧ i < l.length then x else l.getD k 0 := by
  simp only [List.getD_eq_getElem?_getD, List.getElem?_set]
  by_cases h : i = k
  · subst h
    by_cases hlt : i < l.length <;> simp [hlt]
  · simp [h, Ne.symm h]

@[simp] theorem length_swap (rk : List U32) (i j : Nat) : (swap rk i j).length = rk.length := by
  simp [swap]

theorem getD_swap {rk : List U32} {i j : Nat} (hi : i < rk.length) (hj : j < rk.length) (k : Nat) :
    (swap rk i j).getD k 0 =
      if k = j then rk.getD i 0 else if k = i then rk.getD j 0 else rk.getD k 0 := by
  rw [swap, getD_set, getD_set]
  simp only [List.length_set, hi, hj, and_true]

/-- Two stretches of words change places, the words one after the other. -/
theorem foldl_swap {rk : List U32} {i j n : Nat} (hij : i + n ≤ j) (hj : j + n ≤ rk.length) :
    ((List.range n).foldl (fun rk c => swap rk (i + c) (j + c)) rk).length = rk.length ∧
      ∀ k, ((List.range n).foldl (fun rk c => swap rk (i + c) (j + c)) rk).getD k 0 =
        if i ≤ k ∧ k < i + n then rk.getD (k - i + j) 0
        else if j ≤ k ∧ k < j + n then rk.getD (k - j + i) 0
        else rk.getD k 0 := by
  induction n with
  | zero =>
    refine ⟨rfl, fun k => ?_⟩
    have h1 : ¬ (i ≤ k ∧ k < i + 0) := by omega
    have h2 : ¬ (j ≤ k ∧ k < j + 0) := by omega
    simp only [h1, h2, if_false]
    rfl
  | succ n ih =>
    obtain ⟨hlen, hget⟩ := ih (by omega) (by omega)
    rw [List.range_succ, List.foldl_append]
    refine ⟨by simpa using hlen, fun k => ?_⟩
    have hi' : i + n < rk.length := by omega
    have hj' : j + n < rk.length := by omega
    rw [← hlen] at hi' hj'
    simp only [List.foldl_cons, List.foldl_nil, getD_swap hi' hj', hget]
    by_cases hk : k = j + n
    · subst hk
      grind
    by_cases hk' : k = i + n
    · subst hk'
      grind
    · grind

/-- The keys from `p` to `q` are in the opposite order, each with its words as they were. -/
theorem getD_invertOrder {rk : List U32} {p q : Nat} (hq : 4 * (q + 1) ≤ rk.length) :
    (invertOrder rk (4 * p) (4 * q)).length = rk.length ∧
      ∀ k, (invertOrder rk (4 * p) (4 * q)).getD k 0 =
        if 4 * p ≤ k ∧ k < 4 * (q + 1) then rk.getD (4 * (p + q - k / 4) + k % 4) 0
        else rk.getD k 0 := by
  induction h : q - p using Nat.strong_induction_on generalizing rk p q with
  | _ d ih =>
    rw [invertOrder]
    by_cases hpq : p < q
    · rw [if_pos (by omega)]
      obtain ⟨hlen, hget⟩ := @foldl_swap rk (4 * p) (4 * q) 4 (by omega) hq
      have hnext : 4 * p + 4 = 4 * (p + 1) := by omega
      have hprev : 4 * q - 4 = 4 * (q - 1) := by omega
      have hin : 4 * (q - 1 + 1) ≤ rk.length := by omega
      rw [← hlen] at hin
      obtain ⟨hlen', hget'⟩ := ih (q - 1 - (p + 1)) (by omega) hin rfl
      simp only [hnext, hprev]
      refine ⟨hlen'.trans hlen, fun k => ?_⟩
      rw [hget', hget, hget]
      -- `k` is in the first key, in the last one, between them, or outside
      by_cases hfirst : k / 4 = p
      · have hk : 4 * p ≤ k ∧ k < 4 * p + 4 := by omega
        have hout : ¬ (4 * (p + 1) ≤ k ∧ k < 4 * (q - 1 + 1)) := by omega
        have hall : 4 * p ≤ k ∧ k < 4 * (q + 1) := by omega
        rw [if_neg hout, if_pos hk, if_pos hall]
        congr 1
        omega
      by_cases hlast : k / 4 = q
      · have hk : ¬ (4 * p ≤ k ∧ k < 4 * p + 4) := by omega
        have hk' : 4 * q ≤ k ∧ k < 4 * q + 4 := by omega
        have hout : ¬ (4 * (p + 1) ≤ k ∧ k < 4 * (q - 1 + 1)) := by omega
        have hall : 4 * p ≤ k ∧ k < 4 * (q + 1) := by omega
        rw [if_neg hout, if_neg hk, if_pos hk', if_pos hall]
        congr 1
        omega
      · split_ifs <;> first | omega | rfl | (congr 1; omega)
    · rw [if_neg (by omega)]
      refine ⟨rfl, fun k => ?_⟩
      split
      · congr 1
        omega
      · rfl

/-- `MixColumns` is undone by way of the tables: the substitution is put on the byte first. -/
theorem byte_unmixWord (x : U32) (r : Fin 4) :
    byte (unmixWord x) r = ∑ j, mul (Aes.unmixRow (j - r)) (byte x j) := by
  have hwide (n : Gf256) : (n.bits.setWidth 32).toNat = n.bits.toNat :=
    BitVec.toNat_setWidth_of_le (by simp)
  have hlook (n : Gf256) (j : Fin 4) :
      byte ((td.row j).getD (look te4 (n.bits.setWidth 32) &&& 0xff#32).toNat 0) r =
        mul (Aes.unmixRow (j - r)) n := by
    have hindex : (n.bits.setWidth 32).toNat = n.bits.toNat := hwide n
    have hsub : (look te4 (n.bits.setWidth 32) &&& 0xff#32).toNat = (Aes.sbox n).bits.toNat := by
      rw [(toNat_bytes _).2.2.2, look, hindex]
      exact congrArg (fun a : Gf256 => a.bits.toNat) (te_fits.last n 3)
    rw [hsub, td_fits.row, Aes.invSbox_sbox]
  have hbyte (y : U32) (n : Gf256) (h : y.toNat = n.bits.toNat) : y = n.bits.setWidth 32 :=
    BitVec.eq_of_toNat_eq (h.trans (hwide n).symm)
  simp only [unmixWord, byte_xor, hbyte _ _ (toNat_bytes x).1, hbyte _ _ (toNat_bytes x).2.1,
    hbyte _ _ (toNat_bytes x).2.2.1, hbyte _ _ (toNat_bytes x).2.2.2, Fin.sum_univ_four]
  exact congrArg₂ (· + ·) (congrArg₂ (· + ·) (congrArg₂ (· + ·) (hlook _ 0) (hlook _ 1)) (hlook _ 2))
    (hlook _ 3)

theorem getD_unmixKey {rk : List U32} {i : Nat} (hi : 4 * (i + 1) ≤ rk.length) :
    (unmixKey rk i).length = rk.length ∧
      ∀ k, (unmixKey rk i).getD k 0 =
        if k / 4 = i then unmixWord (rk.getD k 0) else rk.getD k 0 := by
  have hrange : List.range 4 = [0, 1, 2, 3] := rfl
  have hlt (c : Nat) (hc : c < 4) : 4 * i + c < rk.length := by omega
  have hfirst : 4 * i < rk.length := by omega
  simp only [unmixKey, hrange, List.foldl_cons, List.foldl_nil, List.length_set, getD_set, true_and]
  intro k
  by_cases hk : k / 4 = i
  · have hc : k = 4 * i + 0 ∨ k = 4 * i + 1 ∨ k = 4 * i + 2 ∨ k = 4 * i + 3 := by omega
    rw [if_pos hk]
    rcases hc with rfl | rfl | rfl | rfl <;> simp [hlt, hfirst]
  · have hc (c : Nat) (h : c < 4) : ¬ k = 4 * i + c := by omega
    have hc0 : ¬ k = 4 * i := by omega
    rw [if_neg hk]
    simp [hc, hc0]

theorem getD_foldl_unmixKey {rk : List U32} {n : Nat} (hn : 4 * (n + 1) ≤ rk.length) :
    ((List.range' 1 n).foldl unmixKey rk).length = rk.length ∧
      ∀ k, ((List.range' 1 n).foldl unmixKey rk).getD k 0 =
        if 1 ≤ k / 4 ∧ k / 4 ≤ n then unmixWord (rk.getD k 0) else rk.getD k 0 := by
  induction n with
  | zero =>
    refine ⟨rfl, fun k => ?_⟩
    have hk : ¬ (1 ≤ k / 4 ∧ k / 4 ≤ 0) := by omega
    simp only [hk, if_false]
    rfl
  | succ n ih =>
    obtain ⟨hlen, hget⟩ := ih (by omega)
    rw [List.range'_1_concat, List.foldl_append]
    obtain ⟨hlen', hget'⟩ := @getD_unmixKey ((List.range' 1 n).foldl unmixKey rk) (1 + n)
      (by omega)
    refine ⟨hlen'.trans hlen, fun k => ?_⟩
    rw [List.foldl_cons, List.foldl_nil, hget', hget]
    split <;> split <;> split <;> first | rfl | omega

/-- What `rijndaelKeySetupDec` does with an expanded key. -/
theorem Holds.inverted {nr : Nat} {w : Nat → Aes.Word} {rk : List U32} (h : Holds rk nr w)
    (hlen : rk.length = 4 * (nr + 1)) (hnr : 0 < nr) :
    HoldsInv ((List.range' 1 (nr - 1)).foldl unmixKey (invertOrder rk 0 (4 * nr))) nr w := by
  obtain ⟨hlen', hget⟩ := @getD_invertOrder rk 0 nr hlen.ge
  rw [Nat.mul_zero] at hlen' hget
  have hroom : 4 * (nr - 1 + 1) ≤ (invertOrder rk 0 (4 * nr)).length := by omega
  have hout := (getD_foldl_unmixKey hroom).2
  have hword (i : Nat) (hi : i ≤ nr) (c : Fin 4) :
      byte ((invertOrder rk 0 (4 * nr)).getD (4 * i + c) 0) = w (4 * (nr - i) + c) := by
    have hin : 0 ≤ 4 * i + c.val ∧ 4 * i + c.val < 4 * (nr + 1) := by omega
    have hplace : 4 * (0 + nr - (4 * i + c.val) / 4) + (4 * i + c.val) % 4 = 4 * (nr - i) + c := by
      omega
    rw [hget, if_pos hin, hplace]
    exact h _ (by omega)
  constructor
  · funext r c
    have hedge : ¬ (1 ≤ c.val / 4 ∧ c.val / 4 ≤ nr - 1) := by omega
    have hw := congrFun (hword 0 (Nat.zero_le _) c) r
    simp only [Nat.mul_zero, Nat.zero_add, Nat.sub_zero] at hw
    rw [Rijndael.keyOf, hout, if_neg hedge, hw, Aes.keyState]
  · intro i hi
    funext r c
    have hmid : 1 ≤ (4 * (i + 1) + c.val) / 4 ∧ (4 * (i + 1) + c.val) / 4 ≤ nr - 1 := by omega
    rw [Rijndael.keyOf, getD_drop', hout, if_pos hmid, byte_unmixWord, hword (i + 1) (by omega)]
    rfl
  · funext r c
    have hedge : ¬ (1 ≤ (4 * nr + c.val) / 4 ∧ (4 * nr + c.val) / 4 ≤ nr - 1) := by omega
    rw [Rijndael.keyOf, getD_drop', hout, if_neg hedge, hword nr le_rfl, Nat.sub_self, Aes.keyState]

theorem rijndaelKeySetupDec_eq {nk : Nat} (h : Supported nk) (cipherKey : List UInt8) :
    ∃ rk, rijndaelKeySetupDec cipherKey (32 * nk) = (rk, nk + 6) ∧
      HoldsInv rk (nk + 6) (Aes.word nk (cipherWords cipherKey)) := by
  obtain ⟨rk, hrk, hexp⟩ := rijndaelKeySetupEnc_eq h cipherKey
  have hholds : Holds rk (nk + 6) (Aes.word nk (cipherWords cipherKey)) := hexp.word
  refine ⟨_, ?_, hholds.inverted hexp.length (Nat.succ_pos _)⟩
  rw [rijndaelKeySetupDec, hrk]

/-! ## The cipher -/

/-- The number of rounds is even. -/
theorem Supported.rounds {nk : Nat} (h : Supported nk) : ∃ n, nk + 6 = 2 * n + 2 := by
  obtain rfl | rfl | rfl := h
  exacts [⟨4, rfl⟩, ⟨5, rfl⟩, ⟨6, rfl⟩]

/-- The cipher of a block, with the key that `rijndaelKeySetupEnc` makes of `nk` words. -/
def encryptBlock (nk : Nat) (cipherKey pt : List UInt8) : List UInt8 :=
  let (rk, nr) := rijndaelKeySetupEnc cipherKey (32 * nk)
  rijndaelEncrypt rk nr pt

/-- Deciphering, with the key that `rijndaelKeySetupDec` makes. -/
def decryptBlock (nk : Nat) (cipherKey ct : List UInt8) : List UInt8 :=
  let (rk, nr) := rijndaelKeySetupDec cipherKey (32 * nk)
  rijndaelDecrypt rk nr ct

/-- **The code is the standard's cipher**, for each supported size of key. -/
theorem encryptBlock_eq_cipher {nk : Nat} (h : Supported nk) (cipherKey pt : List UInt8) :
    encryptBlock nk cipherKey pt =
      bytesOf (Aes.cipher (nk + 6) (Aes.word nk (cipherWords cipherKey)) (stateOf pt)) := by
  obtain ⟨rk, hrk, hexp⟩ := rijndaelKeySetupEnc_eq h cipherKey
  obtain ⟨n, hn⟩ := h.rounds
  have hholds : Holds rk (nk + 6) (Aes.word nk (cipherWords cipherKey)) := hexp.word
  rw [encryptBlock, hrk]
  rw [hn] at hholds ⊢
  exact rijndaelEncrypt_eq hholds pt

/-- For a key of 128 bits, the first example of the standard. -/
theorem encryptBlock_eq_cipher_128 :
    let key := (List.range 16).map UInt8.ofNat
    let pt := (List.range 16).map fun i => UInt8.ofNat (0x11 * i)
    encryptBlock 4 key pt = bytesOf (Aes.cipher 10 (Aes.word 4 (cipherWords key)) (stateOf pt)) ∧
      encryptBlock 4 key pt = [0x69, 0xc4, 0xe0, 0xd8, 0x6a, 0x7b, 0x04, 0x30,
        0xd8, 0xcd, 0xb7, 0x80, 0x70, 0xb4, 0xc5, 0x5a] :=
  ⟨encryptBlock_eq_cipher (by decide) _ _, by decide +kernel⟩

/-- **Deciphering gives back the block.** -/
theorem decryptBlock_encryptBlock {nk : Nat} (h : Supported nk) (cipherKey : List UInt8)
    {pt : List UInt8} (hpt : pt.length = 16) :
    decryptBlock nk cipherKey (encryptBlock nk cipherKey pt) = pt := by
  obtain ⟨rk, hrk, hinv⟩ := rijndaelKeySetupDec_eq h cipherKey
  obtain ⟨n, hn⟩ := h.rounds
  rw [encryptBlock_eq_cipher h, decryptBlock, hrk]
  rw [hn] at hinv ⊢
  show rijndaelDecrypt rk (2 * n + 2) _ = pt
  rw [rijndaelDecrypt_eq hinv, stateOf_bytesOf, Aes.invCipher_cipher, bytesOf_stateOf hpt]

theorem decryptBlock_encryptBlock_256 :
    let key := (List.range 32).map UInt8.ofNat
    let pt := (List.range 16).map fun i => UInt8.ofNat (0x11 * i)
    decryptBlock 8 key (encryptBlock 8 key pt) = pt :=
  decryptBlock_encryptBlock (by decide) _ (by decide)

end CodeSLoop.Rijndael
