import CodeSLoop.Lib.Gf256
import CodeSLoop.Lib.Spn
import Mathlib.Algebra.BigOperators.Fin
import Mathlib.Algebra.BigOperators.Group.Finset.Lemmas
import Mathlib.Algebra.Group.Fin.Basic
import Mathlib.Algebra.Group.Pi.Basic
import Mathlib.Algebra.Group.Units.Equiv
import Mathlib.Data.BitVec
import Mathlib.Data.Fintype.Pi
import Mathlib.Tactic.FinCases

/-!
# The Advanced Encryption Standard

The cipher as the standard describes it: a state is a square of sixteen bytes, each round substitutes
every byte (`sbox`), rotates the rows (`shiftRows`) and multiplies the columns by a matrix
(`mixColumns`), and the keys of the rounds are taken from a sequence of words that begins with the
words of the cipher key (`word`).

All of this is an instance of `Spn`, so deciphering is the inverse of enciphering
(`Spn.decipher_encipher`). Nothing is said about what the cipher hides.
-/

namespace Aes

open Gf256

/-- The state: first the row, then the column. -/
abbrev State := Fin 4 → Fin 4 → Gf256

/-- One column. -/
abbrev Word := Fin 4 → Gf256

/-! ## Substitution -/

/-- On finitely many values, what is undone from one side is undone from the other. -/
theorem rightInverse_of_finite {α : Type*} [Finite α] {f g : α → α}
    (h : Function.LeftInverse f g) : Function.RightInverse f g :=
  h.rightInverse_of_injective (Finite.injective_iff_surjective.mpr h.surjective)

def rotl (a : Gf256) (n : Nat) : Gf256 := ⟨a.bits.rotateLeft n⟩

/-- The inverse of the byte, and an affine map of its bits. -/
def sbox (a : Gf256) : Gf256 :=
  let b := inv a
  b + rotl b 1 + rotl b 2 + rotl b 3 + rotl b 4 + ofNat 0x63

def invSbox (a : Gf256) : Gf256 := inv (rotl a 1 + rotl a 3 + rotl a 6 + ofNat 0x05)

@[simp] theorem invSbox_sbox : ∀ a, invSbox (sbox a) = a := forall_elem (by decide +kernel)

@[simp] theorem sbox_invSbox (a : Gf256) : sbox (invSbox a) = a :=
  rightInverse_of_finite invSbox_sbox a

/-- `SubBytes`. -/
def subBytes : Equiv.Perm State where
  toFun s r c := sbox (s r c)
  invFun s r c := invSbox (s r c)
  left_inv s := by simp
  right_inv s := by simp

/-- `ShiftRows`: row `r` is rotated by `r` places to the left. -/
def shiftRows : Equiv.Perm State where
  toFun s r c := s r (c + r)
  invFun s r c := s r (c - r)
  left_inv s := by
    funext r c
    simp
  right_inv s := by
    funext r c
    simp

/-! ## Mixing the columns -/

/-- Each column is multiplied by the matrix with `m` in its first row, and in each further row one
    place to the right. -/
def circulant (m : Fin 4 → Gf256) : State →+ State where
  toFun s r c := ∑ k, mulHom (m (k - r)) (s k c)
  map_zero' := by
    funext r c
    simp [-mulHom_apply]
  map_add' s t := by
    funext r c
    simp [-mulHom_apply, Finset.sum_add_distrib]

theorem circulant_apply (m : Fin 4 → Gf256) (s : State) (r c : Fin 4) :
    circulant m s r c = ∑ k, mul (m (k - r)) (s k c) := rfl

/-- The product of two such matrices is known from the first row, and there from eight bytes. -/
theorem circulant_circulant {d e : Fin 4 → Gf256}
    (h : ∀ (j : Fin 4), ∀ i < 8, ∑ k, mul (d k) (mul (e (j - k)) (ofNat (2 ^ i))) =
      if j = 0 then ofNat (2 ^ i) else 0) (s : State) :
    circulant d (circulant e s) = s := by
  have hall (j : Fin 4) (x : Gf256) :
      ∑ k, mul (d k) (mul (e (j - k)) x) = if j = 0 then x else 0 := by
    let f : Gf256 →+ Gf256 := ∑ k, (mulHom (d k)).comp (mulHom (e (j - k)))
    let g : Gf256 →+ Gf256 := if j = 0 then AddMonoidHom.id Gf256 else 0
    have hf (x : Gf256) : f x = ∑ k, mul (d k) (mul (e (j - k)) x) := by
      simp [f, AddMonoidHom.finsetSum_apply]
    have hg (x : Gf256) : g x = if j = 0 then x else 0 := by
      show (if j = 0 then AddMonoidHom.id Gf256 else 0 : Gf256 →+ Gf256) x = _
      split <;> rfl
    have hfg : f = g := by
      apply hom_ext
      intro i hi
      rw [hf, hg, h j i hi]
    rw [← hf, ← hg, hfg]
  funext r c
  calc circulant d (circulant e s) r c
      = ∑ k, ∑ l, mul (d (k - r)) (mul (e (l - k)) (s l c)) := by
        simp only [circulant_apply, ← mulHom_apply, map_sum]
    _ = ∑ l, ∑ k, mul (d (k - r)) (mul (e (l - k)) (s l c)) := Finset.sum_comm
    _ = ∑ l, ∑ k, mul (d k) (mul (e (l - r - k)) (s l c)) := by
        refine Finset.sum_congr rfl fun l _ => ?_
        refine Fintype.sum_equiv (Equiv.subRight r) _ _ fun k => ?_
        simp
    _ = ∑ l, if l - r = 0 then s l c else 0 := by simp only [hall]
    _ = s r c := by simp [sub_eq_zero]

/-- The first row of the matrix of `MixColumns`. -/
def mixRow : Fin 4 → Gf256 := ![ofNat 2, ofNat 3, ofNat 1, ofNat 1]

/-- The first row of its inverse. -/
def unmixRow : Fin 4 → Gf256 := ![ofNat 0xe, ofNat 0xb, ofNat 0xd, ofNat 0x9]

theorem unmix_mix (s : State) : circulant unmixRow (circulant mixRow s) = s := by
  refine circulant_circulant ?_ s
  simp only [Fin.sum_univ_four]
  decide +kernel

/-- `MixColumns`. -/
def mixColumns : State ≃+ State where
  toFun := circulant mixRow
  invFun := circulant unmixRow
  left_inv := unmix_mix
  right_inv := rightInverse_of_finite unmix_mix
  map_add' := map_add _

/-- The rounds. -/
def rounds : Spn State where
  sub := subBytes.trans shiftRows
  mix := mixColumns

theorem round_apply (s k : State) (r c : Fin 4) :
    rounds.round s k r c = ∑ j, mul (mixRow (j - r)) (sbox (s j (c + j))) + k r c := rfl

theorem unround_apply (s k : State) (r c : Fin 4) :
    rounds.unround s k r c = ∑ j, mul (unmixRow (j - r)) (invSbox (s j (c - j))) + k r c := rfl

theorem sub_apply (s : State) (r c : Fin 4) : rounds.sub s r c = sbox (s r (c + r)) := rfl

theorem sub_symm_apply (s : State) (r c : Fin 4) :
    rounds.sub.symm s r c = invSbox (s r (c - r)) := rfl

/-! ## Words as numbers -/

/-- The byte in row `r` of a column. -/
def byte (w : BitVec 32) (r : Fin 4) : Gf256 := ⟨(w >>> (24 - 8 * r.val)).setWidth 8⟩

/-- A column from its bytes. -/
def pack (f : Word) : BitVec 32 := (f 0).bits ++ (f 1).bits ++ (f 2).bits ++ (f 3).bits

@[simp] theorem byte_xor (v w : BitVec 32) (r : Fin 4) : byte (v ^^^ w) r = byte v r + byte w r :=
  Gf256.ext (by simp [byte, BitVec.ushiftRight_xor_distrib])

theorem getLsbD_byte (w : BitVec 32) (r : Fin 4) (i : Nat) :
    (byte w r).bits.getLsbD i = (decide (i < 8) && w.getLsbD (24 - 8 * r.val + i)) := by
  simp only [byte, BitVec.getLsbD_setWidth, BitVec.getLsbD_ushiftRight]

theorem elem_ext {a b : Gf256} (h : ∀ i < 8, a.bits.getLsbD i = b.bits.getLsbD i) : a = b :=
  Gf256.ext (BitVec.eq_of_getLsbD_eq h)

@[simp] theorem byte_pack (f : Word) (r : Fin 4) : byte (pack f) r = f r := by
  refine elem_ext fun i hi => ?_
  rw [getLsbD_byte, pack]
  have h3 : ¬ 24 + i < 8 := by omega
  have h2 : ¬ 16 + i < 8 := by omega
  have h1 : ¬ 8 + i < 8 := by omega
  have h32 : 24 + i - 8 - 8 - 8 = i ∧ 16 + i - 8 - 8 = i ∧ 8 + i - 8 = i := by omega
  have h31 : ¬ 24 + i - 8 < 8 ∧ ¬ 24 + i - 8 - 8 < 8 ∧ ¬ 16 + i - 8 < 8 := by omega
  fin_cases r <;> simp only [BitVec.getLsbD_append] <;> simp [hi, h1, h2, h3, h31, h32]

/-- What the byte in row `j` contributes to a column, from words that have that byte substituted. -/
def mixed (m : Fin 4 → Gf256) (t4 : List (BitVec 32)) (j : Fin 4) : List (BitVec 32) :=
  t4.map fun w => pack fun r => mul (m (j - r)) (byte w 3)

/-! ## Keys -/

def rotWord (w : Word) : Word := fun r => w (r + 1)

def subWord (w : Word) : Word := fun r => sbox (w r)

/-- The constant for the `i`-th time that the words of the key have been gone through. -/
def rcon (i : Nat) : Word := fun r => if r = 0 then (mul (ofNat 2))^[i - 1] (ofNat 1) else 0

/-- What is added for the word `i` of a key of `nk` words, from the word before. -/
def temp (nk i : Nat) (w : Word) : Word :=
  if i % nk = 0 then subWord (rotWord w) + rcon (i / nk)
  else if 6 < nk ∧ i % nk = 4 then subWord w
  else w

/-- The words of the expanded key. -/
def word (nk : Nat) (key : Nat → Word) (i : Nat) : Word :=
  if i < nk ∨ nk = 0 then key i
  else word nk key (i - nk) + temp nk i (word nk key (i - 1))
termination_by i
decreasing_by all_goals omega

theorem word_of_lt {nk i : Nat} (key : Nat → Word) (h : i < nk) : word nk key i = key i := by
  rw [word, if_pos (Or.inl h)]

theorem word_of_le {nk i : Nat} (key : Nat → Word) (hnk : 0 < nk) (h : nk ≤ i) :
    word nk key i = word nk key (i - nk) + temp nk i (word nk key (i - 1)) := by
  have hnot : ¬ (i < nk ∨ nk = 0) := by omega
  rw [word, if_neg hnot]

/-- The key of round `i`, from words. -/
def keyState (w : Nat → Word) (i : Nat) : State := fun r c => w (4 * i + c) r

/-- The keys of the rounds between the first key and that of the last round, of `nr` rounds. -/
def middleKeys (w : Nat → Word) (nr : Nat) : List State :=
  (List.range (nr - 1)).map fun i => keyState w (i + 1)

/-- **The cipher**, with `nr` rounds and the words of an expanded key. -/
def cipher (nr : Nat) (w : Nat → Word) : State → State :=
  rounds.encipher (keyState w 0) (middleKeys w nr) (keyState w nr)

/-- Its inverse, by rounds of the same shape. -/
def invCipher (nr : Nat) (w : Nat → Word) : State → State :=
  rounds.decipher (keyState w nr) (rounds.invKeys (middleKeys w nr)) (keyState w 0)

theorem invCipher_cipher (nr : Nat) (w : Nat → Word) (s : State) :
    invCipher nr w (cipher nr w s) = s :=
  Spn.decipher_encipher _ _ _ s

end Aes
