import Mathlib.Algebra.Order.BigOperators.Group.List
import Mathlib.Algebra.Order.Ring.Nat
import Mathlib.Data.List.Induction

/-!
# Numbers as bytes, and data padded to four

`be w n` is the number `n` in `w` bytes, the highest first, and `ofBe` reads such bytes back.
`round4 n` is `n` rounded up to a multiple of four: where data of `n` bytes is followed by
zeros up to a multiple of four, it takes up `round4 n` bytes.
-/

namespace Bytes

/-- The low `w` bytes of `n`, highest first. -/
def be : Nat → Nat → List UInt8
  | 0, _ => []
  | w + 1, n => be w (n / 256) ++ [UInt8.ofNat n]

/-- The number that bytes stand for, highest first. -/
def ofBe (bs : List UInt8) : Nat := bs.foldl (fun n b => n * 256 + b.toNat) 0

@[simp] theorem length_be {w n : Nat} : (be w n).length = w := by
  induction w generalizing n with
  | zero => rfl
  | succ w ih => simp [be, ih]

theorem ofBe_concat {bs : List UInt8} {b : UInt8} : ofBe (bs ++ [b]) = ofBe bs * 256 + b.toNat := by
  simp [ofBe]

theorem ofBe_be {w n : Nat} (h : n < 256 ^ w) : ofBe (be w n) = n := by
  induction w generalizing n with
  | zero =>
    rw [Nat.pow_zero] at h
    have : n = 0 := by omega
    rw [this]
    rfl
  | succ w ih =>
    have hdiv : n / 256 < 256 ^ w := by
      rw [Nat.pow_succ] at h
      omega
    have hb : (UInt8.ofNat n).toNat = n % 256 := UInt8.toNat_ofNat'
    rw [be, ofBe_concat, ih hdiv, hb]
    omega

theorem be_ofBe (bs : List UInt8) : be bs.length (ofBe bs) = bs := by
  induction bs using List.reverseRecOn with
  | nil => rfl
  | append_singleton bs b ih =>
    have := b.toNat_lt
    have hdiv : (ofBe bs * 256 + b.toNat) / 256 = ofBe bs := by omega
    have hmod : UInt8.ofNat (ofBe bs * 256 + b.toNat) = b := by
      rw [← UInt8.toNat_inj, UInt8.toNat_ofNat']
      omega
    rw [List.length_append, List.length_singleton, be, ofBe_concat, hdiv, hmod, ih]

theorem ofBe_lt (bs : List UInt8) : ofBe bs < 256 ^ bs.length := by
  induction bs using List.reverseRecOn with
  | nil => exact Nat.one_pos
  | append_singleton bs b ih =>
    have := b.toNat_lt
    rw [ofBe_concat, List.length_append, List.length_singleton, Nat.pow_succ]
    omega

/-- The value of bytes of which the first ones are zero. -/
theorem ofBe_append {xs ys : List UInt8} : ofBe (xs ++ ys) = ofBe xs * 256 ^ ys.length + ofBe ys := by
  induction ys using List.reverseRecOn with
  | nil => simp [ofBe]
  | append_singleton ys b ih =>
    rw [← List.append_assoc, ofBe_concat, ofBe_concat, ih, List.length_append,
      List.length_singleton, Nat.pow_succ, Nat.add_mul, Nat.mul_assoc, Nat.add_assoc]

/-- `n` rounded up to a multiple of four. -/
def round4 (n : Nat) : Nat := (n + 3) / 4 * 4

theorem le_round4 (n : Nat) : n ≤ round4 n := by unfold round4; omega

theorem round4_mod (n : Nat) : round4 n % 4 = 0 := by unfold round4; omega

theorem round4_of_mod {n : Nat} (h : n % 4 = 0) : round4 n = n := by unfold round4; omega

theorem round4_add {m n : Nat} (h : m % 4 = 0) : round4 (m + n) = m + round4 n := by
  unfold round4; omega

/-- The zeros after `n` bytes of data. -/
def pad (n : Nat) : List UInt8 := List.replicate (round4 n - n) 0

@[simp] theorem length_pad {n : Nat} : (pad n).length = round4 n - n := List.length_replicate

end Bytes
