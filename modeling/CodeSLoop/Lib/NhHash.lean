import Mathlib.Algebra.BigOperators.Group.Finset.Basic
import Mathlib.Algebra.Order.Ring.Abs
import Mathlib.Algebra.Ring.Divisibility.Basic
import Mathlib.Data.BitVec
import Mathlib.Data.Int.ModEq
import Mathlib.Tactic.LinearCombination
import Mathlib.Tactic.Linarith
import Mathlib.Tactic.Ring

/-!
# The hash NH

A message is a sequence of words that come in blocks of eight. Each word is added to a word of the
key, without a carry out; then the words of a block are multiplied by those four places further on,
and all products are added (`hash`), in words twice as wide.

The hash of a message is the sum of those of its parts, each with its part of the key
(`hash_add`). If two messages with the same number of blocks differ in a word, then of all the keys
that differ in one word only, the partner of that one, at most one lets the two hashes differ by a
given amount (`hash_unique`): no such amount can be hit without a guess at the key.
-/

namespace Nh

open Finset

variable {w v : Nat}

/-- The product of two words, each with its word of the key added. -/
def pair (v : Nat) (k l x y : BitVec w) : BitVec v := (k + x).setWidth v * (l + y).setWidth v

/-- A block: the word `i` goes with the word `i + 4`. -/
def block (v : Nat) (k m : Nat → BitVec w) : BitVec v :=
  ∑ i ∈ range 4, pair v (k i) (k (i + 4)) (m i) (m (i + 4))

/-- The sequence from the place `a` on. -/
def from' {α : Type*} (a : Nat) (f : Nat → α) : Nat → α := fun i => f (a + i)

/-- The hash of `n` blocks. -/
def hash (v : Nat) (k m : Nat → BitVec w) (n : Nat) : BitVec v :=
  ∑ j ∈ range n, block v (from' (8 * j) k) (from' (8 * j) m)

@[simp] theorem from'_from' {α : Type*} (a b : Nat) (f : Nat → α) :
    from' b (from' a f) = from' (a + b) f := by
  funext i
  simp [from', Nat.add_assoc]

@[simp] theorem from'_zero {α : Type*} (f : Nat → α) : from' 0 f = f := by
  funext i
  simp [from']

variable {k k' m m' : Nat → BitVec w}

@[simp] theorem hash_zero : hash v k m 0 = 0 := rfl

@[simp] theorem hash_one : hash v k m 1 = block v k m := by
  simp [hash]

/-- The hash of two parts, one after the other. -/
theorem hash_add (a b : Nat) :
    hash v k m (a + b) = hash v k m a + hash v (from' (8 * a) k) (from' (8 * a) m) b := by
  simp only [hash, sum_range_add, from'_from', Nat.mul_add]

theorem block_congr (h : ∀ i < 8, m i = m' i) : block v k m = block v k m' := by
  refine sum_congr rfl fun i hi => ?_
  have hi : i < 4 := mem_range.mp hi
  rw [h i (by omega), h (i + 4) (by omega)]

/-- Only the words of the blocks matter. -/
theorem hash_congr {n : Nat} (h : ∀ i < 8 * n, m i = m' i) : hash v k m n = hash v k m' n := by
  refine sum_congr rfl fun j hj => block_congr fun i hi => ?_
  have hj : j < n := mem_range.mp hj
  exact h _ (by omega)

/-! ## Collisions -/

/-- Two words to which the same was added are as far apart as before, or go around once. -/
theorem add_cases {x l l' : BitVec w} (h : l.toNat < l'.toNat) :
    ((l' + x).toNat : ℤ) - (l + x).toNat = l'.toNat - l.toNat ∨
      ((l' + x).toNat : ℤ) - (l + x).toNat = (l'.toNat : ℤ) - l.toNat - 2 ^ w := by
  have hx := x.isLt
  have hl := l'.isLt
  simp only [BitVec.toNat_add]
  have hcast : ((2 ^ w : ℕ) : ℤ) = 2 ^ w := by simp
  generalize 2 ^ w = W at *
  by_cases h1 : l.toNat + x.toNat < W <;> by_cases h2 : l'.toNat + x.toNat < W
  · left
    rw [Nat.mod_eq_of_lt h1, Nat.mod_eq_of_lt h2]
    push_cast
    ring
  · right
    rw [Nat.mod_eq_of_lt h1, Nat.mod_eq_sub_mod (by omega), Nat.mod_eq_of_lt (by omega)]
    omega
  · omega
  · left
    rw [Nat.mod_eq_sub_mod (a := l.toNat + x.toNat) (by omega),
      Nat.mod_eq_sub_mod (a := l'.toNat + x.toNat) (by omega), Nat.mod_eq_of_lt (by omega),
      Nat.mod_eq_of_lt (by omega)]
    omega

/-- A difference of two products that is small, but not zero. -/
theorem not_dvd {W c c' d u u' : ℤ} (hc : 0 ≤ c) (hc' : 0 ≤ c') (hcW : c < W) (hcW' : c' < W)
    (hne : c ≠ c') (hd : 0 < d) (hdW : d < W) (hu : u = d ∨ u = d - W) (hu' : u' = d ∨ u' = d - W) :
    ¬ W * W ∣ c * u - c' * u' := by
  have hsmall {z : ℤ} (h0 : z ≠ 0) (hlt : z < W * W) (hgt : -(W * W) < z) : ¬ W * W ∣ z :=
    fun h => h0 (Int.eq_zero_of_abs_lt_dvd h (abs_lt.mpr ⟨hgt, hlt⟩))
  have hdiff : |c - c'| < W := by
    rw [abs_lt]
    constructor <;> linarith
  -- both sums go around, or neither does: one factor is the difference of `c` and `c'`
  have hsame {z : ℤ} (h0 : z ≠ 0) (hz : |z| < W) : ¬ W * W ∣ c * z - c' * z := by
    have hmul : |(c - c') * z| < W * W := by
      rw [abs_mul]
      exact mul_lt_mul'' hdiff hz (abs_nonneg _) (abs_nonneg _)
    rw [← sub_mul]
    exact fun h => mul_ne_zero (sub_ne_zero.mpr hne) h0 (Int.eq_zero_of_abs_lt_dvd h hmul)
  have hback : |d - W| < W := by
    rw [abs_lt]
    constructor <;> linarith
  -- one of them does: a mean of `c` and `c'`, `W` times
  have hmean {x y : ℤ} (hx : 0 ≤ x) (hy : 0 ≤ y) (hxW : x < W) (hyW : y < W) (hxy : x ≠ y) :
      0 < x * d + y * (W - d) ∧ x * d + y * (W - d) < W * W := by
    have hWd : 0 < W - d := by linarith
    constructor
    · rcases hx.lt_or_eq with h | h
      · exact add_pos_of_pos_of_nonneg (mul_pos h hd) (mul_nonneg hy hWd.le)
      · have hy0 : 0 < y := lt_of_le_of_ne hy (h ▸ hxy)
        exact add_pos_of_nonneg_of_pos (mul_nonneg hx hd.le) (mul_pos hy0 hWd)
    · calc x * d + y * (W - d) < W * d + W * (W - d) :=
          add_lt_add (mul_lt_mul_of_pos_right hxW hd) (mul_lt_mul_of_pos_right hyW hWd)
        _ = W * W := by ring
  rcases hu with rfl | rfl <;> rcases hu' with rfl | rfl
  · exact hsame hd.ne' (abs_lt.mpr ⟨by linarith, hdW⟩)
  · obtain ⟨hpos, hlt⟩ := hmean hc hc' hcW hcW' hne
    have heq : c * u - c' * (u - W) = c * u + c' * (W - u) := by ring
    rw [heq]
    exact hsmall hpos.ne' hlt (by linarith)
  · obtain ⟨hpos, hlt⟩ := hmean hc' hc hcW' hcW hne.symm
    have heq : c * (u' - W) - c' * u' = -(c' * u' + c * (W - u')) := by ring
    rw [heq, dvd_neg]
    exact hsmall hpos.ne' hlt (by linarith)
  · exact hsame (by linarith) hback

/-- Two products of words that differ in one factor each, and in the key of the other one: they are
    not apart by the same amount. -/
theorem products_unique (hv : w + w ≤ v) {a a' : BitVec w} (ha : a ≠ a') (x x' : BitVec w)
    {l l' : BitVec w}
    (h : a.setWidth v * (l + x).setWidth v - a'.setWidth v * (l + x').setWidth v =
      a.setWidth v * (l' + x).setWidth v - a'.setWidth v * (l' + x').setWidth v) : l = l' := by
  by_contra hne
  wlog hlt : l.toNat < l'.toNat generalizing l l'
  · refine this h.symm (Ne.symm hne) ?_
    exact lt_of_le_of_ne (Nat.le_of_not_lt hlt) fun heq => hne (BitVec.eq_of_toNat_eq heq.symm)
  have hcast (b : BitVec w) : (b.setWidth v).toNat = b.toNat :=
    BitVec.toNat_setWidth_of_le (by omega)
  have hsum : a.setWidth v * (l' + x).setWidth v + a'.setWidth v * (l + x').setWidth v =
      a.setWidth v * (l + x).setWidth v + a'.setWidth v * (l' + x').setWidth v := by
    linear_combination -h
  have hnat := congrArg BitVec.toNat hsum
  rw [BitVec.toNat_add, BitVec.toNat_add, BitVec.toNat_mul, BitVec.toNat_mul, BitVec.toNat_mul,
    BitVec.toNat_mul, ← Nat.add_mod, ← Nat.add_mod] at hnat
  simp only [hcast] at hnat
  have hdvd : (2 : ℤ) ^ w * 2 ^ w ∣ a.toNat * (((l' + x).toNat : ℤ) - (l + x).toNat) -
      a'.toNat * (((l' + x').toNat : ℤ) - (l + x').toNat) := by
    have hpow : (2 : ℤ) ^ w * 2 ^ w ∣ ((2 ^ v : ℕ) : ℤ) := by
      rw [← pow_add]
      exact_mod_cast pow_dvd_pow 2 hv
    refine (hpow.trans (Nat.modEq_iff_dvd.mp hnat.symm)).trans (dvd_of_eq ?_)
    push_cast
    ring
  have hlt' {b : BitVec w} : (b.toNat : ℤ) < 2 ^ w := by exact_mod_cast b.isLt
  have hd : 0 < (l'.toNat : ℤ) - l.toNat := by omega
  have hdW : (l'.toNat : ℤ) - l.toNat < 2 ^ w := by
    have := hlt' (b := l')
    omega
  have hac : (a.toNat : ℤ) ≠ a'.toNat := fun heq =>
    ha (BitVec.eq_of_toNat_eq (Int.ofNat_inj.mp heq))
  exact not_dvd (Int.natCast_nonneg _) (Int.natCast_nonneg _) hlt' hlt' hac hd hdW (add_cases hlt)
    (add_cases hlt) hdvd

/-- Nothing of the hash but one product depends on a word of the key. -/
theorem hash_sub {n j : Nat} (hj : j < n) {i : Nat} (hi : i < 4) {q : Nat}
    (hq : q = 8 * j + i ∨ q = 8 * j + (i + 4)) (hk : ∀ p, p ≠ q → k p = k' p) :
    hash v k m n - hash v k' m n =
      pair v (k (8 * j + i)) (k (8 * j + (i + 4))) (m (8 * j + i)) (m (8 * j + (i + 4))) -
        pair v (k' (8 * j + i)) (k' (8 * j + (i + 4))) (m (8 * j + i)) (m (8 * j + (i + 4))) := by
  simp only [hash, block, ← sum_sub_distrib, from']
  rw [sum_eq_single_of_mem j (mem_range.mpr hj), sum_eq_single_of_mem i (mem_range.mpr hi)]
  · intro i' hi' hne
    have hi' : i' < 4 := mem_range.mp hi'
    rw [hk _ (by omega), hk _ (by omega), sub_self]
  · intro j' _ hne
    refine sum_eq_zero fun i' hi' => ?_
    have hi' : i' < 4 := mem_range.mp hi'
    rw [hk _ (by omega), hk _ (by omega), sub_self]

/-- The place of the word that is multiplied by the one at `p`. -/
def partner (p : Nat) : Nat := if p % 8 < 4 then p + 4 else p - 4

/-- **At most one key word** lets two messages that differ in its partner have hashes that are
    apart by a given amount. -/
theorem hash_unique (hv : w + w ≤ v) {n p : Nat} (hp : p < 8 * n) (hm : m p ≠ m' p)
    (hk : ∀ i, i ≠ partner p → k i = k' i)
    (h : hash v k m n - hash v k m' n = hash v k' m n - hash v k' m' n) :
    k (partner p) = k' (partner p) := by
  have hj : p / 8 < n := by omega
  have hdiff : hash v k m n - hash v k' m n = hash v k m' n - hash v k' m' n := by
    linear_combination h
  have hadd : k' p + m p ≠ k' p + m' p := fun heq => hm (add_left_cancel heq)
  by_cases hlow : p % 8 < 4
  · have hq : partner p = 8 * (p / 8) + (p % 8 + 4) := by
      rw [partner, if_pos hlow]
      omega
    have hp8 : 8 * (p / 8) + p % 8 = p := by omega
    have hkp : k p = k' p := hk p (by rw [hq]; omega)
    rw [hash_sub hj hlow (Or.inr hq) hk, hash_sub hj hlow (Or.inr hq) hk, hp8, hkp] at hdiff
    rw [hq]
    refine products_unique hv hadd (m (8 * (p / 8) + (p % 8 + 4))) (m' (8 * (p / 8) + (p % 8 + 4))) ?_
    simp only [pair] at hdiff
    linear_combination hdiff
  · have hi : p % 8 - 4 < 4 := by omega
    have hq : partner p = 8 * (p / 8) + (p % 8 - 4) := by
      rw [partner, if_neg hlow]
      omega
    have hp8 : 8 * (p / 8) + (p % 8 - 4 + 4) = p := by omega
    have hkp : k p = k' p := hk p (by rw [hq]; omega)
    rw [hash_sub hj hi (Or.inl hq) hk, hash_sub hj hi (Or.inl hq) hk, hp8, hkp] at hdiff
    rw [hq]
    refine products_unique hv hadd (m (8 * (p / 8) + (p % 8 - 4))) (m' (8 * (p / 8) + (p % 8 - 4))) ?_
    simp only [pair] at hdiff
    linear_combination hdiff

end Nh
