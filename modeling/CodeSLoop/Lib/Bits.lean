import Mathlib.Algebra.Order.BigOperators.Group.List
import Mathlib.Algebra.Order.Ring.Nat
import Mathlib.Data.Nat.Count

/-!
# Bitmaps of 64-bit words, scanned a byte at a time

Testing, setting and clearing one bit by shifts and masks, and finding the highest set or the
lowest clear bit of a word by looking its bytes up in a table of 256 entries. What a table
must say of each byte is `HighTable` and `LowTable`; what a scan with such a table finds is
`scanDown_*` and `scanUp_*`. The set bits are counted with a third table, `CountTable`.
-/

namespace Bits

variable {w : BitVec 64} {j k : Nat}

/-! ## One bit -/

/-- `(w >> j) & 1`, as a truth value. -/
def test (w : BitVec 64) (j : Nat) : Bool := (w >>> j) &&& 1#64 != 0#64

/-- `w | (1 << j)`. -/
def insert (w : BitVec 64) (j : Nat) : BitVec 64 := w ||| (1#64 <<< j)

/-- `w & ~(1 << j)`. -/
def erase (w : BitVec 64) (j : Nat) : BitVec 64 := w &&& ~~~(1#64 <<< j)

theorem test_eq : test w j = w.getLsbD j := by
  have key : (w >>> j) &&& 1#64 = if w.getLsbD j then 1#64 else 0#64 := by
    apply BitVec.eq_of_getLsbD_eq
    intro i hi
    rw [BitVec.getLsbD_and, BitVec.getLsbD_ushiftRight, BitVec.getLsbD_one]
    by_cases h0 : i = 0
    · subst h0
      cases h : w.getLsbD j <;> simp
    · cases w.getLsbD j <;> simp [BitVec.getLsbD_one, h0]
  unfold test
  rw [key]
  cases w.getLsbD j <;> decide

theorem test_of_shiftRight (h : w >>> j = 0#64) (hk : j ≤ k) : test w k = false := by
  have hbit := BitVec.getLsbD_ushiftRight w j (k - j)
  rw [h, BitVec.getLsbD_zero, Nat.add_sub_cancel' hk] at hbit
  rw [test_eq, ← hbit]

theorem getLsbD_mask (hj : j < 64) (k : Nat) : (1#64 <<< j).getLsbD k = decide (k = j) := by
  rw [BitVec.getLsbD_shiftLeft, BitVec.getLsbD_one]
  by_cases hk : k = j
  · subst hk; simp [hj]
  · by_cases hlt : k < j
    · simp [hk, hlt]
    · simp [hk, hlt, show k - j ≠ 0 by omega]

theorem test_insert (hj : j < 64) : test (insert w j) k = (test w k || decide (k = j)) := by
  rw [test_eq, test_eq, insert, BitVec.getLsbD_or, getLsbD_mask hj]

theorem test_erase (hj : j < 64) (hk : k < 64) :
    test (erase w j) k = (test w k && !decide (k = j)) := by
  rw [test_eq, test_eq, erase, BitVec.getLsbD_and, BitVec.getLsbD_not, getLsbD_mask hj]
  simp [hk]

@[simp] theorem test_zero : test 0#64 j = false := by simp [test_eq]

theorem test_allOnes (hj : j < 64) : test (BitVec.allOnes 64) j = true := by
  rw [test_eq, BitVec.getLsbD_allOnes, decide_eq_true hj]

/-! ## One byte -/

/-- `(w >> 8k) & 0xff`. -/
def byte (w : BitVec 64) (k : Nat) : Nat := ((w >>> (8 * k)) &&& 0xff#64).toNat

theorem byte_lt : byte w k < 256 := by
  unfold byte
  rw [BitVec.toNat_and]
  exact Nat.lt_of_le_of_lt Nat.and_le_right (by decide)

theorem testBit_byte (hj : j < 8) : (byte w k).testBit j = test w (8 * k + j) := by
  have hff : (0xff#64).getLsbD j = true := by
    revert hj; revert j; decide
  rw [byte, BitVec.testBit_toNat, BitVec.getLsbD_and, BitVec.getLsbD_ushiftRight, hff,
    Bool.and_true, test_eq]

/-- A table that gives, for each byte, one more than the index of its highest set bit, and
    zero for the byte that has none. -/
def HighTable (t : Nat → Nat) : Prop :=
  ∀ b < 256, t b ≤ 8 ∧ (∀ j < 8, t b ≤ j → b.testBit j = false) ∧
    (t b ≠ 0 → b.testBit (t b - 1) = true)

/-- A table that gives, for each byte, the index of its lowest clear bit, and 255 for the byte
    that has none. -/
def LowTable (t : Nat → Nat) : Prop :=
  ∀ b < 256, (t b = 255 → ∀ j < 8, b.testBit j = true) ∧
    (t b ≠ 255 → t b < 8 ∧ b.testBit (t b) = false ∧ ∀ j < t b, b.testBit j = true)

instance (t : Nat → Nat) : Decidable (HighTable t) := by unfold HighTable; infer_instance

instance (t : Nat → Nat) : Decidable (LowTable t) := by unfold LowTable; infer_instance

/-- A table that gives, for each byte, the number of its set bits. -/
def CountTable (t : Nat → Nat) : Prop :=
  ∀ b < 256, t b = Nat.count (fun j => b.testBit j = true) 8

instance (t : Nat → Nat) : Decidable (CountTable t) := by unfold CountTable; infer_instance

/-! ## One word -/

/-- From byte `k - 1` down: the first whose table entry is not zero. -/
def scanDown (t : Nat → Nat) (w : BitVec 64) : Nat → Option Nat
  | 0 => none
  | k + 1 => if t (byte w k) = 0 then scanDown t w k else some (8 * k + t (byte w k))

/-- From byte `k` up, `n` bytes: the first whose table entry is not 255. -/
def scanUp (t : Nat → Nat) (w : BitVec 64) (k : Nat) : Nat → Option Nat
  | 0 => none
  | n + 1 => if t (byte w k) = 255 then scanUp t w (k + 1) n else some (8 * k + t (byte w k))

/-- From bit `j` up, `n` bits: the first that is set. Nothing is left when the shifted word is
    zero. -/
def nextSet (w : BitVec 64) : Nat → Nat → Option Nat
  | 0, _ => none
  | n + 1, j => if test w j then some j else if w >>> j = 0#64 then none else nextSet w n (j + 1)

variable {t : Nat → Nat} {n r : Nat}

theorem nextSet_none : ∀ {j : Nat}, nextSet w n j = none →
    ∀ k, j ≤ k → k < j + n → test w k = false := by
  induction n with
  | zero =>
    intro j _ k hk hlt
    omega
  | succ n ih =>
    intro j h k hk hlt
    rw [nextSet] at h
    split at h
    · cases h
    · rename_i hj
      split at h
      · rename_i hzero
        exact test_of_shiftRight hzero hk
      · rcases Nat.eq_or_lt_of_le hk with rfl | hgt
        · exact Bool.eq_false_iff.mpr hj
        · exact ih h k hgt (by omega)

theorem nextSet_some : ∀ {j : Nat}, nextSet w n j = some r →
    j ≤ r ∧ r < j + n ∧ test w r = true ∧ ∀ k, j ≤ k → k < r → test w k = false := by
  induction n with
  | zero =>
    intro j h
    cases h
  | succ n ih =>
    intro j h
    rw [nextSet] at h
    split at h
    · rename_i hj
      cases h
      exact ⟨Nat.le_refl _, by omega, hj, fun k hk hlt => by omega⟩
    · rename_i hj
      split at h
      · cases h
      · obtain ⟨hle, hlt, hset, hclear⟩ := ih h
        refine ⟨by omega, by omega, hset, fun k hk hkr => ?_⟩
        rcases Nat.eq_or_lt_of_le hk with rfl | hgt
        · exact Bool.eq_false_iff.mpr hj
        · exact hclear k hgt hkr

/-- Splitting a bit index below `8 * (k + 1)` at byte `k`. -/
theorem lt_or_byte (h : j < 8 * (k + 1)) : j < 8 * k ∨ ∃ i < 8, j = 8 * k + i := by
  by_cases hlt : j < 8 * k
  · exact .inl hlt
  · exact .inr ⟨j - 8 * k, by omega, by omega⟩

theorem scanDown_none (ht : HighTable t) : scanDown t w k = none →
    ∀ j < 8 * k, test w j = false := by
  induction k with
  | zero => intro _ j hj; omega
  | succ k ih =>
    intro h j hj
    unfold scanDown at h
    split at h
    · rename_i h0
      rcases lt_or_byte hj with hlt | ⟨i, hi, rfl⟩
      · exact ih h j hlt
      · rw [← testBit_byte hi]
        exact (ht _ byte_lt).2.1 i hi (by omega)
    · cases h

theorem scanDown_some (ht : HighTable t) : scanDown t w k = some r →
    0 < r ∧ r ≤ 8 * k ∧ test w (r - 1) = true ∧ ∀ j < 8 * k, r ≤ j → test w j = false := by
  induction k with
  | zero => intro h; cases h
  | succ k ih =>
    intro h
    obtain ⟨hle, hclear, hset⟩ := ht _ (byte_lt (w := w) (k := k))
    unfold scanDown at h
    split at h
    · rename_i h0
      obtain ⟨hpos, hr, hbit, hrest⟩ := ih h
      refine ⟨hpos, by omega, hbit, fun j hj hrj => ?_⟩
      rcases lt_or_byte hj with hlt | ⟨i, hi, rfl⟩
      · exact hrest j hlt hrj
      · rw [← testBit_byte hi]
        exact hclear i hi (by omega)
    · rename_i h0
      cases h
      refine ⟨by omega, by omega, ?_, fun j hj hrj => ?_⟩
      · rw [show 8 * k + t (byte w k) - 1 = 8 * k + (t (byte w k) - 1) by omega,
          ← testBit_byte (by omega)]
        exact hset h0
      · rcases lt_or_byte hj with hlt | ⟨i, hi, rfl⟩
        · omega
        · rw [← testBit_byte hi]
          exact hclear i hi (by omega)

theorem scanUp_none (ht : LowTable t) : ∀ {k : Nat}, scanUp t w k n = none →
    ∀ j, 8 * k ≤ j → j < 8 * (k + n) → test w j = true := by
  induction n with
  | zero => intro k _ j hj hj'; omega
  | succ n ih =>
    intro k h j hj hj'
    unfold scanUp at h
    split at h
    · rename_i h0
      by_cases hlt : j < 8 * (k + 1)
      · obtain ⟨i, hi, rfl⟩ : ∃ i < 8, j = 8 * k + i := ⟨j - 8 * k, by omega, by omega⟩
        rw [← testBit_byte hi]
        exact (ht _ byte_lt).1 h0 i hi
      · exact ih h j (by omega) (by omega)
    · cases h

theorem scanUp_some (ht : LowTable t) : ∀ {k : Nat}, scanUp t w k n = some r →
    8 * k ≤ r ∧ r < 8 * (k + n) ∧ test w r = false ∧
      ∀ j, 8 * k ≤ j → j < r → test w j = true := by
  induction n with
  | zero => intro k h; cases h
  | succ n ih =>
    intro k h
    unfold scanUp at h
    split at h
    · rename_i h0
      obtain ⟨hk, hr, hbit, hrest⟩ := ih h
      refine ⟨by omega, by omega, hbit, fun j hj hjr => ?_⟩
      by_cases hlt : j < 8 * (k + 1)
      · obtain ⟨i, hi, rfl⟩ : ∃ i < 8, j = 8 * k + i := ⟨j - 8 * k, by omega, by omega⟩
        rw [← testBit_byte hi]
        exact (ht _ byte_lt).1 h0 i hi
      · exact hrest j (by omega) hjr
    · rename_i h0
      cases h
      obtain ⟨hlt, hbit, hbelow⟩ := (ht _ (byte_lt (w := w) (k := k))).2 h0
      refine ⟨by omega, by omega, ?_, fun j hj hjr => ?_⟩
      · rw [← testBit_byte hlt]; exact hbit
      · obtain ⟨i, hi, rfl⟩ : ∃ i < 8, j = 8 * k + i := ⟨j - 8 * k, by omega, by omega⟩
        rw [← testBit_byte hi]
        exact hbelow i (by omega)

/-! ## Set bits counted -/

theorem count_congr {P Q : Nat → Prop} [DecidablePred P] [DecidablePred Q] {n : Nat}
    (h : ∀ j < n, P j ↔ Q j) : Nat.count P n = Nat.count Q n :=
  Nat.le_antisymm (Nat.count_mono_left fun j hj => (h j hj).mp) (Nat.count_mono_left fun j hj => (h j hj).mpr)

/-- The set bits of the first `n` bytes. -/
theorem sum_count_bytes (ht : CountTable t) (w : BitVec 64) (n : Nat) :
    ((List.range n).map fun b => t (byte w b)).sum = Nat.count (fun j => test w j = true) (8 * n) := by
  induction n with
  | zero => rfl
  | succ n ih =>
    have hbyte : t (byte w n) = Nat.count (fun j => test w (8 * n + j) = true) 8 := by
      rw [ht _ byte_lt]
      exact count_congr fun j hj => by rw [testBit_byte hj]
    rw [List.sum_range_succ, ih, hbyte, Nat.mul_succ, Nat.count_add]

/-- The set bits of the first `n` words of a bitmap. -/
theorem sum_count_words (bmap : Nat → BitVec 64) (n : Nat) :
    ((List.range n).map fun i => Nat.count (fun j => test (bmap i) j = true) 64).sum =
      Nat.count (fun k => test (bmap (k / 64)) (k % 64) = true) (64 * n) := by
  induction n with
  | zero => rfl
  | succ n ih =>
    have hword : Nat.count (fun j => test (bmap n) j = true) 64 =
        Nat.count (fun j => test (bmap ((64 * n + j) / 64)) ((64 * n + j) % 64) = true) 64 :=
      count_congr fun j hj => by
        rw [show (64 * n + j) / 64 = n by omega, show (64 * n + j) % 64 = j by omega]
    rw [List.sum_range_succ, ih, hword, Nat.mul_succ, Nat.count_add]

end Bits
