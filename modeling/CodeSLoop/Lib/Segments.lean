import Mathlib.Algebra.Order.BigOperators.Group.List
import Mathlib.Algebra.Order.Ring.Nat
/-!
# Positions in a row of segments

Segments of the given lengths stand one after the other, and a position counted from the
start of the first one is in exactly one of them, or past the last. `locate` finds it; the
lemmas say where a segment's own positions are, and that adding a segment at the end moves
nothing.
-/

namespace Segments

/-- The segment a position is in and the place in it, or `none` past the end. -/
def locate : List Nat → Nat → Option (Nat × Nat)
  | [], _ => none
  | n :: ns, k => if k < n then some (0, k) else (locate ns (k - n)).map fun p => (p.1 + 1, p.2)

/-- Where segment `i` starts. -/
def base (ns : List Nat) (i : Nat) : Nat := (ns.take i).sum

variable {ns ms : List Nat} {n k i o : Nat}

@[simp] theorem base_zero : base ns 0 = 0 := by simp [base]

@[simp] theorem base_cons_succ : base (n :: ns) (i + 1) = n + base ns i := by simp [base]

theorem base_length : base ns ns.length = ns.sum := by simp [base]

theorem base_append (h : i ≤ ns.length) : base (ns ++ ms) i = base ns i := by
  rw [base, List.take_append_of_le_length h, base]

/-- A segment ends where the next one starts. -/
theorem base_succ (h : ns[i]? = some n) : base ns (i + 1) = base ns i + n := by
  rw [base, List.take_add_one, h, List.sum_append]
  simp [base]

theorem base_mono {j : Nat} (h : i ≤ j) : base ns i ≤ base ns j := by
  rw [base, base, ← Nat.add_sub_cancel' h, List.take_add, List.sum_append]
  exact Nat.le_add_right _ _

/-- What is in a segment is before all later ones. -/
theorem base_add_lt {j : Nat} (h : ns[i]? = some n) (ho : o < n) (hij : i < j) :
    base ns i + o < base ns j := by
  have hnext := base_succ h
  have hle := @base_mono ns (i + 1) j hij
  omega

theorem locate_eq_some :
    locate ns k = some (i, o) ↔ ∃ n, ns[i]? = some n ∧ o < n ∧ k = base ns i + o := by
  induction ns generalizing k i with
  | nil => simp [locate]
  | cons n ns ih =>
    unfold locate
    by_cases hk : k < n
    · rw [if_pos hk]
      constructor
      · intro h
        cases h
        exact ⟨n, rfl, hk, by simp⟩
      · rintro ⟨m, hm, ho, rfl⟩
        cases i with
        | zero => simp
        | succ i => simp at hk; omega
    · rw [if_neg hk, Option.map_eq_some_iff]
      constructor
      · rintro ⟨⟨i', o'⟩, h, he⟩
        cases he
        obtain ⟨m, hm, ho, hk'⟩ := ih.mp h
        exact ⟨m, by simpa using hm, ho, by rw [base_cons_succ]; dsimp only; omega⟩
      · rintro ⟨m, hm, ho, hk'⟩
        cases i with
        | zero =>
          simp only [List.getElem?_cons_zero, Option.some.injEq, base_zero] at hm hk'
          omega
        | succ i =>
          rw [base_cons_succ] at hk'
          exact ⟨(i, o), ih.mpr ⟨m, by simpa using hm, ho, by omega⟩, rfl⟩

theorem locate_eq_none : locate ns k = none ↔ ns.sum ≤ k := by
  induction ns generalizing k with
  | nil => simp [locate]
  | cons n ns ih =>
    unfold locate
    by_cases hk : k < n
    · rw [if_pos hk]
      simp only [reduceCtorEq, List.sum_cons, false_iff]
      omega
    · rw [if_neg hk, Option.map_eq_none_iff, ih, List.sum_cons]
      omega

/-- A segment added at the end moves nothing. -/
theorem locate_append (h : k < ns.sum) : locate (ns ++ ms) k = locate ns k := by
  cases hl : locate ns k with
  | none => rw [locate_eq_none] at hl; omega
  | some p =>
    obtain ⟨i, o⟩ := p
    obtain ⟨n, hn, ho, hk⟩ := locate_eq_some.mp hl
    have hi : i < ns.length := (List.getElem?_eq_some_iff.mp hn).1
    refine locate_eq_some.mpr ⟨n, ?_, ho, ?_⟩
    · rw [List.getElem?_append_left hi, hn]
    · rw [base_append (Nat.le_of_lt hi), hk]

theorem lt_sum_of_locate (h : locate ns k = some (i, o)) : k < ns.sum := by
  by_cases hk : k < ns.sum
  · exact hk
  · rw [locate_eq_none.mpr (by omega)] at h
    cases h

end Segments
