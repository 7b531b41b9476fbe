import Mathlib.Algebra.Polynomial.Roots
import Mathlib.Data.List.Induction

/-!
# Hashing by a polynomial

A sequence of elements of a ring, with a one before them, are the coefficients of a polynomial, and its
value at the key is their hash. It is computed by the rule of Horner (`horner`), so one element after the
other.

Sequences that differ have different polynomials, also when one is longer (`ofList_injective`), and in a
field two polynomials have the same value at few keys only (`card_collisions_le`).
-/

namespace PolyHash

open Polynomial

variable {R : Type*}

/-- The rule of Horner. -/
def horner [CommSemiring R] (k acc : R) (ws : List R) : R := ws.foldl (fun a w => a * k + w) acc

section Horner

variable [CommSemiring R] {k acc w : R} {xs ys : List R}

@[simp] theorem horner_nil : horner k acc [] = acc := rfl

@[simp] theorem horner_cons : horner k acc (w :: xs) = horner k (acc * k + w) xs := rfl

@[simp] theorem horner_append : horner k acc (xs ++ ys) = horner k (horner k acc xs) ys :=
  List.foldl_append

end Horner

/-- The polynomial of a sequence. -/
noncomputable def ofList [CommSemiring R] (ws : List R) : R[X] := horner X 1 (ws.map C)

section Polynomial

variable [CommRing R]

@[simp] theorem ofList_nil : ofList ([] : List R) = 1 := rfl

@[simp] theorem ofList_concat (ws : List R) (w : R) : ofList (ws ++ [w]) = ofList ws * X + C w := by
  simp [ofList]

/-- **The hash is the value of the polynomial.** -/
theorem eval_ofList (k : R) (ws : List R) : (ofList ws).eval k = horner k 1 ws := by
  induction ws using List.reverseRecOn with
  | nil => simp
  | append_singleton ws w ih => simp [ih]

theorem monic_ofList [Nontrivial R] (ws : List R) :
    (ofList ws).Monic ∧ (ofList ws).natDegree = ws.length := by
  induction ws using List.reverseRecOn with
  | nil => simp
  | append_singleton ws w ih =>
    obtain ⟨hmonic, hdeg⟩ := ih
    have hX : (ofList ws * X).Monic := hmonic.mul monic_X
    have hdegX : (ofList ws * X).natDegree = ws.length + 1 := by
      rw [hmonic.natDegree_mul monic_X, hdeg, natDegree_X]
    have hlow : (C w).degree < (ofList ws * X).degree := by
      rw [degree_eq_natDegree hX.ne_zero, hdegX]
      exact degree_C_le.trans_lt (by exact_mod_cast Nat.succ_pos _)
    simp only [ofList_concat, List.length_append, List.length_singleton]
    refine ⟨hX.add_of_left hlow, ?_⟩
    rw [natDegree_add_eq_left_of_degree_lt hlow, hdegX]

end Polynomial

section Domain

variable [CommRing R] [IsDomain R]

/-- **Sequences that differ have different polynomials.** -/
theorem ofList_injective : Function.Injective (@ofList R _) := by
  intro xs ys h
  have hlen : xs.length = ys.length := by
    rw [← (monic_ofList xs).2, ← (monic_ofList ys).2, h]
  induction xs using List.reverseRecOn generalizing ys with
  | nil => exact (List.eq_nil_of_length_eq_zero hlen.symm).symm
  | append_singleton xs x ih =>
    obtain rfl | ⟨ys, y, rfl⟩ := ys.eq_nil_or_concat'
    · simp at hlen
    · simp only [ofList_concat] at h
      have hlast : x = y := by simpa using congrArg (eval 0) h
      have hrest : ofList xs = ofList ys := by
        rw [hlast] at h
        exact mul_right_cancel₀ X_ne_zero (add_right_cancel h)
      rw [ih hrest (by simpa using hlen), hlast]

/-- **At few keys only do two sequences have the same hash**: no more than the longer one has
    elements. -/
theorem card_collisions_le {xs ys : List R} (hne : xs ≠ ys) (s : Finset R)
    (hs : ∀ k ∈ s, horner k 1 xs = horner k 1 ys) : s.card ≤ max xs.length ys.length := by
  have hsub : ofList xs - ofList ys ≠ 0 := sub_ne_zero.mpr fun h => hne (ofList_injective h)
  have hroots : s.val ⊆ (ofList xs - ofList ys).roots := by
    intro k hk
    rw [mem_roots hsub, IsRoot.def, eval_sub, eval_ofList, eval_ofList, sub_eq_zero]
    exact hs k hk
  calc s.card ≤ (ofList xs - ofList ys).natDegree := card_le_degree_of_subset_roots hroots
    _ ≤ max (ofList xs).natDegree (ofList ys).natDegree := natDegree_sub_le _ _
    _ = max xs.length ys.length := by rw [(monic_ofList xs).2, (monic_ofList ys).2]

end Domain

end PolyHash
