import Mathlib.Algebra.Order.BigOperators.Group.List
import Mathlib.Algebra.Order.Ring.Nat

/-!
# Data kept in pages

Data in pages of a fixed capacity: every page but the last is full, and the last is not empty.
The pages are then determined by the data (`Paged.eq_of_flatten`), so a container that keeps
its pages this way may be treated as the data it holds.
-/

namespace Pages

universe u

variable {α : Type u} {cap : Nat}

/-- All pages but the last are full, and the last is not empty. -/
def Paged (cap : Nat) : List (List α) → Prop
  | [] => True
  | [p] => p ≠ [] ∧ p.length ≤ cap
  | p :: q :: ps => p.length = cap ∧ Paged cap (q :: ps)

theorem paged_cons {p : List α} {ps : List (List α)} (h : Paged cap (p :: ps)) : Paged cap ps := by
  cases ps with
  | nil => trivial
  | cons q ps => exact h.2

theorem Paged.drop {ps : List (List α)} (h : Paged cap ps) : ∀ k, Paged cap (ps.drop k)
  | 0 => h
  | k + 1 => by
    cases ps with
    | nil => trivial
    | cons p ps => exact (paged_cons h).drop k

/-- A page that is followed by another one is full. -/
theorem Paged.full {p : List α} {ps : List (List α)} (h : Paged cap (p :: ps)) (hne : ps ≠ []) :
    p.length = cap := by
  cases ps with
  | nil => exact absurd rfl hne
  | cons q ps => exact h.1

theorem Paged.ne_nil (hcap : 0 < cap) {p : List α} {ps : List (List α)}
    (h : Paged cap (p :: ps)) : p ≠ [] := by
  cases ps with
  | nil => exact h.1
  | cons q ps =>
    intro hp
    have hlen : p.length = cap := h.1
    rw [hp, List.length_nil] at hlen
    omega

theorem Paged.le_cap {p : List α} {ps : List (List α)} (h : Paged cap (p :: ps)) :
    p.length ≤ cap := by
  cases ps with
  | nil => exact h.2
  | cons q ps => exact Nat.le_of_eq h.1

theorem Paged.flatten_pos (hcap : 0 < cap) {ps : List (List α)} (h : Paged cap ps)
    (hne : ps ≠ []) : 0 < ps.flatten.length := by
  cases ps with
  | nil => exact absurd rfl hne
  | cons p ps =>
    have := List.length_pos_iff.mpr (h.ne_nil hcap)
    rw [List.flatten_cons, List.length_append]
    omega

/-- Pages, read from the end. -/
theorem paged_concat {ps : List (List α)} {p : List α} :
    Paged cap (ps ++ [p]) ↔ (∀ q ∈ ps, q.length = cap) ∧ p ≠ [] ∧ p.length ≤ cap := by
  induction ps with
  | nil => simp [Paged]
  | cons q ps ih =>
    cases ps with
    | nil => simp [Paged]
    | cons r ps =>
      rw [List.cons_append, List.cons_append, Paged, ← List.cons_append, ih]
      simp [and_assoc]

/-- **The pages are determined by the data.** -/
theorem Paged.eq_of_flatten (hcap : 0 < cap) :
    ∀ {ps qs : List (List α)}, Paged cap ps → Paged cap qs → ps.flatten = qs.flatten → ps = qs
  | [], [], _, _, _ => rfl
  | [], q :: qs, _, hq, h => by
    have hne := hq.ne_nil hcap
    rw [List.flatten_nil, List.flatten_cons] at h
    exact absurd (List.append_eq_nil_iff.mp h.symm).1 hne
  | p :: ps, [], hp, _, h => by
    have hne := hp.ne_nil hcap
    rw [List.flatten_nil, List.flatten_cons] at h
    exact absurd (List.append_eq_nil_iff.mp h).1 hne
  | p :: ps, q :: qs, hp, hq, h => by
    rw [List.flatten_cons, List.flatten_cons] at h
    have hlen : p.length = q.length := by
      have hsum := congrArg List.length h
      rw [List.length_append, List.length_append] at hsum
      have hpl := hp.le_cap
      have hql := hq.le_cap
      by_cases hps : ps = []
      · by_cases hqs : qs = []
        · rw [hps, hqs] at hsum
          simpa using hsum
        · -- a full page and more behind it do not fit on one page
          have h₁ := hq.full hqs
          have h₂ := (paged_cons hq).flatten_pos hcap hqs
          rw [hps, List.flatten_nil, List.length_nil] at hsum
          omega
      · by_cases hqs : qs = []
        · have h₁ := hp.full hps
          have h₂ := (paged_cons hp).flatten_pos hcap hps
          rw [hqs, List.flatten_nil, List.length_nil] at hsum
          omega
        · rw [hp.full hps, hq.full hqs]
    obtain ⟨hpq, hrest⟩ := List.append_inj h hlen
    rw [hpq, Paged.eq_of_flatten hcap (paged_cons hp) (paged_cons hq) hrest]

/-! ## A place by its number -/

/-- Only the lengths of the pages matter. -/
theorem Paged.of_lengths : ∀ {ps qs : List (List α)}, qs.map List.length = ps.map List.length →
    Paged cap ps → Paged cap qs
  | [], [], _, _ => trivial
  | [p], [q], hlen, h => by
    have hlen : q.length = p.length := by simpa using hlen
    refine ⟨fun hq => h.1 ?_, hlen.le.trans h.2⟩
    rw [← List.length_eq_zero_iff, ← hlen, hq, List.length_nil]
  | p :: p' :: ps, q :: q' :: qs, hlen, h => by
    have hlen : q.length = p.length ∧ (q' :: qs).map List.length = (p' :: ps).map List.length :=
      List.cons.inj hlen
    exact ⟨hlen.1.trans h.1, Paged.of_lengths hlen.2 h.2⟩
  | [], _ :: _, hlen, _ | _ :: _, [], hlen, _ => by cases hlen
  | [_], _ :: _ :: _, hlen, _ | _ :: _ :: _, [_], hlen, _ => by simp at hlen

/-- **A place by its number**: the page and the place in it. -/
theorem Paged.getElem?_flatten (hcap : 0 < cap) : ∀ {ps : List (List α)}, Paged cap ps → ∀ k,
    ps.flatten[k]? = (ps[k / cap]?).bind (·[k % cap]?)
  | [], _, k => rfl
  | p :: ps, h, k => by
    rw [List.flatten_cons]
    by_cases hk : k < cap
    · rw [Nat.div_eq_of_lt hk, Nat.mod_eq_of_lt hk, List.getElem?_cons_zero, Option.bind_some]
      by_cases hps : ps = []
      · rw [hps, List.flatten_nil, List.append_nil]
      · rw [List.getElem?_append_left (by rwa [h.full hps])]
    · have hle := Nat.le_of_not_lt hk
      rw [Nat.div_eq_sub_div hcap hle, Nat.mod_eq_sub_mod hle, List.getElem?_cons_succ,
        ← (paged_cons h).getElem?_flatten hcap, List.getElem?_append_right (h.le_cap.trans hle)]
      by_cases hps : ps = []
      · rw [hps]
        rfl
      · rw [h.full hps]

/-- And what is put there. -/
theorem Paged.set_flatten (hcap : 0 < cap) (x : α) : ∀ {ps : List (List α)}, Paged cap ps → ∀ k,
    (ps.modify (k / cap) (·.set (k % cap) x)).flatten = ps.flatten.set k x
  | [], _, k => by simp
  | p :: ps, h, k => by
    rw [List.flatten_cons]
    by_cases hk : k < cap
    · rw [Nat.div_eq_of_lt hk, Nat.mod_eq_of_lt hk, List.modify_zero_cons, List.flatten_cons]
      by_cases hps : ps = []
      · rw [hps, List.flatten_nil, List.append_nil, List.append_nil]
      · rw [List.set_append_left _ _ (by rwa [h.full hps])]
    · have hle := Nat.le_of_not_lt hk
      rw [Nat.div_eq_sub_div hcap hle, Nat.mod_eq_sub_mod hle, List.modify_succ_cons, List.flatten_cons,
        (paged_cons h).set_flatten hcap, List.set_append_right _ _ (h.le_cap.trans hle)]
      by_cases hps : ps = []
      · rw [hps, List.flatten_nil, List.set_nil, List.set_nil]
      · rw [h.full hps]

end Pages
