import Mathlib.Algebra.Order.BigOperators.Group.List
import Mathlib.Algebra.Order.Ring.Nat

/-!
# Tokens that are handed around

Several parties keep references to things that come and go. `Accounted refs live` says of the
list of all references, whoever keeps them, that every live thing is referred to once, and that
nothing else is: so it has one keeper, and nobody keeps what is gone.

Handing a reference over permutes the list (`Accounted.move`), a new thing adds to it
(`Accounted.add`), and what goes has to be taken from it (`Accounted.remove`); in the other
case, and when a reference to what stays is lost, the account is wrong (`Accounted.not_kept`,
`Accounted.not_lost`).
-/

namespace Tokens

universe u

variable {ρ : Type u} {refs refs' : List ρ} {live live' : ρ → Prop} {r : ρ}

/-- Each live token stands once in the list, and no other does. -/
structure Accounted (refs : List ρ) (live : ρ → Prop) : Prop where
  nodup : refs.Nodup
  mem_iff : ∀ x, x ∈ refs ↔ live x

theorem accounted_nil (h : ∀ x, ¬ live x) : Accounted [] live :=
  ⟨List.nodup_nil, fun x => iff_of_false List.not_mem_nil (h x)⟩

/-- From one keeper to another. -/
theorem Accounted.move (h : Accounted refs live) (hp : refs'.Perm refs)
    (hl : ∀ x, live' x ↔ live x) : Accounted refs' live' :=
  ⟨hp.nodup_iff.mpr h.nodup, fun x => (hp.mem_iff.trans (h.mem_iff x)).trans (hl x).symm⟩

/-- A new token. -/
theorem Accounted.add (h : Accounted refs live) (hr : ¬ live r) (hp : refs'.Perm (r :: refs))
    (hl : ∀ x, live' x ↔ x = r ∨ live x) : Accounted refs' live' := by
  refine ⟨hp.nodup_iff.mpr ?_, fun x => ?_⟩
  · exact List.nodup_cons.mpr ⟨fun hmem => hr ((h.mem_iff r).mp hmem), h.nodup⟩
  · rw [hp.mem_iff, List.mem_cons, h.mem_iff, hl]

/-- A token that goes, with the reference to it. -/
theorem Accounted.remove (h : Accounted refs live) (hp : refs.Perm (r :: refs'))
    (hl : ∀ x, live' x ↔ x ≠ r ∧ live x) : Accounted refs' live' := by
  have hnodup := List.nodup_cons.mp (hp.nodup_iff.mp h.nodup)
  refine ⟨hnodup.2, fun x => ?_⟩
  rw [hl, ← h.mem_iff, hp.mem_iff, List.mem_cons]
  constructor
  · intro hx
    refine ⟨fun heq => hnodup.1 (heq ▸ hx), Or.inr hx⟩
  · rintro ⟨hne, heq | hx⟩
    · exact absurd heq hne
    · exact hx

/-- A token that goes while somebody keeps a reference to it. -/
theorem Accounted.not_kept (hmem : r ∈ refs') (hr : ¬ live' r) : ¬ Accounted refs' live' :=
  fun h => hr ((h.mem_iff r).mp hmem)

/-- A reference to a live token that is given up. -/
theorem Accounted.not_lost (h : Accounted refs live) (hp : refs.Perm (r :: refs'))
    (hr : live' r) : ¬ Accounted refs' live' := by
  intro h'
  have hnodup := List.nodup_cons.mp (hp.nodup_iff.mp h.nodup)
  exact hnodup.1 ((h'.mem_iff r).mpr hr)

end Tokens
