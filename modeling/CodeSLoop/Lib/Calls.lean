import Mathlib.Algebra.Order.BigOperators.Group.List
import Mathlib.Algebra.Order.Ring.Nat

/-!
# Calls that say whether they succeed

A call that returns `true` with its results, or fails: by returning `false`, by an exception,
or by doing what is undefined. Calls are made one after the other in the `Except` monad, where
`bind_eq_ok` takes a sequence that succeeded apart.
-/

namespace Calls

universe u v

/-- How a call fails. -/
inductive Fail (ε : Type u)
  | no | thrown (e : ε) | fault
deriving DecidableEq

/-- A call with results of type `α`. -/
abbrev Outcome (ε : Type u) (α : Type v) := Except (Fail ε) α

variable {ε : Type u} {α β : Type v}

/-- An exception where they are in use, and `false` otherwise. -/
def thr (useExc : Bool) (e : ε) : Outcome ε α := .error (if useExc then .thrown e else .no)

/-- Fails with `e` when a condition is met. -/
def refuse (useExc : Bool) (bad : Prop) [Decidable bad] (e : ε) : Outcome ε PUnit :=
  if bad then thr useExc e else .ok ⟨⟩

theorem bind_eq_ok {x : Outcome ε α} {f : α → Outcome ε β} {b : β} :
    (x >>= f) = .ok b ↔ ∃ a, x = .ok a ∧ f a = .ok b := by
  cases x with
  | error e => exact ⟨fun h => (by cases h), fun ⟨_, h, _⟩ => (by cases h)⟩
  | ok a => exact ⟨fun h => ⟨a, rfl, h⟩, fun ⟨_, ha, h⟩ => (by cases ha; exact h)⟩

theorem bind_ok {x : Outcome ε α} {a : α} (h : x = .ok a) (f : α → Outcome ε β) :
    (x >>= f) = f a := by rw [h]; rfl

theorem bind_error {x : Outcome ε α} {e : Fail ε} (h : x = .error e) (f : α → Outcome ε β) :
    (x >>= f) = .error e := by rw [h]; rfl

theorem thr_ne_ok {useExc : Bool} {e : ε} {a : α} : thr useExc e ≠ .ok a :=
  fun h => by cases h

section Refuse

variable {useExc : Bool} {bad : Prop} [Decidable bad] {e : ε}

theorem refuse_ok (h : ¬ bad) : refuse useExc bad e = .ok ⟨⟩ := if_neg h

theorem refuse_error (h : bad) : refuse useExc bad e = thr useExc e := if_pos h

theorem not_of_refuse {u : PUnit} (h : refuse useExc bad e = .ok u) : ¬ bad := fun hb => by
  rw [refuse_error hb] at h
  exact thr_ne_ok h

end Refuse

end Calls
