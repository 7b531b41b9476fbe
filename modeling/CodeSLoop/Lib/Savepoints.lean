import Mathlib.Data.List.Basic

/-!
# Savepoints

A store that takes snapshots on a stack: of its contents when a transaction is begun, and at each
savepoint. To release a savepoint, or to go back to it, is to find the last one of its name; what
was put on the stack after that is gone. A savepoint without a transaction opens one, which ends
when it is released.
-/

namespace Savepoints

universe u v

inductive Mark (ν : Type u)
  | begin | savepoint (n : ν)
deriving DecidableEq

/-- The contents, and the snapshots, the last one first. -/
structure Store (ν : Type u) (δ : Type v) where
  db : δ
  saves : List (Mark ν × δ)

variable {ν : Type u} {δ : Type v} [DecidableEq ν]

namespace Store

/-- What happens to the contents. -/
def modify (s : Store ν δ) (f : δ → δ) : Store ν δ := { s with db := f s.db }

/-- There is no transaction within a transaction. -/
def begin (s : Store ν δ) : Option (Store ν δ) :=
  match s.saves with
  | [] => some { s with saves := [(.begin, s.db)] }
  | _ :: _ => none

def savepoint (s : Store ν δ) (n : ν) : Store ν δ :=
  { s with saves := (.savepoint n, s.db) :: s.saves }

/-- The stack from the last savepoint of a name on. -/
def find (s : Store ν δ) (n : ν) : List (Mark ν × δ) :=
  s.saves.dropWhile fun m => m.1 ≠ .savepoint n

def release (s : Store ν δ) (n : ν) : Option (Store ν δ) :=
  match s.find n with
  | [] => none
  | _ :: saves => some { s with saves := saves }

def rollbackTo (s : Store ν δ) (n : ν) : Option (Store ν δ) :=
  match s.find n with
  | [] => none
  | m :: saves => some ⟨m.2, m :: saves⟩

def commit (s : Store ν δ) : Option (Store ν δ) :=
  match s.saves with
  | [] => none
  | _ :: _ => some { s with saves := [] }

def rollback (s : Store ν δ) : Option (Store ν δ) :=
  s.saves.getLast?.map fun m => ⟨m.2, []⟩

variable {s : Store ν δ} {n : ν} {d : δ} {above saves : List (Mark ν × δ)}

theorem find_eq (hs : s.saves = above ++ (.savepoint n, d) :: saves)
    (ha : ∀ m ∈ above, m.1 ≠ .savepoint n) : s.find n = (.savepoint n, d) :: saves := by
  rw [find, hs, List.dropWhile_append_of_pos (by simpa using ha)]
  simp

theorem release_eq (hs : s.saves = above ++ (.savepoint n, d) :: saves)
    (ha : ∀ m ∈ above, m.1 ≠ .savepoint n) : s.release n = some { s with saves := saves } := by
  rw [release, find_eq hs ha]

theorem rollbackTo_eq (hs : s.saves = above ++ (.savepoint n, d) :: saves)
    (ha : ∀ m ∈ above, m.1 ≠ .savepoint n) :
    s.rollbackTo n = some ⟨d, (.savepoint n, d) :: saves⟩ := by
  rw [rollbackTo, find_eq hs ha]

end Store

end Savepoints
