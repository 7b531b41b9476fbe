import CodeSLoop.Lib.Savepoints
import Mathlib.Logic.Function.Basic

/-!
# Transactions (`db/slt3/_shared_impl.cc`)

A `tran` is made from a connection or from another `tran`, and says nothing to the database before
the first query in it: then `start` sends `BEGIN` if it was made from a connection, and otherwise
`SAVEPOINT SP<id>`, whatever its parent has done until then. A query is `prepare` with `next`, or
`execute`; the effect that it has on the database is taken as a function.

Beside the connection goes a ledger, which is not in the code: all effects in order, each with the
`tran` that has still to decide about it. To commit is to leave them to the parent.
-/

namespace CodeSLoop

open Savepoints

namespace Slt3

/-- `tran::impl`, without the connection; `tr_` is the id of the parent. -/
structure Tran where
  tr : Option Nat
  doRollback : Bool
  doCommit : Bool
  started : Bool
deriving DecidableEq

/-- `conn::impl` with the transactions that are there, by their `tran_id_`. -/
structure Conn (δ : Type) where
  tranId : Nat
  trans : Nat → Option Tran
  sqlite : Store Nat δ

variable {δ : Type}

namespace Conn

/-- An open connection to a database, with no transactions. -/
def init (db : δ) : Conn δ := ⟨0, fun _ => none, ⟨db, []⟩⟩

def put (c : Conn δ) (t : Nat) (x : Option Tran) : Conn δ :=
  { c with trans := Function.update c.trans t x }

/-- The constructors. -/
def new (c : Conn δ) (tr : Option Nat) : Conn δ :=
  { c with
    tranId := c.tranId + 1
    trans := Function.update c.trans (c.tranId + 1) (some ⟨tr, false, true, false⟩) }

@[simp] theorem put_self (c : Conn δ) (t : Nat) (x : Option Tran) : (c.put t x).trans t = x :=
  Function.update_self ..

@[simp] theorem put_of_ne (c : Conn δ) {t u : Nat} (x : Option Tran) (h : u ≠ t) :
    (c.put t x).trans u = c.trans u :=
  Function.update_of_ne h ..

@[simp] theorem new_self (c : Conn δ) (tr : Option Nat) :
    (c.new tr).trans (c.tranId + 1) = some ⟨tr, false, true, false⟩ :=
  Function.update_self ..

@[simp] theorem new_of_ne (c : Conn δ) {u : Nat} (tr : Option Nat) (h : u ≠ c.tranId + 1) :
    (c.new tr).trans u = c.trans u :=
  Function.update_of_ne h ..

/-- `SAVEPOINT SP<id>;` or `BEGIN DEFERRED TRANSACTION;`. There is no next state when a statement
    fails. -/
def sendStart (s : Store Nat δ) (t : Nat) : Option Nat → Option (Store Nat δ)
  | some _ => some (s.savepoint t)
  | none => s.begin

/-- `RELEASE SAVEPOINT SP<id>;` or `COMMIT TRANSACTION;`. -/
def sendCommit (s : Store Nat δ) (t : Nat) : Option Nat → Option (Store Nat δ)
  | some _ => s.release t
  | none => s.commit

/-- `ROLLBACK TRANSACTION TO SAVEPOINT SP<id>;` or `ROLLBACK TRANSACTION;`. -/
def sendRollback (s : Store Nat δ) (t : Nat) : Option Nat → Option (Store Nat δ)
  | some _ => s.rollbackTo t
  | none => s.rollback

/-- `start`. -/
def start (c : Conn δ) (t : Nat) (x : Tran) : Option (Conn δ) :=
  if x.started then some c
  else (sendStart c.sqlite t x.tr).map fun s =>
    { c with sqlite := s }.put t (some { x with started := true })

/-- `commit`. -/
def commit (c : Conn δ) (t : Nat) (x : Tran) : Option (Conn δ) :=
  if ¬ x.started then some c
  else (sendCommit c.sqlite t x.tr).map fun s =>
    { c with sqlite := s }.put t (some { x with started := false })

/-- `rollback`. -/
def rollback (c : Conn δ) (t : Nat) (x : Tran) : Option (Conn δ) :=
  if ¬ x.started then some c
  else (sendRollback c.sqlite t x.tr).map fun s =>
    { c with sqlite := s }.put t (some { x with started := false })

/-- The destructor. -/
def destroy (c : Conn δ) (t : Nat) (x : Tran) : Option (Conn δ) :=
  (if ¬ x.started then some c
    else if x.doRollback then c.rollback t x
    else if x.doCommit then c.commit t x
    else some c).map fun c => c.put t none

/-- A query that succeeds. -/
def query (c : Conn δ) (t : Nat) (x : Tran) (f : δ → δ) : Option (Conn δ) :=
  (c.start t x).map fun c => { c with sqlite := c.sqlite.modify f }

end Conn

/-- What is done with a connection. -/
inductive Act (δ : Type)
  | newMain
  | newNested (t : Nat)
  | commitOnDestruct (t : Nat) (yesno : Bool)
  | rollbackOnDestruct (t : Nat) (yesno : Bool)
  | query (t : Nat) (f : δ → δ)
  | commit (t : Nat)
  | rollback (t : Nat)
  | destroy (t : Nat)

def step (c : Conn δ) : Act δ → Option (Conn δ)
  | .newMain => some (c.new none)
  | .newNested t => (c.trans t).map fun _ => c.new (some t)
  | .commitOnDestruct t yesno =>
    (c.trans t).map fun x => c.put t (some { x with doCommit := yesno })
  | .rollbackOnDestruct t yesno =>
    (c.trans t).map fun x => c.put t (some { x with doRollback := yesno })
  | .query t f => (c.trans t).bind fun x => c.query t x f
  | .commit t => (c.trans t).bind fun x => c.commit t x
  | .rollback t => (c.trans t).bind fun x => c.rollback t x
  | .destroy t => (c.trans t).bind fun x => c.destroy t x

/-! ## The ledger -/

/-- Effects, each with the transaction that decides about it; none when it is there for good. -/
abbrev Ledger (δ : Type) := List ((δ → δ) × Option Nat)

namespace Ledger

/-- The contents with all the effects. -/
def replay (db : δ) (l : Ledger δ) : δ := l.foldl (fun db e => e.1 db) db

/-- What `t` has decided about goes to its parent. -/
def commit (l : Ledger δ) (t : Nat) (tr : Option Nat) : Ledger δ :=
  l.map fun e => if e.2 = some t then (e.1, tr) else e

def rollback (l : Ledger δ) (t : Nat) : Ledger δ := l.filter fun e => e.2 ≠ some t

/-- The effects that are there for good. -/
def kept (l : Ledger δ) : Ledger δ := l.filter fun e => e.2 = none

/-- The effects before the first one of `t`. -/
def before (l : Ledger δ) (t : Nat) : Ledger δ := l.takeWhile fun e => e.2 ≠ some t

/-- The effects from the first one of `t` on are all of `t`. -/
def Last (l : Ledger δ) (t : Nat) : Prop :=
  ∀ e ∈ l.dropWhile (fun e => e.2 ≠ some t), e.2 = some t

instance (l : Ledger δ) (t : Nat) : Decidable (l.Last t) := by unfold Last; infer_instance

end Ledger

def record (c : Conn δ) (l : Ledger δ) : Act δ → Ledger δ
  | .query t f => l ++ [(f, some t)]
  | .commit t =>
    match c.trans t with
    | some x => l.commit t x.tr
    | none => l
  | .rollback t => l.rollback t
  | .destroy t =>
    match c.trans t with
    | some x =>
      if x.doRollback then l.rollback t else if x.doCommit then l.commit t x.tr else l
    | none => l
  | _ => l

/-- A run, and its ledger. -/
def run (c : Conn δ) (l : Ledger δ) : List (Act δ) → Option (Conn δ × Ledger δ)
  | [] => some (c, l)
  | a :: as => (step c a).bind fun c' => run c' (record c l a) as

/-! ## What is asked of a run -/

/-- There is no transaction. -/
def Conn.Idle (c : Conn δ) : Prop := ∀ t ≤ c.tranId, c.trans t = none

/-- No transaction made from `t` is running. -/
def Conn.Innermost (c : Conn δ) (t : Nat) : Prop :=
  ∀ u ≤ c.tranId, ∀ y ∈ c.trans u, y.tr = some t → y.started = false

/-- Transactions are there when they are called, they are nested — what is made from one is
    finished before it is, and gone before it is gone — and each of them is to be committed or
    rolled back when it is destroyed. There is one tree of them at a time. -/
def Nested (c : Conn δ) : Act δ → Prop
  | .newMain => c.Idle
  | .newNested t | .commitOnDestruct t _ | .rollbackOnDestruct t _ | .query t _ =>
    (c.trans t).isSome
  | .commit t | .rollback t => (c.trans t).isSome ∧ c.Innermost t
  | .destroy t => (∃ x ∈ c.trans t, x.doRollback ∨ x.doCommit) ∧
      ∀ u ≤ c.tranId, ∀ y ∈ c.trans u, y.tr ≠ some t

/-- Whenever a query starts a nested transaction, its parent has been started, and nothing else
    made from that is running; and a transaction that is rolled back is the only one in which there
    were queries since it was started. -/
def Orderly (c : Conn δ) (l : Ledger δ) : Act δ → Prop
  | .query t _ => ∀ x ∈ c.trans t, x.started = false → ∀ p ∈ x.tr,
      (∃ y ∈ c.trans p, y.started) ∧ c.Innermost p
  | .rollback t => l.Last t
  | .destroy t => ∀ x ∈ c.trans t, x.doRollback → l.Last t
  | _ => True

/-- Something is so at each step of a run. -/
def Along (P : Conn δ → Ledger δ → Act δ → Prop) : Conn δ → Ledger δ → List (Act δ) → Prop
  | _, _, [] => True
  | c, l, a :: as => P c l a ∧ ∀ c' ∈ step c a, Along P c' (record c l a) as

/-- The state of things when every transaction is gone: nothing is open on the connection, and the
    database has the effects that are there for good. -/
def Settled (db : δ) (c : Conn δ) (l : Ledger δ) : Prop :=
  c.Idle → c.sqlite.saves = [] ∧ c.sqlite.db = l.kept.replay db

instance (c : Conn δ) : Decidable c.Idle := by unfold Conn.Idle; infer_instance

instance (c : Conn δ) (t : Nat) : Decidable (c.Innermost t) := by
  unfold Conn.Innermost; infer_instance

instance (c : Conn δ) (a : Act δ) : Decidable (Nested c a) := by
  cases a <;> unfold Nested <;> infer_instance

instance (c : Conn δ) (l : Ledger δ) (a : Act δ) : Decidable (Orderly c l a) := by
  cases a <;> unfold Orderly <;> infer_instance

instance {P : Conn δ → Ledger δ → Act δ → Prop} [∀ c l a, Decidable (P c l a)] (c : Conn δ)
    (l : Ledger δ) (as : List (Act δ)) : Decidable (Along P c l as) := by
  induction as generalizing c l with
  | nil => exact isTrue trivial
  | cons a as ih => unfold Along; infer_instance

instance [DecidableEq δ] (db : δ) (c : Conn δ) (l : Ledger δ) : Decidable (Settled db c l) := by
  unfold Settled; infer_instance

end Slt3

end CodeSLoop
