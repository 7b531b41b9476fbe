import CodeSLoop.Lib.Bytes
import Mathlib.Logic.Function.Basic

/-!
# Code that passes its variables through an archive

A small language of statements, for code that puts variables into an archive and takes them
from it. One statement, `serialize`, does both: which one is a direction that the archive is
set to. Variables are numbers of so many bytes, or objects of a type that has a coding; a
declaration hides what had its name before. Writing may end in an exception, with the object only
in part in the archive.

The rules say what runs of such statements do: `exec_puts` and `raised_puts` behind one another in
the one direction, `exec_declare` and `exec_num` in the other.
-/

namespace Archive

open Bytes

universe u v w

/-- How objects of the types are written, and that those can be read back that are written whole;
    what a declared object holds, and what assigning a number to it makes of it. What is not written
    whole ends in an exception. -/
structure Coding (τ : Type u) (Val : τ → Type v) where
  enc : (t : τ) → Val t → List UInt8
  whole : (t : τ) → Val t → Bool
  dec : (t : τ) → List UInt8 → Option (Val t × List UInt8)
  dec_enc : ∀ t v bs, whole t v = true → dec t (enc t v ++ bs) = some (v, bs)
  init : (t : τ) → Val t
  ofNat : (t : τ) → Nat → Val t

/-- A variable. -/
inductive Cell {τ : Type u} (Val : τ → Type v)
  | num (width n : Nat)
  | obj (o : (t : τ) × Val t)

/-- Statements on variables called by names in `ν`. `turn` sets the direction to writing, in an
    empty archive. -/
inductive Stmt (ν τ : Type u)
  | decl (t : τ) (x : ν) | serialize (x : ν) | assign (x : ν) (n : Nat) | turn

/-- The variables in scope, and the archive. -/
structure State (ν : Type u) {τ : Type u} (Val : τ → Type v) where
  env : ν → Option (Cell Val)
  writing : Bool
  buf : List UInt8

variable {ν τ : Type u} {Val : τ → Type v} (c : Coding τ Val)

def Cell.enc : Cell Val → List UInt8
  | .num w n => be w n
  | .obj o => c.enc o.1 o.2

def Cell.whole : Cell Val → Bool
  | .num _ _ => true
  | .obj o => c.whole o.1 o.2

/-- What is read into the variable, and the bytes behind it. -/
def Cell.dec (bs : List UInt8) : Cell Val → Option (Cell Val × List UInt8)
  | .num w _ => if w ≤ bs.length then some (.num w (ofBe (bs.take w)), bs.drop w) else none
  | .obj o => (c.dec o.1 bs).map fun r => (.obj ⟨o.1, r.1⟩, r.2)

section Exec

variable [DecidableEq ν]

/-- One statement. There is no next state when a name is not declared, when what is to be read is
    not there, or when something is not written whole. -/
def step (s : State ν Val) : Stmt ν τ → Option (State ν Val)
  | .decl t x => some { s with env := Function.update s.env x (some (.obj ⟨t, c.init t⟩)) }
  | .serialize x =>
    match s.env x with
    | none => none
    | some cell =>
      if s.writing then
        if cell.whole c then some { s with buf := s.buf ++ cell.enc c } else none
      else (cell.dec c s.buf).map fun r =>
        { s with env := Function.update s.env x (some r.1), buf := r.2 }
  | .assign x n =>
    (s.env x).map fun cell =>
      { s with env := Function.update s.env x (some (match cell with
        | .num w _ => .num w n
        | .obj o => .obj ⟨o.1, c.ofNat o.1 n⟩)) }
  | .turn => some { s with writing := true, buf := [] }

def exec (s : State ν Val) : List (Stmt ν τ) → Option (State ν Val)
  | [] => some s
  | st :: sts =>
    match step c s st with
    | none => none
    | some s => exec s sts

/-- The object that a statement cannot write whole, and the state that it leaves. -/
def refused (s : State ν Val) : Stmt ν τ → Option (((t : τ) × Val t) × State ν Val)
  | .serialize x =>
    match s.env x with
    | some (.obj o) => if s.writing then some (o, { s with buf := s.buf ++ c.enc o.1 o.2 }) else none
    | _ => none
  | _ => none

/-- The object over which writing ends in an exception, and the state then. -/
def raised (s : State ν Val) : List (Stmt ν τ) → Option (((t : τ) × Val t) × State ν Val)
  | [] => none
  | st :: sts =>
    match step c s st with
    | some s => raised s sts
    | none => refused c s st

/-- What is in the archive at the end, and whether an exception was the end. -/
def ending (s : State ν Val) (sts : List (Stmt ν τ)) : Option (List UInt8 × Bool) :=
  match exec c s sts with
  | some s => some (s.buf, false)
  | none => (raised c s sts).map fun r => (r.2.buf, true)

variable {c} {s s' : State ν Val} {sts : List (Stmt ν τ)}

theorem exec_append {ts : List (Stmt ν τ)} (h : exec c s sts = some s') :
    exec c s (sts ++ ts) = exec c s' ts := by
  induction sts generalizing s with
  | nil =>
    cases h
    rfl
  | cons st sts ih =>
    rw [exec] at h
    rw [List.cons_append, exec]
    cases hs : step c s st with
    | none =>
      rw [hs] at h
      cases h
    | some r =>
      rw [hs] at h
      exact ih h

theorem exec_append_none {ts : List (Stmt ν τ)} (h : exec c s sts = none) :
    exec c s (sts ++ ts) = none := by
  induction sts generalizing s with
  | nil => cases h
  | cons st sts ih =>
    rw [exec] at h
    rw [List.cons_append, exec]
    cases hs : step c s st with
    | none => rfl
    | some r =>
      rw [hs] at h
      exact ih h

theorem raised_append {ts : List (Stmt ν τ)} (h : exec c s sts = some s') :
    raised c s (sts ++ ts) = raised c s' ts := by
  induction sts generalizing s with
  | nil =>
    cases h
    rfl
  | cons st sts ih =>
    rw [exec] at h
    rw [List.cons_append, raised]
    cases hs : step c s st with
    | none =>
      rw [hs] at h
      cases h
    | some r =>
      rw [hs] at h
      dsimp only
      exact ih h

theorem ending_append {ts : List (Stmt ν τ)} (h : exec c s sts = some s') :
    ending c s (sts ++ ts) = ending c s' ts := by
  rw [ending, exec_append h, raised_append h, ending]

theorem step_puts {x : ν} {cell : Cell Val} (hw : s.writing = true) (hx : s.env x = some cell) :
    step c s (.serialize x) =
      if cell.whole c then some { s with buf := s.buf ++ cell.enc c } else none := by
  rw [step, hx]
  exact if_pos hw

/-- Variables are written one behind the other. -/
theorem exec_puts {l : List (ν × Cell Val)} (hw : s.writing = true)
    (hl : ∀ q ∈ l, s.env q.1 = some q.2 ∧ q.2.whole c = true) :
    exec c s (l.map fun q => .serialize q.1) =
      some { s with buf := s.buf ++ l.flatMap fun q => q.2.enc c } := by
  induction l generalizing s with
  | nil => rw [List.map_nil, exec, List.flatMap_nil, List.append_nil]
  | cons q l ih =>
    have htail := ih (s := { s with buf := s.buf ++ q.2.enc c }) hw fun r hr =>
      hl r (List.mem_cons_of_mem q hr)
    obtain ⟨hq, hwhole⟩ := hl q (List.mem_cons_self ..)
    rw [List.map_cons, exec, step_puts hw hq, if_pos hwhole]
    dsimp only
    rw [htail, List.flatMap_cons, List.append_assoc]

/-- Up to the first that is not written whole. -/
theorem raised_puts {l : List (ν × Cell Val)} {q : ν × Cell Val} (hw : s.writing = true)
    (hl : ∀ q ∈ l, s.env q.1 = some q.2) (hq : l.find? (fun q => !q.2.whole c) = some q) :
    exec c s (l.map fun q => .serialize q.1) = none ∧
      ∃ o buf, q.2 = .obj o ∧
        raised c s (l.map fun q => .serialize q.1) = some (o, { s with buf := buf }) := by
  induction l generalizing s with
  | nil => cases hq
  | cons r l ih =>
    have hstep := step_puts (c := c) hw (hl r (List.mem_cons_self ..))
    rw [List.find?_cons] at hq
    rw [List.map_cons, exec, raised, hstep]
    cases hwhole : r.2.whole c with
    | true =>
      rw [hwhole] at hq
      rw [if_pos rfl]
      exact @ih { s with buf := s.buf ++ r.2.enc c } hw
        (fun q' hq' => hl q' (List.mem_cons_of_mem r hq')) hq
    | false =>
      rw [hwhole] at hq
      cases hq
      rw [if_neg (by decide)]
      refine ⟨rfl, ?_⟩
      dsimp only
      rw [refused, hl q (List.mem_cons_self ..)]
      cases hcell : q.2 with
      | num w n =>
        rw [hcell] at hwhole
        cases hwhole
      | obj o => exact ⟨o, _, rfl, if_pos hw⟩

/-- So it ends with all of them, or with an exception. -/
theorem ending_puts {l : List (ν × Cell Val)} (hw : s.writing = true)
    (hl : ∀ q ∈ l, s.env q.1 = some q.2) :
    ∃ bs, ending c s (l.map fun q => .serialize q.1) = some (bs, l.any fun q => !q.2.whole c) ∧
      ((∀ q ∈ l, q.2.whole c = true) → bs = s.buf ++ l.flatMap fun q => q.2.enc c) := by
  cases hq : l.find? fun q => !q.2.whole c with
  | none =>
    have hwhole : ∀ q ∈ l, q.2.whole c = true := fun q hmem => by
      simpa using List.find?_eq_none.mp hq q hmem
    have hany : (l.any fun q => !q.2.whole c) = false := by simpa using hwhole
    rw [hany, ending, exec_puts hw fun q hmem => ⟨hl q hmem, hwhole q hmem⟩]
    exact ⟨_, rfl, fun _ => rfl⟩
  | some q =>
    have hmem := List.mem_of_find?_eq_some hq
    have hnot : q.2.whole c = false := by simpa using List.find?_some hq
    have hany : (l.any fun q => !q.2.whole c) = true :=
      List.any_eq_true.mpr ⟨q, hmem, by rw [hnot]; rfl⟩
    obtain ⟨hnone, o, buf, -, hraised⟩ := raised_puts hw hl hq
    rw [hany, ending, hnone, hraised]
    exact ⟨buf, rfl, fun hall => by rw [hall q hmem] at hnot; cases hnot⟩

/-- A declared object is read from the bytes in front. -/
theorem exec_declare {t : τ} {x : ν} (hw : s.writing = false) :
    exec c s [.decl t x, .serialize x] =
      (c.dec t s.buf).map fun r =>
        { s with env := Function.update s.env x (some (.obj ⟨t, r.1⟩)), buf := r.2 } := by
  cases hdec : c.dec t s.buf with
  | none => simp [exec, step, hw, Cell.dec, hdec]
  | some r => simp [exec, step, hw, Cell.dec, hdec]

/-- A number is read from its bytes. -/
theorem exec_num {x : ν} {w n m : Nat} {bs : List UInt8} (hw : s.writing = false)
    (hx : s.env x = some (.num w m)) (hbuf : s.buf = be w n ++ bs) :
    exec c s [.serialize x] =
      some { s with env := Function.update s.env x (some (.num w (ofBe (be w n)))), buf := bs } := by
  have htake : (be w n ++ bs).take w = be w n := List.take_left' length_be
  have hdrop : (be w n ++ bs).drop w = bs := List.drop_left' length_be
  have hlen : w ≤ (be w n ++ bs).length := by
    rw [List.length_append, length_be]
    exact Nat.le_add_right w _
  simp only [exec, step, hx, hw, Cell.dec, hbuf, htake, hdrop, if_pos hlen,
    Option.map_some, if_false, Bool.false_eq_true]

/-! ## Scopes -/

/-- The values of the variables, when all are declared. -/
def values {α : Type u} {β : Type v} (env : α → Option β) : List α → Option (List β)
  | [] => some []
  | x :: xs =>
    match env x with
    | none => none
    | some a => (values env xs).map (a :: ·)

/-- Variables declared in order, each hiding those before it. -/
def scope {α : Type u} {β : Type v} [DecidableEq α] (env : α → Option β) :
    List (α × β) → α → Option β
  | [] => env
  | (x, a) :: l => scope (Function.update env x (some a)) l

end Exec

section Bind

variable {α : Type u} {β : Type v} [DecidableEq α] {env : α → Option β} {l : List (α × β)}
  {x : α} {a : β}

theorem scope_of_not_mem (h : x ∉ l.map Prod.fst) : scope env l x = env x := by
  induction l generalizing env with
  | nil => rfl
  | cons p l ih =>
    obtain ⟨y, b⟩ := p
    rw [List.map_cons, List.mem_cons, not_or] at h
    rw [scope, ih h.2, Function.update_of_ne h.1]

/-- Of different names, each one is found. -/
theorem scope_of_mem (hnd : (l.map Prod.fst).Nodup) (h : (x, a) ∈ l) :
    scope env l x = some a := by
  induction l generalizing env with
  | nil => cases h
  | cons p l ih =>
    obtain ⟨y, b⟩ := p
    rw [List.map_cons, List.nodup_cons] at hnd
    rw [scope]
    rcases List.mem_cons.mp h with he | htail
    · cases he
      rw [scope_of_not_mem hnd.1, Function.update_self]
    · exact ih hnd.2 htail

omit [DecidableEq α] in
theorem values_eq {ι : Type w} {is : List ι} {f : ι → α} {g : ι → β}
    (h : ∀ i ∈ is, env (f i) = some (g i)) : values env (is.map f) = some (is.map g) := by
  induction is with
  | nil => rfl
  | cons i is ih =>
    rw [List.map_cons, values, h i (List.mem_cons_self ..)]
    dsimp only
    rw [ih fun j hj => h j (List.mem_cons_of_mem i hj)]
    rfl

end Bind

end Archive
