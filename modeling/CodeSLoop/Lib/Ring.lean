import Mathlib.Data.List.Basic

/-!
# A bounded queue with a push in two phases

Items enter a queue of at most `max` and leave it oldest first, either because they are asked for
or because a new one enters when the queue is full. An item may be prepared before it enters, and
given up after that; a prepared item has a name. Preparing takes a free place, or makes one when
the queue is not full.

`Ring.restores` is what the two phases are for: an item that is prepared and given up leaves no
trace in the queue, whatever happens in between.
-/

namespace Ring

variable {K V : Type}

inductive Event (K V : Type)
  | prepare (k : K)
  | commit (k : K) (v : V)
  | rollback (k : K)
  | push (v : V)
  | pop

/-- The prepared item that an event is about. -/
def Event.key : Event K V → Option K
  | prepare k | commit k _ | rollback k => some k
  | push _ | pop => none

/-- What enters the queue. -/
def Event.enters : Event K V → List V
  | commit _ v | push v => [v]
  | _ => []

/-- The items in the queue, newest first, the number of free places, and the prepared items, newest
    first. -/
structure State (K V : Type) where
  active : List V
  free : Nat
  prep : List K

/-- An item enters. -/
def enter (max : Nat) (active : List V) (v : V) : List V :=
  if active.length < max then v :: active else v :: active.dropLast

/-- Prepared items are committed or given up in the order opposite to that of their preparation,
    and none is prepared or committed when the queue is full and there is no free place for it. -/
def State.Ok (max : Nat) (s : State K V) : Event K V → Prop
  | .prepare k => k ∉ s.prep ∧ (0 < s.free ∨ s.active.length < max)
  | .commit k _ => s.prep.head? = some k ∧ s.active.length < max
  | .rollback k => s.prep.head? = some k
  | .push _ => True
  | .pop => s.active ≠ []

def State.step (max : Nat) (s : State K V) : Event K V → State K V
  | .prepare k => ⟨s.active, s.free - 1, k :: s.prep⟩
  | .commit _ v => ⟨enter max s.active v, s.free, s.prep.tail⟩
  | .rollback _ => ⟨s.active, s.free + 1, s.prep.tail⟩
  | .push v => ⟨enter max s.active v,
      if s.active.length < max then s.free - 1 else s.free, s.prep⟩
  | .pop => ⟨s.active.dropLast, s.free + 1, s.prep⟩

def State.run (max : Nat) (s : State K V) (es : List (Event K V)) : State K V :=
  es.foldl (State.step max) s

/-- Every event is in order when it comes. -/
def State.OkAll (max : Nat) : State K V → List (Event K V) → Prop
  | _, [] => True
  | s, e :: es => s.Ok max e ∧ (s.step max e).OkAll max es

instance [DecidableEq K] (max : Nat) (s : State K V) (e : Event K V) : Decidable (s.Ok max e) :=
  match e with
  | .prepare k => inferInstanceAs (Decidable (k ∉ s.prep ∧ (0 < s.free ∨ s.active.length < max)))
  | .commit k _ => inferInstanceAs (Decidable (s.prep.head? = some k ∧ s.active.length < max))
  | .rollback k => inferInstanceAs (Decidable (s.prep.head? = some k))
  | .push _ => inferInstanceAs (Decidable True)
  | .pop => decidable_of_iff (s.active.isEmpty = false) List.isEmpty_eq_false_iff

instance decidableOkAll [DecidableEq K] (max : Nat) :
    ∀ (s : State K V) (es : List (Event K V)), Decidable (s.OkAll max es)
  | _, [] => inferInstanceAs (Decidable True)
  | s, e :: es =>
    have := decidableOkAll max (s.step max e) es
    inferInstanceAs (Decidable (s.Ok max e ∧ (s.step max e).OkAll max es))

variable {max : Nat} {s s₀ : State K V} {e : Event K V} {es fs : List (Event K V)} {k : K}

@[simp] theorem run_nil : s.run max [] = s := rfl

@[simp] theorem run_cons : s.run max (e :: es) = (s.step max e).run max es := rfl

theorem run_append : s.run max (es ++ fs) = (s.run max es).run max fs := List.foldl_append

theorem okAll_append : s.OkAll max (es ++ fs) ↔ s.OkAll max es ∧ (s.run max es).OkAll max fs := by
  induction es generalizing s with
  | nil => exact ⟨fun h => ⟨trivial, h⟩, fun h => h.2⟩
  | cons e es ih =>
    rw [List.cons_append, State.OkAll, State.OkAll, run_cons, ih]
    exact and_assoc.symm

/-- The queue, but with one more prepared item. -/
structure Holds (k : K) (s s₀ : State K V) : Prop where
  active : s.active = s₀.active
  free : s.free ≤ s₀.free
  prep : ∃ xs ys, s.prep = xs ++ k :: ys ∧ s₀.prep = xs ++ ys

/-- Anything but that item can be dealt with as if it were not there. -/
theorem Holds.step (h : Holds k s s₀) (hk : e.key ≠ some k) (hok : s.Ok max e) :
    s₀.Ok max e ∧ Holds k (s.step max e) (s₀.step max e) := by
  obtain ⟨ha, hf, xs, ys, hp, hp₀⟩ := h
  cases e with
  | prepare k' =>
    obtain ⟨hnew, hroom⟩ := hok
    rw [hp] at hnew
    refine ⟨⟨?_, ?_⟩, ha, Nat.sub_le_sub_right hf 1, k' :: xs, ys, ?_, ?_⟩
    · rw [hp₀]
      intro hm
      rcases List.mem_append.mp hm with hm | hm
      · exact hnew (List.mem_append_left _ hm)
      · exact hnew (List.mem_append_right _ (List.mem_cons_of_mem _ hm))
    · rw [← ha]
      exact hroom.imp_left fun h0 => by omega
    · rw [State.step, hp, List.cons_append]
    · rw [State.step, hp₀, List.cons_append]
  | commit k' v =>
    obtain ⟨hhead, hroom⟩ := hok
    -- the item that is named is at the front, so it is not the one that is held
    cases xs with
    | nil =>
      rw [hp] at hhead
      exact absurd hhead.symm hk
    | cons x xs =>
      rw [hp] at hhead
      refine ⟨⟨by rw [hp₀]; exact hhead, ha ▸ hroom⟩, ?_, hf, xs, ys, ?_, ?_⟩
      · rw [State.step, State.step, ha]
      · rw [State.step, hp, List.cons_append, List.tail_cons]
      · rw [State.step, hp₀, List.cons_append, List.tail_cons]
  | rollback k' =>
    cases xs with
    | nil =>
      have hhead : s.prep.head? = some k' := hok
      rw [hp] at hhead
      exact absurd hhead.symm hk
    | cons x xs =>
      have hhead : s.prep.head? = some k' := hok
      rw [hp] at hhead
      refine ⟨?_, ha, Nat.succ_le_succ hf, xs, ys, ?_, ?_⟩
      · rw [State.Ok, hp₀]
        exact hhead
      · rw [State.step, hp, List.cons_append, List.tail_cons]
      · rw [State.step, hp₀, List.cons_append, List.tail_cons]
  | push v =>
    refine ⟨trivial, ?_, ?_, xs, ys, hp, hp₀⟩
    · rw [State.step, State.step, ha]
    · rw [State.step, State.step, ha]
      dsimp only
      split
      · exact Nat.sub_le_sub_right hf 1
      · exact hf
  | pop =>
    refine ⟨?_, ?_, Nat.succ_le_succ hf, xs, ys, hp, hp₀⟩
    · rw [State.Ok, ← ha]
      exact hok
    · rw [State.step, State.step, ha]

theorem Holds.run (h : Holds k s s₀) (hk : ∀ e ∈ es, e.key ≠ some k) (hok : s.OkAll max es) :
    s₀.OkAll max es ∧ Holds k (s.run max es) (s₀.run max es) := by
  induction es generalizing s s₀ with
  | nil => exact ⟨trivial, h⟩
  | cons e es ih =>
    obtain ⟨hok₀, hstep⟩ := h.step (hk e (List.mem_cons_self ..)) hok.1
    obtain ⟨hrest, hrun⟩ := ih hstep (fun f hf => hk f (List.mem_cons_of_mem e hf)) hok.2
    exact ⟨⟨hok₀, hrest⟩, hrun⟩

/-- **What is prepared and given up leaves no trace.** -/
theorem restores (hk : ∀ e ∈ es, e.key ≠ some k)
    (hok : s.OkAll max (.prepare k :: (es ++ [.rollback k]))) :
    s.OkAll max es ∧
      (s.run max (.prepare k :: (es ++ [.rollback k]))).active = (s.run max es).active := by
  have hholds : Holds k (s.step max (.prepare k)) s := ⟨rfl, Nat.sub_le .., [], s.prep, rfl, rfl⟩
  obtain ⟨hok', hrun⟩ := hholds.run hk (okAll_append.mp hok.2).1
  refine ⟨hok', ?_⟩
  rw [run_cons, run_append, run_cons, run_nil]
  exact hrun.active

end Ring
