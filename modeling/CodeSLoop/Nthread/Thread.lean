import CodeSLoop.Lib.Run
import Mathlib.Logic.Function.Basic

/-!
# `nthread::thread` (`nthread/thread_impl_pthread.cc`)

A `thread` creates an operating-system thread, which sets `start_evt_` permanent before it calls
the entry routine, and `exit_evt_` behind that. Everything else is decided from these two events:
whether `start` may create a thread, whether `stop` cancels one, and whether the destructor waits
for one.

So there is a gap, from `pthread_create` until the new thread has set `start_evt_`. A `start` in
the gap creates a second thread, and a destructor that gets through the gap does not wait for the
thread. `always_good` says that there is no other one.
-/

namespace CodeSLoop

namespace Thread

open Lts

universe u v

/-- An entry routine; it may be cancelled where it has a cancellation point. In `thread_entry_`
    itself there is none. -/
structure Routine (ρ : Type u) where
  first : ρ
  next : ρ → ρ → Prop
  last : ρ → Prop
  point : ρ → Prop

/-- Where a created thread is in `thread_entry_`. -/
inductive Phase (ρ : Type u)
  | created
  | started
  | running (r : ρ)
  -- The routine has returned, or was cancelled.
  | leaving
  | exited
  | ended

variable {ρ : Type u} {τ : Type v}

namespace Phase

/-- `start_evt_` is set. -/
def hasStarted : Phase ρ → Bool
  | created => false
  | _ => true

/-- The routine has been called. -/
def entered : Phase ρ → Bool
  | created | started => false
  | _ => true

/-- The object or the entry is used still, here or later. -/
def uses : Phase ρ → Bool
  | exited | ended => false
  | _ => true

end Phase

/-- A thread of the operating system; it is cancelled at its next cancellation point if `cancel`. -/
structure Os (ρ : Type u) where
  phase : Phase ρ
  cancel : Bool

/-- Where a call of `stop` is. -/
inductive Call
  | asking
  | asked
  | cancelling
  | waiting
  | sleeping
  deriving DecidableEq

/-- Where the destructor is. -/
inductive Object
  | live
  | stopping
  | joining (i : Nat)
  | gone
  deriving DecidableEq

/-- `thread::impl`. `entry` says whether `start_routine_` was set, `started` and `exited` are the
    two permanent events; `runs` counts the calls of the routine. -/
structure State (ρ : Type u) (τ : Type v) where
  entry : Bool
  tid : Option Nat
  started : Bool
  exited : Bool
  threads : List (Os ρ)
  calls : τ → Option Call
  object : Object
  runs : Nat

def init : State ρ τ := ⟨false, none, false, false, [], fun _ => none, .live, 0⟩

inductive Act (τ : Type v)
  | setEntry
  | start (ret : Bool)
  | stop (t : τ)
  | stops (t : τ)
  | cancel (t : τ)
  | stopped (t : τ) (ret : Bool)
  | destroy (t : τ)
  | join (i : Nat)
  | leave
  | joined (i : Nat)
  | flagStart (i : Nat)
  | enter (i : Nat)
  | work (i : Nat)
  | cancelled (i : Nat)
  | returned (i : Nat)
  | flagExit (i : Nat)
  | finish (i : Nat)

/-- What `stop` does with the flags as it reads them, and what it returns at its end. -/
inductive Stops (started exited : Bool) : Call → Call ⊕ Bool → Prop
  | notStarted : started = false → Stops started exited .asking (.inr false)
  | started : started = true → Stops started exited .asking (.inl .asked)
  | exited : exited = true → Stops started exited .asked (.inr false)
  | running : exited = false → Stops started exited .asked (.inl .cancelling)
  | permanent : exited = true → Stops started exited .waiting (.inr true)
  | sleep : exited = false → Stops started exited .waiting (.inl .sleeping)
  | woken : exited = true → Stops started exited .sleeping (.inr true)
  | timeout : Stops started exited .sleeping (.inr false)

/-- A thread goes on. -/
def State.set (s : State ρ τ) (i : Nat) (th : Os ρ) (x : Phase ρ) : State ρ τ :=
  { s with threads := s.threads.set i { th with phase := x } }

/-- `pthread_cancel( tid_ )`. -/
def State.cancel (s : State ρ τ) : List (Os ρ) :=
  match s.tid with
  | some i => s.threads.modify i fun th => { th with cancel := true }
  | none => s.threads

inductive Step [DecidableEq τ] (routine : Routine ρ) : State ρ τ → Act τ → State ρ τ → Prop
  | setEntry {s : State ρ τ} :
      s.object = .live → Step routine s .setEntry { s with entry := true }
  | startRefused {s : State ρ τ} :
      s.object = .live → s.entry = false ∨ s.started = true ∨ s.exited = true →
      Step routine s (.start false) s
  | startCreated {s : State ρ τ} :
      s.object = .live → s.entry = true → s.started = false → s.exited = false →
      Step routine s (.start true)
        { s with threads := s.threads ++ [⟨.created, false⟩], tid := some s.threads.length }
  -- `pthread_create` has failed, and says nothing about `tid_`.
  | startFailed {s : State ρ τ} {tid : Option Nat} :
      s.object = .live → s.entry = true → s.started = false → s.exited = false →
      Step routine s (.start false) { s with tid := tid }
  | stop {s : State ρ τ} {t : τ} :
      s.object = .live → s.calls t = none →
      Step routine s (.stop t) { s with calls := Function.update s.calls t (some .asking) }
  | stops {s : State ρ τ} {t : τ} {c c' : Call} :
      s.calls t = some c → Stops s.started s.exited c (.inl c') →
      Step routine s (.stops t) { s with calls := Function.update s.calls t (some c') }
  | cancel {s : State ρ τ} {t : τ} :
      s.calls t = some .cancelling →
      Step routine s (.cancel t)
        { s with threads := s.cancel, calls := Function.update s.calls t (some .waiting) }
  | stopped {s : State ρ τ} {t : τ} {c : Call} {ret : Bool} :
      s.calls t = some c → Stops s.started s.exited c (.inr ret) →
      Step routine s (.stopped t ret) { s with calls := Function.update s.calls t none }
  -- The destructor comes when all calls have returned, and calls `stop` itself.
  | destroy {s : State ρ τ} {t : τ} :
      s.object = .live → (∀ t, s.calls t = none) →
      Step routine s (.destroy t)
        { s with object := .stopping, calls := Function.update s.calls t (some .asking) }
  | join {s : State ρ τ} {i : Nat} :
      s.object = .stopping → (∀ t, s.calls t = none) → s.started = true → s.tid = some i →
      Step routine s (.join i) { s with object := .joining i }
  | leave {s : State ρ τ} :
      s.object = .stopping → (∀ t, s.calls t = none) → ¬ (s.started = true ∧ s.tid ≠ none) →
      Step routine s .leave { s with object := .gone }
  | joined {s : State ρ τ} {i : Nat} {th : Os ρ} :
      s.object = .joining i → s.threads[i]? = some th → th.phase = .ended →
      Step routine s (.joined i) { s with object := .gone }
  | flagStart {s : State ρ τ} {i : Nat} {th : Os ρ} :
      s.threads[i]? = some th → th.phase = .created →
      Step routine s (.flagStart i) { s.set i th .started with started := true }
  | enter {s : State ρ τ} {i : Nat} {th : Os ρ} :
      s.threads[i]? = some th → th.phase = .started →
      Step routine s (.enter i) { s.set i th (.running routine.first) with runs := s.runs + 1 }
  | work {s : State ρ τ} {i : Nat} {th : Os ρ} {r r' : ρ} :
      s.threads[i]? = some th → th.phase = .running r → routine.next r r' →
      Step routine s (.work i) (s.set i th (.running r'))
  | cancelled {s : State ρ τ} {i : Nat} {th : Os ρ} {r : ρ} :
      s.threads[i]? = some th → th.phase = .running r → routine.point r → th.cancel = true →
      Step routine s (.cancelled i) (s.set i th .leaving)
  | returned {s : State ρ τ} {i : Nat} {th : Os ρ} {r : ρ} :
      s.threads[i]? = some th → th.phase = .running r → routine.last r →
      Step routine s (.returned i) (s.set i th .leaving)
  | flagExit {s : State ρ τ} {i : Nat} {th : Os ρ} :
      s.threads[i]? = some th → th.phase = .leaving →
      Step routine s (.flagExit i) { s.set i th .exited with exited := true }
  | finish {s : State ρ τ} {i : Nat} {th : Os ρ} :
      s.threads[i]? = some th → th.phase = .exited →
      Step routine s (.finish i) (s.set i th .ended)

namespace State

/-- At most one thread, which runs the routine once; its exit comes behind its start; and it does
    not outlive the object. -/
structure Good (s : State ρ τ) : Prop where
  once : s.threads.length ≤ 1
  runs : s.runs ≤ 1
  exits : s.exited = true → s.started = true
  gone : s.object = .gone → ∀ th ∈ s.threads, th.phase.uses = false

/-- A thread is created only if there is none. -/
def Starts (s : State ρ τ) : Act τ → Prop
  | .start ret => s.threads ≠ [] → ret = false
  | _ => True

/-- There is no thread that has not set `start_evt_` when `start` looks at it, or the destructor
    does so for the second time. -/
def Spares (s : State ρ τ) : Act τ → Prop
  | .start _ | .leave => s.threads ≠ [] → s.started = true
  | _ => True

/-! ## One thread at most -/

variable {routine : Routine ρ} {s s' : State ρ τ} {a : Act τ} {i : Nat} {th : Os ρ}

/-- What holds while nobody has used the gap. -/
structure Inv (s : State ρ τ) : Prop where
  once : s.threads.length ≤ 1
  tid : s.threads ≠ [] → s.tid = some 0
  none : s.threads = [] → s.started = false ∧ s.runs = 0
  started : ∀ th ∈ s.threads, th.phase.hasStarted = s.started
  runs : ∀ th ∈ s.threads, s.runs = th.phase.entered.toNat
  exits : s.exited = true → s.started = true
  gone : s.object = .gone → ∀ th ∈ s.threads, th.phase.uses = false

theorem Inv.good (h : s.Inv) : s.Good := by
  refine ⟨h.once, ?_, h.exits, h.gone⟩
  rcases hl : s.threads with - | ⟨th, l⟩
  · rw [(h.none hl).2]
    exact Nat.zero_le 1
  · rw [h.runs th (by rw [hl]; exact List.mem_cons_self)]
    exact Bool.toNat_le _

/-- The thread is the only one. -/
theorem Inv.threads_eq (h : s.Inv) (hi : s.threads[i]? = some th) : i = 0 ∧ s.threads = [th] := by
  have hlen := h.once
  rcases hl : s.threads with - | ⟨th', l⟩
  · rw [hl] at hi
    cases hi
  · rw [hl, List.length_cons] at hlen
    have hnil : l = [] := List.eq_nil_of_length_eq_zero (by omega)
    subst hnil
    rw [hl] at hi
    cases i with
    | zero => exact ⟨rfl, congrArg ([·]) (Option.some.inj hi)⟩
    | succ i => cases hi

/-- **A step of the thread.** It may set an event that the step is known to set. -/
theorem Inv.turn (h : s.Inv) (hi : s.threads[i]? = some th) {x : Phase ρ} {runs : Nat}
    {started exited : Bool} (hstarted : x.hasStarted = started) (hruns : runs = x.entered.toNat)
    (hexits : exited = true → started = true) (huses : th.phase.uses = false → x.uses = false) :
    Inv { s.set i th x with started := started, exited := exited, runs := runs } := by
  obtain ⟨rfl, hl⟩ := h.threads_eq hi
  have hset : s.threads.set 0 { th with phase := x } = [{ th with phase := x }] := by
    rw [hl]
    rfl
  have hall : ∀ {P : Os ρ → Prop}, P { th with phase := x } →
      ∀ th' ∈ s.threads.set 0 { th with phase := x }, P th' := by
    intro P hP th' hth'
    rw [hset, List.mem_singleton] at hth'
    rwa [hth']
  refine ⟨?_, ?_, ?_, hall hstarted, hall hruns, hexits, ?_⟩
  · exact (congrArg List.length hset).le
  · intro _
    exact h.tid (by rw [hl]; exact List.cons_ne_nil _ _)
  · intro hnil
    exact absurd (hset.symm.trans hnil) (List.cons_ne_nil _ _)
  · intro hgone
    exact hall (huses (h.gone hgone th (by rw [hl]; exact List.mem_cons_self)))

/-- What changes neither thread nor event. -/
theorem Inv.keep (h : s.Inv) {entry : Bool} {calls : τ → Option Call} {object : Object}
    (hgone : object = .gone → ∀ th ∈ s.threads, th.phase.uses = false) :
    Inv { s with entry := entry, calls := calls, object := object } :=
  ⟨h.once, h.tid, h.none, h.started, h.runs, h.exits, hgone⟩

theorem mem_cancel {th' : Os ρ} (h : th' ∈ s.cancel) : ∃ th ∈ s.threads, th'.phase = th.phase := by
  rw [cancel] at h
  split at h
  · obtain ⟨j, hj⟩ := List.mem_iff_getElem?.mp h
    rw [List.getElem?_modify] at hj
    obtain ⟨th, hth, heq⟩ := Option.map_eq_some_iff.mp hj
    refine ⟨th, List.mem_of_getElem? hth, ?_⟩
    rw [← heq]
    split <;> rfl
  · exact ⟨th', h, rfl⟩

theorem length_cancel : s.cancel.length = s.threads.length := by
  rw [cancel]
  split
  · exact List.length_modify ..
  · rfl

theorem Inv.cancel (h : s.Inv) {calls : τ → Option Call} :
    Inv { s with threads := s.cancel, calls := calls } := by
  have hnil : s.cancel = [] ↔ s.threads = [] := by
    rw [← List.length_eq_zero_iff, length_cancel, List.length_eq_zero_iff]
  have hall : ∀ {P : Phase ρ → Prop}, (∀ th ∈ s.threads, P th.phase) →
      ∀ th ∈ s.cancel, P th.phase := by
    intro P hP th hth
    obtain ⟨th', hth', heq⟩ := mem_cancel hth
    rw [heq]
    exact hP th' hth'
  refine ⟨?_, ?_, ?_, @hall (fun x => x.hasStarted = s.started) h.started,
    @hall (fun x => s.runs = x.entered.toNat) h.runs, h.exits,
    fun hgone => @hall (fun x => x.uses = false) (h.gone hgone)⟩
  · exact length_cancel.trans_le h.once
  · intro hne
    exact h.tid fun h0 => hne (hnil.mpr h0)
  · intro h0
    exact h.none (hnil.mp h0)

theorem inv_init : Inv (init : State ρ τ) :=
  ⟨Nat.zero_le 1, fun hne => absurd rfl hne, fun _ => ⟨rfl, rfl⟩, nofun, nofun, nofun,
    nofun⟩

/-- A thread behind the start of the routine has set `start_evt_`. -/
theorem Inv.set_started (h : s.Inv) (hi : s.threads[i]? = some th)
    (hth : th.phase.hasStarted = true) : s.started = true := by
  rw [← h.started th (List.mem_of_getElem? hi), hth]

/-- A thread goes on behind the start of the routine. -/
theorem Inv.go (h : s.Inv) (hi : s.threads[i]? = some th) {x y : Phase ρ} (hy : th.phase = y)
    (hstarted : y.hasStarted = true) (hstarted' : x.hasStarted = true)
    (hentered : y.entered = x.entered) (huses : y.uses = false → x.uses = false) :
    Inv (s.set i th x) := by
  subst hy
  refine h.turn hi (hstarted'.trans (h.set_started hi hstarted).symm) ?_ h.exits huses
  rw [← hentered]
  exact h.runs _ (List.mem_of_getElem? hi)

/-- The thread is created, the first one. -/
theorem Inv.create (h : s.Inv) (hnil : s.threads = []) (hlive : s.object = .live)
    (hstarted : s.started = false) :
    Inv { s with threads := s.threads ++ [⟨.created, false⟩], tid := some s.threads.length } := by
  obtain ⟨-, hruns⟩ := h.none hnil
  rw [hnil]
  refine ⟨Nat.le_refl 1, fun _ => rfl, fun hcons => (by cases hcons), fun th hth => ?_,
    fun th hth => ?_, h.exits, fun hgone => ?_⟩
  · rw [List.mem_singleton.mp hth]
    exact hstarted.symm
  · rw [List.mem_singleton.mp hth]
    exact hruns
  · rw [show s.object = .gone from hgone] at hlive
    cases hlive

/-- Outside of the gap there is no thread before `start_evt_` is set. -/
theorem threads_eq_nil (hg : s.threads ≠ [] → s.started = true) (hstarted : s.started = false) :
    s.threads = [] := by
  by_contra hne
  rw [hg hne] at hstarted
  cases hstarted

variable [DecidableEq τ]

theorem inv_step (h : s.Inv) (hs : Step routine s a s') (hg : s.Spares a) :
    s.Starts a ∧ s'.Inv := by
  have hkeep : s.object = .gone → ∀ th ∈ s.threads, th.phase.uses = false := h.gone
  cases hs with
  | setEntry hlive => exact ⟨trivial, h.keep hkeep⟩
  | startRefused hlive href => exact ⟨fun _ => rfl, h⟩
  | startCreated hlive hentry hstarted hexited =>
    have hnil := threads_eq_nil hg hstarted
    exact ⟨fun hne => absurd hnil hne, h.create hnil hlive hstarted⟩
  | startFailed hlive hentry hstarted hexited =>
    have hnil := threads_eq_nil hg hstarted
    exact ⟨fun _ => rfl, h.once, fun hne => absurd hnil hne, h.none, h.started, h.runs, h.exits,
      h.gone⟩
  | stop hlive hcall => exact ⟨trivial, h.keep hkeep⟩
  | stops hcall hstops => exact ⟨trivial, h.keep hkeep⟩
  | cancel hcall => exact ⟨trivial, h.cancel⟩
  | stopped hcall hstops => exact ⟨trivial, h.keep hkeep⟩
  | destroy hlive hcalls => exact ⟨trivial, h.keep fun hgone => by cases hgone⟩
  | join hstop hcalls hstarted htid => exact ⟨trivial, h.keep fun hgone => by cases hgone⟩
  | leave hstop hcalls hnot =>
    refine ⟨trivial, h.keep fun _ th hth => absurd ?_ hnot⟩
    -- the destructor leaves at once only when there is no thread to wait for
    have hne : s.threads ≠ [] := List.ne_nil_of_mem hth
    refine ⟨hg hne, ?_⟩
    rw [h.tid hne]
    exact Option.some_ne_none 0
  | joined hjoin hi hended =>
    refine ⟨trivial, h.keep fun _ th' hth' => ?_⟩
    rw [(h.threads_eq hi).2, List.mem_singleton] at hth'
    rw [hth', hended]
    rfl
  | flagStart hi hx =>
    refine ⟨trivial, h.turn hi rfl ?_ (fun _ => rfl) fun huses => by rw [hx] at huses; cases huses⟩
    refine (h.runs _ (List.mem_of_getElem? hi)).trans ?_
    rw [hx]
    rfl
  | enter hi hx =>
    refine ⟨trivial, h.turn hi (h.set_started hi (by rw [hx]; rfl)).symm ?_ h.exits
      fun huses => by rw [hx] at huses; cases huses⟩
    rw [h.runs _ (List.mem_of_getElem? hi), hx]
    rfl
  | work hi hx hnext => exact ⟨trivial, h.go hi hx rfl rfl rfl fun huses => by cases huses⟩
  | cancelled hi hx hpoint hcancel =>
    exact ⟨trivial, h.go hi hx rfl rfl rfl fun huses => by cases huses⟩
  | returned hi hx hlast => exact ⟨trivial, h.go hi hx rfl rfl rfl fun huses => by cases huses⟩
  | flagExit hi hx =>
    refine ⟨trivial, h.turn hi (h.set_started hi (by rw [hx]; rfl)).symm ?_
      (fun _ => h.set_started hi (by rw [hx]; rfl)) fun _ => rfl⟩
    refine (h.runs _ (List.mem_of_getElem? hi)).trans ?_
    rw [hx]
    rfl
  | finish hi hx => exact ⟨trivial, h.go hi hx rfl rfl rfl fun _ => rfl⟩

/-- **All runs** in which neither `start` nor the destructor comes into the gap. -/
theorem always_good {tr : List (Act τ × State ρ τ)} (h : Run (Step routine) init tr)
    (hg : Always (fun s a _ => s.Spares a) init tr) :
    Always (fun s a s' => s.Starts a ∧ s'.Good) init tr := by
  refine h.always_of_guard (fun s a s' hI hg hs => ?_) inv_init hg
  obtain ⟨hstarts, hinv⟩ := inv_step hI hs hg
  exact ⟨⟨hstarts, hinv.good⟩, hinv⟩

/-- A routine that returns at once. -/
def idle : Routine Unit := ⟨(), fun _ _ => False, fun _ => True, fun _ => False⟩

/-- A second `start` comes when the thread has set `start_evt_`, and the destructor then. -/
theorem always_good_late : ∃ tr : List (Act Unit × State Unit Unit),
    tr.map Prod.fst = [.setEntry, .start true, .flagStart 0, .start false, .enter 0, .destroy (),
      .stops (), .stops (), .cancel (), .returned 0, .flagExit 0, .stopped () true, .join 0,
      .finish 0, .joined 0] ∧
    Always (fun s a s' => s.Starts a ∧ s'.Good) init tr := by
  refine ⟨_, rfl, @always_good Unit Unit idle _ _
    (.cons (.setEntry rfl) <| .cons (.startCreated rfl rfl rfl rfl) <|
    .cons (.flagStart (i := 0) rfl rfl) <| .cons (.startRefused rfl (Or.inr (Or.inl rfl))) <|
    .cons (.enter (i := 0) rfl rfl) <| .cons (.destroy (t := ()) rfl fun _ => rfl) <|
    .cons (.stops (t := ()) rfl (.started rfl)) <| .cons (.stops (t := ()) rfl (.running rfl)) <|
    .cons (.cancel (t := ()) rfl) <| .cons (.returned (i := 0) rfl rfl trivial) <|
    .cons (.flagExit (i := 0) rfl rfl) <| .cons (.stopped (t := ()) rfl (.permanent rfl)) <|
    .cons (.join (i := 0) rfl (fun _ => rfl) rfl rfl) <| .cons (.finish (i := 0) rfl rfl) <|
    .cons (.joined (i := 0) rfl rfl rfl) <| .nil _) ?_⟩
  exact ⟨trivial, fun hne => absurd rfl hne, trivial, fun _ => rfl, trivial, trivial, trivial,
    trivial, trivial, trivial, trivial, trivial, trivial, trivial, trivial, trivial⟩

/-- `start` in the gap, and the destructor in the gap. -/
theorem always_good_fails :
    (∃ tr : List (Act Unit × State Unit Unit), Run (Step idle) init tr ∧
      tr.map Prod.fst = [.setEntry, .start true, .start true] ∧
      ¬ Always (fun s a s' => s.Starts a ∧ s'.Good) init tr) ∧
    ∃ tr : List (Act Unit × State Unit Unit), Run (Step idle) init tr ∧
      tr.map Prod.fst = [.setEntry, .start true, .destroy (), .stopped () false, .leave] ∧
      ¬ Always (fun s a s' => s.Starts a ∧ s'.Good) init tr := by
  constructor
  · refine ⟨_, .cons (.setEntry rfl) <| .cons (.startCreated rfl rfl rfl rfl) <|
      .cons (.startCreated rfl rfl rfl rfl) <| .nil _, rfl, ?_⟩
    rintro ⟨-, -, ⟨hstarts, -⟩, -⟩
    exact absurd (hstarts (List.cons_ne_nil _ _)) (by decide)
  · refine ⟨_, .cons (.setEntry rfl) <| .cons (.startCreated rfl rfl rfl rfl) <|
      .cons (.destroy (t := ()) rfl fun _ => rfl) <|
      .cons (.stopped (t := ()) rfl (.notStarted rfl)) <|
      .cons (.leave rfl (fun _ => rfl) (by rintro ⟨hstarted, -⟩; cases hstarted)) <| .nil _, rfl, ?_⟩
    rintro ⟨-, -, -, -, ⟨-, hgood⟩, -⟩
    exact absurd (hgood.gone rfl _ List.mem_cons_self) Bool.noConfusion

end State

end Thread

end CodeSLoop
