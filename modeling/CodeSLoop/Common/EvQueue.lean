import CodeSLoop.Lib.Agenda
import Mathlib.Data.Int.Init
import Mathlib.Data.List.Basic

/-!
# Pending events (`common/libev/ev.c`)

`ev_feed_event` queues events for a watcher, `clear_pending` takes them back, and `ev_invoke_pending` calls
the watchers, those of the highest priority first. A watcher has one entry at most, in the array of its
priority, and `pending` is the place of it; so there is an agenda for each priority (`Queue.agenda`), and
all of them together are a map from watchers to the events that they are still to be called with
(`Queue.owed`).

`&pending_w`, which takes the place of a watcher that is not to be called any more, is `none`. Addresses are
numbers. That memory runs out is left out, and so is that a size is too big for an `int`.
-/

namespace CodeSLoop.Ev

/-! ## Sizes of arrays -/

/-- The loop of `array_nextsize`. -/
def doubled (cnt ncur : Nat) : Nat :=
  if cnt > ncur * 2 ∧ 0 < ncur then doubled cnt (ncur * 2) else ncur * 2
termination_by cnt - ncur
decreasing_by omega

def MALLOC_ROUND : Nat := 4096

/-- `array_nextsize`; `sizeof (void *)` is 8. -/
def arrayNextsize (elem cur cnt : Nat) : Nat :=
  let ncur := doubled cnt (cur + 1)
  if elem * ncur > MALLOC_ROUND - 8 * 4 then
    -- a multiple of `MALLOC_ROUND`, less the overhead of `malloc`
    ((ncur * elem + elem + (MALLOC_ROUND - 1) + 8 * 4) / MALLOC_ROUND * MALLOC_ROUND - 8 * 4) / elem
  else ncur

/-- `array_needsize`: the new size of an array. -/
def needsize (elem cur cnt : Nat) : Nat := if cnt > cur then arrayNextsize elem cur cnt else cur

theorem le_doubled (cnt ncur : Nat) (h : 0 < ncur) : cnt ≤ doubled cnt ncur := by
  induction hm : cnt - ncur using Nat.strongRecOn generalizing ncur with
  | _ m ih =>
    rw [doubled]
    split
    · exact ih _ (by omega) _ (by omega) rfl
    · omega

/-- **An array has room** for what was asked for. -/
theorem le_arrayNextsize {elem : Nat} (helem : 0 < elem) (cur cnt : Nat) :
    cnt ≤ arrayNextsize elem cur cnt := by
  have hle := le_doubled cnt (cur + 1) (Nat.succ_pos _)
  unfold arrayNextsize
  generalize doubled cnt (cur + 1) = ncur at hle
  dsimp only
  split
  · rw [Nat.le_div_iff_mul_le helem]
    have hmul : cnt * elem ≤ ncur * elem := Nat.mul_le_mul_right _ hle
    simp only [MALLOC_ROUND]
    omega
  · exact hle

theorem le_needsize {elem : Nat} (helem : 0 < elem) (cur cnt : Nat) : cnt ≤ needsize elem cur cnt := by
  unfold needsize
  split
  · exact le_arrayNextsize helem cur cnt
  · omega

/-! ## The state -/

/-- Events, as they are given to watchers. -/
abbrev Events := BitVec 32

/-- The watchers that are kept in plain arrays. -/
inductive Listed
  | prepare
  | check
  | fork
  | async
deriving DecidableEq, Repr

/-- A watcher, by its type and its address. -/
inductive W
  | io (a : Nat)
  | timer (a : Nat)
  | listed (k : Listed) (a : Nat)
deriving DecidableEq, Repr

/-- The members of a loop that are for pending events, and those of the watchers. -/
structure Queue where
  pending : W → Nat
  priority : W → Int
  pendings : Int → List (Option W × Events)
  pendingmax : Int → Nat
  rfeeds : List W
  rfeedmax : Nat

def EV_MINPRI : Int := -2

def EV_MAXPRI : Int := 2

def NUMPRI : Int := EV_MAXPRI - EV_MINPRI + 1

/-! ## The code -/

/-- `ABSPRI`. -/
def Queue.abspri (q : Queue) (w : W) : Int := q.priority w - EV_MINPRI

def evFeedEvent (q : Queue) (w : W) (revents : Events) : Queue :=
  let pri := q.abspri w
  if q.pending w ≠ 0 then
    { q with
      pendings := Function.update q.pendings pri
        ((q.pendings pri).modify (q.pending w - 1) fun p => (p.1, p.2 ||| revents)) }
  else
    let pending := (q.pendings pri).length + 1
    { q with
      pending := Function.update q.pending w pending
      pendingmax := Function.update q.pendingmax pri (needsize 16 (q.pendingmax pri) pending)
      pendings := Function.update q.pendings pri (q.pendings pri ++ [(some w, revents)]) }

def queueEvents (q : Queue) (events : List W) (type : Events) : Queue :=
  events.foldl (fun q w => evFeedEvent q w type) q

def feedReverse (q : Queue) (w : W) : Queue :=
  { q with
    rfeedmax := needsize 8 q.rfeedmax (q.rfeeds.length + 1)
    rfeeds := q.rfeeds ++ [w] }

/-- `feed_reverse_done`: what was put there last is fed first. -/
def feedReverseDone (q : Queue) (revents : Events) : Queue :=
  { queueEvents q q.rfeeds.reverse revents with rfeeds := [] }

def clearPending (q : Queue) (w : W) : Queue :=
  if q.pending w ≠ 0 then
    { q with
      pendings := Function.update q.pendings (q.abspri w)
        ((q.pendings (q.abspri w)).modify (q.pending w - 1) fun p => (none, p.2))
      pending := Function.update q.pending w 0 }
  else q

/-- `ev_clear_pending`: the events that are taken back, too. -/
def evClearPending (q : Queue) (w : W) : Events × Queue :=
  if q.pending w ≠ 0 then
    ((((q.pendings (q.abspri w))[q.pending w - 1]?).map Prod.snd).getD 0, clearPending q w)
  else (0, q)

/-- The last entry of an array is taken: `--pendingcnt [pri]`, and `p->w->pending = 0`. -/
def takeLast (q : Queue) (pri : Int) (w : Option W) : Queue :=
  { q with
    pendings := Function.update q.pendings pri (q.pendings pri).dropLast
    pending := w.elim q.pending fun w => Function.update q.pending w 0 }

/-- A turn of the inner loop of `ev_invoke_pending`, for a priority: the watcher that is called, and with what. -/
def invokeTurn (q : Queue) (pri : Int) : Option ((Option W × Events) × Queue) :=
  (q.pendings pri).getLast?.map fun p => (p, takeLast q pri p.1)

def priAdjust (q : Queue) (w : W) : Queue :=
  let pri := q.priority w
  let pri := if pri < EV_MINPRI then EV_MINPRI else pri
  let pri := if pri > EV_MAXPRI then EV_MAXPRI else pri
  { q with priority := Function.update q.priority w pri }

/-- The assertions of `verify_watcher`. -/
def verifyWatcher (q : Queue) (w : W) : Bool :=
  decide (0 ≤ q.abspri w ∧ q.abspri w < NUMPRI) &&
    (q.pending w == 0 || ((q.pendings (q.abspri w))[q.pending w - 1]?).map Prod.fst == some (some w))

/-! ## What is owed -/

namespace Queue

/-- The array of a priority. -/
def agenda (q : Queue) (pri : Int) : Agenda W Events where
  entries := q.pendings pri
  place w := if q.abspri w = pri then q.pending w else 0

/-- A watcher has a priority that there is an array for. -/
def Valid (q : Queue) (w : W) : Prop := 0 ≤ q.abspri w ∧ q.abspri w < NUMPRI

instance (q : Queue) : DecidablePred q.Valid := fun _ => inferInstanceAs (Decidable (_ ∧ _))

/-- **The places of the watchers are right**, and the arrays have room. -/
structure Ok (q : Queue) : Prop where
  agenda : ∀ pri, (q.agenda pri).Ok
  valid : ∀ w, q.pending w ≠ 0 → q.Valid w
  room : ∀ pri, (q.pendings pri).length ≤ q.pendingmax pri

/-- **What a watcher is still to be called with.** -/
def owed (q : Queue) (w : W) : Option Events := (q.agenda (q.abspri w)).value w

/-- Events that are added to what is owed. -/
def merged (old : Option Events) (revents : Events) : Option Events :=
  some (old.elim revents fun old => old ||| revents)

variable {q : Queue} {w : W} {pri : Int} {revents : Events}

@[simp] theorem place_agenda (q : Queue) (w : W) : (q.agenda (q.abspri w)).place w = q.pending w := if_pos rfl

theorem Ok.owed_eq_none_iff (h : q.Ok) (w : W) : q.owed w = none ↔ q.pending w = 0 := by
  rw [owed, (h.agenda _).value_eq_none_iff, place_agenda]

theorem evFeedEvent_merge (hw : q.pending w ≠ 0) (revents : Events) :
    evFeedEvent q w revents =
      { q with
        pendings := Function.update q.pendings (q.abspri w)
          ((q.pendings (q.abspri w)).modify (q.pending w - 1) fun p => (p.1, p.2 ||| revents)) } := if_pos hw

theorem evFeedEvent_append (hw : q.pending w = 0) (revents : Events) :
    evFeedEvent q w revents =
      { q with
        pending := Function.update q.pending w ((q.pendings (q.abspri w)).length + 1)
        pendingmax := Function.update q.pendingmax (q.abspri w)
          (needsize 16 (q.pendingmax (q.abspri w)) ((q.pendings (q.abspri w)).length + 1))
        pendings := Function.update q.pendings (q.abspri w)
          (q.pendings (q.abspri w) ++ [(some w, revents)]) } := if_neg (not_not_intro hw)

theorem clearPending_some (hw : q.pending w ≠ 0) :
    clearPending q w =
      { q with
        pendings := Function.update q.pendings (q.abspri w)
          ((q.pendings (q.abspri w)).modify (q.pending w - 1) fun p => (none, p.2))
        pending := Function.update q.pending w 0 } := if_pos hw

@[simp] theorem clearPending_none (hw : q.pending w = 0) : clearPending q w = q := if_neg (not_not_intro hw)

@[simp] theorem priority_evFeedEvent : (evFeedEvent q w revents).priority = q.priority := by
  by_cases hw : q.pending w = 0
  · rw [evFeedEvent_append hw]
  · rw [evFeedEvent_merge hw]

@[simp] theorem rfeeds_evFeedEvent : (evFeedEvent q w revents).rfeeds = q.rfeeds := by
  by_cases hw : q.pending w = 0
  · rw [evFeedEvent_append hw]
  · rw [evFeedEvent_merge hw]

@[simp] theorem priority_clearPending : (clearPending q w).priority = q.priority := by
  by_cases hw : q.pending w = 0
  · rw [clearPending_none hw]
  · rw [clearPending_some hw]

@[simp] theorem rfeeds_clearPending : (clearPending q w).rfeeds = q.rfeeds := by
  by_cases hw : q.pending w = 0
  · rw [clearPending_none hw]
  · rw [clearPending_some hw]

theorem abspri_congr {q' : Queue} (h : q'.priority = q.priority) (w : W) : q'.abspri w = q.abspri w := by
  rw [abspri, abspri, h]

@[simp] theorem abspri_evFeedEvent (w' : W) : (evFeedEvent q w revents).abspri w' = q.abspri w' :=
  abspri_congr priority_evFeedEvent w'

@[simp] theorem abspri_clearPending (w' : W) : (clearPending q w).abspri w' = q.abspri w' :=
  abspri_congr priority_clearPending w'

/-- A new place for a watcher is one in the array of its priority. -/
theorem place_update_self (q : Queue) (w : W) (n : Nat) :
    (fun w' => if q.abspri w' = q.abspri w then Function.update q.pending w n w' else 0) =
      Function.update (q.agenda (q.abspri w)).place w n := by
  funext w'
  by_cases hw : w' = w
  · subst hw
    simp
  · simp [agenda, hw]

theorem place_update_other (n : Nat) (hpri : pri ≠ q.abspri w) :
    (fun w' => if q.abspri w' = pri then Function.update q.pending w n w' else 0) = (q.agenda pri).place := by
  funext w'
  by_cases hw : w' = w
  · subst hw
    simp [agenda, hpri.symm]
  · simp [agenda, hw]

/-- `ev_feed_event`, in the arrays. -/
theorem agenda_evFeedEvent (q : Queue) (w : W) (revents : Events) (pri : Int) :
    (evFeedEvent q w revents).agenda pri =
      if pri = q.abspri w then (q.agenda pri).feed (fun old new => old ||| new) w revents else q.agenda pri := by
  by_cases hpri : pri = q.abspri w
  · subst hpri
    rw [if_pos rfl]
    by_cases hw : q.pending w = 0
    · rw [evFeedEvent_append hw, Agenda.feed_append (by rwa [place_agenda]), ← place_update_self]
      exact congrArg₂ Agenda.mk (Function.update_self _ _ _) rfl
    · rw [evFeedEvent_merge hw, Agenda.feed_merge (by rwa [place_agenda]), place_agenda]
      exact congrArg₂ Agenda.mk (Function.update_self _ _ _) rfl
  · rw [if_neg hpri]
    by_cases hw : q.pending w = 0
    · rw [evFeedEvent_append hw]
      exact congrArg₂ Agenda.mk (Function.update_of_ne hpri _ _) (place_update_other _ hpri)
    · rw [evFeedEvent_merge hw]
      exact congrArg₂ Agenda.mk (Function.update_of_ne hpri _ _) rfl

/-- `clear_pending`, in the arrays. -/
theorem agenda_clearPending (q : Queue) (w : W) (pri : Int) :
    (clearPending q w).agenda pri = if pri = q.abspri w then (q.agenda pri).cancel w else q.agenda pri := by
  by_cases hw : q.pending w = 0
  · rw [clearPending_none hw]
    split
    · subst ‹pri = _›
      rw [Agenda.cancel_none (by rwa [place_agenda])]
    · rfl
  · rw [clearPending_some hw]
    by_cases hpri : pri = q.abspri w
    · subst hpri
      rw [if_pos rfl, Agenda.cancel_place (by rwa [place_agenda]), ← place_update_self, place_agenda]
      exact congrArg₂ Agenda.mk (Function.update_self _ _ _) rfl
    · rw [if_neg hpri]
      exact congrArg₂ Agenda.mk (Function.update_of_ne hpri _ _) (place_update_other _ hpri)

/-! ## What the calls do -/

theorem Ok.feed (h : q.Ok) (hw : q.Valid w) (revents : Events) : (evFeedEvent q w revents).Ok where
  agenda pri := by
    rw [agenda_evFeedEvent]
    split
    · exact (h.agenda pri).feed _ _ _
    · exact h.agenda pri
  valid w' hw' := by
    rw [Valid, abspri_evFeedEvent]
    by_cases hww : w' = w
    · exact hww ▸ hw
    · refine h.valid w' fun hzero => hw' ?_
      by_cases hpending : q.pending w = 0
      · rw [evFeedEvent_append hpending]
        exact (Function.update_of_ne hww _ _).trans hzero
      · rw [evFeedEvent_merge hpending]
        exact hzero
  room pri := by
    have hroom := h.room pri
    by_cases hpending : q.pending w = 0
    · rw [evFeedEvent_append hpending]
      by_cases hpri : pri = q.abspri w
      · subst hpri
        simpa using
          le_needsize (show 0 < 16 by simp) (q.pendingmax (q.abspri w)) ((q.pendings (q.abspri w)).length + 1)
      · simpa [hpri] using hroom
    · rw [evFeedEvent_merge hpending]
      by_cases hpri : pri = q.abspri w
      · subst hpri
        simpa using hroom
      · simpa [hpri] using hroom

/-- **`ev_feed_event`** adds the events to what is owed. -/
theorem Ok.owed_feed (h : q.Ok) (w : W) (revents : Events) :
    (evFeedEvent q w revents).owed = Function.update q.owed w (merged (q.owed w) revents) := by
  funext w'
  rw [owed, agenda_evFeedEvent, abspri_evFeedEvent]
  by_cases hww : w' = w
  · subst hww
    rw [if_pos rfl, Agenda.value_feed (h.agenda _), Function.update_self, Function.update_self]
    rfl
  · rw [Function.update_of_ne hww]
    split
    · rw [Agenda.value_feed (h.agenda _), Function.update_of_ne hww]
      rfl
    · rfl

theorem Ok.clear (h : q.Ok) (w : W) : (clearPending q w).Ok where
  agenda pri := by
    rw [agenda_clearPending]
    split
    · exact (h.agenda pri).cancel _
    · exact h.agenda pri
  valid w' hw' := by
    rw [Valid, abspri_clearPending]
    refine h.valid w' fun hzero => hw' ?_
    by_cases hpending : q.pending w = 0
    · rw [clearPending_none hpending, hzero]
    · rw [clearPending_some hpending]
      by_cases hww : w' = w
      · exact hww ▸ Function.update_self _ _ _
      · exact (Function.update_of_ne hww _ _).trans hzero
  room pri := by
    have hroom := h.room pri
    by_cases hpending : q.pending w = 0
    · rwa [clearPending_none hpending]
    · rw [clearPending_some hpending]
      by_cases hpri : pri = q.abspri w
      · subst hpri
        simpa using hroom
      · simpa [hpri] using hroom

/-- **`clear_pending`**: nothing is owed any more. -/
theorem Ok.owed_clear (h : q.Ok) (w : W) : (clearPending q w).owed = Function.update q.owed w none := by
  funext w'
  rw [owed, agenda_clearPending, abspri_clearPending]
  by_cases hww : w' = w
  · subst hww
    rw [if_pos rfl, Agenda.value_cancel (h.agenda _), Function.update_self, Function.update_self]
  · rw [Function.update_of_ne hww]
    split
    · rw [Agenda.value_cancel (h.agenda _), Function.update_of_ne hww]
      rfl
    · rfl

/-- **`ev_clear_pending`** gives what was owed. -/
theorem Ok.evClearPending_eq (h : q.Ok) (w : W) :
    evClearPending q w = ((q.owed w).getD 0, clearPending q w) := by
  by_cases hw : q.pending w = 0
  · have hnone := (h.owed_eq_none_iff w).mpr hw
    rw [evClearPending, if_neg (not_not_intro hw), hnone, clearPending_none hw, Option.getD_none]
  · have hplace : (q.agenda (q.abspri w)).place w ≠ 0 := by rwa [place_agenda]
    rw [evClearPending, if_pos hw, owed, Agenda.value, if_neg hplace, place_agenda]
    rfl

section Invoke

variable {o : Option W} {events : Events}

theorem invokeTurn_eq_some {c : Option W × Events} {q' : Queue} :
    invokeTurn q pri = some (c, q') ↔ (q.pendings pri).getLast? = some c ∧ q' = takeLast q pri c.1 := by
  rw [invokeTurn, Option.map_eq_some_iff]
  constructor
  · rintro ⟨p, hlast, heq⟩
    obtain ⟨rfl, rfl⟩ := Prod.mk.inj heq
    exact ⟨hlast, rfl⟩
  · rintro ⟨hlast, rfl⟩
    exact ⟨c, hlast, rfl⟩

theorem pending_takeLast (w : W) : (takeLast q pri o).pending w = if o = some w then 0 else q.pending w := by
  cases o with
  | none => simp [takeLast]
  | some w' =>
    by_cases hw : w = w'
    · subst hw
      simp [takeLast]
    · simp [takeLast, hw, Ne.symm hw]

/-- The entries of an array are for watchers of its priority. -/
theorem Ok.abspri_last (h : q.Ok) (hlast : (q.pendings pri).getLast? = some (o, events)) {w : W}
    (ho : o = some w) : q.abspri w = pri := by
  subst ho
  have hplace := (h.agenda pri).place_last hlast
  by_contra hne
  have hzero : (q.agenda pri).place w = 0 := if_neg hne
  have hlen : (q.pendings pri).length = 0 := hplace.symm.trans hzero
  rw [List.length_eq_zero_iff.mp hlen] at hlast
  exact absurd hlast (by simp)

theorem Ok.agenda_takeLast (h : q.Ok) (hlast : (q.pendings pri).getLast? = some (o, events)) (p : Int) :
    (takeLast q pri o).agenda p = if p = pri then (q.agenda pri).pop o else q.agenda p := by
  have hplace : ((takeLast q pri o).agenda p).place =
      fun w => if o = some w then 0 else (q.agenda p).place w := by
    funext w
    change (if q.abspri w = p then (takeLast q pri o).pending w else 0) = _
    rw [pending_takeLast]
    by_cases ho : o = some w
    · rw [if_pos ho, if_pos ho, ite_self]
    · rw [if_neg ho, if_neg ho]
      rfl
  by_cases hp : p = pri
  · subst hp
    rw [if_pos rfl]
    refine congrArg₂ Agenda.mk (Function.update_self _ _ _) (hplace.trans (funext fun w => ?_))
    exact (Agenda.place_pop (q.agenda p) o w).symm
  · rw [if_neg hp]
    refine congrArg₂ Agenda.mk (Function.update_of_ne hp _ _) (hplace.trans (funext fun w => ?_))
    by_cases ho : o = some w
    · have hno : q.abspri w ≠ p := by
        intro heq
        exact hp (heq.symm.trans (h.abspri_last hlast ho))
      rw [if_pos ho]
      exact (if_neg hno).symm
    · exact if_neg ho

theorem Ok.takeLast (h : q.Ok) (hlast : (q.pendings pri).getLast? = some (o, events)) :
    (takeLast q pri o).Ok where
  agenda p := by
    rw [h.agenda_takeLast hlast]
    split
    · exact (h.agenda pri).pop hlast
    · exact h.agenda p
  valid w hw := by
    rw [pending_takeLast] at hw
    refine h.valid w fun hzero => hw ?_
    rw [hzero, ite_self]
  room p := by
    have hroom := h.room p
    by_cases hp : p = pri
    · subst hp
      simp only [Ev.takeLast, Function.update_self, List.length_dropLast]
      omega
    · simpa only [Ev.takeLast, Function.update_of_ne hp] using hroom

/-- **A watcher is called with what is owed to it**, and nothing is owed to it then. -/
theorem Ok.invoke (h : q.Ok) {q' : Queue} (hturn : invokeTurn q pri = some ((o, events), q')) :
    q'.Ok ∧ (∀ w, o = some w → q.abspri w = pri ∧ q.owed w = some events) ∧
      q'.owed = fun w => if o = some w then none else q.owed w := by
  obtain ⟨hlast, rfl⟩ := invokeTurn_eq_some.mp hturn
  obtain ⟨htaken, hrest⟩ := Agenda.value_pop (h.agenda pri) hlast
  refine ⟨h.takeLast hlast, fun w ho => ?_, funext fun w => ?_⟩
  · have hpri := h.abspri_last hlast ho
    refine ⟨hpri, ?_⟩
    rw [owed, hpri]
    exact htaken w ho
  · change ((Ev.takeLast q pri o).agenda (q.abspri w)).value w = _
    rw [h.agenda_takeLast hlast]
    by_cases hp : q.abspri w = pri
    · rw [if_pos hp, hrest, owed, hp]
    · rw [if_neg hp, if_neg fun ho => hp (h.abspri_last hlast ho)]
      rfl

end Invoke

/-! ## Many events -/

section Many

variable {ws : List W}

theorem pending_evFeedEvent_of_ne {w' : W} (hw : w' ≠ w) : (evFeedEvent q w revents).pending w' = q.pending w' := by
  by_cases hpending : q.pending w = 0
  · rw [evFeedEvent_append hpending]
    exact Function.update_of_ne hw _ _
  · rw [evFeedEvent_merge hpending]

@[simp] theorem priority_queueEvents : (queueEvents q ws revents).priority = q.priority := by
  induction ws generalizing q with
  | nil => rfl
  | cons w ws ih => exact ih.trans priority_evFeedEvent

@[simp] theorem rfeeds_queueEvents : (queueEvents q ws revents).rfeeds = q.rfeeds := by
  induction ws generalizing q with
  | nil => rfl
  | cons w ws ih => exact ih.trans rfeeds_evFeedEvent

theorem Ok.queueEvents (h : q.Ok) (hws : ∀ w ∈ ws, q.Valid w) (revents : Events) :
    (queueEvents q ws revents).Ok := by
  induction ws generalizing q with
  | nil => exact h
  | cons w ws ih =>
    refine ih (h.feed (hws w List.mem_cons_self) revents) fun w' hw' => ?_
    rw [Valid, abspri_evFeedEvent]
    exact hws w' (List.mem_cons_of_mem _ hw')

/-- **Each of the watchers** has the events added to what is owed to it. -/
theorem Ok.owed_queueEvents (h : q.Ok) (hws : ∀ w ∈ ws, q.Valid w) (hnodup : ws.Nodup) (revents : Events) :
    (Ev.queueEvents q ws revents).owed = fun w => if w ∈ ws then merged (q.owed w) revents else q.owed w := by
  induction ws generalizing q with
  | nil => simp [Ev.queueEvents]
  | cons w ws ih =>
    obtain ⟨hw, hnodup⟩ := List.nodup_cons.mp hnodup
    have hrest : ∀ w' ∈ ws, (evFeedEvent q w revents).Valid w' := by
      intro w' hw'
      rw [Valid, abspri_evFeedEvent]
      exact hws w' (List.mem_cons_of_mem _ hw')
    refine (ih (h.feed (hws w List.mem_cons_self) revents) hrest hnodup).trans (funext fun w' => ?_)
    rw [h.owed_feed]
    by_cases hww : w' = w
    · subst hww
      simp [hw]
    · simp [hww]

theorem owners_evFeedEvent (pri : Int) :
    ((evFeedEvent q w revents).pendings pri).map Prod.fst =
      (q.pendings pri).map Prod.fst ++ if q.pending w = 0 ∧ q.abspri w = pri then [some w] else [] := by
  by_cases hpending : q.pending w = 0
  · rw [evFeedEvent_append hpending]
    by_cases hpri : q.abspri w = pri
    · subst hpri
      simp [hpending]
    · simp [hpri, Ne.symm hpri]
  · rw [evFeedEvent_merge hpending]
    by_cases hpri : q.abspri w = pri
    · subst hpri
      have hmap := Agenda.map_fst_modify (f := fun p => (p.1, p.2 ||| revents)) (fun _ => rfl)
        (q.pendings (q.abspri w)) (q.pending w - 1)
      simpa [hpending] using hmap
    · simp [hpending, Ne.symm hpri]

/-- **Those that are not yet pending come behind what is there**, in their order. -/
theorem owners_queueEvents (hnodup : ws.Nodup) (revents : Events) (pri : Int) :
    ((Ev.queueEvents q ws revents).pendings pri).map Prod.fst =
      (q.pendings pri).map Prod.fst ++
        (ws.filter fun w => q.pending w = 0 ∧ q.abspri w = pri).map some := by
  induction ws generalizing q with
  | nil => simp [Ev.queueEvents]
  | cons w ws ih =>
    obtain ⟨hw, hnodup⟩ := List.nodup_cons.mp hnodup
    have hsame : (ws.filter fun w' => (evFeedEvent q w revents).pending w' = 0 ∧
        (evFeedEvent q w revents).abspri w' = pri) = ws.filter fun w' => q.pending w' = 0 ∧ q.abspri w' = pri := by
      refine List.filter_congr fun w' hw' => ?_
      have hne : w' ≠ w := by
        rintro rfl
        exact hw hw'
      rw [pending_evFeedEvent_of_ne hne, abspri_evFeedEvent]
    refine (ih hnodup).trans ?_
    rw [owners_evFeedEvent, hsame, List.append_assoc]
    by_cases hnew : q.pending w = 0 ∧ q.abspri w = pri
    · simp [hnew]
    · simp [hnew]

end Many

/-- **The queue comes from `q`**, with this owed now. -/
structure To (q q' : Queue) (owed : W → Option Events) : Prop where
  ok : q'.Ok
  priority : q'.priority = q.priority
  rfeeds : q'.rfeeds = q.rfeeds
  owed : q'.owed = owed

theorem Ok.to_feed (h : q.Ok) (hw : q.Valid w) (revents : Events) :
    q.To (evFeedEvent q w revents) (Function.update q.owed w (merged (q.owed w) revents)) :=
  ⟨h.feed hw revents, priority_evFeedEvent, rfeeds_evFeedEvent, h.owed_feed w revents⟩

theorem Ok.to_clear (h : q.Ok) (w : W) : q.To (clearPending q w) (Function.update q.owed w none) :=
  ⟨h.clear w, priority_clearPending, rfeeds_clearPending, h.owed_clear w⟩

theorem To.valid {q' : Queue} {owed : W → Option Events} (h : q.To q' owed) (w : W) : q'.Valid w ↔ q.Valid w := by
  rw [Valid, Valid, abspri_congr h.priority]

theorem To.trans {q1 q2 : Queue} {owed1 owed2 : W → Option Events} (h1 : q.To q1 owed1) (h2 : q1.To q2 owed2) :
    q.To q2 owed2 :=
  ⟨h2.ok, h2.priority.trans h1.priority, h2.rfeeds.trans h1.rfeeds, h2.owed⟩

/-! ## Priorities -/

/-- A watcher that is in no array gets another priority. -/
def ranked (q : Queue) (w : W) (pri : Int) : Queue := { q with priority := Function.update q.priority w pri }

theorem abspri_ranked_of_ne {w' : W} (h : w' ≠ w) (pri : Int) : (q.ranked w pri).abspri w' = q.abspri w' :=
  congrArg (· - EV_MINPRI) (Function.update_of_ne h _ _)

theorem agenda_ranked (hw : q.pending w = 0) (pri p : Int) : (q.ranked w pri).agenda p = q.agenda p := by
  refine congrArg₂ Agenda.mk rfl (funext fun w' => ?_)
  by_cases hww : w' = w
  · subst hww
    simp only [ranked, hw, ite_self]
  · rw [abspri_ranked_of_ne hww]
    rfl

theorem Ok.ranked (h : q.Ok) (hw : q.pending w = 0) (pri : Int) : (q.ranked w pri).Ok where
  agenda p := agenda_ranked hw pri p ▸ h.agenda p
  valid w' hw' := by
    have hww : w' ≠ w := by
      rintro rfl
      exact hw' hw
    rw [Valid, abspri_ranked_of_ne hww]
    exact h.valid w' hw'
  room := h.room

theorem Ok.owed_ranked (h : q.Ok) (hw : q.pending w = 0) (pri : Int) : (q.ranked w pri).owed = q.owed := by
  funext w'
  by_cases hww : w' = w
  · subst hww
    rw [(h.owed_eq_none_iff w').mpr hw, (h.ranked hw pri).owed_eq_none_iff]
    exact hw
  · rw [owed, owed, abspri_ranked_of_ne hww, agenda_ranked hw]

theorem priAdjust_eq (q : Queue) (w : W) :
    priAdjust q w =
      { q with priority := Function.update q.priority w (min EV_MAXPRI (max EV_MINPRI (q.priority w))) } := by
  have hpri : (if (if q.priority w < EV_MINPRI then EV_MINPRI else q.priority w) > EV_MAXPRI then EV_MAXPRI
      else if q.priority w < EV_MINPRI then EV_MINPRI else q.priority w) =
      min EV_MAXPRI (max EV_MINPRI (q.priority w)) := by
    simp only [EV_MINPRI, EV_MAXPRI]
    omega
  rw [← hpri, priAdjust]

@[simp] theorem pending_priAdjust : (priAdjust q w).pending = q.pending := rfl

@[simp] theorem rfeeds_priAdjust : (priAdjust q w).rfeeds = q.rfeeds := rfl

/-- `pri_adjust` gives a watcher a priority that there is an array for. -/
theorem valid_priAdjust (q : Queue) (w : W) : (priAdjust q w).Valid w := by
  rw [priAdjust_eq, Valid, abspri]
  simp only [Function.update_self, EV_MINPRI, EV_MAXPRI, NUMPRI]
  omega

/-- It does nothing to one that has such a priority. -/
theorem priAdjust_of_valid (h : q.Valid w) : priAdjust q w = q := by
  have hsame : min EV_MAXPRI (max EV_MINPRI (q.priority w)) = q.priority w := by
    simp only [Valid, abspri, NUMPRI, EV_MINPRI, EV_MAXPRI] at h ⊢
    omega
  rw [priAdjust_eq, hsame, Function.update_eq_self]

theorem abspri_priAdjust_of_ne {w' : W} (h : w' ≠ w) : (priAdjust q w).abspri w' = q.abspri w' := by
  rw [priAdjust_eq]
  exact abspri_ranked_of_ne h _

/-- No array is touched: either the watcher is in none, or it is not changed. -/
theorem Ok.priAdjust (h : q.Ok) (w : W) : (priAdjust q w).Ok := by
  by_cases hw : q.pending w = 0
  · rw [priAdjust_eq]
    exact h.ranked hw _
  · rwa [priAdjust_of_valid (h.valid w hw)]

theorem Ok.owed_priAdjust (h : q.Ok) (w : W) : (Ev.priAdjust q w).owed = q.owed := by
  by_cases hw : q.pending w = 0
  · rw [priAdjust_eq]
    exact h.owed_ranked hw _
  · rw [priAdjust_of_valid (h.valid w hw)]

/-- **The assertions of `verify_watcher` hold.** -/
theorem Ok.verifyWatcher_eq (h : q.Ok) (hw : q.Valid w) : verifyWatcher q w = true := by
  rw [verifyWatcher, Bool.and_eq_true, Bool.or_eq_true]
  refine ⟨decide_eq_true hw, ?_⟩
  by_cases hpending : q.pending w = 0
  · exact Or.inl (beq_iff_eq.mpr hpending)
  · obtain ⟨v, hv⟩ := (h.agenda (q.abspri w)).entry (by rwa [place_agenda])
    rw [place_agenda] at hv
    refine Or.inr (beq_iff_eq.mpr ?_)
    exact congrArg (Option.map Prod.fst) hv

/-! ## Calling the watchers -/

/-- What a call leads to: `pendingcb` does nothing, and the callbacks of the watchers what `cb` says. -/
def Called (cb : W → Events → Queue → Queue → Prop) : Option W × Events → Queue → Queue → Prop
  | (some w, events), q, q' => cb w events q q'
  | (none, _), q, q' => q' = q

/-- **`ev_invoke_pending`**, for the priorities below `pri`: the calls, and what is left. -/
inductive Invokes (cb : W → Events → Queue → Queue → Prop) :
    Nat → Queue → List (Option W × Events) → Queue → Prop
  | done (q : Queue) : Invokes cb 0 q [] q
  | lower {pri : Nat} {q q' : Queue} {calls : List (Option W × Events)} :
      invokeTurn q pri = none → Invokes cb pri q calls q' → Invokes cb (pri + 1) q calls q'
  | call {pri : Nat} {q q1 q2 q' : Queue} {c : Option W × Events} {calls : List (Option W × Events)} :
      invokeTurn q pri = some (c, q1) → Called cb c q1 q2 → Invokes cb (pri + 1) q2 calls q' →
        Invokes cb (pri + 1) q (c :: calls) q'

theorem invokeTurn_eq_none : invokeTurn q pri = none ↔ q.pendings pri = [] := by
  rw [invokeTurn, Option.map_eq_none_iff, List.getLast?_eq_none_iff]

/-- Nothing is pending. -/
def empty : Queue := ⟨fun _ => 0, fun _ => 0, fun _ => [], fun _ => 0, [], 0⟩

theorem ok_empty : empty.Ok := by
  refine ⟨fun pri => ?_, fun w hw => absurd rfl hw, fun pri => Nat.le_refl 0⟩
  rw [show empty.agenda pri = ⟨[], fun _ => 0⟩ from congrArg (Agenda.mk []) (funext fun w => ite_self 0)]
  exact Agenda.ok_empty

/-- **The calls of `ev_invoke_pending`**, if the callbacks leave the queue alone: those of the highest priority first,
    and of a priority from the end of its array. -/
theorem invokes_calls {n : Nat} {calls : List (Option W × Events)} (h : Invokes (fun _ _ q q' => q' = q) n q calls q') :
    calls = (List.range n).reverse.flatMap fun pri : Nat => (q.pendings pri).reverse := by
  induction h with
  | done q => rfl
  | @lower n q q' calls hturn _ ih =>
    rw [List.range_succ, List.reverse_append, List.reverse_singleton, List.singleton_append, List.flatMap_cons,
      invokeTurn_eq_none.mp hturn, List.reverse_nil, List.nil_append, ih]
  | @call n q q1 q2 q' c calls hturn hcall _ ih =>
    obtain ⟨hlast, rfl⟩ := invokeTurn_eq_some.mp hturn
    have hsame : q2 = takeLast q n c.1 := by
      obtain ⟨o, events⟩ := c
      cases o with
      | none => exact hcall
      | some w => exact hcall
    obtain ⟨l, hl⟩ := List.getLast?_eq_some_iff.mp hlast
    have hdrop : q2.pendings n = l := by
      rw [hsame]
      refine (Function.update_self _ _ _).trans ?_
      rw [hl, List.dropLast_concat]
    have hother : ∀ pri ∈ (List.range n).reverse, (q2.pendings pri).reverse = (q.pendings pri).reverse := by
      intro pri hpri
      have hne : (pri : Int) ≠ n := by
        have := List.mem_range.mp (List.mem_reverse.mp hpri)
        omega
      rw [hsame]
      exact congrArg List.reverse (Function.update_of_ne hne _ _)
    rw [ih, List.range_succ, List.reverse_append, List.reverse_singleton, List.singleton_append, List.flatMap_cons,
      List.flatMap_cons, hdrop, hl, List.reverse_append, List.reverse_singleton, List.singleton_append,
      List.cons_append, List.flatMap_congr hother]

end Queue

end CodeSLoop.Ev
