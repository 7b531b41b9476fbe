import CodeSLoop.Common.EvView
import Mathlib.Algebra.Order.Monoid.Unbundled.Basic

/-!
# An event loop in use (`common/libev/ev.c`)

A program and the kernel do with a loop what they may do, in any order; `step` is the code that answers. As long as
the program keeps to its contract, no assertion of the code fails, `ev_loop_verify` finds nothing, and the loop
does what the machine of `EvView` does (`follows`): that one says which watchers are running and what they are
called with, and all that is here about arrays, places and the heap is that it does not get in the way.

The steps of `ev_loop` are calls among the others, so that a callback may do anything between them.
-/

namespace CodeSLoop.Ev

universe v

/-- A loop; `stale` says which watchers must be set again, and `refs` how often `ev_ref` was called more than
    `ev_unref`. -/
structure World (T : Type v) where
  loop : Loop T
  stale : Nat → Bool
  refs : Int

namespace World

section Code

variable {T : Type v} [LinearOrder T] [Zero T] [Add T] [Sub T]

/-- **The code that answers a call.** -/
def step (s : World T) : Call T → Option (Answer × World T)
  | .setPriority w pri =>
    some (.done, { s with loop.queue.priority := Function.update s.loop.queue.priority w pri })
  | .ioSet a fd events =>
    some (.done, { s with
      loop.fds := evIoSet s.loop.fds a fd events
      stale := Function.update s.stale a false })
  | .ioStart a => (evIoStart s.loop a).map fun l => (.done, { s with loop := l })
  | .ioStop a => (evIoStop s.loop a).map fun l => (.done, { s with loop := l })
  | .timerSet a at_ repeat_ =>
    some (.done, { s with
      loop.timers.at_ := Function.update s.loop.timers.at_ a at_
      loop.timers.repeat_ := Function.update s.loop.timers.repeat_ a repeat_ })
  | .timerRepeat a repeat_ =>
    some (.done, { s with loop.timers.repeat_ := Function.update s.loop.timers.repeat_ a repeat_ })
  | .timerStart a => (evTimerStart s.loop a).map fun l => (.done, { s with loop := l })
  | .timerStop a => (evTimerStop s.loop a).map fun l => (.done, { s with loop := l })
  | .timerAgain a => (evTimerAgain s.loop a).map fun l => (.done, { s with loop := l })
  | .listStart k a => some (.done, { s with loop := listStart k s.loop a })
  | .listStop k a => (listStop k s.loop a).map fun l => (.done, { s with loop := l })
  | .feed w revents => some (.done, { s with loop.queue := evFeedEvent s.loop.queue w revents })
  | .feedFd fd revents =>
    some (.done, { s with loop.queue := evFeedFdEvent s.loop.fds s.loop.queue fd revents })
  | .clear w =>
    some (.events (evClearPending s.loop.queue w).1,
      { s with loop.queue := (evClearPending s.loop.queue w).2 })
  | .ref => some (.done, { s with loop := evRef s.loop, refs := s.refs + 1 })
  | .unref => some (.done, { s with loop := evUnref s.loop, refs := s.refs - 1 })
  | .closed fd =>
    some (.done, { s with
      loop.fds := s.loop.fds.closed fd
      stale := fun a => s.stale a || decide (s.loop.fds.fd a = fd) })
  | .fork => some (.done, { s with loop.fds := s.loop.fds.forked })
  | .fdReify => some (.done, { s with loop.fds := fdReify s.loop.fds })
  | .fdEvent fd revents =>
    some (.done, { s with loop.queue := fdEvent s.loop.fds s.loop.queue fd revents })
  | .fdKill fd => (fdKill s.loop fd).map fun l => (.done, { s with loop := l })
  | .now t => some (.done, { s with loop.timers.mnNow := t })
  | .timersReify => (timersReify s.loop).map fun l => (.done, { s with loop := l })
  | .reschedule adjust => some (.done, { s with loop.timers := timersReschedule s.loop.timers adjust })
  | .queueListed k => some (.done, { s with loop := queueListed k s.loop })
  | .invoke pri =>
    match invokeTurn s.loop.queue pri with
    | none => some (.done, s)
    | some (c, q) => some (.called c.1 c.2, { s with loop.queue := q })

/-- The assertions of `ev_loop_verify`, all but those about the heap of `ev_periodic` and the arrays of `ev_idle`:
    a loop has no such watchers here. -/
def evLoopVerify (l : Loop T) : Bool :=
  decide (-1 ≤ l.activecnt) &&
    decide (l.fds.fdchanges.length ≤ l.fds.fdchangemax) &&
    l.fds.fdchanges.all (fun fd => decide (0 ≤ fd)) &&
    ((List.range l.fds.anfdmax).all fun i =>
      (l.fds.anfds i).head.all fun a =>
        verifyWatcher l.queue (.io a) && l.fds.active a == 1 && l.fds.fd a == i) &&
    decide (l.timers.timercnt ≤ l.timers.timermax) && verifyHeap l &&
    ((List.range NUMPRI.toNat).all fun i => decide ((l.queue.pendings i).length ≤ l.queue.pendingmax i)) &&
    [Listed.fork, .async, .prepare, .check].all fun k =>
      decide ((l.lists.arrays k).length ≤ l.lists.arraymax k) && arrayVerify k l

end Code

/-! ## What is true of a loop -/

/-- What a program sees. -/
def view {T : Type v} (s : World T) : View T where
  running w := s.loop.active w ≠ 0
  owed := s.loop.queue.owed
  priority := s.loop.queue.priority
  at_ := s.loop.timers.at_
  repeat_ := s.loop.timers.repeat_
  now := s.loop.timers.mnNow
  fd := s.loop.fds.fd
  events a := mask (s.loop.fds.events a)
  changed fd := (s.loop.fds.anfds fd).reify ≠ 0
  stale := s.stale

section Ok

variable {T : Type v} [LinearOrder T] [Zero T]

/-- **What is true of a loop between two calls.** -/
structure Ok (s : World T) : Prop where
  queue : s.loop.queue.Ok
  rfeeds : s.loop.queue.rfeeds = []
  timers : s.loop.timers.Ok
  fds : s.loop.fds.Ok
  synced : s.loop.fds.Synced s.stale
  lists : s.loop.lists.Ok
  valid : ∀ w, s.loop.active w ≠ 0 → s.loop.queue.Valid w
  count : ∃ ws : Finset W, (∀ w, w ∈ ws ↔ s.loop.active w ≠ 0) ∧ s.loop.activecnt = ws.card + s.refs

variable {s s' : World T} {w : W}

/-- Only the queue is another one. -/
theorem Ok.of_queue (h : s.Ok) {q : Queue} {owed : W → Option Events} (hq : s.loop.queue.To q owed) :
    Ok { s with loop.queue := q } :=
  ⟨hq.ok, hq.rfeeds.trans h.rfeeds, h.timers, h.fds, h.synced, h.lists, fun w hw => (hq.valid w).mpr (h.valid w hw),
    h.count⟩

/-- **A watcher was started.** -/
theorem Ok.of_start (h : s.Ok) (hw : s.loop.active w = 0) (hqueue : s'.loop.queue = priAdjust s.loop.queue w)
    (htimers : s'.loop.timers.Ok) (hfds : s'.loop.fds.Ok) (hsynced : s'.loop.fds.Synced s'.stale)
    (hlists : s'.loop.lists.Ok) (hactive : ∀ w', s'.loop.active w' ≠ 0 ↔ w' = w ∨ s.loop.active w' ≠ 0)
    (hcnt : s'.loop.activecnt = s.loop.activecnt + 1) (hrefs : s'.refs = s.refs) : s'.Ok := by
  refine ⟨hqueue ▸ h.queue.priAdjust w, hqueue ▸ h.rfeeds, htimers, hfds, hsynced, hlists, fun w' hw' => ?_, ?_⟩
  · rw [hqueue]
    by_cases hww : w' = w
    · exact hww ▸ Queue.valid_priAdjust s.loop.queue w
    · rw [Queue.Valid, Queue.abspri_priAdjust_of_ne hww]
      exact h.valid w' (((hactive w').mp hw').resolve_left hww)
  · obtain ⟨ws, hws, hcount⟩ := h.count
    have hnot : w ∉ ws := fun hin => (hws w).mp hin hw
    refine ⟨insert w ws, fun w' => ?_, ?_⟩
    · rw [Finset.mem_insert, hws, hactive]
    · rw [hcnt, hcount, hrefs, Finset.card_insert_of_notMem hnot]
      omega

/-- **Watchers were stopped**, and what is owed is what the queue says. -/
theorem Ok.of_stops (h : s.Ok) (gone : List W) (hnodup : gone.Nodup) (hgone : ∀ w ∈ gone, s.loop.active w ≠ 0)
    {owed : W → Option Events} (hqueue : s.loop.queue.To s'.loop.queue owed) (htimers : s'.loop.timers.Ok)
    (hfds : s'.loop.fds.Ok) (hsynced : s'.loop.fds.Synced s'.stale) (hlists : s'.loop.lists.Ok)
    (hactive : ∀ w, s'.loop.active w ≠ 0 ↔ w ∉ gone ∧ s.loop.active w ≠ 0)
    (hcnt : s'.loop.activecnt = s.loop.activecnt - gone.length) (hrefs : s'.refs = s.refs) : s'.Ok := by
  refine ⟨hqueue.ok, hqueue.rfeeds.trans h.rfeeds, htimers, hfds, hsynced, hlists, fun w hw => ?_, ?_⟩
  · exact (hqueue.valid w).mpr (h.valid w ((hactive w).mp hw).2)
  · obtain ⟨ws, hws, hcount⟩ := h.count
    have hsub : gone.toFinset ⊆ ws := by
      intro w hw
      exact (hws w).mpr (hgone w (List.mem_toFinset.mp hw))
    refine ⟨ws \ gone.toFinset, fun w => ?_, ?_⟩
    · rw [Finset.mem_sdiff, hws, hactive, List.mem_toFinset]
      exact and_comm
    · have hle := Finset.card_le_card hsub
      have hcard := Finset.card_sdiff_of_subset hsub
      rw [List.toFinset_card_of_nodup hnodup] at hle hcard
      rw [hcnt, hcount, hrefs, hcard]
      omega

/-- **A watcher was stopped.** -/
theorem Ok.of_stop (h : s.Ok) (hw : s.loop.active w ≠ 0) (hqueue : s'.loop.queue = clearPending s.loop.queue w)
    (htimers : s'.loop.timers.Ok) (hfds : s'.loop.fds.Ok) (hsynced : s'.loop.fds.Synced s'.stale)
    (hlists : s'.loop.lists.Ok) (hactive : ∀ w', s'.loop.active w' ≠ 0 ↔ w' ≠ w ∧ s.loop.active w' ≠ 0)
    (hcnt : s'.loop.activecnt = s.loop.activecnt - 1) (hrefs : s'.refs = s.refs) : s'.Ok := by
  refine h.of_stops [w] (by simp) (by simpa using hw) (hqueue ▸ h.queue.to_clear w) htimers hfds hsynced hlists
    (fun w' => ?_) hcnt hrefs
  rw [hactive, List.mem_singleton]

/-- The same watchers are running. -/
theorem Ok.of_same (h : s.Ok) {owed : W → Option Events} (hqueue : s.loop.queue.To s'.loop.queue owed)
    (htimers : s'.loop.timers.Ok) (hfds : s'.loop.fds.Ok) (hsynced : s'.loop.fds.Synced s'.stale)
    (hlists : s'.loop.lists.Ok) (hactive : ∀ w, s'.loop.active w ≠ 0 ↔ s.loop.active w ≠ 0)
    (hcnt : s'.loop.activecnt = s.loop.activecnt) (hrefs : s'.refs = s.refs) : s'.Ok := by
  refine h.of_stops [] List.nodup_nil (fun w hw => absurd hw List.not_mem_nil) hqueue htimers hfds hsynced hlists
    (fun w => ?_) (hcnt.trans (Int.sub_zero _).symm) hrefs
  rw [hactive]
  simp

/-- The queue is as it was. -/
theorem Ok.to_self (h : s.Ok) : s.loop.queue.To s.loop.queue s.loop.queue.owed := ⟨h.queue, rfl, rfl, rfl⟩

/-- A watcher that is running has no flag. -/
theorem Ok.events_view (h : s.Ok) {a : Nat} (ha : s.loop.fds.active a ≠ 0) :
    s.view.events a = s.loop.fds.events a := mask_of_plain (h.fds.plain a ha)

/-- What is owed when a descriptor's events are given. -/
theorem Ok.owed_giveFd (h : s.Ok) (fd : Int) (revents : Events) :
    ioOwed s.loop.fds revents (fun a => s.loop.fds.active a ≠ 0 ∧ s.loop.fds.fd a = fd) s.loop.queue.owed =
      (s.view.giveFd fd revents).owed := by
  funext w
  cases w with
  | io a =>
    classical
    by_cases ha : s.loop.fds.active a ≠ 0 ∧ s.loop.fds.fd a = fd
    · have hsame := h.events_view ha.1
      exact if_congr (by rw [hsame]; exact Iff.rfl) (by rw [hsame]; rfl) rfl
    · exact (if_neg fun hboth => ha hboth.1).trans (if_neg fun hboth => ha hboth.1).symm
  | _ => rfl

/-- A timer that is not running gets another timestamp. -/
theorem Ok.withAt (h : s.Ok) {a : Nat} (ha : s.loop.timers.heap.active a = 0) (x : T) :
    Ok { s with loop.timers.at_ := Function.update s.loop.timers.at_ a x } := by
  refine h.of_same h.to_self ⟨h.timers.active, h.timers.placed, fun k hk => ?_, h.timers.ordered, h.timers.repeat_,
    h.timers.room⟩ h.fds h.synced h.lists (fun w => by cases w <;> exact Iff.rfl) rfl rfl
  exact (h.timers.cached k hk).trans (Function.update_of_ne (h.timers.not_member ha hk) _ _).symm

/-- A timer gets another `repeat`. -/
theorem Ok.withRepeat (h : s.Ok) {a : Nat} {x : T} (hx : s.loop.timers.heap.active a ≠ 0 → 0 ≤ x) :
    Ok { s with loop.timers.repeat_ := Function.update s.loop.timers.repeat_ a x } := by
  have hrepeat (b : Nat) (hb : s.loop.timers.heap.active b ≠ 0) :
      0 ≤ Function.update s.loop.timers.repeat_ a x b := by
    by_cases hba : b = a
    · subst hba
      rw [Function.update_self]
      exact hx hb
    · rw [Function.update_of_ne hba]
      exact h.timers.repeat_ b hb
  exact h.of_same h.to_self ⟨h.timers.active, h.timers.placed, h.timers.cached, h.timers.ordered, hrepeat,
    h.timers.room⟩ h.fds h.synced h.lists (fun w => by cases w <;> exact Iff.rfl) rfl rfl

end Ok

/-- What a program sees when only the queue is another one. -/
theorem view_of_queue {T : Type v} {s : World T} {q : Queue} {owed : W → Option Events}
    (hq : s.loop.queue.To q owed) : view { s with loop.queue := q } = { s.view with owed := owed } :=
  View.ext rfl hq.owed hq.priority rfl rfl rfl rfl rfl rfl rfl

/-- A watcher that is not running is stopped. -/
theorem view_stop_idle {T : Type v} {s : World T} {w : W} (h : s.loop.queue.Ok) (hw : s.loop.active w = 0) :
    view { s with loop.queue := clearPending s.loop.queue w } = s.view.stop w := by
  rw [view_of_queue (h.to_clear w)]
  refine View.ext (funext fun w' => propext ⟨fun hrun => ⟨?_, hrun⟩, fun hrun => hrun.2⟩) rfl rfl rfl rfl rfl rfl rfl
    rfl rfl
  rintro rfl
  exact hrun hw

theorem priority_priAdjust (q : Queue) (w : W) :
    (priAdjust q w).priority = Function.update q.priority w (View.clamp (q.priority w)) := by
  rw [Queue.priAdjust_eq]
  rfl

/-- The watchers that are running when a descriptor gets another state. -/
theorem active_fds {T : Type v} (l : Loop T) {f : Fds} {a b : Nat}
    (hf : f.active = Function.update l.fds.active a b) (w : W) :
    Loop.active { l with fds := f } w ≠ 0 ↔ if w = .io a then b ≠ 0 else l.active w ≠ 0 := by
  cases w with
  | io c =>
    by_cases hc : c = a
    · simp [hf, hc]
    · simp [hf, hc]
  | timer c => simp
  | listed k c => simp

/-- The watchers that are running when the timers are other ones. -/
theorem active_timers {T : Type v} [LinearOrder T] [Zero T] (l : Loop T) {t : Timers T} {p : Nat → Prop}
    {at_ : Nat → T} (ht : l.timers.To t p at_) (w : W) :
    Loop.active { l with timers := t } w ≠ 0 ↔
      (∃ a, w = .timer a ∧ p a) ∨ (∀ a, w ≠ .timer a) ∧ l.active w ≠ 0 := by
  cases w with
  | io b => simp
  | timer b => simp [ht.active]
  | listed k b => simp

/-- A watcher that the contract lets a program feed. -/
theorem valid_iff {T : Type v} (s : World T) (w : W) : s.loop.queue.Valid w ↔ s.view.Ranked w := by
  simp only [Queue.Valid, Queue.abspri, NUMPRI, View.Ranked, view]
  omega

theorem max_eq_ite {T : Type v} [LinearOrder T] (x y : T) : max x y = if y < x then x else y := by
  split
  · exact max_eq_left (le_of_lt ‹_›)
  · exact max_eq_right (not_lt.mp ‹_›)

section Follows

variable {T : Type v} [LinearOrder T] [Zero T] [Add T] [Sub T]

/-- **The code does what a program expects**, and leaves the loop in order. -/
def Follows (s : World T) (c : Call T) : Prop :=
  ∃ ans s', s.step c = some (ans, s') ∧ s'.Ok ∧ s.view.Answers c ans ∧ s'.view = s.view.after c ans

variable {s : World T} {a : Nat}

/-! ## Descriptors -/

theorem follows_ioSet (h : s.Ok) {fd : Int} {events : Events} (hc : s.view.Contract (.ioSet a fd events)) :
    s.Follows (.ioSet a fd events) := by
  have ha : s.loop.fds.active a = 0 := not_not.mp hc
  refine ⟨_, _, rfl, ?_, trivial, ?_⟩
  · exact ⟨h.queue, h.rfeeds, h.timers, h.fds.evIoSet ha fd events, h.synced.evIoSet ha fd events, h.lists,
      h.valid, h.count⟩
  · refine View.ext rfl rfl rfl rfl rfl rfl rfl (funext fun b => ?_) rfl rfl
    by_cases hb : b = a
    · subst hb
      simp [view, View.after, evIoSet, mask_flag]
    · simp [view, View.after, evIoSet, hb]

theorem follows_ioStart (h : s.Ok) (hc : s.view.Contract (.ioStart a)) : s.Follows (.ioStart a) := by
  by_cases ha : s.loop.fds.active a = 0
  · have hno : ¬ s.view.running (.io a) := not_not_intro ha
    obtain ⟨hfd, hevents, hstale⟩ := hc hno
    have hplain := (plain_iff _).mp hevents
    have hstart := @evIoStart_spec _ s.loop a ha hfd hplain
    obtain ⟨hfd1, hevents1, hactive1⟩ := fields_started s.loop.fds a
    have hactive (w : W) : Loop.active { s.loop with fds := s.loop.fds.started a } w ≠ 0 ↔
        w = .io a ∨ s.loop.active w ≠ 0 := by
      rw [active_fds _ hactive1]
      by_cases hw : w = .io a
      · simp [hw]
      · simp [hw]
    refine ⟨.done, _, by rw [step, hstart]; rfl, ?_, trivial, ?_⟩
    · exact h.of_start (w := .io a) ha rfl h.timers (h.fds.started ha hfd hplain) (h.synced.started ha hstale) h.lists hactive
        rfl rfl
    · rw [View.after, if_neg hno, View.start, if_neg hno]
      refine View.ext (funext fun w => propext (hactive w)) (h.queue.owed_priAdjust _) (priority_priAdjust _ _) rfl
        rfl rfl hfd1 ?_ (funext fun fd => propext (reify_started _ a fd)) rfl
      funext b
      by_cases hb : b = a
      · subst hb
        simp [view, View.change, hevents1, mask_mask]
      · simp [view, View.change, hevents1, hb]
  · refine ⟨.done, s, by rw [step, evIoStart_active ha]; rfl, h, trivial, ?_⟩
    exact (if_pos ha).symm

theorem follows_ioStop (h : s.Ok) : s.Follows (.ioStop a) := by
  by_cases ha : s.loop.fds.active a = 0
  · have hno : ¬ s.view.running (.io a) := not_not_intro ha
    refine ⟨.done, _, by rw [step, evIoStop_idle ha]; rfl, h.of_queue (h.queue.to_clear _), trivial, ?_⟩
    rw [View.after, if_neg hno]
    exact view_stop_idle h.queue ha
  · have hrun : s.view.running (.io a) := ha
    obtain ⟨hfd1, hevents1, hactive1⟩ := fields_stopped s.loop.fds a
    have hactive (w : W) : Loop.active { s.loop with fds := s.loop.fds.stopped a } w ≠ 0 ↔
        w ≠ .io a ∧ s.loop.active w ≠ 0 := by
      rw [active_fds _ hactive1]
      by_cases hw : w = .io a
      · simp [hw]
      · simp [hw]
    refine ⟨.done, _, by rw [step, evIoStop_spec h.fds ha]; rfl, ?_, trivial, ?_⟩
    · exact h.of_stop (w := .io a) ha rfl h.timers (h.fds.stopped ha) (h.synced.stopped ha) h.lists hactive rfl rfl
    · rw [View.after, if_pos hrun]
      have hto := h.queue.to_clear (.io a)
      refine View.ext (funext fun w => propext (hactive w)) hto.owed hto.priority rfl rfl rfl hfd1 ?_
        (funext fun fd => propext (reify_stopped _ a fd)) rfl
      exact congrArg (fun e : Nat → Events => fun b => mask (e b)) hevents1

theorem follows_closed (h : s.Ok) {fd : Int} (hc : s.view.Contract (.closed fd)) : s.Follows (.closed fd) := by
  refine ⟨.done, _, rfl, ?_, trivial, rfl⟩
  exact ⟨h.queue, h.rfeeds, h.timers, h.fds.of_told _, h.synced.closed h.fds fun a ha hfd => hc a ⟨ha, hfd⟩, h.lists,
    h.valid, h.count⟩

theorem follows_fork (h : s.Ok) : s.Follows .fork := by
  obtain ⟨hall, hzero⟩ := (h.fds.of_told fun _ => 0).fdRearmAll
  have hactive (w : W) : Loop.active { s.loop with fds := s.loop.fds.forked } w = s.loop.active w := by
    cases w with
    | io b => exact congrFun hall.active b
    | timer b => rfl
    | listed k b => rfl
  refine ⟨.done, _, rfl, ?_, trivial, ?_⟩
  · exact h.of_same h.to_self h.timers hall.ok (h.synced.forked h.fds) h.lists
      (fun w => not_congr (iff_of_eq (congrArg (· = 0) (hactive w)))) rfl rfl
  · refine View.ext (funext fun w => congrArg (· ≠ 0) (hactive w)) rfl rfl rfl rfl rfl hall.fd ?_
      (funext fun fd => propext ?_) rfl
    · exact congrArg (fun e : Nat → Events => fun b => mask (e b)) hall.events
    · refine (hzero fd).2.trans ?_
      change (s.loop.fds.anfds fd).events ≠ 0 ∨ (s.loop.fds.anfds fd).reify ≠ 0 ↔
        (∃ a, s.view.Watches fd a ∧ s.view.events a ≠ 0) ∨ (s.loop.fds.anfds fd).reify ≠ 0
      by_cases hreify : (s.loop.fds.anfds fd).reify = 0
      · rw [h.fds.as_wanted fd hreify, h.fds.wanted_ne_zero]
        refine or_congr_left (exists_congr fun a => ?_)
        rw [← and_assoc]
        refine and_congr_right fun ha => ?_
        rw [h.events_view ha.1]
      · exact iff_of_true (Or.inr hreify) (Or.inr hreify)

theorem follows_fdReify (h : s.Ok) : s.Follows .fdReify := by
  obtain ⟨hok, hanfds⟩ := h.fds.fdReify
  obtain ⟨f, -, heq⟩ := h.fds.through
  have hactive (w : W) : Loop.active { s.loop with fds := fdReify s.loop.fds } w = s.loop.active w := by
    cases w with
    | io b => rw [active_io, heq]; rfl
    | timer b => rfl
    | listed k b => rfl
  refine ⟨.done, _, rfl, ?_, trivial, ?_⟩
  · exact h.of_same h.to_self h.timers hok (h.synced.fdReify h.fds).1 h.lists
      (fun w => not_congr (iff_of_eq (congrArg (· = 0) (hactive w)))) rfl rfl
  · have hfd : (fdReify s.loop.fds).fd = s.loop.fds.fd := by rw [heq]
    have hevents : (fdReify s.loop.fds).events = s.loop.fds.events := by rw [heq]
    refine View.ext (funext fun w => congrArg (· ≠ 0) (hactive w)) rfl rfl rfl rfl rfl hfd ?_
      (funext fun fd => propext (iff_of_false ?_ id)) rfl
    · exact congrArg (fun e : Nat → Events => fun b => mask (e b)) hevents
    · change ¬ ((fdReify s.loop.fds).anfds fd).reify ≠ 0
      simp [hanfds fd]

theorem follows_feedFd (h : s.Ok) {fd : Int} {revents : Events} : s.Follows (.feedFd fd revents) := by
  have hto := fdEventNc_spec h.fds h.queue (fun a ha => h.valid (.io a) ha) fd revents
  rw [h.owed_giveFd] at hto
  by_cases hfd : 0 ≤ fd ∧ fd < s.loop.fds.anfdmax
  · have heq : evFeedFdEvent s.loop.fds s.loop.queue fd revents = fdEventNc s.loop.fds s.loop.queue fd revents :=
      if_pos hfd
    refine ⟨.done, _, rfl, ?_, trivial, ?_⟩
    · rw [heq]
      exact h.of_queue hto
    · rw [heq]
      exact view_of_queue hto
  · have heq : evFeedFdEvent s.loop.fds s.loop.queue fd revents = s.loop.queue := if_neg hfd
    refine ⟨.done, _, rfl, ?_, trivial, ?_⟩
    · rw [heq]
      exact h
    · -- nobody watches the descriptor
      rw [heq]
      refine View.ext rfl ?_ rfl rfl rfl rfl rfl rfl rfl rfl
      rw [View.after, ← h.owed_giveFd]
      funext w
      cases w with
      | io a =>
        refine (if_neg ?_).symm
        rintro ⟨⟨ha, rfl⟩, -⟩
        exact hfd (h.fds.inside a ha)
      | _ => rfl

theorem follows_fdEvent (h : s.Ok) {fd : Int} {revents : Events} : s.Follows (.fdEvent fd revents) := by
  have hto := fdEventNc_spec h.fds h.queue (fun a ha => h.valid (.io a) ha) fd revents
  rw [h.owed_giveFd] at hto
  refine ⟨.done, _, rfl, ?_, trivial, ?_⟩
  · unfold fdEvent
    split
    · exact h.of_queue hto
    · exact h
  · unfold fdEvent
    rw [View.after]
    split
    · have hno : ¬ s.view.changed fd := not_not_intro ‹_›
      rw [if_neg hno]
      exact view_of_queue hto
    · exact (if_pos ‹_›).symm

theorem follows_fdKill (h : s.Ok) {fd : Int} : s.Follows (.fdKill fd) := by
  obtain ⟨l, heq, hl⟩ := fdKill_spec h.fds h.synced h.queue (fun a ha => h.valid (.io a) ha) fd
  have hactive (w : W) : l.active w ≠ 0 ↔ w ∉ (s.loop.fds.anfds fd).head.map W.io ∧ s.loop.active w ≠ 0 := by
    rw [hl.rest]
    cases w with
    | io a =>
      have hlisted := h.fds.listed fd a
      by_cases hfd : s.loop.fds.fd a = fd
      · simp [hl.active, hfd, hlisted]
      · simp [hl.active, hfd, hlisted]
    | timer a => simp
    | listed k a => simp
  have hrest : l.timers = s.loop.timers ∧ l.lists = s.loop.lists := by
    rw [hl.rest]
    exact ⟨rfl, rfl⟩
  refine ⟨.done, _, by rw [step, heq]; rfl, ?_, trivial, ?_⟩
  · refine h.of_stops ((s.loop.fds.anfds fd).head.map W.io) ?_ (fun w hw => ?_) hl.queue (hrest.1 ▸ h.timers) hl.ok
      hl.synced (hrest.2 ▸ h.lists) hactive ?_ rfl
    · exact (h.fds.nodup fd).map fun a b hab => W.io.inj hab
    · obtain ⟨a, ha, rfl⟩ := List.mem_map.mp hw
      exact ((h.fds.listed fd a).mp ha).1
    · rw [List.length_map]
      exact hl.activecnt
  · refine View.ext (funext fun w => propext ?_) ?_ hl.queue.priority ?_ ?_ ?_ hl.fd ?_
      (funext fun fd' => propext ?_) rfl
    · refine (hactive w).trans ⟨fun ⟨hno, hw⟩ => ⟨hw, ?_⟩, fun ⟨hw, hall⟩ => ⟨fun hin => ?_, hw⟩⟩
      · rintro a rfl hfd
        exact hno (List.mem_map_of_mem ((h.fds.listed fd a).mpr ⟨hw, hfd⟩))
      · obtain ⟨a, ha, rfl⟩ := List.mem_map.mp hin
        exact hall a rfl ((h.fds.listed fd a).mp ha).2
    · refine hl.queue.owed.trans (funext fun w => ?_)
      cases w with
      | io a =>
        classical
        exact if_congr Iff.rfl rfl rfl
      | _ => rfl
    · exact congrArg Timers.at_ hrest.1
    · exact congrArg Timers.repeat_ hrest.1
    · exact congrArg Timers.mnNow hrest.1
    · exact congrArg (fun e : Nat → Events => fun b => mask (e b)) hl.events
    · refine (hl.reify fd').trans (or_congr_left (and_congr_right fun _ => ?_))
      refine Iff.trans ⟨List.exists_mem_of_ne_nil _, fun ⟨a, ha⟩ => List.ne_nil_of_mem ha⟩ ?_
      exact exists_congr fun a => h.fds.listed fd a

/-! ## Timers -/

theorem follows_timerSet (h : s.Ok) {at_ repeat_ : T} (hc : s.view.Contract (.timerSet a at_ repeat_)) :
    s.Follows (.timerSet a at_ repeat_) :=
  ⟨.done, _, rfl, (h.withAt (not_not.mp hc) at_).withRepeat fun ha => absurd ha hc, trivial, rfl⟩

theorem follows_timerRepeat (h : s.Ok) {repeat_ : T} (hc : s.view.Contract (.timerRepeat a repeat_)) :
    s.Follows (.timerRepeat a repeat_) := ⟨.done, _, rfl, h.withRepeat hc, trivial, rfl⟩

omit [Sub T] in
/-- What comes of a timer that is started. -/
theorem Ok.startTimer (h : s.Ok) (hc : s.view.Contract (.timerStart a)) :
    ∃ l, evTimerStart s.loop a = some l ∧ Ok { s with loop := l } ∧
      view { s with loop := l } = s.view.startTimer a := by
  by_cases ha : s.loop.timers.heap.active a = 0
  · have hno : ¬ s.view.running (.timer a) := not_not_intro ha
    obtain ⟨t, ht, heq⟩ := evTimerStart_spec h.timers ha (hc hno)
    have hactive (w : W) : Loop.active { s.loop with timers := t } w ≠ 0 ↔
        w = .timer a ∨ s.loop.active w ≠ 0 := by
      rw [active_timers _ ht]
      cases w <;> simp
    refine ⟨_, heq, ?_, ?_⟩
    · exact h.of_start (w := .timer a) ha rfl ht.ok h.fds h.synced h.lists hactive rfl rfl
    · rw [View.startTimer, if_neg hno, View.start, if_neg hno]
      exact View.ext (funext fun w => propext (hactive w)) (h.queue.owed_priAdjust _) (priority_priAdjust _ _) ht.at_
        ht.repeat_ ht.mnNow rfl rfl rfl rfl
  · have hrun : s.view.running (.timer a) := ha
    refine ⟨_, evTimerStart_active ha, h, ?_⟩
    rw [View.startTimer, if_pos hrun]

omit [Add T] in
/-- What comes of a timer that is stopped. -/
theorem Ok.stopTimer (h : s.Ok) (a : Nat) :
    ∃ l, evTimerStop s.loop a = some l ∧ Ok { s with loop := l } ∧ view { s with loop := l } = s.view.stopTimer a := by
  by_cases ha : s.loop.timers.heap.active a = 0
  · have hno : ¬ s.view.running (.timer a) := not_not_intro ha
    refine ⟨_, evTimerStop_idle ha, h.of_queue (h.queue.to_clear _), ?_⟩
    rw [View.stopTimer, if_neg hno]
    exact view_stop_idle h.queue ha
  · have hrun : s.view.running (.timer a) := ha
    obtain ⟨t, ht, heq⟩ := evTimerStop_spec h.timers ha
    have hactive (w : W) : Loop.active { s.loop with timers := t } w ≠ 0 ↔
        w ≠ .timer a ∧ s.loop.active w ≠ 0 := by
      rw [active_timers _ ht]
      cases w <;> simp
    refine ⟨_, heq, ?_, ?_⟩
    · exact h.of_stop (w := .timer a) ha rfl ht.ok h.fds h.synced h.lists hactive rfl rfl
    · rw [View.stopTimer, if_pos hrun]
      have hto := h.queue.to_clear (.timer a)
      exact View.ext (funext fun w => propext (hactive w)) hto.owed hto.priority ht.at_ ht.repeat_ ht.mnNow rfl rfl
        rfl rfl

theorem follows_timerStart (h : s.Ok) (hc : s.view.Contract (.timerStart a)) : s.Follows (.timerStart a) := by
  obtain ⟨l, heq, hok, hview⟩ := h.startTimer hc
  exact ⟨.done, _, by rw [step, heq]; rfl, hok, trivial, hview⟩

theorem follows_timerStop (h : s.Ok) : s.Follows (.timerStop a) := by
  obtain ⟨l, heq, hok, hview⟩ := h.stopTimer a
  exact ⟨.done, _, by rw [step, heq]; rfl, hok, trivial, hview⟩

theorem follows_timerAgain (h : s.Ok) (hc : s.view.Contract (.timerAgain a)) : s.Follows (.timerAgain a) := by
  by_cases ha : s.loop.timers.heap.active a = 0
  · have hno : ¬ s.view.running (.timer a) := not_not_intro ha
    by_cases hrepeat : s.loop.timers.repeat_ a = 0
    · have hzero : ¬ s.view.repeat_ a ≠ 0 := not_not_intro hrepeat
      refine ⟨.done, s, by rw [step, evTimerAgain_idle ha hrepeat]; rfl, h, trivial, ?_⟩
      rw [View.after, View.again, if_neg hno, if_neg hzero]
    · -- as if it had been set, and then started
      have hset : s.view.repeat_ a ≠ 0 := hrepeat
      obtain ⟨l, heq, hok, hview⟩ := (h.withAt ha (s.loop.timers.repeat_ a)).startTimer hc
      refine ⟨.done, _, by rw [step, evTimerAgain_start ha hrepeat, heq]; rfl, hok, trivial, ?_⟩
      rw [View.after, View.again, if_neg hno, if_pos hset]
      exact hview
  · have hrun : s.view.running (.timer a) := ha
    by_cases hrepeat : s.loop.timers.repeat_ a = 0
    · have hzero : ¬ s.view.repeat_ a ≠ 0 := not_not_intro hrepeat
      obtain ⟨l, heq, hok, hview⟩ := h.stopTimer a
      refine ⟨.done, _, by rw [step, evTimerAgain_stop ha hrepeat, heq]; rfl, hok, trivial, ?_⟩
      rw [View.after, View.again, if_pos hrun, if_neg hzero]
      exact hview
    · have hset : s.view.repeat_ a ≠ 0 := hrepeat
      obtain ⟨t, ht, heq⟩ := evTimerAgain_active h.timers ha hrepeat
      have hactive (w : W) : Loop.active { s.loop with timers := t } w ≠ 0 ↔ s.loop.active w ≠ 0 := by
        rw [active_timers _ ht]
        cases w <;> simp
      refine ⟨.done, _, by rw [step, heq]; rfl, ?_, trivial, ?_⟩
      · exact h.of_same h.to_self ht.ok h.fds h.synced h.lists hactive rfl rfl
      · rw [View.after, View.again, if_pos hrun, if_pos hset]
        exact View.ext (funext fun w => propext (hactive w)) rfl rfl ht.at_ ht.repeat_ ht.mnNow rfl rfl rfl rfl

theorem follows_now (h : s.Ok) {t : T} : s.Follows (.now t) := by
  refine ⟨.done, _, rfl, ?_, trivial, rfl⟩
  exact h.of_same h.to_self ⟨h.timers.active, h.timers.placed, h.timers.cached, h.timers.ordered, h.timers.repeat_,
    h.timers.room⟩ h.fds h.synced h.lists (fun w => by cases w <;> exact Iff.rfl) rfl rfl

theorem follows_timersReify (h : s.Ok) : s.Follows .timersReify := by
  obtain ⟨ws, t, q, hws, hfed, heq⟩ := timersReify_spec h.timers h.queue h.rfeeds fun a ha => h.valid (.timer a) ha
  have hactive (w : W) : Loop.active { s.loop with timers := t } w ≠ 0 ↔
      w ∉ (ws.filter fun a => s.loop.timers.repeat_ a = 0).map W.timer ∧ s.loop.active w ≠ 0 := by
    rw [active_timers _ hws.gives]
    cases w with
    | timer b => simp [hws.mem, and_comm]
    | io b => simp
    | listed k b => simp
  have hto : s.loop.queue.To q (dueOwed s.loop.timers s.loop.queue.owed) :=
    ⟨hfed.ok, hfed.priority, hfed.rfeeds.trans h.rfeeds.symm, hfed.owed⟩
  refine ⟨.done, _, by rw [step, heq]; rfl, ?_, trivial, ?_⟩
  · refine h.of_stops ((ws.filter fun a => s.loop.timers.repeat_ a = 0).map W.timer) ?_ (fun w hw => ?_) hto
      hws.gives.ok h.fds h.synced h.lists hactive ?_ rfl
    · exact (hws.nodup.filter _).map fun a b hab => W.timer.inj hab
    · obtain ⟨a, ha, rfl⟩ := List.mem_map.mp hw
      exact ((hws.mem a).mp (List.mem_filter.mp ha).1).1
    · rw [List.length_map]
  · refine View.ext (funext fun w => propext ?_) ?_ hfed.priority ?_ hws.gives.repeat_ hws.gives.mnNow rfl rfl rfl
      rfl
    · refine (hactive w).trans ⟨fun ⟨hno, hw⟩ => ⟨hw, ?_⟩, fun ⟨hw, hall⟩ => ⟨fun hin => ?_, hw⟩⟩
      · rintro a rfl hdue hzero
        have hin : a ∈ ws.filter fun a => s.loop.timers.repeat_ a = 0 :=
          List.mem_filter.mpr ⟨(hws.mem a).mpr hdue, decide_eq_true hzero⟩
        exact hno (List.mem_map_of_mem hin)
      · obtain ⟨a, ha, rfl⟩ := List.mem_map.mp hin
        obtain ⟨hmem, hzero⟩ := List.mem_filter.mp ha
        exact hall a rfl ((hws.mem a).mp hmem) (of_decide_eq_true hzero)
    · refine hfed.owed.trans (funext fun w => ?_)
      cases w with
      | timer a =>
        classical
        exact if_congr Iff.rfl rfl rfl
      | _ => rfl
    · refine hws.gives.at_.trans (funext fun a => ?_)
      classical
      exact if_congr Iff.rfl (if_congr Iff.rfl (max_eq_ite _ _).symm rfl) rfl

theorem follows_reschedule [AddRightMono T] (h : s.Ok) {adjust : T} : s.Follows (.reschedule adjust) := by
  have hmono (x y : T) (hxy : x ≤ y) : x + adjust ≤ y + adjust := by gcongr
  have ht := timersReschedule_spec h.timers hmono
  have hactive (w : W) : Loop.active { s.loop with timers := timersReschedule s.loop.timers adjust } w ≠ 0 ↔
      s.loop.active w ≠ 0 := by
    rw [active_timers _ ht]
    cases w <;> simp
  refine ⟨.done, _, rfl, ?_, trivial, ?_⟩
  · exact h.of_same h.to_self ht.ok h.fds h.synced h.lists hactive rfl rfl
  · refine View.ext (funext fun w => propext (hactive w)) rfl rfl (ht.at_.trans (funext fun a => ?_)) ht.repeat_
      ht.mnNow rfl rfl rfl rfl
    classical
    exact if_congr Iff.rfl rfl rfl

/-! ## Watchers in arrays -/

section Listed

variable {k : Listed}

theorem follows_listStart (h : s.Ok) : s.Follows (.listStart k a) := by
  by_cases ha : s.loop.lists.active k a = 0
  · have hno : ¬ s.view.running (.listed k a) := not_not_intro ha
    have hto := h.lists.to_pushed ha
    have hactive (w : W) : Loop.active { s.loop with lists := s.loop.lists.pushed k a } w ≠ 0 ↔
        w = .listed k a ∨ s.loop.active w ≠ 0 := by
      cases w with
      | listed k' b => simpa using hto.active k' b
      | _ => simp
    refine ⟨.done, _, rfl, ?_, trivial, ?_⟩
    · rw [listStart_spec ha]
      exact h.of_start (w := .listed k a) ha rfl h.timers h.fds h.synced hto.ok hactive rfl rfl
    · rw [View.after, View.start, if_neg hno, listStart_spec ha]
      exact View.ext (funext fun w => propext (hactive w)) (h.queue.owed_priAdjust _) (priority_priAdjust _ _) rfl
        rfl rfl rfl rfl rfl rfl
  · have hrun : s.view.running (.listed k a) := ha
    refine ⟨.done, _, rfl, ?_, trivial, ?_⟩
    · rw [listStart_active ha]
      exact h
    · rw [View.after, View.start, if_pos hrun, listStart_active ha]

theorem follows_listStop (h : s.Ok) : s.Follows (.listStop k a) := by
  by_cases ha : s.loop.lists.active k a = 0
  · exact ⟨.done, _, by rw [step, listStop_idle ha]; rfl, h.of_queue (h.queue.to_clear _), trivial,
      view_stop_idle h.queue ha⟩
  · obtain ⟨moved, hmoved, heq⟩ := listStop_spec h.lists ha
    have hto := h.lists.to_removed ha hmoved
    have hactive (w : W) : Loop.active { s.loop with lists := s.loop.lists.removed k a moved } w ≠ 0 ↔
        w ≠ .listed k a ∧ s.loop.active w ≠ 0 := by
      cases w with
      | listed k' b => simpa using hto.active k' b
      | _ => simp
    have hclear := h.queue.to_clear (.listed k a)
    refine ⟨.done, _, by rw [step, heq]; rfl, ?_, trivial, ?_⟩
    · exact h.of_stop (w := .listed k a) ha rfl h.timers h.fds h.synced hto.ok hactive rfl rfl
    · exact View.ext (funext fun w => propext (hactive w)) hclear.owed hclear.priority rfl rfl rfl rfl rfl rfl rfl

theorem follows_queueListed (h : s.Ok) : s.Follows (.queueListed k) := by
  have hvalid : ∀ w ∈ (s.loop.lists.arrays k).map (W.listed k), s.loop.queue.Valid w := by
    intro w hw
    obtain ⟨b, hb, rfl⟩ := List.mem_map.mp hw
    exact h.valid _ ((h.lists.mem_iff k b).mp hb)
  have hnodup : ((s.loop.lists.arrays k).map (W.listed k)).Nodup :=
    (h.lists.nodup k).map fun b c hbc => (W.listed.inj hbc).2
  have hto : s.loop.queue.To (queueEvents s.loop.queue ((s.loop.lists.arrays k).map (.listed k)) k.type)
      (s.view.after (.queueListed k) .done).owed := by
    refine ⟨h.queue.queueEvents hvalid _, Queue.priority_queueEvents, ?_, ?_⟩
    · exact Queue.rfeeds_queueEvents
    · refine (h.queue.owed_queueEvents hvalid hnodup _).trans (funext fun w => ?_)
      cases w with
      | listed k' b =>
        classical
        refine if_congr ?_ rfl rfl
        simp only [List.mem_map, W.listed.injEq]
        constructor
        · rintro ⟨c, hc, rfl, rfl⟩
          exact ⟨rfl, (h.lists.mem_iff k c).mp hc⟩
        · rintro ⟨rfl, hb⟩
          exact ⟨b, (h.lists.mem_iff k' b).mpr hb, rfl, rfl⟩
      | _ =>
        refine if_neg ?_
        simp
  refine ⟨.done, _, rfl, h.of_queue hto, trivial, ?_⟩
  exact view_of_queue hto

end Listed

/-! ## Events -/

theorem follows_setPriority (h : s.Ok) {w : W} {pri : Int} (hc : s.view.Contract (.setPriority w pri)) :
    s.Follows (.setPriority w pri) := by
  have hw : s.loop.queue.pending w = 0 := (h.queue.owed_eq_none_iff w).mp hc.2
  refine ⟨.done, _, rfl, ?_, trivial, ?_⟩
  · refine ⟨h.queue.ranked hw pri, h.rfeeds, h.timers, h.fds, h.synced, h.lists, fun w' hw' => ?_, h.count⟩
    have hww : w' ≠ w := by
      rintro rfl
      exact hc.1 hw'
    have hvalid := h.valid w' hw'
    rwa [Queue.Valid, ← Queue.abspri_ranked_of_ne hww pri] at hvalid
  · exact View.ext rfl (h.queue.owed_ranked hw pri) rfl rfl rfl rfl rfl rfl rfl rfl

theorem follows_feed (h : s.Ok) {w : W} {revents : Events} (hc : s.view.Contract (.feed w revents)) :
    s.Follows (.feed w revents) := by
  have hto := h.queue.to_feed ((valid_iff s w).mpr hc) revents
  exact ⟨.done, _, rfl, h.of_queue hto, trivial, view_of_queue hto⟩

theorem follows_clear (h : s.Ok) {w : W} : s.Follows (.clear w) := by
  have hto := h.queue.to_clear w
  have heq := h.queue.evClearPending_eq w
  refine ⟨_, _, rfl, ?_, ?_, ?_⟩
  · rw [heq]
    exact h.of_queue hto
  · rw [heq]
    rfl
  · rw [heq]
    exact view_of_queue hto

theorem follows_invoke (h : s.Ok) {pri : Int} : s.Follows (.invoke pri) := by
  cases hturn : invokeTurn s.loop.queue pri with
  | none =>
    have hempty := Queue.invokeTurn_eq_none.mp hturn
    refine ⟨.done, s, by rw [step, hturn], h, fun w hw => (h.queue.owed_eq_none_iff w).mpr ?_, rfl⟩
    by_contra hpending
    obtain ⟨v, hv⟩ := (h.queue.agenda (s.loop.queue.abspri w)).entry (by rwa [Queue.place_agenda])
    have hpri : s.loop.queue.abspri w = pri := hw
    rw [hpri] at hv
    change (s.loop.queue.pendings pri)[_]? = _ at hv
    rw [hempty] at hv
    simp at hv
  | some c =>
    obtain ⟨⟨o, events⟩, q⟩ := c
    obtain ⟨hok, howed, hq⟩ := h.queue.invoke hturn
    obtain ⟨-, rfl⟩ := Queue.invokeTurn_eq_some.mp hturn
    have hto : s.loop.queue.To (takeLast s.loop.queue pri o) (takeLast s.loop.queue pri o).owed :=
      ⟨hok, rfl, rfl, rfl⟩
    refine ⟨.called o events, _, by rw [step, hturn], h.of_queue hto, ?_, ?_⟩
    · cases o with
      | none => trivial
      | some w => exact ⟨(howed w rfl).2, (howed w rfl).1⟩
    · rw [view_of_queue hto, hq]
      cases o with
      | none => simp [View.after, view]
      | some w =>
        refine View.ext rfl (funext fun w' => ?_) rfl rfl rfl rfl rfl rfl rfl rfl
        by_cases hw : w = w'
        · subst hw
          simp [View.after]
        · simp [View.after, view, hw, Ne.symm hw]

theorem follows_ref (h : s.Ok) : s.Follows .ref := by
  obtain ⟨ws, hws, hcount⟩ := h.count
  refine ⟨.done, _, rfl, ⟨h.queue, h.rfeeds, h.timers, h.fds, h.synced, h.lists, h.valid, ws, hws, ?_⟩, trivial, rfl⟩
  change s.loop.activecnt + 1 = ws.card + (s.refs + 1)
  omega

theorem follows_unref (h : s.Ok) : s.Follows .unref := by
  obtain ⟨ws, hws, hcount⟩ := h.count
  refine ⟨.done, _, rfl, ⟨h.queue, h.rfeeds, h.timers, h.fds, h.synced, h.lists, h.valid, ws, hws, ?_⟩, trivial, rfl⟩
  change s.loop.activecnt - 1 = ws.card + (s.refs - 1)
  omega

/-- **The code does what a program expects** of every call that the contract allows. -/
theorem follows [AddRightMono T] (h : s.Ok) {c : Call T} (hc : s.view.Contract c) : s.Follows c := by
  cases c with
  | setPriority w pri => exact follows_setPriority h hc
  | ioSet a fd events => exact follows_ioSet h hc
  | ioStart a => exact follows_ioStart h hc
  | ioStop a => exact follows_ioStop h
  | timerSet a at_ repeat_ => exact follows_timerSet h hc
  | timerRepeat a repeat_ => exact follows_timerRepeat h hc
  | timerStart a => exact follows_timerStart h hc
  | timerStop a => exact follows_timerStop h
  | timerAgain a => exact follows_timerAgain h hc
  | listStart k a => exact follows_listStart h
  | listStop k a => exact follows_listStop h
  | feed w revents => exact follows_feed h hc
  | feedFd fd revents => exact follows_feedFd h
  | clear w => exact follows_clear h
  | ref => exact follows_ref h
  | unref => exact follows_unref h
  | closed fd => exact follows_closed h hc
  | fork => exact follows_fork h
  | fdReify => exact follows_fdReify h
  | fdEvent fd revents => exact follows_fdEvent h
  | fdKill fd => exact follows_fdKill h
  | now t => exact follows_now h
  | timersReify => exact follows_timersReify h
  | reschedule adjust => exact follows_reschedule h
  | queueListed k => exact follows_queueListed h
  | invoke pri => exact follows_invoke h

end Follows

end World

end CodeSLoop.Ev
