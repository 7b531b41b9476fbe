import CodeSLoop.Common.EvLoop
import CodeSLoop.Common.EvOwed
import Mathlib.Algebra.Ring.Int.Defs

/-!
# Runs of an event loop (`common/libev/ev.c`)

A loop starts with nothing in it (`Fresh`); a run is any sequence of calls that the contract allows. In every
run no assertion fails, and `ev_loop_verify` finds nothing but a number of references that is too small
(`run_verifies`); the machine of `EvView` has a run with the same answers (`run_answers`), so what is proved of that
one is true of the code: watchers are called with what they were given (`called_with`), and one that was stopped
is not called (`run_silent`). Whenever the loop is about to wait, the backend knows what is wanted
of every descriptor (`run_synced`).
-/

namespace CodeSLoop.Ev

universe v

namespace World

/-! ## `ev_loop_verify` -/

section Verify

variable {T : Type v} [LinearOrder T] [Zero T] {s : World T}

/-- The assertions of `verify_heap` hold. -/
theorem Ok.verifyHeap_eq (h : s.Ok) : verifyHeap s.loop = true := by
  refine List.all_eq_true.mpr fun i hi => ?_
  have hk : InHeap s.loop.timers.timercnt (i + HEAP0) := by
    have hlt := List.mem_range.mp hi
    exact ⟨Nat.le_add_left _ _, by omega⟩
  have hactive := h.timers.active _ hk
  have hwatcher : verifyWatcher s.loop.queue (.timer (s.loop.timers.heap.heap (i + HEAP0)).w) = true := by
    refine h.queue.verifyWatcher_eq (h.valid (.timer _) ?_)
    rw [active_timer, hactive]
    exact Timers.inHeap_ne_zero hk
  have hle : i + HEAP0 = HEAP0 ∨
      (s.loop.timers.heap.heap (hparent (i + HEAP0))).at_ ≤ (s.loop.timers.heap.heap (i + HEAP0)).at_ := by
    by_cases hzero : i = 0
    · exact Or.inl (by rw [hzero, Nat.zero_add])
    · exact Or.inr (h.timers.ordered _ (by omega) (by have := hk.2; omega))
  rw [verifyPlace, hwatcher, decide_eq_true hle, decide_eq_true hactive, decide_eq_true (h.timers.cached _ hk)]
  rfl

/-- **`ev_loop_verify` finds nothing**, but that `activecnt` may be too small. -/
theorem Ok.evLoopVerify_eq (h : s.Ok) : evLoopVerify s.loop = decide (-1 ≤ s.loop.activecnt) := by
  have hfds : ((List.range s.loop.fds.anfdmax).all fun i =>
      (s.loop.fds.anfds i).head.all fun a =>
        verifyWatcher s.loop.queue (.io a) && s.loop.fds.active a == 1 && s.loop.fds.fd a == i) = true := by
    refine List.all_eq_true.mpr fun i _ => List.all_eq_true.mpr fun a ha => ?_
    obtain ⟨hactive, hfd⟩ := (h.fds.listed i a).mp ha
    have hone : s.loop.fds.active a = 1 := by
      have hle := h.fds.active a
      omega
    rw [h.queue.verifyWatcher_eq (h.valid (.io a) hactive), hone, hfd]
    simp
  have hchanges : (s.loop.fds.fdchanges.all fun fd => decide (0 ≤ fd)) = true :=
    List.all_eq_true.mpr fun fd hfd => decide_eq_true (h.fds.changes_inside fd hfd).1
  have hpendings : ((List.range NUMPRI.toNat).all fun i : Nat =>
      decide ((s.loop.queue.pendings i).length ≤ s.loop.queue.pendingmax i)) = true :=
    List.all_eq_true.mpr fun i _ => decide_eq_true (h.queue.room i)
  have hlists (k : Listed) :
      (decide ((s.loop.lists.arrays k).length ≤ s.loop.lists.arraymax k) && arrayVerify k s.loop) = true := by
    rw [arrayVerify_eq h.lists h.queue fun a ha => h.valid (.listed k a) ha, Bool.and_true]
    exact decide_eq_true (h.lists.room k)
  rw [evLoopVerify, hfds, hchanges, hpendings, h.verifyHeap_eq, decide_eq_true h.fds.room,
    decide_eq_true h.timers.room]
  simp [hlists]

end Verify

/-! ## Runs -/

section Fresh

variable {T : Type v}

/-- **Nothing is in the loop**, and no watcher was started. -/
structure Fresh (s : World T) : Prop where
  active : ∀ w, s.loop.active w = 0
  pending : ∀ w, s.loop.queue.pending w = 0
  pendings : ∀ pri, s.loop.queue.pendings pri = []
  rfeeds : s.loop.queue.rfeeds = []
  timercnt : s.loop.timers.timercnt = 0
  anfds : ∀ fd, s.loop.fds.anfds fd = ⟨[], 0, 0⟩
  fdchanges : s.loop.fds.fdchanges = []
  told : ∀ fd, s.loop.fds.told fd = 0
  arrays : ∀ k, s.loop.lists.arrays k = []
  activecnt : s.loop.activecnt = 0
  refs : s.refs = 0

/-- A loop as it is made, in memory that was set to 0; all watchers have to be set. -/
def made [Zero T] : World T where
  loop :=
    { queue := ⟨fun _ => 0, fun _ => 0, fun _ => [], fun _ => 0, [], 0⟩
      timers := ⟨fun _ => 0, fun _ => 0, ⟨fun _ => ⟨0, 0⟩, fun _ => 0⟩, 0, 0, 0⟩
      fds := ⟨fun _ => 0, fun _ => 0, fun _ => 0, fun _ => ⟨[], 0, 0⟩, 0, [], 0, fun _ => 0⟩
      lists := ⟨fun _ _ => 0, fun _ => [], fun _ => 0⟩
      activecnt := 0 }
  stale := fun _ => true
  refs := 0

variable {s : World T}

theorem fresh_made [Zero T] : (made : World T).Fresh := by
  refine ⟨fun w => ?_, fun _ => rfl, fun _ => rfl, rfl, rfl, fun _ => rfl, rfl, fun _ => rfl, fun _ => rfl, rfl, rfl⟩
  cases w <;> rfl

theorem Fresh.fds_ok (h : s.Fresh) : s.loop.fds.Ok := by
  have hidle (a : Nat) : s.loop.fds.active a = 0 := h.active (.io a)
  refine ⟨⟨fun fd a => ?_, fun a => by simp [hidle], fun fd => by simp [h.anfds], fun a ha => absurd (hidle a) ha,
    fun a ha => absurd (hidle a) ha⟩, ⟨fun fd => by simp [h.anfds, h.fdchanges], by simp [h.fdchanges],
    fun fd hfd => by simp [h.fdchanges] at hfd, fun fd _ => ?_, fun fd _ => by rw [h.anfds], by simp [h.fdchanges]⟩⟩
  · simp [h.anfds, hidle]
  · rw [Fds.wanted_nil (by rw [h.anfds]), h.anfds]

theorem Fresh.timers_ok [LinearOrder T] [Zero T] (h : s.Fresh) : s.loop.timers.Ok := by
  have hidle (a : Nat) : s.loop.timers.heap.active a = 0 := h.active (.timer a)
  have hout (k : Nat) : ¬ InHeap s.loop.timers.timercnt k := by
    rw [h.timercnt]
    rintro ⟨hle, hlt⟩
    omega
  refine ⟨fun k hk => absurd hk (hout k), fun a ha => absurd (hidle a) ha, fun k hk => absurd hk (hout k),
    fun k hr hk => absurd ⟨hr.le, by omega⟩ (hout k), fun a ha => absurd (hidle a) ha, ?_⟩
  rw [h.timercnt]
  exact Nat.zero_le _

theorem Fresh.queue_ok (h : s.Fresh) : s.loop.queue.Ok := by
  refine ⟨fun pri => ?_, fun w hw => absurd (h.pending w) hw, fun pri => by simp [h.pendings]⟩
  have hempty : s.loop.queue.agenda pri = ⟨[], fun _ => 0⟩ :=
    congrArg₂ Agenda.mk (h.pendings pri) (funext fun w => by rw [h.pending, ite_self])
  rw [hempty]
  exact Agenda.ok_empty

/-- The invariant holds at the start. -/
theorem Fresh.ok [LinearOrder T] [Zero T] (h : s.Fresh) : s.Ok where
  queue := h.queue_ok
  rfeeds := h.rfeeds
  timers := h.timers_ok
  fds := h.fds_ok
  synced := ⟨fun fd => Or.inl (by rw [h.told, h.anfds]), fun a ha => absurd (h.active (.io a)) ha⟩
  lists := by
    refine ⟨fun k i a => ?_, fun k => by simp [h.arrays]⟩
    rw [h.arrays, show s.loop.lists.active k a = 0 from h.active (.listed k a)]
    simp
  valid w hw := absurd (h.active w) hw
  count := ⟨∅, fun w => by simp [h.active], by simp [h.activecnt, h.refs]⟩

/-- Nothing is owed at the start. -/
theorem Fresh.owed (h : s.Fresh) (w : W) : s.view.owed w = none :=
  (h.queue_ok.owed_eq_none_iff w).mpr (h.pending w)

end Fresh

section Runs

variable {T : Type v} [LinearOrder T] [Zero T] [Add T] [Sub T]

/-- A call that the contract allows, and its answer. -/
def Step (s : World T) (x : Call T × Answer) (s' : World T) : Prop :=
  s.view.Contract x.1 ∧ s.step x.1 = some (x.2, s')

variable {s s' : World T} {tr : List ((Call T × Answer) × World T)} {c : Call T} {ans : Answer}

/-- A step keeps the invariant, and is one of the machine. -/
theorem Step.follows [AddRightMono T] (hs : s.Ok) (h : Step s (c, ans) s') :
    s'.Ok ∧ View.Step s.view (c, ans) s'.view := by
  obtain ⟨hc, heq⟩ := h
  obtain ⟨ans', s1, heq', hok, hans, hview⟩ := World.follows hs hc
  obtain ⟨rfl, rfl⟩ : ans' = ans ∧ s1 = s' := by
    have hsame := heq'.symm.trans heq
    exact Prod.mk.inj (Option.some.inj hsame)
  exact ⟨hok, hc, hans, hview⟩

/-- What a program sees of a run. -/
def seen (tr : List ((Call T × Answer) × World T)) : List ((Call T × Answer) × View T) :=
  tr.map fun x => (x.1, x.2.view)

omit [LinearOrder T] [Zero T] [Add T] [Sub T] in
theorem last_seen (s : World T) (tr : List ((Call T × Answer) × World T)) :
    Lts.last s.view (seen tr) = (Lts.last s tr).view := by
  induction tr generalizing s with
  | nil => rfl
  | cons x tr ih => exact ih x.2

/-- **The machine has the same run**, and the invariant holds at its end. -/
theorem run_follows [AddRightMono T] (hs : s.Ok) (h : Lts.Run Step s tr) :
    (Lts.last s tr).Ok ∧ Lts.Run View.Step s.view (seen tr) := by
  induction h with
  | nil s => exact ⟨hs, .nil _⟩
  | cons hstep _ ih =>
    obtain ⟨hok, hview⟩ := hstep.follows hs
    obtain ⟨hlast, hrun⟩ := ih hok
    exact ⟨hlast, .cons hview hrun⟩

/-- Calls one after the other, and what comes of them. -/
def calls (s : World T) : List (Call T) → List ((Call T × Answer) × World T)
  | [] => []
  | c :: cs =>
    match s.step c with
    | none => []
    | some (ans, s') => ((c, ans), s') :: calls s' cs

/-- A watcher for a descriptor, and one that is called before the loop waits. -/
def tour : List (Call Int) :=
  [.ioSet 1 5 EV_READ, .ioStart 1, .listStart .prepare 1, .fdReify, .queueListed .prepare, .fdEvent 5 EV_READ]

theorem run_tour : Lts.Run Step (made : World Int) (calls made tour) := by
  refine .cons ⟨?_, rfl⟩ (.cons ⟨?_, rfl⟩ (.cons ⟨?_, rfl⟩ (.cons ⟨?_, rfl⟩ (.cons ⟨?_, rfl⟩ (.cons ⟨?_, rfl⟩ (.nil _))))))
  · exact fun h => h rfl
  · exact fun _ => ⟨by decide, by decide, rfl⟩
  all_goals trivial

/-- **The code does what the machine does**: in every run it gives the same answers, and whatever the contract
    allows next, there is an answer to it, which is one that the machine may give. -/
theorem run_answers [AddRightMono T] (hs : s.Fresh) (h : Lts.Run Step s tr) :
    Lts.Run View.Step s.view (seen tr) ∧ Lts.last s.view (seen tr) = (Lts.last s tr).view ∧
      ∀ c, (Lts.last s tr).view.Contract c →
        ∃ ans s', (Lts.last s tr).step c = some (ans, s') ∧ View.Step (Lts.last s tr).view (c, ans) s'.view := by
  obtain ⟨hok, hrun⟩ := run_follows hs.ok h
  refine ⟨hrun, last_seen s tr, fun c hc => ?_⟩
  obtain ⟨ans, s', heq, -, hans, hview⟩ := World.follows hok hc
  exact ⟨ans, s', heq, hc, hans, hview⟩

theorem run_answers_tour :
    Lts.Run View.Step (made : World Int).view (seen (calls made tour)) ∧
      ∃ ans s', (Lts.last (made : World Int) (calls made tour)).step (.ioStop 1) = some (ans, s') := by
  obtain ⟨hrun, -, hnext⟩ := run_answers fresh_made run_tour
  obtain ⟨ans, s', heq, -⟩ := hnext (.ioStop 1) trivial
  exact ⟨hrun, ans, s', heq⟩

/-- **No assertion fails in a run**, whatever the contract allows next; and `activecnt` is the number of running
    watchers and references. -/
theorem run_verifies [AddRightMono T] (hs : s.Fresh) (h : Lts.Run Step s tr) :
    evLoopVerify (Lts.last s tr).loop = decide (-1 ≤ (Lts.last s tr).loop.activecnt) ∧
      (∃ ws : Finset W, (∀ w, w ∈ ws ↔ (Lts.last s tr).view.running w) ∧
        (Lts.last s tr).loop.activecnt = ws.card + (Lts.last s tr).refs) ∧
      ∀ c, (Lts.last s tr).view.Contract c → ∃ ans s', Step (Lts.last s tr) (c, ans) s' := by
  obtain ⟨hok, -⟩ := run_follows hs.ok h
  refine ⟨hok.evLoopVerify_eq, hok.count, fun c hc => ?_⟩
  obtain ⟨ans, s', heq, -⟩ := World.follows hok hc
  exact ⟨ans, s', hc, heq⟩

theorem run_verifies_tour : evLoopVerify (Lts.last (made : World Int) (calls made tour)).loop = true :=
  (run_verifies fresh_made run_tour).1.trans (by decide)

/-- **A watcher is called with exactly the events that it was given** and that were not taken from it. -/
theorem called_with [AddRightMono T] (hs : s.Fresh) (h : Lts.Run Step s tr) {pri : Int} {w : W} {events : Events}
    (hcall : Step (Lts.last s tr) (.invoke pri, .called (some w) events) s') (i : Nat) :
    events.getLsbD i = true ↔ View.GivenIn w i s.view (seen tr) := by
  obtain ⟨hok, hrun⟩ := run_follows hs.ok h
  have hview := (hcall.follows hok).2
  rw [← last_seen] at hview
  exact View.called_iff hrun hs.owed hview

/-- The watcher for the descriptor is the first that is called, since it was given its event last. -/
theorem called_with_tour : View.GivenIn (.io 1) 0 (made : World Int).view (seen (calls made tour)) := by
  have hcall : Step (Lts.last (made : World Int) (calls made tour)) (.invoke 2, .called (some (.io 1)) EV_READ) _ :=
    ⟨trivial, rfl⟩
  exact (called_with fresh_made run_tour hcall 0).mp (by decide)

omit [LinearOrder T] [Zero T] [Add T] [Sub T] in
theorem always_seen {P : Call T × Answer → Prop} (s : World T) (tr : List ((Call T × Answer) × World T)) :
    Lts.Always (fun _ x _ => P x) s.view (seen tr) ↔ Lts.Always (fun _ x _ => P x) s tr := by
  induction tr generalizing s with
  | nil => exact Iff.rfl
  | cons x tr ih => exact and_congr_right fun _ => ih x.2

/-- **A watcher that was stopped is not called** until it is started or fed again. -/
theorem run_silent [AddRightMono T] (hs : s.Fresh) (h : Lts.Run Step s tr) {w : W}
    (hstop : Step (Lts.last s tr) (c, ans) s') (hc : View.Stops w c) {tr' : List ((Call T × Answer) × World T)}
    (h' : Lts.Run Step s' tr') (hno : Lts.Always (fun _ x _ => ¬ View.Wakes w x.1) s' tr') :
    Lts.Always (fun _ x _ => ∀ events, x.2 ≠ .called (some w) events) s' tr' := by
  obtain ⟨hok, -⟩ := run_follows hs.ok h
  obtain ⟨hok', -, -, hview⟩ := hstop.follows hok
  obtain ⟨-, hrun⟩ := run_follows hok' h'
  have hquiet : s'.view.Quiet w := hview ▸ View.quiet_stops hc ans
  exact (always_seen _ _).mp (View.silent hrun hquiet ((always_seen _ _).mpr hno))

/-- The other one is stopped before it is called. -/
theorem run_silent_tour :
    ∃ s' : World Int, Step (Lts.last made (calls made tour)) (.listStop .prepare 1, .done) s' ∧
      Lts.Always (fun _ x _ => ∀ events, x.2 ≠ .called (some (.listed .prepare 1)) events) s'
        (calls s' [.invoke 2, .invoke 2]) := by
  have hstop : Step (Lts.last (made : World Int) (calls made tour)) (.listStop .prepare 1, .done) _ := ⟨trivial, rfl⟩
  refine ⟨_, hstop, ?_⟩
  refine run_silent fresh_made run_tour hstop rfl (.cons ⟨trivial, rfl⟩ (.cons ⟨trivial, rfl⟩ (.nil _))) ?_
  exact ⟨id, id, trivial⟩

/-- **When the loop is about to wait**, the backend knows of each descriptor what its watchers are for. -/
theorem run_synced [AddRightMono T] (hs : s.Fresh) (h : Lts.Run Step s tr)
    (hreify : Step (Lts.last s tr) (.fdReify, ans) s') (fd : Int) {i : Nat} (hi : i < 8) :
    (s'.loop.fds.told fd).getLsbD i = true ↔
      ∃ a, s'.view.Watches fd a ∧ (s'.view.events a).getLsbD i = true := by
  obtain ⟨hok, -⟩ := run_follows hs.ok h
  obtain ⟨-, -, -, hview⟩ := hreify.follows hok
  have heq := hreify.2
  obtain ⟨-, rfl⟩ := Prod.mk.inj (Option.some.inj heq)
  have htold := (hok.synced.fdReify hok.fds).2
  rw [hview, congrFun htold fd, Fds.getLsbD_wanted _ _ hi]
  refine exists_congr fun a => ?_
  rw [hok.fds.listed]
  refine and_congr_right fun ha => ?_
  rw [← hok.events_view ha.1]
  rfl

theorem run_synced_tour :
    ∃ s' : World Int, Step (Lts.last made (calls made (tour.take 3))) (.fdReify, .done) s' ∧
      (s'.loop.fds.told 5).getLsbD 0 = true := by
  have hrun : Lts.Run Step (made : World Int) (calls made (tour.take 3)) := by
    refine .cons ⟨?_, rfl⟩ (.cons ⟨?_, rfl⟩ (.cons ⟨?_, rfl⟩ (.nil _)))
    · exact fun h => h rfl
    · exact fun _ => ⟨by decide, by decide, rfl⟩
    · trivial
  have hreify : Step (Lts.last (made : World Int) (calls made (tour.take 3))) (.fdReify, .done) _ := ⟨trivial, rfl⟩
  exact ⟨_, hreify, (run_synced fresh_made hrun hreify 5 (by decide)).mpr ⟨1, ⟨Nat.one_ne_zero, rfl⟩, rfl⟩⟩

/-! ## Timers -/

/-- The timer is due, and gets an entry of its own. -/
def Enters (s : World T) (a : Nat) : Prop :=
  s.view.Due a ∧ (s.view.repeat_ a = 0 ∨ s.view.owed (.timer a) = none)

/-- The timer is called before the other one. -/
def Before (s : World T) (a b : Nat) : Prop :=
  s.view.priority (.timer b) < s.view.priority (.timer a) ∨
    s.view.priority (.timer a) = s.view.priority (.timer b) ∧ s.view.at_ a < s.view.at_ b

/-- **Timers are called in order**, if the callbacks leave the queue alone: when the loop has looked at the timers,
    of two that are due the one of the higher priority is called first, and if they are of the same priority the one
    that was due first. -/
theorem timers_in_order [AddRightMono T] (hs : s.Fresh) (h : Lts.Run Step s tr)
    (hreify : Step (Lts.last s tr) (.timersReify, ans) s') {calls : List (Option W × Events)} {q : Queue}
    (hcalls : Queue.Invokes (fun _ _ q q' => q' = q) NUMPRI.toNat s'.loop.queue calls q) {a b : Nat}
    (ha : (Lts.last s tr).Enters a) (hb : (Lts.last s tr).Enters b) (hlt : (Lts.last s tr).Before a b) :
    [some (W.timer a), some (W.timer b)].Sublist (calls.map Prod.fst) := by
  obtain ⟨hok, -⟩ := run_follows hs.ok h
  obtain ⟨ws, t, q', hws, hfed, heq⟩ := timersReify_spec hok.timers hok.queue hok.rfeeds fun a => hok.valid (.timer a)
  have hqueue : s'.loop.queue = q' := by
    have hstep := hreify.2
    rw [show World.step (Lts.last s tr) .timersReify = (timersReify (Lts.last s tr).loop).map fun l =>
      (Answer.done, { Lts.last s tr with loop := l }) from rfl, heq] at hstep
    obtain ⟨-, rfl⟩ := Prod.mk.inj (Option.some.inj hstep)
    rfl
  rw [hqueue] at hcalls
  refine hfed.called_in_order hws.mem hws.sorted hcalls ⟨ha.1, ha.2.imp id ?_⟩ ⟨hb.1, hb.2.imp id ?_⟩
    (fun c hc => hok.valid (.timer c) ((hws.mem c).mp hc).1) (hlt.imp ?_ ?_)
  · exact (hok.queue.owed_eq_none_iff _).mp
  · exact (hok.queue.owed_eq_none_iff _).mp
  · exact fun hlower => Int.sub_lt_sub_right hlower _
  · exact fun hsame => ⟨congrArg (· - EV_MINPRI) hsame.1, hsame.2⟩

/-- The timer that is started first is due last. -/
def alarms : List (Call Int) := [.timerSet 1 5 0, .timerStart 1, .timerSet 2 3 0, .timerStart 2, .now 9]

theorem run_alarms : Lts.Run Step (made : World Int) (calls made alarms) := by
  with_unfolding_all
    refine .cons ⟨?_, rfl⟩ (.cons ⟨?_, rfl⟩ (.cons ⟨?_, rfl⟩ (.cons ⟨?_, rfl⟩ (.cons ⟨?_, rfl⟩ (.nil _)))))
  · exact fun h => h rfl
  · exact fun _ => le_rfl
  · exact fun h => h (by with_unfolding_all rfl)
  · exact fun _ => le_rfl
  · trivial

theorem timers_in_order_alarms :
    ∃ (s' : World Int) (calls : List (Option W × Events)) (q : Queue),
      Step (Lts.last made (World.calls made alarms)) (.timersReify, .done) s' ∧
      Queue.Invokes (fun _ _ q q' => q' = q) NUMPRI.toNat s'.loop.queue calls q ∧
      [some (W.timer 2), some (W.timer 1)].Sublist (calls.map Prod.fst) := by
  have hreify : ∃ s', Step (Lts.last (made : World Int) (calls made alarms)) (.timersReify, .done) s' ∧
      ∃ calls q, Queue.Invokes (fun _ _ q q' => q' = q) 5 s'.loop.queue calls q := by
    with_unfolding_all
      refine ⟨_, ⟨trivial, rfl⟩, _, _,
        .lower rfl (.lower rfl (.call rfl rfl (.call rfl rfl (.lower rfl (.lower rfl (.lower rfl (.done _)))))))⟩
  obtain ⟨s', hstep, calls, q, hcalls⟩ := hreify
  refine ⟨s', calls, q, hstep, hcalls, timers_in_order fresh_made run_alarms hstep hcalls ?_ ?_ ?_⟩
  · refine ⟨⟨show (World.loop _).active (.timer 2) ≠ 0 from ?_, ?_⟩, Or.inl ?_⟩ <;> decide +kernel
  · refine ⟨⟨show (World.loop _).active (.timer 1) ≠ 0 from ?_, ?_⟩, Or.inl ?_⟩ <;> decide +kernel
  · refine Or.inr ⟨?_, ?_⟩ <;> decide +kernel

end Runs

end World

end CodeSLoop.Ev
