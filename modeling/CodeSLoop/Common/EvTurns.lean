import CodeSLoop.Common.EvQueue

/-!
# What the callbacks do while the watchers are called (`common/libev/ev.c`)

A callback that is called by `ev_invoke_pending` feeds watchers, stops them and starts them, in any number
and in any order, itself among them (`Deed`). `Turns` is a run of `ev_invoke_pending` together with what
each of the callbacks did in it; nothing is asked of the callbacks but that a watcher that is fed has a
priority that there is an array for.

- what is pending at the beginning is delivered in that run, with all that was fed to it until then, unless
  a callback stops the watcher before its turn (`turns_delivers`)
- what is still pending at the end is what callbacks of lower priorities fed, and an array is empty unless
  one of them did (`turns_leaves`)
-/

namespace CodeSLoop.Ev

/-- What a callback does to the queue: `ev_feed_event`, and what is of `ev_*_stop` and `ev_*_start` there. -/
inductive Deed
  | feed (w : W) (revents : Events)
  | stop (w : W)
  | start (w : W)
deriving DecidableEq, Repr

namespace Deed

def run (q : Queue) : Deed → Queue
  | feed w revents => evFeedEvent q w revents
  | stop w => clearPending q w
  | start w => priAdjust q w

/-- A watcher that is fed has a priority that there is an array for. -/
def Allowed (q : Queue) : Deed → Prop
  | feed w _ => q.Valid w
  | stop _ => True
  | start _ => True

instance (q : Queue) : DecidablePred (Allowed q)
  | feed w _ => inferInstanceAs (Decidable (q.Valid w))
  | stop _ => inferInstanceAs (Decidable True)
  | start _ => inferInstanceAs (Decidable True)

/-- What is owed to a watcher after it. -/
def owe (w : W) (o : Option Events) : Deed → Option Events
  | feed w' revents => if w' = w then Queue.merged o revents else o
  | stop w' => if w' = w then none else o
  | start _ => o

/-- It adds to the array of a priority, if no entry is there that it can be merged with. -/
def Adds (q : Queue) (pri : Int) : Deed → Prop
  | feed w _ => q.abspri w = pri
  | stop _ => False
  | start _ => False

end Deed

/-- Each is allowed when it is done. -/
def AllAllowed : Queue → List Deed → Prop
  | _, [] => True
  | q, d :: ds => d.Allowed q ∧ AllAllowed (d.run q) ds

instance decidableAllAllowed : ∀ (q : Queue) (ds : List Deed), Decidable (AllAllowed q ds)
  | _, [] => inferInstanceAs (Decidable True)
  | q, d :: ds => @instDecidableAnd _ _ _ (decidableAllAllowed (d.run q) ds)

/-- A watcher is called, or `pendingcb` for one that was stopped, and does this. -/
structure Turn where
  pri : Nat
  w : Option W
  events : Events
  deeds : List Deed

/-- The queue after it. -/
def Turn.run (q : Queue) (t : Turn) : Queue := t.deeds.foldl Deed.run (takeLast q t.pri t.w)

/-- **A run of `ev_invoke_pending`**, for the priorities below a number, with what the callbacks do. -/
inductive Turns : Nat → Queue → List Turn → Queue → Prop
  | done (q : Queue) : Turns 0 q [] q
  | lower {pri : Nat} {q q' : Queue} {ts : List Turn} :
      invokeTurn q pri = none → Turns pri q ts q' → Turns (pri + 1) q ts q'
  | call {t : Turn} {q q1 q' : Queue} {ts : List Turn} :
      invokeTurn q t.pri = some ((t.w, t.events), q1) → (t.w = none → t.deeds = []) → AllAllowed q1 t.deeds →
        Turns (t.pri + 1) (t.deeds.foldl Deed.run q1) ts q' → Turns (t.pri + 1) q (t :: ts) q'

namespace Queue

variable {q q' : Queue} {w : W} {d : Deed} {ds : List Deed} {n : Nat} {ts : List Turn} {pri : Int}

/-- It is `Invokes`, for callbacks that are made of such deeds. -/
theorem invokes_iff_turns {calls : List (Option W × Events)} :
    Invokes (fun _ _ q q' => ∃ ds, AllAllowed q ds ∧ q' = ds.foldl Deed.run q) n q calls q' ↔
      ∃ ts, (ts.map fun t => (t.w, t.events)) = calls ∧ Turns n q ts q' := by
  constructor
  · intro h
    induction h with
    | done q => exact ⟨[], rfl, .done q⟩
    | lower hturn _ ih =>
      obtain ⟨ts, rfl, hts⟩ := ih
      exact ⟨ts, rfl, .lower hturn hts⟩
    | @call pri q q1 q2 q' c calls hturn hcall _ ih =>
      obtain ⟨ts, rfl, hts⟩ := ih
      obtain ⟨o, events⟩ := c
      cases o with
      | none =>
        obtain rfl : q2 = q1 := hcall
        let t : Turn := ⟨pri, none, events, []⟩
        exact ⟨t :: ts, rfl, .call (t := t) hturn (fun _ => rfl) trivial hts⟩
      | some w =>
        obtain ⟨ds, hall, rfl⟩ : ∃ ds, AllAllowed q1 ds ∧ q2 = ds.foldl Deed.run q1 := hcall
        let t : Turn := ⟨pri, some w, events, ds⟩
        have hsome : t.w = none → t.deeds = [] := fun hnone => absurd hnone (Option.some_ne_none w)
        exact ⟨t :: ts, rfl, .call hturn hsome hall hts⟩
  · rintro ⟨ts, rfl, h⟩
    induction h with
    | done q => exact .done q
    | lower hturn _ ih => exact .lower hturn ih
    | @call t q q1 q' ts hturn hnone hall _ ih =>
      obtain ⟨pri, o, events, deeds⟩ := t
      refine .call hturn ?_ ih
      cases o with
      | none =>
        obtain rfl : deeds = [] := hnone rfl
        exact rfl
      | some w => exact ⟨deeds, hall, rfl⟩

/-! ## One deed -/

theorem valid_run (hw : q.Valid w) (d : Deed) : (d.run q).Valid w ∧ (d.run q).abspri w = q.abspri w := by
  have hkept {q' : Queue} (h : q'.abspri w = q.abspri w) : q'.Valid w ∧ q'.abspri w = q.abspri w :=
    ⟨by rwa [Valid, h], h⟩
  cases d with
  | feed w' revents => exact hkept (abspri_evFeedEvent w)
  | stop w' => exact hkept (abspri_clearPending w)
  | start w' =>
    by_cases hww : w = w'
    · subst hww
      exact hkept (congrArg (fun q : Queue => q.abspri w) (priAdjust_of_valid hw))
    · exact hkept (abspri_priAdjust_of_ne hww)

/-- **What a deed does** to what is owed. -/
theorem Ok.deed (h : q.Ok) (hd : d.Allowed q) : (d.run q).Ok ∧ (d.run q).owed w = d.owe w (q.owed w) := by
  cases d with
  | feed w' revents =>
    refine ⟨h.feed hd revents, ?_⟩
    rw [show (Deed.feed w' revents).run q = evFeedEvent q w' revents from rfl, h.owed_feed, Deed.owe]
    by_cases hww : w' = w
    · rw [hww, Function.update_self, if_pos rfl]
    · rw [Function.update_of_ne (Ne.symm hww), if_neg hww]
  | stop w' =>
    refine ⟨h.clear w', ?_⟩
    rw [show (Deed.stop w').run q = clearPending q w' from rfl, h.owed_clear, Deed.owe]
    by_cases hww : w' = w
    · rw [hww, Function.update_self, if_pos rfl]
    · rw [Function.update_of_ne (Ne.symm hww), if_neg hww]
  | start w' => exact ⟨h.priAdjust w', congrFun (h.owed_priAdjust w') w⟩

/-- The watcher has an entry in the array already, or it gets one. -/
theorem Ok.pendings_run (h : q.Ok) (d : Deed) :
    (d.run q).pendings pri = [] ↔ q.pendings pri = [] ∧ ¬ d.Adds q pri := by
  have hmodify (pri' : Int) (i : Nat) (f : Option W × Events → Option W × Events) :
      Function.update q.pendings pri' ((q.pendings pri').modify i f) pri = [] ↔ q.pendings pri = [] := by
    by_cases heq : pri = pri'
    · rw [heq, Function.update_self]
      exact List.modify_eq_nil_iff
    · rw [Function.update_of_ne heq]
  cases d with
  | feed w' revents =>
    rw [show (Deed.feed w' revents).run q = evFeedEvent q w' revents from rfl, Deed.Adds]
    by_cases hw : q.pending w' = 0
    · rw [evFeedEvent_append hw]
      show Function.update _ _ _ _ = _ ↔ _
      by_cases heq : pri = q.abspri w'
      · simp [heq]
      · simp [heq, Ne.symm heq]
    · rw [evFeedEvent_merge hw]
      refine (hmodify _ _ _).trans (iff_self_and.mpr fun hnil heq => ?_)
      obtain ⟨v, hv⟩ := (h.agenda (q.abspri w')).entry (by rwa [place_agenda])
      change (q.pendings (q.abspri w'))[_]? = _ at hv
      rw [heq, hnil] at hv
      exact absurd hv (by simp)
  | stop w' =>
    rw [show (Deed.stop w').run q = clearPending q w' from rfl, Deed.Adds, not_false_eq_true, and_true]
    by_cases hw : q.pending w' = 0
    · rw [clearPending_none hw]
    · rw [clearPending_some hw]
      exact hmodify _ _ _
  | start w' =>
    rw [Deed.Adds, not_false_eq_true, and_true]
    rfl

/-! ## What a callback does -/

theorem valid_deeds (hw : q.Valid w) (ds : List Deed) :
    (ds.foldl Deed.run q).Valid w ∧ (ds.foldl Deed.run q).abspri w = q.abspri w := by
  induction ds generalizing q with
  | nil => exact ⟨hw, rfl⟩
  | cons d ds ih =>
    obtain ⟨hw1, hpri1⟩ := valid_run hw d
    obtain ⟨hw2, hpri2⟩ := ih hw1
    exact ⟨hw2, hpri2.trans hpri1⟩

theorem Ok.deeds (h : q.Ok) (hds : AllAllowed q ds) :
    (ds.foldl Deed.run q).Ok ∧ (ds.foldl Deed.run q).owed w = ds.foldl (Deed.owe w) (q.owed w) := by
  induction ds generalizing q with
  | nil => exact ⟨h, rfl⟩
  | cons d ds ih =>
    obtain ⟨hok, howed⟩ := h.deed (w := w) hds.1
    obtain ⟨hok', howed'⟩ := ih hok hds.2
    exact ⟨hok', howed'.trans (by rw [howed]; rfl)⟩

/-- A watcher that is fed has its priority from then on. -/
theorem Ok.valid_fed (hds : AllAllowed q ds) {revents : Events} (hmem : .feed w revents ∈ ds) :
    (ds.foldl Deed.run q).Valid w := by
  induction ds generalizing q with
  | nil => exact absurd hmem (by simp)
  | cons d ds ih =>
    rcases List.mem_cons.mp hmem with rfl | hmem
    · exact (valid_deeds (valid_run hds.1 _).1 ds).1
    · exact ih hds.2 hmem

/-- An array is empty after a callback if it was so before, and nobody of that priority was fed. -/
theorem Ok.pendings_deeds (h : q.Ok) (hds : AllAllowed q ds) :
    (ds.foldl Deed.run q).pendings pri = [] ↔
      q.pendings pri = [] ∧ ∀ w revents, .feed w revents ∈ ds → (ds.foldl Deed.run q).abspri w ≠ pri := by
  induction ds generalizing q with
  | nil => simp
  | cons d ds ih =>
    obtain ⟨hok, -⟩ := h.deed (w := .io 0) hds.1
    rw [List.foldl_cons, ih hok hds.2, h.pendings_run, and_assoc]
    refine and_congr_right fun _ => ⟨?_, fun hall => ⟨?_, fun w revents hmem => ?_⟩⟩
    · rintro ⟨hd, hall⟩ w revents hmem
      rcases List.mem_cons.mp hmem with rfl | hmem
      · obtain ⟨hvalid, hpri⟩ := valid_run hds.1 (.feed w revents)
        rw [(valid_deeds hvalid ds).2, hpri]
        exact hd
      · exact hall w revents hmem
    · cases d with
      | feed w revents =>
        obtain ⟨hvalid, hpri⟩ := valid_run hds.1 (.feed w revents)
        have hne := hall w revents List.mem_cons_self
        rwa [(valid_deeds hvalid ds).2, hpri] at hne
      | stop w => exact not_false
      | start w => exact not_false
    · exact hall w revents (List.mem_cons_of_mem _ hmem)

/-! ## What is delivered, and what is left -/

theorem valid_takeLast (o : Option W) : (takeLast q pri o).Valid w ↔ q.Valid w := Iff.rfl

/-- A watcher keeps a priority that there is an array for. -/
theorem valid_turns (h : Turns n q ts q') (hw : q.Valid w) : q'.Valid w ∧ q'.abspri w = q.abspri w := by
  induction h with
  | done q => exact ⟨hw, rfl⟩
  | lower _ _ ih => exact ih hw
  | @call t q q1 q' ts hturn _ _ _ ih =>
    obtain ⟨-, rfl⟩ := invokeTurn_eq_some.mp hturn
    obtain ⟨hw2, hpri2⟩ := valid_deeds ((valid_takeLast t.w).mpr hw) t.deeds
    obtain ⟨hw', hpri'⟩ := ih hw2
    exact ⟨hw', hpri'.trans hpri2⟩

theorem Ok.valid_of_owed (h : q.Ok) {events : Events} (hw : q.owed w = some events) : q.Valid w := by
  refine h.valid w fun hnone => ?_
  rw [(h.owed_eq_none_iff w).mpr hnone] at hw
  cases hw

theorem owed_of_empty (hpri : q.pendings (q.abspri w) = []) : q.owed w = none := by
  rw [owed, agenda, hpri]
  simp [Agenda.value]

/-- Nothing but a stop makes less of what is owed. -/
theorem owe_of_kept (hds : .stop w ∉ ds) (events : Events) :
    ∃ more, ds.foldl (Deed.owe w) (some events) = some (events ||| more) := by
  induction ds generalizing events with
  | nil => exact ⟨0, by simp⟩
  | cons d ds ih =>
    have hrest : .stop w ∉ ds := fun hmem => hds (List.mem_cons_of_mem _ hmem)
    rw [List.foldl_cons]
    cases d with
    | feed w' revents =>
      by_cases hww : w' = w
      · obtain ⟨more, hmore⟩ := ih hrest (events ||| revents)
        refine ⟨revents ||| more, ?_⟩
        rw [Deed.owe, if_pos hww, merged, Option.elim_some, hmore, BitVec.or_assoc]
      · rw [Deed.owe, if_neg hww]
        exact ih hrest events
    | stop w' =>
      have hww : w' ≠ w := by
        rintro rfl
        exact hds List.mem_cons_self
      rw [Deed.owe, if_neg hww]
      exact ih hrest events
    | start w' => exact ih hrest events

/-- **`ev_invoke_pending` delivers what is pending** when it begins. Somebody is the first to call the watcher or
    to stop it, and the call is with all that was fed to it until then. -/
theorem turns_delivers (h : Turns NUMPRI.toNat q ts q') (hok : q.Ok) {events : Events} (hw : q.owed w = some events) :
    ∃ ts1 t ts2, ts = ts1 ++ t :: ts2 ∧ (∀ t' ∈ ts1, t'.w ≠ some w ∧ .stop w ∉ t'.deeds) ∧
      (t.w = some w ∧ some t.events = (ts1.flatMap Turn.deeds).foldl (Deed.owe w) (some events) ∧
          (∃ more, t.events = events ||| more) ∨
        t.w ≠ some w ∧ .stop w ∈ t.deeds) := by
  have hrun {n : Nat} {q q' : Queue} {ts : List Turn} {events : Events} (h : Turns n q ts q') (hok : q.Ok)
      (hw : q.owed w = some events) (hpri : q.abspri w < n) :
      ∃ ts1 t ts2, ts = ts1 ++ t :: ts2 ∧ (∀ t' ∈ ts1, t'.w ≠ some w ∧ .stop w ∉ t'.deeds) ∧
        (t.w = some w ∧ some t.events = (ts1.flatMap Turn.deeds).foldl (Deed.owe w) (some events) ∨
          t.w ≠ some w ∧ .stop w ∈ t.deeds) := by
    induction h generalizing events with
    | done q =>
      have hzero := (hok.valid_of_owed hw).1
      exact absurd hpri (by simpa using hzero)
    | @lower n q q' ts hturn _ ih =>
      have hne : q.abspri w ≠ n := by
        intro heq
        rw [owed_of_empty (by rw [heq]; exact invokeTurn_eq_none.mp hturn)] at hw
        cases hw
      exact ih hok hw (by omega)
    | @call t q q1 q' ts hturn _ hall _ ih =>
      obtain ⟨hok1, hcalled, howed1⟩ := hok.invoke hturn
      by_cases ho : t.w = some w
      · refine ⟨[], t, ts, rfl, by simp, Or.inl ⟨ho, ?_⟩⟩
        exact (hcalled w ho).2.symm.trans hw
      · by_cases hstop : .stop w ∈ t.deeds
        · exact ⟨[], t, ts, rfl, by simp, Or.inr ⟨ho, hstop⟩⟩
        · have hw1 : q1.owed w = some events := by
            rw [howed1]
            exact (if_neg ho).trans hw
          obtain ⟨hok2, howed2⟩ := hok1.deeds (w := w) hall
          have hpri2 := (valid_deeds (hok1.valid_of_owed hw1) t.deeds).2
          have hpri1 : q1.abspri w = q.abspri w := by
            obtain ⟨-, rfl⟩ := invokeTurn_eq_some.mp hturn
            rfl
          obtain ⟨more, hmore⟩ := owe_of_kept hstop events
          rw [hw1] at howed2
          obtain ⟨ts1, t', ts2, rfl, hbefore, hlast⟩ :=
            ih hok2 (howed2.trans hmore) (by rw [hpri2, hpri1]; exact hpri)
          refine ⟨t :: ts1, t', ts2, rfl, List.forall_mem_cons.mpr ⟨⟨ho, hstop⟩, hbefore⟩, ?_⟩
          rwa [List.flatMap_cons, List.foldl_append, hmore]
  obtain ⟨ts1, t, ts2, hts, hbefore, hlast⟩ := hrun h hok hw (hok.valid_of_owed hw).2
  refine ⟨ts1, t, ts2, hts, hbefore, hlast.imp_left fun ⟨ho, hevents⟩ => ⟨ho, hevents, ?_⟩⟩
  have hnostop : .stop w ∉ ts1.flatMap Turn.deeds := by
    intro hmem
    obtain ⟨t', ht', hstop⟩ := List.mem_flatMap.mp hmem
    exact (hbefore t' ht').2 hstop
  obtain ⟨more, hmore⟩ := owe_of_kept hnostop events
  exact ⟨more, Option.some.inj (hevents.trans hmore)⟩

/-- A timer of priority 2, a descriptor of priority 0 and one of priority -2, all of them pending. -/
def threePending : Queue :=
  let q := ((empty.ranked (.timer 2) 2).ranked (.io 3) (-2)).ranked (.io 5) 1
  evFeedEvent (evFeedEvent (evFeedEvent q (.timer 2) 256) (.io 1) 1) (.io 3) 1

/-- The callback of the timer stops a descriptor that is pending and feeds two others; the one of these that is
    called first feeds the other again, and the timer. The last callback feeds the timer, too. -/
def busyTurns : List Turn :=
  [⟨4, some (.timer 2), 256, [.feed (.io 5) 2, .stop (.io 1), .start (.io 6), .feed (.io 6) 1]⟩,
    ⟨3, some (.io 5), 2, [.feed (.io 6) 2, .feed (.timer 2) 512]⟩,
    ⟨2, some (.io 6), 3, [.stop (.io 6)]⟩,
    ⟨2, none, 1, []⟩,
    ⟨0, some (.io 3), 1, [.feed (.timer 2) 256]⟩]

theorem ok_threePending : threePending.Ok := by
  have h2 : (empty.ranked (.timer 2) 2).Ok := ok_empty.ranked rfl 2
  have h3 : ((empty.ranked (.timer 2) 2).ranked (.io 3) (-2)).Ok := h2.ranked rfl (-2)
  have h5 : (((empty.ranked (.timer 2) 2).ranked (.io 3) (-2)).ranked (.io 5) 1).Ok := h3.ranked rfl 1
  exact ((h5.feed (w := .timer 2) (by decide) 256).feed (w := .io 1) (by decide) 1).feed (w := .io 3) (by decide) 1

theorem turns_threePending : Turns 5 threePending busyTurns (busyTurns.foldl Turn.run threePending) := by
  refine .call (t := ⟨4, _, _, _⟩) rfl (by decide) (by decide) ?_
  refine .lower rfl (.call (t := ⟨3, _, _, _⟩) rfl (by decide) (by decide) ?_)
  refine .lower rfl (.call (t := ⟨2, _, _, _⟩) rfl (by decide) (by decide) ?_)
  refine .call (t := ⟨2, none, 1, []⟩) rfl (by decide) (by decide) ?_
  refine .lower rfl (.lower rfl ?_)
  refine .call (t := ⟨0, some (.io 3), 1, [.feed (.timer 2) 256]⟩) rfl (by decide) (by decide) ?_
  exact .lower rfl (.done _)

theorem turns_delivers_busy :
    (∃ t ∈ busyTurns, t.w = some (.io 3) ∧ ∃ more, t.events = 1 ||| more) ∧
      ∃ t ∈ busyTurns, .stop (.io 1) ∈ t.deeds := by
  have h3 : threePending.owed (.io 3) = some 1 := rfl
  have h1 : threePending.owed (.io 1) = some 1 := rfl
  constructor
  · obtain ⟨ts1, t, ts2, hts, -, hlast⟩ := turns_delivers turns_threePending ok_threePending h3
    have hmem : t ∈ busyTurns := hts ▸ List.mem_append_right _ List.mem_cons_self
    rcases hlast with ⟨ho, -, hmore⟩ | ⟨-, hstop⟩
    · exact ⟨t, hmem, ho, hmore⟩
    · exact absurd hstop ((show ∀ t ∈ busyTurns, .stop (.io 3) ∉ t.deeds by decide) t hmem)
  · obtain ⟨ts1, t, ts2, hts, -, hlast⟩ := turns_delivers turns_threePending ok_threePending h1
    have hmem : t ∈ busyTurns := hts ▸ List.mem_append_right _ List.mem_cons_self
    rcases hlast with ⟨ho, -⟩ | ⟨-, hstop⟩
    · exact absurd ho ((show ∀ t ∈ busyTurns, t.w ≠ some (.io 1) by decide) t hmem)
    · exact ⟨t, hmem, hstop⟩

/-- What is done in the turns of a lower priority. -/
def doneBelow (ts : List Turn) (pri : Int) : List Deed :=
  (ts.filter fun t => (t.pri : Int) < pri).flatMap Turn.deeds

theorem doneBelow_cons (t : Turn) (ts : List Turn) (pri : Int) :
    doneBelow (t :: ts) pri = (if (t.pri : Int) < pri then t.deeds else []) ++ doneBelow ts pri := by
  rw [doneBelow, List.filter_cons]
  by_cases hlt : (t.pri : Int) < pri
  · simp [hlt, doneBelow]
  · simp [hlt, doneBelow]

/-- What is owed at the end, for a run of the priorities below `n`: what was so above of it at the beginning, and
    what was done to it from below. -/
theorem Ok.owed_turns (h : Turns n q ts q') (hok : q.Ok) (w : W) :
    q'.owed w =
      (doneBelow ts (q'.abspri w)).foldl (Deed.owe w) (if (n : Int) ≤ q'.abspri w then q.owed w else none) := by
  induction h with
  | done q =>
    cases hw : q.owed w with
    | none => exact (ite_self none).symm
    | some events => exact (if_pos (hok.valid_of_owed hw).1).symm
  | @lower n q q' ts hturn hrest ih =>
    rw [ih hok]
    congr 1
    by_cases heq : q'.abspri w = n
    · have hnone : q.owed w = none := by
        refine Option.eq_none_iff_forall_ne_some.mpr fun events hw => ?_
        have hsame := (valid_turns hrest (hok.valid_of_owed hw)).2
        rw [owed_of_empty (by rw [← hsame, heq]; exact invokeTurn_eq_none.mp hturn)] at hw
        cases hw
      rw [hnone, ite_self, ite_self]
    · simp only [show (n : Int) ≤ q'.abspri w ↔ ((n + 1 : Nat) : Int) ≤ q'.abspri w by omega]
  | @call t q q1 q' ts hturn hnone hall hrest ih =>
    obtain ⟨hok1, hcalled, howed1⟩ := hok.invoke hturn
    obtain ⟨hok2, howed2⟩ := hok1.deeds (w := w) hall
    rw [ih hok2, doneBelow_cons, List.foldl_append]
    congr 1
    by_cases hlt : (t.pri : Int) < q'.abspri w
    · have ho : t.w ≠ some w := by
        intro ho
        obtain ⟨hpri, hw⟩ := hcalled w ho
        have hsame := (valid_turns (.call hturn hnone hall hrest) (hok.valid_of_owed hw)).2
        omega
      rw [if_pos (by omega), if_pos (by omega), if_pos hlt, howed2, howed1]
      exact congrArg (fun o => t.deeds.foldl (Deed.owe w) o) (if_neg ho)
    · rw [if_neg (by omega), if_neg (by omega), if_neg hlt]
      rfl

/-- An array at the end, in the same way. -/
theorem Ok.pendings_turns (h : Turns n q ts q') (hok : q.Ok) (hpri : 0 ≤ pri) :
    q'.pendings pri = [] ↔
      ((n : Int) ≤ pri → q.pendings pri = []) ∧
        ∀ w revents, .feed w revents ∈ doneBelow ts pri → q'.abspri w ≠ pri := by
  induction h with
  | done q => simp [hpri, doneBelow]
  | @lower n q q' ts hturn _ ih =>
    rw [ih hok]
    refine and_congr_left fun _ => ⟨fun hall hle => hall (by omega), fun hall hle => ?_⟩
    by_cases heq : pri = n
    · exact heq ▸ invokeTurn_eq_none.mp hturn
    · exact hall (by omega)
  | @call t q q1 q' ts hturn _ hall hrest ih =>
    obtain ⟨hok1, -, -⟩ := hok.invoke hturn
    obtain ⟨hok2, -⟩ := hok1.deeds (w := .io 0) hall
    rw [ih hok2, hok1.pendings_deeds hall, doneBelow_cons]
    by_cases hlt : (t.pri : Int) < pri
    · have hle : ((t.pri + 1 : Nat) : Int) ≤ pri := by omega
      have hsame : q1.pendings pri = q.pendings pri := by
        obtain ⟨-, rfl⟩ := invokeTurn_eq_some.mp hturn
        exact Function.update_of_ne (by omega) _ _
      have hfed (w : W) (revents : Events) (hmem : .feed w revents ∈ t.deeds) :
          q'.abspri w = (t.deeds.foldl Deed.run q1).abspri w := (valid_turns hrest (valid_fed hall hmem)).2
      simp only [hle, forall_const, hlt, if_true, List.mem_append, or_imp, forall_and, hsame, and_assoc]
      refine and_congr_right fun _ => and_congr_left fun _ => ?_
      exact forall₃_congr fun w revents hmem => by rw [hfed w revents hmem]
    · simp only [hlt, if_false, List.nil_append]
      refine and_congr_left fun _ => ⟨fun _ hle => ?_, fun _ hle => ?_⟩
      · omega
      · omega

/-- **What `ev_invoke_pending` leaves**: nothing is owed at the end but what callbacks of lower priorities than the
    watcher's have fed to it, and an array is empty unless one of them has fed somebody of its priority. -/
theorem turns_leaves (h : Turns NUMPRI.toNat q ts q') (hok : q.Ok) :
    (∀ w, q'.owed w = (doneBelow ts (q'.abspri w)).foldl (Deed.owe w) none) ∧
      ∀ pri, 0 ≤ pri → pri < NUMPRI →
        (q'.pendings pri = [] ↔ ∀ w revents, .feed w revents ∈ doneBelow ts pri → q'.abspri w ≠ pri) := by
  refine ⟨fun w => ?_, fun pri hpri hlt => ?_⟩
  · rw [hok.owed_turns h]
    congr 1
    by_cases hle : ((NUMPRI.toNat : Nat) : Int) ≤ q'.abspri w
    · rw [if_pos hle]
      refine Option.eq_none_iff_forall_ne_some.mpr fun events hw => ?_
      obtain ⟨hvalid, hsame⟩ := valid_turns h (hok.valid_of_owed hw)
      exact absurd hvalid.2 (Int.not_lt.mpr (hsame ▸ hle))
    · rw [if_neg hle]
  · rw [hok.pendings_turns h hpri]
    exact and_iff_right fun hle => absurd hlt (Int.not_lt.mpr hle)

theorem turns_leaves_busy :
    (busyTurns.foldl Turn.run threePending).owed (.timer 2) = some 768 ∧
      (busyTurns.foldl Turn.run threePending).owed (.io 5) = none ∧
      (busyTurns.foldl Turn.run threePending).pendings 2 = [] := by
  obtain ⟨howed, hempty⟩ := turns_leaves turns_threePending ok_threePending
  refine ⟨(howed _).trans rfl, (howed _).trans rfl, (hempty 2 (by decide) (by decide)).mpr fun w revents hmem => ?_⟩
  rw [show doneBelow busyTurns 2 = [.feed (.timer 2) 256] from rfl, List.mem_singleton] at hmem
  obtain ⟨rfl, -⟩ := Deed.feed.inj hmem
  decide

end Queue

end CodeSLoop.Ev
