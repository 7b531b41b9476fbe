import CodeSLoop.Common.EvTimers
import Mathlib.Data.Finset.Card
import Mathlib.Data.Finset.Image
import Mathlib.Data.List.Flatten

/-!
# Timers that are due (`common/libev/ev.c`)

`timers_reify` takes the first timer of the heap as long as it is due. One that repeats is rescheduled,
but not to a time that is past; any other one is stopped. So each timer that is due is dealt with once, no other
one is touched, and the loop ends (`reifyLoop_spec`).

The timers are kept as they come, and fed in reverse (`timersReify_spec`). The last entry of an array is called
first, so of the timers that were not pending those that were due first are called first (`Fed.called_in_order`).

`timers_reschedule` moves all timers when the clock has jumped. The heap stays in order if sums do not turn
the order around.
-/

namespace CodeSLoop.Ev

open DaryHeap (Ordered)

universe v

/-! ## The first timer -/

namespace Timers

variable {T : Type v} [LinearOrder T] [Zero T] {t t' : Timers T} {a b : Nat}

/-- An active timer whose time is past. -/
def Due (t : Timers T) (a : Nat) : Prop := t.heap.active a ≠ 0 ∧ t.at_ a < t.mnNow

instance (t : Timers T) : DecidablePred t.Due := fun _ => inferInstanceAs (Decidable (_ ∧ _))

/-- The timer that is first in the heap. -/
def first (t : Timers T) : Nat := (t.heap.heap HEAP0).w

omit [LinearOrder T] [Zero T] in
theorem inHeap_root (h : t.timercnt ≠ 0) : InHeap t.timercnt HEAP0 := ⟨le_rfl, by omega⟩

theorem Ok.active_first (ht : t.Ok) (h : t.timercnt ≠ 0) : t.heap.active t.first ≠ 0 := by
  rw [first, ht.active _ (inHeap_root h)]
  exact inHeap_ne_zero (inHeap_root h)

/-- No timer comes before the first one. -/
theorem Ok.first_le (ht : t.Ok) (ha : t.heap.active a ≠ 0) : t.at_ t.first ≤ t.at_ a := by
  obtain ⟨hk, hka⟩ := ht.placed a ha
  have hcnt : t.timercnt ≠ 0 := by
    have := hk.1
    have := hk.2
    omega
  have hle := ht.ordered.root_le hk.1 hk.2
  rw [keys, keys, ht.cached _ (inHeap_root hcnt), ht.cached _ hk, hka] at hle
  exact hle

theorem Ok.due_first (ht : t.Ok) (h : t.First) : t.Due t.first := by
  refine ⟨ht.active_first h.1, ?_⟩
  have hcached := ht.cached _ (inHeap_root h.1)
  rw [first, ← hcached]
  exact h.2

/-- **The first timer is due if any is.** -/
theorem Ok.first_iff (ht : t.Ok) : t.First ↔ ∃ a, t.Due a := by
  constructor
  · intro h
    exact ⟨_, ht.due_first h⟩
  · rintro ⟨a, ha, hlt⟩
    have hcnt : t.timercnt ≠ 0 := by
      have hk := (ht.placed a ha).1
      have := hk.1
      have := hk.2
      omega
    refine ⟨hcnt, ?_⟩
    rw [ht.cached _ (inHeap_root hcnt)]
    exact (ht.first_le ha).trans_lt hlt

/-- The timers that are due are no more than there are. -/
theorem Ok.exists_due (ht : t.Ok) : ∃ ds : Finset Nat, (∀ a, a ∈ ds ↔ t.Due a) ∧ ds.card ≤ t.timercnt := by
  refine ⟨((Finset.range t.timercnt).image fun i => (t.heap.heap (i + HEAP0)).w).filter t.Due, fun a => ?_, ?_⟩
  · rw [Finset.mem_filter, and_iff_right_iff_imp]
    intro hdue
    obtain ⟨hk, hka⟩ := ht.placed a hdue.1
    refine Finset.mem_image.mpr ⟨t.heap.active a - HEAP0, ?_, ?_⟩
    · have := hk.1
      have := hk.2
      rw [Finset.mem_range]
      omega
    · rw [Nat.sub_add_cancel hk.1, hka]
  · refine (Finset.card_filter_le _ _).trans ?_
    exact Finset.card_image_le.trans (Finset.card_range _).le

variable [Add T] [Sub T]

/-- The timestamp of a timer that was due: the next one, or what it is when it is stopped. -/
def expired (t : Timers T) (a : Nat) : T :=
  if t.repeat_ a ≠ 0 then
    if t.at_ a + t.repeat_ a < t.mnNow then t.mnNow else t.at_ a + t.repeat_ a
  else t.at_ a - t.mnNow

/-- **The timers `ws` were due**, in this sequence: those that do not repeat are not active any more. -/
structure Expired (t t' : Timers T) (ws : List Nat) : Prop where
  gives : t.To t' (fun b => t.heap.active b ≠ 0 ∧ ¬ (t.Due b ∧ t.repeat_ b = 0))
    (fun b => if t.Due b then t.expired b else t.at_ b)
  mem : ∀ a, a ∈ ws ↔ t.Due a
  nodup : ws.Nodup
  sorted : ws.Pairwise fun a b => t.at_ a ≤ t.at_ b

end Timers

/-! ## The loop -/

section Loop

variable {T : Type v} [LinearOrder T] [Zero T] [Add T] [Sub T] {l : Loop T}

/-- What becomes of the queue when a timer was due. -/
def taken (t : Timers T) (q : Queue) (a : Nat) : Queue :=
  feedReverse (if t.repeat_ a ≠ 0 then q else clearPending q (.timer a)) (.timer a)

/-- **A turn of the loop**: the assertion on `repeat` does not fail. -/
theorem reschedule_spec (hl : l.timers.Ok) (h : l.timers.First) :
    ∃ t, l.timers.To t
        (fun b => l.timers.heap.active b ≠ 0 ∧ (b ≠ l.timers.first ∨ l.timers.repeat_ l.timers.first ≠ 0))
        (Function.update l.timers.at_ l.timers.first (l.timers.expired l.timers.first)) ∧
      reschedule l = some
        { l with
          queue :=
            if l.timers.repeat_ l.timers.first ≠ 0 then l.queue else clearPending l.queue (.timer l.timers.first)
          timers := t
          activecnt := l.activecnt - if l.timers.repeat_ l.timers.first ≠ 0 then 0 else 1 } := by
  have hactive := hl.active_first h.1
  by_cases hrepeat : l.timers.repeat_ l.timers.first = 0
  · obtain ⟨t, ht, heq⟩ := evTimerStop_spec hl hactive
    have hexpired : l.timers.expired l.timers.first = l.timers.at_ l.timers.first - l.timers.mnNow :=
      if_neg (not_not_intro hrepeat)
    refine ⟨t, ?_, ?_⟩
    · rw [hexpired]
      refine ⟨ht.ok, fun b => (ht.active b).trans ?_, ht.at_, ht.repeat_, ht.mnNow⟩
      simp [hrepeat, and_comm]
    · rw [if_neg (not_not_intro hrepeat), if_neg (not_not_intro hrepeat), ← heq]
      exact if_neg (not_not_intro hrepeat)
  · have hroot := Timers.inHeap_root h.1
    obtain ⟨happ, hknown, haround⟩ := hl.around_withAt HEAP0 (l.timers.expired l.timers.first)
    obtain ⟨hfrom, hord⟩ := downheap_spec hroot happ hknown haround.down_root
    obtain ⟨hok, hiff⟩ := hl.of_withAt hfrom hroot hord
    have hpos : l.timers.repeat_ l.timers.first > 0 := lt_of_le_of_ne (hl.repeat_ _ hactive) (Ne.symm hrepeat)
    have hexpired : l.timers.expired l.timers.first =
        if l.timers.at_ l.timers.first + l.timers.repeat_ l.timers.first < l.timers.mnNow then l.timers.mnNow
        else l.timers.at_ l.timers.first + l.timers.repeat_ l.timers.first := if_pos hrepeat
    refine ⟨_, ⟨hok, fun b => (hiff b).trans ?_, rfl, rfl, rfl⟩, ?_⟩
    · simp [hrepeat]
    · rw [if_pos hrepeat, if_pos hrepeat, Int.sub_zero, reschedule]
      dsimp only
      change (if l.timers.repeat_ l.timers.first ≠ 0 then _ else _) = _
      rw [if_pos hrepeat]
      change (if ¬ l.timers.repeat_ l.timers.first > 0 then _ else _) = _
      rw [if_neg (not_not_intro hpos), hexpired]
      rfl

/-- After a turn the other timers are due that were, and the one that was dealt with is not. -/
theorem due_reschedule {t t' : Timers T}
    (hto : t.To t' (fun b => t.heap.active b ≠ 0 ∧ (b ≠ t.first ∨ t.repeat_ t.first ≠ 0))
      (Function.update t.at_ t.first (t.expired t.first))) (b : Nat) :
    t'.Due b ↔ t.Due b ∧ b ≠ t.first := by
  unfold Timers.Due
  rw [hto.active, hto.at_, hto.mnNow]
  by_cases hb : b = t.first
  · subst hb
    rw [Function.update_self]
    simp only [ne_eq, not_true_eq_false, and_false, iff_false, false_or, not_and, not_lt]
    rintro ⟨-, hrepeat⟩
    rw [Timers.expired, if_pos hrepeat]
    split
    · exact le_rfl
    · exact le_of_not_gt ‹_›
  · simp only [Function.update_of_ne hb, ne_eq, hb, not_false_eq_true, true_or, and_true]

/-- **The loop deals with each timer that is due**, and ends. -/
theorem reifyLoop_spec (n : Nat) (hl : l.timers.Ok) {ds : Finset Nat} (hds : ∀ a, a ∈ ds ↔ l.timers.Due a)
    (hn : ds.card < n) :
    ∃ ws t, l.timers.Expired t ws ∧
      reifyLoop n l = some
        { l with
          queue := ws.foldl (taken l.timers) l.queue
          timers := t
          activecnt := l.activecnt - (ws.filter fun a => l.timers.repeat_ a = 0).length } := by
  induction n generalizing l ds with
  | zero => exact absurd hn (Nat.not_lt_zero _)
  | succ n ih =>
    by_cases hfirst : l.timers.First
    · obtain ⟨t1, hto, heq⟩ := reschedule_spec hl hfirst
      have hdue := due_reschedule hto
      have hroot := hl.due_first hfirst
      generalize ha : l.timers.first = a at hto heq hdue hroot
      have hmem : a ∈ ds := (hds a).mpr hroot
      let l1 : Loop T := { l with
        queue := taken l.timers l.queue a
        timers := t1
        activecnt := l.activecnt - if l.timers.repeat_ a ≠ 0 then 0 else 1 }
      have hds1 (b : Nat) : b ∈ ds.erase a ↔ l1.timers.Due b := by
        rw [Finset.mem_erase, hds]
        exact and_comm.trans (hdue b).symm
      have hcard : (ds.erase a).card < n := by
        have hpos := Finset.card_pos.mpr ⟨a, hmem⟩
        rw [Finset.card_erase_of_mem hmem]
        omega
      obtain ⟨ws, t, hws, hloop⟩ := @ih l1 hto.ok _ hds1 hcard
      have hnot : a ∉ ws := by
        rw [hws.mem]
        exact fun h => ((hdue a).mp h).2 rfl
      have hsame {b : Nat} (hb : b ≠ a) : t1.at_ b = l.timers.at_ b := by
        rw [hto.at_, Function.update_of_ne hb]
      have hexpired {b : Nat} (hb : b ≠ a) : t1.expired b = l.timers.expired b := by
        rw [Timers.expired, Timers.expired, hto.repeat_, hto.mnNow, hsame hb]
      have htaken : taken t1 = taken l.timers := by
        funext q b
        rw [taken, taken, hto.repeat_]
      refine ⟨a :: ws, t, ⟨⟨hws.gives.ok, fun b => ?_, ?_, ?_, ?_⟩, fun b => ?_, ?_, ?_⟩, ?_⟩
      · rw [hws.gives.active]
        change t1.heap.active b ≠ 0 ∧ ¬ (t1.Due b ∧ t1.repeat_ b = 0) ↔ _
        rw [hto.active, hdue, hto.repeat_]
        by_cases hb : b = a
        · subst hb
          simp [hroot, hroot.1]
        · simp [hb]
      · rw [hws.gives.at_]
        funext b
        change (if t1.Due b then t1.expired b else t1.at_ b) = _
        by_cases hb : b = a
        · subst hb
          have hno : ¬ t1.Due b := fun h => ((hdue b).mp h).2 rfl
          rw [if_neg hno, if_pos hroot, hto.at_, Function.update_self]
        · simp only [hdue, hb, ne_eq, not_false_eq_true, and_true, hexpired hb, hsame hb]
      · exact hws.gives.repeat_.trans hto.repeat_
      · exact hws.gives.mnNow.trans hto.mnNow
      · rw [List.mem_cons, hws.mem]
        change b = a ∨ t1.Due b ↔ _
        rw [hdue]
        by_cases hb : b = a
        · simp [hb, hroot]
        · simp [hb]
      · exact List.nodup_cons.mpr ⟨hnot, hws.nodup⟩
      · refine List.pairwise_cons.mpr ⟨fun b hb => ?_, ?_⟩
        · rw [← ha]
          exact hl.first_le ((hdue b).mp ((hws.mem b).mp hb)).1.1
        · refine hws.sorted.imp_of_mem fun {b c} hb hc hle => ?_
          have hne {b : Nat} (hb : b ∈ ws) : b ≠ a := by
            rintro rfl
            exact hnot hb
          rwa [hsame (hne hb), hsame (hne hc)] at hle
      · have hstep : reifyLoop (n + 1) l = reifyLoop n l1 := by
          have hw : (l.timers.heap.heap HEAP0).w = a := ha
          rw [reifyLoop, if_pos hfirst, heq, hw]
          rfl
        have hcnt : l1.activecnt - (ws.filter fun b => l.timers.repeat_ b = 0).length =
            l.activecnt - ((a :: ws).filter fun b => l.timers.repeat_ b = 0).length := by
          rw [List.filter_cons]
          change l.activecnt - (if l.timers.repeat_ a ≠ 0 then 0 else 1) - _ = _
          by_cases hrepeat : l.timers.repeat_ a = 0
          · simp [hrepeat]
            omega
          · simp [hrepeat]
        rw [hstep, hloop, ← hcnt, List.foldl_cons]
        change (some { l1 with
          queue := ws.foldl (taken t1) (taken l.timers l.queue a)
          timers := t
          activecnt := l1.activecnt - (ws.filter fun b => t1.repeat_ b = 0).length } : Option (Loop T)) = _
        rw [htaken, hto.repeat_]
    · have hno (a : Nat) : ¬ l.timers.Due a := fun h => hfirst (hl.first_iff.mpr ⟨a, h⟩)
      refine ⟨[], l.timers, ⟨⟨hl, fun b => ?_, ?_, rfl, rfl⟩, fun b => ?_, List.nodup_nil, List.Pairwise.nil⟩, ?_⟩
      · simp [hno]
      · funext b
        rw [if_neg (hno b)]
      · simp [hno]
      · rw [reifyLoop, if_neg hfirst]
        simp

end Loop

/-! ## The queue -/

section Pending

open Queue (merged)

variable {T : Type v} [LinearOrder T] [Zero T] {t : Timers T} {q : Queue} {ws : List Nat}

theorem ok_feedReverse (h : q.Ok) (w : W) : (feedReverse q w).Ok := ⟨h.agenda, h.valid, h.room⟩

theorem length_clearPending (q : Queue) (w : W) (pri : Int) :
    ((clearPending q w).pendings pri).length = (q.pendings pri).length := by
  by_cases hw : q.pending w = 0
  · rw [Queue.clearPending_none hw]
  · rw [Queue.clearPending_some hw]
    by_cases hpri : pri = q.abspri w
    · subst hpri
      simp
    · simp [hpri]

/-- What becomes of the queue when the timers `ws` were due, before they are fed. -/
structure Taken (t : Timers T) (q : Queue) (ws : List Nat) (q' : Queue) : Prop where
  ok : q'.Ok
  priority : q'.priority = q.priority
  rfeeds : q'.rfeeds = q.rfeeds ++ ws.map .timer
  owed : ∀ w, q'.owed w = if ∃ a ∈ ws, w = .timer a ∧ t.repeat_ a = 0 then none else q.owed w
  length : ∀ pri, (q'.pendings pri).length = (q.pendings pri).length

theorem taken_one (h : q.Ok) (a : Nat) : Taken t q [a] (taken t q a) := by
  unfold taken
  by_cases hrepeat : t.repeat_ a = 0
  · rw [if_neg (not_not_intro hrepeat)]
    refine ⟨ok_feedReverse (h.clear _) _, Queue.priority_clearPending, ?_, fun w => ?_,
      length_clearPending q _⟩
    · exact congrArg (· ++ [W.timer a]) Queue.rfeeds_clearPending
    · refine (congrFun (h.owed_clear (.timer a)) w).trans ?_
      by_cases hw : w = .timer a
      · simp [hw, hrepeat]
      · simp [hw]
  · rw [if_pos hrepeat]
    refine ⟨ok_feedReverse h _, rfl, rfl, fun w => ?_, fun _ => rfl⟩
    have hno : ¬ ∃ b ∈ [a], w = .timer b ∧ t.repeat_ b = 0 := by
      rintro ⟨b, hb, -, hzero⟩
      exact hrepeat (List.mem_singleton.mp hb ▸ hzero)
    rw [if_neg hno]
    rfl

theorem taken_foldl (h : q.Ok) (ws : List Nat) : Taken t q ws (ws.foldl (taken t) q) := by
  induction ws generalizing q with
  | nil => exact ⟨h, rfl, (List.append_nil _).symm, fun w => by simp, fun _ => rfl⟩
  | cons a ws ih =>
    have hone := taken_one (t := t) h a
    have hrest := ih hone.ok
    refine ⟨hrest.ok, hrest.priority.trans hone.priority, ?_, fun w => ?_,
      fun pri => (hrest.length pri).trans (hone.length pri)⟩
    · rw [List.foldl_cons, hrest.rfeeds, hone.rfeeds]
      simp
    · rw [List.foldl_cons, hrest.owed, hone.owed]
      by_cases hw : ∃ b ∈ ws, w = .timer b ∧ t.repeat_ b = 0
      · obtain ⟨b, hb, heq⟩ := hw
        rw [if_pos ⟨b, hb, heq⟩, if_pos ⟨b, List.mem_cons_of_mem _ hb, heq⟩]
      · rw [if_neg hw]
        refine if_congr ⟨?_, ?_⟩ rfl rfl
        · rintro ⟨b, hb, heq⟩
          exact ⟨b, List.mem_cons.mpr (Or.inl (List.mem_singleton.mp hb)), heq⟩
        · rintro ⟨b, hb, heq⟩
          refine ⟨b, List.mem_singleton.mpr ?_, heq⟩
          exact (List.mem_cons.mp hb).resolve_right fun hb => hw ⟨b, hb, heq⟩

/-- What is owed when the timers that are due have been fed. -/
def dueOwed (t : Timers T) (owed : W → Option Events) : W → Option Events
  | .timer a =>
    if t.Due a then merged (if t.repeat_ a = 0 then none else owed (.timer a)) EV_TIMEOUT else owed (.timer a)
  | w => owed w

/-- The queue after `timers_reify`: what is new in the arrays comes behind what was there, and the
    timers that were due first are the last ones. -/
structure Fed (t : Timers T) (q : Queue) (ws : List Nat) (q' : Queue) : Prop where
  ok : q'.Ok
  priority : q'.priority = q.priority
  rfeeds : q'.rfeeds = []
  owed : q'.owed = dueOwed t q.owed
  order : ∀ pri, ∃ old : List (Option W), old.length = (q.pendings pri).length ∧
    (q'.pendings pri).map Prod.fst = old ++
      (ws.reverse.filter fun a => (t.repeat_ a = 0 ∨ q.pending (.timer a) = 0) ∧ q.abspri (.timer a) = pri).map
        fun a => some (.timer a)

theorem fed_of_taken {q' : Queue} (h : q.Ok) (hr : q.rfeeds = []) (ht : Taken t q ws q')
    (hmem : ∀ a, a ∈ ws ↔ t.Due a) (hnodup : ws.Nodup) (hvalid : ∀ a ∈ ws, q.Valid (.timer a)) :
    Fed t q ws (feedReverseDone q' EV_TIMEOUT) := by
  have hfeeds : q'.rfeeds.reverse = ws.reverse.map W.timer := by
    rw [ht.rfeeds, hr, List.nil_append, List.map_reverse]
  have hnodup' : (ws.reverse.map W.timer).Nodup :=
    (List.nodup_reverse.mpr hnodup).map fun a b heq => W.timer.inj heq
  have hvalid' : ∀ w ∈ ws.reverse.map W.timer, q'.Valid w := by
    intro w hw
    obtain ⟨a, ha, rfl⟩ := List.mem_map.mp hw
    rw [Queue.Valid, Queue.abspri_congr ht.priority]
    exact hvalid a (List.mem_reverse.mp ha)
  have hok := ht.ok.queueEvents hvalid' EV_TIMEOUT
  have howed := ht.ok.owed_queueEvents hvalid' hnodup' EV_TIMEOUT
  have howners := @Queue.owners_queueEvents q' _ hnodup' EV_TIMEOUT
  rw [← hfeeds] at hok howed howners
  refine ⟨⟨hok.agenda, hok.valid, hok.room⟩, Queue.priority_queueEvents.trans ht.priority, rfl, ?_, fun pri => ?_⟩
  · refine howed.trans (funext fun w => ?_)
    rw [hfeeds, ht.owed]
    cases w with
    | timer a =>
      have hin : W.timer a ∈ ws.reverse.map W.timer ↔ t.Due a := by simp [hmem]
      have hstopped : (∃ b ∈ ws, W.timer a = W.timer b ∧ t.repeat_ b = 0) ↔ t.Due a ∧ t.repeat_ a = 0 := by
        simp [hmem]
      rw [if_congr hin rfl rfl, if_congr hstopped rfl rfl, dueOwed]
      by_cases hdue : t.Due a
      · simp [hdue]
      · simp [hdue]
    | io a => simp [dueOwed]
    | listed k a => simp [dueOwed]
  · refine ⟨(q'.pendings pri).map Prod.fst, by rw [List.length_map, ht.length], ?_⟩
    refine (howners pri).trans (congrArg (_ ++ ·) ?_)
    rw [hfeeds, List.filter_map, List.map_map]
    refine congrArg (List.map _) (List.filter_congr fun a ha => ?_)
    have hpending : q'.pending (.timer a) = 0 ↔ t.repeat_ a = 0 ∨ q.pending (.timer a) = 0 := by
      rw [← ht.ok.owed_eq_none_iff, ht.owed, ← h.owed_eq_none_iff]
      have ha : a ∈ ws := List.mem_reverse.mp ha
      by_cases hrepeat : t.repeat_ a = 0
      · simp [hrepeat, ha]
      · simp [hrepeat]
    simp only [Function.comp_apply, hpending, Queue.abspri_congr ht.priority]

end Pending

section Reify

variable {T : Type v} [LinearOrder T] [Zero T] [Add T] [Sub T] {l : Loop T}

/-- **`timers_reify`** deals with all timers that are due, and feeds them. -/
theorem timersReify_spec (hl : l.timers.Ok) (hq : l.queue.Ok) (hr : l.queue.rfeeds = [])
    (hvalid : ∀ a, l.timers.heap.active a ≠ 0 → l.queue.Valid (.timer a)) :
    ∃ ws t q, l.timers.Expired t ws ∧ Fed l.timers l.queue ws q ∧
      timersReify l = some
        { l with
          queue := q
          timers := t
          activecnt := l.activecnt - (ws.filter fun a => l.timers.repeat_ a = 0).length } := by
  obtain ⟨ds, hds, hcard⟩ := hl.exists_due
  obtain ⟨ws, t, hws, heq⟩ := reifyLoop_spec (l.timers.timercnt + 1) hl hds (Nat.lt_succ_of_le hcard)
  have hfed := fed_of_taken hq hr (taken_foldl hq ws) hws.mem hws.nodup
    fun a ha => hvalid a ((hws.mem a).mp ha).1
  refine ⟨ws, t, _, hws, hfed, ?_⟩
  unfold timersReify
  by_cases hfirst : l.timers.First
  · rw [if_pos hfirst, heq]
    rfl
  · -- nothing is due, and nothing is fed
    rw [reifyLoop, if_neg hfirst] at heq
    have hnil : ws = [] := by
      refine List.eq_nil_iff_forall_not_mem.mpr fun a ha => hfirst ?_
      exact hl.first_iff.mpr ⟨a, (hws.mem a).mp ha⟩
    subst hnil
    rw [if_neg hfirst, heq]
    have hsame : feedReverseDone l.queue EV_TIMEOUT = l.queue := by
      rw [feedReverseDone, hr]
      change { l.queue with rfeeds := [] } = l.queue
      rw [← hr]
    change _ = (some { l with
      queue := feedReverseDone l.queue EV_TIMEOUT
      timers := t
      activecnt := l.activecnt - 0 } : Option (Loop T))
    rw [hsame]
    rfl

end Reify

/-! ## The order of the calls -/

/-- One of two members of a list comes before the other. -/
theorem pair_sublist {α : Type v} {a b : α} {l : List α} (ha : a ∈ l) (hb : b ∈ l) (hne : a ≠ b) :
    [a, b].Sublist l ∨ [b, a].Sublist l := by
  induction l with
  | nil => cases ha
  | cons x l ih =>
    rcases List.mem_cons.mp ha with rfl | ha'
    · have hb' := (List.mem_cons.mp hb).resolve_left (Ne.symm hne)
      exact Or.inl ((List.singleton_sublist.mpr hb').cons_cons a)
    · rcases List.mem_cons.mp hb with rfl | hb'
      · exact Or.inr ((List.singleton_sublist.mpr ha').cons_cons b)
      · exact (ih ha' hb').imp (fun h => h.cons x) fun h => h.cons x

/-- One that is smaller comes before, if nothing bigger does. -/
theorem pair_sublist_of_lt {α : Type v} {β : Type*} [LinearOrder β] {f : α → β} {a b : α} {l : List α}
    (hl : l.Pairwise fun a b => f a ≤ f b) (ha : a ∈ l) (hb : b ∈ l) (hlt : f a < f b) : [a, b].Sublist l := by
  have hne : a ≠ b := by
    rintro rfl
    exact lt_irrefl _ hlt
  refine (pair_sublist ha hb hne).resolve_right fun hba => ?_
  exact absurd (List.pairwise_iff_forall_sublist.mp hl hba) (not_le_of_gt hlt)

section Order

variable {T : Type v} [LinearOrder T] [Zero T] {t : Timers T} {q q' : Queue} {ws : List Nat} {a b : Nat}

/-- The timer gets a new entry. -/
def Timers.Enters (t : Timers T) (q : Queue) (a : Nat) : Prop :=
  t.Due a ∧ (t.repeat_ a = 0 ∨ q.pending (.timer a) = 0)

theorem Fed.reverse_eq (h : Fed t q ws q') (pri : Int) : ∃ old : List (Option W),
    (q'.pendings pri).reverse.map Prod.fst =
      ((ws.filter fun a => (t.repeat_ a = 0 ∨ q.pending (.timer a) = 0) ∧ q.abspri (.timer a) = pri).map
        fun a => some (.timer a)) ++ old := by
  obtain ⟨old, -, heq⟩ := h.order pri
  refine ⟨old.reverse, ?_⟩
  rw [List.map_reverse, heq, List.reverse_append, List.filter_reverse, List.map_reverse, List.reverse_reverse]

/-- **A timer that was due first is called first**, of those of its priority that get a new entry. -/
theorem Fed.sublist_of_lt (h : Fed t q ws q') (hws : ∀ a, a ∈ ws ↔ t.Due a)
    (hsorted : ws.Pairwise fun a b => t.at_ a ≤ t.at_ b) (ha : t.Enters q a) (hb : t.Enters q b)
    (hpri : q.abspri (.timer a) = q.abspri (.timer b)) (hlt : t.at_ a < t.at_ b) :
    [some (W.timer a), some (W.timer b)].Sublist
      ((q'.pendings (q.abspri (.timer a))).reverse.map Prod.fst) := by
  obtain ⟨old, heq⟩ := h.reverse_eq (q.abspri (.timer a))
  rw [heq]
  have hpair := pair_sublist_of_lt hsorted ((hws a).mpr ha.1) ((hws b).mpr hb.1) hlt
  have hfilter := hpair.filter fun c =>
    decide ((t.repeat_ c = 0 ∨ q.pending (.timer c) = 0) ∧ q.abspri (.timer c) = q.abspri (.timer a))
  rw [List.filter_cons_of_pos (by simpa using ha.2), List.filter_cons_of_pos (by simpa [hpri] using hb.2),
    List.filter_nil] at hfilter
  exact (hfilter.map fun c => some (W.timer c)).trans (List.sublist_append_left _ _)

theorem Fed.mem_of_enters (h : Fed t q ws q') (hws : ∀ a, a ∈ ws ↔ t.Due a) (ha : t.Enters q a) :
    some (W.timer a) ∈ (q'.pendings (q.abspri (.timer a))).reverse.map Prod.fst := by
  obtain ⟨old, heq⟩ := h.reverse_eq (q.abspri (.timer a))
  rw [heq]
  refine List.mem_append_left _ (List.mem_map_of_mem (List.mem_filter.mpr ⟨(hws a).mpr ha.1, ?_⟩))
  simpa using ha.2

/-- **The timers are called in order**: those of a higher priority first, and of a priority those that were due
    first, if the callbacks leave the queue alone. -/
theorem Fed.called_in_order (h : Fed t q ws q') (hws : ∀ a, a ∈ ws ↔ t.Due a)
    (hsorted : ws.Pairwise fun a b => t.at_ a ≤ t.at_ b) {n : Nat} {calls : List (Option W × Events)} {q1 : Queue}
    (hcalls : Queue.Invokes (fun _ _ q q' => q' = q) n q' calls q1) (ha : t.Enters q a) (hb : t.Enters q b)
    (hvalid : ∀ c ∈ ws, 0 ≤ q.abspri (.timer c) ∧ q.abspri (.timer c) < n)
    (hlt : q.abspri (.timer b) < q.abspri (.timer a) ∨
      q.abspri (.timer a) = q.abspri (.timer b) ∧ t.at_ a < t.at_ b) :
    [some (W.timer a), some (W.timer b)].Sublist (calls.map Prod.fst) := by
  rw [Queue.invokes_calls hcalls, List.map_flatMap]
  obtain ⟨i, hi⟩ := Int.eq_ofNat_of_zero_le (hvalid a ((hws a).mpr ha.1)).1
  obtain ⟨j, hj⟩ := Int.eq_ofNat_of_zero_le (hvalid b ((hws b).mpr hb.1)).1
  have hin : i < n := by
    have := (hvalid a ((hws a).mpr ha.1)).2
    omega
  have hjn : j < n := by
    have := (hvalid b ((hws b).mpr hb.1)).2
    omega
  rcases hlt with hlower | ⟨hsame, hlt⟩
  · have hpair : [i, j].Sublist (List.range n).reverse := by
      rw [← List.reverse_sublist, List.reverse_reverse]
      refine pair_sublist_of_lt (f := id) List.pairwise_le_range (List.mem_range.mpr hjn) (List.mem_range.mpr hin) ?_
      simp only [id]
      omega
    have hflat := hpair.flatMap fun pri : Nat => (q'.pendings pri).reverse.map Prod.fst
    refine List.Sublist.trans ?_ hflat
    have hmema := h.mem_of_enters hws ha
    have hmemb := h.mem_of_enters hws hb
    rw [hi] at hmema
    rw [hj] at hmemb
    rw [List.flatMap_cons, List.flatMap_singleton]
    exact (List.singleton_sublist.mpr hmema).append (List.singleton_sublist.mpr hmemb)
  · have hpair := h.sublist_of_lt hws hsorted ha hb hsame hlt
    have hone : [i].Sublist (List.range n).reverse :=
      List.singleton_sublist.mpr (List.mem_reverse.mpr (List.mem_range.mpr hin))
    have hflat := hone.flatMap fun pri : Nat => (q'.pendings pri).reverse.map Prod.fst
    rw [hi] at hpair
    rw [List.flatMap_singleton] at hflat
    exact hpair.trans hflat

end Order

/-! ## When the clock has jumped -/

section Jump

variable {T : Type v} [LinearOrder T] [Zero T] [Add T] {t t' : Timers T} {adjust : T} {m : Nat}

/-- `timers_reschedule` has come to the place `m`. -/
structure Moved (t : Timers T) (adjust : T) (m : Nat) (t' : Timers T) : Prop where
  active : t'.heap.active = t.heap.active
  repeat_ : t'.repeat_ = t.repeat_
  counts : t'.timercnt = t.timercnt ∧ t'.timermax = t.timermax ∧ t'.mnNow = t.mnNow
  w : ∀ k, (t'.heap.heap k).w = (t.heap.heap k).w
  moved : ∀ k, InHeap m k → t'.at_ (t.heap.heap k).w = t.at_ (t.heap.heap k).w + adjust ∧
    (t'.heap.heap k).at_ = t'.at_ (t.heap.heap k).w
  others : ∀ b, ¬ Timers.Member m t.heap.heap b → t'.at_ b = t.at_ b

theorem moved_step (ht : t.Ok) (hm : m < t.timercnt) (h : Moved t adjust m t') :
    Moved t adjust (m + 1) (rescheduleAt adjust t' (m + HEAP0)) := by
  have hplace : InHeap t.timercnt (m + HEAP0) := ⟨Nat.le_add_left _ _, by omega⟩
  have hnew : ¬ Timers.Member m t.heap.heap (t.heap.heap (m + HEAP0)).w := by
    rintro ⟨k, hk, heq⟩
    have hk2 := hk.2
    have hsame := ht.apart k (m + HEAP0) ⟨hk.1, by omega⟩ hplace heq
    omega
  have hw := h.w (m + HEAP0)
  have hat : (rescheduleAt adjust t' (m + HEAP0)).at_ =
      Function.update t'.at_ (t.heap.heap (m + HEAP0)).w (t.at_ (t.heap.heap (m + HEAP0)).w + adjust) := by
    rw [← h.others _ hnew, ← hw]
    rfl
  have hheap : (rescheduleAt adjust t' (m + HEAP0)).heap.heap =
      Function.update t'.heap.heap (m + HEAP0)
        ⟨(rescheduleAt adjust t' (m + HEAP0)).at_ (t.heap.heap (m + HEAP0)).w, (t.heap.heap (m + HEAP0)).w⟩ := by
    rw [← hw]
    rfl
  refine ⟨h.active, h.repeat_, h.counts, fun k => ?_, fun k hk => ?_, fun b hb => ?_⟩
  · rw [hheap]
    by_cases hk : k = m + HEAP0
    · rw [hk, Function.update_self]
    · rw [Function.update_of_ne hk, h.w]
  · rw [hheap]
    rcases Timers.inHeap_succ.mp hk with hold | rfl
    · have hne : k ≠ m + HEAP0 := by
        have := hold.2
        omega
      have hnew' : (t.heap.heap k).w ≠ (t.heap.heap (m + HEAP0)).w := fun heq => hnew ⟨k, hold, heq⟩
      rw [Function.update_of_ne hne, hat, Function.update_of_ne hnew']
      exact h.moved k hold
    · rw [Function.update_self, hat, Function.update_self]
      exact ⟨rfl, rfl⟩
  · have hne : b ≠ (t.heap.heap (m + HEAP0)).w := by
      rintro rfl
      exact hb ⟨_, Timers.inHeap_succ.mpr (Or.inr rfl), rfl⟩
    rw [hat, Function.update_of_ne hne]
    refine h.others b ?_
    rintro ⟨k, hk, rfl⟩
    exact hb ⟨k, Timers.inHeap_succ.mpr (Or.inl hk), rfl⟩

/-- **`timers_reschedule`** moves the active timers, and the heap stays one. -/
theorem timersReschedule_spec (ht : t.Ok) (hmono : ∀ x y : T, x ≤ y → x + adjust ≤ y + adjust) :
    t.To (timersReschedule t adjust) (fun b => t.heap.active b ≠ 0)
      (fun b => if t.heap.active b ≠ 0 then t.at_ b + adjust else t.at_ b) := by
  have hmoved (m : Nat) (hm : m ≤ t.timercnt) :
      Moved t adjust m ((List.range m).foldl (fun t i => rescheduleAt adjust t (i + HEAP0)) t) := by
    induction m with
    | zero =>
      refine ⟨rfl, rfl, ⟨rfl, rfl, rfl⟩, fun _ => rfl, fun k hk => ?_, fun _ _ => rfl⟩
      have := hk.1
      have := hk.2
      omega
    | succ m ih =>
      rw [List.range_succ, List.foldl_append]
      exact moved_step ht (by omega) (ih (by omega))
  obtain ⟨hactive, hrepeat, ⟨hcnt, hmax, hnow⟩, hw, hnew, hothers⟩ := hmoved t.timercnt le_rfl
  rw [← timersReschedule] at hactive hrepeat hcnt hmax hnow hw hnew hothers
  have hkey (k : Nat) (hk : InHeap t.timercnt k) :
      keys (timersReschedule t adjust).heap.heap k = keys t.heap.heap k + adjust := by
    rw [keys, keys, (hnew k hk).2, (hnew k hk).1, ht.cached k hk]
  refine ⟨⟨?_, ?_, ?_, ?_, ?_, ?_⟩, fun b => by rw [hactive], funext fun b => ?_, hrepeat, hnow⟩
  · intro k hk
    rw [hcnt] at hk
    rw [hw, hactive]
    exact ht.active k hk
  · intro a ha
    rw [hactive] at ha ⊢
    rw [hw, hcnt]
    exact ht.placed a ha
  · intro k hk
    rw [hcnt] at hk
    rw [hw]
    exact (hnew k hk).2
  · intro k hr hk
    rw [hcnt] at hk
    have hparent : InHeap t.timercnt (DaryHeap.parent DHEAP HEAP0 k) := by
      have hlt : DaryHeap.parent DHEAP HEAP0 k < k := DaryHeap.parent_lt hr
      exact ⟨DaryHeap.le_parent, by omega⟩
    rw [hkey k ⟨hr.le, hk⟩, hkey _ hparent]
    exact hmono _ _ (ht.ordered k hr hk)
  · intro a ha
    rw [hactive] at ha
    rw [hrepeat]
    exact ht.repeat_ a ha
  · rw [hcnt, hmax]
    exact ht.room
  · by_cases hb : t.heap.active b = 0
    · rw [if_neg (not_not_intro hb)]
      exact hothers b fun hmem => (ht.active_iff b).mpr hmem hb
    · obtain ⟨hk, hkb⟩ := ht.placed b hb
      have hsum := (hnew _ hk).1
      rw [hkb] at hsum
      rw [if_pos hb, hsum]

end Jump

end CodeSLoop.Ev
