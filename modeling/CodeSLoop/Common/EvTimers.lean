import CodeSLoop.Common.EvState

/-!
# Timers (`common/libev/ev.c`)

An active timer is at the place in the heap that its `active` says; all others have 0 there. With the
heap in order (`Timers.Ok`) the first one is due if any is, and `timers_reify` deals with the timers that are
due and with no other ones (`timersReify_spec`): each of them is stopped, or starts again if it repeats,
and is fed `EV_TIMEOUT`. They are fed in reverse, so that those that were due first are called first.

What is assumed of timestamps is that they are in a linear order, not how they are added: sums may be rounded.
-/

namespace CodeSLoop.Ev

open DaryHeap (Rearranged Ordered Around Up Down)

universe v

/-! ## The code -/

def EV_TIMEOUT : Events := 0x100

section Code

variable {T : Type v} [LinearOrder T] [Zero T] [Add T] [Sub T]

/-- `ANHE_at_cache`, for the place `k`. -/
def anheAtCache (t : Timers T) (k : Nat) : AnHeap Nat T :=
  { t.heap with heap := Function.update t.heap.heap k ⟨t.at_ (t.heap.heap k).w, (t.heap.heap k).w⟩ }

def evTimerStart (l : Loop T) (a : Nat) : Option (Loop T) :=
  if l.timers.heap.active a ≠ 0 then some l
  else
    let l := { l with timers.at_ := Function.update l.timers.at_ a (l.timers.at_ a + l.timers.mnNow) }
    if ¬ 0 ≤ l.timers.repeat_ a then none
    else
      let timercnt := l.timers.timercnt + 1
      let active := timercnt + HEAP0 - 1
      let l := evStart { l with timers.timercnt := timercnt } (.timer a) active
      let l := { l with timers.timermax := needsize 16 l.timers.timermax (active + 1) }
      let heap := { l.timers.heap with heap := Function.update l.timers.heap.heap active ⟨l.timers.at_ a, a⟩ }
      some { l with timers.heap := upheap heap active (Nat.le_sub_one_of_lt (by omega)) }

def evTimerStop (l : Loop T) (a : Nat) : Option (Loop T) :=
  let l := { l with queue := clearPending l.queue (.timer a) }
  if l.timers.heap.active a = 0 then some l
  else
    let active := l.timers.heap.active a
    -- "libev: internal timer heap corruption"
    if (l.timers.heap.heap active).w ≠ a then none
    else
      let timercnt := l.timers.timercnt - 1
      let l := { l with timers.timercnt := timercnt }
      let l :=
        if active < timercnt + HEAP0 then
          let heap :=
            { l.timers.heap with
              heap := Function.update l.timers.heap.heap active (l.timers.heap.heap (timercnt + HEAP0)) }
          { l with timers.heap := adjustheap heap timercnt active }
        else l
      let l := { l with timers.at_ := Function.update l.timers.at_ a (l.timers.at_ a - l.timers.mnNow) }
      some (evStop l (.timer a))

def evTimerAgain (l : Loop T) (a : Nat) : Option (Loop T) :=
  if l.timers.heap.active a ≠ 0 then
    if l.timers.repeat_ a ≠ 0 then
      let l := { l with timers.at_ := Function.update l.timers.at_ a (l.timers.mnNow + l.timers.repeat_ a) }
      let active := l.timers.heap.active a
      some { l with timers.heap := adjustheap (anheAtCache l.timers active) l.timers.timercnt active }
    else evTimerStop l a
  else if l.timers.repeat_ a ≠ 0 then
    evTimerStart { l with timers.at_ := Function.update l.timers.at_ a (l.timers.repeat_ a) } a
  else some l

/-- The loop of `timers_reify` goes on while the first timer is due. -/
def Timers.First (t : Timers T) : Prop := t.timercnt ≠ 0 ∧ (t.heap.heap HEAP0).at_ < t.mnNow

instance (t : Timers T) : Decidable t.First := inferInstanceAs (Decidable (_ ∧ _))

/-- A turn of the loop: the first timer is rescheduled or stopped. -/
def reschedule (l : Loop T) : Option (Loop T) :=
  let a := (l.timers.heap.heap HEAP0).w
  if l.timers.repeat_ a ≠ 0 then
    let at_ := l.timers.at_ a + l.timers.repeat_ a
    let at_ := if at_ < l.timers.mnNow then l.timers.mnNow else at_
    let l := { l with timers.at_ := Function.update l.timers.at_ a at_ }
    -- "libev: negative ev_timer repeat value found while processing timers"
    if ¬ l.timers.repeat_ a > 0 then none
    else some { l with timers.heap := downheap (anheAtCache l.timers HEAP0) l.timers.timercnt HEAP0 }
  else evTimerStop l a

/-- The loop, with so many turns at most. -/
def reifyLoop : Nat → Loop T → Option (Loop T)
  | 0, _ => none
  | n + 1, l =>
    if l.timers.First then do
      let next ← reschedule l
      reifyLoop n { next with queue := feedReverse next.queue (.timer (l.timers.heap.heap HEAP0).w) }
    else some l

/-- `timers_reify`; a turn for each timer is enough. -/
def timersReify (l : Loop T) : Option (Loop T) :=
  if l.timers.First then
    (reifyLoop (l.timers.timercnt + 1) l).map fun l => { l with queue := feedReverseDone l.queue EV_TIMEOUT }
  else some l

/-- `timers_reschedule`, for a place. -/
def rescheduleAt (adjust : T) (t : Timers T) (k : Nat) : Timers T :=
  let t := { t with at_ := Function.update t.at_ (t.heap.heap k).w (t.at_ (t.heap.heap k).w + adjust) }
  { t with heap := anheAtCache t k }

/-- `timers_reschedule`. -/
def timersReschedule (t : Timers T) (adjust : T) : Timers T :=
  (List.range t.timercnt).foldl (fun t i => rescheduleAt adjust t (i + HEAP0)) t

/-- The assertions of `verify_heap`, for a place. -/
def verifyPlace (l : Loop T) (k : Nat) : Bool :=
  let he := l.timers.heap.heap k
  decide (l.timers.heap.active he.w = k) &&
    decide (k = HEAP0 ∨ (l.timers.heap.heap (hparent k)).at_ ≤ he.at_) &&
    decide (he.at_ = l.timers.at_ he.w) && verifyWatcher l.queue (.timer he.w)

/-- `verify_heap (EV_A_ timers, timercnt)`. -/
def verifyHeap (l : Loop T) : Bool := (List.range l.timers.timercnt).all fun i => verifyPlace l (i + HEAP0)

end Code

/-! ## The heap of the timers -/

namespace Timers

section Members

variable {T : Type v} {h h0 : AnHeap Nat T} {n k : Nat}

theorem inHeap_ne_zero (hk : InHeap n k) : k ≠ 0 := by
  have hle := hk.1
  simp only [HEAP0, DHEAP] at hle
  omega

/-- The watchers that are in a heap. -/
def Member (n : Nat) (heap : Nat → Anhe Nat T) (a : Nat) : Prop := ∃ k, InHeap n k ∧ (heap k).w = a

theorem member_iff (hfrom : h.From n h0) (a : Nat) : Member n h.heap a ↔ Member n h0.heap a := by
  constructor
  · rintro ⟨k, hk, rfl⟩
    obtain ⟨j, hj, heq⟩ := hfrom.same.exists_from hk
    exact ⟨j, hj, by rw [heq]⟩
  · rintro ⟨k, hk, rfl⟩
    obtain ⟨j, hj, heq⟩ := hfrom.same.exists_to hk
    exact ⟨j, hj, by rw [heq]⟩

/-- The element at a place gets another timestamp. -/
theorem w_update (heap : Nat → Anhe Nat T) (p : Nat) (x : T) (k : Nat) :
    (Function.update heap p ⟨x, (heap p).w⟩ k).w = (heap k).w := by
  by_cases hk : k = p
  · rw [hk, Function.update_self]
  · rw [Function.update_of_ne hk]

/-- The timer at the place `p` gets the timestamp `x`. -/
def withAt (t : Timers T) (p : Nat) (x : T) : Timers T :=
  { t with at_ := Function.update t.at_ (t.heap.heap p).w x }

theorem heap_withAt (t : Timers T) (p : Nat) (x : T) :
    (anheAtCache (t.withAt p x) p).heap = Function.update t.heap.heap p ⟨x, (t.heap.heap p).w⟩ := by
  simp [anheAtCache, withAt]

/-- The timer `a` is at the place behind the heap, as `evTimerStart` puts it there. -/
def put (t : Timers T) (a : Nat) : AnHeap Nat T where
  heap := Function.update t.heap.heap (t.timercnt + HEAP0) ⟨t.at_ a, a⟩
  active := Function.update t.heap.active a (t.timercnt + HEAP0)

theorem inHeap_succ {n k : Nat} : InHeap (n + 1) k ↔ InHeap n k ∨ k = n + HEAP0 := by
  simp only [InHeap, HEAP0, DHEAP]
  omega

theorem put_old (t : Timers T) (a : Nat) {k : Nat} (hk : InHeap t.timercnt k) :
    (t.put a).heap k = t.heap.heap k := by
  have hlt := hk.2
  exact Function.update_of_ne (by omega) _ _

theorem put_new (t : Timers T) (a : Nat) : (t.put a).heap (t.timercnt + HEAP0) = ⟨t.at_ a, a⟩ :=
  Function.update_self _ _ _

end Members

section Heap

variable {T : Type v} [LinearOrder T] [Zero T]

/-- **What is true of the timers between two calls.** -/
structure Ok (t : Timers T) : Prop where
  active : ∀ k, InHeap t.timercnt k → t.heap.active (t.heap.heap k).w = k
  placed : ∀ a, t.heap.active a ≠ 0 →
    InHeap t.timercnt (t.heap.active a) ∧ (t.heap.heap (t.heap.active a)).w = a
  cached : ∀ k, InHeap t.timercnt k → (t.heap.heap k).at_ = t.at_ (t.heap.heap k).w
  ordered : Ordered DHEAP HEAP0 t.timercnt (keys t.heap.heap)
  repeat_ : ∀ a, t.heap.active a ≠ 0 → 0 ≤ t.repeat_ a
  room : t.timercnt ≤ t.timermax

variable {t t' : Timers T} {h h0 : AnHeap Nat T} {n a p : Nat}

/-- The active timers are those in the heap. -/
theorem Ok.active_iff (ht : t.Ok) (a : Nat) : t.heap.active a ≠ 0 ↔ Member t.timercnt t.heap.heap a := by
  constructor
  · intro ha
    exact ⟨_, ht.placed a ha⟩
  · rintro ⟨k, hk, rfl⟩
    rw [ht.active k hk]
    exact inHeap_ne_zero hk

theorem Ok.apart (ht : t.Ok) : Apart t.timercnt t.heap.heap := by
  intro i j hi hj heq
  rw [← ht.active i hi, ← ht.active j hj, heq]

/-- **The timers are in order** with a heap that was made from one with the same elements, if these are the
    active timers and their timestamps. -/
theorem Ok.of_from (h0 : AnHeap Nat T) (hfrom : h.From n h0) (hord : Ordered DHEAP HEAP0 n (keys h.heap))
    (hn : t'.timercnt = n) (hheap : t'.heap.heap = h.heap)
    (hactive : ∀ a, Member n h0.heap a → t'.heap.active a = h.active a)
    (hmember : ∀ a, t'.heap.active a ≠ 0 → Member n h0.heap a)
    (hcached : ∀ k, InHeap n k → (h0.heap k).at_ = t'.at_ (h0.heap k).w)
    (hrepeat : ∀ a, Member n h0.heap a → 0 ≤ t'.repeat_ a) (hroom : n ≤ t'.timermax) : t'.Ok := by
  have hknown (k : Nat) (hk : InHeap n k) : t'.heap.active (h.heap k).w = k := by
    rw [hactive _ ((member_iff hfrom _).mp ⟨k, hk, rfl⟩), hfrom.active k hk]
  refine ⟨?_, ?_, ?_, ?_, fun a ha => hrepeat a (hmember a ha), hn ▸ hroom⟩
  · rw [hn, hheap]
    exact hknown
  · intro a ha
    obtain ⟨k, hk, rfl⟩ := (member_iff hfrom _).mpr (hmember a ha)
    rw [hn, hheap, hknown k hk]
    exact ⟨hk, rfl⟩
  · rw [hn, hheap]
    intro k hk
    obtain ⟨j, hj, heq⟩ := hfrom.same.exists_from hk
    rw [heq]
    exact hcached j hj
  · rwa [hn, hheap]

/-! ## A timer that gets another timestamp -/

/-- What `adjustheap` and `downheap` need. -/
theorem Ok.around_withAt (ht : t.Ok) (p : Nat) (x : T) :
    Apart t.timercnt (anheAtCache (t.withAt p x) p).heap ∧
      Known t.timercnt (anheAtCache (t.withAt p x) p).heap t.heap.active p ∧
      Around DHEAP HEAP0 t.timercnt (keys (anheAtCache (t.withAt p x) p).heap) p := by
  rw [heap_withAt]
  refine ⟨fun i j hi hj heq => ?_, fun i hi _ => ?_, ht.ordered.around fun j hj => ?_⟩
  · rw [w_update, w_update] at heq
    exact ht.apart i j hi hj heq
  · rw [w_update]
    exact ht.active i hi
  · exact keys_other _ _ hj

theorem Ok.of_withAt (ht : t.Ok) {x : T} (hfrom : h.From t.timercnt (anheAtCache (t.withAt p x) p))
    (hp : InHeap t.timercnt p) (hord : Ordered DHEAP HEAP0 t.timercnt (keys h.heap)) :
    Ok { t.withAt p x with heap := h } ∧ ∀ a, h.active a ≠ 0 ↔ t.heap.active a ≠ 0 := by
  have hmember (a : Nat) :
      Member t.timercnt (anheAtCache (t.withAt p x) p).heap a ↔ t.heap.active a ≠ 0 := by
    rw [ht.active_iff, heap_withAt]
    simp only [Member, w_update]
  have hactive (a : Nat) : h.active a ≠ 0 ↔ t.heap.active a ≠ 0 := by
    by_cases ha : t.heap.active a = 0
    · refine not_congr (iff_of_eq (congrArg (· = 0) ?_))
      refine hfrom.others a fun i hi heq => ?_
      exact (hmember a).mp ⟨i, hi, heq⟩ ha
    · obtain ⟨k, hk, rfl⟩ := (member_iff hfrom a).mpr ((hmember a).mpr ha)
      simp only [ha, hfrom.active k hk, inHeap_ne_zero hk, ne_eq, not_false_eq_true]
  refine ⟨?_, hactive⟩
  refine .of_from (anheAtCache (t.withAt p x) p) hfrom hord rfl rfl (fun _ _ => rfl) (fun a ha => ?_)
    (fun k hk => ?_) (fun a ha => ht.repeat_ a ((hmember a).mp ha)) ht.room
  · exact (hmember a).mpr ((hactive a).mp ha)
  · rw [heap_withAt, w_update]
    change _ = Function.update t.at_ (t.heap.heap p).w x (t.heap.heap k).w
    by_cases hkp : k = p
    · rw [hkp, Function.update_self, Function.update_self]
    · have hne : (t.heap.heap k).w ≠ (t.heap.heap p).w := fun heq => hkp (ht.apart k p hk hp heq)
      rw [Function.update_of_ne hkp, Function.update_of_ne hne]
      exact ht.cached k hk

/-! ## A timer that is put in -/

theorem Ok.not_member (ht : t.Ok) (ha : t.heap.active a = 0) {k : Nat} (hk : InHeap t.timercnt k) :
    (t.heap.heap k).w ≠ a := by
  rintro rfl
  exact (ht.active_iff _).mpr ⟨k, hk, rfl⟩ ha

theorem Ok.active_put (ht : t.Ok) (ha : t.heap.active a = 0) {k : Nat} (hk : InHeap (t.timercnt + 1) k) :
    (t.put a).active ((t.put a).heap k).w = k := by
  rcases inHeap_succ.mp hk with hold | rfl
  · rw [put_old t a hold]
    exact (Function.update_of_ne (ht.not_member ha hold) _ _).trans (ht.active k hold)
  · rw [put_new]
    exact Function.update_self _ _ _

/-- **The timer is put into the heap.** -/
theorem Ok.of_put (ht : t.Ok) {a : Nat} (ha : t.heap.active a = 0) (hrepeat : 0 ≤ t.repeat_ a) {room : Nat}
    (hroom : t.timercnt + 1 ≤ room) :
    let h := upheap (t.put a) (t.timercnt + HEAP0) (Nat.le_add_left _ _)
    Ok { t with timercnt := t.timercnt + 1, timermax := room, heap := h } ∧
      ∀ b, h.active b ≠ 0 ↔ b = a ∨ t.heap.active b ≠ 0 := by
  have hactive {k : Nat} (hk : InHeap (t.timercnt + 1) k) := ht.active_put ha hk
  have hplace : InHeap (t.timercnt + 1) (t.timercnt + HEAP0) := inHeap_succ.mpr (Or.inr rfl)
  have hup : Up DHEAP HEAP0 (t.timercnt + 1) (keys (t.put a).heap) (HEAP0 + t.timercnt) := by
    refine ht.ordered.push fun j hj => ?_
    exact keys_other _ _ (by omega)
  rw [Nat.add_comm HEAP0] at hup
  obtain ⟨hfrom, hord⟩ := upheap_spec hplace
    (fun i j hi hj heq => by rw [← hactive hi, ← hactive hj, heq]) (fun i hi _ => hactive hi) hup
  have hmember (b : Nat) : Member (t.timercnt + 1) (t.put a).heap b ↔ b = a ∨ t.heap.active b ≠ 0 := by
    rw [ht.active_iff]
    constructor
    · rintro ⟨k, hk, rfl⟩
      rcases inHeap_succ.mp hk with hold | rfl
      · exact Or.inr ⟨k, hold, by rw [put_old t a hold]⟩
      · exact Or.inl (by rw [put_new])
    · rintro (rfl | ⟨k, hk, rfl⟩)
      · exact ⟨_, hplace, by rw [put_new]⟩
      · exact ⟨k, inHeap_succ.mpr (Or.inl hk), by rw [put_old t a hk]⟩
  intro h
  have hiff (b : Nat) : h.active b ≠ 0 ↔ b = a ∨ t.heap.active b ≠ 0 := by
    by_cases hb : Member (t.timercnt + 1) (t.put a).heap b
    · obtain ⟨k, hk, rfl⟩ := (member_iff hfrom b).mpr hb
      have hmem := (hmember _).mp hb
      simp only [h, hmem, hfrom.active k hk, inHeap_ne_zero hk, ne_eq, not_false_eq_true]
    · have hno := mt (hmember b).mpr hb
      have hsame : h.active b = (t.put a).active b := hfrom.others b fun i hi heq => hb ⟨i, hi, heq⟩
      have hold : (t.put a).active b = t.heap.active b := by
        exact Function.update_of_ne (fun heq => hno (Or.inl heq)) _ _
      rw [hsame, hold]
      exact ⟨Or.inr, fun hor => hor.resolve_left fun heq => hno (Or.inl heq)⟩
  refine ⟨.of_from (t.put a) hfrom hord rfl rfl (fun _ _ => rfl) (fun b hb => ?_) (fun k hk => ?_)
    (fun b hb => ?_) hroom, hiff⟩
  · exact (hmember b).mpr ((hiff b).mp hb)
  · rcases inHeap_succ.mp hk with hold | rfl
    · rw [put_old t a hold]
      exact ht.cached k hold
    · rw [put_new]
  · rcases (hmember b).mp hb with rfl | hold
    · exact hrepeat
    · exact ht.repeat_ b hold

/-! ## A timer that is taken out -/

/-- The last element is at the place `p`. -/
def lastAt (t : Timers T) (p : Nat) : AnHeap Nat T :=
  { t.heap with heap := Function.update t.heap.heap p (t.heap.heap (t.timercnt - 1 + HEAP0)) }

/-- The heap without the timer at the place `p`, as `evTimerStop` makes it. -/
def without (t : Timers T) (p : Nat) : AnHeap Nat T :=
  if p < t.timercnt - 1 + HEAP0 then adjustheap (t.lastAt p) (t.timercnt - 1) p else t.heap

theorem Ok.without_spec (ht : t.Ok) (hp : InHeap t.timercnt p) :
    ∃ h0 : AnHeap Nat T, (t.without p).From (t.timercnt - 1) h0 ∧
      Ordered DHEAP HEAP0 (t.timercnt - 1) (keys (t.without p).heap) ∧
      (∀ k, InHeap (t.timercnt - 1) k → ∃ j, InHeap t.timercnt j ∧ j ≠ p ∧ h0.heap k = t.heap.heap j) ∧
      (∀ j, InHeap t.timercnt j → j ≠ p → ∃ k, InHeap (t.timercnt - 1) k ∧ h0.heap k = t.heap.heap j) ∧
      h0.active = t.heap.active := by
  have hpos : 0 < t.timercnt := by
    have := hp.1
    have := hp.2
    omega
  have hin (k : Nat) : InHeap t.timercnt k ↔ InHeap (t.timercnt - 1) k ∨ k = t.timercnt - 1 + HEAP0 := by
    have hsucc := @inHeap_succ (t.timercnt - 1) k
    rwa [Nat.sub_add_cancel hpos] at hsucc
  have hlast : InHeap t.timercnt (t.timercnt - 1 + HEAP0) := (hin _).mpr (Or.inr rfl)
  unfold without
  by_cases hlt : p < t.timercnt - 1 + HEAP0
  · rw [if_pos hlt]
    have hp' : InHeap (t.timercnt - 1) p := ⟨hp.1, by omega⟩
    have hself : (t.lastAt p).heap p = t.heap.heap (t.timercnt - 1 + HEAP0) := Function.update_self _ _ _
    have hother {k : Nat} (hk : k ≠ p) : (t.lastAt p).heap k = t.heap.heap k := Function.update_of_ne hk _ _
    -- each place has the element of one that is not `p`
    have hfrom0 (k : Nat) (hk : InHeap (t.timercnt - 1) k) :
        ∃ j, InHeap t.timercnt j ∧ j ≠ p ∧ (t.lastAt p).heap k = t.heap.heap j ∧
          (j = k ∨ k = p ∧ j = t.timercnt - 1 + HEAP0) := by
      by_cases hkp : k = p
      · subst hkp
        exact ⟨_, hlast, by omega, hself, Or.inr ⟨rfl, rfl⟩⟩
      · exact ⟨k, (hin k).mpr (Or.inl hk), hkp, hother hkp, Or.inl rfl⟩
    have happ : Apart (t.timercnt - 1) (t.lastAt p).heap := by
      intro i j hi hj heq
      obtain ⟨i', hi', -, hieq, hicase⟩ := hfrom0 i hi
      obtain ⟨j', hj', -, hjeq, hjcase⟩ := hfrom0 j hj
      rw [hieq, hjeq] at heq
      have hsame := ht.apart i' j' hi' hj' heq
      have hi2 := hi.2
      have hj2 := hj.2
      omega
    obtain ⟨hfrom, hord⟩ := adjustheap_spec hp' happ
      (fun i hi hip => by
        rw [hother hip]
        exact ht.active i ((hin i).mpr (Or.inl hi)))
      ((ht.ordered.mono (Nat.sub_le _ 1)).around fun j hj => keys_other _ _ hj)
    refine ⟨t.lastAt p, hfrom, hord, fun k hk => ?_, fun j hj hjp => ?_, rfl⟩
    · obtain ⟨j, hj, hjp, heq, -⟩ := hfrom0 k hk
      exact ⟨j, hj, hjp, heq⟩
    · rcases (hin j).mp hj with hold | rfl
      · exact ⟨j, hold, hother hjp⟩
      · exact ⟨p, hp', hself⟩
  · rw [if_neg hlt]
    have hpl : p = t.timercnt - 1 + HEAP0 := by
      have := hp.2
      omega
    refine ⟨t.heap, ⟨Rearranged.refl _ _ _, fun i hi => ht.active i ((hin i).mpr (Or.inl hi)), fun _ _ => rfl⟩,
      ht.ordered.mono (Nat.sub_le _ 1), fun k hk => ?_, fun j hj hjp => ?_, rfl⟩
    · have hk2 := hk.2
      exact ⟨k, (hin k).mpr (Or.inl hk), by omega, rfl⟩
    · exact ⟨j, ((hin j).mp hj).resolve_right (hpl ▸ hjp), rfl⟩

/-- **The timer is taken out of the heap**; it may get another timestamp. -/
theorem Ok.of_without (ht : t.Ok) (ha : t.heap.active a ≠ 0) (x : T) :
    let h := { t.without (t.heap.active a) with
      active := Function.update (t.without (t.heap.active a)).active a 0 }
    Ok { t with timercnt := t.timercnt - 1, at_ := Function.update t.at_ a x, heap := h } ∧
      ∀ b, h.active b ≠ 0 ↔ b ≠ a ∧ t.heap.active b ≠ 0 := by
  obtain ⟨hp, hpa⟩ := ht.placed a ha
  obtain ⟨h0, hfrom, hord, hto, hof, hactive0⟩ := ht.without_spec hp
  have hmember (b : Nat) : Member (t.timercnt - 1) h0.heap b ↔ b ≠ a ∧ t.heap.active b ≠ 0 := by
    constructor
    · rintro ⟨k, hk, rfl⟩
      obtain ⟨j, hj, hjp, heq⟩ := hto k hk
      rw [heq, ht.active_iff]
      refine ⟨fun hja => hjp ?_, j, hj, rfl⟩
      rw [← ht.active j hj, hja]
    · rintro ⟨hne, hb⟩
      obtain ⟨hj, hjb⟩ := ht.placed b hb
      obtain ⟨k, hk, heq⟩ := hof _ hj fun hsame => hne (by rw [← hjb, hsame, hpa])
      exact ⟨k, hk, by rw [heq, hjb]⟩
  intro h
  have hiff (b : Nat) : h.active b ≠ 0 ↔ b ≠ a ∧ t.heap.active b ≠ 0 := by
    change Function.update (t.without (t.heap.active a)).active a 0 b ≠ 0 ↔ _
    by_cases hba : b = a
    · simp [hba]
    · rw [Function.update_of_ne hba]
      by_cases hb : Member (t.timercnt - 1) h0.heap b
      · have hmem := (hmember b).mp hb
        obtain ⟨k, hk, rfl⟩ := (member_iff hfrom b).mpr hb
        simp only [hfrom.active k hk, inHeap_ne_zero hk, ne_eq, not_false_eq_true, true_iff]
        exact hmem
      · rw [hfrom.others b fun i hi heq => hb ⟨i, hi, heq⟩, hactive0]
        exact ⟨fun hb => ⟨hba, hb⟩, fun hb => hb.2⟩
  refine ⟨.of_from h0 hfrom hord rfl rfl (fun b hb => ?_) (fun b hb => ?_) (fun k hk => ?_)
    (fun b hb => ?_) ((Nat.sub_le _ 1).trans ht.room), hiff⟩
  · exact Function.update_of_ne ((hmember b).mp hb).1 _ _
  · exact (hmember b).mpr ((hiff b).mp hb)
  · obtain ⟨j, hj, hjp, heq⟩ := hto k hk
    have hne : (t.heap.heap j).w ≠ a := by
      intro hja
      exact hjp (by rw [← ht.active j hj, hja])
    rw [heq]
    exact (ht.cached j hj).trans (Function.update_of_ne hne _ _).symm
  · exact ht.repeat_ b ((hmember b).mp hb).2

end Heap

end Timers

/-! ## The calls -/

section Calls

variable {T : Type v} [LinearOrder T] [Zero T]

/-- **The timers come from `t`**: these are active now, with those timestamps. -/
structure Timers.To (t t' : Timers T) (active : Nat → Prop) (at_ : Nat → T) : Prop where
  ok : t'.Ok
  active : ∀ b, t'.heap.active b ≠ 0 ↔ active b
  at_ : t'.at_ = at_
  repeat_ : t'.repeat_ = t.repeat_
  mnNow : t'.mnNow = t.mnNow

variable {l : Loop T} {a : Nat}

theorem evTimerStart_active [Add T] (ha : l.timers.heap.active a ≠ 0) : evTimerStart l a = some l := if_pos ha

/-- **`ev_timer_start`.** -/
theorem evTimerStart_spec [Add T] (hl : l.timers.Ok) (ha : l.timers.heap.active a = 0)
    (hrepeat : 0 ≤ l.timers.repeat_ a) :
    ∃ t, l.timers.To t (fun b => b = a ∨ l.timers.heap.active b ≠ 0)
        (Function.update l.timers.at_ a (l.timers.at_ a + l.timers.mnNow)) ∧
      evTimerStart l a = some
        { l with
          queue := priAdjust l.queue (.timer a)
          timers := t
          activecnt := l.activecnt + 1 } := by
  let t0 : Timers T := { l.timers with at_ := Function.update l.timers.at_ a (l.timers.at_ a + l.timers.mnNow) }
  have ht0 : t0.Ok := by
    refine ⟨hl.active, hl.placed, fun k hk => ?_, hl.ordered, hl.repeat_, hl.room⟩
    exact (hl.cached k hk).trans (Function.update_of_ne (hl.not_member ha hk) _ _).symm
  have hroom : t0.timercnt + 1 ≤ needsize 16 l.timers.timermax (l.timers.timercnt + 1 + HEAP0 - 1 + 1) := by
    have hle := le_needsize (show 0 < 16 by simp) l.timers.timermax (l.timers.timercnt + 1 + HEAP0 - 1 + 1)
    change l.timers.timercnt + 1 ≤ _
    omega
  obtain ⟨hok, hactive⟩ := ht0.of_put ha hrepeat hroom
  refine ⟨_, ⟨hok, hactive, rfl, rfl, rfl⟩, ?_⟩
  rw [evTimerStart, if_neg (not_not_intro ha)]
  dsimp only
  rw [if_neg (not_not_intro hrepeat)]
  have hplace : l.timers.timercnt + 1 + HEAP0 - 1 = l.timers.timercnt + HEAP0 := by omega
  simp only [hplace]
  rfl

omit [Zero T] in
theorem evTimerStop_idle [Sub T] (ha : l.timers.heap.active a = 0) :
    evTimerStop l a = some { l with queue := clearPending l.queue (.timer a) } := if_pos ha

/-- **`ev_timer_stop`**: the assertion on the heap does not fail. -/
theorem evTimerStop_spec [Sub T] (hl : l.timers.Ok) (ha : l.timers.heap.active a ≠ 0) :
    ∃ t, l.timers.To t (fun b => b ≠ a ∧ l.timers.heap.active b ≠ 0)
        (Function.update l.timers.at_ a (l.timers.at_ a - l.timers.mnNow)) ∧
      evTimerStop l a = some
        { l with
          queue := clearPending l.queue (.timer a)
          timers := t
          activecnt := l.activecnt - 1 } := by
  obtain ⟨hok, hactive⟩ := hl.of_without ha (l.timers.at_ a - l.timers.mnNow)
  refine ⟨_, ⟨hok, hactive, rfl, rfl, rfl⟩, ?_⟩
  have hplaced := (hl.placed a ha).2
  rw [evTimerStop]
  dsimp only
  rw [if_neg ha, if_neg (not_not_intro hplaced), Timers.without]
  split <;> rfl

variable [Add T] [Sub T]

/-- An active timer that repeats starts again. -/
theorem evTimerAgain_active (hl : l.timers.Ok) (ha : l.timers.heap.active a ≠ 0)
    (hrepeat : l.timers.repeat_ a ≠ 0) :
    ∃ t, l.timers.To t (fun b => l.timers.heap.active b ≠ 0)
        (Function.update l.timers.at_ a (l.timers.mnNow + l.timers.repeat_ a)) ∧
      evTimerAgain l a = some { l with timers := t } := by
  obtain ⟨hp, hpa⟩ := hl.placed a ha
  obtain ⟨happ, hknown, haround⟩ := hl.around_withAt (l.timers.heap.active a)
    (l.timers.mnNow + l.timers.repeat_ a)
  obtain ⟨hfrom, hord⟩ := adjustheap_spec hp happ hknown haround
  obtain ⟨hok, hactive⟩ := hl.of_withAt hfrom hp hord
  refine ⟨_, ⟨hok, hactive, ?_, rfl, rfl⟩, ?_⟩
  · change Function.update l.timers.at_ (l.timers.heap.heap (l.timers.heap.active a)).w _ = _
    rw [hpa]
  · rw [evTimerAgain, if_pos ha, if_pos hrepeat]
    simp only [Timers.withAt, hpa]

theorem evTimerAgain_stop (ha : l.timers.heap.active a ≠ 0) (hrepeat : l.timers.repeat_ a = 0) :
    evTimerAgain l a = evTimerStop l a := by
  rw [evTimerAgain, if_pos ha, if_neg (not_not_intro hrepeat)]

theorem evTimerAgain_start (ha : l.timers.heap.active a = 0) (hrepeat : l.timers.repeat_ a ≠ 0) :
    evTimerAgain l a =
      evTimerStart { l with timers.at_ := Function.update l.timers.at_ a (l.timers.repeat_ a) } a := by
  rw [evTimerAgain, if_neg (not_not_intro ha), if_pos hrepeat]

theorem evTimerAgain_idle (ha : l.timers.heap.active a = 0) (hrepeat : l.timers.repeat_ a = 0) :
    evTimerAgain l a = some l := by
  rw [evTimerAgain, if_neg (not_not_intro ha), if_neg (not_not_intro hrepeat)]

end Calls

end CodeSLoop.Ev
