import CodeSLoop.Common.EvView
import CodeSLoop.Lib.Run

/-!
# What watchers are called with (`common/libev/ev.c`)

Runs of the machine of `EvView`. **A watcher is called with exactly the events that it was given** since it was
called, cleared or stopped last (`called_iff`): none is lost, and none comes twice. And **a watcher that was
stopped is not called** until it is started or fed again (`silent`).
-/

namespace CodeSLoop.Ev

universe v

namespace View

/-! ## What is owed -/

section Owes

variable {T : Type v} {w : W} {i : Nat}

/-- The event `i` is owed to a watcher. -/
def Owes (s : View T) (w : W) (i : Nat) : Prop := ∃ events, s.owed w = some events ∧ events.getLsbD i = true

theorem owes_congr {s s' : View T} (h : s'.owed w = s.owed w) : s'.Owes w i ↔ s.Owes w i := by
  rw [Owes, Owes, h]

theorem merged_iff (old : Option Events) (revents : Events) (i : Nat) :
    (∃ events, Queue.merged old revents = some events ∧ events.getLsbD i = true) ↔
      (∃ events, old = some events ∧ events.getLsbD i = true) ∨ revents.getLsbD i = true := by
  cases old with
  | none => simp [Queue.merged]
  | some old => simp [Queue.merged]

theorem owes_give (s : View T) (w' : W) (revents : Events) :
    (s.give w' revents).Owes w i ↔ s.Owes w i ∨ w' = w ∧ revents.getLsbD i = true := by
  by_cases hw : w = w'
  · subst hw
    simpa [Owes, give] using merged_iff (s.owed w) revents i
  · simp [Owes, give, hw, Ne.symm hw]

theorem owes_stop (s : View T) (w' : W) : (s.stop w').Owes w i ↔ s.Owes w i ∧ ¬ w = w' := by
  by_cases hw : w = w'
  · simp [Owes, stop, hw]
  · simp [Owes, stop, hw]

theorem owes_giveFd (s : View T) (fd : Int) (revents : Events) :
    (s.giveFd fd revents).Owes w i ↔
      s.Owes w i ∨ ∃ a, w = .io a ∧ s.Watches fd a ∧ (s.events a &&& revents).getLsbD i = true := by
  cases w with
  | io a =>
    by_cases ha : s.Watches fd a ∧ s.events a &&& revents ≠ 0
    · have howed : (s.giveFd fd revents).owed (.io a) = Queue.merged (s.owed (.io a)) (s.events a &&& revents) :=
        if_pos ha
      rw [Owes, howed, merged_iff]
      simp [Owes, ha.1]
    · have howed : (s.giveFd fd revents).owed (.io a) = s.owed (.io a) := if_neg ha
      have hno : ¬ ∃ b, W.io a = .io b ∧ s.Watches fd b ∧ (s.events b &&& revents).getLsbD i = true := by
        rintro ⟨b, hb, hwatches, hbit⟩
        cases hb
        refine ha ⟨hwatches, fun hzero => ?_⟩
        rw [hzero] at hbit
        simp at hbit
      rw [Owes, howed, or_iff_left hno]
      rfl
  | _ => simp [Owes, giveFd]

theorem owes_stopTimer [Sub T] (s : View T) (a : Nat) :
    (s.stopTimer a).Owes w i ↔ s.Owes w i ∧ ¬ w = .timer a := by
  rw [← owes_stop]
  refine owes_congr ?_
  rw [stopTimer]
  split <;> rfl

theorem owes_startTimer [Add T] (s : View T) (a : Nat) : (s.startTimer a).Owes w i ↔ s.Owes w i := by
  refine owes_congr ?_
  rw [startTimer, start]
  split <;> rfl

theorem owes_kill (s : View T) (fd : Int) :
    (s.kill fd).Owes w i ↔
      s.Owes w i ∧ ¬ (∃ a, w = .io a ∧ s.Watches fd a) ∨
        ∃ a, w = .io a ∧ s.Watches fd a ∧ (EV_ERROR ||| EV_READ ||| EV_WRITE).getLsbD i = true := by
  cases w with
  | io a =>
    by_cases ha : s.Watches fd a
    · have howed : (s.kill fd).owed (.io a) = some (EV_ERROR ||| EV_READ ||| EV_WRITE) := if_pos ha
      rw [Owes, howed]
      simp [ha]
    · have howed : (s.kill fd).owed (.io a) = s.owed (.io a) := if_neg ha
      rw [owes_congr howed]
      simp [ha]
  | _ => simp [Owes, kill]

end Owes

/-! ## Watchers that are quiet -/

section Quiet

variable {T : Type v} {s : View T} {w : W}

/-- A watcher is not running, and nothing is owed to it. -/
def Quiet (s : View T) (w : W) : Prop := ¬ s.running w ∧ s.owed w = none

/-- A call starts or feeds the watcher. -/
def Wakes (w : W) : Call T → Prop
  | .ioStart a => w = .io a
  | .timerStart a => w = .timer a
  | .timerAgain a => w = .timer a
  | .listStart k a => w = .listed k a
  | .feed w' _ => w = w'
  | _ => False

theorem Quiet.start (h : s.Quiet w) {w' : W} (hw : ¬ w = w') : (s.start w').Quiet w := by
  rw [View.start]
  split
  · exact h
  · exact ⟨fun hrun => hrun.elim hw h.1, h.2⟩

theorem Quiet.stop (h : s.Quiet w) (w' : W) : (s.stop w').Quiet w := by
  refine ⟨fun hrun => h.1 hrun.2, ?_⟩
  by_cases hw : w = w'
  · exact hw ▸ Function.update_self _ _ _
  · exact (Function.update_of_ne hw _ _).trans h.2

theorem Quiet.stopTimer [Sub T] (h : s.Quiet w) (a : Nat) : (s.stopTimer a).Quiet w := by
  rw [View.stopTimer]
  split
  · exact h.stop _
  · exact h.stop _

theorem Quiet.startTimer [Add T] (h : s.Quiet w) {a : Nat} (hw : ¬ w = .timer a) : (s.startTimer a).Quiet w := by
  rw [View.startTimer]
  split
  · exact h
  · exact h.start hw

theorem Quiet.giveFd (h : s.Quiet w) (fd : Int) (revents : Events) : (s.giveFd fd revents).Quiet w := by
  refine ⟨h.1, ?_⟩
  cases w with
  | io a => exact (if_neg fun hboth => h.1 hboth.1.1).trans h.2
  | _ => exact h.2

end Quiet

/-! ## A call -/

section Call

variable {T : Type v} [LinearOrder T] [Zero T] [Add T] [Sub T]

/-- **A call gives the event `i`** to a watcher. -/
def Gives (s : View T) (w : W) (i : Nat) : Call T → Prop
  | .feed w' revents => w' = w ∧ revents.getLsbD i = true
  | .feedFd fd revents => ∃ a, w = .io a ∧ s.Watches fd a ∧ (s.events a &&& revents).getLsbD i = true
  | .fdEvent fd revents =>
    ¬ s.changed fd ∧ ∃ a, w = .io a ∧ s.Watches fd a ∧ (s.events a &&& revents).getLsbD i = true
  | .fdKill fd => ∃ a, w = .io a ∧ s.Watches fd a ∧ (EV_ERROR ||| EV_READ ||| EV_WRITE).getLsbD i = true
  | .timersReify => ∃ a, w = .timer a ∧ s.Due a ∧ EV_TIMEOUT.getLsbD i = true
  | .queueListed k => ∃ a, w = .listed k a ∧ s.running (.listed k a) ∧ k.type.getLsbD i = true
  | _ => False

/-- **A call takes from a watcher** what is owed to it. -/
def Takes (s : View T) (w : W) : Call T → Answer → Prop
  | .ioStop a, _ => w = .io a
  | .timerStop a, _ => w = .timer a
  | .timerAgain a, _ => w = .timer a ∧ s.running w ∧ s.repeat_ a = 0
  | .listStop k a, _ => w = .listed k a
  | .clear w', _ => w' = w
  | .fdKill fd, _ => ∃ a, w = .io a ∧ s.Watches fd a
  | .timersReify, _ => ∃ a, w = .timer a ∧ s.Due a ∧ s.repeat_ a = 0
  | .invoke _, .called (some w') _ => w' = w
  | _, _ => False

variable {s : View T} {w : W} {i : Nat}

theorem owes_again (s : View T) (a : Nat) :
    (s.again a).Owes w i ↔ s.Owes w i ∧ ¬ (w = .timer a ∧ s.running w ∧ s.repeat_ a = 0) := by
  by_cases hrun : s.running (.timer a)
  · by_cases hrepeat : s.repeat_ a = 0
    · have heq : s.again a = s.stopTimer a := by rw [again, if_pos hrun, if_neg (not_not_intro hrepeat)]
      rw [heq, owes_stopTimer]
      refine and_congr_right fun _ => not_congr ⟨?_, And.left⟩
      rintro rfl
      exact ⟨rfl, hrun, hrepeat⟩
    · have howed : (s.again a).owed = s.owed := by rw [again, if_pos hrun, if_pos hrepeat]
      rw [owes_congr (congrFun howed w)]
      simp [hrepeat]
  · have howes : (s.again a).Owes w i ↔ s.Owes w i := by
      rw [again, if_neg hrun]
      split
      · exact owes_startTimer _ a
      · rfl
    rw [howes, iff_self_and]
    rintro - ⟨rfl, hyes, -⟩
    exact hrun hyes

theorem owes_expire (s : View T) :
    s.expire.Owes w i ↔
      s.Owes w i ∧ ¬ (∃ a, w = .timer a ∧ s.Due a ∧ s.repeat_ a = 0) ∨
        ∃ a, w = .timer a ∧ s.Due a ∧ EV_TIMEOUT.getLsbD i = true := by
  cases w with
  | timer a =>
    by_cases ha : s.Due a
    · have howed : s.expire.owed (.timer a) =
          Queue.merged (if s.repeat_ a = 0 then none else s.owed (.timer a)) EV_TIMEOUT := (if_pos ha).trans (by congr)
      rw [Owes, howed, merged_iff]
      by_cases hrepeat : s.repeat_ a = 0
      · simp [ha, hrepeat]
      · simp [ha, hrepeat, Owes]
    · have howed : s.expire.owed (.timer a) = s.owed (.timer a) := if_neg ha
      rw [owes_congr howed]
      simp [ha]
  | _ => simp [Owes, expire]

theorem owes_queueListed (s : View T) (k : Listed) :
    (s.after (.queueListed k) .done).Owes w i ↔
      s.Owes w i ∨ ∃ a, w = .listed k a ∧ s.running (.listed k a) ∧ k.type.getLsbD i = true := by
  cases w with
  | listed k' a =>
    by_cases ha : k' = k ∧ s.running (.listed k a)
    · have howed : (s.after (.queueListed k) .done).owed (.listed k' a) =
          Queue.merged (s.owed (.listed k' a)) k.type := if_pos ha
      rw [Owes, howed, merged_iff]
      simp [ha.1, ha.2, Owes]
    · have howed : (s.after (.queueListed k) .done).owed (.listed k' a) = s.owed (.listed k' a) := if_neg ha
      have hno : ¬ ∃ b, W.listed k' a = .listed k b ∧ s.running (.listed k b) ∧ k.type.getLsbD i = true := by
        rintro ⟨b, hb, hrun, -⟩
        obtain ⟨rfl, rfl⟩ := W.listed.inj hb
        exact ha ⟨rfl, hrun⟩
      rw [owes_congr howed, or_iff_left hno]
  | _ => simp [Owes, after]

/-- **What is owed after a call**: what was owed and is not taken, and what the call gives. -/
theorem owes_after (s : View T) (c : Call T) (ans : Answer) :
    (s.after c ans).Owes w i ↔ s.Owes w i ∧ ¬ s.Takes w c ans ∨ s.Gives w i c := by
  cases c with
  | ioStart a =>
    refine @Iff.trans _ (s.Owes w i) _ (owes_congr ?_) (by simp [Takes, Gives])
    rw [after, start]
    split <;> rfl
  | ioStop a =>
    refine @Iff.trans _ ((s.stop (.io a)).Owes w i) _ (owes_congr ?_) (by simp [Takes, Gives, owes_stop])
    rw [after]
    split <;> rfl
  | timerStart a => exact (owes_startTimer s a).trans (by simp [Takes, Gives])
  | timerStop a => exact (owes_stopTimer s a).trans (by simp [Takes, Gives])
  | timerAgain a => exact (owes_again s a).trans (by simp [Takes, Gives])
  | listStart k a =>
    refine @Iff.trans _ (s.Owes w i) _ (owes_congr ?_) (by simp [Takes, Gives])
    rw [after, start]
    split <;> rfl
  | listStop k a => exact (owes_stop s (.listed k a)).trans (by simp [Takes, Gives])
  | feed w' revents => exact (owes_give s w' revents).trans (by simp [Takes, Gives])
  | feedFd fd revents => exact (owes_giveFd s fd revents).trans (by simp [Takes, Gives])
  | clear w' =>
    refine @Iff.trans _ ((s.stop w').Owes w i) _ (owes_congr rfl) ?_
    simp [Takes, Gives, owes_stop, eq_comm]
  | fdEvent fd revents =>
    by_cases hchanged : s.changed fd
    · have heq : s.after (.fdEvent fd revents) ans = s := if_pos hchanged
      rw [heq]
      simp [Takes, Gives, hchanged]
    · have heq : s.after (.fdEvent fd revents) ans = s.giveFd fd revents := if_neg hchanged
      rw [heq, owes_giveFd]
      simp [Takes, Gives, hchanged]
  | fdKill fd => exact owes_kill s fd
  | timersReify => exact owes_expire s
  | queueListed k => exact (owes_queueListed s k).trans (by simp [Takes, Gives])
  | invoke pri =>
    match ans with
    | .called (some w') events =>
      refine @Iff.trans _ ((s.stop w').Owes w i) _ (owes_congr rfl) ?_
      simp [Takes, Gives, owes_stop, eq_comm]
    | .called none events => simp [after, Takes, Gives]
    | .done => simp [after, Takes, Gives]
    | .events events => simp [after, Takes, Gives]
  | _ => exact @Iff.trans _ (s.Owes w i) _ (owes_congr rfl) (by simp [Takes, Gives])

end Call

/-! ## Runs -/

section Runs

variable {T : Type v} [LinearOrder T] [Zero T] [Add T] [Sub T]

/-- A call that the contract allows, and its answer. -/
def Step (s : View T) (x : Call T × Answer) (s' : View T) : Prop :=
  s.Contract x.1 ∧ s.Answers x.1 x.2 ∧ s' = s.after x.1 x.2

variable {s s' : View T} {tr : List ((Call T × Answer) × View T)} {w : W} {i : Nat}

/-- No call takes from the watcher what is owed to it. -/
def Kept (w : W) (s : View T) (tr : List ((Call T × Answer) × View T)) : Prop :=
  Lts.Always (fun s x _ => ¬ s.Takes w x.1 x.2) s tr

/-- A call gave the event `i` to the watcher, and no call after it took it away. -/
def GivenIn (w : W) (i : Nat) (s : View T) (tr : List ((Call T × Answer) × View T)) : Prop :=
  ∃ tr1 x s' tr2, tr = tr1 ++ (x, s') :: tr2 ∧ (Lts.last s tr1).Gives w i x.1 ∧ Kept w s' tr2

omit [Add T] [Sub T] in
theorem givenIn_cons {x : Call T × Answer} :
    GivenIn w i s ((x, s') :: tr) ↔ s.Gives w i x.1 ∧ Kept w s' tr ∨ GivenIn w i s' tr := by
  constructor
  · rintro ⟨tr1, y, s1, tr2, heq, hgives, hkept⟩
    cases tr1 with
    | nil =>
      obtain ⟨hy, rfl⟩ := List.cons.inj heq
      obtain ⟨rfl, rfl⟩ := Prod.mk.inj hy
      exact Or.inl ⟨hgives, hkept⟩
    | cons z tr1 =>
      obtain ⟨rfl, rfl⟩ := List.cons.inj heq
      exact Or.inr ⟨tr1, y, s1, tr2, rfl, hgives, hkept⟩
  · rintro (⟨hgives, hkept⟩ | ⟨tr1, y, s1, tr2, rfl, hgives, hkept⟩)
    · exact ⟨[], x, s', tr, rfl, hgives, hkept⟩
    · exact ⟨(x, s') :: tr1, y, s1, tr2, rfl, hgives, hkept⟩

/-- **What is owed after a run.** -/
theorem owes_run (h : Lts.Run Step s tr) :
    (Lts.last s tr).Owes w i ↔ s.Owes w i ∧ Kept w s tr ∨ GivenIn w i s tr := by
  induction h with
  | nil s =>
    have hno : ¬ GivenIn w i s [] := by
      rintro ⟨tr1, x, s1, tr2, heq, -⟩
      simp at heq
    simp [Lts.last, Kept, hno]
  | @cons s s' x tr hs _ ih =>
    obtain ⟨-, -, rfl⟩ := hs
    rw [Lts.last, ih, owes_after, givenIn_cons]
    have hkept : Kept w s ((x, s.after x.1 x.2) :: tr) ↔ ¬ s.Takes w x.1 x.2 ∧ Kept w (s.after x.1 x.2) tr :=
      Lts.always_cons
    rw [hkept, or_and_right, and_assoc, or_assoc]

/-- **A watcher is called with exactly the events that it was given** and that were not taken from it. -/
theorem called_iff (h : Lts.Run Step s tr) (hs : ∀ w, s.owed w = none) {pri : Int} {events : Events}
    (hcall : Step (Lts.last s tr) (.invoke pri, .called (some w) events) s') :
    events.getLsbD i = true ↔ GivenIn w i s tr := by
  have howed : (Lts.last s tr).owed w = some events := hcall.2.1.1
  have howes := @owes_run _ _ _ _ _ s tr w i h
  rw [Owes, howed] at howes
  simpa [Owes, hs w] using howes

/-- **A watcher stays quiet** as long as it is not started or fed. -/
theorem Quiet.after (h : s.Quiet w) {c : Call T} (hc : ¬ Wakes w c) (ans : Answer) : (s.after c ans).Quiet w := by
  cases c with
  | ioStart a =>
    rw [View.after]
    split
    · exact h
    · exact h.start hc
  | ioStop a =>
    rw [View.after]
    split
    · exact h.stop (.io a)
    · exact h.stop (.io a)
  | timerStart a => exact h.startTimer hc
  | timerStop a => exact h.stopTimer a
  | timerAgain a =>
    rw [View.after, View.again]
    split
    · split
      · exact h
      · exact h.stopTimer a
    · split
      · exact Quiet.startTimer (s := { s with at_ := Function.update s.at_ a (s.repeat_ a) }) h hc
      · exact h
  | listStart k a => exact h.start hc
  | listStop k a => exact h.stop _
  | feed w' revents => exact ⟨h.1, (Function.update_of_ne hc _ _).trans h.2⟩
  | feedFd fd revents => exact h.giveFd fd revents
  | clear w' => exact ⟨h.1, (h.stop w').2⟩
  | fdEvent fd revents =>
    rw [View.after]
    split
    · exact h
    · exact h.giveFd fd revents
  | fdKill fd =>
    refine ⟨fun hrun => h.1 hrun.1, ?_⟩
    cases w with
    | io a => exact (if_neg fun hwatches => h.1 hwatches.1).trans h.2
    | _ => exact h.2
  | timersReify =>
    refine ⟨fun hrun => h.1 hrun.1, ?_⟩
    cases w with
    | timer a => exact (if_neg fun hdue => h.1 hdue.1).trans h.2
    | _ => exact h.2
  | queueListed k =>
    refine ⟨h.1, ?_⟩
    cases w with
    | listed k' a =>
      refine (if_neg ?_).trans h.2
      rintro ⟨rfl, hrun⟩
      exact h.1 hrun
    | _ => exact h.2
  | invoke pri =>
    match ans with
    | .called (some w') events => exact ⟨h.1, (h.stop w').2⟩
    | .called none events => exact h
    | .done => exact h
    | .events events => exact h
  | _ => exact h

/-- A call stops the watcher. -/
def Stops (w : W) : Call T → Prop
  | .ioStop a => w = .io a
  | .timerStop a => w = .timer a
  | .listStop k a => w = .listed k a
  | _ => False

theorem quiet_stops {c : Call T} (hc : Stops w c) (ans : Answer) : (s.after c ans).Quiet w := by
  have hstop (w : W) : (s.stop w).Quiet w := ⟨fun hrun => hrun.1 rfl, Function.update_self _ _ _⟩
  cases c with
  | ioStop a =>
    obtain rfl : w = .io a := hc
    rw [View.after]
    split
    · exact hstop (.io a)
    · exact hstop (.io a)
  | timerStop a =>
    obtain rfl : w = .timer a := hc
    rw [View.after, View.stopTimer]
    split
    · exact hstop (.timer a)
    · exact hstop (.timer a)
  | listStop k a =>
    obtain rfl : w = .listed k a := hc
    exact hstop (.listed k a)
  | _ => exact hc.elim

/-- **A watcher that is quiet is not called** in a run where it is not started or fed. -/
theorem silent (h : Lts.Run Step s tr) (hs : s.Quiet w)
    (hno : Lts.Always (fun _ x _ => ¬ Wakes w x.1) s tr) :
    Lts.Always (fun _ x _ => ∀ events, x.2 ≠ .called (some w) events) s tr := by
  refine h.always_of_guard (I := fun s => s.Quiet w) (G := fun _ x _ => ¬ Wakes w x.1) ?_ hs hno
  rintro s ⟨c, ans⟩ s' hquiet hc ⟨-, hans, rfl⟩
  refine ⟨?_, hquiet.after hc ans⟩
  rintro events rfl
  cases c with
  | invoke pri =>
    have howed : s.owed w = some events := hans.1
    rw [hquiet.2] at howed
    exact absurd howed (by simp)
  | _ => exact hans

end Runs

end View

end CodeSLoop.Ev
