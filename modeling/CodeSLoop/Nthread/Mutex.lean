import CodeSLoop.Lib.Run
import CodeSLoop.Lib.CondVar
/-!
# `nthread::mutex`

A recursive mutex, kept by hand over one condition variable: the owner (`locked_by_`), how often
it holds the mutex (`locked_`), and how many threads are inside `lock` (`waiting_`). Every critical
section is one step of `Step`. The owner's nesting depth is bookkeeping beside the code's own
fields, so that what the counter should say can be compared with what it says.

`unlock` signals one waiter each time; `recursive_unlock` frees the mutex without a signal, and a
waiter that was signalled may time out and leave without looking whether the mutex is free. In
both cases the threads that sleep stay asleep beside a free mutex. `always_held_iff` says that
nothing else does this, and that owner and depth are right until `locked_` wraps around.

What happens when a thread exits while it owns the mutex (the destructor of `unlock_key_`) is left
out, and so is the destructor of the mutex, so `invalid_` is false throughout.
-/

namespace CodeSLoop

namespace Mutex

open Lts

universe u

variable {τ : Type u}

/-- `mutex::impl`. No thread is called 0, so a `locked_by_` of 0 is `none`; `depth` is
    bookkeeping. -/
structure State (τ : Type u) where
  waiting : UInt32
  locked : UInt32
  lockedBy : Option τ
  cond : CondVar τ
  depth : τ → Nat

def init : State τ := ⟨0, 0, none, .empty, fun _ => 0⟩

/-- The calls with what they return; `none` is a call that goes to sleep. -/
inductive Act (τ : Type u)
  | lock (w : Waiter τ) (ret : Option Bool)
  | resume (w : Waiter τ) (ret : Option Bool)
  | giveUp (w : Waiter τ)
  | tryLock (t : τ) (ret : Bool)
  | unlock (t : τ) (ret : Bool)
  | recursiveUnlock (t : τ) (ret : Bool)
  | moves (e : CondVar.Event τ)

namespace State

/-- `is_locked_nl`. -/
def IsLocked (s : State τ) : Prop := 0 < s.locked

/-- `is_locked_by_me_nl`, for the thread `t`. -/
def IsLockedBy (s : State τ) (t : τ) : Prop := s.lockedBy = some t

/-- The condition of the loops in `lock`: somebody else has the mutex. -/
def Blocks (s : State τ) (t : τ) : Prop := s.IsLocked ∧ ¬ s.IsLockedBy t

instance (s : State τ) : Decidable s.IsLocked := inferInstanceAs (Decidable (0 < s.locked))

variable [DecidableEq τ]

instance (s : State τ) (t : τ) : Decidable (s.IsLockedBy t) :=
  inferInstanceAs (Decidable (s.lockedBy = some t))

/-- `++locked_; locked_by_ = pthread_self()`. -/
def take (s : State τ) (t : τ) : State τ :=
  { s with
    locked := s.locked + 1
    lockedBy := some t
    depth := fun u => if u = t then s.depth t + 1 else s.depth u }

/-- `--locked_; if( locked_ == 0 ) locked_by_ = 0`. -/
def drop (s : State τ) (t : τ) : State τ :=
  { s with
    locked := s.locked - 1
    lockedBy := if s.locked - 1 = 0 then none else s.lockedBy
    depth := fun u => if u = t then s.depth t - 1 else s.depth u }

/-- `locked_ = 0; locked_by_ = 0`. -/
def dropAll (s : State τ) (t : τ) : State τ :=
  { s with
    locked := 0
    lockedBy := none
    depth := fun u => if u = t then 0 else s.depth u }

end State

variable [DecidableEq τ]

inductive Step : State τ → Act τ → State τ → Prop
  | lockTake {s : State τ} {w : Waiter τ} :
      w.thread ∉ s.cond.threads → ¬ s.Blocks w.thread →
      Step s (.lock w (some true)) (s.take w.thread)
  | lockSleep {s : State τ} {w : Waiter τ} :
      w.thread ∉ s.cond.threads → s.Blocks w.thread →
      Step s (.lock w none) { s with waiting := s.waiting + 1, cond := s.cond.sleep w }
  | resumeTake {s : State τ} {w : Waiter τ} :
      w ∈ s.cond.woken → ¬ s.Blocks w.thread →
      Step s (.resume w (some true))
        { s.take w.thread with waiting := s.waiting - 1, cond := s.cond.back w }
  | resumeSleep {s : State τ} {w : Waiter τ} :
      w ∈ s.cond.woken → s.Blocks w.thread →
      Step s (.resume w none) { s with cond := (s.cond.back w).sleep w }
  | giveUp {s : State τ} {w : Waiter τ} :
      w ∈ s.cond.expired →
      Step s (.giveUp w) { s with waiting := s.waiting - 1, cond := s.cond.giveUp w }
  | tryLockTake {s : State τ} {t : τ} :
      t ∉ s.cond.threads → ¬ s.Blocks t → Step s (.tryLock t true) (s.take t)
  | tryLockNone {s : State τ} {t : τ} :
      t ∉ s.cond.threads → s.Blocks t → Step s (.tryLock t false) s
  | unlock {s : State τ} {t : τ} {c : CondVar τ} :
      t ∉ s.cond.threads → s.IsLocked → s.IsLockedBy t →
      (if 0 < s.waiting then CondVar.Signal s.cond c else c = s.cond) →
      Step s (.unlock t true) { s.drop t with cond := c }
  | unlockNone {s : State τ} {t : τ} :
      t ∉ s.cond.threads → ¬ (s.IsLocked ∧ s.IsLockedBy t) → Step s (.unlock t false) s
  -- No signal here.
  | recursiveUnlock {s : State τ} {t : τ} :
      t ∉ s.cond.threads → s.IsLocked → s.IsLockedBy t →
      Step s (.recursiveUnlock t true) (s.dropAll t)
  | recursiveUnlockNone {s : State τ} {t : τ} :
      t ∉ s.cond.threads → ¬ (s.IsLocked ∧ s.IsLockedBy t) →
      Step s (.recursiveUnlock t false) s
  | moves {s : State τ} {e : CondVar.Event τ} {c : CondVar τ} :
      CondVar.Moves s.cond e c → Step s (.moves e) { s with cond := c }

namespace State

variable {s s' : State τ} {a : Act τ} {t : τ}

/-- A thread that has locked the mutex more often than unlocked it. -/
def Owns (s : State τ) (t : τ) : Prop := 0 < s.depth t

/-- There is at most one owner, its depth is `locked_`, and without one both fields are 0. -/
structure Held (s : State τ) : Prop where
  unique : ∀ t u, s.Owns t → s.Owns u → t = u
  owner : ∀ t, s.Owns t → s.locked.toNat = s.depth t ∧ s.lockedBy = some t
  free : (∀ t, ¬ s.Owns t) → s.locked = 0 ∧ s.lockedBy = none

/-- The mutex is free, somebody is asleep, and nobody has been signalled. -/
def Lost (s : State τ) : Prop := s.locked = 0 ∧ s.cond.blocked ≠ [] ∧ s.cond.woken = []

/-- `locked_` does not wrap around; the mutex is freed without a signal, and a signalled thread
    times out beside a free mutex, only if nobody sleeps or others are woken. -/
def Spares (s : State τ) : Act τ → Prop
  | .lock _ (some _) | .resume _ (some _) | .tryLock _ true => s.locked.toNat + 1 < 4294967296
  | .unlock _ true => s.locked = 1 → s.waiting = 0 → s.cond.blocked ≠ [] → s.cond.woken ≠ []
  | .recursiveUnlock _ true => s.cond.blocked ≠ [] → s.cond.woken ≠ []
  | .moves (.swallow _) => s.locked = 0 → s.cond.blocked = [] ∨ 1 < s.cond.woken.length
  | _ => True

omit [DecidableEq τ] in
theorem held_init : (init : State τ).Held :=
  ⟨fun _ _ ht => absurd ht (Nat.lt_irrefl 0), fun _ ht => absurd ht (Nat.lt_irrefl 0),
    fun _ => ⟨rfl, rfl⟩⟩

/-- A thread that the mutex does not block is the owner, or there is none. -/
theorem Held.depth_eq (h : s.Held) (hb : ¬ s.Blocks t) :
    s.locked.toNat = s.depth t ∧ ∀ u, u ≠ t → s.depth u = 0 := by
  by_cases hex : ∃ o, s.Owns o
  · obtain ⟨o, ho⟩ := hex
    obtain ⟨hdepth, hby⟩ := h.owner o ho
    have hlocked : s.IsLocked := by
      show 0 < s.locked.toNat
      rw [hdepth]
      exact ho
    have hot : o = t := by
      by_contra hne
      exact hb ⟨hlocked, fun hm => hne (Option.some.inj (hby.symm.trans hm))⟩
    subst hot
    refine ⟨hdepth, fun u hu => Nat.eq_zero_of_not_pos fun hpos => ?_⟩
    exact hu (h.unique u o hpos ho)
  · have hnone : ∀ u, ¬ s.Owns u := fun u hu => hex ⟨u, hu⟩
    have hzero : ∀ u, s.depth u = 0 := fun u => Nat.eq_zero_of_not_pos (hnone u)
    rw [(h.free hnone).1, hzero t]
    exact ⟨rfl, fun u _ => hzero u⟩

theorem held_of (hd : s.locked.toNat = s.depth t) (hu : ∀ u, u ≠ t → s.depth u = 0)
    (hby : s.lockedBy = if s.locked = 0 then none else some t) : s.Held := by
  have hown : ∀ u, s.Owns u → u = t := by
    intro u hpos
    by_contra hne
    exact Nat.ne_of_gt hpos (hu u hne)
  refine ⟨fun u v hou hov => (hown u hou).trans (hown v hov).symm, ?_, ?_⟩
  · intro u hou
    have heq := hown u hou
    subst heq
    have hne : s.locked ≠ 0 := CondVar.toNat_pos.mp (hd ▸ hou)
    rw [hby, if_neg hne]
    exact ⟨hd, rfl⟩
  · intro hfree
    have h0 : s.locked = 0 := by
      by_contra hne
      exact hfree t (Nat.lt_of_lt_of_eq (CondVar.toNat_pos.mpr hne) hd)
    rw [hby, if_pos h0]
    exact ⟨h0, rfl⟩

omit [DecidableEq τ] in
/-- Nothing but the waiters differs. -/
theorem Held.keep (h : s.Held) {waiting : UInt32} {c : CondVar τ} :
    State.Held { s with waiting := waiting, cond := c } :=
  ⟨h.unique, h.owner, h.free⟩

theorem held_take (h : s.Held) (hb : ¬ s.Blocks t) :
    (s.take t).Held ↔ s.locked.toNat + 1 < 4294967296 := by
  obtain ⟨hd, hu⟩ := h.depth_eq hb
  have hsum := CondVar.toNat_add_iff (k := s.locked) (l := 1)
  have hdt : (s.take t).depth t = s.locked.toNat + 1 := by
    show (if t = t then s.depth t + 1 else s.depth t) = _
    rw [if_pos rfl, hd]
  constructor
  · intro h'
    have hown : (s.take t).Owns t := by
      rw [Owns, hdt]
      exact Nat.succ_pos _
    exact hsum.mp ((h'.owner t hown).1.trans hdt)
  · intro hlt
    have hto : (s.locked + 1).toNat = s.locked.toNat + 1 := hsum.mpr hlt
    refine held_of (hto.trans hdt.symm) (fun u hne => ?_) ?_
    · show (if u = t then s.depth t + 1 else s.depth u) = 0
      rw [if_neg hne]
      exact hu u hne
    · have hne : s.locked + 1 ≠ 0 := CondVar.toNat_pos.mp (hto ▸ Nat.succ_pos _)
      exact (if_neg hne).symm

theorem held_drop (h : s.Held) (hl : s.IsLocked) (hm : s.IsLockedBy t) : (s.drop t).Held := by
  obtain ⟨hd, hu⟩ := h.depth_eq fun hb => hb.2 hm
  have hpred := CondVar.toNat_pred (CondVar.toNat_pos.mp hl)
  refine held_of (t := t) ?_ (fun u hne => ?_) ?_
  · show (s.locked - 1).toNat = if t = t then s.depth t - 1 else s.depth t
    rw [if_pos rfl]
    omega
  · show (if u = t then s.depth t - 1 else s.depth u) = 0
    rw [if_neg hne]
    exact hu u hne
  · show (if s.locked - 1 = 0 then none else s.lockedBy) = _
    rw [hm]
    rfl

theorem held_dropAll (h : s.Held) (hm : s.IsLockedBy t) : (s.dropAll t).Held := by
  obtain ⟨hd, hu⟩ := h.depth_eq fun hb => hb.2 hm
  refine held_of (t := t) ?_ (fun u hne => ?_) rfl
  · show 0 = if t = t then 0 else s.depth t
    rw [if_pos rfl]
  · show (if u = t then 0 else s.depth u) = 0
    rw [if_neg hne]
    exact hu u hne

/-! ## Wake-ups -/

omit [DecidableEq τ] in
theorem not_lost_iff : ¬ s.Lost ↔ (s.locked = 0 → s.cond.Covers 1) := by
  rw [CondVar.covers_one]
  constructor
  · intro h h0 hb hw
    exact h ⟨h0, hb, hw⟩
  · intro h ⟨h0, hb, hw⟩
    exact h h0 hb hw

omit [DecidableEq τ] in
theorem not_lost_of_locked (h : s.locked ≠ 0) : ¬ s.Lost := fun hl => h hl.1

/-- Taking the mutex, from wherever. -/
theorem good_take (h : s.Held) (hb : ¬ s.Blocks t) {waiting : UInt32} {c : CondVar τ} :
    State.Held { s.take t with waiting := waiting, cond := c } ∧
      ¬ State.Lost { s.take t with waiting := waiting, cond := c } ↔
    s.locked.toNat + 1 < 4294967296 := by
  constructor
  · intro ⟨h', _⟩
    exact (held_take h hb).mp h'.keep
  · intro hlt
    have hto : (s.locked + 1).toNat = s.locked.toNat + 1 := CondVar.toNat_add_iff.mpr hlt
    refine ⟨((held_take h hb).mpr hlt).keep, not_lost_of_locked ?_⟩
    exact CondVar.toNat_pos.mp (hto ▸ Nat.succ_pos _)

/-- **One step.** -/
theorem held_iff (h : s.Held) (hl : ¬ s.Lost) (hs : Step s a s') :
    s'.Held ∧ ¬ s'.Lost ↔ s.Spares a := by
  cases hs with
  | lockTake ht hb => exact good_take h hb
  | lockSleep ht hb =>
    exact iff_of_true ⟨h.keep, not_lost_of_locked (CondVar.toNat_pos.mp hb.1)⟩ trivial
  | resumeTake hw hb => exact good_take h hb
  | resumeSleep hw hb =>
    exact iff_of_true ⟨h.keep, not_lost_of_locked (CondVar.toNat_pos.mp hb.1)⟩ trivial
  | giveUp hw => exact iff_of_true ⟨h.keep, hl⟩ trivial
  | tryLockTake ht hb => exact good_take h hb
  | tryLockNone ht hb => exact iff_of_true ⟨h, hl⟩ trivial
  | @unlock t c ht hlk hm hsig =>
    refine (and_iff_right (held_drop h hlk hm).keep).trans ?_
    rw [not_lost_iff]
    show (s.locked - 1 = 0 → c.Covers 1) ↔ _
    split at hsig
    next hw =>
      have hne : s.waiting ≠ 0 := CondVar.toNat_pos.mp hw
      exact iff_of_true (fun _ => hsig.covers CondVar.covers_zero) fun _ h0 => absurd h0 hne
    next hw =>
      have h0 : s.waiting = 0 := by
        by_contra hne
        exact hw (CondVar.toNat_pos.mpr hne)
      rw [hsig, CondVar.covers_one, UInt32.sub_eq_iff_eq_add, UInt32.zero_add]
      exact ⟨fun h' h1 _ => h' h1, fun h' h1 => h' h1 h0⟩
  | unlockNone ht hn => exact iff_of_true ⟨h, hl⟩ trivial
  | recursiveUnlock ht hlk hm =>
    refine (and_iff_right (held_dropAll h hm)).trans ?_
    rw [not_lost_iff, CondVar.covers_one]
    exact ⟨fun h' => h' rfl, fun h' _ => h'⟩
  | recursiveUnlockNone ht hn => exact iff_of_true ⟨h, hl⟩ trivial
  | moves hm =>
    refine (and_iff_right h.keep).trans ?_
    rw [not_lost_iff] at hl ⊢
    cases hm with
    | spurious hw => exact iff_of_true (fun h0 => (hl h0).wake) trivial
    | timeout hw ht => exact iff_of_true (fun h0 => (hl h0).expire) trivial
    | swallow hw ht => exact forall_congr' fun h0 => CondVar.covers_swallow hw

/-- **All runs:** there is at most one owner, `locked_` is its depth, and the mutex is never free
    while threads sleep and none has been signalled, exactly when no step wraps `locked_` around
    or frees the mutex past those who sleep. -/
theorem always_held_iff {tr : List (Act τ × State τ)} (h : Run Step init tr) :
    Always (fun _ _ s' => s'.Held ∧ ¬ s'.Lost) init tr ↔
      Always (fun s a _ => s.Spares a) init tr := by
  refine h.always_iff (I := fun s => s.Held ∧ ¬ s.Lost) ?_ ?_ ⟨held_init, fun hl => hl.2.1 rfl⟩
  · intro s a s' ⟨hheld, hl⟩ hstep
    exact held_iff hheld hl hstep
  · intro s a s' _ _ hP
    exact hP

/-- A thread waits for another one that has locked twice. -/
theorem always_held_iff_twice : ∃ tr : List (Act Nat × State Nat),
    tr.map Prod.fst = [.lock ⟨0, false⟩ (some true), .tryLock 0 true, .lock ⟨1, false⟩ none,
      .unlock 0 true, .resume ⟨1, false⟩ none, .unlock 0 true, .resume ⟨1, false⟩ (some true)] ∧
    Always (fun _ _ s' => s'.Held ∧ ¬ s'.Lost) init tr := by
  refine ⟨_, rfl, (always_held_iff
    (.cons (.lockTake (w := ⟨0, false⟩) (by decide) (fun hb => absurd hb.1 (by decide))) <|
    .cons (.tryLockTake (t := 0) (by decide) (fun hb => hb.2 rfl)) <|
    .cons (.lockSleep (w := ⟨1, false⟩) (by decide) ⟨by decide, nofun⟩) <|
    .cons (.unlock (t := 0) (by decide) (by decide) rfl (.one ⟨1, false⟩ (by decide))) <|
    .cons (.resumeSleep (w := ⟨1, false⟩) (by decide) ⟨by decide, nofun⟩) <|
    .cons (.unlock (t := 0) (by decide) (by decide) rfl (.one ⟨1, false⟩ (by decide))) <|
    .cons (.resumeTake (w := ⟨1, false⟩) (by decide) (fun hb => absurd hb.1 (by decide))) <|
    .nil _)).mpr ?_⟩
  have h1 : 0 + 1 < 4294967296 := by decide
  have h2 : 1 + 1 < 4294967296 := by decide
  exact ⟨h1, h2, trivial, nofun, trivial, fun _ => nofun, h1, trivial⟩

/-- A thread sleeps while the owner frees the mutex at once. -/
theorem always_held_fails : ∃ tr : List (Act Nat × State Nat), Run Step init tr ∧
    tr.map Prod.fst = [.lock ⟨0, false⟩ (some true), .lock ⟨1, false⟩ none,
      .recursiveUnlock 0 true] ∧
    ¬ Always (fun _ _ s' => s'.Held ∧ ¬ s'.Lost) init tr := by
  refine ⟨_,
    .cons (.lockTake (w := ⟨0, false⟩) (by decide) (fun hb => absurd hb.1 (by decide))) <|
    .cons (.lockSleep (w := ⟨1, false⟩) (by decide) ⟨by decide, nofun⟩) <|
    .cons (.recursiveUnlock (t := 0) (by decide) (by decide) rfl) <| .nil _, rfl, ?_⟩
  intro ⟨_, _, ⟨_, hlost⟩, _⟩
  exact hlost ⟨rfl, by decide, rfl⟩

end State

end Mutex

end CodeSLoop
