import CodeSLoop.Lib.Run
import CodeSLoop.Lib.CondVar
/-!
# `nthread::event`

`event::impl` keeps a number of units (`available_`) and a number of callers inside `wait`
(`waiting_`) under one mutex and one condition variable. Every critical section is one step of
`Step`; a call of `wait` that has to sleep is one step up to its first sleep, and one more each
time the thread has the mutex again.

Three things make the units of `event` miscount, and no other: `notify` adds to `available_`
modulo 2^32; so does `wait` to `waiting_`; and a timed wait that was signalled may still end with
`ETIMEDOUT`, and then leaves without looking at `available_`, so the unit it was woken for stays
behind with nobody on the way to it. The destructor is not called while threads use the event, so
`invalid_` is false throughout.
-/

namespace CodeSLoop

namespace Event

open Lts

universe u

variable {τ : Type u}

/-- `event::impl`; the last two fields are bookkeeping of what callers were given. -/
structure State (τ : Type u) where
  waiting : UInt32
  available : UInt32
  cond : CondVar τ
  notified : Nat
  returned : Nat

def init : State τ := ⟨0, 0, .empty, 0, 0⟩

/-- The calls with what they return; `none` is a call that goes to sleep. -/
inductive Act (τ : Type u)
  | notify (n : UInt32) (ret : Bool)
  | notifyAll
  | clearAvailable
  | wait (w : Waiter τ) (ret : Option Bool)
  | resume (w : Waiter τ) (ret : Option Bool)
  | giveUp (w : Waiter τ)
  | waitNb (t : τ) (ret : Bool)
  | moves (e : CondVar.Event τ)

variable [DecidableEq τ]

/-- The wake-ups of `notify`, which `pevent` has word for word. -/
inductive Notified (waiting available : UInt32) : CondVar τ → CondVar τ → Prop
  | nobody {c : CondVar τ} : waiting = 0 → Notified waiting available c c
  | all {c : CondVar τ} :
      waiting ≠ 0 → waiting ≤ available → Notified waiting available c c.broadcast
  | some {c c' : CondVar τ} :
      waiting ≠ 0 → available < waiting → CondVar.Signals available.toNat c c' →
      Notified waiting available c c'

inductive Step : State τ → Act τ → State τ → Prop
  | notifyNone {s : State τ} : Step s (.notify 0 false) s
  | notify {s : State τ} {n : UInt32} {c : CondVar τ} :
      n ≠ 0 → Notified s.waiting (s.available + n) s.cond c →
      Step s (.notify n true)
        { s with available := s.available + n, cond := c, notified := s.notified + n.toNat }
  | notifyAll {s : State τ} :
      Step s .notifyAll
        { s with
          available := if s.available ≤ s.waiting then s.waiting else s.available
          cond := if 0 < s.waiting then s.cond.broadcast else s.cond }
  | clearAvailable {s : State τ} : Step s .clearAvailable { s with available := 0 }
  | waitTake {s : State τ} {w : Waiter τ} :
      w.thread ∉ s.cond.threads → s.available ≠ 0 →
      Step s (.wait w (some true))
        { s with available := s.available - 1, returned := s.returned + 1 }
  | waitSleep {s : State τ} {w : Waiter τ} :
      w.thread ∉ s.cond.threads → s.available = 0 →
      Step s (.wait w none) { s with waiting := s.waiting + 1, cond := s.cond.sleep w }
  | resumeTake {s : State τ} {w : Waiter τ} :
      w ∈ s.cond.woken → s.available ≠ 0 →
      Step s (.resume w (some true))
        { s with
          waiting := s.waiting - 1
          available := s.available - 1
          cond := s.cond.back w
          returned := s.returned + 1 }
  | resumeSleep {s : State τ} {w : Waiter τ} :
      w ∈ s.cond.woken → s.available = 0 →
      Step s (.resume w none) { s with cond := (s.cond.back w).sleep w }
  -- `ETIMEDOUT`: `ret` is false, and `available_` is not looked at.
  | giveUp {s : State τ} {w : Waiter τ} :
      w ∈ s.cond.expired →
      Step s (.giveUp w) { s with waiting := s.waiting - 1, cond := s.cond.giveUp w }
  | waitNbTake {s : State τ} {t : τ} :
      t ∉ s.cond.threads → s.available ≠ 0 →
      Step s (.waitNb t true)
        { s with available := s.available - 1, returned := s.returned + 1 }
  | waitNbNone {s : State τ} {t : τ} :
      t ∉ s.cond.threads → s.available = 0 → Step s (.waitNb t false) s
  | moves {s : State τ} {e : CondVar.Event τ} {c : CondVar τ} :
      CondVar.Moves s.cond e c → Step s (.moves e) { s with cond := c }

/-- Woken threads that go on. -/
def Resumes (s : State τ) (a : Act τ) (s' : State τ) : Prop :=
  Step s a s' ∧ ∃ w ret, a = .resume w ret

theorem Notified.inside {k l : UInt32} {c c' : CondVar τ} (h : Notified k l c c') :
    c'.inside.Perm c.inside := by
  cases h with
  | nobody hk => exact List.Perm.refl _
  | all hk hl => exact List.Perm.refl _
  | some hk hl hs => exact hs.inside

/-- `notify` wakes enough threads for all units. -/
theorem Notified.covers {k l : UInt32} {c c' : CondVar τ} (h : Notified k l c c')
    (hk : CondVar.Counted k c) : c'.Covers l.toNat := by
  cases h with
  | nobody h0 =>
    rw [h0] at hk
    exact Or.inl hk.nobody
  | all h0 hl => exact CondVar.covers_broadcast
  | some h0 hl hs => exact (hs.covers CondVar.covers_zero).mono (Nat.zero_add _).ge

namespace State

variable {s s' : State τ} {a : Act τ}


/-- Every unit that `notify` was given is there or was taken by a call that returned `true`, and
    `waiting_` is the number of threads inside `wait`. -/
structure Counts (s : State τ) : Prop where
  units : s.returned + s.available.toNat = s.notified
  threads : s.cond.threads.Nodup
  waiting : CondVar.Counted s.waiting s.cond

/-- There is a unit, somebody is asleep, and nobody is on the way to it. -/
def Lost (s : State τ) : Prop := s.available ≠ 0 ∧ s.cond.blocked ≠ [] ∧ s.cond.woken = []

/-- The calls of a semaphore. -/
def InUse : Act τ → Prop
  | .notifyAll | .clearAvailable => False
  | _ => True

/-- Nothing is lost in this step: the counters do not wrap around, and a signalled thread does
    not time out, unless the others that are woken are enough for all units. -/
def Spares (s : State τ) : Act τ → Prop
  | .notify n _ => s.available.toNat + n.toNat < 4294967296
  | .wait _ none => s.cond.threads.length + 1 < 4294967296
  | .moves (.swallow _) => s.cond.blocked = [] ∨ s.available.toNat < s.cond.woken.length
  | _ => True

omit [DecidableEq τ] in
theorem take_units (h : s.returned + s.available.toNat = s.notified) (ha : s.available ≠ 0) :
    s.returned + 1 + (s.available - 1).toNat = s.notified := by
  rw [Nat.add_assoc, Nat.add_comm 1, CondVar.toNat_pred ha]
  exact h

omit [DecidableEq τ] in
theorem covers_of_none {c : CondVar τ} {k : UInt32} (hk : k = 0) : c.Covers k.toNat := by
  rw [hk]
  exact CondVar.covers_zero

/-- Somebody woken goes on: it takes a unit, or there is none. -/
theorem covers_resume {w : Waiter τ} {ret : Option Bool} (h : s.cond.Covers s.available.toNat)
    (hs : Step s (.resume w ret) s') : s'.cond.Covers s'.available.toNat := by
  cases hs with
  | resumeTake hw ha =>
    refine (CondVar.covers_back hw).mpr ?_
    rw [CondVar.toNat_pred ha]
    exact h
  | resumeSleep hw ha => exact covers_of_none ha

/-- When more units than woken threads are there while somebody sleeps, one unit is left with
    nobody on the way to it after all of these have gone on. -/
theorem leads_lost : ∀ (n : Nat) {s : State τ}, s.cond.woken.length = n →
    s.cond.blocked ≠ [] → n < s.available.toNat → ∃ s', Leads Resumes s s' ∧ s'.Lost := by
  intro n
  induction n with
  | zero =>
    intro s hn hb ha
    exact ⟨s, .refl, CondVar.toNat_pos.mp ha, hb, List.length_eq_zero_iff.mp hn⟩
  | succ n ih =>
    intro s hn hb ha
    obtain ⟨w, hw⟩ := List.exists_mem_of_length_pos (by rw [hn]; exact Nat.succ_pos n)
    have hav : s.available ≠ 0 := CondVar.toNat_pos.mp (Nat.zero_lt_of_lt ha)
    have hlen : (s.cond.woken.erase w).length = n := by
      rw [List.length_erase_of_mem hw, hn]
      rfl
    have hlt : n < (s.available - 1).toNat := by
      have hpred := CondVar.toNat_pred hav
      omega
    obtain ⟨s', hs', hlost⟩ := @ih
      ⟨s.waiting - 1, s.available - 1, s.cond.back w, s.notified, s.returned + 1⟩ hlen hb hlt
    exact ⟨s', .head ⟨.resumeTake hw hav, w, _, rfl⟩ hs', hlost⟩

theorem settled_iff :
    Settled Resumes (fun s : State τ => ¬ s.Lost) s ↔ s.cond.Covers s.available.toNat := by
  constructor
  · intro h
    by_contra hc
    obtain ⟨hb, hlt⟩ := not_or.mp hc
    obtain ⟨s', hs', hlost⟩ := leads_lost _ rfl hb (Nat.lt_of_not_le hlt)
    exact h s' hs' hlost
  · intro h
    refine settled_of_inv (I := fun s => s.cond.Covers s.available.toNat) ?_ ?_ h
    · intro s a s' hc ⟨hs, w, ret, ha⟩
      subst ha
      exact covers_resume hc hs
    · intro s hc ⟨ha, hb, hw⟩
      rcases hc with hnil | hle
      · exact hb hnil
      · rw [hw] at hle
        exact Nat.not_lt_of_le hle (CondVar.toNat_pos.mpr ha)

omit [DecidableEq τ] in
theorem counts_init : (init : State τ).Counts := ⟨rfl, List.nodup_nil, rfl⟩

omit [DecidableEq τ] in
/-- Steps that take no unit and give none. -/
theorem Counts.moved (h : s.Counts) (hp : s'.cond.inside.Perm s.cond.inside)
    (hw : s'.waiting = s.waiting) (hu : s'.returned + s'.available.toNat = s'.notified) :
    s'.Counts where
  units := hu
  threads := CondVar.nodup_perm hp h.threads
  waiting := by
    rw [hw]
    exact h.waiting.perm hp

omit [DecidableEq τ] in
/-- Threads that leave `wait`. -/
theorem Counts.leave (h : s.Counts) {w : Waiter τ}
    (hp : s.cond.inside.Perm (w :: s'.cond.inside)) (hw : s'.waiting = s.waiting - 1)
    (hu : s'.returned + s'.available.toNat = s'.notified) : s'.Counts where
  units := hu
  threads := CondVar.nodup_leave hp h.threads
  waiting := by
    rw [hw]
    exact h.waiting.leave hp

/-- **One step.** -/
theorem counts_iff (h : s.Counts) (hc : s.cond.Covers s.available.toNat) (hu : InUse a)
    (hs : Step s a s') : s'.Counts ∧ s'.cond.Covers s'.available.toNat ↔ s.Spares a := by
  have hunits := h.units
  cases hs with
  | notifyNone => exact iff_of_true ⟨h, hc⟩ (by exact s.available.toNat_lt)
  | @notify n c hn hw =>
    have hcov := hw.covers h.waiting
    have hsum := CondVar.toNat_add_iff (k := s.available) (l := n)
    constructor
    · intro ⟨hcounts, _⟩
      have hnew : s.returned + (s.available + n).toNat = s.notified + n.toNat := hcounts.units
      exact hsum.mp (by omega)
    · intro hlt
      refine ⟨h.moved hw.inside rfl ?_, hcov⟩
      show s.returned + (s.available + n).toNat = s.notified + n.toNat
      rw [hsum.mpr hlt, ← Nat.add_assoc, hunits]
  | notifyAll => exact hu.elim
  | clearAvailable => exact hu.elim
  | waitTake ht ha =>
    refine iff_of_true ⟨h.moved (List.Perm.refl _) rfl (take_units hunits ha), ?_⟩ trivial
    exact hc.mono (Nat.le_of_succ_le (CondVar.toNat_pred ha).le)
  | @waitSleep w ht ha =>
    refine Iff.trans ?_ (CondVar.counted_sleep (w := w) h.waiting)
    constructor
    · intro ⟨hcounts, _⟩
      exact hcounts.waiting
    · intro hw
      exact ⟨⟨hunits, CondVar.nodup_sleep ht h.threads, hw⟩, covers_of_none ha⟩
  | resumeTake hw ha =>
    refine iff_of_true ⟨h.leave (CondVar.inside_back hw) rfl (take_units hunits ha), ?_⟩ trivial
    exact covers_resume hc (.resumeTake hw ha)
  | resumeSleep hw ha =>
    refine iff_of_true ⟨h.moved (CondVar.inside_back hw).symm rfl hunits, ?_⟩ trivial
    exact covers_of_none ha
  | giveUp hw =>
    exact iff_of_true ⟨h.leave (CondVar.inside_giveUp hw) rfl hunits, hc⟩ trivial
  | waitNbTake ht ha =>
    refine iff_of_true ⟨h.moved (List.Perm.refl _) rfl (take_units hunits ha), ?_⟩ trivial
    exact hc.mono (Nat.le_of_succ_le (CondVar.toNat_pred ha).le)
  | waitNbNone ht ha => exact iff_of_true ⟨h, hc⟩ trivial
  | moves hm =>
    have hcounts : State.Counts { s with cond := _ } := h.moved hm.inside rfl hunits
    cases hm with
    | spurious hw => exact iff_of_true ⟨hcounts, hc.wake⟩ trivial
    | timeout hw ht => exact iff_of_true ⟨hcounts, hc.expire⟩ trivial
    | swallow hw ht => exact (and_iff_right hcounts).trans (CondVar.covers_swallow hw)

/-- **All runs** of `notify`, `wait` and `wait_nb`: the units and the threads are counted right,
    and no state is reached, or left to be reached by the woken threads alone, in which a unit
    stays behind while somebody sleeps, exactly when no step wraps a counter around or lets a
    signalled thread time out that was needed. -/
theorem always_counts_iff {tr : List (Act τ × State τ)} (h : Run Step init tr)
    (huse : Always (fun _ a _ => InUse a) init tr) :
    Always (fun _ _ s' => s'.Counts ∧ Settled Resumes (fun s => ¬ s.Lost) s') init tr ↔
      Always (fun s a _ => s.Spares a) init tr := by
  refine h.always_iff_of_guard (I := fun s => s.Counts ∧ s.cond.Covers s.available.toNat)
    ?_ ?_ ⟨counts_init, CondVar.covers_zero⟩ huse
  · intro s a s' ⟨hcounts, hc⟩ hu hstep
    exact (and_congr_right fun _ => settled_iff).trans (counts_iff hcounts hc hu hstep)
  · intro s a s' _ _ _ ⟨hcounts, hsettled⟩
    exact ⟨hcounts, settled_iff.mp hsettled⟩

/-- A thread sleeps, is notified and goes on. -/
theorem always_counts_iff_handover : ∃ tr : List (Act Nat × State Nat),
    tr.map Prod.fst = [.wait ⟨0, false⟩ none, .notify 1 true, .resume ⟨0, false⟩ (some true)] ∧
    Always (fun _ _ s' => s'.Counts ∧ Settled Resumes (fun s => ¬ s.Lost) s') init tr := by
  refine ⟨_, rfl, (always_counts_iff
    (.cons (.waitSleep (by decide) rfl) <|
    .cons (.notify (by decide) (.all (by decide) (by decide))) <|
    .cons (.resumeTake (List.mem_singleton.mpr rfl) (by decide)) <| .nil _)
    ⟨trivial, trivial, trivial, trivial⟩).mpr ?_⟩
  have hlt : 1 < 4294967296 := by decide
  exact ⟨hlt, hlt, trivial, trivial⟩

/-- `available_` wraps around; and of two sleeping threads the one that is signalled times out. -/
theorem always_counts_fails :
    (∃ tr : List (Act Nat × State Nat), Run Step init tr ∧
      tr.map Prod.fst = [.notify 4294967295 true, .notify 1 true] ∧
      ¬ Always (fun _ _ s' => s'.Counts ∧ ¬ s'.Lost) init tr) ∧
    ∃ tr : List (Act Nat × State Nat), Run Step init tr ∧
      tr.map Prod.fst = [.wait ⟨0, true⟩ none, .wait ⟨1, false⟩ none, .notify 1 true,
        .moves (.swallow ⟨0, true⟩), .giveUp ⟨0, true⟩] ∧
      ¬ Always (fun _ _ s' => s'.Counts ∧ ¬ s'.Lost) init tr := by
  constructor
  · refine ⟨_, .cons (.notify (by decide) (.nobody rfl)) <|
      .cons (.notify (by decide) (.nobody rfl)) <| .nil _, rfl, ?_⟩
    intro ⟨_, ⟨hcounts, _⟩, _⟩
    exact absurd hcounts.units (by decide)
  · refine ⟨_, .cons (.waitSleep (w := ⟨0, true⟩) (by decide) rfl) <|
      .cons (.waitSleep (w := ⟨1, false⟩) (by decide) rfl) <|
      .cons (.notify (n := 1) (by decide) (.some (by decide) (by decide)
        (.succ (.one ⟨0, true⟩ (by decide)) (.zero _)))) <|
      .cons (.moves (.swallow (List.mem_singleton.mpr rfl) rfl)) <|
      .cons (.giveUp (List.mem_singleton.mpr rfl)) <| .nil _, rfl, ?_⟩
    intro ⟨_, _, _, _, ⟨_, hlost⟩, _⟩
    exact hlost ⟨by decide, by decide, rfl⟩

end State

end Event

end CodeSLoop
