import CodeSLoop.Nthread.Event
/-!
# `nthread::pevent`

A `pevent` is an `event` that can be made permanent: from then on no call has to wait. The calls
that come later look at `permanent_`; the threads that are asleep already are let go with a unit
each (`available_ = waiting_`), since their loop looks at `available_` only. But the later calls
take units too, when there are any: `wait` counts `available_` down on its way out, and `wait_nb`
prefers a unit to the flag. So a call that comes between `set_permanent` and the return of the
threads it released takes the unit of one of them, and that thread goes back to sleep for good.

`always_released_iff` says that the release works exactly in the runs in which no call does that.
-/

namespace CodeSLoop

namespace Pevent

open Lts

universe u

variable {τ : Type u}

/-- `pevent::impl`. -/
structure State (τ : Type u) where
  waiting : UInt32
  available : UInt32
  permanent : Bool
  cond : CondVar τ

def init : State τ := ⟨0, 0, false, .empty⟩

/-- The calls with what they return; `none` is a call that goes to sleep. -/
inductive Act (τ : Type u)
  | notify (n : UInt32) (ret : Bool)
  | notifyAll
  | wait (w : Waiter τ) (ret : Option Bool)
  | resume (w : Waiter τ) (ret : Option Bool)
  | giveUp (w : Waiter τ)
  | waitNb (t : τ) (ret : Bool)
  | setPermanent
  | clearPermanent
  | isPermanent (ret : Bool)
  | clearAvailable
  | moves (e : CondVar.Event τ)

/-- `if( available_ ) --available_`. -/
def take (k : UInt32) : UInt32 := if k = 0 then k else k - 1

variable [DecidableEq τ]

inductive Step : State τ → Act τ → State τ → Prop
  | notifyNone {s : State τ} : Step s (.notify 0 false) s
  | notifyPermanent {s : State τ} {n : UInt32} :
      n ≠ 0 → s.permanent = true → Step s (.notify n true) s
  | notify {s : State τ} {n : UInt32} {c : CondVar τ} :
      n ≠ 0 → s.permanent = false → Event.Notified s.waiting (s.available + n) s.cond c →
      Step s (.notify n true) { s with available := s.available + n, cond := c }
  -- The flag is not looked at here.
  | notifyAll {s : State τ} :
      Step s .notifyAll
        { s with
          available := if s.available ≤ s.waiting then s.waiting else s.available
          cond := if 0 < s.waiting then s.cond.broadcast else s.cond }
  | waitPermanent {s : State τ} {w : Waiter τ} :
      w.thread ∉ s.cond.threads → s.permanent = true →
      Step s (.wait w (some true)) { s with available := take s.available }
  | waitTake {s : State τ} {w : Waiter τ} :
      w.thread ∉ s.cond.threads → s.permanent = false → s.available ≠ 0 →
      Step s (.wait w (some true)) { s with available := s.available - 1 }
  | waitSleep {s : State τ} {w : Waiter τ} :
      w.thread ∉ s.cond.threads → s.permanent = false → s.available = 0 →
      Step s (.wait w none) { s with waiting := s.waiting + 1, cond := s.cond.sleep w }
  | resumeTake {s : State τ} {w : Waiter τ} :
      w ∈ s.cond.woken → s.available ≠ 0 →
      Step s (.resume w (some true))
        { s with
          waiting := s.waiting - 1
          available := s.available - 1
          cond := s.cond.back w }
  | resumeSleep {s : State τ} {w : Waiter τ} :
      w ∈ s.cond.woken → s.available = 0 →
      Step s (.resume w none) { s with cond := (s.cond.back w).sleep w }
  | giveUp {s : State τ} {w : Waiter τ} :
      w ∈ s.cond.expired →
      Step s (.giveUp w) { s with waiting := s.waiting - 1, cond := s.cond.giveUp w }
  | waitNbTake {s : State τ} {t : τ} :
      t ∉ s.cond.threads → s.available ≠ 0 →
      Step s (.waitNb t true) { s with available := s.available - 1 }
  | waitNbNone {s : State τ} {t : τ} :
      t ∉ s.cond.threads → s.available = 0 → Step s (.waitNb t s.permanent) s
  | setPermanent {s : State τ} :
      s.permanent = false →
      Step s .setPermanent
        { s with
          permanent := true
          available := s.waiting
          cond := if 0 < s.waiting then s.cond.broadcast else s.cond }
  | setPermanentAgain {s : State τ} : s.permanent = true → Step s .setPermanent s
  | clearPermanent {s : State τ} : Step s .clearPermanent { s with permanent := false }
  | isPermanent {s : State τ} : Step s (.isPermanent s.permanent) s
  | clearAvailable {s : State τ} :
      Step s .clearAvailable { s with available := 0, permanent := false }
  | moves {s : State τ} {e : CondVar.Event τ} {c : CondVar τ} :
      CondVar.Moves s.cond e c → Step s (.moves e) { s with cond := c }

namespace State

variable {s s' : State τ} {a : Act τ}

/-- Somebody is asleep, and the condition of its loop still blocks. -/
def Stuck (s : State τ) : Prop := s.cond.blocked ≠ [] ∧ s.available = 0

/-- The threads inside `wait` can all go on and return `true`. -/
def CanReturn (s : State τ) : Prop :=
  ∃ tr, Run Step s tr ∧ (∀ e ∈ tr, ∃ w, e.1 = .resume w (some true)) ∧
    (last s tr).cond.blocked = [] ∧ (last s tr).cond.woken = []

/-- A thread that calls now can return `true` at once. -/
def CallsReturn (s : State τ) : Prop :=
  ∀ w : Waiter τ, w.thread ∉ s.cond.threads →
    (∃ s', Step s (.wait w (some true)) s') ∧ ∃ s', Step s (.waitNb w.thread true) s'

/-- What a permanent event promises. -/
structure Released (s : State τ) : Prop where
  not_stuck : ¬ s.Stuck
  waiting : s.CanReturn
  later : s.CallsReturn

/-- Nobody is asleep, and there is a unit for everybody woken. -/
def Enough (s : State τ) : Prop :=
  s.cond.blocked = [] ∧ s.cond.woken.length ≤ s.available.toNat

/-- No call takes the unit of a thread that is on its way, and `waiting_` has not wrapped around
    when `set_permanent` takes it for the number of threads to be released. -/
def Spares (s : State τ) : Act τ → Prop
  | .wait _ _ | .waitNb _ _ => s.permanent = true →
      s.available = 0 ∨ s.cond.woken.length < s.available.toNat
  | .setPermanent => s.permanent = false →
      s.cond.blocked.length + s.cond.woken.length ≤ s.waiting.toNat
  | _ => True

/-- Each woken thread takes one unit. -/
theorem enough_of_run {tr : List (Act τ × State τ)} (h : Run Step s tr)
    (hall : ∀ e ∈ tr, ∃ w, e.1 = .resume w (some true))
    (hend : (last s tr).cond.blocked = [] ∧ (last s tr).cond.woken = []) : s.Enough := by
  induction h with
  | nil s =>
    refine ⟨hend.1, ?_⟩
    rw [show s.cond.woken = [] from hend.2]
    exact Nat.zero_le _
  | @cons s s' a tr hs _ ih =>
    obtain ⟨w, rfl⟩ := hall _ (List.mem_cons_self)
    obtain ⟨hb, hle⟩ := ih (fun e he => hall e (List.mem_cons_of_mem _ he)) hend
    cases hs with
    | resumeTake hw ha =>
      refine ⟨hb, ?_⟩
      have hpred := CondVar.toNat_pred ha
      have hlen : (s.cond.woken.erase w).length ≤ (s.available - 1).toNat := hle
      rw [List.length_erase_of_mem hw] at hlen
      omega

theorem canReturn_of_enough : ∀ (n : Nat) {s : State τ}, s.cond.woken.length = n → s.Enough →
    s.CanReturn := by
  intro n
  induction n with
  | zero =>
    intro s hn ⟨hb, _⟩
    exact ⟨[], .nil s, nofun, hb, List.length_eq_zero_iff.mp hn⟩
  | succ n ih =>
    intro s hn ⟨hb, hle⟩
    obtain ⟨w, hw⟩ := List.exists_mem_of_length_pos (by rw [hn]; exact Nat.succ_pos n)
    have ha : s.available ≠ 0 := CondVar.toNat_pos.mp (by omega)
    have hlen : (s.cond.woken.erase w).length = n := by
      rw [List.length_erase_of_mem hw, hn]
      rfl
    obtain ⟨tr, htr, hall, hend⟩ := @ih ⟨s.waiting - 1, s.available - 1, s.permanent,
      s.cond.back w⟩ hlen ⟨hb, by
        have hpred := CondVar.toNat_pred ha
        show (s.cond.woken.erase w).length ≤ (s.available - 1).toNat
        omega⟩
    refine ⟨_, .cons (.resumeTake hw ha) htr, fun e he => ?_, hend⟩
    rcases List.mem_cons.mp he with rfl | he
    · exact ⟨w, rfl⟩
    · exact hall e he

theorem callsReturn_of_permanent (h : s.permanent = true) : s.CallsReturn := by
  intro w hw
  refine ⟨⟨_, .waitPermanent hw h⟩, ?_⟩
  by_cases ha : s.available = 0
  · exact ⟨s, h ▸ .waitNbNone hw ha⟩
  · exact ⟨_, .waitNbTake hw ha⟩

theorem released_iff (hp : s.permanent = true) : s.Released ↔ s.Enough := by
  constructor
  · intro h
    obtain ⟨tr, htr, hall, hend⟩ := h.waiting
    exact enough_of_run htr hall hend
  · intro h
    exact ⟨fun hs => hs.1 h.1, canReturn_of_enough _ rfl h, callsReturn_of_permanent hp⟩

omit [DecidableEq τ] in
/-- A call takes one unit, if there is one, from those that are kept for the woken threads. -/
theorem enough_take (h : s.Enough) :
    s.cond.woken.length ≤ (take s.available).toNat ↔
      s.available = 0 ∨ s.cond.woken.length < s.available.toNat := by
  unfold take
  split
  next ha => exact iff_of_true h.2 (Or.inl ha)
  next ha =>
    have hpred := CondVar.toNat_pred ha
    rw [or_iff_right ha]
    omega

omit [DecidableEq τ] in
/-- Nobody is asleep to be woken, and units do not get fewer. -/
theorem Enough.notifyAll (h : s.Enough) :
    Enough { s with
      available := if s.available ≤ s.waiting then s.waiting else s.available
      cond := if 0 < s.waiting then s.cond.broadcast else s.cond } := by
  obtain ⟨hb, hle⟩ := h
  have hcond : (if 0 < s.waiting then s.cond.broadcast else s.cond).blocked = [] ∧
      (if 0 < s.waiting then s.cond.broadcast else s.cond).woken = s.cond.woken := by
    split
    next => exact ⟨rfl, by rw [CondVar.broadcast, hb]; rfl⟩
    next => exact ⟨hb, rfl⟩
  refine ⟨hcond.1, ?_⟩
  show (if 0 < s.waiting then s.cond.broadcast else s.cond).woken.length ≤ _
  rw [hcond.2]
  refine hle.trans ?_
  show s.available.toNat ≤ (if s.available ≤ s.waiting then s.waiting else s.available).toNat
  split
  next hw => exact hw
  next => exact Nat.le_refl _

omit [DecidableEq τ] in
/-- Everybody asleep is woken, and there are units for as many as are counted. -/
theorem enough_setPermanent (s : State τ) :
    Enough { s with
      permanent := true
      available := s.waiting
      cond := if 0 < s.waiting then s.cond.broadcast else s.cond } ↔
      s.cond.blocked.length + s.cond.woken.length ≤ s.waiting.toNat := by
  unfold Enough
  split
  next hw =>
    show [] = [] ∧ (s.cond.blocked ++ s.cond.woken).length ≤ _ ↔ _
    rw [List.length_append]
    exact and_iff_right rfl
  next hw =>
    have h0 : s.waiting.toNat = 0 := Nat.eq_zero_of_not_pos hw
    show s.cond.blocked = [] ∧ s.cond.woken.length ≤ s.waiting.toNat ↔ _
    rw [h0, ← List.length_eq_zero_iff]
    omega

/-- **One step** that leaves the event permanent. -/
theorem enough_iff (h : s.permanent = true → s.Enough) (hs : Step s a s') :
    (s'.permanent = true → s'.Enough) ↔ s.Spares a := by
  cases hs with
  | notifyNone => exact iff_of_true h trivial
  | notifyPermanent hn hp => exact iff_of_true h trivial
  | notify hn hp hw => exact iff_of_true (fun hp' => by cases hp.symm.trans hp') trivial
  | notifyAll =>
    refine iff_of_true (fun hp => ?_) trivial
    exact (h hp).notifyAll
  | waitPermanent ht hp =>
    obtain ⟨hb, hle⟩ := h hp
    have hiff := enough_take ⟨hb, hle⟩
    exact ⟨fun h' _ => hiff.mp (h' hp).2, fun hg _ => ⟨hb, hiff.mpr (hg hp)⟩⟩
  | waitTake ht hp ha =>
    exact iff_of_true (fun hp' => by cases hp.symm.trans hp') fun hp' => by cases hp.symm.trans hp'
  | waitSleep ht hp ha =>
    exact iff_of_true (fun hp' => by cases hp.symm.trans hp') fun hp' => by cases hp.symm.trans hp'
  | resumeTake hw ha =>
    refine iff_of_true (fun hp => ?_) trivial
    obtain ⟨hb, hle⟩ := h hp
    refine ⟨hb, ?_⟩
    have hpred := CondVar.toNat_pred ha
    show (s.cond.woken.erase _).length ≤ (s.available - 1).toNat
    rw [List.length_erase_of_mem hw]
    omega
  | resumeSleep hw ha =>
    refine iff_of_true (fun hp => ?_) trivial
    obtain ⟨hb, hle⟩ := h hp
    -- who is woken while it is permanent finds a unit
    rw [ha] at hle
    exact absurd (List.length_pos_of_mem hw) (Nat.not_lt_of_le hle)
  | giveUp hw => exact iff_of_true h trivial
  | waitNbTake ht ha =>
    constructor
    · intro h' hp
      have hiff := enough_take (h hp)
      rw [take, if_neg ha] at hiff
      exact hiff.mp (h' hp).2
    · intro hg hp
      have hiff := enough_take (h hp)
      rw [take, if_neg ha] at hiff
      exact ⟨(h hp).1, hiff.mpr (hg hp)⟩
  | waitNbNone ht ha => exact iff_of_true h fun _ => Or.inl ha
  | setPermanent hp =>
    have hiff := enough_setPermanent s
    exact ⟨fun h' _ => hiff.mp (h' rfl), fun hg _ => hiff.mpr (hg hp)⟩
  | setPermanentAgain hp => exact iff_of_true h fun hp' => by cases hp.symm.trans hp'
  | clearPermanent => exact iff_of_true nofun trivial
  | isPermanent => exact iff_of_true h trivial
  | clearAvailable => exact iff_of_true nofun trivial
  | moves hm =>
    refine iff_of_true (fun hp => ?_) trivial
    obtain ⟨hb, hle⟩ := h hp
    -- nobody is blocked, so nobody is woken for nothing or times out
    cases hm with
    | spurious hw =>
      rw [hb] at hw
      cases hw
    | timeout hw ht =>
      rw [hb] at hw
      cases hw
    | swallow hw ht => exact ⟨hb, (List.length_erase_le).trans hle⟩

/-- **All runs:** while the event is permanent nobody is stuck in `wait`, all who are inside and
    all who call can return `true`, exactly when no step takes a unit that a woken thread needs. -/
theorem always_released_iff {tr : List (Act τ × State τ)} (h : Run Step init tr) :
    Always (fun _ _ s' => s'.permanent = true → s'.Released) init tr ↔
      Always (fun s a _ => s.Spares a) init tr := by
  refine h.always_iff (I := fun s => s.permanent = true → s.Enough) ?_ ?_ nofun
  · intro s a s' hI hstep
    exact (forall_congr' released_iff).trans (enough_iff hI hstep)
  · intro s a s' _ _ hP hp
    exact (released_iff hp).mp (hP hp)

/-- A thread that sleeps is released, and a call comes after it has returned. -/
theorem always_released_iff_late : ∃ tr : List (Act Nat × State Nat),
    tr.map Prod.fst = [.wait ⟨0, false⟩ none, .setPermanent, .resume ⟨0, false⟩ (some true),
      .wait ⟨1, false⟩ (some true)] ∧
    Always (fun _ _ s' => s'.permanent = true → s'.Released) init tr := by
  refine ⟨_, rfl, (always_released_iff
    (.cons (.waitSleep (w := ⟨0, false⟩) (by decide) rfl rfl) <| .cons (.setPermanent rfl) <|
    .cons (.resumeTake (w := ⟨0, false⟩) (by decide) (by decide)) <|
    .cons (.waitPermanent (w := ⟨1, false⟩) (by decide) rfl) <| .nil _)).mpr ?_⟩
  exact ⟨nofun, fun _ => by decide, trivial, fun _ => Or.inl rfl, trivial⟩

/-- The call comes first. -/
theorem always_released_fails : ∃ tr : List (Act Nat × State Nat), Run Step init tr ∧
    tr.map Prod.fst = [.wait ⟨0, false⟩ none, .setPermanent, .wait ⟨1, false⟩ (some true),
      .resume ⟨0, false⟩ none] ∧
    ¬ Always (fun _ _ s' => s'.permanent = true → s'.Released) init tr := by
  refine ⟨_, .cons (.waitSleep (w := ⟨0, false⟩) (by decide) rfl rfl) <|
    .cons (.setPermanent rfl) <|
    .cons (.waitPermanent (w := ⟨1, false⟩) (by decide) rfl) <|
    .cons (.resumeSleep (w := ⟨0, false⟩) (by decide) (by decide)) <| .nil _, rfl, ?_⟩
  intro ⟨_, _, _, hreleased, _⟩
  exact (hreleased rfl).not_stuck ⟨by decide, by decide⟩

end State

end Pevent

end CodeSLoop
