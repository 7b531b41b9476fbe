import CodeSLoop.Common.EvState
import Mathlib.Data.List.Nodup

/-!
# Watchers in plain arrays (`common/libev/ev.c`)

Prepare, check, fork and async watchers are started and stopped alike: each kind has an array, and `active` is
the place of a watcher in it, counted from 1. The last watcher of the array takes the place of one that is
stopped, so the order in which watchers were started is not kept.
-/

namespace CodeSLoop.Ev

universe v

/-! ## The code -/

def EV_PREPARE : Events := 0x00004000

def EV_CHECK : Events := 0x00008000

def EV_FORK : Events := 0x00020000

def EV_ASYNC : Events := 0x00040000

/-- What the watchers of a kind are told. -/
def Listed.type : Listed → Events
  | .prepare => EV_PREPARE
  | .check => EV_CHECK
  | .fork => EV_FORK
  | .async => EV_ASYNC

section Code

variable {T : Type v}

/-- A watcher of a kind is started. -/
def listStart (k : Listed) (l : Loop T) (a : Nat) : Loop T :=
  if l.lists.active k a ≠ 0 then l
  else
    let cnt := (l.lists.arrays k).length + 1
    let l := evStart l (.listed k a) cnt
    { l with
      lists.arraymax := Function.update l.lists.arraymax k (needsize 8 (l.lists.arraymax k) cnt)
      lists.arrays := Function.update l.lists.arrays k (l.lists.arrays k ++ [a]) }

/-- A watcher of a kind is stopped. -/
def listStop (k : Listed) (l : Loop T) (a : Nat) : Option (Loop T) :=
  let l := { l with queue := clearPending l.queue (.listed k a) }
  if l.lists.active k a = 0 then some l
  else
    let active := l.lists.active k a
    -- there is an element to be taken off the end
    (l.lists.arrays k).getLast?.map fun moved =>
      let l := { l with
        lists.arrays := Function.update l.lists.arrays k ((l.lists.arrays k).set (active - 1) moved).dropLast }
      let l := setActive l (.listed k moved) active
      evStop l (.listed k a)

/-- `ev_prepare_start`. -/
def evPrepareStart (l : Loop T) (a : Nat) : Loop T := listStart .prepare l a

/-- `ev_prepare_stop`. -/
def evPrepareStop (l : Loop T) (a : Nat) : Option (Loop T) := listStop .prepare l a

/-- `ev_check_start`. -/
def evCheckStart (l : Loop T) (a : Nat) : Loop T := listStart .check l a

/-- `ev_check_stop`. -/
def evCheckStop (l : Loop T) (a : Nat) : Option (Loop T) := listStop .check l a

/-- `ev_fork_start`. -/
def evForkStart (l : Loop T) (a : Nat) : Loop T := listStart .fork l a

/-- `ev_fork_stop`. -/
def evForkStop (l : Loop T) (a : Nat) : Option (Loop T) := listStop .fork l a

/-- `ev_async_start`, when the pipe is there. -/
def evAsyncStart (l : Loop T) (a : Nat) : Loop T := listStart .async l a

/-- `ev_async_stop`. -/
def evAsyncStop (l : Loop T) (a : Nat) : Option (Loop T) := listStop .async l a

/-- The watchers of a kind are told, as `ev_loop` does it for those that there are. -/
def queueListed (k : Listed) (l : Loop T) : Loop T :=
  { l with queue := queueEvents l.queue ((l.lists.arrays k).map (.listed k)) k.type }

/-- The assertions of `array_verify`. -/
def arrayVerify (k : Listed) (l : Loop T) : Bool :=
  (List.range (l.lists.arrays k).length).all fun i =>
    ((l.lists.arrays k)[i]?).any fun a => l.lists.active k a == i + 1 && verifyWatcher l.queue (.listed k a)

end Code

/-! ## What is true of the arrays -/

namespace Lists

/-- **`active` is the place of a watcher**, and the arrays have room. -/
structure Ok (s : Lists) : Prop where
  placed : ∀ k i a, (s.arrays k)[i]? = some a ↔ s.active k a = i + 1
  room : ∀ k, (s.arrays k).length ≤ s.arraymax k

variable {s : Lists} {k : Listed} {a : Nat}

theorem Ok.mem_iff (h : s.Ok) (k : Listed) (a : Nat) : a ∈ s.arrays k ↔ s.active k a ≠ 0 := by
  rw [List.mem_iff_getElem?]
  constructor
  · rintro ⟨i, hi⟩
    rw [(h.placed k i a).mp hi]
    exact Nat.succ_ne_zero i
  · intro ha
    exact ⟨s.active k a - 1, (h.placed k _ a).mpr (Nat.succ_pred_eq_of_ne_zero ha).symm⟩

/-- No watcher is in an array twice. -/
theorem Ok.nodup (h : s.Ok) (k : Listed) : (s.arrays k).Nodup := by
  rw [List.nodup_iff_getElem?_ne_getElem?]
  intro i j hij hj heq
  obtain ⟨a, ha⟩ : ∃ a, (s.arrays k)[j]? = some a := ⟨_, List.getElem?_eq_getElem hj⟩
  have hi := (h.placed k i a).mp (heq.trans ha)
  have hj := (h.placed k j a).mp ha
  omega

/-- The array with one more. -/
def pushed (s : Lists) (k : Listed) (a : Nat) : Lists where
  active := Function.update s.active k (Function.update (s.active k) a ((s.arrays k).length + 1))
  arrays := Function.update s.arrays k (s.arrays k ++ [a])
  arraymax := Function.update s.arraymax k (needsize 8 (s.arraymax k) ((s.arrays k).length + 1))

/-- The array without the watcher `a`, and with `moved` in its place. -/
def removed (s : Lists) (k : Listed) (a moved : Nat) : Lists where
  active := Function.update s.active k
    (Function.update (Function.update (s.active k) moved (s.active k a)) a 0)
  arrays := Function.update s.arrays k ((s.arrays k).set (s.active k a - 1) moved).dropLast
  arraymax := s.arraymax

theorem Ok.pushed (h : s.Ok) (ha : s.active k a = 0) : (s.pushed k a).Ok := by
  refine ⟨fun k' i b => ?_, fun k' => ?_⟩
  · have hplaced := h.placed k' i b
    by_cases hk : k' = k
    · subst hk
      simp only [Lists.pushed, Function.update_self]
      by_cases hba : b = a
      · subst hba
        rw [Function.update_self, List.getElem?_append]
        split
        · rw [hplaced, ha]
          omega
        · rw [List.getElem?_singleton]
          split
          · exact iff_of_true rfl (by omega)
          · exact iff_of_false (by simp) (by omega)
      · rw [Function.update_of_ne hba, List.getElem?_append]
        split
        · exact hplaced
        · have hnone : (s.arrays k')[i]? = none := List.getElem?_eq_none (by omega)
          rw [hnone] at hplaced
          refine iff_of_false ?_ fun heq => absurd (hplaced.mpr heq) (by simp)
          rw [List.getElem?_singleton]
          split
          · exact fun heq => hba (Option.some.inj heq).symm
          · simp
    · simpa only [Lists.pushed, Function.update_of_ne hk] using hplaced
  · by_cases hk : k' = k
    · subst hk
      simpa [Lists.pushed] using le_needsize (show 0 < 8 by simp) (s.arraymax k') ((s.arrays k').length + 1)
    · simpa only [Lists.pushed, Function.update_of_ne hk] using h.room k'

theorem Ok.removed (h : s.Ok) (ha : s.active k a ≠ 0) {moved : Nat} (hmoved : (s.arrays k).getLast? = some moved) :
    (s.removed k a moved).Ok := by
  obtain ⟨j, hj⟩ := Nat.exists_eq_succ_of_ne_zero ha
  have hlast : s.active k moved = (s.arrays k).length - 1 + 1 := by
    rw [← h.placed, ← List.getLast?_eq_getElem?]
    exact hmoved
  have haj : (s.arrays k)[j]? = some a := (h.placed k j a).mpr hj
  have hlt : j < (s.arrays k).length := (List.getElem?_eq_some_iff.mp haj).1
  refine ⟨fun k' i b => ?_, fun k' => ?_⟩
  · have hplaced := h.placed k' i b
    by_cases hk : k' = k
    · subst hk
      have harray : ((s.removed k' a moved).arrays k')[i]? =
          if i < (s.arrays k').length - 1 then if j = i then some moved else (s.arrays k')[i]? else none := by
        simp only [Lists.removed, Function.update_self, hj, Nat.succ_sub_one, List.getElem?_dropLast,
          List.length_set, List.getElem?_set, hlt, if_true]
      have hactive : (s.removed k' a moved).active k' b =
          if b = a then 0 else if b = moved then j + 1 else s.active k' b := by
        simp only [Lists.removed, Function.update_self, Function.update_apply, hj]
      rw [harray, hactive]
      by_cases hi : i < (s.arrays k').length - 1
      · rw [if_pos hi]
        by_cases hji : j = i
        · -- the place that becomes free
          subst hji
          rw [if_pos rfl, Option.some_inj]
          by_cases hba : b = a
          · subst hba
            rw [if_pos rfl]
            refine iff_of_false ?_ (by omega)
            rintro rfl
            omega
          · rw [if_neg hba]
            by_cases hbm : b = moved
            · rw [if_pos hbm]
              exact iff_of_true hbm.symm rfl
            · rw [if_neg hbm]
              refine iff_of_false (fun heq => hbm heq.symm) fun hactive => hba ?_
              exact Option.some_inj.mp ((hplaced.mpr hactive).symm.trans haj)
        · rw [if_neg hji, hplaced]
          by_cases hba : b = a
          · subst hba
            rw [if_pos rfl]
            exact iff_of_false (by omega) (by omega)
          · rw [if_neg hba]
            by_cases hbm : b = moved
            · subst hbm
              rw [if_pos rfl]
              exact iff_of_false (by omega) (by omega)
            · rw [if_neg hbm]
      · -- behind the array, where only `moved` was
        rw [if_neg hi]
        refine iff_of_false (by simp) fun heq => ?_
        by_cases hba : b = a
        · rw [if_pos hba] at heq
          omega
        · rw [if_neg hba] at heq
          by_cases hbm : b = moved
          · rw [if_pos hbm] at heq
            have hsame : s.active k' moved = j + 1 := by omega
            rw [← h.placed, haj] at hsame
            exact hba (hbm.trans (Option.some_inj.mp hsame).symm)
          · rw [if_neg hbm] at heq
            have hat := hplaced.mpr heq
            have hilt := (List.getElem?_eq_some_iff.mp hat).1
            have hend : i = (s.arrays k').length - 1 := by omega
            rw [hend, ← List.getLast?_eq_getElem?, hmoved] at hat
            exact hbm (Option.some_inj.mp hat).symm
    · simpa only [Lists.removed, Function.update_of_ne hk] using hplaced
  · have hroom := h.room k'
    by_cases hk : k' = k
    · subst hk
      simp only [Lists.removed, Function.update_self, List.length_dropLast, List.length_set]
      omega
    · simpa only [Lists.removed, Function.update_of_ne hk] using hroom

/-- **The arrays come from `s`**: these are active now. -/
structure To (s s' : Lists) (active : Listed → Nat → Prop) : Prop where
  ok : s'.Ok
  active : ∀ k a, s'.active k a ≠ 0 ↔ active k a

theorem Ok.to_pushed (h : s.Ok) (ha : s.active k a = 0) :
    s.To (s.pushed k a) fun k' b => (k' = k ∧ b = a) ∨ s.active k' b ≠ 0 := by
  refine ⟨h.pushed ha, fun k' b => ?_⟩
  by_cases hk : k' = k
  · subst hk
    by_cases hb : b = a
    · simp [Lists.pushed, hb]
    · simp [Lists.pushed, hb]
  · simp [Lists.pushed, hk]

theorem Ok.to_removed (h : s.Ok) (ha : s.active k a ≠ 0) {moved : Nat}
    (hmoved : (s.arrays k).getLast? = some moved) :
    s.To (s.removed k a moved) fun k' b => ¬ (k' = k ∧ b = a) ∧ s.active k' b ≠ 0 := by
  refine ⟨h.removed ha hmoved, fun k' b => ?_⟩
  by_cases hk : k' = k
  · subst hk
    by_cases hb : b = a
    · simp [Lists.removed, hb]
    · by_cases hbm : b = moved
      · have hin := (h.mem_iff k' moved).mp (List.mem_of_getLast? hmoved)
        have hma : moved ≠ a := fun heq => hb (hbm.trans heq)
        simp [Lists.removed, hbm, hma, ha, hin]
      · simp [Lists.removed, hb, hbm]
  · simp [Lists.removed, hk]

end Lists

/-! ## The calls -/

section Calls

variable {T : Type v} {l : Loop T} {k : Listed} {a : Nat}

theorem listStart_active (ha : l.lists.active k a ≠ 0) : listStart k l a = l := if_pos ha

/-- **A start** puts the watcher at the end. -/
theorem listStart_spec (ha : l.lists.active k a = 0) :
    listStart k l a =
      { l with
        queue := priAdjust l.queue (.listed k a)
        lists := l.lists.pushed k a
        activecnt := l.activecnt + 1 } := by
  rw [listStart, if_neg (not_not_intro ha)]
  rfl

theorem listStop_idle (ha : l.lists.active k a = 0) :
    listStop k l a = some { l with queue := clearPending l.queue (.listed k a) } := if_pos ha

/-- **A stop** finds an element to take off the end. -/
theorem listStop_spec (hl : l.lists.Ok) (ha : l.lists.active k a ≠ 0) :
    ∃ moved, (l.lists.arrays k).getLast? = some moved ∧
      listStop k l a = some
        { l with
          queue := clearPending l.queue (.listed k a)
          lists := l.lists.removed k a moved
          activecnt := l.activecnt - 1 } := by
  have hne : l.lists.arrays k ≠ [] := List.ne_nil_of_mem ((hl.mem_iff k a).mpr ha)
  refine ⟨_, List.getLast?_eq_some_getLast hne, ?_⟩
  rw [listStop]
  dsimp only
  rw [if_neg ha, List.getLast?_eq_some_getLast hne]
  simp only [Option.map_some, evStop, evUnref, setActive, Lists.removed, Function.update_self,
    Function.update_idem]

/-- **The assertions of `array_verify` hold.** -/
theorem arrayVerify_eq (hl : l.lists.Ok) (hq : l.queue.Ok)
    (hvalid : ∀ a, l.lists.active k a ≠ 0 → l.queue.Valid (.listed k a)) : arrayVerify k l = true := by
  refine List.all_eq_true.mpr fun i hi => ?_
  obtain ⟨a, ha⟩ : ∃ a, (l.lists.arrays k)[i]? = some a :=
    ⟨_, List.getElem?_eq_getElem (List.mem_range.mp hi)⟩
  have hplaced := (hl.placed k i a).mp ha
  rw [ha, Option.any_some, Bool.and_eq_true, beq_iff_eq]
  refine ⟨hplaced, hq.verifyWatcher_eq (hvalid a ?_)⟩
  rw [hplaced]
  exact Nat.succ_ne_zero i

end Calls

end CodeSLoop.Ev
