import CodeSLoop.Nthread.Thrpool
/-!
# The number of worker threads

A check of `count()` says nothing about the workers that have passed the same check and not acted
yet. Whether the bounds hold is therefore decided when a worker passes its check: with the threads
that are alive, those that are about to be started and those that are about to leave (`Room`).
`settled_iff` says that this is exact: where `Room` fails, nobody has to decide anything any more
for the bounds to be broken.
-/

namespace CodeSLoop

namespace Thrpool

open Lts

/-! ## Counting -/

theorem countP_cons_add {α : Type} (q : α → Bool) (x : α) (l : List α) :
    (x :: l).countP q = l.countP q + (q x).toNat := by
  rw [List.countP_cons]
  cases q x <;> rfl

theorem countP_set_add {α : Type} {l : List α} {i : Nat} {x y : α} (h : l[i]? = some x)
    (q : α → Bool) : (l.set i y).countP q + (q x).toNat = l.countP q + (q y).toNat := by
  induction l generalizing i with
  | nil => cases h
  | cons z l ih =>
    cases i with
    | zero =>
      have hz : z = x := Option.some.inj h
      rw [List.set_cons_zero, countP_cons_add, countP_cons_add, hz]
      omega
    | succ i =>
      have hl := ih (i := i) h
      rw [List.set_cons_succ, countP_cons_add, countP_cons_add]
      omega

theorem Cleaned.countP {l l' : List Phase} (h : Cleaned l l') {q : Phase → Bool}
    (hq : ∀ x, q x = true → x.alive = true) : l'.countP q = l.countP q := by
  have hand : ∀ l : List Phase, l.countP q = (l.filter Phase.alive).countP q := by
    intro l
    rw [List.countP_filter]
    refine List.countP_congr fun x _ => ?_
    cases hx : q x with
    | true => simp [hq x hx]
    | false => simp
  rw [hand l', hand l, h.alive]

theorem alive_of_isStarting (x : Phase) (h : x.isStarting = true) : x.alive = true := by
  cases x <;> first | rfl | cases h

theorem alive_of_isLeaving (x : Phase) (h : x.isLeaving = true) : x.alive = true := by
  cases x <;> first | rfl | cases h

theorem alive_of_entered (x : Phase) (h : x.entered = true) : x.alive = true := by
  cases x <;> first | rfl | cases h

/-- One worker goes from one place to another; threads that have exited may go. -/
structure Turns (l l' : List Phase) (x y : Phase) : Prop where
  count : ∀ q : Phase → Bool, (∀ z, q z = true → z.alive = true) →
    l'.countP q + (q x).toNat = l.countP q + (q y).toNat

variable {l l' : List Phase} {x y : Phase} {i : Nat}

theorem turns_clean (h : l[i]? = some x) (hc : Cleaned (l.set i y) l') : Turns l l' x y := by
  refine ⟨fun q hq => ?_⟩
  rw [hc.countP hq]
  exact countP_set_add h q

theorem turns_set (h : l[i]? = some x) : Turns l (l.set i y) x y :=
  turns_clean h ⟨List.Sublist.refl _, rfl⟩

theorem Turns.same (t : Turns l l' x y) {q : Phase → Bool}
    (hq : ∀ z, q z = true → z.alive = true) (hxy : q x = q y) : l'.countP q = l.countP q := by
  have h := t.count q hq
  rw [hxy] at h
  exact Nat.add_right_cancel h

theorem countP_created {q : Phase → Bool} :
    (l ++ [Phase.created]).countP q = l.countP q + (q .created).toNat := by
  rw [List.countP_append, countP_cons_add]
  exact congrArg (l.countP q + ·) (Nat.zero_add _)

theorem countP_created_of_not {q : Phase → Bool} (hq : q .created = false) :
    (l ++ [Phase.created]).countP q = l.countP q := by
  rw [countP_created, hq]
  rfl

/-- Where a worker's own moves lead. -/
theorem Moves.classes {p : Params} {count : Nat} {m : Move} (h : Moves p count x m y) :
    (x.alive = true ∧ y.alive = true) ∧ (x.entered = true ∧ y.entered = true) ∧
      y.isStarting = false ∧ x.isLeaving = false ∧ (y.isLeaving = true ↔ m = .leave) := by
  cases h <;> simp [Phase.alive, Phase.entered, Phase.isStarting, Phase.isLeaving]

namespace State

variable {p : Params} {s s' : State} {a : Act}

/-- `count_` is right. -/
def Counted (s : State) : Prop := s.count = s.threads.countP Phase.entered

/-- The bounds hold even after everybody has done what they have decided. -/
def Room (p : Params) (s : State) : Prop :=
  s.alive + s.starters + s.init.left ≤ p.max ∧
    (s.init ≠ .failed → p.min + s.leavers ≤ s.alive + s.init.left)

theorem Counted.le (h : s.Counted) : s.count ≤ s.alive := by
  rw [h]
  exact List.countP_mono_left fun x _ => alive_of_entered x

theorem counted_step (h : s.Counted) (hs : Step p s a s') : s'.Counted := by
  have hc : s.count = s.threads.countP Phase.entered := h
  cases hs with
  | worker hx hm =>
    obtain ⟨-, ⟨hxe, hye⟩, -⟩ := hm.classes
    exact hc.trans ((turns_set hx).same alive_of_entered (hxe.trans hye.symm)).symm
  | onEntry hx =>
    have ht := (turns_set (y := .waiting 0) hx).count _ alive_of_entered
    exact (congrArg (· + 1) hc).trans ht.symm
  | onExit hx =>
    have ht := (turns_set (y := .exiting) hx).count _ alive_of_entered
    exact congrArg (· - 1) (hc.trans ht.symm)
  | exit hx => exact hc.trans ((turns_set (y := .exited) hx).same alive_of_entered rfl).symm
  | cleanRoom hx hcl hlt => exact hc.trans ((turns_clean hx hcl).same alive_of_entered rfl).symm
  | cleanFull hx hcl hlt => exact hc.trans ((turns_clean hx hcl).same alive_of_entered rfl).symm
  | cleanup hx hcl => exact hc.trans ((turns_clean hx hcl).same alive_of_entered rfl).symm
  | startOne hx hlt =>
    have ht := (turns_set (y := .handling) hx).same alive_of_entered rfl
    exact hc.trans (ht.symm.trans (countP_created_of_not rfl).symm)
  | initStart hi hlt => exact hc.trans (countP_created_of_not rfl).symm
  | initStarted hi => exact hc
  | initReturn hi => exact hc
  | initFail hi => exact hc

theorem room_mk {l : List Phase} {init : Init} {count A S L : Nat}
    (ha : l.countP Phase.alive = A) (hs : l.countP Phase.isStarting = S)
    (hl : l.countP Phase.isLeaving = L) :
    Room p ⟨count, l, init⟩ ↔
      A + S + init.left ≤ p.max ∧ (init ≠ .failed → p.min + L ≤ A + init.left) := by
  rw [← ha, ← hs, ← hl]
  rfl

/-- A worker that goes on, but neither to `start_one` nor out. -/
theorem Room.turn (h : s.Room p) {l : List Phase} {x y : Phase} (t : Turns s.threads l x y)
    (ha : x.alive = y.alive) (hs : y.isStarting = false) (hl : x.isLeaving = y.isLeaving)
    {count : Nat} : Room p ⟨count, l, s.init⟩ := by
  have hst := t.count _ alive_of_isStarting
  rw [hs] at hst
  have hle : l.countP Phase.isStarting ≤ s.starters := Nat.le_of_add_right_le hst.le
  refine (room_mk (t.same (fun _ h => h) ha) rfl (t.same alive_of_isLeaving hl)).mpr ⟨?_, h.2⟩
  exact (Nat.add_le_add_right (Nat.add_le_add_left hle _) _).trans h.1

/-- A worker decides to leave. -/
theorem Room.leave_iff (h : s.Room p) {l : List Phase} {x y : Phase} (t : Turns s.threads l x y)
    (ha : x.alive = y.alive) (hs : y.isStarting = false) (hx : x.isLeaving = false)
    (hy : y.isLeaving = true) {count : Nat} :
    Room p ⟨count, l, s.init⟩ ↔
      (s.init ≠ .failed → p.min + s.leavers < s.alive + s.init.left) := by
  have hst := t.count _ alive_of_isStarting
  rw [hs] at hst
  have hle : l.countP Phase.isStarting ≤ s.starters := Nat.le_of_add_right_le hst.le
  have hl := t.count _ alive_of_isLeaving
  rw [hx, hy] at hl
  refine (room_mk (t.same (fun _ h => h) ha) rfl (L := s.leavers + 1) hl).trans ?_
  exact and_iff_right ((Nat.add_le_add_right (Nat.add_le_add_left hle _) _).trans h.1)

/-- **One step.** -/
theorem room_iff (hr : s.Room p) (hs : Step p s a s') : s'.Room p ↔ s.Spares p a := by
  obtain ⟨hmax, hmin⟩ := hr
  cases hs with
  | @worker i x y m hx hm =>
    obtain ⟨⟨hxa, hya⟩, -, hst, hxl, hyl⟩ := hm.classes
    have t : Turns s.threads (s.threads.set i y) x y := turns_set hx
    -- of what a worker does by itself, only the decision to leave counts
    by_cases hleave : m = .leave
    · have hy := hyl.mpr hleave
      subst hleave
      exact Room.leave_iff ⟨hmax, hmin⟩ t (hxa.trans hya.symm) hst hxl hy
    · have hl : y.isLeaving = false := Bool.eq_false_iff.mpr fun h => hleave (hyl.mp h)
      refine iff_of_true (Room.turn ⟨hmax, hmin⟩ t (hxa.trans hya.symm) hst (hxl.trans hl.symm)) ?_
      cases m <;> trivial
  | onEntry hx =>
    exact iff_of_true (Room.turn ⟨hmax, hmin⟩ (turns_set (y := .waiting 0) hx) rfl rfl rfl) trivial
  | onExit hx =>
    exact iff_of_true (Room.turn ⟨hmax, hmin⟩ (turns_set (y := .exiting) hx) rfl rfl rfl) trivial
  | @exit i hx =>
    have t : Turns s.threads (s.threads.set i .exited) .exiting .exited := turns_set hx
    have ha : _ + 1 = s.alive := t.count _ fun _ h => h
    have hl : _ + 1 = s.leavers := t.count _ alive_of_isLeaving
    refine iff_of_true ((room_mk rfl (t.same alive_of_isStarting rfl) rfl).mpr ⟨?_, fun hne => ?_⟩)
      trivial
    · have hst : s.starters = s.threads.countP Phase.isStarting := rfl
      omega
    · have hmin := hmin hne
      omega
  | cleanRoom hx hcl hlt =>
    -- one more is about to start: the room for it is what was asked for before
    have t := turns_clean hx hcl
    have hs := t.count _ alive_of_isStarting
    refine (room_mk (t.same (fun _ h => h) rfl) (S := s.starters + 1) hs
      (t.same alive_of_isLeaving rfl)).trans ((and_iff_left hmin).trans ?_)
    show s.alive + (s.starters + 1) + s.init.left ≤ p.max ↔ s.alive + s.starters + s.init.left < p.max
    omega
  | cleanFull hx hcl hlt =>
    exact iff_of_true (Room.turn ⟨hmax, hmin⟩ (turns_clean hx hcl) rfl rfl rfl) trivial
  | cleanup hx hcl =>
    exact iff_of_true (Room.turn ⟨hmax, hmin⟩ (turns_clean hx hcl) rfl rfl rfl) trivial
  | @startOne i hx hlt =>
    have t : Turns s.threads (s.threads.set i .handling) .starting .handling := turns_set hx
    have ha : _ = s.alive := t.same (fun _ h => h) rfl
    have hs : _ + 1 = s.starters := t.count _ alive_of_isStarting
    have hl : _ = s.leavers := t.same alive_of_isLeaving rfl
    refine iff_of_true ((room_mk countP_created (countP_created_of_not rfl)
      (countP_created_of_not rfl)).mpr ⟨?_, fun hne => ?_⟩) trivial
    · show _ + 1 + _ + _ ≤ _
      omega
    · have hmin := hmin hne
      show _ ≤ _ + 1 + _
      omega
  | @initStart k hi hlt =>
    refine iff_of_true ((room_mk countP_created (countP_created_of_not rfl)
      (countP_created_of_not rfl)).mpr ⟨?_, fun hne => ?_⟩) trivial
    · rw [hi] at hmax
      have hmax : s.alive + s.starters + (k + 1) ≤ p.max := hmax
      show s.alive + 1 + s.starters + k ≤ p.max
      omega
    · have hmin := hmin (by rw [hi]; exact Init.noConfusion)
      rw [hi] at hmin
      have hmin : p.min + s.leavers ≤ s.alive + (k + 1) := hmin
      show p.min + s.leavers ≤ s.alive + 1 + k
      omega
  | initStarted hi =>
    rw [hi] at hmax hmin
    exact iff_of_true ⟨hmax, fun _ => hmin Init.noConfusion⟩ trivial
  | initReturn hi =>
    rw [hi] at hmax hmin
    exact iff_of_true ⟨hmax, fun _ => hmin Init.noConfusion⟩ trivial
  | initFail hi =>
    refine iff_of_true ⟨?_, fun hne => absurd rfl hne⟩ trivial
    exact (Nat.add_le_add_left (Nat.zero_le _) _).trans hmax

/-! ## Where those who have decided lead to -/

theorem exists_index {l : List Phase} {q : Phase → Bool} (h : 0 < l.countP q) :
    ∃ (i : Nat) (x : Phase), l[i]? = some x ∧ q x = true := by
  obtain ⟨x, hx, hq⟩ := List.countP_pos_iff.mp h
  obtain ⟨i, hi⟩ := List.mem_iff_getElem?.mp hx
  exact ⟨i, x, hi, hq⟩

/-- `init` calls `start_one`. -/
theorem leads_init {k : Nat} (hk : s.init.left = k + 1) (hc : ¬ p.max < s.count) :
    Leads (Commits p) s ⟨s.count, s.threads ++ [.created], .waiting k⟩ := by
  cases hi : s.init with
  | starting j =>
    rw [hi] at hk
    have hk : j = k + 1 := hk
    subst hk
    exact .head ⟨.initStart hi hc, trivial⟩ .refl
  | waiting j =>
    rw [hi] at hk
    have hk : j = k + 1 := hk
    subst hk
    exact .head ⟨.initStarted hi, trivial⟩ (.head ⟨.initStart rfl hc, trivial⟩ .refl)
  | returned =>
    rw [hi] at hk
    cases hk
  | failed =>
    rw [hi] at hk
    cases hk

/-- Too many: all who are on their way to `start_one` get through its check. -/
theorem leads_more : ∀ (n : Nat) {s : State}, s.Counted → s.starters + s.init.left = n →
    p.max < s.alive + n → ∃ s', Leads (Commits p) s s' ∧ p.max < s'.alive := by
  intro n
  induction n with
  | zero => exact fun _ _ hlt => ⟨_, .refl, hlt⟩
  | succ n ih =>
    intro s hcnt hn hlt
    by_cases hmore : p.max < s.alive
    · exact ⟨s, .refl, hmore⟩
    have hc : ¬ p.max < s.count := fun h => hmore (Nat.lt_of_lt_of_le h hcnt.le)
    rcases Nat.eq_zero_or_pos s.starters with h0 | hpos
    · have hleft : s.init.left = n + 1 := by omega
      have hstep := leads_init hleft hc
      have ha : State.alive ⟨s.count, s.threads ++ [.created], .waiting n⟩ = s.alive + 1 :=
        countP_created
      have hs : State.starters ⟨s.count, s.threads ++ [.created], .waiting n⟩ = s.starters :=
        countP_created_of_not rfl
      obtain ⟨s', hs', hlt'⟩ := ih (s := ⟨s.count, s.threads ++ [.created], .waiting n⟩)
        (hcnt.trans (countP_created_of_not rfl).symm)
        (by rw [hs, h0]; exact Nat.zero_add n) (by rw [ha]; omega)
      exact ⟨s', hstep.trans hs', hlt'⟩
    · obtain ⟨i, x, hi, hx⟩ := exists_index hpos
      cases x <;> try cases hx
      have hstep : Step p s (.startOne i) _ := .startOne hi hc
      have t : Turns s.threads (s.threads.set i .handling) .starting .handling := turns_set hi
      have ha : State.alive { s with threads := s.threads.set i .handling ++ [.created] } =
          s.alive + 1 := countP_created.trans (congrArg (· + 1) (t.same (fun _ h => h) rfl))
      have hs : State.starters { s with threads := s.threads.set i .handling ++ [.created] } + 1 =
          s.starters := by
        refine Eq.trans ?_ (t.count _ alive_of_isStarting)
        exact congrArg (· + 1) (countP_created_of_not rfl)
      obtain ⟨s', hs', hlt'⟩ := ih (counted_step hcnt hstep)
        (by show State.starters _ + s.init.left = n; omega) (by rw [ha]; omega)
      exact ⟨s', .head ⟨hstep, trivial⟩ hs', hlt'⟩

/-- `init` comes to its end, unless there are too many first. -/
theorem leads_returned : ∀ (k : Nat) {s : State}, s.Counted → s.init ≠ .failed →
    s.init.left = k → ∃ s', Leads (Commits p) s s' ∧
      (p.max < s'.alive ∨ s'.init = .returned ∧ s'.alive = s.alive + k ∧ s'.leavers = s.leavers) := by
  intro k
  induction k with
  | zero =>
    intro s _ hne hk
    cases hi : s.init with
    | starting j =>
      rw [hi] at hk
      have hk : j = 0 := hk
      subst hk
      exact ⟨{ s with init := .returned }, .head ⟨.initReturn hi, trivial⟩ .refl,
        Or.inr ⟨rfl, rfl, rfl⟩⟩
    | waiting j =>
      rw [hi] at hk
      have hk : j = 0 := hk
      subst hk
      exact ⟨{ s with init := .returned },
        .head ⟨.initStarted hi, trivial⟩ (.head ⟨.initReturn rfl, trivial⟩ .refl),
        Or.inr ⟨rfl, rfl, rfl⟩⟩
    | returned => exact ⟨s, .refl, Or.inr ⟨hi, rfl, rfl⟩⟩
    | failed => exact absurd hi hne
  | succ k ih =>
    intro s hcnt hne hk
    by_cases hmore : p.max < s.alive
    · exact ⟨s, .refl, Or.inl hmore⟩
    have hstep := leads_init hk fun h => hmore (Nat.lt_of_lt_of_le h hcnt.le)
    have ha : State.alive ⟨s.count, s.threads ++ [.created], .waiting k⟩ = s.alive + 1 :=
      countP_created
    have hl : State.leavers ⟨s.count, s.threads ++ [.created], .waiting k⟩ = s.leavers :=
      countP_created_of_not rfl
    obtain ⟨s', hs', hend⟩ := ih (s := ⟨s.count, s.threads ++ [.created], .waiting k⟩)
      (hcnt.trans (countP_created_of_not rfl).symm) Init.noConfusion rfl
    refine ⟨s', hstep.trans hs', hend.imp_right fun ⟨hr, ha', hl'⟩ => ⟨hr, ?_, hl'.trans hl⟩⟩
    rw [ha', ha]
    omega

/-- A worker on its way out exits. -/
theorem leads_exit (h : 0 < s.leavers) : ∃ s', Leads (Commits p) s s' ∧ s'.init = s.init ∧
    s'.alive + 1 = s.alive ∧ s'.leavers + 1 = s.leavers := by
  obtain ⟨i, x, hi, hx⟩ := exists_index h
  have hlt := (List.getElem?_eq_some_iff.mp hi).1
  have exits : ∀ {s : State}, s.threads[i]? = some .exiting → ∃ s', Leads (Commits p) s s' ∧
      s'.init = s.init ∧ s'.alive + 1 = s.alive ∧ s'.leavers + 1 = s.leavers := by
    intro s hi
    have t : Turns s.threads (s.threads.set i .exited) .exiting .exited := turns_set hi
    exact ⟨{ s with threads := s.threads.set i .exited }, .head ⟨.exit hi, trivial⟩ .refl, rfl,
      t.count _ fun _ h => h, t.count _ alive_of_isLeaving⟩
  cases x <;> try cases hx
  · have t : Turns s.threads (s.threads.set i .exiting) .leaving .exiting := turns_set hi
    obtain ⟨s', hs', hinit, ha, hl⟩ := exits (s := ⟨s.count - 1, s.threads.set i .exiting, s.init⟩)
      (List.getElem?_set_self hlt)
    exact ⟨s', .head ⟨.onExit hi, trivial⟩ hs', hinit, ha.trans (t.same (fun _ h => h) rfl),
      hl.trans (t.same alive_of_isLeaving rfl)⟩
  · exact exits hi

/-- Too few: all who are on their way out exit. -/
theorem leads_less : ∀ (n : Nat) {s : State}, s.init = .returned → s.leavers = n →
    s.alive < p.min + n → ∃ s', Leads (Commits p) s s' ∧ ¬ s'.Bounds p := by
  intro n
  induction n with
  | zero => exact fun hr _ hlt => ⟨_, .refl, fun hb => Nat.not_le_of_lt hlt (hb.2 hr)⟩
  | succ n ih =>
    intro s hr hn hlt
    obtain ⟨s₁, hs₁, hinit, ha, hl⟩ := leads_exit (p := p) (s := s) (by omega)
    obtain ⟨s', hs', hb⟩ := ih (hinit.trans hr) (by omega) (by omega)
    exact ⟨s', hs₁.trans hs', hb⟩

/-- `Room` is what is needed, and all that is needed, for the bounds from here on. -/
theorem settled_iff (h : s.Counted) : Settled (Commits p) (Bounds p) s ↔ s.Room p := by
  constructor
  · intro hset
    constructor
    · by_contra hlt
      obtain ⟨s', hs', hmore⟩ := leads_more (p := p) _ h rfl (by omega)
      exact Nat.not_le_of_lt hmore (hset s' hs').1
    · intro hne
      by_contra hlt
      obtain ⟨s₁, hs₁, hmore | ⟨hr, ha, hl⟩⟩ := leads_returned (p := p) _ h hne rfl
      · exact Nat.not_le_of_lt hmore (hset s₁ hs₁).1
      · obtain ⟨s', hs', hb⟩ := leads_less (p := p) _ hr rfl (by omega)
        exact hb (hset s' (hs₁.trans hs'))
  · refine settled_of_inv (I := Room p) ?_ ?_
    · intro s a s' hr ⟨hs, ha⟩
      refine (room_iff hr hs).mpr ?_
      cases a <;> trivial
    · intro s ⟨hmax, hmin⟩
      refine ⟨by omega, fun hr => ?_⟩
      rw [hr] at hmin
      exact (Nat.le_add_right _ _).trans (hmin Init.noConfusion)

/-- **All runs** of a pool: the number of threads stays between the bounds, and will do so when
    everybody has done what they have decided to do, exactly when each decision takes the others'
    into account. -/
theorem always_bounds_iff (hp : p.Accepted) {tr : List (Act × State)}
    (h : Run (Step p) (initial p) tr) :
    Always (fun _ _ s' => Settled (Commits p) (Bounds p) s') (initial p) tr ↔
      Always (fun s a _ => s.Spares p a) (initial p) tr := by
  refine h.always_iff (I := fun s => s.Counted ∧ s.Room p) ?_ ?_ ⟨rfl, ?_, fun _ => ?_⟩
  · intro s a s' ⟨hcnt, hr⟩ hs
    exact (settled_iff (counted_step hcnt hs)).trans (room_iff hr hs)
  · intro s a s' ⟨hcnt, _⟩ hs hset
    exact ⟨counted_step hcnt hs, (settled_iff (counted_step hcnt hs)).mp hset⟩
  · show 0 + 0 + p.min ≤ p.max
    rw [Nat.zero_add]
    exact hp.min_le
  · exact (Nat.zero_add p.min).ge

/-- Work for two: the first worker starts another one. -/
theorem always_bounds_iff_two : ∃ tr : List (Act × State),
    tr.map Prod.fst = [.initStart, .onEntry 0, .initStarted, .initReturn, .worker 0 .notified,
      .worker 0 .help, .worker 0 .room, .cleanRoom 0, .startOne 0] ∧
    Always (fun _ _ s' => Settled (Commits ⟨1, 2, 1000, 20⟩) (Bounds ⟨1, 2, 1000, 20⟩) s')
      (initial ⟨1, 2, 1000, 20⟩) tr := by
  refine ⟨_, rfl, (always_bounds_iff (p := ⟨1, 2, 1000, 20⟩)
    ⟨by decide, by decide, by decide, by decide, by decide⟩
    (.cons (.initStart rfl (by decide)) <| .cons (.onEntry (i := 0) rfl) <|
    .cons (.initStarted rfl) <| .cons (.initReturn rfl) <|
    .cons (.worker (i := 0) rfl .notified) <| .cons (.worker (i := 0) rfl .help) <|
    .cons (.worker (i := 0) rfl (.room (by decide))) <|
    .cons (.cleanRoom (i := 0) rfl ⟨List.Sublist.refl _, rfl⟩ (by decide)) <|
    .cons (.startOne (i := 0) rfl (by decide)) <| .nil _)).mpr ?_⟩
  have hroom : 1 + 0 + 0 < 2 := by decide
  exact ⟨trivial, trivial, trivial, trivial, trivial, trivial, trivial, hroom, trivial, trivial⟩

/-- A worker starts another one while `init` is not done; and two workers leave at once. -/
theorem always_bounds_fails :
    (∃ tr : List (Act × State), Run (Step ⟨2, 2, 1000, 20⟩) (initial ⟨2, 2, 1000, 20⟩) tr ∧
      tr.map Prod.fst = [.initStart, .onEntry 0, .worker 0 .notified, .worker 0 .help,
        .worker 0 .room, .cleanRoom 0, .startOne 0, .onEntry 1, .initStarted, .initStart] ∧
      ¬ Always (fun _ _ s' => s'.Bounds ⟨2, 2, 1000, 20⟩) (initial ⟨2, 2, 1000, 20⟩) tr) ∧
    ∃ tr : List (Act × State), Run (Step ⟨1, 2, 1000, 1⟩) (initial ⟨1, 2, 1000, 1⟩) tr ∧
      tr.map Prod.fst = [.initStart, .onEntry 0, .initStarted, .initReturn, .worker 0 .notified,
        .worker 0 .help, .worker 0 .room, .cleanRoom 0, .startOne 0, .onEntry 1,
        .worker 0 .handled, .cleanup 0, .worker 0 .timeout, .cleanup 0, .worker 0 .outOfTime,
        .worker 1 .timeout, .cleanup 1, .worker 1 .outOfTime, .worker 0 .leave, .worker 1 .leave,
        .onExit 0, .exit 0, .onExit 1, .exit 1] ∧
      ¬ Always (fun _ _ s' => s'.Bounds ⟨1, 2, 1000, 1⟩) (initial ⟨1, 2, 1000, 1⟩) tr := by
  constructor
  · refine ⟨_, .cons (.initStart rfl (by decide)) <| .cons (.onEntry (i := 0) rfl) <|
      .cons (.worker (i := 0) rfl .notified) <| .cons (.worker (i := 0) rfl .help) <|
      .cons (.worker (i := 0) rfl (.room (by decide))) <|
      .cons (.cleanRoom (i := 0) rfl ⟨List.Sublist.refl _, rfl⟩ (by decide)) <|
      .cons (.startOne (i := 0) rfl (by decide)) <| .cons (.onEntry (i := 1) rfl) <|
      .cons (.initStarted rfl) <| .cons (.initStart rfl (by decide)) <| .nil _, rfl, ?_⟩
    intro hall
    exact absurd (hall.last_state (by decide)) (by decide)
  · refine ⟨_, .cons (.initStart rfl (by decide)) <| .cons (.onEntry (i := 0) rfl) <|
      .cons (.initStarted rfl) <| .cons (.initReturn rfl) <|
      .cons (.worker (i := 0) rfl .notified) <| .cons (.worker (i := 0) rfl .help) <|
      .cons (.worker (i := 0) rfl (.room (by decide))) <|
      .cons (.cleanRoom (i := 0) rfl ⟨List.Sublist.refl _, rfl⟩ (by decide)) <|
      .cons (.startOne (i := 0) rfl (by decide)) <| .cons (.onEntry (i := 1) rfl) <|
      .cons (.worker (i := 0) rfl .handled) <|
      .cons (.cleanup (i := 0) rfl ⟨List.Sublist.refl _, rfl⟩) <|
      .cons (.worker (i := 0) rfl (.timeout (by decide))) <|
      .cons (.cleanup (i := 0) rfl ⟨List.Sublist.refl _, rfl⟩) <|
      .cons (.worker (i := 0) rfl (.outOfTime (by decide))) <|
      .cons (.worker (i := 1) rfl (.timeout (by decide))) <|
      .cons (.cleanup (i := 1) rfl ⟨List.Sublist.refl _, rfl⟩) <|
      .cons (.worker (i := 1) rfl (.outOfTime (by decide))) <|
      .cons (.worker (i := 0) rfl (.leave (by decide))) <|
      .cons (.worker (i := 1) rfl (.leave (by decide))) <|
      .cons (.onExit (i := 0) rfl) <| .cons (.exit (i := 0) rfl) <|
      .cons (.onExit (i := 1) rfl) <| .cons (.exit (i := 1) rfl) <| .nil _, rfl, ?_⟩
    intro hall
    exact absurd (hall.last_state (by decide)) (by decide)

end State

end Thrpool

end CodeSLoop
