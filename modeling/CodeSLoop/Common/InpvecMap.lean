import CodeSLoop.Common.InpvecSpec

/-!
# `inpvec` as a finite map

Every operation names one position and acts there on the map `Inpvec.view`, or it resets the
map. `finiteMap_iff` says of a whole run that every state is the map its operations say, with
`n_items_` counting the set bits, exactly when no operation puts an item into a page without
room. Pages without room come from the 32-bit product in `item::size()`: when the last page
is full and its word count is two short of a multiple of `2 ^ 26`, the page that
`last_free()` or `first_free()` adds has that many words and room for none of its items.
-/

namespace CodeSLoop

open Segments Lts

universe u

namespace Inpvec

variable {T : Type u} {v : Inpvec T}

/-- The operations. An iterator is freed where it stands. -/
inductive Op (T : Type u)
  | set (pos : UInt64) (t : T)
  | construct (pos : UInt64)
  | pushBack (t : T)
  | firstFreeSet (t : T)
  | firstFreeConstruct
  | freeAt (pos : UInt64)
  | iterFree (it : Iter)
  | reset

/-- What a trace records of a call: the operation and the position it named, if any. -/
structure Event (T : Type u) where
  op : Op T
  named : Option Nat

section

variable [Inhabited T]

/-- One operation, `force_iterator_at` cut off after `fuel` calls, with the position of the
    iterator it went through. -/
def exec (v : Inpvec T) (fuel : Nat) : Op T → Option (Inpvec T × Option Nat)
  | .set pos t =>
    (v.forceIteratorAt pos.toNat fuel).map fun r => ((r.1.iterSet r.2 t).1, some r.2.gpos)
  | .construct pos =>
    (v.forceIteratorAt pos.toNat fuel).map fun r => ((r.1.iterConstruct r.2).1, some r.2.gpos)
  | .pushBack t => v.lastFree.map fun r => ((r.1.iterSet r.2 t).1, some r.2.gpos)
  | .firstFreeSet t => v.firstFree.map fun r => ((r.1.iterSet r.2 t).1, some r.2.gpos)
  | .firstFreeConstruct => v.firstFree.map fun r => ((r.1.iterConstruct r.2).1, some r.2.gpos)
  | .freeAt pos => some ((v.freeAt pos.toNat).1, some pos.toNat)
  | .iterFree it => some (v.iterFree it, it.page.map fun _ => it.gpos)
  | .reset => some (v.reset, none)

/-- `exec` is `set`, `construct` and `push_back` where these are one call. -/
theorem exec_set (pos : UInt64) (t : T) (fuel : Nat) :
    (v.exec fuel (.set pos t)).map Prod.fst = (v.set pos.toNat t fuel).map Prod.fst := by
  simp [exec, set, Option.map_map, Function.comp_def]

theorem exec_construct (pos : UInt64) (fuel : Nat) :
    (v.exec fuel (.construct pos)).map Prod.fst = (v.construct pos.toNat fuel).map Prod.fst := by
  simp [exec, construct, Option.map_map, Function.comp_def]

theorem exec_pushBack (t : T) (fuel : Nat) :
    (v.exec fuel (.pushBack t)).map Prod.fst = (v.pushBack t).map Prod.fst := by
  simp [exec, pushBack, Option.map_map, Function.comp_def]

end

/-- An iterator may be freed that stands on a place of the vector, or is `end()`. -/
def Legal (v : Inpvec T) : Op T → Prop
  | .iterFree it => it.page = none ∨ ∃ i p, Valid v it i p
  | _ => True

def Step [Inhabited T] (v : Inpvec T) (a : Event T) (v' : Inpvec T) : Prop :=
  v.Legal a.op ∧ ∃ fuel, v.exec fuel a.op = some (v', a.named)

/-! ## The map -/

/-- What an operation does to a map at the position it named. -/
def Op.act [Inhabited T] (op : Op T) (named : Option Nat) (m : Nat → Option T) : Nat → Option T :=
  match op, named with
  | .reset, _ => fun _ => none
  | _, none => m
  | .set _ t, some k | .pushBack t, some k | .firstFreeSet t, some k =>
    Function.update m k (some t)
  | .construct _, some k | .firstFreeConstruct, some k =>
    Function.update m k (some ((m k).getD default))
  | .freeAt _, some k | .iterFree _, some k => Function.update m k none

/-- The position an operation names is its argument, the place its iterator stands on, or one
    that was not in use. -/
def Op.Names (op : Op T) (named : Option Nat) (m : Nat → Option T) : Prop :=
  match op with
  | .set pos _ | .construct pos | .freeAt pos => named = some pos.toNat
  | .pushBack _ | .firstFreeSet _ | .firstFreeConstruct => ∃ k, named = some k ∧ m k = none
  | .iterFree it => named = it.page.map fun _ => it.gpos
  | .reset => named = none

/-- What is asked of one step: the map changes as the operation says and nowhere else,
    `get_ptr` is null exactly off the map, and `n_items_` is the number of set bits. -/
structure Faithful [Inhabited T] (v : Inpvec T) (a : Event T) (v' : Inpvec T) : Prop where
  view : v'.view = a.op.act a.named v.view
  names : a.op.Names a.named v.view
  getPtr : ∀ k, (v'.getPtr k).isSome = (v'.view k).isSome
  nItems : v'.nItems = v'.count

/-- The operations that put an item where there is room for it. -/
def Roomy (v : Inpvec T) : Op T → Prop
  | .pushBack _ => v.tail.lastFree = v.tail.size → (v.tail.mul + 2) * 64 ≠ 0
  | .firstFreeSet _ | .firstFreeConstruct =>
    (∀ p ∈ v.pages, p.firstFree = p.size) → (v.tail.mul + 2) * 64 ≠ 0
  | _ => True

instance (v : Inpvec T) (op : Op T) : Decidable (v.Roomy op) := by
  cases op <;> unfold Roomy <;> infer_instance

/-! ## One operation -/

/-- Where `last_free` or `first_free` leads, `R` being the condition that there is room: to an
    unused place, or to a new page without room. -/
def Leads (v : Inpvec T) (R : Prop) (r : Inpvec T × Iter) : Prop :=
  (R ∧ Extends v r.1 ∧ (∃ i p, Valid r.1 r.2 i p) ∧ v.view r.2.gpos = none) ∨
    (¬ R ∧ r.1.size = v.size ∧ r.2.gpos = v.size)

theorem leads_allocate {R : Prop} {v' : Inpvec T} (ha : v.allocate (v.tail.mul + 2) = some v')
    (hR : R ↔ (v.tail.mul + 2) * 64 ≠ 0) :
    v.Leads R (v', ⟨some v.pages.length, 0, v.size⟩) := by
  by_cases hm : (v.tail.mul + 2) * 64 = 0
  · refine .inr ⟨fun hr => hR.mp hr hm, ?_, rfl⟩
    have hsum : v'.size = v.size + ((v.tail.mul + 2) * 64).toNat := by
      simp [sizes, size, (allocate_some ha).1, Page.size, Page.mulAlloc]
    rw [hsum, hm]
    rfl
  · have hnone : v.view v.size = none := view_of_none (locate_eq_none.mpr (Nat.le_refl _))
    exact .inl ⟨hR.mpr hm, allocate_extends ha, ⟨_, _, valid_allocate ha hm⟩, hnone⟩

theorem lastFree_leads {r : Inpvec T × Iter} (hok : v.Ok) (h : v.lastFree = some r) (t : T) :
    v.Leads (v.Roomy (.pushBack t)) r := by
  by_cases heq : v.tail.lastFree = v.tail.size
  · rw [lastFree_full heq, Option.map_eq_some_iff] at h
    obtain ⟨v', ha, rfl⟩ := h
    exact leads_allocate ha ⟨fun hr => hr heq, fun hm _ => hm⟩
  · obtain ⟨it, hl, hv, hnone⟩ := lastFree_room hok heq
    rw [h, Option.some.injEq] at hl
    subst hl
    exact .inl ⟨fun h0 => absurd h0 heq, .refl, ⟨_, _, hv⟩, hnone⟩

theorem firstFree_leads {r : Inpvec T × Iter} (hok : v.Ok) (h : v.firstFree = some r) :
    v.Leads (v.Roomy .firstFreeConstruct) r := by
  by_cases heq : ∀ p ∈ v.pages, p.firstFree = p.size
  · rw [firstFree_full heq, Option.map_eq_some_iff] at h
    obtain ⟨v', ha, rfl⟩ := h
    exact leads_allocate ha ⟨fun hr => hr heq, fun hm _ => hm⟩
  · obtain ⟨it, i, p, hl, hv, hnone⟩ := firstFree_room hok heq
    rw [h, Option.some.injEq] at hl
    subst hl
    exact .inl ⟨fun h0 => absurd h0 heq, .refl, ⟨_, _, hv⟩, hnone⟩

variable [Inhabited T]

theorem faithful_of_ok {a : Event T} {v' : Inpvec T} (hview : v'.view = a.op.act a.named v.view)
    (hnames : a.op.Names a.named v.view) (hok : v'.Ok) : Faithful v a v' :=
  ⟨hview, hnames, fun _ => hok.isSome_getPtr, hok.nItems⟩

/-- Putting an item where `last_free` or `first_free` leads is faithful exactly when there is
    room. An item put into a page without room is not found again. -/
theorem put_faithful_iff {R : Prop} {op : Op T} {r : Inpvec T × Iter} {w : Inpvec T}
    (hr : v.Leads R r)
    (hput : ∀ i p, Extends v r.1 → Valid r.1 r.2 i p →
      w.view = op.act (some r.2.gpos) v.view ∧ w.Ok)
    (hnames : v.view r.2.gpos = none → op.Names (some r.2.gpos) v.view)
    (hsome : (op.act (some r.2.gpos) v.view r.2.gpos).isSome) (hsizes : w.sizes = r.1.sizes) :
    (Faithful v ⟨op, some r.2.gpos⟩ w ↔ R) ∧ (R → w.Ok) := by
  rcases hr with ⟨hR, he, ⟨i, p, hv⟩, hnone⟩ | ⟨hR, hsize, hg⟩
  · obtain ⟨h1, h2⟩ := hput i p he hv
    exact ⟨iff_of_true (faithful_of_ok h1 (hnames hnone) h2) hR, fun _ => h2⟩
  · refine ⟨iff_of_false (fun hf => ?_) hR, fun h => absurd h hR⟩
    have hlost : w.view r.2.gpos = none := by
      refine view_of_none (locate_eq_none.mpr ?_)
      rw [hsizes, hg, ← hsize]
      exact Nat.le_refl _
    have hview := congrFun hf.view r.2.gpos
    dsimp only at hview
    rw [← hview, hlost] at hsome
    cases hsome

/-- One operation is faithful exactly when it is roomy, and then keeps the invariant. -/
theorem step_faithful_iff {a : Event T} {v' : Inpvec T} (hok : v.Ok) (hs : Step v a v') :
    (Faithful v a v' ↔ v.Roomy a.op) ∧ (v.Roomy a.op → v'.Ok) := by
  obtain ⟨op, named⟩ := a
  obtain ⟨hl, fuel, h⟩ := hs
  dsimp only at hl h ⊢
  -- three operations put an item where a free place is said to be; the others go where they are told
  cases op with
  | set pos t =>
    rw [exec, Option.map_eq_some_iff] at h
    obtain ⟨⟨w, it⟩, hfi, heq⟩ := h
    obtain ⟨he, hg, i, p, hv⟩ := forceIteratorAt_spec hfi
    obtain ⟨h1, h2, -⟩ := iterSet_spec (t := t) (he.ok hok) hv
    cases heq
    refine ⟨iff_of_true (faithful_of_ok ?_ (congrArg some hg) h2) trivial, fun _ => h2⟩
    rw [he.view] at h1
    exact h1
  | construct pos =>
    rw [exec, Option.map_eq_some_iff] at h
    obtain ⟨⟨w, it⟩, hfi, heq⟩ := h
    obtain ⟨he, hg, i, p, hv⟩ := forceIteratorAt_spec hfi
    obtain ⟨h1, h2, -⟩ := iterConstruct_spec (he.ok hok) hv
    cases heq
    refine ⟨iff_of_true (faithful_of_ok ?_ (congrArg some hg) h2) trivial, fun _ => h2⟩
    rw [he.view] at h1
    exact h1
  | pushBack t =>
    rw [exec, Option.map_eq_some_iff] at h
    obtain ⟨r, hr, heq⟩ := h
    cases heq
    refine put_faithful_iff (lastFree_leads hok hr t) (fun i p he hv => ?_)
      (fun hnone => ⟨_, rfl, hnone⟩) (by simp [Op.act]) sizes_iterSet
    obtain ⟨h1, h2, -⟩ := iterSet_spec (t := t) (he.ok hok) hv
    exact ⟨by rw [h1, he.view]; rfl, h2⟩
  | firstFreeSet t =>
    rw [exec, Option.map_eq_some_iff] at h
    obtain ⟨r, hr, heq⟩ := h
    cases heq
    refine put_faithful_iff (firstFree_leads hok hr) (fun i p he hv => ?_)
      (fun hnone => ⟨_, rfl, hnone⟩) (by simp [Op.act]) sizes_iterSet
    obtain ⟨h1, h2, -⟩ := iterSet_spec (t := t) (he.ok hok) hv
    exact ⟨by rw [h1, he.view]; rfl, h2⟩
  | firstFreeConstruct =>
    rw [exec, Option.map_eq_some_iff] at h
    obtain ⟨r, hr, heq⟩ := h
    cases heq
    refine put_faithful_iff (firstFree_leads hok hr) (fun i p he hv => ?_)
      (fun hnone => ⟨_, rfl, hnone⟩) (by simp [Op.act]) sizes_iterConstruct
    obtain ⟨h1, h2, -⟩ := iterConstruct_spec (he.ok hok) hv
    exact ⟨by rw [h1, he.view]; rfl, h2⟩
  | freeAt pos =>
    cases h
    obtain ⟨h1, h2, -⟩ := freeAt_spec (k := pos.toNat) hok
    exact ⟨iff_of_true (faithful_of_ok h1 rfl h2) trivial, fun _ => h2⟩
  | iterFree it =>
    cases h
    rcases hl with hnull | ⟨i, p, hv⟩
    · have hsame : v.iterFree it = v := by unfold iterFree; rw [hnull]
      refine ⟨iff_of_true (faithful_of_ok ?_ rfl (by rw [hsame]; exact hok)) trivial,
        fun _ => by rw [hsame]; exact hok⟩
      dsimp only
      rw [hsame, hnull]
      rfl
    · obtain ⟨h1, h2⟩ := iterFree_spec hok hv
      refine ⟨iff_of_true (faithful_of_ok ?_ rfl h2) trivial, fun _ => h2⟩
      dsimp only
      rw [h1, hv.page]
      rfl
  | reset =>
    cases h
    refine ⟨iff_of_true (faithful_of_ok ?_ rfl ok_init) trivial, fun _ => ok_init⟩
    funext k
    exact view_init

/-! ## Runs -/

/-- **A finite map, over every run.** In a run of operations from the empty vector, every step
    changes the map from positions to items at the position it names and nowhere else, with
    `get_ptr` null exactly off the map and `n_items_` the number of set bits, exactly when
    no operation of the run puts an item into a page that has no room. -/
theorem finiteMap_iff {tr : List (Event T × Inpvec T)} (h : Run Step (init : Inpvec T) tr) :
    Always Faithful (init : Inpvec T) tr ↔
      Always (fun v a _ => v.Roomy a.op) (init : Inpvec T) tr :=
  h.always_iff (I := Ok) (fun _ _ _ hok hs => (step_faithful_iff hok hs).1)
    (fun _ _ _ hok hs hf => (step_faithful_iff hok hs).2 ((step_faithful_iff hok hs).1.mp hf))
    ok_init

/-- After a faithful run the vector holds what its operations, one after the other, make of
    the empty map. -/
theorem view_last {tr : List (Event T × Inpvec T)} (hf : Always Faithful v tr) :
    (last v tr).view = (tr.map Prod.fst).foldl (fun m a => a.op.act a.named m) v.view := by
  induction tr generalizing v with
  | nil => rfl
  | cons e tr ih =>
    obtain ⟨a, v'⟩ := e
    obtain ⟨hstep, hrest⟩ := hf
    rw [last, ih hrest, List.map_cons, List.foldl_cons, hstep.view]

/-- The run that makes the given operations, those with an iterator apart. -/
def replay (v : Inpvec T) : List (Op T) → Option (List (Event T × Inpvec T))
  | [] => some []
  | .iterFree _ :: _ => none
  | op :: ops =>
    match v.exec 2 op with
    | some (v', named) => (replay v' ops).map ((⟨op, named⟩, v') :: ·)
    | none => none

theorem run_of_replay {ops : List (Op T)} : ∀ {v : Inpvec T} {tr : List (Event T × Inpvec T)},
    v.replay ops = some tr → Run Step v tr := by
  induction ops with
  | nil =>
    intro v tr h
    simp only [replay, Option.some.injEq] at h
    exact h ▸ .nil v
  | cons op ops ih =>
    intro v tr h
    have key : v.Legal op → (match v.exec 2 op with
        | some (v', named) => (replay v' ops).map ((⟨op, named⟩, v') :: ·)
        | none => none) = some tr → Run Step v tr := by
      intro hl h
      split at h
      · rename_i v' named he
        rw [Option.map_eq_some_iff] at h
        obtain ⟨tr', htr, rfl⟩ := h
        exact .cons ⟨hl, 2, he⟩ (ih htr)
      · cases h
    cases op with
    | iterFree it => simp [replay] at h
    | _ => exact key trivial h

/-- The second page gets `2 ^ 26 - 2` words and its last place is taken; `push_back` then adds
    a page of `2 ^ 26` words, of which `size()` says that it has room for `2 ^ 32 = 0` items. -/
def noRoomOps : List (Op Nat) :=
  [.set (4294967296 - 192) 7, .set (4294967296 - 65) 8, .pushBack 9]

theorem finiteMap_fails :
    ∃ tr, Run Step (init : Inpvec Nat) tr ∧ tr.map (·.1.op) = noRoomOps ∧
      ¬ Always Faithful (init : Inpvec Nat) tr := by
  have hr : Run Step (init : Inpvec Nat) ((replay init noRoomOps).get (by decide)) :=
    run_of_replay (Option.some_get _).symm
  refine ⟨_, hr, by rfl, fun hf => ?_⟩
  have hroomy := (hr.always_iff (I := Ok) (fun _ _ _ hok hs => (step_faithful_iff hok hs).1)
    (fun _ _ _ hok hs hf => (step_faithful_iff hok hs).2 ((step_faithful_iff hok hs).1.mp hf))
    ok_init).mp hf
  exact absurd hroomy (by decide)

/-- A run through every kind of operation. -/
def mixedOps : List (Op Nat) :=
  [.set 70 1, .pushBack 2, .freeAt 70, .firstFreeSet 3, .construct 5, .reset, .firstFreeConstruct]

theorem finiteMap_iff_mixed :
    ∃ tr, tr.map (·.1.named) = [some 70, some 71, some 70, some 0, some 5, none, some 0] ∧
      Always Faithful (init : Inpvec Nat) tr :=
  ⟨(replay init mixedOps).get (by decide), by decide,
    (finiteMap_iff (run_of_replay (Option.some_get _).symm)).mpr (by decide)⟩

end Inpvec

end CodeSLoop
