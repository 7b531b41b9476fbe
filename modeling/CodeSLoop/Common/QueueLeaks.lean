import CodeSLoop.Common.QueueFifo

/-!
# Which slots of a `queue` leak

`accounted_iff` answers, for every run, when every slot in use is either linked in the queue or
owned by exactly one live handler: exactly when no assignment of the run is to a handler that
owns a slot. `operator=` overwrites `q_` and `i_` without looking at them, while `set`, which
`pop` uses for the same purpose, calls `reset` first. The slot that was owned is then in use
for as long as the queue lives, and `size()` stays above `n_items()`.
-/

namespace CodeSLoop

open Lts Inpvec

universe u

namespace Queue.Sys

variable {T : Type u} {s : Sys T} {ks os ls : List Nat}

/-- Every slot in use is linked, or owned once, and not both; every slot that is owned is in
    use, as the slot of its own position, so that letting it go frees it and no other; and
    without handlers the slots in use are as many as the items. -/
structure Accounted (s : Sys T) : Prop where
  used : ∀ k x, s.queue.items.getPtr k = some x →
    (x ∈ s.queue.links ∧ ∀ h, s.held h ≠ some x) ∨ (x ∉ s.queue.links ∧ ∃! h, s.held h = some x)
  owned : ∀ h x, s.held h = some x →
    ∃ k, s.queue.items.getPtr k = some x ∧ (s.queue.items.deref x).map QItem.pos = some k
  size : (∀ h, s.handlers h = none) → s.queue.size = s.queue.nItems

/-- The pointer of a position in use. -/
theorem Slots.getPtr_eq_some (hs : s.Slots ks os ls) {k : Nat} {x : Ptr} :
    s.queue.items.getPtr k = some x ↔ k ∈ ks ++ os ++ ls ∧ s.queue.items.addr k = some x := by
  have hget := hs.linked.ok.getPtr_eq (k := k)
  by_cases hk : k ∈ ks ++ os ++ ls
  · rw [if_pos (Option.isSome_iff_ne_none.mpr ((hs.occupied.used k).mpr hk))] at hget
    rw [hget]
    exact ⟨fun h => ⟨hk, h⟩, fun h => h.2⟩
  · rw [if_neg fun h => hk ((hs.occupied.used k).mp (Option.isSome_iff_ne_none.mp h))] at hget
    rw [hget]
    exact ⟨fun h => absurd h (by simp), fun h => absurd h.1 hk⟩

theorem Slots.mem_links (hs : s.Slots ks os ls) {k : Nat} {x : Ptr}
    (hx : s.queue.items.addr k = some x) : x ∈ s.queue.links ↔ k ∈ ks := by
  rw [hs.linked.links, List.mem_filterMap]
  constructor
  · rintro ⟨k', hk', hx'⟩
    exact addr_inj hx hx' ▸ hk'
  · exact fun hk => ⟨k, hk, hx⟩

theorem Slots.mem_owned (hs : s.Slots ks os ls) {k : Nat} {x : Ptr}
    (hx : s.queue.items.addr k = some x) : (∃ h, s.held h = some x) ↔ k ∈ os := by
  constructor
  · rintro ⟨h, hh⟩
    obtain ⟨k', hk', hx'⟩ := hs.owners.owned h x hh
    exact addr_inj hx hx' ▸ hk'
  · intro hk
    obtain ⟨h, y, hh, hy⟩ := hs.owners.owner k hk
    rw [hx, Option.some.injEq] at hy
    exact ⟨h, hy ▸ hh⟩

/-- The slots are accounted for when none is leaked. -/
theorem Slots.accounted_iff_nil (hs : s.Slots ks os ls) : s.Accounted ↔ ls = [] := by
  have hnodup := hs.occupied.nodup
  rw [List.nodup_append] at hnodup
  obtain ⟨hko, -, hl⟩ := hnodup
  constructor
  · intro ha
    cases ls with
    | nil => rfl
    | cons k ls =>
      -- a leaked slot is in use, but neither linked nor owned
      have hk : k ∈ ks ++ os ++ k :: ls := by simp
      obtain ⟨it, hit⟩ := Option.ne_none_iff_exists'.mp ((hs.occupied.used k).mpr hk)
      obtain ⟨x, hx, -⟩ := addr_of_view hit
      rcases ha.used k x (hs.getPtr_eq_some.mpr ⟨hk, hx⟩) with ⟨hlink, -⟩ | ⟨-, h, hh, -⟩
      · exact absurd rfl (hl k (List.mem_append_left os ((hs.mem_links hx).mp hlink)) k (by simp))
      · exact absurd rfl
          (hl k (List.mem_append_right ks ((hs.mem_owned hx).mp ⟨h, hh⟩)) k (by simp))
  · rintro rfl
    refine ⟨fun k x hx => ?_, fun h x hh => ?_, fun hnone => ?_⟩
    · obtain ⟨hk, hx⟩ := hs.getPtr_eq_some.mp hx
      rw [List.append_nil, List.mem_append] at hk
      rcases hk with hk | hk
      · refine .inl ⟨(hs.mem_links hx).mpr hk, fun h hh => ?_⟩
        exact hs.not_linked ((hs.mem_owned hx).mp ⟨h, hh⟩) hk
      · obtain ⟨h, hh⟩ := (hs.mem_owned hx).mpr hk
        exact .inr ⟨fun hlink => hs.not_linked hk ((hs.mem_links hx).mp hlink),
          h, hh, fun j hj => hs.owners.unique j h x hj hh⟩
    · obtain ⟨k, hk, hx⟩ := hs.owners.owned h x hh
      obtain ⟨it, hit, hpos⟩ := hs.items_owned hk
      refine ⟨k, hs.getPtr_eq_some.mpr ⟨by simp [hk], hx⟩, ?_⟩
      rw [deref_of_addr hx hit, Option.map_some, hpos]
    · have hos : os = [] := List.eq_nil_iff_forall_not_mem.mpr fun k hk => by
        obtain ⟨h, x, hh, -⟩ := hs.owners.owner k hk
        rw [held, hnone h] at hh
        cases hh
      rw [Queue.size, hs.occupied.count, hs.linked.nItems, hos, List.append_nil, List.append_nil]

/-- Nothing has leaked. -/
def Tight (s : Sys T) : Prop := ∃ ks os, s.Slots ks os []

theorem tight_init : (init : Sys T).Tight := ⟨[], [], slots_init⟩

theorem step_accounted_iff (s : Sys T) (a : Event T) (s' : Sys T) (h : s.Tight)
    (hst : Step s a s') : s'.Accounted ↔ ¬ s.Overwrites a.op := by
  obtain ⟨ks, os, hs⟩ := h
  obtain ⟨ks', os', ls', hs', -, hkeep, hleak⟩ := hs.step hst
  rw [hs'.accounted_iff_nil]
  exact ⟨fun hls ho => hleak ho hls, hkeep⟩

theorem step_tight (s : Sys T) (a : Event T) (s' : Sys T) (h : s.Tight) (hst : Step s a s')
    (ha : s'.Accounted) : s'.Tight := by
  obtain ⟨ks, os, hs⟩ := h
  obtain ⟨ks', os', ls', hs', -⟩ := hs.step hst
  rw [hs'.accounted_iff_nil] at ha
  subst ha
  exact ⟨ks', os', hs'⟩

/-- **Leaks, over every run.** Every state of a run has its slots accounted for exactly when no
    call of the run assigns to a handler that owns a slot. -/
theorem accounted_iff {tr : List (Event T × Sys T)} (h : Run Step init tr) :
    Always (fun _ _ s' => s'.Accounted) init tr ↔
      Always (fun s a _ => ¬ s.Overwrites a.op) init tr :=
  h.always_iff step_accounted_iff step_tight tight_init

instance (s : Sys T) (op : Op T) : Decidable (s.Overwrites op) :=
  match op with
  | .assign h _ => inferInstanceAs (Decidable (s.held h ≠ none))
  | .create _ | .push _ | .pop _ | .reset _ | .destroy _ => inferInstanceAs (Decidable False)

/-- Two items are popped into two handlers, one handler is assigned to the other, and both are
    destroyed. -/
def leak : List (Op Nat) :=
  [.create 0, .create 1, .push 10, .push 20, .pop 0, .pop 1, .assign 0 1, .destroy 0, .destroy 1]

theorem accounted_fails :
    ∃ tr, Run Step (init : Sys Nat) tr ∧ tr.map (·.1.op) = leak ∧
      (last init tr).queue.size = 1 ∧ (last init tr).queue.nItems = 0 ∧
      ¬ Always (fun _ _ s' => s'.Accounted) init tr := by
  have hrun := run_of_replay (fun _ _ _ => step_of_call) leak
    (Option.some_get (show (replay call init leak).isSome by decide)).symm
  refine ⟨_, hrun, by decide, by decide, by decide, fun hall => ?_⟩
  have hclean := (hrun.always_iff step_accounted_iff step_tight tight_init).mp hall
  exact absurd hclean (by decide)

theorem accounted_iff_turns :
    ∃ tr : List (Event Nat × Sys Nat), tr.map (·.1.op) = turns ∧
      Always (fun _ _ s' => s'.Accounted) (init : Sys Nat) tr :=
  have h := run_of_replay (fun _ _ _ => step_of_call) turns
    (Option.some_get (show (replay call init turns).isSome by decide)).symm
  ⟨_, by decide, (accounted_iff h).mpr (by decide)⟩

end Queue.Sys

end CodeSLoop
