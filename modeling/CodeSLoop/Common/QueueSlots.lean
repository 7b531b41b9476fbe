import CodeSLoop.Lib.Fifo
import CodeSLoop.Common.QueueSpec

/-!
# Where the slots of a queue are

Every slot in use is in one of three places: *linked* in the queue, *owned* by a handler, or
*leaked* — in use, but known to nobody. `Slots s ks os ls` says that these are the positions
`ks`, `os` and `ls`, that no position is in two places, and that no two handlers own the same
slot. The calls move positions between the three lists:

* `push` puts an unused position in `ks`;
* a `pop` moves the first of `ks` to `os`;
* a handler that lets go takes its position out of `os`, and the slot is free;
* assigning to a handler that owns a slot moves the slot from `os` to `ls`, for good.
-/

namespace CodeSLoop

open Inpvec

universe u

namespace Queue

variable {T : Type u}

/-! ## The positions in use -/

/-- The positions in use are those of `l`. -/
structure Occupies (v : Inpvec T) (l : List Nat) : Prop where
  nodup : l.Nodup
  used : ∀ k, v.view k ≠ none ↔ k ∈ l
  count : v.nItems = l.length

section Occupies

variable {v v' : Inpvec T} {l l' : List Nat} {k : Nat}

theorem Occupies.perm (h : Occupies v l) (hp : l.Perm l') : Occupies v l' :=
  ⟨hp.nodup_iff.mp h.nodup, fun k => (h.used k).trans hp.mem_iff, h.count.trans hp.length_eq⟩

theorem Occupies.fresh (h : Occupies v l) (hk : v.view k = none) : k ∉ l := fun hmem =>
  (h.used k).mpr hmem hk

theorem Occupies.add (h : Occupies v l) (hk : v.view k = none)
    (hview : ∀ j, v'.view j ≠ none ↔ j = k ∨ v.view j ≠ none) (hn : v'.nItems = v.nItems + 1) :
    Occupies v' (k :: l) where
  nodup := List.nodup_cons.mpr ⟨h.fresh hk, h.nodup⟩
  used j := by rw [hview, h.used, List.mem_cons]
  count := by rw [hn, h.count, List.length_cons]

theorem Occupies.free (h : Occupies v (k :: l))
    (hview : v'.view = Function.update v.view k none) (hn : v'.nItems + 1 = v.nItems) :
    Occupies v' l where
  nodup := (List.nodup_cons.mp h.nodup).2
  used j := by
    have hj := h.used j
    rw [hview]
    by_cases hjk : j = k
    · subst hjk
      simp [(List.nodup_cons.mp h.nodup).1]
    · rw [Function.update_of_ne hjk, hj, List.mem_cons]
      simp [hjk]
  count := by
    have := h.count
    rw [List.length_cons] at this
    omega

end Occupies

namespace Sys

variable {s s' : Sys T} {q : Queue T} {ks os os' ls : List Nat} {h j k : Nat} {x : Ptr} {t : T}
  {hd : Handler} {o : Option Handler}

/-! ## Who owns which slot -/

/-- The slot a handler owns. -/
def held (s : Sys T) (h : Nat) : Option Ptr := (s.handlers h).bind Handler.i

theorem value_eq_held :
    s.value h = (s.held h).bind fun i => (s.queue.items.deref i).map QItem.item := by
  unfold value held
  cases s.handlers h <;> rfl

/-- The value of a handler is that of the slot it owns. -/
theorem value_of_held {i : Nat} (hq : s'.queue.items = s.queue.items)
    (hj : s'.held j = s.held i) : s'.value j = s.value i := by
  rw [value_eq_held, value_eq_held, hq, hj]

theorem held_update :
    (⟨q, Function.update s.handlers h o⟩ : Sys T).held j =
      if j = h then o.bind Handler.i else s.held j := by
  unfold held
  by_cases hj : j = h
  · subst hj; simp
  · simp [hj]

/-- The slots that handlers own are those at the positions `os`, each owned once. -/
structure Owners (s : Sys T) (os : List Nat) : Prop where
  pos : ∀ k ∈ os, (s.queue.items.view k).map QItem.pos = some k
  owner : ∀ k ∈ os, ∃ h x, s.held h = some x ∧ s.queue.items.addr k = some x
  owned : ∀ h x, s.held h = some x → ∃ k ∈ os, s.queue.items.addr k = some x
  unique : ∀ h h' x, s.held h = some x → s.held h' = some x → h = h'
  set : ∀ h hd, s.handlers h = some hd → hd.i ≠ none → hd.q = true

theorem owners_init : (init : Sys T).Owners [] where
  pos := by simp
  owner := by simp
  owned h x hx := by cases hx
  unique h h' x hx := by cases hx
  set h hd hhd := by cases hhd

theorem Owners.mem_congr (ho : s.Owners os) (hm : ∀ k, k ∈ os ↔ k ∈ os') : s.Owners os' where
  pos k hk := ho.pos k ((hm k).mpr hk)
  owner k hk := ho.owner k ((hm k).mpr hk)
  owned h x hx :=
    let ⟨k, hk, ha⟩ := ho.owned h x hx
    ⟨k, (hm k).mp hk, ha⟩
  unique := ho.unique
  set := ho.set

/-- The slots of a changed queue are owned as they were when they stay in place. -/
theorem Owners.queue (ho : s.Owners os)
    (haddr : ∀ k x, s.queue.items.addr k = some x → q.items.addr k = some x)
    (hpos : ∀ k ∈ os, (q.items.view k).map QItem.pos = some k) :
    ({ s with queue := q } : Sys T).Owners os where
  pos := hpos
  owner k hk :=
    let ⟨h, x, hx, ha⟩ := ho.owner k hk
    ⟨h, x, hx, haddr k x ha⟩
  owned h x hx :=
    let ⟨k, hk, ha⟩ := ho.owned h x hx
    ⟨k, hk, haddr k x ha⟩
  unique := ho.unique
  set := ho.set

/-- A handler in which nothing is put: what it owned, if anything, has no owner any more. -/
theorem Owners.clear (ho : s.Owners os) (hn : os.Nodup) (h : Nat) (hnone : o.bind Handler.i = none) :
    (s.held h = none ∧
      ({ s with handlers := Function.update s.handlers h o } : Sys T).Owners os) ∨
    ∃ x, ∃ k ∈ os, s.held h = some x ∧ s.queue.items.addr k = some x ∧
      ({ s with handlers := Function.update s.handlers h o } : Sys T).Owners (os.erase k) := by
  have hset : ∀ j hd, Function.update s.handlers h o j = some hd → hd.i ≠ none → hd.q = true := by
    intro j hd hhd hi
    by_cases hj : j = h
    · subst hj
      rw [Function.update_self] at hhd
      rw [hhd, Option.bind_some] at hnone
      exact absurd hnone hi
    · rw [Function.update_of_ne hj] at hhd
      exact ho.set j hd hhd hi
  -- the others keep what they had
  have hold : ∀ j x, ({ s with handlers := Function.update s.handlers h o } : Sys T).held j = some x →
      j ≠ h ∧ s.held j = some x := by
    intro j x hx
    rw [held_update] at hx
    by_cases hj : j = h
    · rw [if_pos hj, hnone] at hx
      cases hx
    · rw [if_neg hj] at hx
      exact ⟨hj, hx⟩
  have hnew : ∀ j, j ≠ h →
      ({ s with handlers := Function.update s.handlers h o } : Sys T).held j = s.held j :=
    fun j hj => by rw [held_update, if_neg hj]
  cases hx : s.held h with
  | none =>
    refine .inl ⟨rfl, ho.pos, fun k hk => ?_, fun j x hjx => ho.owned j x (hold j x hjx).2,
      fun j j' x hjx hjx' => ho.unique j j' x (hold j x hjx).2 (hold j' x hjx').2, hset⟩
    obtain ⟨j, x, hjx, ha⟩ := ho.owner k hk
    have hj : j ≠ h := fun hj => by rw [hj, hx] at hjx; cases hjx
    exact ⟨j, x, (hnew j hj).trans hjx, ha⟩
  | some x =>
    obtain ⟨k, hk, ha⟩ := ho.owned h x hx
    refine .inr ⟨x, k, hk, rfl, ha, fun k' hk' => ho.pos k' (List.mem_of_mem_erase hk'),
      fun k' hk' => ?_, fun j y hjy => ?_,
      fun j j' y hjy hjy' => ho.unique j j' y (hold j y hjy).2 (hold j' y hjy').2, hset⟩
    · rw [hn.mem_erase_iff] at hk'
      obtain ⟨j, y, hjy, hay⟩ := ho.owner k' hk'.2
      have hj : j ≠ h := fun hj => by
        rw [hj, hx, Option.some.injEq] at hjy
        exact hk'.1 (addr_inj (hjy ▸ hay) ha)
      exact ⟨j, y, (hnew j hj).trans hjy, hay⟩
    · obtain ⟨hj, hjy⟩ := hold j y hjy
      obtain ⟨k', hk', hay⟩ := ho.owned j y hjy
      refine ⟨k', hn.mem_erase_iff.mpr ⟨fun hkk => hj ?_, hk'⟩, hay⟩
      rw [hkk, ha, Option.some.injEq] at hay
      exact ho.unique j h x (hay ▸ hjy) hx

/-- A handler that owns nothing takes a slot nobody owns. -/
theorem Owners.take (ho : s.Owners os) (hnone : s.held h = none) (hk : k ∉ os)
    (ha : s.queue.items.addr k = some x) (hpos : (s.queue.items.view k).map QItem.pos = some k) :
    ({ s with handlers := Function.update s.handlers h (some ⟨true, some x⟩) } : Sys T).Owners
      (k :: os) := by
  have hself : ({ s with handlers := Function.update s.handlers h (some ⟨true, some x⟩) } :
      Sys T).held h = some x := by rw [held_update, if_pos rfl]; rfl
  have hnew : ∀ j, j ≠ h →
      ({ s with handlers := Function.update s.handlers h (some ⟨true, some x⟩) } :
        Sys T).held j = s.held j := fun j hj => by rw [held_update, if_neg hj]
  -- nobody had the slot, as it is not among the owned ones
  have hfresh : ∀ j y, s.held j = some y → y ≠ x := fun j y hy hyx => by
    obtain ⟨k', hk', ha'⟩ := ho.owned j y hy
    exact hk (addr_inj ha (hyx ▸ ha') ▸ hk')
  refine ⟨fun k' hk' => ?_, fun k' hk' => ?_, fun j y hjy => ?_, fun j j' y hjy hjy' => ?_,
    fun j hd hhd hi => ?_⟩
  · rcases List.mem_cons.mp hk' with rfl | hk'
    · exact hpos
    · exact ho.pos k' hk'
  · rcases List.mem_cons.mp hk' with rfl | hk'
    · exact ⟨h, x, hself, ha⟩
    · obtain ⟨j, y, hjy, hay⟩ := ho.owner k' hk'
      have hj : j ≠ h := fun hj => by rw [hj, hnone] at hjy; cases hjy
      exact ⟨j, y, (hnew j hj).trans hjy, hay⟩
  · by_cases hj : j = h
    · subst hj
      rw [hself, Option.some.injEq] at hjy
      exact ⟨k, by simp, hjy ▸ ha⟩
    · obtain ⟨k', hk', hay⟩ := ho.owned j y ((hnew j hj).symm.trans hjy)
      exact ⟨k', List.mem_cons_of_mem k hk', hay⟩
  · by_cases hj : j = h
    · by_cases hj' : j' = h
      · rw [hj, hj']
      · rw [hj, hself, Option.some.injEq] at hjy
        exact absurd hjy.symm (hfresh j' y ((hnew j' hj').symm.trans hjy'))
    · rw [hnew j hj] at hjy
      by_cases hj' : j' = h
      · rw [hj', hself, Option.some.injEq] at hjy'
        exact absurd hjy'.symm (hfresh j y hjy)
      · exact ho.unique j j' y hjy ((hnew j' hj').symm.trans hjy')
  · dsimp only at hhd
    by_cases hj : j = h
    · rw [hj, Function.update_self, Option.some.injEq] at hhd
      rw [← hhd]
    · rw [Function.update_of_ne hj] at hhd
      exact ho.set j hd hhd hi

/-- A handler that owns nothing is given what another one owns. -/
theorem Owners.transfer {other : Nat} {od : Handler} (ho : s.Owners os) (hn : os.Nodup)
    (hne : h ≠ other) (hnone : s.held h = none) (hother : s.handlers other = some od) :
    (⟨s.queue, Function.update (Function.update s.handlers h (some od)) other
      (some ⟨od.q, none⟩)⟩ : Sys T).Owners os := by
  have heq : s.held other = od.i := by rw [held, hother]; rfl
  rcases ho.clear (o := some ⟨od.q, none⟩) hn other rfl with ⟨hx, ho₁⟩ | ⟨x, k, hk, hx, ha, ho₁⟩
  · -- there is nothing to pass on
    have hod : od = ⟨od.q, none⟩ := by
      rw [heq] at hx
      cases od
      cases hx
      rfl
    rcases ho₁.clear (o := some od) hn h (heq.symm.trans hx) with ⟨-, ho₂⟩ | ⟨x, k, -, hx', -, -⟩
    · rw [← hod] at ho₂ ⊢
      rw [Function.update_comm hne]
      exact ho₂
    · rw [held_update, if_neg hne, hnone] at hx'
      cases hx'
  · rw [heq] at hx
    have hq : od.q = true := ho.set other od hother (by rw [hx]; exact Option.some_ne_none x)
    have hod : od = ⟨true, some x⟩ := by
      cases od
      cases hx
      cases hq
      rfl
    have htake := ho₁.take (h := h) (by rw [held_update, if_neg hne, hnone])
      (fun hmem => (hn.mem_erase_iff.mp hmem).1 rfl) ha (ho.pos k hk)
    rw [← hod] at htake
    rw [Function.update_comm hne]
    exact htake.mem_congr fun j => (List.perm_cons_erase hk).mem_iff.symm

/-- Handlers that keep their slot keep their value. -/
theorem Owners.value_congr (ho : s.Owners os) (ho' : s'.Owners os') (hj : s'.held j = s.held j)
    (haddr : ∀ k x, s.queue.items.addr k = some x → s'.queue.items.addr k = some x)
    (hitem : ∀ k ∈ os, k ∈ os' →
      (s'.queue.items.view k).map QItem.item = (s.queue.items.view k).map QItem.item) :
    s'.value j = s.value j := by
  rw [value_eq_held, value_eq_held, hj]
  cases hx : s.held j with
  | none => rfl
  | some x =>
    obtain ⟨k, hk, ha⟩ := ho.owned j x hx
    obtain ⟨k', hk', ha'⟩ := ho'.owned j x (hj.trans hx)
    have hkk : k' = k := addr_inj ha' (haddr k x ha)
    subst hkk
    have hi := hitem k' hk hk'
    obtain ⟨it, hit, -⟩ := Option.map_eq_some_iff.mp (ho.pos k' hk)
    obtain ⟨it', hit', -⟩ := Option.map_eq_some_iff.mp (ho'.pos k' hk')
    rw [hit, hit'] at hi
    rw [Option.bind_some, Option.bind_some, deref_of_addr ha hit, deref_of_addr ha' hit', hi]

/-! ## Linked, owned, leaked -/

/-- The slots in use. -/
structure Slots (s : Sys T) (ks os ls : List Nat) : Prop where
  linked : s.queue.Linked ks
  owners : s.Owners os
  occupied : Occupies s.queue.items (ks ++ os ++ ls)

theorem slots_init : (init : Sys T).Slots [] [] [] where
  linked := linked_init
  owners := owners_init
  occupied := ⟨.nil, fun k => by simp [init, Queue.init, view_init], rfl⟩

section Slots

variable (hs : s.Slots ks os ls)
include hs

theorem Slots.nodup_owned : os.Nodup :=
  (List.nodup_append.mp (List.nodup_append.mp hs.occupied.nodup).1).2.1

theorem Slots.not_linked (hk : k ∈ os) : k ∉ ks := fun hks =>
  (List.nodup_append.mp (List.nodup_append.mp hs.occupied.nodup).1).2.2 k hks k hk rfl

theorem Slots.items_owned (hk : k ∈ os) : ∃ it, s.queue.items.view k = some it ∧ it.pos = k :=
  Option.map_eq_some_iff.mp (hs.owners.pos k hk)

/-- **`push`**: one more position is linked. -/
theorem Slots.push {r : Queue T × Option Ptr} (hp : s.queue.push t = some r) :
    ∃ k, ({ s with queue := r.1 } : Sys T).Slots (ks ++ [k]) os ls ∧
      r.1.pending = s.queue.pending ++ [t] ∧
      ∀ j, ({ s with queue := r.1 } : Sys T).value j = s.value j := by
  obtain ⟨k, hnone, hlinked, hn, haddr, hview⟩ := push_spec hs.linked hp
  have hfresh := hs.occupied.fresh hnone
  have hne : ∀ j ∈ os, j ≠ k := fun j hj hjk => hfresh (by simp [← hjk, hj])
  have howners : ({ s with queue := r.1 } : Sys T).Owners os :=
    hs.owners.queue haddr fun j hj => by
      rw [hview, map_pushed (fun _ _ => rfl) (hne j hj), hs.owners.pos j hj]
  refine ⟨k, ⟨hlinked, howners, ?_⟩, ?_, fun j => ?_⟩
  · have hused : ∀ j, r.1.items.view j ≠ none ↔ j = k ∨ s.queue.items.view j ≠ none :=
      fun j => by rw [hview, pushed_ne_none]
    refine Occupies.perm (hs.occupied.add hnone hused hn) ?_
    rw [List.append_assoc, List.append_assoc, List.append_assoc]
    exact List.perm_middle.symm
  · rw [hlinked.pending, hs.linked.pending, List.filterMap_append, hview]
    congr 1
    · refine List.filterMap_congr fun j hj => map_pushed (fun _ _ => rfl) fun hjk => ?_
      exact hfresh (by simp [← hjk, hj])
    · simp [pushed]
  · exact hs.owners.value_congr howners rfl haddr fun j hj _ => by
      rw [hview, map_pushed (fun _ _ => rfl) (hne j hj)]

omit hs in
/-- A position taken out of the owned ones. -/
theorem perm_erase (hk : k ∈ os) :
    (ks ++ os ++ ls).Perm (k :: (ks ++ os.erase k ++ ls)) := by
  have h₁ : (ks ++ os ++ ls).Perm (ks ++ k :: os.erase k ++ ls) :=
    ((List.perm_cons_erase hk).append_left ks).append_right ls
  exact h₁.trans (List.perm_middle.append_right ls)

/-- A handler lets go: what it owned is free, and nothing else changes. -/
theorem Slots.letGo (hh : s.handlers h = some hd) (hnone : o.bind Handler.i = none) :
    ∃ q hd' os', s.queue.release hd = some (q, hd') ∧ hd'.i = none ∧
      (⟨q, Function.update s.handlers h o⟩ : Sys T).Slots ks os' ls ∧
      q.items.addr = s.queue.items.addr ∧
      (∀ k, k ∉ os → q.items.view k = s.queue.items.view k) ∧ os' ⊆ os ∧
      q.pending = s.queue.pending ∧ q.nItems = s.queue.nItems ∧
      ∀ j, j ≠ h → (⟨q, Function.update s.handlers h o⟩ : Sys T).value j = s.value j := by
  have hheld : s.held h = hd.i := by rw [held, hh]; rfl
  have hother : ∀ j, j ≠ h → ({ s with handlers := Function.update s.handlers h o } : Sys T).held j =
      s.held j := fun j hj => by rw [held_update, if_neg hj]
  rcases hs.owners.clear hs.nodup_owned h hnone with ⟨hx, ho⟩ | ⟨x, k, hk, hx, ha, ho⟩
  · refine ⟨s.queue, hd, os, ?_, hheld.symm.trans hx, ⟨hs.linked, ho, hs.occupied⟩, rfl,
      fun _ _ => rfl, List.Subset.refl os, rfl, rfl, fun j hj => ?_⟩
    · simp only [release, hheld.symm.trans hx]
    · exact hs.owners.value_congr ho (hother j hj) (fun _ _ h => h) fun _ _ _ => rfl
  · have hi : hd.i = some x := hheld.symm.trans hx
    have hq : hd.q = true := hs.owners.set h hd hh (by rw [hi]; exact Option.some_ne_none x)
    obtain ⟨q, hfree, hlinked, hn, haddr, hview, hnq⟩ :=
      freeItem_spec hs.linked (hs.not_linked hk) ha (hs.owners.pos k hk)
    have hsame : ∀ j, j ≠ k → q.items.view j = s.queue.items.view j := fun j hj => by
      rw [hview, Function.update_of_ne hj]
    have hne : ∀ j ∈ os.erase k, j ≠ k := fun j hj =>
      (hs.nodup_owned.mem_erase_iff.mp hj).1
    have ho' : (⟨q, Function.update s.handlers h o⟩ : Sys T).Owners (os.erase k) :=
      ho.queue (fun j y hy => by rw [haddr]; exact hy) fun j hj => by
        rw [hsame j (hne j hj)]
        exact hs.owners.pos j (List.mem_of_mem_erase hj)
    refine ⟨q, ⟨false, none⟩, os.erase k, ?_, rfl, ⟨hlinked, ho', ?_⟩, haddr, fun j hj => ?_,
      List.erase_subset, ?_, hnq, fun j hj => ?_⟩
    · simp only [release, hi, hq, hfree, Option.map_some]
    · exact Occupies.free (hs.occupied.perm (perm_erase hk)) hview hn
    · exact hsame j fun hjk => hj (hjk ▸ hk)
    · rw [hlinked.pending, hs.linked.pending]
      exact List.filterMap_congr fun j hj => by
        rw [hsame j fun hjk => hs.not_linked hk (hjk ▸ hj)]
    · exact hs.owners.value_congr ho' (hother j hj) (fun k' y hy => by rw [haddr]; exact hy)
        fun j _ hj => by rw [hsame j (hne j hj)]

/-- Overwriting a handler leaks the slot it owns. -/
theorem Slots.overwrite (h : Nat) (hnone : o.bind Handler.i = none) :
    ∃ os' ls', ({ s with handlers := Function.update s.handlers h o } : Sys T).Slots ks os' ls' ∧
      (s.held h = none → ls' = ls) ∧ (s.held h ≠ none → ls' ≠ []) := by
  rcases hs.owners.clear hs.nodup_owned h hnone with ⟨hx, ho⟩ | ⟨x, k, hk, hx, -, ho⟩
  · exact ⟨os, ls, ⟨hs.linked, ho, hs.occupied⟩, fun _ => rfl, fun hne => absurd hx hne⟩
  · refine ⟨os.erase k, k :: ls, ⟨hs.linked, ho, ?_⟩,
      fun hn => absurd (hx.symm.trans hn) (Option.some_ne_none x), fun _ => List.cons_ne_nil k ls⟩
    exact hs.occupied.perm ((perm_erase hk).trans List.perm_middle.symm)

end Slots

/-! ## The calls -/

/-- A `pop` with nothing in the queue changes nothing. -/
theorem Slots.pop_nil (hs : s.Slots [] os ls) (hh : s.handlers h = some hd) :
    s.exec (.pop h) = some (s, .popped .empty (s.value h)) := by
  have hself : Function.update s.handlers h (some hd) = s.handlers := by
    rw [← hh, Function.update_eq_self]
  simp only [exec, hh, Option.bind_some, Queue.pop_nil hs.linked, Option.map_some, hself]

/-- **`pop`** with something in the queue: the handler lets go of what it owned, and takes the
    slot of the first item. -/
theorem Slots.pop_cons (hs : s.Slots (k :: ks) os ls) (hh : s.handlers h = some hd) :
    ∃ s' os' t, s.exec (.pop h) = some (s', .popped .done (some t)) ∧ s'.Slots ks os' ls ∧
      s.queue.pending = t :: s'.queue.pending ∧ s'.value h = some t ∧
      ∀ j, j ≠ h → s'.value j = s.value j := by
  obtain ⟨x, q, hx, hlinked, hitems, hpop⟩ := Queue.pop_cons hs.linked
  have hpos := hs.linked.pos k (List.mem_cons_self ..)
  obtain ⟨it, hit, -⟩ := Option.map_eq_some_iff.mp hpos
  have hnodup := hs.occupied.nodup
  have hk : k ∉ ks ++ os ++ ls := (List.nodup_cons.mp hnodup).1
  have hko : k ∉ os := fun hmem => hk (by simp [hmem])
  -- the slot as it is between the two: in use, no longer linked and not yet owned
  have hmid : ({ s with queue := q } : Sys T).Slots ks os (k :: ls) := by
    refine ⟨hlinked, hs.owners.queue (fun j y hy => by rw [hitems]; exact hy)
      (fun j hj => by rw [hitems]; exact hs.owners.pos j hj), ?_⟩
    dsimp only
    rw [hitems]
    exact hs.occupied.perm List.perm_middle.symm
  obtain ⟨q', hd', os', hrel, -, hs', haddr', hview', hsub, hpend', -, hval'⟩ :=
    hmid.letGo (o := none) hh rfl
  have hxk : q'.items.addr k = some x := by rw [haddr', hitems, hx]
  have hik : q'.items.view k = some it := by rw [hview' k hko, hitems, hit]
  have hko' : k ∉ os' := fun hmem => hko (hsub hmem)
  have htake := hs'.owners.take (h := h) (by rw [held_update, if_pos rfl]; rfl) hko' hxk
    (by rw [hik, ← hit, hpos])
  rw [Function.update_idem] at htake
  have hheld : (⟨q', Function.update s.handlers h (some ⟨true, some x⟩)⟩ : Sys T).held h =
      some x := by rw [held_update, if_pos rfl]; rfl
  have hvalue : (⟨q', Function.update s.handlers h (some ⟨true, some x⟩)⟩ : Sys T).value h =
      some it.item := by
    rw [value_eq_held, hheld, Option.bind_some, deref_of_addr hxk hik, Option.map_some]
  refine ⟨⟨q', Function.update s.handlers h (some ⟨true, some x⟩)⟩, k :: os', it.item, ?_,
    ⟨hs'.linked, htake, ?_⟩, ?_, hvalue, fun j hj => ?_⟩
  · simp only [exec, hh, Option.bind_some, hpop, setHandler, hrel, Option.map_some, hvalue]
  · refine hs'.occupied.perm ?_
    rw [List.append_assoc, List.append_assoc]
    have hp : (os' ++ k :: ls).Perm (k :: os' ++ ls) := List.perm_middle
    exact hp.append_left ks
  · rw [hpend', hlinked.pending, hs.linked.pending, hitems, List.filterMap_cons, hit,
      Option.map_some]
  · calc Sys.value ⟨q', Function.update s.handlers h (some ⟨true, some x⟩)⟩ j
        = Sys.value ⟨q', Function.update s.handlers h none⟩ j :=
          value_of_held rfl (by rw [held_update, held_update, if_neg hj, if_neg hj])
      _ = Sys.value { s with queue := q } j := hval' j hj
      _ = s.value j := value_of_held hitems rfl

/-- **Letting go** through `reset` or the destructor. -/
theorem Slots.reset_destroy (hs : s.Slots ks os ls) (hh : s.handlers h = some hd) (op : Op T)
    (hop : op = .reset h ∨ op = .destroy h) :
    ∃ s' os', s.exec op = some (s', .unit) ∧ s'.Slots ks os' ls ∧
      s'.queue.pending = s.queue.pending ∧ ∀ j, j ≠ h → s'.value j = s.value j := by
  have hrel : ∃ q hd', s.queue.release hd = some (q, hd') ∧ hd'.i = none := by
    obtain ⟨q, hd', -, hrel, hnone, -⟩ := hs.letGo (o := none) hh rfl
    exact ⟨q, hd', hrel, hnone⟩
  obtain ⟨q, hd', hrel, hnone⟩ := hrel
  have hexec : ∃ o : Option Handler, o.bind Handler.i = none ∧
      s.exec op = some (⟨q, Function.update s.handlers h o⟩, .unit) := by
    rcases hop with rfl | rfl
    · exact ⟨some hd', hnone, by
        simp only [exec, hh, Option.bind_some, hrel, Option.map_some]⟩
    · exact ⟨none, rfl, by simp only [exec, hh, Option.bind_some, hrel, Option.map_some]⟩
  obtain ⟨o, ho, he⟩ := hexec
  obtain ⟨q', hd'', os', hrel', -, hs', -, -, -, hpend, -, hval⟩ := hs.letGo hh ho
  rw [hrel, Option.some.injEq, Prod.mk.injEq] at hrel'
  obtain ⟨rfl, rfl⟩ := hrel'
  exact ⟨_, os', he, hs', hpend, hval⟩

/-- **Assignment** passes the slot of the other handler on. A slot that the handler itself
    owned is leaked; the others are owned as before. -/
theorem Slots.assign (hs : s.Slots ks os ls) {other : Nat} {od : Handler}
    (hh : s.handlers h = some hd) (hother : s.handlers other = some od) :
    ∃ s' os' ls', s.exec (.assign h other) = some (s', .unit) ∧ s'.Slots ks os' ls' ∧
      s'.queue = s.queue ∧ (s.held h = none → ls' = ls) ∧ (s.held h ≠ none → ls' ≠ []) ∧
      (h ≠ other → s'.value h = s.value other) ∧
      ∀ j, j ≠ h → j ≠ other → s'.value j = s.value j := by
  obtain ⟨os₁, ls₁, hs₁, hnone, hsome⟩ := hs.overwrite (o := some ⟨od.q, none⟩) h rfl
  by_cases hho : h = other
  · -- `i_` is read, written back and set to null
    subst hho
    refine ⟨_, os₁, ls₁, ?_, hs₁, rfl, hnone, hsome, fun hne => absurd rfl hne,
      fun j hj _ => value_of_held rfl (by rw [held_update, if_neg hj])⟩
    simp only [exec, hother, Function.update_self, Option.map_some, Function.update_idem]
  · have hoh : other ≠ h := fun he => hho he.symm
    have hx₁ : (⟨s.queue, Function.update s.handlers h (some ⟨od.q, none⟩)⟩ : Sys T).held h =
        none := by rw [held_update, if_pos rfl]; rfl
    have ho := hs₁.owners.transfer hs₁.nodup_owned hho hx₁
      (show Function.update s.handlers h (some ⟨od.q, none⟩) other = some od by
        rw [Function.update_of_ne hoh, hother])
    rw [Function.update_idem] at ho
    refine ⟨⟨s.queue, Function.update (Function.update s.handlers h (some od)) other
      (some ⟨od.q, none⟩)⟩, os₁, ls₁, ?_, ⟨hs.linked, ho, hs₁.occupied⟩, rfl, hnone, hsome, fun _ => ?_,
      fun j hj hjo => ?_⟩
    · simp only [exec, hh, hother, Function.update_of_ne hoh, Option.map_some]
    · refine value_of_held rfl ?_
      simp only [held, Function.update_of_ne hho, Function.update_self, hother]
    · refine value_of_held rfl ?_
      simp only [held, Function.update_of_ne hjo, Function.update_of_ne hj]

/-! ## One step -/

/-- What a call pushed. -/
def Event.pushed : Event T → List T
  | ⟨.push t, _⟩ => [t]
  | _ => []

/-- What a successful pop returned. -/
def Event.popped : Event T → List T
  | ⟨.pop _, .popped .done v⟩ => v.toList
  | _ => []

/-- The handlers a call names: those that may let go of their item in it. -/
def Op.names : Op T → Nat → Prop
  | .create h, j | .pop h, j | .reset h, j | .destroy h, j => j = h
  | .assign h other, j => j = h ∨ j = other
  | .push _, _ => False

/-- What is asked of the answer of a call: a pop fails when the queue counts no items and only
    then, the item of a successful one is what its handler gives from then on, and an
    assignment passes the item of the other handler on. -/
def Answers (s : Sys T) (a : Event T) (s' : Sys T) : Prop :=
  match a.op with
  | .pop h =>
    (s.queue.nItems = 0 ∧ a.out = .popped .empty (s.value h) ∧ s' = s) ∨
      (s.queue.nItems ≠ 0 ∧ ∃ t, a.out = .popped .done (some t) ∧ s'.value h = some t)
  | .assign h other => h ≠ other → s'.value h = s.value other
  | _ => True

/-- The call assigns to a handler that owns a slot. -/
def Overwrites (s : Sys T) : Op T → Prop
  | .assign h _ => s.held h ≠ none
  | _ => False

/-- The effect of a call on the queue and on the handlers. -/
structure Effect (s : Sys T) (a : Event T) (s' : Sys T) : Prop where
  conserves : Lts.Conserves (fun s => s.queue.pending) Event.pushed Event.popped s a s'
  answers : s.Answers a s'
  frame : ∀ j, ¬ a.op.names j → s'.value j = s.value j

/-- **One step.** The slots stay accounted for, and a slot is leaked exactly by assigning to a
    handler that owns one. -/
theorem Slots.step {a : Event T} (hs : s.Slots ks os ls) (hst : Step s a s') :
    ∃ ks' os' ls', s'.Slots ks' os' ls' ∧ Effect s a s' ∧
      (¬ s.Overwrites a.op → ls' = ls) ∧ (s.Overwrites a.op → ls' ≠ []) := by
  obtain ⟨op, out⟩ := a
  have hst : s.exec op = some (s', out) := hst
  -- each call is a lemma of its own; only assigning over a slot changes what is leaked
  cases op with
  | create h =>
    cases hh : s.handlers h with
    | some hd => simp only [exec, hh] at hst; cases hst
    | none =>
      simp only [exec, hh] at hst
      cases hst
      have hx : s.held h = none := by rw [held, hh]; rfl
      obtain ⟨os', ls', hs', hls, -⟩ := hs.overwrite (o := some ⟨false, none⟩) h rfl
      refine ⟨ks, os', ls', hs', ⟨?_, trivial, fun j hj => ?_⟩, fun _ => hls hx, False.elim⟩
      · exact List.append_nil _
      · have hj : j ≠ h := hj
        exact value_of_held rfl (by rw [held_update, if_neg hj])
  | push t =>
    simp only [exec, Option.map_eq_some_iff, Prod.mk.injEq] at hst
    obtain ⟨r, hp, rfl, rfl⟩ := hst
    obtain ⟨k, hs', hpend, hval⟩ := hs.push hp
    exact ⟨ks ++ [k], os, ls, hs', ⟨hpend.symm, trivial, fun j _ => hval j⟩, fun _ => rfl,
      False.elim⟩
  | pop h =>
    cases hh : s.handlers h with
    | none => simp only [exec, hh] at hst; cases hst
    | some hd =>
      have hn := hs.linked.nItems
      cases ks with
      | nil =>
        rw [hs.pop_nil hh] at hst
        cases hst
        refine ⟨[], os, ls, hs, ⟨?_, .inl ⟨hn, rfl, rfl⟩, fun j _ => rfl⟩, fun _ => rfl,
          False.elim⟩
        exact List.append_nil _
      | cons k ks =>
        obtain ⟨s₁, os', t, he, hs', hpend, hval, hframe⟩ := hs.pop_cons hh
        rw [he] at hst
        cases hst
        refine ⟨ks, os', ls, hs', ⟨?_, .inr ⟨?_, t, rfl, hval⟩, fun j hj => hframe j hj⟩,
          fun _ => rfl, False.elim⟩
        · exact (List.append_nil _).trans hpend
        · rw [hn, List.length_cons]; exact Nat.succ_ne_zero _
  | assign h other =>
    cases hh : s.handlers h with
    | none => simp only [exec, hh] at hst; cases hst
    | some hd =>
      cases hother : s.handlers other with
      | none => simp only [exec, hh, hother] at hst; cases hst
      | some od =>
        obtain ⟨s₁, os', ls', he, hs', hq, hnone, hsome, hval, hframe⟩ := hs.assign hh hother
        rw [he] at hst
        cases hst
        refine ⟨ks, os', ls', hs', ⟨?_, hval, fun j hj => ?_⟩,
          fun hx => hnone (Decidable.not_not.mp hx), hsome⟩
        · show s.queue.pending ++ [] = s'.queue.pending
          rw [List.append_nil, hq]
        · exact hframe j (fun h => hj (.inl h)) fun h => hj (.inr h)
  | reset h =>
    cases hh : s.handlers h with
    | none => simp only [exec, hh] at hst; cases hst
    | some hd =>
      obtain ⟨s₁, os', he, hs', hpend, hframe⟩ := hs.reset_destroy hh (.reset h) (.inl rfl)
      rw [he] at hst
      cases hst
      exact ⟨ks, os', ls, hs', ⟨(List.append_nil _).trans hpend.symm, trivial, hframe⟩,
        fun _ => rfl, False.elim⟩
  | destroy h =>
    cases hh : s.handlers h with
    | none => simp only [exec, hh] at hst; cases hst
    | some hd =>
      obtain ⟨s₁, os', he, hs', hpend, hframe⟩ := hs.reset_destroy hh (.destroy h) (.inr rfl)
      rw [he] at hst
      cases hst
      exact ⟨ks, os', ls, hs', ⟨(List.append_nil _).trans hpend.symm, trivial, hframe⟩,
        fun _ => rfl, False.elim⟩

end Sys

end Queue

end CodeSLoop
