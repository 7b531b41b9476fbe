import CodeSLoop.Common.InpvecScan

/-!
# `remove_all_connections` (`comm/tcp_lstnr.cc`)

When the listener stops, the idle connections are taken from their queue and removed, and then an
iterator goes through what is left in `ev_pool_`. The iterator starts on the first place and
`next_used()` looks behind it, so the connection with the id 0 is not found there; and from page
to page it passes over what stands further in front (`InpvecScan`). That each connection is freed
as soon as the iterator stands on it makes no difference to what is found (`ahead_freeAt`).

`removesAll_iff` says for which connections nothing is left. `mtx_` is held by the thread itself
when `remove_connection` locks it again, which it may; the `mtx_` of the connections is taken to
be free.
-/

namespace CodeSLoop

namespace Tcp

open Bits Segments Inpvec

/-- A connection in `ev_pool_`, of which only `id_` is used here. -/
structure EvData where
  id : Nat
deriving DecidableEq

variable {v v' v'' : Inpvec EvData} {it : Iter} {x y : Ptr} {i k : Nat} {p : Page EvData}
  {ids ids' : List Nat}

/-- The vector is well formed, and the connections in it have their positions for ids. -/
structure Sound (v : Inpvec EvData) : Prop where
  ok : v.Ok
  id_eq : ∀ k d, v.view k = some d → d.id = k

/-- `ev_pool_` and `idle_data_queue_`, of connections in the pool. -/
structure ConnPool where
  evPool : Inpvec EvData
  idle : List Ptr
  sound : Sound evPool
  odd : evPool.OddTail
  head : evPool.sizes[0]? = some 64
  idle_used : ∀ x ∈ idle, evPool.isUsed x = true
  idle_nodup : idle.Nodup

/-- `remove_connection`, with the id. -/
def removeConnection (v : Inpvec EvData) (dta : Ptr) : Option (Inpvec EvData × Nat) :=
  (v.deref dta).map fun d => ((v.freeAt d.id).1, d.id)

/-- The loop over `idle_data_queue_`, with the ids that were removed. -/
def removeIdle (v : Inpvec EvData) : List Ptr → Option (Inpvec EvData × List Nat)
  | [] => some (v, [])
  | dta :: q =>
    match removeConnection v dta with
    | none => none
    | some (v, id) => (removeIdle v q).map fun r => (r.1, id :: r.2)

/-- The loop over the pool. -/
def removeUsed : Nat → Inpvec EvData → Iter → Option (Inpvec EvData × List Nat)
  | 0, _, _ => none
  | fuel + 1, v, it =>
    match v.nextUsed it with
    | (_, none) => some (v, [])
    | (it, some dta) =>
      match removeConnection v dta with
      | none => none
      | some (v, id) => (removeUsed fuel v it).map fun r => (r.1, id :: r.2)

/-- `remove_all_connections`. -/
def ConnPool.removeAllConnections (s : ConnPool) (fuel : Nat) : Option (Inpvec EvData × List Nat) :=
  match removeIdle s.evPool s.idle with
  | none => none
  | some (v, ids) => (removeUsed fuel v v.begin).map fun r => (r.1, ids ++ r.2)

/-- It comes to an end, nothing is left, and every connection was removed once. -/
def ConnPool.RemovesAll (s : ConnPool) : Prop :=
  ∃ fuel v ids, s.removeAllConnections fuel = some (v, ids) ∧ (∀ k, v.view k = none) ∧ ids.Nodup ∧
    ∀ k, k ∈ ids ↔ (s.evPool.view k).isSome

/-- The connection is not idle: it is watched, on its way, or in the hands of a worker. -/
def ConnPool.Active (s : ConnPool) (x : Ptr) : Prop := s.evPool.isUsed x = true ∧ x ∉ s.idle

/-- No active connection is on the first place of a page, and each has its place behind those in
    the page before, each place counted in its own page. -/
def ConnPool.Lined (s : ConnPool) : Prop :=
  ∀ x, s.Active x → 0 < x.off ∧ ∀ y, s.Active y → y.page + 1 = x.page → y.off < x.off

/-! ## Used places -/

theorem isUsed_iff (hok : v.Ok) : v.isUsed x = true ↔ ∃ k, v.addr k = some x ∧ (v.view k).isSome := by
  constructor
  · intro hused
    unfold isUsed at hused
    split at hused
    · rename_i p hp
      have hv : Valid v ⟨some x.page, x.off, base v.sizes x.page + x.off⟩ x.page p :=
        ⟨rfl, hp, (hok.getElem? hp).lt_size hused, rfl⟩
      refine ⟨_, hv.addr, ?_⟩
      rw [hv.view, (hok.getElem? hp).isSome_view]
      exact hused
    · cases hused
  · rintro ⟨k, hx, hview⟩
    obtain ⟨p, hv⟩ := valid_of_addr hx
    have hview' := hv.view
    dsimp only at hview'
    rw [hview', (hok.getElem? hv.get).isSome_view] at hview
    exact (isUsed_ptr hv).trans hview

theorem isUsed_page (h : v.isUsed x = true) : ∃ p, v.pages[x.page]? = some p ∧ p.isUsed x.off = true := by
  unfold isUsed at h
  split at h
  · exact ⟨_, ‹_›, h⟩
  · cases h

theorem isUsed_freeAt (hok : v.Ok) (hx : v.addr k = some x) :
    (v.freeAt k).1.isUsed y = true ↔ v.isUsed y = true ∧ y ≠ x := by
  obtain ⟨hview, hok', -⟩ := @freeAt_spec EvData v k hok
  rw [isUsed_iff hok', isUsed_iff hok]
  constructor
  · rintro ⟨j, hj, hused⟩
    rw [addr_congr sizes_freeAt] at hj
    rw [hview] at hused
    by_cases hjk : j = k
    · rw [hjk, Function.update_self] at hused
      cases hused
    · rw [Function.update_of_ne hjk] at hused
      refine ⟨⟨j, hj, hused⟩, fun hxy => hjk ?_⟩
      rw [hxy] at hj
      exact addr_inj hj hx
  · rintro ⟨⟨j, hj, hused⟩, hne⟩
    have hjk : j ≠ k := by
      rintro rfl
      exact hne (Option.some.inj (hj.symm.trans hx))
    refine ⟨j, (addr_congr sizes_freeAt).trans hj, ?_⟩
    rw [hview, Function.update_of_ne hjk]
    exact hused

/-! ## How connections come and go -/

/-- The place that `first_free` gives is a new one, and the others stay. -/
theorem Sound.accept (h : Sound v) (hodd : v.OddTail) (hfree : v.firstFree = some (v', it)) :
    Sound (v'.iterSet it ⟨it.gpos⟩).1 ∧ (v'.iterSet it ⟨it.gpos⟩).1.OddTail ∧
      ∀ x, v.isUsed x = true → (v'.iterSet it ⟨it.gpos⟩).1.isUsed x = true := by
  obtain ⟨hext, ⟨i, p, hv⟩, hnone, hodd'⟩ := firstFree_spec h.ok hodd hfree
  obtain ⟨hview, hok, -⟩ := iterSet_spec (t := ⟨it.gpos⟩) (hext.ok h.ok) hv
  rw [hext.view] at hview
  refine ⟨⟨hok, fun k d hd => ?_⟩, oddTail_iterSet.mpr hodd', fun x hx => ?_⟩
  · rw [hview] at hd
    by_cases hk : k = it.gpos
    · rw [hk, Function.update_self, Option.some.injEq] at hd
      rw [hk, ← hd]
    · rw [Function.update_of_ne hk] at hd
      exact h.id_eq k d hd
  · obtain ⟨k, hk, hused⟩ := (isUsed_iff h.ok).mp hx
    refine (isUsed_iff hok).mpr ⟨k, (addr_congr sizes_iterSet).trans (hext.addr hk), ?_⟩
    have hne : k ≠ it.gpos := by
      rintro rfl
      rw [hnone] at hused
      cases hused
    rw [hview, Function.update_of_ne hne]
    exact hused

theorem head_accept (hhead : v.sizes[0]? = some 64) (hext : Extends v v') {t : EvData} :
    (v'.iterSet it t).1.sizes[0]? = some 64 := by
  obtain ⟨ms, hms⟩ := hext.pages
  rw [sizes_iterSet, sizes, hms, List.map_append, List.getElem?_append_left]
  · exact hhead
  · exact (List.getElem?_eq_some_iff.mp hhead).1

namespace ConnPool

def init : ConnPool where
  evPool := Inpvec.init
  idle := []
  sound := ⟨ok_init, fun k d hd => by rw [view_init] at hd; cases hd⟩
  odd := oddTail_init
  head := rfl
  idle_used _ hx := by cases hx
  idle_nodup := List.nodup_nil

/-- What `accept_cb` puts into the pool, unless there is no memory. -/
def accept (s : ConnPool) : Option ConnPool :=
  match h : s.evPool.firstFree with
  | none => none
  | some (v, it) =>
    have hs := s.sound.accept s.odd h
    some
      { evPool := (v.iterSet it ⟨it.gpos⟩).1
        idle := s.idle
        sound := hs.1
        odd := hs.2.1
        head := head_accept s.head (firstFree_spec s.sound.ok s.odd h).1
        idle_used x hx := hs.2.2 x (s.idle_used x hx)
        idle_nodup := s.idle_nodup }

/-- A connection is pushed to `idle_data_queue_` by who has it. -/
def giveBack (s : ConnPool) (x : Ptr) (h : s.Active x) : ConnPool :=
  { s with
    idle := s.idle ++ [x]
    idle_used := by
      intro y hy
      rcases List.mem_append.mp hy with hy | hy
      · exact s.idle_used y hy
      · rw [List.mem_singleton.mp hy]
        exact h.1
    idle_nodup := List.nodup_append'.mpr ⟨s.idle_nodup, List.nodup_singleton x, fun y hy hy' =>
      h.2 (List.mem_singleton.mp hy' ▸ hy)⟩ }

end ConnPool

/-! ## Removing connections -/

/-- The connections with these ids were removed, each once. -/
structure Removes (v v' : Inpvec EvData) (ids : List Nat) : Prop where
  sound : Sound v'
  sizes : v'.sizes = v.sizes
  view : ∀ k, v'.view k = if k ∈ ids then none else v.view k
  nodup : ids.Nodup
  used : ∀ k ∈ ids, (v.view k).isSome

theorem Removes.refl (h : Sound v) : Removes v v [] where
  sound := h
  sizes := rfl
  view _ := rfl
  nodup := List.nodup_nil
  used _ hk := by cases hk

theorem Removes.trans (h : Removes v v' ids) (h' : Removes v' v'' ids') :
    Removes v v'' (ids ++ ids') where
  sound := h'.sound
  sizes := h'.sizes.trans h.sizes
  view k := by
    rw [h'.view, h.view]
    by_cases hk : k ∈ ids
    · rw [if_pos hk, ite_self, if_pos (List.mem_append_left _ hk)]
    · simp only [List.mem_append, hk, false_or, if_false]
  nodup := by
    refine List.nodup_append'.mpr ⟨h.nodup, h'.nodup, fun k hk hk' => ?_⟩
    have hused := h'.used k hk'
    rw [h.view, if_pos hk] at hused
    cases hused
  used := by
    intro k hk
    rcases List.mem_append.mp hk with hk | hk
    · exact h.used k hk
    · have hused := h'.used k hk
      rw [h.view] at hused
      split at hused
      · cases hused
      · exact hused

theorem Removes.freeAt (h : Sound v) (hk : (v.view k).isSome) : Removes v (v.freeAt k).1 [k] := by
  obtain ⟨hview, hok, -⟩ := @freeAt_spec EvData v k h.ok
  refine ⟨⟨hok, fun j d hj => ?_⟩, sizes_freeAt, fun j => ?_, List.nodup_singleton k, fun j hj => ?_⟩
  · rw [hview] at hj
    by_cases hjk : j = k
    · rw [hjk, Function.update_self] at hj
      cases hj
    · rw [Function.update_of_ne hjk] at hj
      exact h.id_eq j d hj
  · rw [hview]
    by_cases hjk : j = k
    · rw [hjk, Function.update_self, if_pos (List.mem_singleton.mpr rfl)]
    · rw [Function.update_of_ne hjk, if_neg (fun hj => hjk (List.mem_singleton.mp hj))]
  · rw [List.mem_singleton.mp hj]
    exact hk

/-- The id of a connection is that of its place, so it is the connection itself that is freed. -/
theorem removeConnection_eq (h : Sound v) (hx : v.addr k = some x) (hk : (v.view k).isSome) :
    removeConnection v x = some ((v.freeAt k).1, k) := by
  obtain ⟨d, hd⟩ := Option.isSome_iff_exists.mp hk
  rw [removeConnection, deref_of_addr hx hd, Option.map_some, h.id_eq k d hd]

theorem removeIdle_spec (h : Sound v) {q : List Ptr} (hused : ∀ x ∈ q, v.isUsed x = true)
    (hnodup : q.Nodup) : ∃ v' ids, removeIdle v q = some (v', ids) ∧ Removes v v' ids ∧
      ∀ y, v'.isUsed y = true ↔ v.isUsed y = true ∧ y ∉ q := by
  induction q generalizing v with
  | nil => exact ⟨v, [], rfl, Removes.refl h, fun y => (and_iff_left List.not_mem_nil).symm⟩
  | cons x q ih =>
    obtain ⟨k, hx, hk⟩ := (isUsed_iff h.ok).mp (hused x (List.mem_cons_self ..))
    obtain ⟨hxq, hnodup⟩ := List.nodup_cons.mp hnodup
    have hfree := Removes.freeAt h hk
    have hrest : ∀ y ∈ q, (v.freeAt k).1.isUsed y = true := by
      intro y hy
      refine (isUsed_freeAt h.ok hx).mpr ⟨hused y (List.mem_cons_of_mem _ hy), ?_⟩
      rintro rfl
      exact hxq hy
    obtain ⟨v', ids, hrun, hremoves, hleft⟩ := ih hfree.sound hrest hnodup
    refine ⟨v', k :: ids, ?_, hfree.trans hremoves, fun y => ?_⟩
    · rw [removeIdle, removeConnection_eq h hx hk]
      dsimp only
      rw [hrun, Option.map_some]
    · rw [hleft, isUsed_freeAt h.ok hx, List.mem_cons, not_or, and_assoc]

/-! ## What the iterator finds -/

theorem lastFree_lt_iff (hp : p.Ok) {o : Nat} :
    p.lastFree - 1 < o ↔ 0 < o ∧ ∀ o', p.isUsed o' = true → o' < o := by
  constructor
  · intro hlt
    refine ⟨by omega, fun o' ho' => ?_⟩
    exact Nat.lt_of_le_of_lt (hp.le_lastFree ho') hlt
  · rintro ⟨hpos, hall⟩
    rcases hp.lastFree_spec.2 with h0 | hused
    · omega
    · exact hall _ hused

theorem staggered_iff {ps : List (Page EvData)} : ∀ {s : Nat}, Staggered s ps ↔
    ∀ j q o, ps[j]? = some q → q.isUsed o = true →
      (j = 0 → s < o) ∧ ∀ i r, i + 1 = j → ps[i]? = some r → r.lastFree - 1 < o := by
  induction ps with
  | nil =>
    intro s
    exact iff_of_true trivial fun j q o hq => by cases hq
  | cons p ps ih =>
    intro s
    rw [Staggered, ih]
    constructor
    · rintro ⟨hfirst, hrest⟩ j q o hq ho
      cases j with
      | zero =>
        cases hq
        refine ⟨fun _ => Nat.lt_of_not_le fun hle => ?_, fun i r hi => by cases hi⟩
        rw [hfirst o hle] at ho
        cases ho
      | succ j =>
        obtain ⟨hzero, hsucc⟩ := hrest j q o hq ho
        refine ⟨fun hj => (by cases hj), fun i r hi hr => ?_⟩
        cases hi
        cases j with
        | zero =>
          cases hr
          exact hzero rfl
        | succ j => exact hsucc j r rfl hr
    · intro hall
      refine ⟨fun k hk => ?_, fun j q o hq ho => ⟨fun hj => ?_, fun i r hi hr => ?_⟩⟩
      · by_contra hused
        have hlt := (hall 0 p k rfl (Bool.eq_true_of_not_eq_false hused)).1 rfl
        exact Nat.not_lt.mpr hk hlt
      · exact (hall (j + 1) q o hq ho).2 0 p (by rw [hj]) rfl
      · exact (hall (j + 1) q o hq ho).2 (i + 1) r (by rw [hi]) hr

/-- What an iterator passes nothing over of: the pages behind its own begin behind its place, and
    each begins behind the used places of the one before. -/
theorem ahead_iff_lined (hok : v.Ok) (h : Valid v it i p) : v.Ahead it ↔
    ∀ x, v.isUsed x = true → i < x.page → (x.page = i + 1 → it.pos < x.off) ∧ 0 < x.off ∧
      ∀ y, v.isUsed y = true → y.page + 1 = x.page → y.off < x.off := by
  have hp := hok.getElem? h.get
  rw [h.ahead_iff, staggered_iff]
  constructor
  · intro hall x hx hlt
    obtain ⟨q, hq, ho⟩ := isUsed_page hx
    obtain ⟨j, hj⟩ := Nat.exists_eq_add_of_lt hlt
    have hget : (v.pages.drop (i + 1))[j]? = some q := by
      rw [List.getElem?_drop, show i + 1 + j = x.page by omega, hq]
    obtain ⟨hfirst, hlater⟩ := hall j q x.off hget ho
    -- the page before
    have hprev : ∃ r, v.pages[i + j]? = some r ∧ r.lastFree - 1 < x.off := by
      cases j with
      | zero => exact ⟨p, h.get, Nat.lt_of_le_of_lt (Nat.le_max_right ..) (hfirst rfl)⟩
      | succ j =>
        have hlen := (List.getElem?_eq_some_iff.mp hget).1
        have hr := List.getElem?_eq_getElem (Nat.lt_of_succ_lt hlen)
        refine ⟨_, ?_, hlater j _ rfl hr⟩
        rw [← hr, List.getElem?_drop, show i + 1 + j = i + (j + 1) by omega]
    obtain ⟨r, hr, hlast⟩ := hprev
    obtain ⟨hpos, hbehind⟩ := (lastFree_lt_iff (hok.getElem? hr)).mp hlast
    refine ⟨fun hnext => ?_, hpos, fun y hy hpage => hbehind _ ?_⟩
    · exact Nat.lt_of_le_of_lt (Nat.le_max_left ..) (hfirst (by omega))
    · rwa [isUsed, show y.page = i + j by omega, hr] at hy
  · intro hall j q o hq ho
    rw [List.getElem?_drop] at hq
    have hx : v.isUsed ⟨i + 1 + j, o⟩ = true := by
      rw [isUsed, hq]
      exact ho
    obtain ⟨hnext, hpos, hbehind⟩ := hall _ hx (show i < i + 1 + j by omega)
    constructor
    · rintro rfl
      refine Nat.max_lt.mpr ⟨hnext rfl, (lastFree_lt_iff hp).mpr ⟨hpos, fun o' ho' => ?_⟩⟩
      refine hbehind ⟨i, o'⟩ ?_ rfl
      rw [isUsed, h.get]
      exact ho'
    · rintro i' r rfl hr
      rw [List.getElem?_drop] at hr
      refine (lastFree_lt_iff (hok.getElem? hr)).mpr ⟨hpos, fun o' ho' => ?_⟩
      refine hbehind ⟨i + 1 + i', o'⟩ ?_ (by dsimp only; omega)
      rw [isUsed, hr]
      exact ho'

/-- The places stay. -/
theorem valid_freeAt {k : Nat} (h : Valid v it i p) : ∃ q, Valid (v.freeAt k).1 it i q := by
  have hsize := sizes_getElem? h.get
  rw [← @sizes_freeAt EvData v k, sizes, List.getElem?_map, Option.map_eq_some_iff] at hsize
  obtain ⟨q, hq, heq⟩ := hsize
  refine ⟨q, h.page, hq, ?_, ?_⟩
  · rw [heq]
    exact h.pos_lt
  · rw [sizes_freeAt]
    exact h.gpos

/-- Where it stands nothing needs to be any more. -/
theorem ahead_freeAt (hok : v.Ok) (h : Valid v it i p) :
    (v.freeAt it.gpos).1.Ahead it ↔ v.Ahead it := by
  obtain ⟨q, hv⟩ := valid_freeAt h
  rw [ahead_iff_lined (ok_freeAt hok) hv, ahead_iff_lined hok h]
  have hiff : ∀ x : Ptr, (v.freeAt it.gpos).1.isUsed x = true ↔ v.isUsed x = true ∧ x ≠ ⟨i, it.pos⟩ :=
    fun x => isUsed_freeAt hok h.addr
  constructor
  · intro hall x hx hlt
    have hne : x ≠ ⟨i, it.pos⟩ := fun heq => Nat.ne_of_gt hlt (congrArg Ptr.page heq)
    obtain ⟨hnext, hpos, hbehind⟩ := hall x ((hiff x).mpr ⟨hx, hne⟩) hlt
    refine ⟨hnext, hpos, fun y hy hpage => ?_⟩
    by_cases heq : y = ⟨i, it.pos⟩
    · rw [heq] at hpage ⊢
      exact hnext hpage.symm
    · exact hbehind y ((hiff y).mpr ⟨hy, heq⟩) hpage
  · intro hall x hx hlt
    obtain ⟨hnext, hpos, hbehind⟩ := hall x ((hiff x).mp hx).1 hlt
    exact ⟨hnext, hpos, fun y hy => hbehind y ((hiff y).mp hy).1⟩

/-! ## The loop over the pool -/

/-- What is behind the place that is freed is what was there before. -/
theorem Removes.all_iff (h : Removes v v' [k]) : (∀ j, k < j → (v'.view j).isSome → j ∈ ids) ↔
    ∀ j, k < j → (v.view j).isSome → j ∈ ids := by
  refine forall_congr' fun j => imp_congr_right fun hj => ?_
  rw [h.view, if_neg (fun hmem => Nat.ne_of_gt hj (List.mem_singleton.mp hmem))]

theorem removeUsed_spec {n : Nat} : ∀ {v : Inpvec EvData} {it : Iter} {i : Nat} {p : Page EvData},
    Sound v → Valid v it i p → v.size - it.gpos ≤ n →
    ∃ fuel v' ids, removeUsed fuel v it = some (v', ids) ∧ Removes v v' ids ∧
      (∀ k ∈ ids, it.gpos < k) ∧
      (v.Ahead it ↔ ∀ k, it.gpos < k → (v.view k).isSome → k ∈ ids) := by
  induction n with
  | zero =>
    intro v it i p hs h hn
    have hlt := lt_sum_of_locate h.locate
    have hsize : v.size = v.sizes.sum := rfl
    omega
  | succ n ih =>
    intro v it i p hs h hn
    -- the iterator finds the next used place ahead, or there is none that it finds
    rcases nextUsed_cases hs.ok h with ⟨hnext, hahead⟩ |
      ⟨it', x, j, q, hnext, hv, hitem, hlt, hahead⟩
    · refine ⟨1, v, [], by rw [removeUsed, hnext], Removes.refl hs, fun k hk => (by cases hk), ?_⟩
      rw [hahead]
      constructor
      · intro hnone k hk hview
        rw [hnone k hk] at hview
        cases hview
      · intro hall k hk
        by_contra hview
        cases hall k hk (Option.isSome_iff_ne_none.mpr hview)
    · rw [hs.ok.getPtr_eq] at hitem
      have hk : (v.view it'.gpos).isSome := by
        by_contra hnone
        rw [if_neg hnone] at hitem
        cases hitem
      rw [if_pos hk] at hitem
      -- freeing the place leaves the iterator on its page, and nothing else
      have hfree := Removes.freeAt hs hk
      obtain ⟨q', hv'⟩ := valid_freeAt hv
      have hsize : (v.freeAt it'.gpos).1.size = v.size := congrArg List.sum sizes_freeAt
      obtain ⟨fuel, v', ids, hrun, hremoves, hgt, hiff⟩ := ih hfree.sound hv' (by omega)
      refine ⟨fuel + 1, v', it'.gpos :: ids, ?_, hfree.trans hremoves, fun k hk => ?_, ?_⟩
      · rw [removeUsed, hnext]
        dsimp only
        rw [removeConnection_eq hs hitem hk]
        dsimp only
        rw [hrun, Option.map_some]
      · rcases List.mem_cons.mp hk with rfl | hk
        · exact hlt
        · exact Nat.lt_trans hlt (hgt k hk)
      · rw [hahead, ← ahead_freeAt hs.ok hv, hiff, hfree.all_iff]
        exact (all_cons_iff hlt hgt).symm

theorem removeUsed_unique {fuel : Nat} : ∀ {fuel' : Nat} {v : Inpvec EvData} {it : Iter}
    {r r' : Inpvec EvData × List Nat},
    removeUsed fuel v it = some r → removeUsed fuel' v it = some r' → r = r' := by
  induction fuel with
  | zero =>
    intro fuel' v it r r' h
    cases h
  | succ fuel ih =>
    intro fuel' v it r r' h h'
    cases fuel' with
    | zero => cases h'
    | succ fuel' =>
      rw [removeUsed] at h h'
      generalize v.nextUsed it = next at h h'
      obtain ⟨it', x⟩ := next
      cases x with
      | none => exact Option.some.inj (h.symm.trans h')
      | some x =>
        dsimp only at h h'
        generalize removeConnection v x = c at h h'
        cases c with
        | none => cases h
        | some c =>
          obtain ⟨s, hs, rfl⟩ := Option.map_eq_some_iff.mp h
          obtain ⟨s', hs', rfl⟩ := Option.map_eq_some_iff.mp h'
          rw [ih hs hs']

/-- The loop finds everything that there is when the first place of each page is free, and the
    pages are lined up. -/
theorem removeUsed_begin (h : Sound v) (hhead : v.sizes[0]? = some 64) :
    ∃ fuel v' ids, removeUsed fuel v v.begin = some (v', ids) ∧ Removes v v' ids ∧
      ((∀ k, (v.view k).isSome → k ∈ ids) ↔ ∀ x, v.isUsed x = true →
        0 < x.off ∧ ∀ y, v.isUsed y = true → y.page + 1 = x.page → y.off < x.off) := by
  by_cases h0 : v.nItems = 0
  · have hnone : ∀ k, ¬ (v.view k).isSome := fun k => by
      rw [h.ok.view_eq_none h0]
      exact Bool.false_ne_true
    refine ⟨1, v, [], ?_, Removes.refl h, iff_of_true (fun k hk => absurd hk (hnone k)) ?_⟩
    · rw [begin, if_pos h0]
      rfl
    · intro x hx
      obtain ⟨k, -, hk⟩ := (isUsed_iff h.ok).mp hx
      exact absurd hk (hnone k)
  · rw [begin, if_neg h0]
    rw [sizes, List.getElem?_map, Option.map_eq_some_iff] at hhead
    obtain ⟨p, hp, hsize⟩ := hhead
    have hv : Valid v ⟨some 0, 0, 0⟩ 0 p := ⟨rfl, hp, by rw [hsize]; decide, rfl⟩
    obtain ⟨fuel, v', ids, hrun, hremoves, hgt, hiff⟩ := removeUsed_spec h hv (Nat.le_refl _)
    refine ⟨fuel, v', ids, hrun, hremoves, ?_⟩
    have hzero : (v.view 0).isSome ↔ v.isUsed ⟨0, 0⟩ = true := by
      rw [isUsed_iff h.ok]
      constructor
      · exact fun hused => ⟨0, hv.addr, hused⟩
      · rintro ⟨k, hk, hused⟩
        cases addr_inj hv.addr hk
        exact hused
    -- the loop looks at the places behind the first one only
    have hall : (∀ k, (v.view k).isSome → k ∈ ids) ↔ ¬ (v.view 0).isSome ∧ v.Ahead ⟨some 0, 0, 0⟩ := by
      rw [hiff]
      constructor
      · exact fun hall => ⟨fun hused => Nat.lt_irrefl 0 (hgt 0 (hall 0 hused)), fun k _ => hall k⟩
      · rintro ⟨hnone, hrest⟩ k hk
        rcases Nat.eq_zero_or_pos k with rfl | hpos
        · exact absurd hk hnone
        · exact hrest k hpos hk
    rw [hall, hzero, ahead_iff_lined h.ok hv]
    constructor
    · rintro ⟨hfree, hlined⟩ x hx
      rcases Nat.eq_zero_or_pos x.page with hpage | hpage
      · refine ⟨Nat.pos_of_ne_zero fun hoff => hfree ?_, fun y _ hy => by omega⟩
        cases x
        cases hpage
        cases hoff
        exact hx
      · exact (hlined x hx hpage).2
    · intro hlined
      refine ⟨fun hused => Nat.lt_irrefl 0 (hlined _ hused).1, fun x hx hpage => ?_⟩
      obtain ⟨hpos, hbehind⟩ := hlined x hx
      exact ⟨fun _ => hpos, hpos, hbehind⟩

/-! ## All of it -/

namespace ConnPool

variable {s : ConnPool}

theorem removeAllConnections_spec (s : ConnPool) :
    ∃ fuel v ids, s.removeAllConnections fuel = some (v, ids) ∧ Removes s.evPool v ids ∧
      ((∀ k, (s.evPool.view k).isSome → k ∈ ids) ↔ s.Lined) := by
  obtain ⟨v, ids, hidle, hremoves, hused⟩ := removeIdle_spec s.sound s.idle_used s.idle_nodup
  have hhead : v.sizes[0]? = some 64 := by
    rw [hremoves.sizes]
    exact s.head
  obtain ⟨fuel, v', ids', hrun, hremoves', hiff⟩ := removeUsed_begin hremoves.sound hhead
  refine ⟨fuel, v', ids ++ ids', ?_, hremoves.trans hremoves', ?_⟩
  · rw [removeAllConnections, hidle]
    dsimp only
    rw [hrun, Option.map_some]
  · have hlined : s.Lined ↔ ∀ x, v.isUsed x = true →
        0 < x.off ∧ ∀ y, v.isUsed y = true → y.page + 1 = x.page → y.off < x.off := by
      simp only [Lined, Active, hused]
    rw [hlined, ← hiff]
    refine forall_congr' fun k => ?_
    rw [hremoves.view, List.mem_append]
    by_cases hk : k ∈ ids
    · rw [if_pos hk]
      exact iff_of_true (fun _ => Or.inl hk) (fun hnone => by cases hnone)
    · rw [if_neg hk, or_iff_right hk]

theorem removeAllConnections_unique {fuel fuel' : Nat} {r r' : Inpvec EvData × List Nat}
    (h : s.removeAllConnections fuel = some r) (h' : s.removeAllConnections fuel' = some r') : r = r' := by
  unfold removeAllConnections at h h'
  cases hidle : removeIdle s.evPool s.idle with
  | none =>
    rw [hidle] at h
    cases h
  | some u =>
    rw [hidle] at h h'
    obtain ⟨t, ht, rfl⟩ := Option.map_eq_some_iff.mp h
    obtain ⟨t', ht', rfl⟩ := Option.map_eq_some_iff.mp h'
    rw [removeUsed_unique ht ht']

theorem RemovesAll.lined (h : s.RemovesAll) : s.Lined := by
  obtain ⟨fuel, v, ids, hrun, -, -, hids⟩ := h
  obtain ⟨fuel', v', ids', hrun', -, hiff⟩ := s.removeAllConnections_spec
  cases removeAllConnections_unique hrun hrun'
  exact hiff.mp fun k => (hids k).mpr

/-- **Which connections are removed**: all of them if and only if those that are not idle are
    lined up. -/
theorem removesAll_iff (s : ConnPool) : s.RemovesAll ↔ s.Lined := by
  constructor
  · exact RemovesAll.lined
  · intro h
    obtain ⟨fuel, v, ids, hrun, hremoves, hiff⟩ := s.removeAllConnections_spec
    have hall := hiff.mpr h
    refine ⟨fuel, v, ids, hrun, fun k => ?_, hremoves.nodup, fun k => ⟨hremoves.used k, hall k⟩⟩
    rw [hremoves.view]
    by_cases hk : k ∈ ids
    · rw [if_pos hk]
    · rw [if_neg hk]
      by_contra hne
      exact hk (hall k (Option.isSome_iff_ne_none.mpr hne))

/-- The first connection stays when it is not idle. -/
theorem removesAll_fails : ∃ s x, init.accept = some s ∧ s.evPool.getPtr 0 = some x ∧ s.Active x ∧
    ¬ s.RemovesAll := by
  have hsome : init.accept.isSome = true := by decide
  refine ⟨init.accept.get hsome, ⟨0, 0⟩, (Option.some_get hsome).symm, rfl, ⟨rfl, ?_⟩,
    fun h => ?_⟩
  · exact List.not_mem_nil
  · exact Nat.lt_irrefl 0 (h.lined ⟨0, 0⟩ ⟨rfl, List.not_mem_nil⟩).1

end ConnPool

end Tcp

end CodeSLoop
