import CodeSLoop.Common.InpvecPositions
import Mathlib.Order.Bounds.Defs

/-!
# The free places of an `inpvec`

`first_free()` and `last_free()` each make an iterator for a place that is not used, and a new
page if there is none. The pages are searched by bytes, and the position is what stands before,
page by page. The first is the smallest position that is free, the other one is behind all that
are used (`FreePlaces`), unless the page to be added is one without room (`freePlaces_iff`).
-/

namespace CodeSLoop

open Bits Segments Lts Inpvec

universe u

variable {T : Type u}

/-- The places of a full page are all used. -/
theorem Page.Ok.isUsed_of_full {p : Page T} {o : Nat} (h : p.Ok) (hfull : p.firstFree = p.size)
    (ho : o < p.size) : p.isUsed o = true :=
  h.firstFree_spec.1 o (hfull ▸ ho)

/-- Then the last free place is behind them. -/
theorem Page.Ok.lastFree_of_full {p : Page T} (h : p.Ok) (hfull : p.firstFree = p.size) :
    p.lastFree = p.size := by
  refine Nat.le_antisymm h.lastFree_le ?_
  by_contra hlt
  have hused := h.isUsed_of_full hfull (Nat.lt_of_not_le hlt)
  rw [h.lastFree_spec.1 _ (Nat.le_refl _)] at hused
  cases hused

/-! ## How many are free -/

namespace Inpvec

/-- `byte_bits()` of `common/hlprs.cc`. -/
def byteBits (b : Nat) : Nat :=
  [ 0, 1, 1, 2, 1, 2, 2, 3, 1, 2, 2, 3, 2, 3, 3, 4, 1, 2, 2, 3, 2, 3, 3, 4, 2, 3, 3, 4, 3, 4, 4, 5,
    1, 2, 2, 3, 2, 3, 3, 4, 2, 3, 3, 4, 3, 4, 4, 5, 2, 3, 3, 4, 3, 4, 4, 5, 3, 4, 4, 5, 4, 5, 5, 6,
    1, 2, 2, 3, 2, 3, 3, 4, 2, 3, 3, 4, 3, 4, 4, 5, 2, 3, 3, 4, 3, 4, 4, 5, 3, 4, 4, 5, 4, 5, 5, 6,
    2, 3, 3, 4, 3, 4, 4, 5, 3, 4, 4, 5, 4, 5, 5, 6, 3, 4, 4, 5, 4, 5, 5, 6, 4, 5, 5, 6, 5, 6, 6, 7,
    1, 2, 2, 3, 2, 3, 3, 4, 2, 3, 3, 4, 3, 4, 4, 5, 2, 3, 3, 4, 3, 4, 4, 5, 3, 4, 4, 5, 4, 5, 5, 6,
    2, 3, 3, 4, 3, 4, 4, 5, 3, 4, 4, 5, 4, 5, 5, 6, 3, 4, 4, 5, 4, 5, 5, 6, 4, 5, 5, 6, 5, 6, 6, 7,
    2, 3, 3, 4, 3, 4, 4, 5, 3, 4, 4, 5, 4, 5, 5, 6, 3, 4, 4, 5, 4, 5, 5, 6, 4, 5, 5, 6, 5, 6, 6, 7,
    3, 4, 4, 5, 4, 5, 5, 6, 4, 5, 5, 6, 5, 6, 6, 7, 4, 5, 5, 6, 5, 6, 6, 7, 5, 6, 6, 7, 6, 7, 7, 8 ].getD b 0

set_option maxRecDepth 4096 in
theorem countTable_byteBits : CountTable byteBits := by decide +kernel

end Inpvec

namespace Page

/-- `n_items()` of a page. -/
def nItems (p : Page T) : Nat :=
  ((List.range p.mul.toNat).map fun i =>
    ((List.range 8).map fun b => byteBits (byte (p.bmap i) b)).sum).sum

/-- `n_free()` of a page. The room is a 32-bit product, and the difference one of 64 bits. -/
def nFree (p : Page T) : UInt64 := (64 * p.mul).toUInt64 - UInt64.ofNat p.nItems

theorem nItems_eq {p : Page T} :
    p.nItems = Nat.count (fun k => p.isUsed k = true) (64 * p.mul.toNat) := by
  rw [nItems]
  simp only [sum_count_bytes countTable_byteBits]
  exact sum_count_words p.bmap p.mul.toNat

/-- What `n_free()` says of a page of one word. -/
theorem nFree_of_one {p : Page T} (h : p.mul = 1) :
    p.nFree.toNat ≤ 64 ∧ (p.nFree = 0 ↔ ∀ k < 64, p.isUsed k = true) := by
  have hmul : 64 * p.mul.toNat = 64 := by rw [h]; rfl
  have hle : p.nItems ≤ 64 := by rw [nItems_eq, hmul]; exact Nat.count_le _
  have hfree : p.nFree.toNat = 64 - p.nItems := by
    rw [nFree, h, UInt64.toNat_sub, UInt64.toNat_ofNat']
    have : (64 * (1 : UInt32)).toUInt64.toNat = 64 := rfl
    omega
  refine ⟨by omega, ?_⟩
  rw [← Nat.count_iff_forall, ← UInt64.toNat_inj, hfree, UInt64.toNat_zero, ← hmul, ← nItems_eq, hmul]
  omega

end Page

/-- `iterator::n_free()`. -/
def Inpvec.iterNFree (v : Inpvec T) (it : Iter) : UInt64 :=
  match it.page.bind (v.pages[·]?) with
  | some p => p.nFree
  | none => 0

namespace Inpvec

variable {v v' : Inpvec T} {it : Iter} {i j k : Nat} {p : Page T} {ps : List (Page T)} {t : T}

/-- What is asked of the free places. An iterator stands on its place in every case; the vector is
    extended if the position is not in it, and no item goes away. `push_back` adds an item behind
    all others, and gives a pointer to it. -/
structure FreePlaces (v : Inpvec T) : Prop where
  firstFree : ∀ v' it, v.firstFree = some (v', it) → (∃ i p, Valid v' it i p) ∧
    IsLeast {k | v.view k = none} it.gpos ∧ v'.view = v.view ∧ (it.gpos < v.size → v' = v)
  lastFree : ∀ v' it, v.lastFree = some (v', it) → (∃ i p, Valid v' it i p) ∧
    (∀ k, (v.view k).isSome → k < it.gpos) ∧ v'.view = v.view ∧ (it.gpos < v.size → v' = v)
  pushBack : ∀ t v' x, v.pushBack t = some (v', x) → ∃ k, (∀ j, (v.view j).isSome → j < k) ∧
    v'.view = Function.update v.view k (some t) ∧ v'.getPtr k = x
  firstFreePos : ∀ v' it, v.firstFree = some (v', it) → v.firstFreePos = it.gpos
  lastFreePos : ∀ v' it, v.lastFree = some (v', it) → v.lastFreePos = it.gpos

/-- A used position is in the vector. -/
theorem lt_size_of_view (h : (v.view k).isSome) : k < v.size := by
  by_contra hle
  rw [view_of_none (locate_eq_none.mpr (Nat.le_of_not_lt hle))] at h
  cases h

theorem view_size : v.view v.size = none := view_of_none (locate_eq_none.mpr (Nat.le_refl _))

/-! ## The first one -/

/-- The loop stops at the first page that is not full. -/
theorem firstFreeLoop_first : ∀ {i pos : Nat}, firstFreeLoop ps i pos = some it →
    ∃ j p, ps[j]? = some p ∧
      it = ⟨some (i + j), p.firstFree, pos + base (ps.map Page.size) j + p.firstFree⟩ ∧
      p.firstFree ≠ p.size ∧ ∀ m < j, ∀ q ∈ ps[m]?, q.firstFree = q.size := by
  induction ps with
  | nil =>
    intro i pos h
    cases h
  | cons p ps ih =>
    intro i pos h
    rw [firstFreeLoop] at h
    by_cases hne : p.firstFree ≠ p.size
    · rw [if_pos hne] at h
      cases h
      exact ⟨0, p, rfl, by simp, hne, fun m hm => absurd hm (Nat.not_lt_zero m)⟩
    · rw [if_neg hne] at h
      have hfull := not_not.mp hne
      obtain ⟨j, q, hq, hit, hroom, hbefore⟩ := ih h
      refine ⟨j + 1, q, hq, ?_, hroom, ?_⟩
      · rw [hit, List.map_cons, base_cons_succ, hfull, show i + 1 + j = i + (j + 1) by omega,
          Nat.add_assoc pos]
      · intro m hm r hr
        cases m with
        | zero =>
          cases hr
          exact hfull
        | succ m => exact hbefore m (Nat.lt_of_succ_lt_succ hm) r hr

/-- The other loop comes to the same position. -/
theorem firstFreePosLoop_eq : ∀ {i pos : Nat}, firstFreePosLoop ps pos =
    match firstFreeLoop ps i pos with
    | some it => it.gpos
    | none => pos + (ps.map Page.size).sum := by
  induction ps with
  | nil =>
    intro i pos
    rfl
  | cons p ps ih =>
    intro i pos
    rw [firstFreePosLoop, firstFreeLoop]
    by_cases hne : p.firstFree ≠ p.size
    · rw [if_pos hne, if_pos hne]
    · rw [if_neg hne, if_neg hne, @ih (i + 1)]
      cases firstFreeLoop ps (i + 1) (pos + p.firstFree) with
      | some it => rfl
      | none =>
        rw [not_not.mp hne, List.map_cons, List.sum_cons, Nat.add_assoc]

theorem firstFreePos_eq (h : v.firstFree = some (v', it)) : v.firstFreePos = it.gpos := by
  rw [firstFreePos, @firstFreePosLoop_eq T v.pages 0 0]
  rw [firstFree] at h
  cases hl : firstFreeLoop v.pages 0 0 with
  | some it' =>
    rw [hl] at h
    cases h
    rfl
  | none =>
    rw [hl] at h
    obtain ⟨w, -, hw⟩ := Option.map_eq_some_iff.mp h
    cases hw
    exact Nat.zero_add _

/-- Every position before is used. -/
theorem firstFreeLoop_least (hok : v.Ok) (h : firstFreeLoop v.pages 0 0 = some it) :
    (∃ i p, Valid v it i p) ∧ IsLeast {k | v.view k = none} it.gpos := by
  obtain ⟨j, p, hp, hit, hroom, hbefore⟩ := firstFreeLoop_first h
  obtain ⟨hused, hle, hfree⟩ := (hok.getElem? hp).firstFree_spec
  rw [Nat.zero_add, Nat.zero_add] at hit
  have hlt : p.firstFree < p.size := by omega
  have hv : Valid v it j p := by
    rw [hit]
    exact ⟨rfl, hp, hlt, rfl⟩
  have hpos : it.pos = p.firstFree := by rw [hit]
  refine ⟨⟨j, p, hv⟩, ?_, fun k hk => ?_⟩
  · change v.view it.gpos = none
    rw [hv.view, hpos, Page.view, hfree hlt]
    rfl
  · by_contra hgt
    have hk : v.view k = none := hk
    have hin : k < v.sizes.sum := by
      have := lt_sum_of_locate hv.locate
      omega
    -- The position is in a full page, or before the free place.
    cases hl : locate v.sizes k with
    | none =>
      rw [locate_eq_none] at hl
      omega
    | some x =>
      obtain ⟨q, hq, ho, hkeq⟩ := getElem?_of_locate hl
      have hplace : Before x.1 x.2 j it.pos := by
        rw [before_iff hq ho hp hv.pos_lt, ← hkeq, ← hv.gpos]
        omega
      have huse : q.isUsed x.2 = true := by
        rcases hplace with hlt' | ⟨heq, hlt'⟩
        · exact (hok.getElem? hq).isUsed_of_full (hbefore x.1 hlt' q hq) ho
        · rw [heq, hp] at hq
          cases hq
          exact hused x.2 (hpos ▸ hlt')
      have hsome := hok.view_place hq huse
      rw [← hkeq, hk] at hsome
      cases hsome

/-- All positions are used if all pages are full. -/
theorem view_of_full (hok : v.Ok) (hfull : ∀ p ∈ v.pages, p.firstFree = p.size) (hk : k < v.size) :
    (v.view k).isSome := by
  cases hl : locate v.sizes k with
  | none =>
    rw [locate_eq_none] at hl
    exact absurd hl (Nat.not_le_of_lt hk)
  | some x =>
    obtain ⟨q, hq, ho, hkeq⟩ := getElem?_of_locate hl
    rw [hkeq]
    exact hok.view_place hq
      ((hok.getElem? hq).isUsed_of_full (hfull q (List.mem_of_getElem? hq)) ho)

theorem firstFree_least (hok : v.Ok) (hroom : v.FirstRoom) (h : v.firstFree = some (v', it)) :
    (∃ i p, Valid v' it i p) ∧ IsLeast {k | v.view k = none} it.gpos ∧ v'.view = v.view ∧
      (it.gpos < v.size → v' = v) := by
  cases hl : firstFreeLoop v.pages 0 0 with
  | some it' =>
    rw [firstFree, hl] at h
    cases h
    obtain ⟨hv, hleast⟩ := firstFreeLoop_least hok hl
    exact ⟨hv, hleast, rfl, fun _ => rfl⟩
  | none =>
    have hfull := firstFreeLoop_none.mp hl
    rw [firstFree_full hfull, Option.map_eq_some_iff] at h
    obtain ⟨w, ha, heq⟩ := h
    cases heq
    refine ⟨⟨_, _, valid_allocate ha (hroom hfull)⟩, ⟨view_size, fun k hk => ?_⟩,
      (allocate_extends ha).view, fun hlt => absurd hlt (Nat.lt_irrefl _)⟩
    by_contra hlt
    have hsome := view_of_full hok hfull (Nat.lt_of_not_le hlt)
    rw [show v.view k = none from hk] at hsome
    cases hsome

/-! ## The last one -/

/-- What is used is before. -/
theorem lt_lastFreePos (hok : v.Ok) (hk : (v.view k).isSome) : k < v.lastFreePos := by
  obtain ⟨m, q, o, hq, hused, rfl⟩ := hok.place_of_view hk
  have ho := (hok.getElem? hq).lt_size hused
  have hm := (List.getElem?_eq_some_iff.mp hq).1
  rw [lastFreePos]
  rcases Nat.lt_or_ge m (v.pages.length - 1) with hlt | hge
  · have := base_add_lt (sizes_getElem? hq) ho hlt
    omega
  · -- In the last page it is before the free place.
    obtain rfl : m = v.pages.length - 1 := by omega
    rw [tail_eq] at hq
    cases hq
    rcases Nat.lt_or_ge o v.tail.lastFree with hlt | hle
    · omega
    · rw [hok.tail.lastFree_spec.1 o hle] at hused
      cases hused

theorem base_tail : base v.sizes (v.pages.length - 1) + v.tail.size = v.size := by
  have hlast := base_succ (sizes_getElem? v.tail_eq)
  have hlen : v.pages.length - 1 + 1 = v.sizes.length := by
    rw [sizes, List.length_map]
    exact Nat.sub_add_cancel (List.length_pos_of_ne_nil v.pages_ne)
  rw [hlen, base_length] at hlast
  exact hlast.symm

theorem lastFreePos_le (hok : v.Ok) : v.lastFreePos ≤ v.size := by
  have := hok.tail.lastFree_le
  have := base_tail (v := v)
  rw [lastFreePos]
  omega

theorem lastFreePos_eq (h : v.lastFree = some (v', it)) : v.lastFreePos = it.gpos := by
  by_cases heq : v.tail.lastFree = v.tail.size
  · rw [lastFree_full heq, Option.map_eq_some_iff] at h
    obtain ⟨w, -, hw⟩ := h
    cases hw
    rw [lastFreePos, heq, Nat.add_comm]
    exact base_tail
  · simp only [lastFree, if_neg heq] at h
    cases h
    rfl

theorem lastFree_bound (hok : v.Ok) (h : v.lastFree = some (v', it)) (hk : (v.view k).isSome) :
    k < it.gpos := lastFreePos_eq h ▸ lt_lastFreePos hok hk

theorem lastFree_extends (hok : v.Ok) (hroom : v.LastRoom) (h : v.lastFree = some (v', it)) :
    (∃ i p, Valid v' it i p) ∧ Extends v v' ∧ (it.gpos < v.size → v' = v) := by
  by_cases heq : v.tail.lastFree = v.tail.size
  · rw [lastFree_full heq, Option.map_eq_some_iff] at h
    obtain ⟨w, ha, hw⟩ := h
    cases hw
    exact ⟨⟨_, _, valid_allocate ha (hroom heq)⟩, allocate_extends ha,
      fun hlt => absurd hlt (Nat.lt_irrefl _)⟩
  · obtain ⟨it', hl, hv, -⟩ := lastFree_room hok heq
    cases h.symm.trans hl
    exact ⟨⟨_, _, hv⟩, .refl, fun _ => rfl⟩

/-- An item goes behind all others. -/
theorem pushBack_spec {x : Option Ptr} (hok : v.Ok) (hroom : v.LastRoom)
    (h : v.pushBack t = some (v', x)) : ∃ k, (∀ j, (v.view j).isSome → j < k) ∧
      v'.view = Function.update v.view k (some t) ∧ v'.getPtr k = x := by
  obtain ⟨⟨w, it⟩, hlast, heq⟩ := Option.map_eq_some_iff.mp h
  obtain ⟨⟨i, p, hv⟩, hext, -⟩ := lastFree_extends hok hroom hlast
  have heq : w.iterSet it t = (v', x) := heq
  have hset := iterSet_spec (t := t) (hext.ok hok) hv
  have hsizes : (w.iterSet it t).1.sizes = w.sizes := sizes_iterSet
  rw [heq] at hset hsizes
  obtain ⟨hview, hok', hptr⟩ := hset
  dsimp only at hview hptr hsizes
  rw [hext.view] at hview
  refine ⟨it.gpos, fun j hj => lastFree_bound hok hlast hj, hview, ?_⟩
  have hsome : (v'.view it.gpos).isSome := by
    rw [hview, Function.update_self]
    rfl
  rw [hok'.getPtr_eq, if_pos hsome, addr_congr hsizes, hv.addr, hptr]

/-! ## Both -/

/-- If no page has a free place, then the last one has not. -/
theorem LastRoom.firstRoom (hok : v.Ok) (h : v.LastRoom) : v.FirstRoom :=
  fun hfull => h (hok.tail.lastFree_of_full (hfull v.tail (List.getLast_mem v.pages_ne)))

/-- In a well formed vector. -/
theorem freePlaces_iff_lastRoom (hok : v.Ok) : v.FreePlaces ↔ v.LastRoom := by
  constructor
  · intro h heq hm
    -- The page without room is added.
    have hsize : v.size + ((v.tail.mul + 2) * 64).toNat < 2 ^ 64 := by
      rw [hm]
      exact v.size_lt
    obtain ⟨w, ha⟩ : ∃ w, v.allocate (v.tail.mul + 2) = some w := ⟨_, dif_pos hsize⟩
    have hlast : v.lastFree = some (w, ⟨some v.pages.length, 0, v.size⟩) := by
      rw [lastFree_full heq, ha]
      rfl
    obtain ⟨⟨i, p, hv⟩, -⟩ := h.lastFree _ _ hlast
    exact (placed_allocate_iff ha).mp hv.placed hm
  · intro hroom
    constructor
    · exact fun v' it h => firstFree_least hok (hroom.firstRoom hok) h
    · intro v' it h
      obtain ⟨hv, hext, hsame⟩ := lastFree_extends hok hroom h
      exact ⟨hv, fun k hk => lastFree_bound hok h hk, hext.view, hsame⟩
    · exact fun t v' x h => pushBack_spec hok hroom h
    · exact fun v' it h => firstFreePos_eq h
    · exact fun v' it h => lastFreePos_eq h

variable [Inhabited T] {tr : List (IterOp T × IterState T)}

/-- **Free places are as asked**, in every vector that a run reaches, if and only if the page that
    `last_free` would have to add has room. -/
theorem freePlaces_iff (h : Run IterState.Step (IterState.init : IterState T) tr)
    (hr : Always (fun s a _ => s.Roomy a) (IterState.init : IterState T) tr) :
    (last IterState.init tr).vec.FreePlaces ↔ (last IterState.init tr).vec.LastRoom :=
  freePlaces_iff_lastRoom (IterState.run_ok h hr)

/-- Two pages, and a hole in the first one. -/
def holeOps : List (IterOp Nat) :=
  [.forceIteratorAt 0, .set 0 7, .forceIteratorAt 70, .set 1 8]

theorem freePlaces_iff_hole : ∃ tr, tr.map Prod.fst = holeOps ∧
    (last (IterState.init : IterState Nat) tr).vec.FreePlaces := by
  have hr := IterState.run_of_calls (Option.some_get
    (show (Lts.replay IterState.call IterState.init holeOps).isSome = true by decide)).symm
  exact ⟨_, by rfl, (freePlaces_iff hr (by decide)).mpr (by decide)⟩

/-- The last place is used of a page with `2 ^ 26 - 2` words. -/
def hugeOps : List (IterOp Nat) :=
  [.forceIteratorAt (4294967296 - 192), .set 0 7, .forceIteratorAt (4294967296 - 65), .set 1 8]

theorem freePlaces_fails : ∃ tr, Run IterState.Step (IterState.init : IterState Nat) tr ∧
    tr.map Prod.fst = hugeOps ∧ ¬ (last IterState.init tr).vec.FreePlaces := by
  have hr := IterState.run_of_calls (Option.some_get
    (show (Lts.replay IterState.call IterState.init hugeOps).isSome = true by decide)).symm
  refine ⟨_, hr, by rfl, fun hfree => ?_⟩
  have hroom := (freePlaces_iff_lastRoom (IterState.run_ok hr (by decide))).mp hfree
  exact absurd hroom (by decide)

end Inpvec

end CodeSLoop
