import CodeSLoop.Common.InpvecScan

/-!
# The position an iterator has

`operator==` compares `gpos_`, and so does the program that calls `get_pos()`. Here is when it is
the position of the place at which the iterator stands.

`operator++` leaves a page when nothing that is used follows in it, and adds one: it takes its place
for the last of the page. From a page that is not full to the end it comes to the next one with too
small a position (`placed_inc_iff`), and it does not get the right one again. `next_used` adds what
there is to the end of the page, and has it right.
-/

namespace CodeSLoop

open Bits Segments Lts Inpvec

universe u

variable {T : Type u}

theorem Page.Ok.succ_lt_size {p : Page T} {k : Nat} (h : p.Ok) (hk : k < p.size)
    (hlast : p.isLast k = false) : k + 1 < p.size := by
  have hmod := Nat.div_add_mod k 64
  have hword : ∀ i b, b < 64 → test (p.bmap i) b = true → 64 * i + b < p.size := by
    intro i b hb hset
    refine h.lt_size ?_
    rw [isUsed, show (64 * i + b) / 64 = i by omega, show (64 * i + b) % 64 = b by omega]
    exact hset
  have hoff : ¬ k / 64 > p.mul.toNat := by
    have hle := size_le (p := p)
    omega
  rw [isLast, if_neg hoff, Bool.and_eq_false_iff] at hlast
  -- Some bit behind is set.
  rcases hlast with hthis | hnext
  · obtain ⟨b, hb, hset⟩ := List.all_eq_false.mp hthis
    rw [List.mem_range'_1] at hb
    have := hword _ b (by omega) (by simpa using hset)
    omega
  · obtain ⟨i, hi, hset⟩ := List.all_eq_false.mp hnext
    rw [List.mem_range'_1] at hi
    rw [Bool.or_eq_true, not_or] at hset
    obtain ⟨b, hb, hset⟩ := List.all_eq_false.mp (Bool.eq_false_iff.mpr hset.2)
    have := hword i b (List.mem_range.mp hb) (by simpa using hset)
    omega

namespace Inpvec

variable {v v' : Inpvec T} {it a b : Iter} {i : Nat} {p : Page T}

/-- The position of an iterator is that of its place. -/
def Placed (v : Inpvec T) (it : Iter) : Prop := ∀ i ∈ it.page, v.addr it.gpos = some ⟨i, it.pos⟩

theorem placed_endIt : v.Placed endIt := nofun

theorem Valid.placed (h : Valid v it i p) : v.Placed it := by
  intro j hj
  rw [h.page] at hj
  cases hj
  exact h.addr

theorem Placed.valid (h : v.Placed it) (hi : it.page = some i) : ∃ p, Valid v it i p := by
  obtain ⟨p, hp, hlt, hgpos⟩ := getElem?_of_locate (addr_eq_some.mp (h i hi))
  exact ⟨p, hi, hp, hlt, hgpos⟩

theorem Placed.extends (h : v.Placed it) (hext : Extends v v') : v'.Placed it :=
  fun i hi => hext.addr (h i hi)

theorem Placed.congr (h : v.Placed it) (hsizes : v'.sizes = v.sizes) : v'.Placed it :=
  fun i hi => (addr_congr hsizes).trans (h i hi)

/-- `get_ptr` of its position gives what the iterator does. -/
theorem Placed.getPtr (h : v.Placed it) (hi : it.page = some i) : v.getPtr it.gpos = v.star it := by
  have haddr := h i hi
  rw [addr] at haddr
  rw [Inpvec.getPtr, haddr, star, hi]

/-- Iterators on places are equal if the places are. -/
theorem Placed.eq_iff (ha : v.Placed a) (hb : v.Placed b) (hi : a.page = some i) :
    a.eq b = true ↔ a.page = b.page ∧ a.pos = b.pos := by
  rw [Iter.eq, Bool.and_eq_true, decide_eq_true_eq, decide_eq_true_eq]
  refine and_congr_right fun hpage => ?_
  have haddr := ha i hi
  have haddr' := hb i (hpage ▸ hi)
  constructor
  · intro hgpos
    rw [hgpos, haddr'] at haddr
    injection haddr with hptr
    exact (Ptr.mk.inj hptr).2.symm
  · intro hpos
    rw [← hpos] at haddr'
    exact addr_inj haddr haddr'

/-! ## How iterators move -/

/-- If `operator++` leaves the page, it is from the last place of it, and to a page with room. -/
def Level (v : Inpvec T) (it : Iter) : Prop :=
  ∀ i ∈ it.page, ∀ p ∈ v.pages[i]?, p.isLast it.pos = true →
    ∀ q ∈ v.pages[i + 1]?, it.pos + 1 = p.size ∧ 0 < q.size

instance (v : Inpvec T) (it : Iter) : Decidable (v.Level it) := by
  unfold Level
  infer_instance

theorem Valid.level_iff (h : Valid v it i p) :
    v.Level it ↔ (p.isLast it.pos = true → ∀ q ∈ v.pages[i + 1]?, it.pos + 1 = p.size ∧ 0 < q.size) := by
  constructor
  · exact fun hl => hl i h.page p h.get
  · intro hl j hj q hq
    rw [h.page] at hj
    cases hj
    rw [h.get] at hq
    cases hq
    exact hl

theorem inc_eq (h : Valid v it i p) : v.inc it = if p.isLast it.pos then
    if i + 1 < v.pages.length then ⟨some (i + 1), 0, it.gpos + 1⟩ else endIt
      else ⟨some i, it.pos + 1, it.gpos + 1⟩ := by
  rw [inc, h.page]
  dsimp only
  rw [h.get]

/-- **`operator++` keeps the position right** if and only if it leaves no page early. -/
theorem placed_inc_iff (hok : v.Ok) (h : v.Placed it) : v.Placed (v.inc it) ↔ v.Level it := by
  cases hi : it.page with
  | none =>
    have hinc : v.inc it = endIt := by rw [inc, hi]
    rw [hinc]
    refine iff_of_true placed_endIt fun i hi' => ?_
    rw [hi] at hi'
    cases hi'
  | some i =>
    obtain ⟨p, hv⟩ := h.valid hi
    have hgpos := hv.gpos
    rw [inc_eq hv, hv.level_iff]
    cases hlast : p.isLast it.pos with
    | false =>
      have hlt := (hok.getElem? hv.get).succ_lt_size hv.pos_lt hlast
      have hnext : Valid v ⟨some i, it.pos + 1, it.gpos + 1⟩ i p :=
        ⟨rfl, hv.get, hlt, by dsimp only; omega⟩
      exact iff_of_true hnext.placed fun hl => Bool.noConfusion hl
    | true =>
      rw [if_pos rfl]
      cases hq : v.pages[i + 1]? with
      | none =>
        rw [if_neg (Nat.not_lt_of_le (List.getElem?_eq_none_iff.mp hq))]
        exact iff_of_true placed_endIt fun _ q hq => (by cases hq)
      | some q =>
        rw [if_pos (List.getElem?_eq_some_iff.mp hq).1]
        have hbase := base_succ (sizes_getElem? hv.get)
        constructor
        · rintro hplaced - r hr
          cases hr
          obtain ⟨r, hv'⟩ := hplaced.valid rfl
          obtain rfl : q = r := Option.some.inj (hq.symm.trans hv'.get)
          have hgpos' := hv'.gpos
          dsimp only at hgpos'
          exact ⟨by omega, hv'.pos_lt⟩
        · intro hlevel
          obtain ⟨hend, hroom⟩ := hlevel rfl q rfl
          have hnext : Valid v ⟨some (i + 1), 0, it.gpos + 1⟩ (i + 1) q :=
            ⟨rfl, hq, hroom, by dsimp only; omega⟩
          exact hnext.placed

theorem placed_nextUsed (hok : v.Ok) (h : v.Placed it) : v.Placed (v.nextUsed it).1 := by
  cases hi : it.page with
  | none =>
    rw [nextUsed, hi]
    exact placed_endIt
  | some i =>
    obtain ⟨p, hv⟩ := h.valid hi
    rcases nextUsed_cases hok hv with ⟨hnext, -⟩ | ⟨it', x, j, q, hnext, hv', -⟩
    · rw [hnext]
      exact placed_endIt
    · rw [hnext]
      exact hv'.placed

/-! ## How iterators are made -/

/-- The first page is inside of the vector. -/
theorem placed_begin (hhead : v.sizes[0]? = some 64) : v.Placed v.begin := by
  rw [begin]
  split
  · exact placed_endIt
  · intro i hi
    cases hi
    exact addr_eq_some.mpr (locate_eq_some.mpr ⟨64, hhead, by dsimp only; omega, by simp⟩)

theorem placed_iteratorAt {k : Nat} : v.Placed (v.iteratorAt k) := by
  rcases iteratorAt_cases v k with ⟨he, -⟩ | ⟨i, p, hv, -⟩
  · rw [he]
    exact placed_endIt
  · exact hv.placed

/-- A new page has a first place if it has room. -/
theorem placed_allocate_iff {m : UInt32} (h : v.allocate m = some v') :
    v'.Placed ⟨some v.pages.length, 0, v.size⟩ ↔ m * 64 ≠ 0 := by
  constructor
  · intro hplaced h0
    obtain ⟨p, hv⟩ := hplaced.valid rfl
    have hget := hv.get
    rw [(allocate_some h).1, List.getElem?_concat_length] at hget
    have hpos := hv.pos_lt
    rw [← Option.some.inj hget, Page.size] at hpos
    change 0 < (m * 64).toNat at hpos
    rw [h0] at hpos
    exact Nat.lt_irrefl 0 hpos
  · exact fun hm => (valid_allocate h hm).placed

/-- There is room where `first_free()` leads to. -/
def FirstRoom (v : Inpvec T) : Prop :=
  (∀ p ∈ v.pages, p.firstFree = p.size) → (v.tail.mul + 2) * 64 ≠ 0

/-- There is room where `last_free()` leads to. -/
def LastRoom (v : Inpvec T) : Prop := v.tail.lastFree = v.tail.size → (v.tail.mul + 2) * 64 ≠ 0

instance (v : Inpvec T) : Decidable v.FirstRoom := by
  unfold FirstRoom
  infer_instance

instance (v : Inpvec T) : Decidable v.LastRoom := by
  unfold LastRoom
  infer_instance

theorem placed_firstFree_iff {r : Inpvec T × Iter} (hok : v.Ok) (h : v.firstFree = some r) :
    r.1.Placed r.2 ↔ v.FirstRoom := by
  by_cases heq : ∀ p ∈ v.pages, p.firstFree = p.size
  · rw [firstFree_full heq, Option.map_eq_some_iff] at h
    obtain ⟨v', ha, rfl⟩ := h
    rw [placed_allocate_iff ha]
    exact ⟨fun hm _ => hm, fun hr => hr heq⟩
  · obtain ⟨it, i, p, hl, hv, -⟩ := firstFree_room hok heq
    rw [h, Option.some.injEq] at hl
    subst hl
    exact iff_of_true hv.placed fun hall => absurd hall heq

theorem placed_lastFree_iff {r : Inpvec T × Iter} (hok : v.Ok) (h : v.lastFree = some r) :
    r.1.Placed r.2 ↔ v.LastRoom := by
  by_cases heq : v.tail.lastFree = v.tail.size
  · rw [lastFree_full heq, Option.map_eq_some_iff] at h
    obtain ⟨v', ha, rfl⟩ := h
    rw [placed_allocate_iff ha]
    exact ⟨fun hm _ => hm, fun hr => hr heq⟩
  · obtain ⟨it, hl, hv, -⟩ := lastFree_room hok heq
    rw [h, Option.some.injEq] at hl
    subst hl
    exact iff_of_true hv.placed fun hfull => absurd hfull heq

/-! ## Runs -/

namespace IterState

variable {s s' : IterState T} {o : IterOp T} {tr : List (IterOp T × IterState T)}

/-- What is asked of a state. Every iterator that is not `end()` stands on a place of its page,
    and its position is the sum of the sizes of the pages before and its place. The item at that
    position is its own, and two of them are equal if and only if they stand on the same place. -/
structure Coherent (s : IterState T) : Prop where
  gpos : ∀ it ∈ s.its, ∀ i ∈ it.page,
    ∃ p, s.vec.pages[i]? = some p ∧ it.pos < p.size ∧ it.gpos = base s.vec.sizes i + it.pos
  getPtr : ∀ it ∈ s.its, it.page ≠ none → s.vec.getPtr it.gpos = s.vec.star it
  eq : ∀ a ∈ s.its, ∀ b ∈ s.its, a.page ≠ none → b.page ≠ none →
    (a.eq b = true ↔ a.page = b.page ∧ a.pos = b.pos)

/-- It all comes from the positions. -/
theorem coherent_iff_placed : s.Coherent ↔ ∀ it ∈ s.its, s.vec.Placed it := by
  constructor
  · intro h it hit i hi
    obtain ⟨p, hp, hlt, hgpos⟩ := h.gpos it hit i hi
    exact Valid.addr ⟨hi, hp, hlt, hgpos⟩
  · intro h
    constructor
    · intro it hit i hi
      obtain ⟨p, hv⟩ := (h it hit).valid hi
      exact ⟨p, hv.get, hv.pos_lt, hv.gpos⟩
    · intro it hit hne
      obtain ⟨i, hi⟩ := Option.ne_none_iff_exists'.mp hne
      exact (h it hit).getPtr hi
    · intro a ha b hb hne _
      obtain ⟨i, hi⟩ := Option.ne_none_iff_exists'.mp hne
      exact (h a ha).eq_iff (h b hb) hi

/-- The calls after which positions are right: a page that `first_free` or `last_free` adds has
    room, and `operator++` leaves no page early. -/
def InStep (s : IterState T) : IterOp T → Prop
  | .firstFree => s.vec.FirstRoom
  | .lastFree => s.vec.LastRoom
  | .inc n => ∀ it ∈ s.its[n]?, s.vec.Level it
  | _ => True

instance (s : IterState T) : (o : IterOp T) → Decidable (s.InStep o)
  | .firstFree => inferInstanceAs (Decidable s.vec.FirstRoom)
  | .lastFree => inferInstanceAs (Decidable s.vec.LastRoom)
  | .inc n => inferInstanceAs (Decidable (∀ it ∈ s.its[n]?, s.vec.Level it))
  | .begin | .iteratorAt _ | .forceIteratorAt _ | .copy _ | .nextUsed _ | .set _ _ | .construct _
  | .free _ | .freeAt _ | .reset => inferInstanceAs (Decidable True)

/-- A state that is sound and coherent, its first page as it was at the start. -/
structure Good (s : IterState T) : Prop where
  sound : s.Sound
  head : s.vec.sizes[0]? = some 64
  placed : ∀ it ∈ s.its, s.vec.Placed it

theorem good_init : (init : IterState T).Good := ⟨sound_init, rfl, nofun⟩

/-- A new iterator. -/
theorem Good.push_iff (h : s.Good) {v : Inpvec T} {it : Iter} (hext : Extends s.vec v) :
    Coherent ⟨v, s.its ++ [it]⟩ ↔ v.Placed it := by
  rw [coherent_iff_placed]
  constructor
  · exact fun hall => hall it (List.mem_append_right _ (List.mem_singleton.mpr rfl))
  · intro hplaced x hx
    rcases List.mem_append.mp hx with hx | hx
    · exact (h.placed x hx).extends hext
    · rw [List.mem_singleton.mp hx]
      exact hplaced

/-- An iterator that has moved. -/
theorem Good.move_iff (h : s.Good) {n : Nat} {it it' : Iter} (hn : s.its[n]? = some it) :
    Coherent { s with its := s.its.set n it' } ↔ s.vec.Placed it' := by
  rw [coherent_iff_placed]
  constructor
  · exact fun hall => hall it' (List.mem_set (List.getElem?_eq_some_iff.mp hn).1 it')
  · intro hplaced x hx
    rcases List.mem_or_eq_of_mem_set hx with hx | rfl
    · exact h.placed x hx
    · exact hplaced

theorem Good.change (h : s.Good) {v : Inpvec T} (hsizes : v.sizes = s.vec.sizes) :
    Coherent { s with vec := v } :=
  coherent_iff_placed.mpr fun x hx => (h.placed x hx).congr hsizes

/-- Iterators on places write where there is room. -/
theorem Good.roomy (h : s.Good) : s.Roomy o := by
  have hroom : ∀ (n : Nat), ∀ it ∈ s.its[n]?, s.vec.HasRoom it := by
    intro n it hit i hi p hp
    obtain ⟨q, hv⟩ := (h.placed it (List.mem_of_getElem? hit)).valid hi
    obtain rfl : q = p := Option.some.inj (hv.get.symm.trans hp)
    exact hv.pos_lt
  cases o with
  | set n t => exact hroom n
  | construct n => exact hroom n
  | _ => trivial

variable [Inhabited T]

/-- One call keeps the positions right if and only if it is in step. -/
theorem Good.step_iff (h : s.Good) (hs : Step s o s') : s'.Coherent ↔ s.InStep o := by
  obtain ⟨fuel, hs⟩ := hs
  have hok := h.sound.ok
  -- a call makes an iterator, moves one, or changes pages and keeps their sizes
  cases o with
  | begin =>
    cases hs
    exact iff_of_true ((h.push_iff .refl).mpr (placed_begin h.head)) trivial
  | iteratorAt pos =>
    cases hs
    exact iff_of_true ((h.push_iff .refl).mpr placed_iteratorAt) trivial
  | forceIteratorAt pos =>
    obtain ⟨⟨v, it⟩, hv, rfl⟩ := Option.map_eq_some_iff.mp hs
    obtain ⟨hext, -, i, p, hvalid⟩ := forceIteratorAt_spec hv
    exact iff_of_true ((h.push_iff hext).mpr hvalid.placed) trivial
  | firstFree =>
    obtain ⟨r, hv, rfl⟩ := Option.map_eq_some_iff.mp hs
    exact (h.push_iff (firstFree_lives hok hv).1).trans (placed_firstFree_iff hok hv)
  | lastFree =>
    obtain ⟨r, hv, rfl⟩ := Option.map_eq_some_iff.mp hs
    exact (h.push_iff (lastFree_lives hok hv).1).trans (placed_lastFree_iff hok hv)
  | copy n =>
    obtain ⟨it, hit, rfl⟩ := Option.map_eq_some_iff.mp hs
    exact iff_of_true ((h.push_iff .refl).mpr (h.placed it (List.mem_of_getElem? hit))) trivial
  | inc n =>
    obtain ⟨it, hit, rfl⟩ := Option.map_eq_some_iff.mp hs
    have hplaced := h.placed it (List.mem_of_getElem? hit)
    rw [h.move_iff hit, placed_inc_iff hok hplaced]
    constructor
    · intro hlevel x hx
      cases hit.symm.trans hx
      exact hlevel
    · exact fun hin => hin it hit
  | nextUsed n =>
    obtain ⟨it, hit, rfl⟩ := Option.map_eq_some_iff.mp hs
    have hplaced := h.placed it (List.mem_of_getElem? hit)
    exact iff_of_true ((h.move_iff hit).mpr (placed_nextUsed hok hplaced)) trivial
  | set n t =>
    obtain ⟨it, hit, rfl⟩ := Option.map_eq_some_iff.mp hs
    exact iff_of_true (h.change sizes_iterSet) trivial
  | construct n =>
    obtain ⟨it, hit, rfl⟩ := Option.map_eq_some_iff.mp hs
    exact iff_of_true (h.change sizes_iterConstruct) trivial
  | free n =>
    obtain ⟨it, hit, rfl⟩ := Option.map_eq_some_iff.mp hs
    exact iff_of_true (h.change sizes_iterFree) trivial
  | freeAt pos =>
    cases hs
    exact iff_of_true (h.change sizes_freeAt) trivial
  | reset =>
    cases hs
    exact iff_of_true (coherent_iff_placed.mpr nofun) trivial

/-- The first page stays as large as it is. -/
theorem Good.head_step (h : s.Good) (hs : Step s o s') : s'.vec.sizes[0]? = some 64 := by
  have hext : ∀ {v : Inpvec T}, Extends s.vec v → v.sizes[0]? = some 64 := by
    intro v hext
    obtain ⟨ms, hms⟩ := hext.pages
    have hhead := h.head
    rw [sizes, List.getElem?_map] at hhead
    rw [sizes, hms, List.getElem?_map, List.getElem?_append_left
      (List.length_pos_of_ne_nil s.vec.pages_ne), hhead]
  obtain ⟨fuel, hs⟩ := hs
  cases o with
  | forceIteratorAt pos =>
    obtain ⟨r, hv, rfl⟩ := Option.map_eq_some_iff.mp hs
    exact hext (forceIteratorAt_spec hv).1
  | firstFree =>
    obtain ⟨r, hv, rfl⟩ := Option.map_eq_some_iff.mp hs
    exact hext (firstFree_lives h.sound.ok hv).1
  | lastFree =>
    obtain ⟨r, hv, rfl⟩ := Option.map_eq_some_iff.mp hs
    exact hext (lastFree_lives h.sound.ok hv).1
  | set n t =>
    obtain ⟨it, hit, rfl⟩ := Option.map_eq_some_iff.mp hs
    rw [sizes_iterSet]
    exact h.head
  | construct n =>
    obtain ⟨it, hit, rfl⟩ := Option.map_eq_some_iff.mp hs
    rw [sizes_iterConstruct]
    exact h.head
  | free n =>
    obtain ⟨it, hit, rfl⟩ := Option.map_eq_some_iff.mp hs
    rw [sizes_iterFree]
    exact h.head
  | freeAt pos =>
    cases hs
    rw [sizes_freeAt]
    exact h.head
  | begin | iteratorAt pos | reset =>
    cases hs
    first | exact h.head | rfl
  | copy n | inc n | nextUsed n =>
    obtain ⟨it, hit, rfl⟩ := Option.map_eq_some_iff.mp hs
    exact h.head

theorem Good.step (h : s.Good) (hs : Step s o s') (hc : s'.Coherent) : s'.Good :=
  ⟨h.sound.step h.roomy hs, h.head_step hs, coherent_iff_placed.mp hc⟩

/-- **The positions are right in every state of a run** if and only if no `operator++` leaves a page
    early and no page without room is added. -/
theorem positions_coherent_iff (h : Run Step (init : IterState T) tr) :
    Always (fun _ _ s' => s'.Coherent) (init : IterState T) tr ↔
      Always (fun s o _ => s.InStep o) (init : IterState T) tr :=
  h.always_iff (I := Good) (fun _ _ _ hI hs => hI.step_iff hs) (fun _ _ _ hI hs hc => hI.step hs hc)
    good_init

/-- An iterator that goes to the next page from the end of a full one, and on to `end()`. -/
def levelOps : List (IterOp Nat) :=
  [.forceIteratorAt 63, .set 0 7, .forceIteratorAt 64, .set 1 8, .begin, .nextUsed 2, .inc 2, .inc 2]

theorem positions_coherent_iff_level : ∃ tr, tr.map Prod.fst = levelOps ∧
    Always (fun _ _ s' => s'.Coherent) (init : IterState Nat) tr := by
  have hr := run_of_calls (Option.some_get
    (show (Lts.replay call (init : IterState Nat) levelOps).isSome = true by decide)).symm
  exact ⟨_, by rfl, (positions_coherent_iff hr).mpr (by decide)⟩

/-- The second item is at 70. From the first place of a page of which nothing else is used,
    `operator++` goes to place 0 of the next one, and to position 1. -/
def earlyOps : List (IterOp Nat) :=
  [.forceIteratorAt 0, .set 0 7, .forceIteratorAt 70, .set 1 8, .begin, .inc 2]

theorem positions_coherent_fails : ∃ tr, Run Step (init : IterState Nat) tr ∧ tr.map Prod.fst = earlyOps ∧
    (last init tr).its[2]? = some ⟨some 1, 0, 1⟩ ∧
    ¬ Always (fun _ _ s' => s'.Coherent) (init : IterState Nat) tr := by
  have hr := run_of_calls (Option.some_get
    (show (Lts.replay call (init : IterState Nat) earlyOps).isSome = true by decide)).symm
  refine ⟨_, hr, by rfl, by rfl, fun hc => ?_⟩
  have hlast := hc.last_state (coherent_iff_placed.mpr nofun)
  obtain ⟨p, -, -, hgpos⟩ := hlast.gpos ⟨some 1, 0, 1⟩ (List.mem_of_getElem? (i := 2) (by rfl)) 1 rfl
  revert hgpos
  decide

end IterState

end Inpvec

end CodeSLoop
