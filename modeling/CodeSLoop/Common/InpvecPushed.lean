import CodeSLoop.Common.InpvecFree

/-!
# An `inpvec` that is only pushed to

Items that `push_back` puts into an empty vector stand one behind another: position `k` has the
item that was pushed as number `k` (`Pushed`). All positions are used up to the last one, so the
second page begins at its first place, and `next_used()` from the start comes to all items as long
as there is no second page: if they are no more than 64 (`Pushed.visit`).
-/

namespace CodeSLoop

open Bits Segments Lts Inpvec

universe u

variable {T : Type u}

namespace Inpvec

variable {v v' w : Inpvec T} {xs : List T} {t : T} {it : Iter} {k : Nat}

/-- The items are those of `xs`, one behind another, and the last page was made for one of them. -/
structure Pushed (v : Inpvec T) (xs : List T) : Prop where
  ok : v.Ok
  odd : v.OddTail
  nItems : v.nItems = xs.length
  view : ∀ k, v.view k = xs[k]?
  head : v.sizes[0]? = some 64
  room : ∀ n ∈ v.sizes, 0 < n
  tail : v.pages.length = 1 ∨ base v.sizes (v.pages.length - 1) < xs.length

theorem pushed_init : Pushed (init : Inpvec T) [] where
  ok := ok_init
  odd := oddTail_init
  nItems := rfl
  view := fun _ => view_init
  head := rfl
  room := fun n hn => by
    have hn : n = 64 := List.mem_singleton.mp hn
    omega
  tail := Or.inl rfl

theorem lastRoom_of_odd (h : v.OddTail) : v.LastRoom := by
  intro _ h0
  have hodd := toNat_tail_add_two h
  have hzero := congrArg UInt32.toNat h0
  have h64 : UInt32.toNat 64 = 64 := rfl
  rw [UInt32.toNat_mul, h64, UInt32.toNat_zero] at hzero
  omega

/-- `last_free()` in a vector with an odd tail leaves it with one. -/
theorem oddTail_lastFree (hodd : v.OddTail) (h : v.lastFree = some (w, it)) : w.OddTail := by
  by_cases heq : v.tail.lastFree = v.tail.size
  · rw [lastFree_full heq, Option.map_eq_some_iff] at h
    obtain ⟨v', ha, hw⟩ := h
    cases hw
    have htail : w.tail = Page.mulAlloc (v.tail.mul + 2) := by simp [Inpvec.tail, (allocate_some ha).1]
    rw [OddTail, htail]
    exact toNat_tail_add_two hodd
  · simp only [lastFree, if_neg heq] at h
    cases h
    exact hodd

/-- The page that it adds has room. -/
theorem room_lastFree (hodd : v.OddTail) (hroom : ∀ n ∈ v.sizes, 0 < n) (h : v.lastFree = some (w, it)) :
    ∀ n ∈ w.sizes, 0 < n := by
  by_cases heq : v.tail.lastFree = v.tail.size
  · have hlast := lastRoom_of_odd hodd heq
    rw [lastFree_full heq, Option.map_eq_some_iff] at h
    obtain ⟨v', ha, hw⟩ := h
    cases hw
    intro n hn
    rw [sizes, (allocate_some ha).1, List.map_append, List.mem_append] at hn
    rcases hn with hn | hn
    · exact hroom n hn
    · have hn : n = ((v.tail.mul + 2) * 64).toNat := List.mem_singleton.mp hn
      refine Nat.pos_of_ne_zero fun h0 => hlast (UInt32.toNat_inj.mp ?_)
      rw [← hn, h0]
      rfl
  · simp only [lastFree, if_neg heq] at h
    cases h
    exact hroom

namespace Pushed

theorem isSome_iff (h : Pushed v xs) : (v.view k).isSome ↔ k < xs.length := by
  rw [h.view]
  simp

/-- The next free place is the next position. -/
theorem lastFree_gpos (h : Pushed v xs) (hl : v.lastFree = some (w, it)) :
    it.gpos = xs.length ∧ (w.pages.length = v.pages.length ∨
      w.pages.length = v.pages.length + 1 ∧ base w.sizes v.pages.length = xs.length) := by
  have hused : ∀ k, (v.view k).isSome → k < it.gpos := fun k hk => lastFree_bound h.ok hl hk
  have hge : xs.length ≤ it.gpos := by
    by_contra hlt
    exact Nat.lt_irrefl _ (hused it.gpos (h.isSome_iff.mpr (Nat.lt_of_not_le hlt)))
  have hpos := List.length_pos_of_ne_nil v.pages_ne
  -- A place behind a used one.
  have hbehind : ∀ o, v.tail.isUsed o = true → base v.sizes (v.pages.length - 1) + o < xs.length :=
    fun o ho => h.isSome_iff.mp (h.ok.view_place tail_eq ho)
  by_cases heq : v.tail.lastFree = v.tail.size
  · rw [lastFree_full heq, Option.map_eq_some_iff] at hl
    obtain ⟨v', ha, hw⟩ := hl
    cases hw
    have hsucc : base v.sizes v.pages.length = base v.sizes (v.pages.length - 1) + v.tail.size := by
      rw [← base_succ (sizes_getElem? tail_eq), Nat.sub_add_cancel hpos]
    have hlen : v.sizes.length = v.pages.length := List.length_map _
    have hsize : v.size = base v.sizes v.pages.length := by rw [← hlen, base_length, Inpvec.size]
    have hle : v.size ≤ xs.length := by
      rcases h.ok.tail.lastFree_spec.2 with h0 | hu
      · have htail := h.tail
        have hhead := h.head
        rw [hsize, hsucc, ← heq, h0, Nat.add_zero]
        rcases htail with h1 | hlt
        · rw [h1]
          exact Nat.zero_le _
        · exact Nat.le_of_lt hlt
      · have hlast := hbehind _ hu
        have hsize' := h.ok.tail.lt_size hu
        omega
    have hgpos : v.size = xs.length := Nat.le_antisymm hle hge
    refine ⟨hgpos, Or.inr ⟨?_, ?_⟩⟩
    · rw [(allocate_some ha).1, List.length_append]
      rfl
    · have hsizes : w.sizes = v.sizes ++ [(Page.mulAlloc (v.tail.mul + 2) : Page T).size] := by
        simp [sizes, (allocate_some ha).1]
      rw [hsizes, base_append (Nat.le_of_eq hlen.symm), ← hsize, hgpos]
  · simp only [lastFree, if_neg heq] at hl
    cases hl
    refine ⟨Nat.le_antisymm ?_ hge, Or.inl rfl⟩
    dsimp only
    rcases h.ok.tail.lastFree_spec.2 with h0 | hu
    · rw [h0, Nat.zero_add]
      rcases h.tail with h1 | hlt
      · rw [h1]
        exact Nat.zero_le _
      · exact Nat.le_of_lt hlt
    · have hlast := hbehind _ hu
      omega

/-- **One more item** is the next one. -/
theorem push {x : Option Ptr} (h : Pushed v xs) (hp : v.pushBack t = some (v', x)) :
    Pushed v' (xs ++ [t]) := by
  obtain ⟨⟨w, it⟩, hl, heq⟩ := Option.map_eq_some_iff.mp hp
  obtain ⟨⟨i, p, hv⟩, hext, -⟩ := lastFree_extends h.ok (lastRoom_of_odd h.odd) hl
  obtain ⟨hgpos, hpages⟩ := h.lastFree_gpos hl
  have hok := hext.ok h.ok
  obtain ⟨hview, hok', -⟩ := iterSet_spec (t := t) hok hv
  have hsizes : (w.iterSet it t).1.sizes = w.sizes := sizes_iterSet
  have hnone : w.view it.gpos = none := by rw [hext.view, h.view, hgpos, List.getElem?_length]
  have hcount := nItems_iterSet (t := t) hok hv hnone
  have hodd : (w.iterSet it t).1.OddTail := oddTail_iterSet.mpr (oddTail_lastFree h.odd hl)
  have heq : w.iterSet it t = (v', x) := heq
  rw [heq] at hview hok' hsizes hcount hodd
  dsimp only at hview hok' hsizes hcount hodd
  have hlen : v'.pages.length = w.pages.length := length_of_sizes hsizes
  obtain ⟨ms, hms⟩ := hext.pages
  constructor
  · exact hok'
  · exact hodd
  · rw [hcount, hext.nItems, h.nItems, List.length_append]
    rfl
  · intro k
    rw [hview, hgpos, hext.view]
    rcases Nat.lt_trichotomy k xs.length with hlt | rfl | hgt
    · rw [Function.update_of_ne (Nat.ne_of_lt hlt), h.view, List.getElem?_append_left hlt]
    · rw [Function.update_self, List.getElem?_concat_length]
    · rw [Function.update_of_ne (Nat.ne_of_gt hgt), h.view, List.getElem?_eq_none (Nat.le_of_lt hgt),
        List.getElem?_eq_none (by rw [List.length_append]; exact hgt)]
  · have hpos : 0 < v.sizes.length := (List.getElem?_eq_some_iff.mp h.head).1
    rw [hsizes, sizes, hms, List.map_append, ← sizes, List.getElem?_append_left hpos]
    exact h.head
  · rw [hsizes]
    exact room_lastFree h.odd h.room hl
  · rw [hlen, hsizes, List.length_append]
    rcases hpages with hsame | ⟨hmore, hbase⟩
    · have hpages : w.pages = v.pages := by
        rw [hms, List.length_append] at hsame
        rw [hms, List.map_eq_nil_iff.mpr (List.length_eq_zero_iff.mp (by simpa using hsame)), List.append_nil]
      rw [sizes, hpages, ← sizes]
      exact h.tail.imp_right (Nat.lt_succ_of_lt ·)
    · right
      rw [hmore, Nat.add_sub_cancel, hbase]
      exact Nat.lt_succ_self _

/-- The first place. -/
theorem valid_first (h : Pushed v xs) : ∃ p, Valid v ⟨some 0, 0, 0⟩ 0 p ∧ p.size = 64 := by
  have hhead := h.head
  rw [sizes, List.getElem?_map, Option.map_eq_some_iff] at hhead
  obtain ⟨p, hp, hsize⟩ := hhead
  exact ⟨p, ⟨rfl, hp, by rw [hsize]; exact Nat.zero_lt_succ _, rfl⟩, hsize⟩

/-- `*begin()`. -/
theorem star_begin (h : Pushed v xs) (hne : xs ≠ []) : v.begin = ⟨some 0, 0, 0⟩ ∧
    (v.star v.begin).bind v.deref = xs.head? := by
  obtain ⟨p, hv, -⟩ := h.valid_first
  have hbegin : v.begin = ⟨some 0, 0, 0⟩ := by
    refine if_neg fun h0 => hne (List.length_eq_zero_iff.mp ?_)
    rw [← h.nItems, h0]
  have hview : (v.view 0).isSome := h.isSome_iff.mpr (List.length_pos_of_ne_nil hne)
  have hused : p.isUsed 0 = true := by
    rw [← (h.ok.getElem? hv.get).isSome_view, ← hv.view]
    exact hview
  have hptr := hv.getPtr h.ok hused
  have hstar : v.star ⟨some 0, 0, 0⟩ = some ⟨0, 0⟩ := if_pos ((isUsed_ptr hv).trans hused)
  refine ⟨hbegin, ?_⟩
  rw [hbegin, hstar, ← hptr, List.head?_eq_getElem?, ← h.view]
  rfl

/-- There is a second page when the first one did not suffice. -/
theorem one_page_iff (h : Pushed v xs) : v.pages.length = 1 ↔ xs.length ≤ 64 := by
  obtain ⟨n, hn⟩ : ∃ n, v.sizes = 64 :: n := by
    cases hs : v.sizes with
    | nil => exact absurd (hs ▸ h.head) (by simp)
    | cons m n =>
      have hhead := h.head
      rw [hs] at hhead
      cases hhead
      exact ⟨n, rfl⟩
  have hlen : v.sizes.length = v.pages.length := List.length_map _
  constructor
  · intro h1
    -- there is no room for more
    by_contra hgt
    have hlast := lt_size_of_view (h.isSome_iff.mpr (show 64 < xs.length by omega))
    rw [hn, List.length_cons] at hlen
    have hnil : n = [] := List.length_eq_zero_iff.mp (by omega)
    rw [Inpvec.size, hn, hnil] at hlast
    exact absurd hlast (by decide)
  · intro hle
    by_contra hne
    have hpos := List.length_pos_of_ne_nil v.pages_ne
    have hlt := h.tail.resolve_left hne
    have hmono : base v.sizes 1 ≤ base v.sizes (v.pages.length - 1) := base_mono (by omega)
    rw [hn, base_cons_succ, base_zero] at hmono
    rw [hn] at hlt
    omega

/-- The position behind the first page is the first place of the second. -/
theorem second_used (h : Pushed v xs) (hlt : 64 < xs.length) :
    ∃ p, v.pages[1]? = some p ∧ p.isUsed 0 = true := by
  obtain ⟨i, p, o, hp, hused, hk⟩ := h.ok.place_of_view (h.isSome_iff.mpr hlt)
  have ho := (h.ok.getElem? hp).lt_size hused
  have hbase : base v.sizes 1 = 64 := by rw [base_succ h.head, base_zero]
  rcases Nat.lt_trichotomy i 1 with h0 | rfl | hgt
  · obtain rfl : i = 0 := by omega
    have hsize := Option.some.inj (h.head.symm.trans (sizes_getElem? hp))
    rw [base_zero] at hk
    omega
  · obtain rfl : o = 0 := by omega
    exact ⟨p, hp, hused⟩
  · have hlen : 1 < v.sizes.length := by
      have hi := (List.getElem?_eq_some_iff.mp (sizes_getElem? hp)).1
      omega
    have hroom := h.room _ (List.getElem_mem hlen)
    have hsecond : base v.sizes 2 = base v.sizes 1 + v.sizes[1] := base_succ (List.getElem?_eq_getElem hlen)
    have hmono : base v.sizes 2 ≤ base v.sizes i := base_mono hgt
    omega

/-- Nothing is passed over in one page; the second one is searched from behind its first place. -/
theorem ahead_iff (h : Pushed v xs) : v.Ahead ⟨some 0, 0, 0⟩ ↔ xs.length ≤ 64 := by
  obtain ⟨p, hv, -⟩ := h.valid_first
  rw [hv.ahead_iff, ← h.one_page_iff]
  constructor
  · intro hstag
    by_contra hne
    have hgt : 64 < xs.length := Nat.lt_of_not_le fun hle => hne (h.one_page_iff.mpr hle)
    obtain ⟨q, hq, hused⟩ := h.second_used hgt
    have hdrop : v.pages.drop (0 + 1) = q :: v.pages.drop 2 := by
      obtain ⟨hlt, heq⟩ := List.getElem?_eq_some_iff.mp hq
      rw [List.drop_eq_getElem_cons hlt, heq]
    rw [hdrop] at hstag
    rw [hstag.1 0 (Nat.zero_le _)] at hused
    cases hused
  · intro h1
    rw [List.drop_of_length_le (by omega)]
    trivial

/-- **Going through them** from the first one: the calls end, give the items at the positions they
    come to, and come to all positions if and only if there is no second page. -/
theorem visit (h : Pushed v xs) : ∃ fuel l, v.visit fuel ⟨some 0, 0, 0⟩ = some (l, endIt) ∧
    (∀ e ∈ l, v.deref e.2 = xs[e.1.gpos]? ∧ e.1.gpos < xs.length) ∧
    (l.map (fun e => e.1.gpos) = List.range' 1 (xs.length - 1) ↔ xs.length ≤ 64) := by
  obtain ⟨p, hv, -⟩ := h.valid_first
  obtain ⟨fuel, l, hvisit, hsorted, hitems, hall⟩ := visit_spec h.ok hv (Nat.le_refl _)
  have hplace : ∀ e ∈ l, v.deref e.2 = xs[e.1.gpos]? ∧ e.1.gpos < xs.length := by
    intro e he
    have hptr := hitems e he
    have hsome := h.ok.isSome_getPtr (k := e.1.gpos)
    rw [hptr] at hsome
    refine ⟨?_, h.isSome_iff.mp hsome.symm⟩
    rw [← h.view, Inpvec.view, hptr]
    rfl
  refine ⟨fuel, l, hvisit, hplace, ?_⟩
  rw [← h.ahead_iff, hall]
  have hmem : ∀ k, k ∈ List.range' 1 (xs.length - 1) ↔ 0 < k ∧ k < xs.length := by
    intro k
    rw [List.mem_range'_1]
    omega
  constructor
  · intro heq k hk hview
    rw [heq, hmem]
    exact ⟨hk, h.isSome_iff.mp hview⟩
  · intro hall
    have hrest := (List.pairwise_cons.mp hsorted)
    have hsame : ∀ k, k ∈ l.map (fun e => e.1.gpos) ↔ k ∈ List.range' 1 (xs.length - 1) := by
      intro k
      rw [hmem]
      constructor
      · intro hk
        obtain ⟨e, he, heq⟩ := List.mem_map.mp hk
        rw [← heq]
        exact ⟨hrest.1 _ (List.mem_map_of_mem he), (hplace e he).2⟩
      · exact fun hk => hall k hk.1 (h.isSome_iff.mpr hk.2)
    have hperm : (l.map fun e => e.1.gpos).Perm (List.range' 1 (xs.length - 1)) := by
      refine (List.perm_ext_iff_of_nodup ?_ List.nodup_range').mpr hsame
      exact hrest.2.imp fun hlt => Nat.ne_of_lt hlt
    exact hperm.eq_of_pairwise (fun a b _ _ hab hba => absurd hab (Nat.lt_asymm hba)) hrest.2
      List.pairwise_lt_range'

end Pushed

end Inpvec

end CodeSLoop
