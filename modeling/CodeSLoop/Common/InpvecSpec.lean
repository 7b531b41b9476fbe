import CodeSLoop.Common.Inpvec
import Mathlib.Data.Finset.Card
import Mathlib.Data.Finset.Range

/-!
# What the operations of an `inpvec` do

A page is seen as the partial map `Page.view` from offsets to items, a vector as the partial
map `Inpvec.view` from positions to the items `get_ptr` leads to. One lemma for each
operation says what it does to the view, to the number of set bits, and to the invariant
`Ok`: no bit is set past the end of a page, an item is constructed wherever a bit is set, and
`n_items_` counts the set bits.
-/

namespace CodeSLoop

open Bits Segments

universe u

namespace Page

open Inpvec

variable {T : Type u} {p : Page T} {k j : Nat} {t : T}

theorem size_le : p.size ≤ 64 * p.mul.toNat := by
  rw [size, UInt32.toNat_mul, Nat.mul_comm 64]
  exact Nat.mod_le _ _

/-- The item at an offset, where there is one. -/
def view (p : Page T) (k : Nat) : Option T := if p.isUsed k then p.items k else none

/-- The number of set bits. -/
def count (p : Page T) : Nat :=
  ((Finset.range (64 * p.mul.toNat)).filter fun k => p.isUsed k = true).card

structure Ok (p : Page T) : Prop where
  beyond : ∀ k, p.size ≤ k → p.isUsed k = false
  live : ∀ k, p.isUsed k = true → p.items k ≠ none

theorem Ok.lt_size (h : p.Ok) (hk : p.isUsed k = true) : k < p.size := by
  by_cases hlt : k < p.size
  · exact hlt
  · rw [h.beyond k (by omega)] at hk; cases hk

theorem Ok.isSome_view (h : p.Ok) : (p.view k).isSome = p.isUsed k := by
  unfold view
  cases hk : p.isUsed k with
  | true => simpa [Option.isSome_iff_ne_none] using h.live k hk
  | false => rfl

theorem isUsed_mulAlloc {m : UInt32} : (mulAlloc m : Page T).isUsed k = false := by
  simp [isUsed, mulAlloc]

theorem ok_mulAlloc {m : UInt32} : (mulAlloc m : Page T).Ok where
  beyond _ _ := isUsed_mulAlloc
  live k hk := by rw [isUsed_mulAlloc] at hk; cases hk

theorem view_mulAlloc {m : UInt32} : (mulAlloc m : Page T).view k = none := by
  rw [view, isUsed_mulAlloc]; rfl

theorem count_mulAlloc {m : UInt32} : (mulAlloc m : Page T).count = 0 := by
  simp [count, isUsed_mulAlloc]

/-! ## One bit of the bitmap -/

theorem offset_eq_iff : j = k ↔ j / 64 = k / 64 ∧ j % 64 = k % 64 := by
  constructor
  · rintro rfl; exact ⟨rfl, rfl⟩
  · rintro ⟨hd, hm⟩; omega

theorem isUsed_set : (p.set k t).isUsed j = (p.isUsed j || decide (j = k)) := by
  unfold set
  split
  · rename_i hk
    by_cases hj : j = k
    · subst hj; simpa [isUsed] using hk
    · simp [isUsed, hj]
  · by_cases hd : j / 64 = k / 64
    · simp only [isUsed, hd, Function.update_self]
      rw [test_insert (Nat.mod_lt _ (by omega))]
      simp [offset_eq_iff (j := j), hd]
    · simp only [isUsed, Function.update_of_ne hd]
      simp [offset_eq_iff (j := j), hd]

theorem isUsed_destroy : (p.destroy k).isUsed j = (p.isUsed j && !decide (j = k)) := by
  unfold destroy
  split
  · by_cases hd : j / 64 = k / 64
    · simp only [isUsed, hd, Function.update_self]
      rw [test_erase (Nat.mod_lt _ (by omega)) (Nat.mod_lt _ (by omega))]
      simp [offset_eq_iff (j := j), hd]
    · simp only [isUsed, Function.update_of_ne hd]
      simp [offset_eq_iff (j := j), hd]
  · rename_i hk
    by_cases hj : j = k
    · subst hj; simpa using hk
    · simp [hj]

theorem items_set : (p.set k t).items = Function.update p.items k (some t) := by
  unfold set; split <;> rfl

theorem items_destroy (hj : j ≠ k) : (p.destroy k).items j = p.items j := by
  unfold destroy
  split
  · exact Function.update_of_ne hj ..
  · rfl

theorem view_set : (p.set k t).view = Function.update p.view k (some t) := by
  funext j
  rw [view, isUsed_set, items_set]
  by_cases hj : j = k
  · subst hj; simp
  · simp [hj, view]

theorem view_destroy : (p.destroy k).view = Function.update p.view k none := by
  funext j
  rw [view, isUsed_destroy]
  by_cases hj : j = k
  · subst hj; simp
  · rw [items_destroy hj, Function.update_of_ne hj, decide_eq_false hj, Bool.not_false,
      Bool.and_true, view]

theorem isUsed_poke {f : T → T} : (p.poke k f).isUsed j = p.isUsed j := rfl

theorem view_poke {f : T → T} :
    (p.poke k f).view = Function.update p.view k ((p.view k).map f) := by
  funext j
  rw [view, isUsed_poke]
  by_cases hj : j = k
  · subst hj
    cases hu : p.isUsed j with
    | true => simp [poke, view, hu]
    | false => simp [view, hu]
  · simp [poke, hj, view]

theorem size_set : (p.set k t).size = p.size := by rw [size, mul_set, size]

theorem size_destroy : (p.destroy k).size = p.size := by rw [size, mul_destroy, size]

theorem Ok.set (h : p.Ok) (hk : k < p.size) : (p.set k t).Ok where
  beyond j hj := by
    rw [size_set] at hj
    rw [isUsed_set, h.beyond j hj, Bool.false_or, decide_eq_false (by omega)]
  live j hj := by
    rw [isUsed_set] at hj
    rw [items_set]
    by_cases he : j = k
    · subst he; simp
    · rw [Function.update_of_ne he]
      exact h.live j (by simpa [he] using hj)

theorem Ok.destroy (h : p.Ok) : (p.destroy k).Ok where
  beyond j hj := by
    rw [size_destroy] at hj
    rw [isUsed_destroy, h.beyond j hj, Bool.false_and]
  live j hj := by
    rw [isUsed_destroy, Bool.and_eq_true, Bool.not_eq_true', decide_eq_false_iff_not] at hj
    rw [items_destroy hj.2]
    exact h.live j hj.1

theorem Ok.poke {f : T → T} (h : p.Ok) : (p.poke k f).Ok where
  beyond := h.beyond
  live j hj := by
    have hne := h.live j hj
    by_cases he : j = k
    · subst he
      simpa [Page.poke] using hne
    · simpa [Page.poke, he] using hne

/-- Constructing a bit's item adds one to the set bits, assigning to it adds none. -/
theorem count_set (hk : k < p.size) :
    (p.set k t).count = if p.isUsed k then p.count else p.count + 1 := by
  unfold count
  rw [mul_set]
  split
  · rename_i hu
    congr 1
    apply Finset.filter_congr
    intro j _
    rw [isUsed_set]
    by_cases hj : j = k
    · subst hj; simp [hu]
    · simp [hj]
  · rename_i hu
    have hmem : k ∈ Finset.range (64 * p.mul.toNat) :=
      Finset.mem_range.mpr (Nat.lt_of_lt_of_le hk size_le)
    have hnot : k ∉ (Finset.range (64 * p.mul.toNat)).filter fun j => p.isUsed j = true := by
      simp [hu]
    rw [← Finset.card_insert_of_notMem hnot]
    congr 1
    ext j
    simp only [Finset.mem_filter, Finset.mem_insert, isUsed_set, Bool.or_eq_true,
      decide_eq_true_eq]
    constructor
    · rintro ⟨hr, hj | rfl⟩
      · exact .inr ⟨hr, hj⟩
      · exact .inl rfl
    · rintro (rfl | ⟨hr, hj⟩)
      · exact ⟨hmem, .inr rfl⟩
      · exact ⟨hr, .inl hj⟩

/-- Destroying an item takes one off the set bits. -/
theorem count_destroy (hk : k < p.size) :
    p.count = if p.isUsed k then (p.destroy k).count + 1 else (p.destroy k).count := by
  split
  · rename_i hu
    have hmem : k ∈ (Finset.range (64 * p.mul.toNat)).filter fun j => p.isUsed j = true :=
      Finset.mem_filter.mpr ⟨Finset.mem_range.mpr (Nat.lt_of_lt_of_le hk size_le), hu⟩
    have hpos := Finset.card_pos.mpr ⟨k, hmem⟩
    have herase : (p.destroy k).count =
        (((Finset.range (64 * p.mul.toNat)).filter fun j => p.isUsed j = true).erase k).card := by
      unfold count
      rw [mul_destroy]
      congr 1
      ext j
      simp only [Finset.mem_filter, Finset.mem_erase, isUsed_destroy, Bool.and_eq_true,
        Bool.not_eq_true', decide_eq_false_iff_not]
      exact ⟨fun ⟨hr, hj, hne⟩ => ⟨hne, hr, hj⟩, fun ⟨hne, hr, hj⟩ => ⟨hr, hj, hne⟩⟩
    rw [herase, Finset.card_erase_of_mem hmem]
    unfold count
    omega
  · rename_i hu
    rw [destroy, if_neg hu]

section Construct

variable [Inhabited T]

theorem view_construct (h : p.Ok) :
    (p.construct k).view = Function.update p.view k (some ((p.view k).getD default)) := by
  unfold construct
  split
  · rename_i hu
    have hsome := h.isSome_view (k := k)
    rw [hu, Option.isSome_iff_exists] at hsome
    obtain ⟨t, ht⟩ := hsome
    rw [ht, Option.getD_some, ← ht, Function.update_eq_self]
  · rename_i hu
    rw [view_set]
    simp [view, hu]

theorem Ok.construct (h : p.Ok) (hk : k < p.size) : (p.construct k).Ok := by
  unfold Page.construct
  split
  · exact h
  · exact h.set hk

theorem count_construct (hk : k < p.size) :
    (p.construct k).count = if p.isUsed k then p.count else p.count + 1 := by
  unfold construct
  split
  · rfl
  · rename_i hu
    rw [count_set hk, if_neg hu]

end Construct

/-! ## The two searches -/

/-- The bit at an offset of a bitmap, whatever the number of its words. -/
theorem test_split {bmap : Nat → BitVec 64} {n : Nat} {P : Nat → Prop}
    (hlow : ∀ j < 64 * n, P j → test (bmap (j / 64)) (j % 64) = false)
    (hword : ∀ i < 64, P (64 * n + i) → test (bmap n) i = false) :
    ∀ j < 64 * (n + 1), P j → test (bmap (j / 64)) (j % 64) = false := by
  intro j hj hP
  by_cases hlt : j < 64 * n
  · exact hlow j hlt hP
  · obtain ⟨i, hi, rfl⟩ : ∃ i < 64, j = 64 * n + i := ⟨j - 64 * n, by omega, by omega⟩
    rw [show (64 * n + i) / 64 = n by omega, show (64 * n + i) % 64 = i by omega]
    exact hword i hi hP

theorem lastFreeLoop_spec (bmap : Nat → BitVec 64) (n ret : Nat) :
    (∀ j < 64 * n, lastFreeLoop bmap n ret ≤ j → test (bmap (j / 64)) (j % 64) = false) ∧
    (0 < n → lastFreeLoop bmap n ret = 0 ∨
      test (bmap ((lastFreeLoop bmap n ret - 1) / 64)) ((lastFreeLoop bmap n ret - 1) % 64) =
        true) := by
  induction n generalizing ret with
  | zero => exact ⟨fun j hj => by omega, fun h => by omega⟩
  | succ n ih =>
    -- a word without a set bit sends the search to the word below
    have hskip : (∀ i < 64, test (bmap n) i = false) →
        (∀ j < 64 * (n + 1), lastFreeLoop bmap n (n * 64) ≤ j →
          test (bmap (j / 64)) (j % 64) = false) ∧
        (0 < n + 1 → lastFreeLoop bmap n (n * 64) = 0 ∨
          test (bmap ((lastFreeLoop bmap n (n * 64) - 1) / 64))
            ((lastFreeLoop bmap n (n * 64) - 1) % 64) = true) := by
      intro hclear
      obtain ⟨h1, h2⟩ := ih (n * 64)
      refine ⟨test_split h1 fun i hi _ => hclear i hi, fun _ => ?_⟩
      rcases Nat.eq_zero_or_pos n with rfl | hn
      · exact .inl rfl
      · exact h2 hn
    unfold lastFreeLoop
    split
    · rename_i h0
      exact hskip fun i _ => by rw [h0, test_zero]
    · cases hs : scanDown byteLastFree (bmap n) 8 with
      | none =>
        exact hskip fun i hi => scanDown_none highTable_byteLastFree hs i (by omega)
      | some r =>
        obtain ⟨hpos, hle, hbit, hclear⟩ := scanDown_some highTable_byteLastFree hs
        refine ⟨test_split (fun j hj hr => ?_) fun i hi hr => hclear i (by omega) ?_, fun _ => ?_⟩
        · dsimp only at hr; omega
        · dsimp only at hr; omega
        · refine .inr ?_
          dsimp only
          rw [show (n * 64 + r - 1) / 64 = n by omega, show (n * 64 + r - 1) % 64 = r - 1 by omega]
          exact hbit

/-- **The last free place** comes right after the last used one. -/
theorem Ok.lastFree_spec (h : p.Ok) :
    (∀ k, p.lastFree ≤ k → p.isUsed k = false) ∧
      (p.lastFree = 0 ∨ p.isUsed (p.lastFree - 1) = true) := by
  obtain ⟨h1, h2⟩ := lastFreeLoop_spec p.bmap p.mul.toNat p.size
  constructor
  · intro k hk
    by_cases hlt : k < 64 * p.mul.toNat
    · exact h1 k hlt hk
    · exact h.beyond k (Nat.le_trans size_le (by omega))
  · rcases Nat.eq_zero_or_pos p.mul.toNat with h0 | hpos
    · refine .inl ?_
      have := size_le (p := p)
      rw [lastFree, h0, lastFreeLoop]
      omega
    · exact h2 hpos

theorem Ok.lastFree_le (h : p.Ok) : p.lastFree ≤ p.size := by
  rcases h.lastFree_spec.2 with h0 | hu
  · omega
  · have := h.lt_size hu
    omega

theorem lastFree_mulAlloc {m : UInt32} : (mulAlloc m : Page T).lastFree = 0 := by
  rcases (ok_mulAlloc (T := T) (m := m)).lastFree_spec.2 with h0 | hu
  · exact h0
  · rw [isUsed_mulAlloc] at hu; cases hu

theorem firstFreeLoop_spec (bmap : Nat → BitVec 64) (n : Nat) :
    ∀ i ret, (n = 0 → ret = 64 * i) →
      (∀ j, 64 * i ≤ j → j < firstFreeLoop bmap n i ret →
        test (bmap (j / 64)) (j % 64) = true) ∧
      64 * i ≤ firstFreeLoop bmap n i ret ∧ firstFreeLoop bmap n i ret ≤ 64 * (i + n) ∧
      (firstFreeLoop bmap n i ret < 64 * (i + n) →
        test (bmap (firstFreeLoop bmap n i ret / 64)) (firstFreeLoop bmap n i ret % 64) =
          false) := by
  induction n with
  | zero =>
    intro i ret hret
    have := hret rfl
    simp only [firstFreeLoop]
    exact ⟨fun j _ _ => by omega, by omega, by omega, fun _ => by omega⟩
  | succ n ih =>
    intro i ret _
    -- a word without a clear bit sends the search to the word above
    have hskip : ∀ ret', (n = 0 → ret' = 64 * (i + 1)) → (∀ b < 64, test (bmap i) b = true) →
        (∀ j, 64 * i ≤ j → j < firstFreeLoop bmap n (i + 1) ret' →
          test (bmap (j / 64)) (j % 64) = true) ∧
        64 * i ≤ firstFreeLoop bmap n (i + 1) ret' ∧
        firstFreeLoop bmap n (i + 1) ret' ≤ 64 * (i + (n + 1)) ∧
        (firstFreeLoop bmap n (i + 1) ret' < 64 * (i + (n + 1)) →
          test (bmap (firstFreeLoop bmap n (i + 1) ret' / 64))
            (firstFreeLoop bmap n (i + 1) ret' % 64) = false) := by
      intro ret' hret' hset
      obtain ⟨h1, h2, h3, h4⟩ := ih (i + 1) ret' hret'
      refine ⟨fun j hj hr => ?_, by omega, by omega, fun hlt => h4 (by omega)⟩
      by_cases hlt : 64 * (i + 1) ≤ j
      · exact h1 j hlt hr
      · rw [show j / 64 = i by omega]
        exact hset _ (by omega)
    unfold firstFreeLoop
    split
    · rename_i hall
      exact hskip _ (fun _ => by omega) fun b hb => by rw [hall]; exact test_allOnes hb
    · rename_i hne
      cases hs : scanUp byteFirstFree (bmap i) 0 8 with
      | none =>
        -- a word that is not all ones has a clear bit
        refine absurd ?_ hne
        apply BitVec.eq_of_getLsbD_eq
        intro b hb
        rw [← test_eq, ← test_eq, test_allOnes hb]
        exact scanUp_none lowTable_byteFirstFree hs b (by omega) (by omega)
      | some r =>
        obtain ⟨-, hr, hbit, hset⟩ := scanUp_some lowTable_byteFirstFree hs
        dsimp only
        refine ⟨fun j hj hjr => ?_, by omega, by omega, fun _ => ?_⟩
        · rw [show j / 64 = i by omega]
          exact hset _ (by omega) (by omega)
        · rw [show (i * 64 + r) / 64 = i by omega, show (i * 64 + r) % 64 = r by omega]
          exact hbit

/-- **The first free place**: every place before it is used, and it is not, if it is a place
    of the page at all. -/
theorem Ok.firstFree_spec (h : p.Ok) :
    (∀ k < p.firstFree, p.isUsed k = true) ∧ p.firstFree ≤ p.size ∧
      (p.firstFree < p.size → p.isUsed p.firstFree = false) := by
  obtain ⟨h1, -, h3, h4⟩ := firstFreeLoop_spec p.bmap p.mul.toNat 0 p.size fun h0 => by
    have := size_le (p := p)
    omega
  have hall : ∀ k < p.firstFree, p.isUsed k = true := fun k hk => h1 k (Nat.zero_le _) hk
  have hle : p.firstFree ≤ p.size := by
    by_cases hlt : p.size < p.firstFree
    · have := h.beyond p.size (Nat.le_refl _)
      rw [hall _ hlt] at this
      cases this
    · omega
  refine ⟨hall, hle, fun hlt => h4 ?_⟩
  have := size_le (p := p)
  unfold firstFree at hlt
  omega

end Page

namespace Inpvec

variable {T : Type u} {v v' : Inpvec T} {k i o : Nat} {it : Iter} {p : Page T} {t : T}

/-! ## Positions -/

theorem pageAt_eq {ps : List (Page T)} : ∀ {i m : Nat}, m ≤ k →
    pageAt k ps i m = (locate (ps.map Page.size) (k - m)).map fun x => ⟨i + x.1, x.2⟩ := by
  induction ps with
  | nil => intro i m _; rfl
  | cons p ps ih =>
    intro i m hm
    unfold pageAt
    dsimp only
    rw [List.map_cons, locate]
    by_cases hk : k ≥ m + p.size
    · rw [if_pos hk, if_neg (by omega), ih hk, Option.map_map,
        show k - (m + p.size) = k - m - p.size by omega]
      congr 1
      funext x
      simp only [Function.comp_apply, Ptr.mk.injEq, and_true]
      omega
    · rw [if_neg hk, if_pos (by omega), Option.map_some]
      simp only [Option.some.injEq, Ptr.mk.injEq]
      omega

theorem pageAt_pages :
    pageAt k v.pages 0 0 = (locate v.sizes k).map fun x => ⟨x.1, x.2⟩ := by
  rw [pageAt_eq (Nat.zero_le _), Nat.sub_zero]
  simp [sizes]

/-- The item `get_ptr` leads to. -/
def view (v : Inpvec T) (k : Nat) : Option T := (v.getPtr k).bind v.deref

theorem view_of_none (h : locate v.sizes k = none) : v.view k = none := by
  rw [view, getPtr, pageAt_pages, h]; rfl

theorem view_of_some (h : locate v.sizes k = some (i, o)) (hp : v.pages[i]? = some p) :
    v.view k = p.view o := by
  rw [view, getPtr, pageAt_pages, h]
  simp only [Option.map_some, isUsed, hp, Page.view]
  split
  · simp [deref, hp]
  · rfl

theorem getElem?_of_locate (h : locate v.sizes k = some (i, o)) :
    ∃ p, v.pages[i]? = some p ∧ o < p.size ∧ k = base v.sizes i + o := by
  obtain ⟨n, hn, ho, hk⟩ := locate_eq_some.mp h
  rw [sizes, List.getElem?_map, Option.map_eq_some_iff] at hn
  obtain ⟨p, hp, rfl⟩ := hn
  exact ⟨p, hp, ho, hk⟩

/-- An iterator that stands on a place of page `i`. -/
structure Valid (v : Inpvec T) (it : Iter) (i : Nat) (p : Page T) : Prop where
  page : it.page = some i
  get : v.pages[i]? = some p
  pos_lt : it.pos < p.size
  gpos : it.gpos = base v.sizes i + it.pos

theorem Valid.locate (h : Valid v it i p) : locate v.sizes it.gpos = some (i, it.pos) :=
  locate_eq_some.mpr ⟨p.size, by rw [sizes, List.getElem?_map, h.get]; rfl, h.pos_lt, h.gpos⟩

theorem Valid.view (h : Valid v it i p) : v.view it.gpos = p.view it.pos :=
  view_of_some h.locate h.get

theorem valid_of_locate (h : Segments.locate v.sizes k = some (i, o)) :
    ∃ p, Valid v ⟨some i, o, k⟩ i p := by
  obtain ⟨p, hp, ho, hk⟩ := getElem?_of_locate h
  exact ⟨p, rfl, hp, ho, hk⟩

/-- The place a position stands for, in use or not. -/
def addr (v : Inpvec T) (k : Nat) : Option Ptr := pageAt k v.pages 0 0

theorem addr_eq_some {x : Ptr} : v.addr k = some x ↔ locate v.sizes k = some (x.page, x.off) := by
  rw [addr, pageAt_pages, Option.map_eq_some_iff]
  constructor
  · rintro ⟨y, hy, rfl⟩; exact hy
  · exact fun h => ⟨_, h, rfl⟩

/-- A place stands for one position only. -/
theorem addr_inj {j : Nat} {x : Ptr} (hj : v.addr j = some x) (hk : v.addr k = some x) : j = k := by
  obtain ⟨_, -, -, h1⟩ := locate_eq_some.mp (addr_eq_some.mp hj)
  obtain ⟨_, -, -, h2⟩ := locate_eq_some.mp (addr_eq_some.mp hk)
  rw [h1, h2]

theorem addr_congr (h : v'.sizes = v.sizes) : v'.addr k = v.addr k := by
  rw [addr, addr, pageAt_pages, pageAt_pages, h]

theorem Valid.addr (h : Valid v it i p) : v.addr it.gpos = some ⟨i, it.pos⟩ :=
  addr_eq_some.mpr h.locate

/-- A place of the vector, as an iterator. -/
theorem valid_of_addr {x : Ptr} (h : v.addr k = some x) :
    ∃ p, Valid v ⟨some x.page, x.off, k⟩ x.page p := valid_of_locate (addr_eq_some.mp h)

/-- A position in use has a place, and the item is there. -/
theorem addr_of_view (h : v.view k = some t) : ∃ x, v.addr k = some x ∧ v.deref x = some t := by
  rw [view, Option.bind_eq_some_iff] at h
  obtain ⟨x, hx, ht⟩ := h
  refine ⟨x, ?_, ht⟩
  unfold getPtr at hx
  rw [addr]
  split at hx
  · rename_i y hy
    split at hx
    · rw [hy]; exact hx
    · cases hx
  · cases hx

theorem deref_of_addr {x : Ptr} (hx : v.addr k = some x) (h : v.view k = some t) :
    v.deref x = some t := by
  obtain ⟨y, hy, ht⟩ := addr_of_view h
  rw [hx, Option.some.injEq] at hy
  subst hy
  exact ht

/-- `x` is a pointer to the place of an item, and `t` is that item. -/
def Stands (v : Inpvec T) (x : Ptr) (t : T) : Prop := ∃ k, v.addr k = some x ∧ v.view k = some t

theorem Stands.deref {x : Ptr} (h : v.Stands x t) : v.deref x = some t := by
  obtain ⟨k, hx, ht⟩ := h
  exact deref_of_addr hx ht

theorem Stands.fun {x : Ptr} {t' : T} (h : v.Stands x t) (h' : v.Stands x t') : t = t' :=
  Option.some.inj (h.deref.symm.trans h'.deref)

/-! ## The invariant -/

/-- The number of set bits in all pages. -/
def count (v : Inpvec T) : Nat := (v.pages.map Page.count).sum

structure Ok (v : Inpvec T) : Prop where
  pages : ∀ p ∈ v.pages, p.Ok
  nItems : v.nItems = v.count

theorem ok_init : (init : Inpvec T).Ok where
  pages p hp := by
    rw [List.mem_singleton.mp hp]; exact Page.ok_mulAlloc
  nItems := by simp [init, count, Page.count_mulAlloc]

theorem view_init : (init : Inpvec T).view k = none := by
  cases hl : locate (init : Inpvec T).sizes k with
  | none => exact view_of_none hl
  | some x =>
    obtain ⟨p, hp, -, -⟩ := getElem?_of_locate hl
    rw [view_of_some hl hp, List.mem_singleton.mp (List.mem_of_getElem? hp), Page.view_mulAlloc]

theorem Ok.tail (h : v.Ok) : v.tail.Ok := h.pages _ (List.getLast_mem _)

theorem Ok.getElem? (h : v.Ok) (hp : v.pages[i]? = some p) : p.Ok :=
  h.pages p (List.mem_of_getElem? hp)

/-- `get_ptr` is null exactly where there is no item. -/
theorem Ok.isSome_getPtr (h : v.Ok) : (v.getPtr k).isSome = (v.view k).isSome := by
  cases hl : locate v.sizes k with
  | none => rw [view_of_none hl, getPtr, pageAt_pages, hl]; rfl
  | some x =>
    obtain ⟨p, hp, -, -⟩ := getElem?_of_locate hl
    rw [view_of_some hl hp, (h.getElem? hp).isSome_view, getPtr, pageAt_pages, hl]
    simp only [Option.map_some, isUsed, hp]
    cases p.isUsed x.2 <;> rfl

/-- `get_ptr` gives the place of a position in use. -/
theorem Ok.getPtr_eq (h : v.Ok) : v.getPtr k = if (v.view k).isSome then v.addr k else none := by
  have hsome := h.isSome_getPtr (k := k)
  cases hv : v.view k with
  | none =>
    rw [hv] at hsome
    simpa using hsome
  | some t =>
    obtain ⟨x, hx, -⟩ := addr_of_view hv
    rw [hv, Option.isSome_some, Option.isSome_iff_exists] at hsome
    obtain ⟨y, hy⟩ := hsome
    rw [Option.isSome_some, if_pos rfl, hy]
    unfold getPtr at hy
    rw [addr]
    split at hy
    · rename_i z hz
      split at hy
      · rw [hz, hy]
      · cases hy
    · cases hy

/-! ## Changing one place -/

/-- The sum over a list with one entry changed. -/
theorem sum_map_modify {α : Type u} {f : α → α} {g : α → Nat} {x : α} :
    ∀ {l : List α} {i : Nat}, l[i]? = some x →
      ((l.modify i f).map g).sum + g x = (l.map g).sum + g (f x)
  | [], i, h => by simp at h
  | y :: l, 0, h => by
    simp only [List.getElem?_cons_zero, Option.some.injEq] at h
    subst h
    simp only [List.modify_zero_cons, List.map_cons, List.sum_cons]
    omega
  | y :: l, i + 1, h => by
    simp only [List.getElem?_cons_succ] at h
    have := sum_map_modify (f := f) (g := g) h
    simp only [List.modify_succ_cons, List.map_cons, List.sum_cons]
    omega

theorem getElem?_onPage {f : Page T → Page T} {hf : ∀ p, (f p).mul = p.mul} {n j : Nat} :
    (v.onPage i f hf n).pages[j]? =
      if i = j then v.pages[j]?.map f else v.pages[j]? := by
  rw [onPage, List.getElem?_modify]
  by_cases hij : i = j <;> simp [hij]

@[simp] theorem sizes_onPage {f : Page T → Page T} {hf : ∀ p, (f p).mul = p.mul} {n : Nat} :
    (v.onPage i f hf n).sizes = v.sizes := by
  apply List.ext_getElem?
  intro j
  rw [sizes, sizes, List.getElem?_map, List.getElem?_map, getElem?_onPage]
  split
  · cases v.pages[j]? with
    | none => rfl
    | some p => simp [Page.size, hf]
  · rfl

/-- A change of one page that sets what is at one offset sets what is at one position. -/
theorem view_onPage {f : Page T → Page T} {hf : ∀ p, (f p).mul = p.mul} {n : Nat} {x : Option T}
    (h : Valid v it i p) (hx : (f p).view = Function.update p.view it.pos x) :
    (v.onPage i f hf n).view = Function.update v.view it.gpos x := by
  funext k
  cases hl : Segments.locate v.sizes k with
  | none =>
    have hne : k ≠ it.gpos := by rintro rfl; rw [h.locate] at hl; cases hl
    rw [Function.update_of_ne hne, view_of_none hl, view_of_none (by rw [sizes_onPage, hl])]
  | some y =>
    obtain ⟨j, o⟩ := y
    obtain ⟨q, hq, -, hk⟩ := getElem?_of_locate hl
    have hl' : Segments.locate (v.onPage i f hf n).sizes k = some (j, o) := by
      rw [sizes_onPage, hl]
    by_cases hij : i = j
    · subst hij
      obtain rfl : p = q := Option.some.inj (h.get.symm.trans hq)
      rw [view_of_some hl' (by rw [getElem?_onPage, if_pos rfl, hq]; rfl), hx]
      by_cases ho : o = it.pos
      · subst ho
        rw [← h.gpos] at hk
        subst hk
        rw [Function.update_self, Function.update_self]
      · have hne : k ≠ it.gpos := by rw [h.gpos, hk]; omega
        rw [Function.update_of_ne ho, Function.update_of_ne hne, view_of_some hl hq]
    · have hne : k ≠ it.gpos := by
        rintro rfl
        rw [h.locate] at hl
        cases hl
        exact hij rfl
      rw [Function.update_of_ne hne, view_of_some hl hq,
        view_of_some hl' (by rw [getElem?_onPage, if_neg hij, hq])]

theorem Ok.onPage {f : Page T → Page T} {hf : ∀ p, (f p).mul = p.mul} {n : Nat} (h : v.Ok)
    (hp : v.pages[i]? = some p) (hfp : (f p).Ok) (hn : n + p.count = v.nItems + (f p).count) :
    (v.onPage i f hf n).Ok where
  pages q hq := by
    obtain ⟨j, hj⟩ := List.mem_iff_getElem?.mp hq
    rw [getElem?_onPage] at hj
    split at hj
    · rename_i hij
      rw [← hij, hp] at hj
      cases hj
      exact hfp
    · exact h.getElem? hj
  nItems := by
    have := sum_map_modify (f := f) (g := Page.count) hp
    have hv := h.nItems
    simp only [count] at hv
    simp only [count, Inpvec.onPage]
    omega

theorem isUsed_ptr (h : Valid v it i p) : v.isUsed ⟨i, it.pos⟩ = p.isUsed it.pos := by
  simp [isUsed, h.get]

theorem iterSet_spec (hok : v.Ok) (h : Valid v it i p) :
    (v.iterSet it t).1.view = Function.update v.view it.gpos (some t) ∧
      (v.iterSet it t).1.Ok ∧ (v.iterSet it t).2 = some ⟨i, it.pos⟩ := by
  have hp := hok.getElem? h.get
  unfold iterSet
  rw [h.page]
  dsimp only
  refine ⟨view_onPage h Page.view_set, hok.onPage h.get (hp.set h.pos_lt) ?_, rfl⟩
  rw [isUsed_ptr h, Page.count_set h.pos_lt]
  split <;> omega

theorem iterConstruct_spec [Inhabited T] (hok : v.Ok) (h : Valid v it i p) :
    (v.iterConstruct it).1.view =
        Function.update v.view it.gpos (some ((v.view it.gpos).getD default)) ∧
      (v.iterConstruct it).1.Ok ∧ (v.iterConstruct it).2 = some ⟨i, it.pos⟩ := by
  have hp := hok.getElem? h.get
  unfold iterConstruct
  rw [h.page]
  dsimp only
  refine ⟨view_onPage h ?_, hok.onPage h.get (hp.construct h.pos_lt) ?_, rfl⟩
  · rw [Page.view_construct hp, h.view]
  · rw [isUsed_ptr h, Page.count_construct h.pos_lt]
    split <;> omega

theorem iterFree_spec (hok : v.Ok) (h : Valid v it i p) :
    (v.iterFree it).view = Function.update v.view it.gpos none ∧ (v.iterFree it).Ok := by
  have hp := hok.getElem? h.get
  have hle : p.count ≤ v.nItems := by
    rw [hok.nItems]
    exact List.single_le_sum (fun _ _ => Nat.zero_le _) _
      (List.mem_map_of_mem (List.mem_of_getElem? h.get))
  unfold iterFree
  rw [h.page]
  dsimp only
  refine ⟨view_onPage h Page.view_destroy, hok.onPage h.get hp.destroy ?_⟩
  rw [isUsed_ptr h]
  have := Page.count_destroy h.pos_lt
  cases hu : p.isUsed it.pos with
  | true =>
    rw [hu, if_pos rfl] at this
    rw [if_pos rfl]
    omega
  | false =>
    rw [hu, if_neg (by decide)] at this
    rw [if_neg (by decide)]
    omega

theorem sizes_iterSet : (v.iterSet it t).1.sizes = v.sizes := by
  unfold iterSet
  split
  · rfl
  · dsimp only; rw [sizes_onPage]

theorem sizes_iterConstruct [Inhabited T] : (v.iterConstruct it).1.sizes = v.sizes := by
  unfold iterConstruct
  split
  · rfl
  · dsimp only; rw [sizes_onPage]

theorem sizes_iterFree : (v.iterFree it).sizes = v.sizes := by
  unfold iterFree
  split
  · rfl
  · rw [sizes_onPage]

/-- Writing through a pointer to an item changes the item and nothing else. -/
theorem poke_spec {x : Ptr} {f : T → T} (hok : v.Ok) (hx : v.addr k = some x)
    (ht : v.view k = some t) :
    (v.poke x f).view = Function.update v.view k (some (f t)) ∧ (v.poke x f).Ok ∧
      (v.poke x f).sizes = v.sizes ∧ (v.poke x f).nItems = v.nItems := by
  obtain ⟨p, hv⟩ := valid_of_addr hx
  have hview := hv.view
  dsimp only at hview
  have hp := hok.getElem? hv.get
  refine ⟨view_onPage hv ?_, hok.onPage hv.get hp.poke rfl, sizes_onPage, rfl⟩
  rw [Page.view_poke, ← hview, ht]
  rfl

/-! ## Adding pages -/

/-- `v'` is `v` with new, empty pages behind. -/
structure Extends (v v' : Inpvec T) : Prop where
  pages : ∃ ms : List UInt32, v'.pages = v.pages ++ ms.map Page.mulAlloc
  nItems : v'.nItems = v.nItems

theorem Extends.refl : Extends v v := ⟨⟨[], by simp⟩, rfl⟩

theorem Extends.trans {v'' : Inpvec T} (h : Extends v v') (h' : Extends v' v'') :
    Extends v v'' := by
  obtain ⟨ms, hms⟩ := h.pages
  obtain ⟨ms', hms'⟩ := h'.pages
  exact ⟨⟨ms ++ ms', by rw [hms', hms, List.map_append, List.append_assoc]⟩,
    h'.nItems.trans h.nItems⟩

theorem Extends.view (h : Extends v v') : v'.view = v.view := by
  obtain ⟨ms, hms⟩ := h.pages
  have hsizes : v'.sizes = v.sizes ++ ms.map fun m => (Page.mulAlloc m : Page T).size := by
    simp [sizes, hms]
  funext k
  by_cases hk : k < v.sizes.sum
  · cases hl : locate v.sizes k with
    | none => rw [locate_eq_none] at hl; omega
    | some x =>
      obtain ⟨p, hp, -, -⟩ := getElem?_of_locate hl
      have hi : x.1 < v.pages.length := (List.getElem?_eq_some_iff.mp hp).1
      rw [view_of_some hl hp, view_of_some (by rw [hsizes, locate_append hk, hl])
        (by rw [hms, List.getElem?_append_left hi, hp])]
  · rw [view_of_none (locate_eq_none.mpr (by omega) : locate v.sizes k = none)]
    cases hl : locate v'.sizes k with
    | none => exact view_of_none hl
    | some x =>
      -- the position is in one of the new pages
      obtain ⟨i, o⟩ := x
      obtain ⟨p, hp, ho, hkb⟩ := getElem?_of_locate hl
      rw [view_of_some hl hp]
      rw [hms] at hp
      by_cases hi : i < v.pages.length
      · rw [List.getElem?_append_left hi] at hp
        have hsz : v.sizes[i]? = some p.size := by rw [sizes, List.getElem?_map, hp]; rfl
        have hloc : locate v.sizes k = some (i, o) := by
          refine locate_eq_some.mpr ⟨_, hsz, ho, ?_⟩
          rw [hkb, hsizes, base_append (by simp [sizes]; omega)]
        exact absurd (lt_sum_of_locate hloc) hk
      · rw [List.getElem?_append_right (by omega)] at hp
        obtain ⟨m, -, rfl⟩ := List.mem_map.mp (List.mem_of_getElem? hp)
        exact Page.view_mulAlloc

/-- Places stay where they are. -/
theorem Extends.addr {x : Ptr} (h : Extends v v') (hx : v.addr k = some x) :
    v'.addr k = some x := by
  obtain ⟨ms, hms⟩ := h.pages
  have hsizes : v'.sizes = v.sizes ++ ms.map fun m => (Page.mulAlloc m : Page T).size := by
    simp [sizes, hms]
  rw [addr_eq_some] at hx ⊢
  rw [hsizes, locate_append (lt_sum_of_locate hx), hx]

theorem Extends.ok (h : Extends v v') (hok : v.Ok) : v'.Ok := by
  obtain ⟨ms, hms⟩ := h.pages
  constructor
  · intro p hp
    rw [hms, List.mem_append] at hp
    rcases hp with hp | hp
    · exact hok.pages p hp
    · obtain ⟨m, -, rfl⟩ := List.mem_map.mp hp
      exact Page.ok_mulAlloc
  · have hzero : ((ms.map Page.mulAlloc).map (Page.count (T := T))).sum = 0 := by
      rw [List.map_map, List.sum_eq_zero_iff_forall_eq_nat]
      intro x hx
      obtain ⟨m, -, rfl⟩ := List.mem_map.mp hx
      exact Page.count_mulAlloc
    rw [h.nItems, hok.nItems, count, count, hms, List.map_append, List.sum_append, hzero,
      Nat.add_zero]

theorem allocate_some {m : UInt32} (h : v.allocate m = some v') :
    v'.pages = v.pages ++ [Page.mulAlloc m] ∧ v'.nItems = v.nItems := by
  unfold allocate at h
  split at h
  · cases h; exact ⟨rfl, rfl⟩
  · cases h

theorem allocate_extends {m : UInt32} (h : v.allocate m = some v') : Extends v v' :=
  ⟨⟨[m], (allocate_some h).1⟩, (allocate_some h).2⟩

/-- The first place of a page just added, if it has any. -/
theorem valid_allocate {m : UInt32} (h : v.allocate m = some v') (hm : m * 64 ≠ 0) :
    Valid v' ⟨some v.pages.length, 0, v.size⟩ v.pages.length (Page.mulAlloc m) where
  page := rfl
  get := by rw [(allocate_some h).1]; simp
  pos_lt := by
    have : (m * 64).toNat ≠ 0 := fun h0 => hm (UInt32.toNat_inj.mp h0)
    show 0 < (m * 64).toNat
    omega
  gpos := by
    have hs : v'.sizes = v.sizes ++ [(Page.mulAlloc m : Page T).size] := by
      simp [sizes, (allocate_some h).1]
    have hlen : v.pages.length = v.sizes.length := by simp [sizes]
    show v.size = base v'.sizes v.pages.length + 0
    rw [hs, hlen, base_append (Nat.le_refl _), base_length, Nat.add_zero, size]

/-- **`force_iterator_at`**, when it returns, stands on the position asked for, and has changed
    nothing but the room. -/
theorem forceIteratorAt_spec {fuel : Nat} :
    ∀ {v v' : Inpvec T}, v.forceIteratorAt k fuel = some (v', it) →
      Extends v v' ∧ it.gpos = k ∧ ∃ i p, Valid v' it i p := by
  induction fuel with
  | zero => intro v v' h; cases h
  | succ fuel ih =>
    intro v v' h
    unfold forceIteratorAt at h
    rw [pageAt_pages] at h
    cases hl : locate v.sizes k with
    | some x =>
      rw [hl] at h
      simp only [Option.map_some, Option.some.injEq, Prod.mk.injEq] at h
      obtain ⟨rfl, rfl⟩ := h
      exact ⟨.refl, rfl, x.1, valid_of_locate hl⟩
    | none =>
      rw [hl] at h
      simp only [Option.map_none] at h
      split at h
      · rename_i w hw
        obtain ⟨he, hg, hv⟩ := ih h
        exact ⟨(allocate_extends hw).trans he, hg, hv⟩
      · cases h

theorem forceIteratorAt_mono {r : Inpvec T × Iter} {n m : Nat} (hle : n ≤ m) :
    ∀ {v : Inpvec T}, v.forceIteratorAt k n = some r → v.forceIteratorAt k m = some r := by
  induction n generalizing m with
  | zero => intro v h; cases h
  | succ n ih =>
    intro v h
    obtain ⟨m, rfl⟩ : ∃ m', m = m' + 1 := ⟨m - 1, by omega⟩
    unfold forceIteratorAt at h ⊢
    split at h
    · exact h
    · dsimp only at h ⊢
      split at h
      · exact ih (by omega) h
      · cases h

theorem size_allocate {m : UInt32} (h : v.allocate m = some v') :
    v'.size = v.size + (m * 64).toNat := by
  simp [sizes, size, (allocate_some h).1, Page.size, Page.mulAlloc]

/-- No page that it adds has `2 ^ 32` places, and it adds none that it does not need. -/
theorem size_forceIteratorAt {fuel : Nat} :
    ∀ {v v' : Inpvec T}, v.forceIteratorAt k fuel = some (v', it) →
      v'.size ≤ max v.size (k + 2 ^ 32) := by
  induction fuel with
  | zero => intro v v' h; cases h
  | succ fuel ih =>
    intro v v' h
    unfold forceIteratorAt at h
    rw [pageAt_pages] at h
    cases hl : locate v.sizes k with
    | some x =>
      rw [hl] at h
      simp only [Option.map_some, Option.some.injEq, Prod.mk.injEq] at h
      rw [h.1]
      exact Nat.le_max_left _ _
    | none =>
      rw [hl] at h
      simp only [Option.map_none] at h
      have hk : v.size ≤ k := locate_eq_none.mp hl
      split at h
      · rename_i w hw
        have hnew := size_allocate hw
        have hlt := UInt32.toNat_lt (
          (if (v.tail.mul + 2).toNat < (k - v.size) / 64 + 2 then UInt32.ofNat ((k - v.size) / 64 + 2)
            else v.tail.mul + 2) * 64)
        have := ih h
        omega
      · cases h

/-- It does return when the page it has to add is not too large for 32-bit arithmetic, and then that
    is the only one. -/
theorem forceIteratorAt_returns (hk : k < v.size + (2 ^ 32 - 128)) (htail : v.tail.mul.toNat < 2 ^ 26 - 2)
    (hsize : v.size < 2 ^ 63) : ∃ r, v.forceIteratorAt k 2 = some r ∧
      r.1.tail.mul.toNat ≤ max (v.tail.mul.toNat + 2) ((k - v.size) / 64 + 2) := by
  unfold forceIteratorAt
  rw [pageAt_pages]
  cases hl : locate v.sizes k with
  | some x => exact ⟨_, rfl, by dsimp only; omega⟩
  | none =>
    simp only [Option.map_none]
    have hle : v.size ≤ k := locate_eq_none.mp hl
    have hadd : (v.tail.mul + 2).toNat = v.tail.mul.toNat + 2 := by
      rw [UInt32.toNat_add]
      have : UInt32.toNat 2 = 2 := rfl
      omega
    -- the new page reaches past the position and is smaller than `2 ^ 32`
    have hnew : ∀ m : UInt32, m.toNat < 2 ^ 26 → k < v.size + 64 * m.toNat →
        ∃ v' r, v.allocate m = some v' ∧ v'.forceIteratorAt k 1 = some r ∧ r.1.tail.mul = m := by
      intro m hm hkm
      have hmul : (m * 64).toNat = 64 * m.toNat := by
        have h64 : UInt32.toNat 64 = 64 := rfl
        rw [UInt32.toNat_mul, h64]
        omega
      cases ha : v.allocate m with
      | none =>
        unfold allocate at ha
        split at ha
        · cases ha
        · omega
      | some v' =>
        have hs : v'.sizes.sum = v.size + 64 * m.toNat := by
          rw [← hmul]
          exact size_allocate ha
        refine ⟨v', ?_⟩
        unfold forceIteratorAt
        rw [pageAt_pages]
        cases hl' : locate v'.sizes k with
        | some x =>
          refine ⟨_, rfl, rfl, ?_⟩
          simp [tail, (allocate_some ha).1, Page.mulAlloc]
        | none => rw [locate_eq_none] at hl'; omega
    by_cases hlt : (v.tail.mul + 2).toNat < (k - v.size) / 64 + 2
    · rw [if_pos hlt]
      have hof : (UInt32.ofNat ((k - v.size) / 64 + 2)).toNat = (k - v.size) / 64 + 2 := by
        rw [UInt32.toNat_ofNat']
        omega
      obtain ⟨v', r, ha, hr, hm⟩ :=
        hnew (UInt32.ofNat ((k - v.size) / 64 + 2)) (by omega) (by omega)
      rw [ha]
      exact ⟨r, hr, by rw [hm, hof]; exact Nat.le_max_right _ _⟩
    · rw [if_neg hlt]
      obtain ⟨v', r, ha, hr, hm⟩ := hnew (v.tail.mul + 2) (by omega) (by omega)
      rw [ha]
      exact ⟨r, hr, by rw [hm, hadd]; exact Nat.le_max_left _ _⟩

/-! ## Free places -/

theorem tail_eq : v.pages[v.pages.length - 1]? = some v.tail := by
  rw [tail, ← List.getLast?_eq_getElem?, List.getLast?_eq_getLast_of_ne_nil v.pages_ne]

/-- **`last_free`** with room in the last page. -/
theorem lastFree_room (hok : v.Ok) (hne : v.tail.lastFree ≠ v.tail.size) :
    ∃ it, v.lastFree = some (v, it) ∧ Valid v it (v.pages.length - 1) v.tail ∧
      v.view it.gpos = none := by
  have hle := hok.tail.lastFree_le
  refine ⟨⟨some (v.pages.length - 1), v.tail.lastFree,
    v.tail.lastFree + base v.sizes (v.pages.length - 1)⟩, ?_, ?_, ?_⟩
  · simp only [lastFree, if_neg hne]
  · exact ⟨rfl, tail_eq, by dsimp only; omega, Nat.add_comm ..⟩
  · have hv : Valid v ⟨some (v.pages.length - 1), v.tail.lastFree,
        v.tail.lastFree + base v.sizes (v.pages.length - 1)⟩ (v.pages.length - 1) v.tail :=
      ⟨rfl, tail_eq, by dsimp only; omega, Nat.add_comm ..⟩
    rw [hv.view, Page.view, hok.tail.lastFree_spec.1 _ (Nat.le_refl _)]
    rfl

/-- `last_free` with the last page full adds a page. -/
theorem lastFree_full (heq : v.tail.lastFree = v.tail.size) :
    v.lastFree = (v.allocate (v.tail.mul + 2)).map fun v' =>
      (v', ⟨some v.pages.length, 0, v.size⟩) := by
  simp only [lastFree, if_pos heq]
  cases ha : v.allocate (v.tail.mul + 2) with
  | none => rfl
  | some v' =>
    have htail : v'.tail = Page.mulAlloc (v.tail.mul + 2) := by
      simp [tail, (allocate_some ha).1]
    simp only [Option.map_some, htail, Page.lastFree_mulAlloc]

theorem firstFreeLoop_some {ps : List (Page T)} : ∀ {i pos : Nat},
    firstFreeLoop ps i pos = some it → (∀ p ∈ ps, p.Ok) →
    ∃ j p, ps[j]? = some p ∧ it = ⟨some (i + j), p.firstFree, it.gpos⟩ ∧
      p.firstFree < p.size ∧ it.gpos = pos + base (ps.map Page.size) j + p.firstFree := by
  induction ps with
  | nil => intro i pos h; cases h
  | cons p ps ih =>
    intro i pos h hok
    have hp := (hok p (by simp)).firstFree_spec
    unfold firstFreeLoop at h
    dsimp only at h
    by_cases hne : p.firstFree ≠ p.size
    · rw [if_pos hne] at h
      cases h
      exact ⟨0, p, rfl, rfl, by omega, by simp⟩
    · rw [if_neg hne] at h
      obtain ⟨j, q, hq, hit, hlt, hg⟩ := ih h fun q hq => hok q (by simp [hq])
      refine ⟨j + 1, q, hq, ?_, hlt, ?_⟩
      · rw [show i + (j + 1) = i + 1 + j by omega]; exact hit
      · rw [List.map_cons, base_cons_succ]; omega

theorem firstFreeLoop_none {ps : List (Page T)} : ∀ {i pos : Nat},
    firstFreeLoop ps i pos = none ↔ ∀ p ∈ ps, p.firstFree = p.size := by
  induction ps with
  | nil => intro i pos; simp [firstFreeLoop]
  | cons p ps ih =>
    intro i pos
    unfold firstFreeLoop
    dsimp only
    by_cases hne : p.firstFree ≠ p.size
    · rw [if_pos hne]
      refine iff_of_false (by simp) fun h => hne (h p (by simp))
    · rw [if_neg hne, ih]
      have : p.firstFree = p.size := by omega
      simp [this]

/-- **`first_free`** with room in some page. -/
theorem firstFree_room (hok : v.Ok) (hne : ¬ ∀ p ∈ v.pages, p.firstFree = p.size) :
    ∃ it i p, v.firstFree = some (v, it) ∧ Valid v it i p ∧ v.view it.gpos = none := by
  cases hl : firstFreeLoop v.pages 0 0 with
  | none => exact absurd (firstFreeLoop_none.mp hl) hne
  | some it =>
    obtain ⟨j, p, hp, hit, hlt, hg⟩ := firstFreeLoop_some hl hok.pages
    rw [Nat.zero_add] at hit
    have hv : Valid v it j p :=
      ⟨by rw [hit], hp, by rw [hit]; exact hlt, by rw [hg, hit]; simp [sizes]⟩
    refine ⟨it, j, p, by simp only [firstFree, hl], hv, ?_⟩
    have hpos : it.pos = p.firstFree := by rw [hit]
    rw [hv.view, hpos, Page.view, (hok.getElem? hp).firstFree_spec.2.2 hlt]
    rfl

/-- `first_free` with every page full adds a page. -/
theorem firstFree_full (heq : ∀ p ∈ v.pages, p.firstFree = p.size) :
    v.firstFree = (v.allocate (v.tail.mul + 2)).map fun v' =>
      (v', ⟨some v.pages.length, 0, v.size⟩) := by
  simp only [firstFree, firstFreeLoop_none.mpr heq]

/-! ## `free_at` -/

theorem iteratorAt_cases (v : Inpvec T) (k : Nat) :
    (v.iteratorAt k = endIt ∧ (v.nItems = 0 ∨ locate v.sizes k = none)) ∨
      ∃ i p, Valid v (v.iteratorAt k) i p ∧ (v.iteratorAt k).gpos = k := by
  unfold iteratorAt
  split
  · rename_i h0; exact .inl ⟨rfl, .inl h0⟩
  · rw [pageAt_pages]
    cases hl : locate v.sizes k with
    | none => exact .inl ⟨rfl, .inr rfl⟩
    | some x =>
      obtain ⟨p, hv⟩ := valid_of_locate hl
      exact .inr ⟨x.1, p, hv, rfl⟩

/-- A vector that counts no items has none. -/
theorem Ok.view_eq_none (h : v.Ok) (h0 : v.nItems = 0) : v.view k = none := by
  cases hl : locate v.sizes k with
  | none => exact view_of_none hl
  | some x =>
    obtain ⟨p, hp, ho, -⟩ := getElem?_of_locate hl
    have hle : p.count ≤ v.nItems := by
      rw [h.nItems]
      exact List.single_le_sum (fun _ _ => Nat.zero_le _) _
        (List.mem_map_of_mem (List.mem_of_getElem? hp))
    rw [view_of_some hl hp, Page.view]
    split
    · rename_i hu
      have hmem : x.2 ∈ (Finset.range (64 * p.mul.toNat)).filter fun j => p.isUsed j = true :=
        Finset.mem_filter.mpr
          ⟨Finset.mem_range.mpr (Nat.lt_of_lt_of_le ho Page.size_le), hu⟩
      have := Finset.card_pos.mpr ⟨_, hmem⟩
      simp only [Page.count] at hle
      omega
    · rfl

theorem sizes_freeAt : (v.freeAt k).1.sizes = v.sizes := by
  unfold freeAt
  dsimp only
  split
  · exact sizes_iterFree
  · rfl

/-- **`free_at`** empties the position, and says whether there was something. -/
theorem freeAt_spec (hok : v.Ok) :
    (v.freeAt k).1.view = Function.update v.view k none ∧ (v.freeAt k).1.Ok ∧
      (v.freeAt k).2 = (v.view k).isSome := by
  have hsame : v.view k = none → Function.update v.view k none = v.view := fun h => by
    rw [← h, Function.update_eq_self]
  rcases iteratorAt_cases v k with ⟨he, hor⟩ | ⟨i, p, hv, hg⟩
  · have hnone : v.view k = none := by
      rcases hor with h0 | hl
      · exact hok.view_eq_none h0
      · exact view_of_none hl
    simp only [freeAt, he, ne_eq, not_true, false_and, if_false]
    exact ⟨(hsame hnone).symm, hok, by rw [hnone]; rfl⟩
  · have hne : v.iteratorAt k ≠ endIt := by
      intro he
      have := hv.page
      rw [he] at this
      cases this
    have hview : v.view k = p.view (v.iteratorAt k).pos := by
      rw [← hv.view, hg]
    have hemp : v.iterIsEmpty (v.iteratorAt k) = !p.isUsed (v.iteratorAt k).pos := by
      rw [iterIsEmpty, hv.page]
      simp only [isUsed_ptr hv]
    cases hu : p.isUsed (v.iteratorAt k).pos with
    | true =>
      have hc : v.iteratorAt k ≠ endIt ∧ v.iterIsEmpty (v.iteratorAt k) = false :=
        ⟨hne, by rw [hemp, hu]; rfl⟩
      simp only [freeAt, if_pos hc]
      obtain ⟨h1, h2⟩ := iterFree_spec hok hv
      rw [hg] at h1
      exact ⟨h1, h2, by rw [hview, (hok.getElem? hv.get).isSome_view, hu]⟩
    | false =>
      have hc : ¬ (v.iteratorAt k ≠ endIt ∧ v.iterIsEmpty (v.iteratorAt k) = false) := by
        rw [hemp, hu]; simp
      have hnone : v.view k = none := by rw [hview, Page.view, hu]; rfl
      simp only [freeAt, if_neg hc]
      exact ⟨(hsame hnone).symm, hok, by rw [hnone]; rfl⟩

/-! ## The count -/

theorem nItems_iterSet (hok : v.Ok) (h : Valid v it i p) (hnone : v.view it.gpos = none) :
    (v.iterSet it t).1.nItems = v.nItems + 1 := by
  have hu : p.isUsed it.pos = false := by
    have hsome := (hok.getElem? h.get).isSome_view (k := it.pos)
    rw [← h.view, hnone] at hsome
    exact hsome.symm
  unfold iterSet
  rw [h.page]
  dsimp only
  rw [isUsed_ptr h, hu]
  rfl

theorem nItems_freeAt (hok : v.Ok) (hsome : (v.view k).isSome = true) :
    (v.freeAt k).1.nItems + 1 = v.nItems := by
  rcases iteratorAt_cases v k with ⟨-, h0 | hl⟩ | ⟨i, p, hv, hg⟩
  · rw [hok.view_eq_none h0] at hsome; cases hsome
  · rw [view_of_none hl] at hsome; cases hsome
  · have hp := hok.getElem? hv.get
    have hu : p.isUsed (v.iteratorAt k).pos = true := by
      rw [← hp.isSome_view, ← hv.view, hg, hsome]
    have hne : v.iteratorAt k ≠ endIt := by
      intro he
      have := hv.page
      rw [he] at this
      cases this
    have hpos : 0 < v.nItems := by
      by_cases h0 : v.nItems = 0
      · rw [hok.view_eq_none h0] at hsome; cases hsome
      · omega
    have hc : v.iteratorAt k ≠ endIt ∧ v.iterIsEmpty (v.iteratorAt k) = false := by
      refine ⟨hne, ?_⟩
      rw [iterIsEmpty, hv.page]
      simp only [isUsed_ptr hv, hu, Bool.not_true]
    simp only [freeAt, if_pos hc, iterFree, hv.page, isUsed_ptr hv, hu, if_true, onPage]
    omega

/-! ## `set(pos,t)` -/

theorem mul_onPage {f : Page T → Page T} {hf : ∀ p, (f p).mul = p.mul} {n j : Nat} :
    (v.onPage i f hf n).pages[j]?.map Page.mul = v.pages[j]?.map Page.mul := by
  rw [getElem?_onPage]
  split
  · cases v.pages[j]? with
    | none => rfl
    | some p => exact congrArg some (hf p)
  · rfl

theorem mul_tail_onPage {f : Page T → Page T} {hf : ∀ p, (f p).mul = p.mul} {n : Nat} :
    (v.onPage i f hf n).tail.mul = v.tail.mul := by
  have hlen : (v.onPage i f hf n).pages.length = v.pages.length := List.length_modify ..
  have hmul : (v.onPage i f hf n).pages[v.pages.length - 1]?.map Page.mul =
      v.pages[v.pages.length - 1]?.map Page.mul := mul_onPage
  rw [tail_eq, ← hlen, tail_eq] at hmul
  exact Option.some.inj hmul

/-- **`set(pos,t)`**, when it returns, has put the item there; places stay where they are. -/
theorem set_spec {fuel : Nat} {x : Option Ptr} (hok : v.Ok) (h : v.set k t fuel = some (v', x)) :
    v'.view = Function.update v.view k (some t) ∧ v'.Ok ∧
      (∀ j y, v.addr j = some y → v'.addr j = some y) ∧ (v.view k = none → v'.nItems = v.nItems + 1) := by
  obtain ⟨⟨w, it⟩, hw, heq⟩ := Option.map_eq_some_iff.mp h
  obtain ⟨hext, hg, i, p, hv⟩ := forceIteratorAt_spec hw
  have hokw := hext.ok hok
  have heq : w.iterSet it t = (v', x) := heq
  have hset := iterSet_spec (t := t) hokw hv
  have hsizes : (w.iterSet it t).1.sizes = w.sizes := sizes_iterSet
  rw [heq] at hset hsizes
  obtain ⟨hview, hok', -⟩ := hset
  dsimp only at hview hok' hsizes
  rw [hg, hext.view] at hview
  refine ⟨hview, hok', fun j y hy => ?_, fun hnone => ?_⟩
  · rw [addr_congr hsizes]
    exact hext.addr hy
  · have hn := nItems_iterSet (t := t) hokw hv (by rw [hg, hext.view, hnone])
    rw [heq, hext.nItems] at hn
    exact hn

theorem size_set {fuel : Nat} {x : Option Ptr} (h : v.set k t fuel = some (v', x)) :
    v.size ≤ v'.size ∧ v'.size ≤ max v.size (k + 2 ^ 32) := by
  obtain ⟨⟨w, it⟩, hw, heq⟩ := Option.map_eq_some_iff.mp h
  obtain ⟨⟨ms, hms⟩, -⟩ := (forceIteratorAt_spec hw).1
  have hsizes : (w.iterSet it t).1.sizes = w.sizes := sizes_iterSet
  have heq : w.iterSet it t = (v', x) := heq
  rw [heq] at hsizes
  have hsize : v'.size = w.size := congrArg List.sum hsizes
  rw [hsize]
  refine ⟨?_, size_forceIteratorAt hw⟩
  rw [size, size, sizes, sizes, hms, List.map_append, List.sum_append]
  exact Nat.le_add_right _ _

/-- The first page is never another one. -/
theorem mul_set {fuel : Nat} {x : Option Ptr} (h : v.set k t fuel = some (v', x)) :
    v'.pages[0]?.map Page.mul = v.pages[0]?.map Page.mul := by
  obtain ⟨⟨w, it⟩, hw, heq⟩ := Option.map_eq_some_iff.mp h
  obtain ⟨hext, -, i, p, hv⟩ := forceIteratorAt_spec hw
  obtain ⟨ms, hms⟩ := hext.pages
  have heq : w.iterSet it t = (v', x) := heq
  rw [iterSet, hv.page] at heq
  cases heq
  rw [mul_onPage, hms, List.getElem?_append_left (List.length_pos_of_ne_nil v.pages_ne)]

theorem set_mono {r : Inpvec T × Option Ptr} {n m : Nat} (hle : n ≤ m) (h : v.set k t n = some r) :
    v.set k t m = some r := by
  obtain ⟨q, hq, rfl⟩ := Option.map_eq_some_iff.mp h
  rw [set, forceIteratorAt_mono hle hq]
  rfl

theorem set_returns (hk : k < v.size + (2 ^ 32 - 128)) (htail : v.tail.mul.toNat < 2 ^ 26 - 2)
    (hsize : v.size < 2 ^ 63) : ∃ r, v.set k t 2 = some r ∧
      r.1.tail.mul.toNat ≤ max (v.tail.mul.toNat + 2) ((k - v.size) / 64 + 2) := by
  obtain ⟨⟨w, it⟩, hw, hle⟩ := forceIteratorAt_returns hk htail hsize
  refine ⟨w.iterSet it t, by rw [set, hw]; rfl, ?_⟩
  have hmul : (w.iterSet it t).1.tail.mul = w.tail.mul := by
    unfold iterSet
    split
    · rfl
    · dsimp only
      rw [mul_tail_onPage]
  rw [hmul]
  exact hle

/-- The last page does not get much larger. -/
theorem tail_set {fuel : Nat} {r : Inpvec T × Option Ptr} (hk : k ≤ max 256 v.size)
    (htail : v.tail.mul.toNat < 2 ^ 26 - 2) (hsize : v.size < 2 ^ 63) (h : v.set k t fuel = some r) :
    r.1.tail.mul.toNat ≤ max (v.tail.mul.toNat + 2) 6 := by
  have hlt : k < v.size + (2 ^ 32 - 128) := by omega
  obtain ⟨r', hr', hle⟩ := set_returns (t := t) hlt htail hsize
  have hsame := (set_mono (Nat.le_max_left fuel 2) h).symm.trans (set_mono (Nat.le_max_right fuel 2) hr')
  rw [Option.some.inj hsame]
  omega

/-! ## Vectors that only ever grow by themselves

The first page has one word and `allocate()` adds two to the last page's, so as long as no
position asks for a page of its own size all pages have an odd number of words, and room. -/

def OddTail (v : Inpvec T) : Prop := v.tail.mul.toNat % 2 = 1

theorem oddTail_init : (init : Inpvec T).OddTail := rfl

theorem oddTail_onPage {f : Page T → Page T} {hf : ∀ p, (f p).mul = p.mul} {n : Nat} :
    (v.onPage i f hf n).OddTail ↔ v.OddTail := by rw [OddTail, OddTail, mul_tail_onPage]

theorem oddTail_iterSet : (v.iterSet it t).1.OddTail ↔ v.OddTail := by
  unfold iterSet
  split
  · rfl
  · dsimp only; rw [oddTail_onPage]

theorem oddTail_freeAt : (v.freeAt k).1.OddTail ↔ v.OddTail := by
  unfold freeAt iterFree
  dsimp only
  split
  · dsimp only
    split
    · rfl
    · rw [oddTail_onPage]
  · rfl

theorem oddTail_poke {x : Ptr} {f : T → T} : (v.poke x f).OddTail ↔ v.OddTail := oddTail_onPage

theorem toNat_tail_add_two (h : v.OddTail) : (v.tail.mul + 2).toNat % 2 = 1 := by
  unfold OddTail at h
  rw [UInt32.toNat_add]
  have : UInt32.toNat 2 = 2 := rfl
  omega

/-- **`first_free` in such a vector** always leads to an unused place. -/
theorem firstFree_spec {r : Inpvec T × Iter} (hok : v.Ok) (hodd : v.OddTail)
    (h : v.firstFree = some r) :
    Extends v r.1 ∧ (∃ i p, Valid r.1 r.2 i p) ∧ v.view r.2.gpos = none ∧ r.1.OddTail := by
  by_cases heq : ∀ p ∈ v.pages, p.firstFree = p.size
  · rw [firstFree_full heq, Option.map_eq_some_iff] at h
    obtain ⟨v', ha, rfl⟩ := h
    have h2 := toNat_tail_add_two hodd
    have hroom : (v.tail.mul + 2) * 64 ≠ 0 := by
      intro h0
      have := congrArg UInt32.toNat h0
      have h64 : UInt32.toNat 64 = 64 := rfl
      rw [UInt32.toNat_mul, h64, UInt32.toNat_zero] at this
      omega
    refine ⟨allocate_extends ha, ⟨_, _, valid_allocate ha hroom⟩,
      view_of_none (locate_eq_none.mpr (Nat.le_refl _)), ?_⟩
    have htail : v'.tail = Page.mulAlloc (v.tail.mul + 2) := by
      simp [tail, (allocate_some ha).1]
    unfold OddTail
    rw [htail]
    exact h2
  · obtain ⟨it, i, p, hl, hv, hnone⟩ := firstFree_room hok heq
    rw [h, Option.some.injEq] at hl
    subst hl
    exact ⟨.refl, ⟨_, _, hv⟩, hnone, hodd⟩

end Inpvec

end CodeSLoop
