import CodeSLoop.Common.InpvecIter

/-!
# Going through an `inpvec` with `next_used()`

`iterator::next_used` searches its own page from the place behind it, and then the pages that
follow. When it goes to the next page it sets `newpos` to `pos_`, and `pos_` to zero only after
that. So the next page is searched from behind the place that the iterator had in the page it
leaves, and a page behind an empty one from its second place on.

What is used and stands further in front in the next page is passed over. `scans_iff` says when
nothing is: when each page begins, in its own places, behind where the page before has ended.
-/

namespace CodeSLoop

open Bits Segments Lts Inpvec

universe u

variable {T : Type u}

namespace Page

variable {p : Page T} {bmap : Nat → BitVec 64} {n k r : Nat}

/-- The bits of a word are clear from one on, and so are those of the words behind. -/
theorem clear_word {i pos m : Nat} (hword : ∀ b, pos ≤ b → b < 64 → test (bmap i) b = false)
    (hrest : ∀ j, 64 * (i + 1) ≤ j → j < m → test (bmap (j / 64)) (j % 64) = false) :
    ∀ j, 64 * i + pos ≤ j → j < m → test (bmap (j / 64)) (j % 64) = false := by
  intro j hj hm
  by_cases hnext : 64 * (i + 1) ≤ j
  · exact hrest j hnext hm
  · rw [show j / 64 = i by omega]
    exact hword _ (by omega) (Nat.mod_lt _ (by omega))

theorem nextUsedLoop_none : ∀ {i pos : Nat}, nextUsedLoop bmap n i pos = none →
    ∀ j, 64 * i + pos ≤ j → j < 64 * (i + n) → test (bmap (j / 64)) (j % 64) = false := by
  induction n with
  | zero =>
    intro i pos _ j hj hlt
    omega
  | succ n ih =>
    intro i pos h
    rw [nextUsedLoop] at h
    have hrest : nextUsedLoop bmap n (i + 1) 0 = none →
        ∀ j, 64 * (i + 1) ≤ j → j < 64 * (i + (n + 1)) → test (bmap (j / 64)) (j % 64) = false :=
      fun h j hj hlt => ih h j hj (by omega)
    split at h
    · rename_i h0
      exact clear_word (fun b _ _ => by rw [h0, test_zero]) (hrest h)
    · cases hb : nextSet (bmap i) (64 - pos) pos with
      | some b =>
        rw [hb] at h
        cases h
      | none =>
        rw [hb] at h
        exact clear_word (fun b hpos hlt => nextSet_none hb b hpos (by omega)) (hrest h)

theorem nextUsedLoop_some : ∀ {i pos : Nat}, pos ≤ 64 → nextUsedLoop bmap n i pos = some r →
    ∃ i' b, b < 64 ∧ r = (UInt32.ofNat i' * 64).toNat + b ∧ 64 * i + pos ≤ 64 * i' + b ∧
      test (bmap i') b = true ∧
      ∀ j, 64 * i + pos ≤ j → j < 64 * i' + b → test (bmap (j / 64)) (j % 64) = false := by
  induction n with
  | zero =>
    intro i pos _ h
    cases h
  | succ n ih =>
    intro i pos hpos h
    rw [nextUsedLoop] at h
    have hskip : (∀ b, pos ≤ b → b < 64 → test (bmap i) b = false) →
        nextUsedLoop bmap n (i + 1) 0 = some r →
        ∃ i' b, b < 64 ∧ r = (UInt32.ofNat i' * 64).toNat + b ∧ 64 * i + pos ≤ 64 * i' + b ∧
          test (bmap i') b = true ∧
          ∀ j, 64 * i + pos ≤ j → j < 64 * i' + b → test (bmap (j / 64)) (j % 64) = false := by
      intro hword h
      obtain ⟨i', b, hb, hr, hle, hset, hclear⟩ := ih (Nat.zero_le _) h
      exact ⟨i', b, hb, hr, by omega, hset, clear_word hword hclear⟩
    split at h
    · rename_i h0
      exact hskip (fun b _ _ => by rw [h0, test_zero]) h
    · cases hb : nextSet (bmap i) (64 - pos) pos with
      | none =>
        rw [hb] at h
        exact hskip (fun b hle hlt => nextSet_none hb b hle (by omega)) h
      | some b =>
        rw [hb] at h
        obtain ⟨hle, hlt, hset, hclear⟩ := nextSet_some hb
        cases h
        refine ⟨i, b, by omega, rfl, by omega, hset, fun j hj hjb => ?_⟩
        rw [show j / 64 = i by omega]
        exact hclear _ (by omega) (by omega)

theorem Ok.nextUsed_none (h : p.Ok) (hn : p.nextUsed k = none) :
    ∀ j, k < j → p.isUsed j = false := by
  intro j hj
  by_cases hlt : j < 64 * p.mul.toNat
  · refine nextUsedLoop_none hn j ?_ ?_
    · have := Nat.div_add_mod (k + 1) 64
      omega
    · omega
  · exact h.beyond j (Nat.le_trans size_le (Nat.le_of_not_lt hlt))

theorem Ok.nextUsed_some (h : p.Ok) (hn : p.nextUsed k = some r) :
    k < r ∧ p.isUsed r = true ∧ ∀ j, k < j → j < r → p.isUsed j = false := by
  have hmod := Nat.mod_lt (k + 1) (show 0 < 64 by omega)
  obtain ⟨i, b, hb, hr, hle, hset, hclear⟩ := nextUsedLoop_some (Nat.le_of_lt hmod) hn
  have hused : p.isUsed (64 * i + b) = true := by
    rw [isUsed, show (64 * i + b) / 64 = i by omega, show (64 * i + b) % 64 = b by omega]
    exact hset
  -- The product is one of 32 bits, and so is the size of the page.
  have hlt := h.lt_size hused
  have hsize : p.size < 2 ^ 32 := UInt32.toNat_lt _
  have hmul : (UInt32.ofNat i * 64).toNat = 64 * i := by
    rw [UInt32.toNat_mul, UInt32.toNat_ofNat']
    change i % 2 ^ 32 * 64 % 2 ^ 32 = 64 * i
    omega
  rw [hmul] at hr
  subst hr
  have := Nat.div_add_mod (k + 1) 64
  exact ⟨by omega, hused, fun j hj hjr => hclear j (by omega) hjr⟩

/-- The last used place, or the first one. -/
theorem Ok.le_lastFree (h : p.Ok) (hk : p.isUsed k = true) : k ≤ p.lastFree - 1 := by
  by_cases hle : p.lastFree ≤ k
  · rw [h.lastFree_spec.1 k hle] at hk
    cases hk
  · omega

theorem Ok.lastFree_le_of_clear (h : p.Ok) (hclear : ∀ j, k < j → p.isUsed j = false) :
    p.lastFree - 1 ≤ k := by
  rcases h.lastFree_spec.2 with h0 | hused
  · omega
  · by_cases hle : p.lastFree - 1 ≤ k
    · exact hle
    · rw [hclear _ (by omega)] at hused
      cases hused

end Page

namespace Inpvec

variable {v : Inpvec T} {it it' : Iter} {i j k o o' : Nat} {p q : Page T}

/-! ## Places and positions -/

/-- The order of the places. -/
def Before (i o j o' : Nat) : Prop := i < j ∨ i = j ∧ o < o'

theorem sizes_getElem? (hp : v.pages[i]? = some p) : v.sizes[i]? = some p.size := by
  rw [sizes, List.getElem?_map, hp]
  rfl

/-- Positions are in the order of the places. -/
theorem before_iff (hp : v.pages[i]? = some p) (ho : o < p.size) (hq : v.pages[j]? = some q)
    (ho' : o' < q.size) : Before i o j o' ↔ base v.sizes i + o < base v.sizes j + o' := by
  rcases Nat.lt_trichotomy i j with hlt | rfl | hgt
  · have := base_add_lt (sizes_getElem? hp) ho hlt
    exact iff_of_true (.inl hlt) (by omega)
  · constructor
    · rintro (hlt | ⟨-, hlt⟩)
      · omega
      · omega
    · intro hlt
      exact .inr ⟨rfl, by omega⟩
  · have := base_add_lt (sizes_getElem? hq) ho' hgt
    refine iff_of_false ?_ (by omega)
    rintro (hlt | ⟨rfl, -⟩)
    · omega
    · omega

theorem Ok.view_place (hok : v.Ok) (hp : v.pages[i]? = some p) (ho : p.isUsed o = true) :
    (v.view (base v.sizes i + o)).isSome := by
  have hv : Valid v ⟨some i, o, base v.sizes i + o⟩ i p :=
    ⟨rfl, hp, (hok.getElem? hp).lt_size ho, rfl⟩
  have hview := hv.view
  dsimp only at hview
  rw [hview, (hok.getElem? hp).isSome_view]
  exact ho

/-- A used position is that of a used place. -/
theorem Ok.place_of_view (hok : v.Ok) (h : (v.view k).isSome) :
    ∃ i p o, v.pages[i]? = some p ∧ p.isUsed o = true ∧ k = base v.sizes i + o := by
  cases hl : locate v.sizes k with
  | none =>
    rw [view_of_none hl] at h
    cases h
  | some x =>
    obtain ⟨p, hp, -, hk⟩ := getElem?_of_locate hl
    rw [view_of_some hl hp, (hok.getElem? hp).isSome_view] at h
    exact ⟨x.1, p, x.2, hp, h, hk⟩

theorem Valid.getPtr (hok : v.Ok) (h : Valid v it i p) (hused : p.isUsed it.pos = true) :
    v.getPtr it.gpos = some ⟨i, it.pos⟩ := by
  have hview : (v.view it.gpos).isSome := by
    rw [h.view, (hok.getElem? h.get).isSome_view]
    exact hused
  rw [hok.getPtr_eq, if_pos hview, h.addr]

/-! ## One call -/

/-- Each page begins behind where the one before it has ended: a search that goes on from `s` in the
    first of these passes nothing over. -/
def Staggered : Nat → List (Page T) → Prop
  | _, [] => True
  | s, p :: ps => (∀ k ≤ s, p.isUsed k = false) ∧ Staggered (p.lastFree - 1) ps

instance decidableStaggered : ∀ (s : Nat) (ps : List (Page T)), Decidable (Staggered s ps)
  | _, [] => isTrue trivial
  | s, p :: ps =>
    have := decidableStaggered (p.lastFree - 1) ps
    inferInstanceAs (Decidable ((∀ k ≤ s, p.isUsed k = false) ∧ Staggered (p.lastFree - 1) ps))

/-- No used place of these pages is before this one. -/
def FirstUsed (ps : List (Page T)) (m k : Nat) : Prop :=
  ∀ j q o, ps[j]? = some q → q.isUsed o = true → ¬ Before j o m k

theorem firstUsed_zero {ps : List (Page T)} :
    FirstUsed (p :: ps) 0 k ↔ ∀ o < k, p.isUsed o = false := by
  constructor
  · intro h o ho
    by_contra hused
    exact h 0 p o rfl (Bool.eq_true_of_not_eq_false hused) (.inr ⟨rfl, ho⟩)
  · rintro h j q o hq hused (hlt | ⟨rfl, ho⟩)
    · omega
    · cases hq
      rw [h o ho] at hused
      cases hused

theorem firstUsed_succ {ps : List (Page T)} {m : Nat} :
    FirstUsed (p :: ps) (m + 1) k ↔ (∀ o, p.isUsed o = false) ∧ FirstUsed ps m k := by
  constructor
  · intro h
    constructor
    · intro o
      by_contra hused
      exact h 0 p o rfl (Bool.eq_true_of_not_eq_false hused) (.inl (Nat.zero_lt_succ m))
    · intro j q o hq hused hbefore
      refine h (j + 1) q o hq hused ?_
      rcases hbefore with hlt | ⟨rfl, ho⟩
      · exact .inl (Nat.succ_lt_succ hlt)
      · exact .inr ⟨rfl, ho⟩
  · rintro ⟨hp, hps⟩ j q o hq hused hbefore
    cases j with
    | zero =>
      cases hq
      rw [hp o] at hused
      cases hused
    | succ j =>
      refine hps j q o hq hused ?_
      rcases hbefore with hlt | ⟨heq, ho⟩
      · exact .inl (Nat.lt_of_succ_lt_succ hlt)
      · exact .inr ⟨Nat.succ.inj heq, ho⟩

/-- A page of which nothing is used behind `s` is passed over. -/
theorem staggered_cons_of_clear {ps : List (Page T)} {s : Nat} (hp : p.Ok)
    (hclear : ∀ o, s < o → p.isUsed o = false) :
    Staggered s (p :: ps) ↔ (∀ o, p.isUsed o = false) ∧ Staggered 0 ps := by
  rw [Staggered]
  constructor
  · rintro ⟨hfirst, hrest⟩
    have hall : ∀ o, p.isUsed o = false := fun o => by
      rcases Nat.lt_or_ge s o with hlt | hle
      · exact hclear o hlt
      · exact hfirst o hle
    have hlast := hp.lastFree_le_of_clear (k := 0) fun o _ => hall o
    rw [Nat.le_zero.mp hlast] at hrest
    exact ⟨hall, hrest⟩
  · rintro ⟨hall, hrest⟩
    have hlast := hp.lastFree_le_of_clear (k := 0) fun o _ => hall o
    rw [Nat.le_zero.mp hlast]
    exact ⟨fun o _ => hall o, hrest⟩

/-- The pages that follow: nothing is found, or the first used place behind `s` in the first of them
    or behind its first place in a later one. -/
theorem nextUsedLoop_spec {ps : List (Page T)} (hok : ∀ p ∈ ps, p.Ok) : ∀ {i s g : Nat},
    (nextUsedLoop ps i s 0 g = (endIt, none) ∧
      (Staggered s ps ↔ ∀ (j : Nat) q o, ps[j]? = some q → q.isUsed o = false)) ∨
    ∃ m q k, ps[m]? = some q ∧ q.isUsed k = true ∧
      nextUsedLoop ps i s 0 g =
        (⟨some (i + m), k, g + base (ps.map Page.size) m + k⟩, some ⟨i + m, k⟩) ∧
      (Staggered s ps ↔ FirstUsed ps m k ∧ Staggered (q.lastFree - 1) (ps.drop (m + 1))) := by
  induction ps with
  | nil => exact .inl ⟨rfl, iff_of_true trivial nofun⟩
  | cons p ps ih =>
    intro i s g
    have hp := hok p (List.mem_cons_self ..)
    rw [nextUsedLoop]
    cases hk : p.nextUsed s with
    | some k =>
      obtain ⟨hlt, hused, hclear⟩ := hp.nextUsed_some hk
      refine .inr ⟨0, p, k, rfl, hused, by simp, ?_⟩
      rw [firstUsed_zero, Staggered]
      refine and_congr ⟨fun h o ho => ?_, fun h o ho => h o (by omega)⟩ Iff.rfl
      rcases Nat.lt_or_ge s o with hgt | hle
      · exact hclear o hgt ho
      · exact h o hle
    | none =>
      have hiff : Staggered s (p :: ps) ↔ (∀ o, p.isUsed o = false) ∧ Staggered 0 ps :=
        staggered_cons_of_clear hp (hp.nextUsed_none hk)
      dsimp only
      rcases @ih (fun q hq => hok q (List.mem_cons_of_mem _ hq)) (i + 1) 0 (g + p.size) with
        ⟨hloop, hnone⟩ | ⟨m, q, k, hq, hused, hloop, hsome⟩
      · refine .inl ⟨hloop, ?_⟩
        rw [hiff, hnone]
        constructor
        · rintro ⟨hall, hrest⟩ j q o hq
          cases j with
          | zero =>
            cases hq
            exact hall o
          | succ j => exact hrest j q o hq
        · exact fun h => ⟨fun o => h 0 p o rfl, fun j q o hq => h (j + 1) q o hq⟩
      · refine .inr ⟨m + 1, q, k, hq, hused, ?_, ?_⟩
        · rw [Nat.sub_zero, hloop, List.map_cons, base_cons_succ,
            show i + 1 + m = i + (m + 1) by omega,
            show g + p.size + base (ps.map Page.size) m + k =
              g + (p.size + base (ps.map Page.size) m) + k by omega]
        · rw [hiff, hsome, firstUsed_succ, List.drop_succ_cons, and_assoc]

/-- Nothing that is used behind the iterator is passed over: where its page ends is the last used
    place of it, or the iterator's own. -/
def Ahead (v : Inpvec T) (it : Iter) : Prop :=
  ∀ i ∈ it.page, ∀ p ∈ v.pages[i]?,
    Staggered (max it.pos (p.lastFree - 1)) (v.pages.drop (i + 1))

instance (v : Inpvec T) (it : Iter) : Decidable (v.Ahead it) := by
  unfold Ahead
  infer_instance

theorem Valid.ahead_iff (h : Valid v it i p) :
    v.Ahead it ↔ Staggered (max it.pos (p.lastFree - 1)) (v.pages.drop (i + 1)) := by
  constructor
  · exact fun ha => ha i h.page p h.get
  · intro ha j hj q hq
    rw [h.page] at hj
    cases hj
    rw [h.get] at hq
    cases hq
    exact ha

/-- An iterator on a used place: its page ends with the last used one. -/
theorem Valid.ahead_iff_of_used (hok : v.Ok) (h : Valid v it i p) (hused : p.isUsed it.pos = true) :
    v.Ahead it ↔ Staggered (p.lastFree - 1) (v.pages.drop (i + 1)) := by
  rw [h.ahead_iff, Nat.max_eq_right ((hok.getElem? h.get).le_lastFree hused)]

theorem nextUsed_eq (h : Valid v it i p) :
    v.nextUsed it = nextUsedLoop (p :: v.pages.drop (i + 1)) i it.pos it.pos it.gpos := by
  obtain ⟨hlt, hp⟩ := List.getElem?_eq_some_iff.mp h.get
  rw [nextUsed, h.page]
  dsimp only
  rw [List.drop_eq_getElem_cons hlt, hp]

/-- Used places behind the iterator, and before another one. -/
theorem Valid.between_iff (hok : v.Ok) (h : Valid v it i p) (h' : Valid v it' j q) :
    (∀ k, it.gpos < k → k < it'.gpos → v.view k = none) ↔
      ∀ m r o, v.pages[m]? = some r → r.isUsed o = true → Before i it.pos m o →
        ¬ Before m o j it'.pos := by
  constructor
  · intro hnone m r o hr hused hbehind hbefore
    have ho := (hok.getElem? hr).lt_size hused
    rw [before_iff h.get h.pos_lt hr ho, ← h.gpos] at hbehind
    rw [before_iff hr ho h'.get h'.pos_lt, ← h'.gpos] at hbefore
    have hview := hok.view_place hr hused
    rw [hnone _ hbehind hbefore] at hview
    cases hview
  · intro hplaces k hbehind hbefore
    by_contra hview
    obtain ⟨m, r, o, hr, hused, rfl⟩ := hok.place_of_view (Option.isSome_iff_ne_none.mpr hview)
    have ho := (hok.getElem? hr).lt_size hused
    rw [h.gpos, ← before_iff h.get h.pos_lt hr ho] at hbehind
    rw [h'.gpos, ← before_iff hr ho h'.get h'.pos_lt] at hbefore
    exact hplaces m r o hr hused hbehind hbefore

/-- Used places behind the iterator. -/
theorem Valid.behind_iff (hok : v.Ok) (h : Valid v it i p) :
    (∀ k, it.gpos < k → v.view k = none) ↔
      ∀ m r o, v.pages[m]? = some r → Before i it.pos m o → r.isUsed o = false := by
  constructor
  · intro hnone m r o hr hbehind
    by_contra hused
    have hused := Bool.eq_true_of_not_eq_false hused
    rw [before_iff h.get h.pos_lt hr ((hok.getElem? hr).lt_size hused), ← h.gpos] at hbehind
    have hview := hok.view_place hr hused
    rw [hnone _ hbehind] at hview
    cases hview
  · intro hplaces k hbehind
    by_contra hview
    obtain ⟨m, r, o, hr, hused, rfl⟩ := hok.place_of_view (Option.isSome_iff_ne_none.mpr hview)
    rw [h.gpos, ← before_iff h.get h.pos_lt hr ((hok.getElem? hr).lt_size hused)] at hbehind
    rw [hplaces m r o hr hbehind] at hused
    cases hused

/-- With nothing more in the iterator's own page, what is behind the iterator is in the later
    ones. -/
theorem Valid.behind_iff_of_clear (hok : v.Ok) (h : Valid v it i p)
    (hclear : ∀ o, it.pos < o → p.isUsed o = false) :
    (∀ k, it.gpos < k → v.view k = none) ↔
      ∀ (j : Nat) q o, (v.pages.drop (i + 1))[j]? = some q → q.isUsed o = false := by
  rw [h.behind_iff hok]
  constructor
  · intro hplaces j q o hq
    rw [List.getElem?_drop] at hq
    exact hplaces _ q o hq (.inl (by omega))
  · rintro hrest m r o hr (hm | ⟨rfl, ho⟩)
    · refine hrest (m - (i + 1)) r o ?_
      rw [List.getElem?_drop, show i + 1 + (m - (i + 1)) = m by omega, hr]
    · rw [h.get] at hr
      cases hr
      exact hclear o ho

/-- The same, before another iterator. -/
theorem Valid.between_iff_of_clear {m : Nat} (hok : v.Ok) (h : Valid v it i p)
    (hclear : ∀ o, it.pos < o → p.isUsed o = false) (h' : Valid v it' (i + 1 + m) q) :
    (∀ k, it.gpos < k → k < it'.gpos → v.view k = none) ↔
      FirstUsed (v.pages.drop (i + 1)) m it'.pos := by
  rw [h.between_iff hok h']
  constructor
  · intro hplaces j r o hr hro hbefore
    rw [List.getElem?_drop] at hr
    refine hplaces _ r o hr hro (.inl (by omega)) ?_
    rcases hbefore with hlt | ⟨rfl, hlt⟩
    · exact .inl (by omega)
    · exact .inr ⟨rfl, hlt⟩
  · rintro hfirst l r o hr hro (hl | ⟨rfl, ho⟩) hbefore
    · refine hfirst (l - (i + 1)) r o ?_ hro ?_
      · rw [List.getElem?_drop, show i + 1 + (l - (i + 1)) = l by omega, hr]
      · rcases hbefore with hlt | ⟨heq, hlt⟩
        · exact .inl (by omega)
        · exact .inr ⟨by omega, hlt⟩
    · rw [h.get] at hr
      cases hr
      rw [hclear o ho] at hro
      cases hro

/-- The next used place is in the same page. -/
theorem Valid.ahead_iff_next {k : Nat} (hok : v.Ok) (h : Valid v it i p)
    (hk : p.nextUsed it.pos = some k) (hv : Valid v ⟨some i, k, it.gpos + k - it.pos⟩ i p) :
    v.Ahead it ↔ (∀ l, it.gpos < l → l < it.gpos + k - it.pos → v.view l = none) ∧
      v.Ahead ⟨some i, k, it.gpos + k - it.pos⟩ := by
  have hp := hok.getElem? h.get
  obtain ⟨hlt, hused, hclear⟩ := hp.nextUsed_some hk
  have hle := hp.le_lastFree hused
  rw [h.ahead_iff, hv.ahead_iff_of_used hok hused, Nat.max_eq_right (by omega), h.between_iff hok hv]
  refine (and_iff_right ?_).symm
  rintro m r o hr hro (hi | ⟨rfl, ho⟩) (hj | ⟨heq, hok'⟩)
  · omega
  · omega
  · omega
  · rw [h.get] at hr
    cases hr
    rw [hclear o ho hok'] at hro
    cases hro

/-- **One `next_used()`** ends the iteration, or goes forward to a used position and gives the item
    there. It passes nothing over, now or later, if the pages are staggered. -/
theorem nextUsed_cases (hok : v.Ok) (h : Valid v it i p) :
    (v.nextUsed it = (endIt, none) ∧ (v.Ahead it ↔ ∀ k, it.gpos < k → v.view k = none)) ∨
    ∃ it' x j q, v.nextUsed it = (it', some x) ∧ Valid v it' j q ∧ v.getPtr it'.gpos = some x ∧
      it.gpos < it'.gpos ∧
      (v.Ahead it ↔ (∀ k, it.gpos < k → k < it'.gpos → v.view k = none) ∧ v.Ahead it') := by
  have hp := hok.getElem? h.get
  have hgpos := h.gpos
  rw [nextUsed_eq h, nextUsedLoop]
  cases hk : p.nextUsed it.pos with
  | some k =>
    obtain ⟨hlt, hused, -⟩ := hp.nextUsed_some hk
    have hv : Valid v ⟨some i, k, it.gpos + k - it.pos⟩ i p :=
      ⟨rfl, h.get, hp.lt_size hused, by dsimp only; omega⟩
    exact .inr ⟨_, _, i, p, rfl, hv, hv.getPtr hok hused, by dsimp only; omega,
      h.ahead_iff_next hok hk hv⟩
  | none =>
    have hclear := hp.nextUsed_none hk
    dsimp only
    rw [h.ahead_iff, Nat.max_eq_left (hp.lastFree_le_of_clear hclear),
      show it.gpos + p.size - it.pos = base v.sizes i + p.size by omega,
      ← base_succ (sizes_getElem? h.get)]
    rcases @nextUsedLoop_spec T (v.pages.drop (i + 1))
      (fun q hq => hok.pages q (List.mem_of_mem_drop hq)) (i + 1) it.pos (base v.sizes (i + 1)) with
      ⟨hloop, hnone⟩ | ⟨m, q, k, hq, hused, hloop, hsome⟩
    · exact .inl ⟨hloop, hnone.trans (h.behind_iff_of_clear hok hclear).symm⟩
    · rw [List.getElem?_drop] at hq
      have hbase : base v.sizes (i + 1 + m) =
          base v.sizes (i + 1) + base ((v.pages.drop (i + 1)).map Page.size) m := by
        rw [base, base, base, List.take_add, List.sum_append, sizes, List.map_drop]
      have hv : Valid v ⟨some (i + 1 + m), k, base v.sizes (i + 1 + m) + k⟩ (i + 1 + m) q :=
        ⟨rfl, hq, (hok.getElem? hq).lt_size hused, rfl⟩
      rw [← hbase] at hloop
      have hforward : it.gpos < base v.sizes (i + 1 + m) + k := by
        rw [h.gpos]
        exact (before_iff h.get h.pos_lt hq hv.pos_lt).mp (.inl (by omega))
      refine .inr ⟨_, _, i + 1 + m, q, hloop, hv, hv.getPtr hok hused, hforward, ?_⟩
      rw [hsome, hv.ahead_iff_of_used hok hused, h.between_iff_of_clear hok hclear hv, List.drop_drop,
        show i + 1 + (m + 1) = i + 1 + m + 1 by omega]

/-! ## All the calls -/

/-- `next_used()` until it returns null: every iterator on the way with the item, and the last
    one. -/
def visit (v : Inpvec T) : Nat → Iter → Option (List (Iter × Ptr) × Iter)
  | 0, _ => none
  | fuel + 1, it =>
    match v.nextUsed it with
    | (it', none) => some ([], it')
    | (it', some x) => (visit v fuel it').map fun r => ((it', x) :: r.1, r.2)

/-- The used positions behind the iterator are visited in their order, each one once, and the items
    there are returned; then the iterator is `end()`. -/
structure Visits (v : Inpvec T) (it : Iter) (l : List (Iter × Ptr)) : Prop where
  sorted : (it.gpos :: l.map fun e => e.1.gpos).Pairwise (· < ·)
  items : ∀ e ∈ l, v.getPtr e.1.gpos = some e.2
  all : ∀ k, it.gpos < k → (v.view k).isSome → k ∈ l.map fun e => e.1.gpos

/-- The iteration ends, and has visited everything. -/
def Scans (v : Inpvec T) (it : Iter) : Prop :=
  ∃ fuel l, v.visit fuel it = some (l, endIt) ∧ Visits v it l

theorem visit_unique {fuel : Nat} : ∀ {fuel' : Nat} {it : Iter} {r r' : List (Iter × Ptr) × Iter},
    v.visit fuel it = some r → v.visit fuel' it = some r' → r = r' := by
  induction fuel with
  | zero =>
    intro fuel' it r r' h
    cases h
  | succ fuel ih =>
    intro fuel' it r r' h h'
    cases fuel' with
    | zero => cases h'
    | succ fuel' =>
      rw [visit] at h h'
      generalize v.nextUsed it = next at h h'
      obtain ⟨it', x⟩ := next
      cases x with
      | none => exact Option.some.inj (h.symm.trans h')
      | some x =>
        obtain ⟨s, hs, rfl⟩ := Option.map_eq_some_iff.mp h
        obtain ⟨s', hs', rfl⟩ := Option.map_eq_some_iff.mp h'
        rw [ih hs hs']

/-- What the first item leaves to the others. -/
theorem all_cons_iff {g g' : Nat} {ks : List Nat} (hlt : g < g')
    (hsorted : ∀ k ∈ ks, g' < k) :
    (∀ k, g < k → (v.view k).isSome → k ∈ g' :: ks) ↔
      (∀ k, g < k → k < g' → v.view k = none) ∧ ∀ k, g' < k → (v.view k).isSome → k ∈ ks := by
  constructor
  · intro hall
    constructor
    · intro k hk hbefore
      by_contra hview
      rcases List.mem_cons.mp (hall k hk (Option.isSome_iff_ne_none.mpr hview)) with rfl | hmem
      · exact Nat.lt_irrefl _ hbefore
      · exact Nat.lt_asymm hbefore (hsorted k hmem)
    · intro k hk hview
      rcases List.mem_cons.mp (hall k (Nat.lt_trans hlt hk) hview) with rfl | hmem
      · exact absurd hk (Nat.lt_irrefl _)
      · exact hmem
  · rintro ⟨hbetween, hrest⟩ k hk hview
    rcases Nat.lt_trichotomy k g' with hbefore | rfl | hbehind
    · rw [hbetween k hk hbefore] at hview
      cases hview
    · exact List.mem_cons_self ..
    · exact List.mem_cons_of_mem _ (hrest k hbehind hview)

/-- The iteration ends from everywhere, goes forward all the time, and visits everything exactly if
    the pages are staggered. -/
theorem visit_spec (hok : v.Ok) {n : Nat} : ∀ {it : Iter} {i : Nat} {p : Page T}, Valid v it i p →
    v.size - it.gpos ≤ n →
    ∃ fuel l, v.visit fuel it = some (l, endIt) ∧
      (it.gpos :: l.map fun e => e.1.gpos).Pairwise (· < ·) ∧
      (∀ e ∈ l, v.getPtr e.1.gpos = some e.2) ∧
      (v.Ahead it ↔ ∀ k, it.gpos < k → (v.view k).isSome → k ∈ l.map fun e => e.1.gpos) := by
  induction n with
  | zero =>
    intro it i p h hn
    have hlt := lt_sum_of_locate h.locate
    have hsize : v.size = v.sizes.sum := rfl
    omega
  | succ n ih =>
    intro it i p h hn
    rcases nextUsed_cases hok h with ⟨hnext, hahead⟩ |
      ⟨it', x, j, q, hnext, hv, hitem, hlt, hahead⟩
    · refine ⟨1, [], by rw [visit, hnext], List.pairwise_singleton .., nofun, ?_⟩
      rw [hahead]
      constructor
      · intro hnone k hk hview
        rw [hnone k hk] at hview
        cases hview
      · intro hall k hk
        by_contra hview
        cases hall k hk (Option.isSome_iff_ne_none.mpr hview)
    · obtain ⟨fuel, l, hvisit, hsorted, hitems, hiff⟩ := ih hv (by omega)
      have hvisit' : v.visit (fuel + 1) it = some ((it', x) :: l, endIt) := by
        rw [visit, hnext]
        dsimp only
        rw [hvisit]
        rfl
      refine ⟨fuel + 1, _, hvisit', ?_, ?_, ?_⟩
      · rw [List.map_cons, List.pairwise_cons]
        refine ⟨fun k hk => ?_, hsorted⟩
        rcases List.mem_cons.mp hk with rfl | hk
        · exact hlt
        · exact Nat.lt_trans hlt (List.rel_of_pairwise_cons hsorted hk)
      · intro e he
        rcases List.mem_cons.mp he with rfl | he
        · exact hitem
        · exact hitems e he
      · rw [hahead, hiff]
        exact (all_cons_iff hlt fun k hk => List.rel_of_pairwise_cons hsorted hk).symm

/-- In a well formed vector. -/
theorem scans_iff_ahead (hok : v.Ok) (h : Valid v it i p) : v.Scans it ↔ v.Ahead it := by
  obtain ⟨fuel, l, hvisit, hsorted, hitems, hiff⟩ := visit_spec hok h (Nat.le_refl _)
  rw [hiff]
  constructor
  · rintro ⟨fuel', l', hvisit', hvisits⟩
    cases visit_unique hvisit hvisit'
    exact hvisits.all
  · exact fun hall => ⟨fuel, l, hvisit, hsorted, hitems, hall⟩

variable [Inhabited T] {tr : List (IterOp T × IterState T)}

/-- **`next_used()` goes through everything**, in every vector that a run reaches and from every
    position, if and only if each page that follows begins behind where the one before it has
    ended. -/
theorem scans_iff (h : Run IterState.Step (IterState.init : IterState T) tr)
    (hr : Always (fun s a _ => s.Roomy a) (IterState.init : IterState T) tr)
    (hv : Valid (last IterState.init tr).vec it i p) :
    (last IterState.init tr).vec.Scans it ↔ (last IterState.init tr).vec.Ahead it :=
  scans_iff_ahead (IterState.run_ok h hr) hv

/-- One item in each of the first two pages. -/
def scanOps : List (IterOp Nat) :=
  [.forceIteratorAt 0, .set 0 7, .forceIteratorAt 70, .set 1 8]

theorem scans_iff_pages : ∃ tr, tr.map Prod.fst = scanOps ∧
    (last (IterState.init : IterState Nat) tr).vec.Scans ⟨some 0, 0, 0⟩ := by
  have hr := IterState.run_of_calls (Option.some_get
    (show (Lts.replay IterState.call IterState.init scanOps).isSome = true by decide)).symm
  refine ⟨_, by rfl, (scans_iff (i := 0) hr (by decide) ⟨rfl, rfl, by decide, rfl⟩).mpr (by decide)⟩

/-- The only item is the first of the second page. -/
def skipOps : List (IterOp Nat) := [.forceIteratorAt 64, .set 0 7, .begin]

theorem scans_fails : ∃ tr, Run IterState.Step (IterState.init : IterState Nat) tr ∧
    tr.map Prod.fst = skipOps ∧ (last IterState.init tr).its[1]? = some ⟨some 0, 0, 0⟩ ∧
    (last IterState.init tr).vec.nextUsed ⟨some 0, 0, 0⟩ = (endIt, none) ∧
    ((last IterState.init tr).vec.view 64).isSome ∧
    ¬ (last IterState.init tr).vec.Scans ⟨some 0, 0, 0⟩ := by
  have hr := IterState.run_of_calls (Option.some_get
    (show (Lts.replay IterState.call IterState.init skipOps).isSome = true by decide)).symm
  have hok := IterState.run_ok hr (by decide)
  refine ⟨_, hr, by rfl, by rfl, by rfl, by rfl, fun hscans => ?_⟩
  have hahead := (scans_iff_ahead (i := 0) hok ⟨rfl, rfl, by decide, rfl⟩).mp hscans
  exact absurd hahead (by decide)

end Inpvec

end CodeSLoop
