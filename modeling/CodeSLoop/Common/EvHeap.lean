import CodeSLoop.Lib.DaryHeap
import Mathlib.Logic.Function.Basic

/-!
# The heaps of the event loop (`common/libev/ev.c`)

The timers of a loop are in a heap of four children to a place, which begins at `HEAP0`. Each watcher
knows its place (`active`), so that it can be taken out. An element that is moved is held in a
variable and written when its place is found, so on the way the array has another element twice;
what is true then is said of the array with the held element put in (`AnHeap.Holding`).

`adjustheap` makes a heap of one in which one element was exchanged for any other one
(`adjustheap_spec`), and `reheap` of any array (`reheap_spec`).

The timestamps are of any type with a linear order: nothing is assumed of how they are added.
-/

namespace CodeSLoop.Ev

open DaryHeap (Rearranged Ordered Around Up Down parent_lt le_parent parent_eq_iff)

universe u v

/-! ## The code -/

def DHEAP : Nat := 4

/-- The index of the first element. -/
def HEAP0 : Nat := DHEAP - 1

def hparent (k : Nat) : Nat := (k - HEAP0 - 1) / DHEAP + HEAP0

/-- `ANHE`: an element of a heap; `ANHE_at` is the timestamp that is kept with it. -/
structure Anhe (ω : Type u) (T : Type v) where
  at_ : T
  w : ω

/-- A heap, and `active` of its watchers. -/
structure AnHeap (ω : Type u) (T : Type v) where
  heap : Nat → Anhe ω T
  active : ω → Nat

section Children

variable {ω : Type u} {T : Type v} [LinearOrder T]

/-- The place `i` instead of `minpos`, if its timestamp is less. -/
def lessOf (heap : Nat → Anhe ω T) (minpos i : Nat) : Nat :=
  if (heap i).at_ < (heap minpos).at_ then i else minpos

/-- The least child of those from `pos` on, before `e`. -/
def minpos (heap : Nat → Anhe ω T) (e pos : Nat) : Option Nat :=
  if pos + DHEAP - 1 < e then
    -- all four are there
    some (lessOf heap (lessOf heap (lessOf heap pos (pos + 1)) (pos + 2)) (pos + 3))
  else if pos < e then
    let m := pos
    let m := if pos + 1 < e then lessOf heap m (pos + 1) else m
    let m := if pos + 2 < e then lessOf heap m (pos + 2) else m
    let m := if pos + 3 < e then lessOf heap m (pos + 3) else m
    some m
  else none

theorem lessOf_cases (heap : Nat → Anhe ω T) (m i : Nat) :
    (lessOf heap m i = m ∧ (heap m).at_ ≤ (heap i).at_) ∨
      (lessOf heap m i = i ∧ (heap i).at_ < (heap m).at_) := by
  unfold lessOf
  split
  · exact Or.inr ⟨rfl, ‹_›⟩
  · exact Or.inl ⟨rfl, le_of_not_gt ‹_›⟩

/-- A child that is there is not less than what was found. -/
structure Least (heap : Nat → Anhe ω T) (e pos n m : Nat) : Prop where
  place : pos ≤ m ∧ m < pos + n ∧ m < e
  least : ∀ j, pos ≤ j → j < pos + n → j < e → (heap m).at_ ≤ (heap j).at_

theorem Least.next {heap : Nat → Anhe ω T} {e pos n m : Nat} (h : Least heap e pos n m) :
    Least heap e pos (n + 1) (if pos + n < e then lessOf heap m (pos + n) else m) := by
  have hlast {x : Nat} (hx : ∀ j, pos ≤ j → j < pos + n → j < e → (heap x).at_ ≤ (heap j).at_)
      (hn : pos + n < e → (heap x).at_ ≤ (heap (pos + n)).at_) :
      ∀ j, pos ≤ j → j < pos + (n + 1) → j < e → (heap x).at_ ≤ (heap j).at_ := by
    intro j hpos hj he
    by_cases hlt : j < pos + n
    · exact hx j hpos hlt he
    · have heq : j = pos + n := by omega
      exact heq ▸ hn (heq ▸ he)
  obtain ⟨hpos, hm, he⟩ := h.place
  by_cases hn : pos + n < e
  · rw [if_pos hn]
    rcases lessOf_cases heap m (pos + n) with ⟨heq, hle⟩ | ⟨heq, hlt⟩
    · rw [heq]
      exact ⟨⟨hpos, by omega, he⟩, hlast h.least fun _ => hle⟩
    · rw [heq]
      refine ⟨⟨by omega, by omega, hn⟩, hlast (fun j hpos hj he => ?_) fun _ => le_rfl⟩
      exact hlt.le.trans (h.least j hpos hj he)
  · rw [if_neg hn]
    exact ⟨⟨hpos, by omega, he⟩, hlast h.least fun hn' => absurd hn' hn⟩

/-- **The two paths find the same**: a child that none is less than. -/
theorem minpos_some {heap : Nat → Anhe ω T} {e pos m : Nat} (h : minpos heap e pos = some m) :
    Least heap e pos DHEAP m := by
  have hfirst (hlt : pos < e) : Least heap e pos 1 pos := by
    refine ⟨⟨le_rfl, by omega, hlt⟩, fun j hpos hj _ => ?_⟩
    have heq : j = pos := by omega
    exact heq ▸ le_rfl
  unfold minpos at h
  split at h
  · have hall : pos + 3 < e := by
      simp only [DHEAP] at *
      omega
    have h4 := (hfirst (by omega)).next.next.next
    rw [if_pos (by omega), if_pos (by omega), if_pos (by omega)] at h4
    exact Option.some.inj h ▸ h4
  · split at h
    · exact Option.some.inj h ▸ (hfirst ‹_›).next.next.next
    · exact absurd h (by simp)

theorem minpos_none {heap : Nat → Anhe ω T} {e pos : Nat} (h : minpos heap e pos = none) : e ≤ pos := by
  unfold minpos at h
  split at h
  · exact absurd h (by simp)
  · split at h
    · exact absurd h (by simp)
    · exact Nat.le_of_not_lt ‹_›

end Children

section Moves

variable {ω : Type u} {T : Type v} [DecidableEq ω]

/-- `heap [k] = he; ev_active (ANHE_w (he)) = k;` -/
def AnHeap.put (h : AnHeap ω T) (k : Nat) (he : Anhe ω T) : AnHeap ω T where
  heap := Function.update h.heap k he
  active := Function.update h.active he.w k

theorem le_hparent {k : Nat} : HEAP0 ≤ hparent k := Nat.le_add_left _ _

variable [LinearOrder T]

/-- The loop of `downheap`, for the element `he` that is held and the place `k`. -/
def downLoop (e : Nat) (he : Anhe ω T) (h : AnHeap ω T) (k : Nat) : AnHeap ω T :=
  match _hm : minpos h.heap e (DHEAP * (k - HEAP0) + HEAP0 + 1) with
  | none => h.put k he
  | some m =>
    if he.at_ ≤ (h.heap m).at_ then h.put k he
    else downLoop e he (h.put k (h.heap m)) m
termination_by e - k
decreasing_by
  have hplace := (minpos_some _hm).place
  simp only [DHEAP, HEAP0] at hplace
  omega

/-- `downheap`: away from the root. -/
def downheap (h : AnHeap ω T) (n k : Nat) : AnHeap ω T := downLoop (n + HEAP0) (h.heap k) h k

/-- The loop of `upheap`. -/
def upLoop (he : Anhe ω T) (h : AnHeap ω T) (k : Nat) (_hk : HEAP0 ≤ k) : AnHeap ω T :=
  if hparent k = k ∨ (h.heap (hparent k)).at_ ≤ he.at_ then h.put k he
  else upLoop he (h.put k (h.heap (hparent k))) (hparent k) le_hparent
termination_by k
decreasing_by
  have hne : hparent k ≠ k := by
    intro heq
    exact ‹¬ _› (Or.inl heq)
  simp only [hparent, DHEAP, HEAP0] at *
  omega

/-- `upheap`: towards the root. -/
def upheap (h : AnHeap ω T) (k : Nat) (hk : HEAP0 ≤ k) : AnHeap ω T := upLoop (h.heap k) h k hk

/-- `adjustheap`: moves an element suitably so it is in a correct place. -/
def adjustheap (h : AnHeap ω T) (n k : Nat) : AnHeap ω T :=
  if hk : k > HEAP0 ∧ (h.heap k).at_ ≤ (h.heap (hparent k)).at_ then upheap h k hk.1.le
  else downheap h n k

/-- `reheap`: rebuilds the heap. -/
def reheap (h : AnHeap ω T) : Nat → AnHeap ω T
  | 0 => h
  | n + 1 => upheap (reheap h n) (n + HEAP0) (Nat.le_add_left _ _)

end Moves

/-! ## An element that is held -/

section Held

variable {ω : Type u} {T : Type v}

/-- The places of a heap of `n` elements. -/
def InHeap (n k : Nat) : Prop := HEAP0 ≤ k ∧ k < HEAP0 + n

/-- The timestamps at the places. -/
def keys (heap : Nat → Anhe ω T) (k : Nat) : T := (heap k).at_

/-- No watcher is in the heap twice. -/
def Apart (n : Nat) (heap : Nat → Anhe ω T) : Prop :=
  ∀ i j, InHeap n i → InHeap n j → (heap i).w = (heap j).w → i = j

/-- Each watcher knows its place, except for the one at `k`. -/
def Known (n : Nat) (heap : Nat → Anhe ω T) (active : ω → Nat) (k : Nat) : Prop :=
  ∀ i, InHeap n i → i ≠ k → active (heap i).w = i

/-- The heap `h` comes from `h0`: it has the same elements, each watcher knows its place,
    and nothing is done to a watcher that is not in it. -/
structure AnHeap.From (h : AnHeap ω T) (n : Nat) (h0 : AnHeap ω T) : Prop where
  same : Rearranged HEAP0 n h0.heap h.heap
  active : ∀ i, InHeap n i → h.active (h.heap i).w = i
  others : ∀ w, (∀ i, InHeap n i → (h0.heap i).w ≠ w) → h.active w = h0.active w

/-- **While `he` is held**, for the place `k`. -/
structure AnHeap.Holding (h : AnHeap ω T) (n : Nat) (h0 : AnHeap ω T) (he : Anhe ω T) (k : Nat) : Prop where
  place : InHeap n k
  same : Rearranged HEAP0 n h0.heap (Function.update h.heap k he)
  apart : Apart n (Function.update h.heap k he)
  known : Known n (Function.update h.heap k he) h.active k
  others : ∀ w, (∀ i, InHeap n i → (h0.heap i).w ≠ w) → h.active w = h0.active w

variable {h h0 : AnHeap ω T} {n k p : Nat} {he : Anhe ω T}

theorem AnHeap.Holding.start (hk : InHeap n k) (hapart : Apart n h.heap) (hknown : Known n h.heap h.active k) :
    h.Holding n h (h.heap k) k where
  place := hk
  same := by
    rw [Function.update_eq_self]
    exact Rearranged.refl _ _ _
  apart := by rwa [Function.update_eq_self]
  known := by rwa [Function.update_eq_self]
  others _ _ := rfl

/-- An element of the heap is one that was there at the beginning. -/
theorem AnHeap.Holding.mem (hh : h.Holding n h0 he k) {w : ω} (hw : ∀ i, InHeap n i → (h0.heap i).w ≠ w)
    {i : Nat} (hi : InHeap n i) : (Function.update h.heap k he i).w ≠ w := by
  obtain ⟨j, hj, heq⟩ := hh.same.exists_from hi
  rw [heq]
  exact hw j hj

theorem keys_held (heap : Nat → Anhe ω T) (k : Nat) (he : Anhe ω T) :
    keys (Function.update heap k he) k = he.at_ := by
  rw [keys, Function.update_self]

theorem keys_other (heap : Nat → Anhe ω T) (he : Anhe ω T) {j : Nat} (hj : j ≠ k) :
    keys (Function.update heap k he) j = (heap j).at_ := by
  rw [keys, Function.update_of_ne hj]

variable [DecidableEq ω]

/-- **The element is written.** -/
theorem AnHeap.Holding.put (hh : h.Holding n h0 he k) : (h.put k he).From n h0 where
  same := hh.same
  active i hi := by
    show Function.update h.active he.w k (Function.update h.heap k he i).w = i
    by_cases hik : i = k
    · rw [hik, Function.update_self, Function.update_self]
    · have hne : (Function.update h.heap k he i).w ≠ he.w := by
        intro heq
        refine hik (hh.apart i k hi hh.place ?_)
        rw [heq, Function.update_self]
      rw [Function.update_of_ne hne]
      exact hh.known i hi hik
  others w hw := by
    have hne := hh.mem hw hh.place
    rw [Function.update_self] at hne
    show Function.update h.active he.w k w = h0.active w
    rw [Function.update_of_ne hne.symm]
    exact hh.others w hw

/-- The array with the held element at its next place. -/
theorem update_put (h : AnHeap ω T) (he : Anhe ω T) (hne : p ≠ k) :
    Function.update (h.put k (h.heap p)).heap p he = Function.update h.heap k he ∘ Equiv.swap k p := by
  funext i
  by_cases hip : i = p
  · subst hip
    simp
  · by_cases hik : i = k
    · subst hik
      simp [AnHeap.put, hip, hne]
    · simp [AnHeap.put, hip, hik, Equiv.swap_apply_of_ne_of_ne hik hip]

/-- **Another element takes the place**, and the next one is where that was. -/
theorem AnHeap.Holding.move (hh : h.Holding n h0 he k) (hp : InHeap n p) (hne : p ≠ k) :
    (h.put k (h.heap p)).Holding n h0 he p where
  place := hp
  same := by
    rw [update_put h he hne]
    exact hh.same.trans (Rearranged.swap _ hh.place hp)
  apart := by
    rw [update_put h he hne]
    exact (Rearranged.swap _ hh.place hp).injective hh.apart
  known i hi hip := by
    rw [update_put h he hne]
    show Function.update h.active (h.heap p).w k _ = i
    have hatp : Function.update h.heap k he p = h.heap p := Function.update_of_ne hne _ _
    by_cases hik : i = k
    · rw [hik, Function.comp_apply, Equiv.swap_apply_left, hatp, Function.update_self]
    · have hw : (Function.update h.heap k he i).w ≠ (h.heap p).w := by
        intro heq
        rw [← hatp] at heq
        exact hip (hh.apart i p hi hp heq)
      rw [Function.comp_apply, Equiv.swap_apply_of_ne_of_ne hik hip, Function.update_of_ne hw]
      exact hh.known i hi hik
  others w hw := by
    have hne' := hh.mem hw hp
    rw [Function.update_of_ne hne] at hne'
    show Function.update h.active (h.heap p).w k w = h0.active w
    rw [Function.update_of_ne hne'.symm]
    exact hh.others w hw

theorem keys_update_put (h : AnHeap ω T) (he : Anhe ω T) (hne : p ≠ k) :
    keys (Function.update (h.put k (h.heap p)).heap p he) =
      keys (Function.update h.heap k he) ∘ Equiv.swap k p := by
  rw [update_put h he hne]
  rfl

end Held

/-! ## The loops -/

section Loops

variable {ω : Type u} {T : Type v} [DecidableEq ω] [LinearOrder T] {h h0 : AnHeap ω T} {n k : Nat}
  {he : Anhe ω T}

/-- The children of a place are those that `downheap` looks at. -/
theorem child_iff {j : Nat} (hk : HEAP0 ≤ k) (hj : HEAP0 < j) :
    DaryHeap.parent DHEAP HEAP0 j = k ↔
      DHEAP * (k - HEAP0) + HEAP0 + 1 ≤ j ∧ j < DHEAP * (k - HEAP0) + HEAP0 + 1 + DHEAP :=
  parent_eq_iff (by decide) hj hk

/-- The loop ends where the element is not above a child. -/
theorem downLoop_spec (hh : h.Holding n h0 he k)
    (hdown : Down DHEAP HEAP0 n (keys (Function.update h.heap k he)) k) :
    (downLoop (n + HEAP0) he h k).From n h0 ∧
      Ordered DHEAP HEAP0 n (keys (downLoop (n + HEAP0) he h k).heap) := by
  induction hm : n + HEAP0 - k using Nat.strongRecOn generalizing h k with
  | _ m ih =>
    have hk := hh.place
    rw [downLoop]
    split
    · rename_i hnone
      have hend := minpos_none hnone
      refine ⟨hh.put, hdown.ordered fun j hr hj hpar => ?_⟩
      have hge := ((child_iff hk.1 hr).mp hpar).1
      omega
    · rename_i c hsome
      obtain ⟨⟨hfirst, hlast, hend⟩, hleast⟩ := minpos_some hsome
      have hkc : k < c := by
        simp only [DHEAP, HEAP0] at hfirst
        omega
      have hr : HEAP0 < c := hk.1.trans_lt hkc
      have hpar : DaryHeap.parent DHEAP HEAP0 c = k := (child_iff hk.1 hr).mpr ⟨hfirst, hlast⟩
      -- no child is less than `c`
      have hmin (j : Nat) (hj : HEAP0 < j) (hjn : j < HEAP0 + n) (hjp : DaryHeap.parent DHEAP HEAP0 j = k) :
          (h.heap c).at_ ≤ (h.heap j).at_ := by
        obtain ⟨hj1, hj2⟩ := (child_iff hk.1 hj).mp hjp
        exact hleast j hj1 hj2 (by omega)
      have hkj {j : Nat} (hj : HEAP0 < j) (hjp : DaryHeap.parent DHEAP HEAP0 j = k) : j ≠ k := by
        have hlt : DaryHeap.parent DHEAP HEAP0 j < j := parent_lt hj
        omega
      by_cases hle : he.at_ ≤ (h.heap c).at_
      · rw [if_pos hle]
        refine ⟨hh.put, hdown.ordered fun j hj hjn hjp => ?_⟩
        rw [keys_held, keys_other _ _ (hkj hj hjp)]
        exact hle.trans (hmin j hj hjn hjp)
      · rw [if_neg hle]
        have hck : c ≠ k := by omega
        refine ih _ (by omega) (hh.move ⟨hr.le, by omega⟩ hck) ?_ rfl
        rw [keys_update_put _ _ hck]
        refine hdown.swap hr (by omega) hpar (fun j hj hjn hjp => ?_) ?_
        · rw [keys_other _ _ hck, keys_other _ _ (hkj hj hjp)]
          exact hmin j hj hjn hjp
        · rw [keys_held, keys_other _ _ hck]
          exact lt_of_not_ge hle

/-- The loop ends where the element is not below the parent. -/
theorem upLoop_spec (hk : HEAP0 ≤ k) (hh : h.Holding n h0 he k)
    (hup : Up DHEAP HEAP0 n (keys (Function.update h.heap k he)) k) :
    (upLoop he h k hk).From n h0 ∧ Ordered DHEAP HEAP0 n (keys (upLoop he h k hk).heap) := by
  induction k using Nat.strongRecOn generalizing h with
  | _ k ih =>
    rw [upLoop]
    by_cases hdone : hparent k = k ∨ (h.heap (hparent k)).at_ ≤ he.at_
    · rw [if_pos hdone]
      refine ⟨hh.put, hup.ordered fun hlt => ?_⟩
      have hpk : hparent k < k := parent_lt hlt
      rcases hdone with heq | hle
      · omega
      · rw [keys_held]
        exact (keys_other _ _ hpk.ne).trans_le hle
    · rw [if_neg hdone]
      simp only [not_or, not_le] at hdone
      have hr : HEAP0 < k := by
        refine lt_of_le_of_ne hk ?_
        rintro rfl
        exact hdone.1 rfl
      have hpk : hparent k < k := parent_lt hr
      have hlast := hh.place.2
      refine ih _ hpk le_hparent (hh.move ⟨le_hparent, by omega⟩ hpk.ne) ?_
      rw [keys_update_put _ _ hpk.ne]
      refine hup.swap hr hlast rfl ?_
      rw [keys_held, keys_other _ _ hpk.ne]
      exact hdone.2

/-- **`upheap`**, when all but the place of the element is in order. -/
theorem upheap_spec (hk : InHeap n k) (hapart : Apart n h.heap) (hknown : Known n h.heap h.active k)
    (hup : Up DHEAP HEAP0 n (keys h.heap) k) :
    (upheap h k hk.1).From n h ∧ Ordered DHEAP HEAP0 n (keys (upheap h k hk.1).heap) := by
  refine upLoop_spec hk.1 (.start hk hapart hknown) ?_
  rwa [Function.update_eq_self]

/-- **`downheap`**, in the same way. -/
theorem downheap_spec (hk : InHeap n k) (hapart : Apart n h.heap) (hknown : Known n h.heap h.active k)
    (hdown : Down DHEAP HEAP0 n (keys h.heap) k) :
    (downheap h n k).From n h ∧ Ordered DHEAP HEAP0 n (keys (downheap h n k).heap) := by
  refine downLoop_spec (.start hk hapart hknown) ?_
  rwa [Function.update_eq_self]

/-- **`adjustheap`** makes a heap again when any element was put at the place `k`. -/
theorem adjustheap_spec (hk : InHeap n k) (hapart : Apart n h.heap) (hknown : Known n h.heap h.active k)
    (haround : Around DHEAP HEAP0 n (keys h.heap) k) :
    (adjustheap h n k).From n h ∧ Ordered DHEAP HEAP0 n (keys (adjustheap h n k).heap) := by
  unfold adjustheap
  by_cases hup : k > HEAP0 ∧ (h.heap k).at_ ≤ (h.heap (hparent k)).at_
  · rw [dif_pos hup]
    exact upheap_spec hk hapart hknown (haround.up hup.1 hup.2)
  · rw [dif_neg hup]
    refine downheap_spec hk hapart hknown ⟨haround, fun hlt => ?_⟩
    exact (lt_of_not_ge fun hle => hup ⟨hlt, hle⟩).le

/-- **`reheap`** makes a heap of any array in which no watcher is twice: it sets the place of each,
    whatever they were before. -/
theorem reheap_spec (h : AnHeap ω T) (n : Nat) (hapart : Apart n h.heap) :
    (reheap h n).From n h ∧ Ordered DHEAP HEAP0 n (keys (reheap h n).heap) := by
  -- the first `m` places are a heap, and the rest is as it was
  have hstep (m : Nat) (hm : m ≤ n) :
      (reheap h m).From m h ∧ Ordered DHEAP HEAP0 m (keys (reheap h m).heap) := by
    induction m with
    | zero =>
      refine ⟨⟨Rearranged.refl _ _ _, fun i hi => ?_, fun _ _ => rfl⟩, fun j _ hj => absurd hj (by omega)⟩
      exact absurd hi.2 (Nat.not_lt.mpr hi.1)
    | succ m ih =>
      obtain ⟨hfrom, hordered⟩ := ih (by omega)
      have hplace : InHeap (m + 1) (m + HEAP0) := ⟨Nat.le_add_left _ _, by omega⟩
      have hsame : Rearranged HEAP0 (m + 1) h.heap (reheap h m).heap := hfrom.same.mono (Nat.le_succ m)
      have hin {i : Nat} (hi : InHeap (m + 1) i) : InHeap n i := ⟨hi.1, hi.2.trans_le (by omega)⟩
      have happ : Apart (m + 1) (reheap h m).heap :=
        hsame.injective fun i j hi hj => hapart i j (hin hi) (hin hj)
      have hknown : Known (m + 1) (reheap h m).heap (reheap h m).active (m + HEAP0) :=
        fun i hi hne => hfrom.active i ⟨hi.1, by have := hi.2; omega⟩
      have hpush := hordered.push (g := keys (reheap h m).heap) fun _ _ => rfl
      rw [Nat.add_comm HEAP0 m] at hpush
      obtain ⟨hnext, hord⟩ := upheap_spec hplace happ hknown hpush
      refine ⟨⟨hsame.trans hnext.same, hnext.active, fun w hw => ?_⟩, hord⟩
      refine (hnext.others w fun i hi heq => ?_).trans (hfrom.others w fun i hi => hw i ⟨hi.1, ?_⟩)
      · obtain ⟨j, hj, hji⟩ := hsame.exists_from hi
        exact hw j hj (hji ▸ heq)
      · have := hi.2
        omega
  exact hstep n le_rfl

/-- An array in which the timestamps go down, of watchers that all say that they are not active. -/
theorem reheap_spec_falling :
    (∀ i, InHeap 100 i → (reheap (⟨fun i => ⟨200 - i, i⟩, fun _ => 0⟩ : AnHeap Nat Nat) 100).active
      ((reheap (⟨fun i => ⟨200 - i, i⟩, fun _ => 0⟩ : AnHeap Nat Nat) 100).heap i).w = i) ∧
    Ordered DHEAP HEAP0 100 (keys (reheap (⟨fun i => ⟨200 - i, i⟩, fun _ => 0⟩ : AnHeap Nat Nat) 100).heap) := by
  have hall := reheap_spec (⟨fun i => ⟨200 - i, i⟩, fun _ => 0⟩ : AnHeap Nat Nat) 100 fun _ _ _ _ heq => heq
  exact ⟨hall.1.active, hall.2⟩

end Loops

end CodeSLoop.Ev
