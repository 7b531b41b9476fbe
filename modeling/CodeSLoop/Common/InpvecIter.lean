import CodeSLoop.Common.InpvecMap

/-!
# The iterators of an `inpvec` (`inpvec::iterator`)

An iterator is a page, the place in it, and `gpos_`, the position of that place in the vector.
Nothing computes `gpos_` from the other two: every operation that moves an iterator adds to it
what it thinks it has moved by. It is at least `pos_` always, so that the 64-bit sums are exact.

The program keeps as many iterators as it likes. `IterState` is a vector and all of them, and its
steps are the calls that get, move and use them. The vector stays well formed (`Ok`) as long as
nothing is put where the page has no room (`IterState.run_ok`), whatever the iterators are.
-/

namespace CodeSLoop

open Bits Segments Lts Inpvec

universe u

variable {T : Type u}

namespace Page

/-- `is_last(at)`: no bit is set behind this one. -/
def isLast (p : Page T) (k : Nat) : Bool :=
  let off := k / 64
  let pos := k % 64
  if off > p.mul.toNat then true
  else
    (List.range' (pos + 1) (64 - (pos + 1))).all (fun j => !test (p.bmap off) j) &&
      (List.range' (off + 1) (p.mul.toNat - (off + 1))).all fun i =>
        p.bmap i = 0#64 || (List.range 64).all fun j => !test (p.bmap i) j

/-- The loop of `next_used`, with `n` words to go. -/
def nextUsedLoop (bmap : Nat → BitVec 64) : Nat → Nat → Nat → Option Nat
  | 0, _, _ => none
  | n + 1, i, pos =>
    if bmap i = 0#64 then nextUsedLoop bmap n (i + 1) 0
    else
      match nextSet (bmap i) (64 - pos) pos with
      | some j => some ((UInt32.ofNat i * 64).toNat + j)
      | none => nextUsedLoop bmap n (i + 1) 0

/-- `next_used(at)`. -/
def nextUsed (p : Page T) (k : Nat) : Option Nat :=
  nextUsedLoop p.bmap (p.mul.toNat - (k + 1) / 64) ((k + 1) / 64) ((k + 1) % 64)

end Page

namespace Inpvec

/-- `begin()`. -/
def begin (v : Inpvec T) : Iter := if v.nItems = 0 then endIt else ⟨some 0, 0, 0⟩

/-- `iterator::operator*`. -/
def star (v : Inpvec T) (it : Iter) : Option Ptr :=
  match it.page with
  | none => none
  | some i => if v.isUsed ⟨i, it.pos⟩ then some ⟨i, it.pos⟩ else none

/-- `iterator::operator==`. -/
def Iter.eq (a b : Iter) : Bool := a.page = b.page && a.gpos = b.gpos

/-- `iterator::operator++`. -/
def inc (v : Inpvec T) (it : Iter) : Iter :=
  match it.page with
  | none => endIt
  | some i =>
    match v.pages[i]? with
    | none => endIt
    | some p =>
      if p.isLast it.pos then
        if i + 1 < v.pages.length then ⟨some (i + 1), 0, it.gpos + 1⟩ else endIt
      else ⟨some i, it.pos + 1, it.gpos + 1⟩

/-- The loop of `iterator::next_used`, at page `i`. `newpos` is the place it searches from. -/
def nextUsedLoop : List (Page T) → Nat → Nat → Nat → Nat → Iter × Option Ptr
  | [], _, _, _, _ => (endIt, none)
  | p :: ps, i, newpos, pos, gpos =>
    match p.nextUsed newpos with
    | some k => (⟨some i, k, gpos + k - pos⟩, some ⟨i, k⟩)
    | none => nextUsedLoop ps (i + 1) pos 0 (gpos + p.size - pos)

/-- `iterator::next_used()`. -/
def nextUsed (v : Inpvec T) (it : Iter) : Iter × Option Ptr :=
  match it.page with
  | none => (endIt, none)
  | some i => nextUsedLoop (v.pages.drop i) i it.pos it.pos it.gpos

/-- The loop of `first_free_pos`. -/
def firstFreePosLoop : List (Page T) → Nat → Nat
  | [], pos => pos
  | p :: ps, pos =>
    let pos := pos + p.firstFree
    if p.firstFree ≠ p.size then pos else firstFreePosLoop ps pos

/-- `first_free_pos()`. -/
def firstFreePos (v : Inpvec T) : Nat := firstFreePosLoop v.pages 0

/-- `last_free_pos()`. -/
def lastFreePos (v : Inpvec T) : Nat := v.tail.lastFree + base v.sizes (v.pages.length - 1)

/-! ## A vector and its iterators -/

structure IterState (T : Type u) where
  vec : Inpvec T
  its : List Iter

/-- The first six make a new iterator. -/
inductive IterOp (T : Type u)
  | begin
  | iteratorAt (pos : UInt64)
  | forceIteratorAt (pos : UInt64)
  | firstFree
  | lastFree
  | copy (n : Nat)
  | inc (n : Nat)
  | nextUsed (n : Nat)
  | set (n : Nat) (t : T)
  | construct (n : Nat)
  | free (n : Nat)
  | freeAt (pos : UInt64)
  | reset

namespace IterState

def init : IterState T := ⟨Inpvec.init, []⟩

/-- One call, `force_iterator_at` cut off after `fuel` calls. After `reset` the iterators are
    gone. -/
def exec [Inhabited T] (s : IterState T) (fuel : Nat) : IterOp T → Option (IterState T)
  | .begin => some { s with its := s.its ++ [s.vec.begin] }
  | .iteratorAt pos => some { s with its := s.its ++ [s.vec.iteratorAt pos.toNat] }
  | .forceIteratorAt pos =>
    (s.vec.forceIteratorAt pos.toNat fuel).map fun r => ⟨r.1, s.its ++ [r.2]⟩
  | .firstFree => s.vec.firstFree.map fun r => ⟨r.1, s.its ++ [r.2]⟩
  | .lastFree => s.vec.lastFree.map fun r => ⟨r.1, s.its ++ [r.2]⟩
  | .copy n => s.its[n]?.map fun it => { s with its := s.its ++ [it] }
  | .inc n => s.its[n]?.map fun it => { s with its := s.its.set n (s.vec.inc it) }
  | .nextUsed n => s.its[n]?.map fun it => { s with its := s.its.set n (s.vec.nextUsed it).1 }
  | .set n t => s.its[n]?.map fun it => { s with vec := (s.vec.iterSet it t).1 }
  | .construct n => s.its[n]?.map fun it => { s with vec := (s.vec.iterConstruct it).1 }
  | .free n => s.its[n]?.map fun it => { s with vec := s.vec.iterFree it }
  | .freeAt pos => some { s with vec := (s.vec.freeAt pos.toNat).1 }
  | .reset => some ⟨s.vec.reset, []⟩

/-- A call for a trace. -/
def call [Inhabited T] (s : IterState T) (a : IterOp T) : Option (IterOp T × IterState T) :=
  (s.exec 2 a).map (a, ·)

def Step [Inhabited T] (s : IterState T) (a : IterOp T) (s' : IterState T) : Prop :=
  ∃ fuel, s.exec fuel a = some s'

theorem run_of_calls [Inhabited T] {s : IterState T} {as : List (IterOp T)}
    {tr : List (IterOp T × IterState T)} (h : Lts.replay call s as = some tr) : Run Step s tr := by
  refine Lts.run_of_replay (fun s a e he => ?_) as h
  obtain ⟨s', hs', rfl⟩ := Option.map_eq_some_iff.mp he
  exact ⟨2, hs'⟩

end IterState

/-- The page under an iterator has room for its place. -/
def HasRoom (v : Inpvec T) (it : Iter) : Prop :=
  ∀ i ∈ it.page, ∀ p ∈ v.pages[i]?, it.pos < p.size

/-- The calls that put an item where there is room for it. -/
def IterState.Roomy (s : IterState T) : IterOp T → Prop
  | .set n _ | .construct n => ∀ it ∈ s.its[n]?, s.vec.HasRoom it
  | _ => True

instance (v : Inpvec T) (it : Iter) : Decidable (v.HasRoom it) := by
  unfold HasRoom
  infer_instance

instance (s : IterState T) (a : IterOp T) : Decidable (s.Roomy a) := by
  cases a <;> unfold IterState.Roomy <;> infer_instance

/-! ## The vector stays well formed -/

variable {v v' : Inpvec T} {it : Iter} {i : Nat} {p : Page T} {t : T}

/-- The page is there, if the iterator is not `end()`. -/
def Lives (v : Inpvec T) (it : Iter) : Prop := ∀ i ∈ it.page, i < v.pages.length

theorem lives_endIt : v.Lives endIt := nofun

theorem Valid.lives (h : Valid v it i p) : v.Lives it := by
  intro j hj
  rw [h.page] at hj
  cases hj
  exact (List.getElem?_eq_some_iff.mp h.get).1

theorem Lives.mono (h : v.Lives it) (hle : v.pages.length ≤ v'.pages.length) : v'.Lives it :=
  fun i hi => Nat.lt_of_lt_of_le (h i hi) hle

theorem Extends.length_le (h : Extends v v') : v.pages.length ≤ v'.pages.length := by
  obtain ⟨ms, hms⟩ := h.pages
  rw [hms, List.length_append]
  exact Nat.le_add_right _ _

theorem length_of_sizes (h : v'.sizes = v.sizes) : v'.pages.length = v.pages.length := by
  have hlen := congrArg List.length h
  rwa [sizes, sizes, List.length_map, List.length_map] at hlen

/-- The position takes no part in what an iterator does to the vector. -/
theorem valid_of_room (hlives : v.Lives it) (hroom : v.HasRoom it) (hi : it.page = some i) :
    ∃ p, Valid v { it with gpos := base v.sizes i + it.pos } i p := by
  have hget := List.getElem?_eq_getElem (hlives i hi)
  exact ⟨_, hi, hget, hroom i hi _ hget, rfl⟩

theorem ok_iterSet (hok : v.Ok) (hlives : v.Lives it) (hroom : v.HasRoom it) :
    (v.iterSet it t).1.Ok := by
  cases hi : it.page with
  | none =>
    rw [iterSet, hi]
    exact hok
  | some i =>
    obtain ⟨p, hv⟩ := valid_of_room hlives hroom hi
    exact (iterSet_spec hok hv).2.1

theorem ok_iterConstruct [Inhabited T] (hok : v.Ok) (hlives : v.Lives it) (hroom : v.HasRoom it) :
    (v.iterConstruct it).1.Ok := by
  cases hi : it.page with
  | none =>
    rw [iterConstruct, hi]
    exact hok
  | some i =>
    obtain ⟨p, hv⟩ := valid_of_room hlives hroom hi
    exact (iterConstruct_spec hok hv).2.1

/-- Where nothing is, there is nothing to destroy. -/
theorem ok_iterFree (hok : v.Ok) (hlives : v.Lives it) : (v.iterFree it).Ok := by
  cases hi : it.page with
  | none =>
    rw [iterFree, hi]
    exact hok
  | some i =>
    obtain ⟨p, hget⟩ : ∃ p, v.pages[i]? = some p := ⟨_, List.getElem?_eq_getElem (hlives i hi)⟩
    have hp := hok.getElem? hget
    by_cases hlt : it.pos < p.size
    · have hv : Valid v { it with gpos := base v.sizes i + it.pos } i p := ⟨hi, hget, hlt, rfl⟩
      exact (iterFree_spec hok hv).2
    · have hused : p.isUsed it.pos = false := hp.beyond _ (Nat.le_of_not_lt hlt)
      have hsame : p.destroy it.pos = p := by
        rw [Page.destroy, hused]
        rfl
      have hnone : v.isUsed ⟨i, it.pos⟩ = false := by
        rw [isUsed, hget]
        exact hused
      rw [iterFree, hi]
      dsimp only
      rw [hnone]
      refine hok.onPage hget hp.destroy ?_
      rw [hsame]
      rfl

theorem ok_freeAt {k : Nat} (hok : v.Ok) : (v.freeAt k).1.Ok := (freeAt_spec hok).2.1

theorem firstFree_lives {r : Inpvec T × Iter} (hok : v.Ok) (h : v.firstFree = some r) :
    Extends v r.1 ∧ r.1.Lives r.2 := by
  by_cases heq : ∀ p ∈ v.pages, p.firstFree = p.size
  · rw [firstFree_full heq, Option.map_eq_some_iff] at h
    obtain ⟨v', ha, rfl⟩ := h
    refine ⟨allocate_extends ha, fun i hi => ?_⟩
    cases hi
    rw [(allocate_some ha).1, List.length_append]
    exact Nat.lt_succ_self _
  · obtain ⟨it, i, p, hl, hv, -⟩ := firstFree_room hok heq
    rw [h, Option.some.injEq] at hl
    subst hl
    exact ⟨.refl, hv.lives⟩

theorem lastFree_lives {r : Inpvec T × Iter} (hok : v.Ok) (h : v.lastFree = some r) :
    Extends v r.1 ∧ r.1.Lives r.2 := by
  by_cases heq : v.tail.lastFree = v.tail.size
  · rw [lastFree_full heq, Option.map_eq_some_iff] at h
    obtain ⟨v', ha, rfl⟩ := h
    refine ⟨allocate_extends ha, fun i hi => ?_⟩
    cases hi
    rw [(allocate_some ha).1, List.length_append]
    exact Nat.lt_succ_self _
  · obtain ⟨it, hl, hv, -⟩ := lastFree_room hok heq
    rw [h, Option.some.injEq] at hl
    subst hl
    exact ⟨.refl, hv.lives⟩

theorem lives_begin : v.Lives v.begin := by
  rw [begin]
  split
  · exact lives_endIt
  · intro i hi
    cases hi
    exact List.length_pos_of_ne_nil v.pages_ne

theorem lives_iteratorAt {k : Nat} : v.Lives (v.iteratorAt k) := by
  rcases iteratorAt_cases v k with ⟨he, -⟩ | ⟨i, p, hv, -⟩
  · rw [he]
    exact lives_endIt
  · exact hv.lives

theorem lives_inc : v.Lives (v.inc it) := by
  rw [inc]
  split
  · exact lives_endIt
  · rename_i i hi
    split
    · exact lives_endIt
    · rename_i p hp
      split
      · split
        · rename_i hlt
          intro j hj
          cases hj
          exact hlt
        · exact lives_endIt
      · intro j hj
        cases hj
        exact (List.getElem?_eq_some_iff.mp hp).1

theorem page_nextUsedLoop {ps : List (Page T)} : ∀ {i newpos pos gpos j : Nat},
    (nextUsedLoop ps i newpos pos gpos).1.page = some j → j < i + ps.length := by
  induction ps with
  | nil =>
    intro i newpos pos gpos j h
    cases h
  | cons p ps ih =>
    intro i newpos pos gpos j h
    rw [nextUsedLoop] at h
    rw [List.length_cons]
    cases hk : p.nextUsed newpos with
    | some k =>
      rw [hk] at h
      cases h
      omega
    | none =>
      rw [hk] at h
      have := ih h
      omega

theorem lives_nextUsed (hlives : v.Lives it) : v.Lives (v.nextUsed it).1 := by
  intro j hj
  rw [nextUsed] at hj
  cases hi : it.page with
  | none =>
    rw [hi] at hj
    cases hj
  | some i =>
    rw [hi] at hj
    have hlt := page_nextUsedLoop hj
    have := hlives i hi
    rw [List.length_drop] at hlt
    omega

namespace IterState

variable {s s' : IterState T} {a : IterOp T} {tr : List (IterOp T × IterState T)}

/-- The vector is well formed, and the iterators are in it. -/
structure Sound (s : IterState T) : Prop where
  ok : s.vec.Ok
  lives : ∀ it ∈ s.its, s.vec.Lives it

theorem sound_init : (init : IterState T).Sound := ⟨ok_init, nofun⟩

theorem Sound.push (h : s.Sound) {v : Inpvec T} (hext : Extends s.vec v) (hlives : v.Lives it) :
    Sound ⟨v, s.its ++ [it]⟩ where
  ok := hext.ok h.ok
  lives x hx := by
    rcases List.mem_append.mp hx with hx | hx
    · exact (h.lives x hx).mono hext.length_le
    · rw [List.mem_singleton.mp hx]
      exact hlives

theorem Sound.move (h : s.Sound) {n : Nat} (hlives : s.vec.Lives it) :
    Sound { s with its := s.its.set n it } where
  ok := h.ok
  lives x hx := by
    rcases List.mem_or_eq_of_mem_set hx with hx | rfl
    · exact h.lives x hx
    · exact hlives

theorem Sound.change (h : s.Sound) {v : Inpvec T} (hok : v.Ok) (hsizes : v.sizes = s.vec.sizes) :
    Sound { s with vec := v } where
  ok := hok
  lives x hx := (h.lives x hx).mono (Nat.le_of_eq (length_of_sizes hsizes).symm)

variable [Inhabited T]

/-- A call that puts nothing where there is no room leaves the state sound. -/
theorem Sound.step (h : s.Sound) (hr : s.Roomy a) (hs : Step s a s') : s'.Sound := by
  obtain ⟨fuel, hs⟩ := hs
  cases a with
  | begin =>
    cases hs
    exact h.push .refl lives_begin
  | iteratorAt pos =>
    cases hs
    exact h.push .refl lives_iteratorAt
  | forceIteratorAt pos =>
    obtain ⟨⟨v, it⟩, hv, rfl⟩ := Option.map_eq_some_iff.mp hs
    obtain ⟨hext, -, i, p, hvalid⟩ := forceIteratorAt_spec hv
    exact h.push hext hvalid.lives
  | firstFree =>
    obtain ⟨r, hv, rfl⟩ := Option.map_eq_some_iff.mp hs
    obtain ⟨hext, hlives⟩ := firstFree_lives h.ok hv
    exact h.push hext hlives
  | lastFree =>
    obtain ⟨r, hv, rfl⟩ := Option.map_eq_some_iff.mp hs
    obtain ⟨hext, hlives⟩ := lastFree_lives h.ok hv
    exact h.push hext hlives
  | copy n =>
    obtain ⟨it, hit, rfl⟩ := Option.map_eq_some_iff.mp hs
    exact h.push .refl (h.lives it (List.mem_of_getElem? hit))
  | inc n =>
    obtain ⟨it, hit, rfl⟩ := Option.map_eq_some_iff.mp hs
    exact h.move lives_inc
  | nextUsed n =>
    obtain ⟨it, hit, rfl⟩ := Option.map_eq_some_iff.mp hs
    exact h.move (lives_nextUsed (h.lives it (List.mem_of_getElem? hit)))
  | set n t =>
    obtain ⟨it, hit, rfl⟩ := Option.map_eq_some_iff.mp hs
    have hlives := h.lives it (List.mem_of_getElem? hit)
    exact h.change (ok_iterSet h.ok hlives (hr it hit)) sizes_iterSet
  | construct n =>
    obtain ⟨it, hit, rfl⟩ := Option.map_eq_some_iff.mp hs
    have hlives := h.lives it (List.mem_of_getElem? hit)
    exact h.change (ok_iterConstruct h.ok hlives (hr it hit)) sizes_iterConstruct
  | free n =>
    obtain ⟨it, hit, rfl⟩ := Option.map_eq_some_iff.mp hs
    have hlives := h.lives it (List.mem_of_getElem? hit)
    exact h.change (ok_iterFree h.ok hlives) sizes_iterFree
  | freeAt pos =>
    cases hs
    exact h.change (ok_freeAt h.ok) sizes_freeAt
  | reset =>
    cases hs
    exact sound_init

/-- **Every vector that a run reaches is well formed**, if nothing is put where there is no room. -/
theorem run_ok (h : Run Step (init : IterState T) tr)
    (hr : Always (fun s a _ => s.Roomy a) (init : IterState T) tr) : (last init tr).vec.Ok := by
  have hsound : Always (fun _ _ s' => s'.Sound) (init : IterState T) tr :=
    h.always_of_guard (fun s a s' hI hg hs => ⟨hI.step hg hs, hI.step hg hs⟩) sound_init hr
  exact (hsound.last_state sound_init).ok

end IterState

end Inpvec

end CodeSLoop
