import Mathlib.Logic.Function.Basic
import Mathlib.Data.List.Forall2

/-!
# A heap, and owners with an area of their own

Every owner has an area of memory of its own, and there are blocks that were asked for and that
may be given back. A pointer is to an area or to a block. To read or write where there is nothing,
and to give back what is not a block that is there, has no meaning, and there is no result.

The *ledger* is what keeps blocks from being lost or given back twice: a block is there exactly
when one owner points to it, and a number below the next one is that of a block that is there or
that has been given back once. `Ledger.grow` and `Ledger.drop` are the two ways in which an
owner's pointer changes.
-/

namespace Heap

universe u v

/-- A pointer: to the area of an owner, or to the block of a number. -/
inductive Ptr (ι : Type u)
  | area (i : ι)
  | block (id : Nat)
deriving DecidableEq

/-- The memory. `freed` is what was given back, the last one first. -/
structure Store (ι : Type u) (β : Type v) where
  areas : ι → List β
  blocks : Nat → Option (List β)
  next : Nat
  freed : List Nat

/-- `xs` with `ys` written over it from `off` on. -/
def patch {β : Type v} (xs : List β) (off : Nat) (ys : List β) : List β :=
  xs.take off ++ ys ++ xs.drop (off + ys.length)

namespace Store

variable {ι : Type u} {β : Type v}

/-- What a pointer points to. -/
def contents (s : Store ι β) : Ptr ι → Option (List β)
  | .area i => some (s.areas i)
  | .block id => s.blocks id

/-- `n` cells from `off` on. -/
def load (s : Store ι β) (p : Ptr ι) (off n : Nat) : Option (List β) :=
  (s.contents p).bind fun xs => if off + n ≤ xs.length then some ((xs.drop off).take n) else none

/-- A block of `n` cells, whatever is in them. -/
def malloc (s : Store ι β) (junk : Nat → Nat → β) (n : Nat) : Store ι β :=
  { s with
    blocks := Function.update s.blocks s.next (some ((List.range n).map (junk s.next)))
    next := s.next + 1 }

/-- A block is given back. -/
def free (s : Store ι β) : Ptr ι → Option (Store ι β)
  | .area _ => none
  | .block id =>
    if (s.blocks id).isSome then
      some { s with blocks := Function.update s.blocks id none, freed := id :: s.freed }
    else none

variable [DecidableEq ι]

/-- Something else at a pointer. -/
def write (s : Store ι β) (p : Ptr ι) (xs : List β) : Store ι β :=
  match p with
  | .area i => { s with areas := Function.update s.areas i xs }
  | .block id => { s with blocks := Function.update s.blocks id (some xs) }

/-- Cells from `off` on are written. -/
def store (s : Store ι β) (p : Ptr ι) (off : Nat) (ys : List β) : Option (Store ι β) :=
  (s.contents p).bind fun xs =>
    if off + ys.length ≤ xs.length then some (s.write p (patch xs off ys)) else none

end Store

/-! ## Writing over a list -/

section Patch

variable {β : Type v} {xs ys zs : List β} {off n : Nat}

theorem length_patch (h : off + ys.length ≤ xs.length) : (patch xs off ys).length = xs.length := by
  rw [patch, List.length_append, List.length_append, List.length_take, List.length_drop]
  omega

theorem patch_append_left (h : off + ys.length ≤ xs.length) :
    patch (xs ++ zs) off ys = patch xs off ys ++ zs := by
  rw [patch, patch, List.take_append_of_le_length (by omega), List.drop_append_of_le_length h,
    List.append_assoc, List.append_assoc, List.append_assoc]

theorem take_patch (h : off + ys.length ≤ n) (hn : n ≤ xs.length) :
    (patch xs off ys).take n = patch (xs.take n) off ys := by
  have hlen : (xs.take n).length = n := by
    rw [List.length_take]
    exact Nat.min_eq_left hn
  have hle : off + ys.length ≤ (xs.take n).length := by rwa [hlen]
  have hsplit : patch xs off ys = patch (xs.take n) off ys ++ xs.drop n := by
    rw [← patch_append_left hle, List.take_append_drop]
  rw [hsplit, List.take_left']
  rw [length_patch hle, hlen]

theorem patch_zero (xs ys : List β) : patch xs 0 ys = ys ++ xs.drop ys.length := by
  rw [patch, List.take_zero, List.nil_append, Nat.zero_add]

theorem patch_all (h : ys.length = xs.length) : patch xs 0 ys = ys := by
  rw [patch_zero, h, List.drop_length, List.append_nil]

theorem patch_append (h : ys.length = zs.length) : patch (xs ++ zs) xs.length ys = xs ++ ys := by
  rw [patch, List.take_left, List.drop_of_length_le (by rw [List.length_append]; omega),
    List.append_nil]

theorem patch_singleton {y : β} (h : off < xs.length) : patch xs off [y] = xs.set off y := by
  rw [patch, List.length_singleton, List.set_eq_take_append_cons_drop, if_pos h, List.append_assoc]
  rfl

end Patch

/-! ## What is where -/

namespace Store

variable {ι : Type u} {β : Type v} {s s' : Store ι β} {p q : Ptr ι} {xs ys : List β} {off n id : Nat}
variable {junk : Nat → Nat → β}

theorem load_eq (h : s.contents p = some xs) (hle : off + n ≤ xs.length) :
    s.load p off n = some ((xs.drop off).take n) := by
  rw [load, h]
  exact if_pos hle

theorem contents_malloc_self (s : Store ι β) (junk : Nat → Nat → β) (n : Nat) :
    (s.malloc junk n).contents (.block s.next) = some ((List.range n).map (junk s.next)) :=
  Function.update_self _ _ _

theorem length_malloc (junk : Nat → Nat → β) (id n : Nat) : ((List.range n).map (junk id)).length = n := by
  rw [List.length_map, List.length_range]

theorem contents_malloc_of_ne (hp : p ≠ .block s.next) : (s.malloc junk n).contents p = s.contents p := by
  cases p with
  | area i => rfl
  | block id => exact Function.update_of_ne (fun h => hp (congrArg Ptr.block h)) _ _

theorem free_eq (h : (s.blocks id).isSome) : s.free (.block id) =
    some { s with blocks := Function.update s.blocks id none, freed := id :: s.freed } := if_pos h

theorem contents_free_of_ne (h : s.free (.block id) = some s') (hq : q ≠ .block id) :
    s'.contents q = s.contents q := by
  rw [free] at h
  split at h
  · cases h
    cases q with
    | area i => rfl
    | block k => exact Function.update_of_ne (fun he => hq (congrArg Ptr.block he)) _ _
  · cases h

theorem next_free (h : s.free p = some s') : s'.next = s.next := by
  cases p with
  | area i => cases h
  | block id =>
    rw [free] at h
    split at h
    · cases h
      rfl
    · cases h

/-- It does not matter whether a block is given back before or after another one is asked for. -/
theorem free_malloc (hne : id ≠ s.next) :
    (s.malloc junk n).free (.block id) = (s.free (.block id)).map (·.malloc junk n) := by
  rw [free, free, malloc]
  simp only [Function.update_of_ne hne]
  split
  · rw [Option.map_some, malloc, Function.update_comm hne]
  · rfl

variable [DecidableEq ι]

theorem store_eq (h : s.contents p = some xs) (hle : off + ys.length ≤ xs.length) :
    s.store p off ys = some (s.write p (patch xs off ys)) := by
  rw [store, h]
  exact if_pos hle

theorem store_outside (h : s.contents p = some xs) (hlt : xs.length < off + ys.length) :
    s.store p off ys = none := by
  rw [store, h]
  exact if_neg (Nat.not_le_of_lt hlt)

theorem next_store (h : s.store p off ys = some s') : s'.next = s.next := by
  obtain ⟨xs, -, h⟩ := Option.bind_eq_some_iff.mp h
  split at h
  · cases h
    cases p with
    | area i => rfl
    | block id => rfl
  · cases h

theorem contents_write_self (s : Store ι β) (p : Ptr ι) (xs : List β) :
    (s.write p xs).contents p = some xs := by
  cases p with
  | area i => exact congrArg some (Function.update_self _ _ _)
  | block id => exact Function.update_self _ _ _

theorem contents_write_of_ne (hq : q ≠ p) : (s.write p xs).contents q = s.contents q := by
  cases p with
  | area i =>
    cases q with
    | area j => exact congrArg some (Function.update_of_ne (fun h => hq (congrArg Ptr.area h)) _ _)
    | block k => rfl
  | block id =>
    cases q with
    | area j => rfl
    | block k => exact Function.update_of_ne (fun h => hq (congrArg Ptr.block h)) _ _

theorem free_write (hp : p ≠ .block id) :
    (s.write p xs).free (.block id) = (s.free (.block id)).map (·.write p xs) := by
  cases p with
  | area i =>
    rw [free, free, write]
    simp only
    split
    · rfl
    · rfl
  | block k =>
    have hne : id ≠ k := fun h => hp (congrArg Ptr.block h.symm)
    rw [free, free, write]
    simp only [Function.update_of_ne hne]
    split
    · rw [Option.map_some, write, Function.update_comm hne]
    · rfl

end Store

/-! ## The ledger -/

section Ledger

variable {ι : Type u} {β : Type v}

/-- An owner points to its own area or to a block that no other one points to, every block that is
    there is pointed to, and every other one that there was has been given back once. -/
structure Ledger (s : Store ι β) (ptr : ι → Ptr ι) : Prop where
  own : ∀ i j, ptr i = .area j → j = i
  apart : ∀ i j id, ptr i = .block id → ptr j = .block id → i = j
  live : ∀ id, (s.blocks id).isSome ↔ ∃ i, ptr i = .block id
  once : ∀ id, s.freed.count id = if id < s.next ∧ s.blocks id = none then 1 else 0
  fresh : ∀ id, s.next ≤ id → s.blocks id = none

/-- No block was asked for. -/
theorem ledger_init (areas : ι → List β) : Ledger ⟨areas, fun _ => none, 0, []⟩ .area where
  own _ _ h := (Ptr.area.inj h).symm
  apart _ _ _ h := by cases h
  live id := iff_of_false (fun h => by cases h) fun ⟨_, h⟩ => by cases h
  once id := (if_neg fun h => Nat.not_lt_zero _ h.1).symm
  fresh _ _ := rfl

namespace Ledger

variable {s : Store ι β} {ptr : ι → Ptr ι} {i j : ι} {id : Nat} {xs : List β}

/-- What an owner points to is there. -/
theorem contents (h : Ledger s ptr) (i : ι) : ∃ xs, s.contents (ptr i) = some xs := by
  cases hp : ptr i with
  | area j => exact ⟨_, rfl⟩
  | block id => exact Option.isSome_iff_exists.mp ((h.live id).mpr ⟨i, hp⟩)

theorem ptr_ne (h : Ledger s ptr) (hij : i ≠ j) : ptr i ≠ ptr j := by
  intro he
  cases hp : ptr j with
  | area k =>
    rw [hp] at he
    exact hij ((h.own i k he).symm.trans (h.own j k hp))
  | block id =>
    rw [hp] at he
    exact hij (h.apart i j id he hp)

theorem ne_next (h : Ledger s ptr) (i : ι) : ptr i ≠ .block s.next := by
  intro hp
  have hlive := (h.live s.next).mpr ⟨i, hp⟩
  rw [h.fresh _ (Nat.le_refl _)] at hlive
  cases hlive

variable [DecidableEq ι]

/-- Writing to what an owner points to. -/
theorem write (h : Ledger s ptr) (i : ι) (xs : List β) : Ledger (s.write (ptr i) xs) ptr := by
  cases hp : ptr i with
  | area j => exact ⟨h.own, h.apart, h.live, h.once, h.fresh⟩
  | block id =>
    have hlive : (s.blocks id).isSome := (h.live id).mpr ⟨i, hp⟩
    have hsome : ∀ k, (Function.update s.blocks id (some xs) k).isSome = (s.blocks k).isSome := by
      intro k
      by_cases hk : k = id
      · rw [hk, Function.update_self, hlive, Option.isSome_some]
      · rw [Function.update_of_ne hk]
    have hnone : ∀ k, Function.update s.blocks id (some xs) k = none ↔ s.blocks k = none := by
      intro k
      rw [← Option.not_isSome_iff_eq_none, ← Option.not_isSome_iff_eq_none, hsome]
    refine ⟨h.own, h.apart, fun k => ?_, fun k => ?_, fun k hk => (hnone k).mpr (h.fresh k hk)⟩
    · rw [← h.live k, ← hsome k]
      rfl
    · rw [Store.write]
      simp only [hnone]
      exact h.once k

/-- Who points there, after one owner was given another pointer. -/
theorem redirect_cases {a : ι} {p q : Ptr ι} (h : Function.update ptr i p a = q) :
    a = i ∧ p = q ∨ a ≠ i ∧ ptr a = q := by
  by_cases ha : a = i
  · rw [ha, Function.update_self] at h
    exact Or.inl ⟨ha, h⟩
  · rw [Function.update_of_ne ha] at h
    exact Or.inr ⟨ha, h⟩

/-- A block that neither the old pointer nor the new one is about has its owner still. -/
theorem redirect_iff {k : Nat} {p : Ptr ι} (hold : ptr i ≠ .block k) (hnew : p ≠ .block k) :
    (∃ a, Function.update ptr i p a = .block k) ↔ ∃ a, ptr a = .block k := by
  constructor
  · rintro ⟨a, ha⟩
    rcases redirect_cases ha with ⟨-, hp⟩ | ⟨-, ha⟩
    · exact absurd hp hnew
    · exact ⟨a, ha⟩
  · rintro ⟨a, ha⟩
    refine ⟨a, ?_⟩
    rw [Function.update_of_ne, ha]
    rintro rfl
    exact hold ha

/-- An owner that has a block gives it back. -/
theorem drop (h : Ledger s ptr) (hi : ptr i = .block id) : ∃ s', s.free (.block id) = some s' ∧
    Ledger s' (Function.update ptr i (.area i)) := by
  have hlive : (s.blocks id).isSome := (h.live id).mpr ⟨i, hi⟩
  have hlt : id < s.next := by
    by_contra hle
    rw [h.fresh id (Nat.le_of_not_lt hle)] at hlive
    cases hlive
  refine ⟨_, Store.free_eq hlive, ?_, ?_, fun k => ?_, fun k => ?_, fun k hk => ?_⟩
  · intro a b hab
    rcases redirect_cases hab with ⟨ha, hab⟩ | ⟨-, hab⟩
    · exact (Ptr.area.inj hab).symm.trans ha.symm
    · exact h.own a b hab
  · intro a b k ha hb
    rcases redirect_cases ha with ⟨-, ha⟩ | ⟨-, ha⟩
    · cases ha
    · rcases redirect_cases hb with ⟨-, hb⟩ | ⟨-, hb⟩
      · cases hb
      · exact h.apart a b k ha hb
  · by_cases hk : k = id
    · simp only [hk, Function.update_self]
      refine iff_of_false (fun hs => by cases hs) ?_
      rintro ⟨a, ha⟩
      rcases redirect_cases ha with ⟨-, ha⟩ | ⟨hai, ha⟩
      · cases ha
      · exact hai (h.apart a i id ha hi)
    · have hold : ptr i ≠ .block k := fun he => hk (Ptr.block.inj (hi.symm.trans he)).symm
      rw [redirect_iff hold (fun he => by cases he), ← h.live k]
      simp only [Function.update_of_ne hk]
  · have honce := h.once k
    by_cases hk : k = id
    · have hnot : ¬ (k < s.next ∧ s.blocks k = none) := by
        rintro ⟨-, hnone⟩
        rw [← hk, hnone] at hlive
        cases hlive
      rw [if_neg hnot] at honce
      rw [hk] at honce ⊢
      simp [honce, hlt]
    · simp only [Function.update_of_ne hk]
      rw [List.count_cons_of_ne (fun he => hk he.symm)]
      exact honce
  · have hne : k ≠ id := fun he => Nat.not_le_of_lt hlt (he ▸ hk)
    exact (Function.update_of_ne hne _ _).trans (h.fresh k hk)

/-- An owner that is in its own area asks for a block. -/
theorem grow (h : Ledger s ptr) (hi : ptr i = .area i) (junk : Nat → Nat → β) (n : Nat) :
    Ledger (s.malloc junk n) (Function.update ptr i (.block s.next)) := by
  refine ⟨?_, ?_, fun k => ?_, fun k => ?_, fun k hk => ?_⟩
  · intro a b hab
    rcases redirect_cases hab with ⟨-, hab⟩ | ⟨-, hab⟩
    · cases hab
    · exact h.own a b hab
  · intro a b k ha hb
    rcases redirect_cases ha with ⟨hai, ha⟩ | ⟨-, ha⟩ <;>
      rcases redirect_cases hb with ⟨hbi, hb⟩ | ⟨-, hb⟩
    · rw [hai, hbi]
    · exact absurd (hb.trans ha.symm) (h.ne_next b)
    · exact absurd (ha.trans hb.symm) (h.ne_next a)
    · exact h.apart a b k ha hb
  · by_cases hk : k = s.next
    · rw [hk]
      have hself : (s.malloc junk n).blocks s.next = some _ := s.contents_malloc_self junk n
      exact iff_of_true (by rw [hself]; rfl) ⟨i, Function.update_self _ _ _⟩
    · have hother : (s.malloc junk n).blocks k = s.blocks k := Function.update_of_ne hk _ _
      have hold : ptr i ≠ .block k := fun he => by cases hi.symm.trans he
      rw [hother, h.live k, redirect_iff hold fun he => hk (Ptr.block.inj he).symm]
  · have honce := h.once k
    rw [Store.malloc]
    by_cases hk : k = s.next
    · rw [if_neg (fun hh => Nat.ne_of_lt hh.1 hk)] at honce
      rw [hk] at honce ⊢
      simp [honce]
    · simp only [Function.update_of_ne hk, honce]
      have hiff : k < s.next + 1 ↔ k < s.next := by omega
      simp only [hiff]
  · have hne : k ≠ s.next := by
      rintro rfl
      exact Nat.not_succ_le_self _ hk
    exact (Function.update_of_ne hne _ _).trans (h.fresh k (Nat.le_of_succ_le hk))

end Ledger

end Ledger

end Heap
