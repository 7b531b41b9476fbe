import CodeSLoop.Common.InpvecFree

/-!
# The index of a hash (`hash_helpers::index` of `common/hash_helpers.hh`)

An entry of the index is the number of a page or that of a further part of the index, and its
lowest bit says which. A part has 256 entries, one for each value of the byte of the hash key that
is looked at there. A key is looked up byte by byte, from the lowest one on, until there is a
page.

As long as there was no split, the index is its first part and there is one page (`Flat`). A split
makes a link to a part behind all entries. It is given the pages for that part as a vector, and
where that is empty the part is, so the key that was split for is not found any more
(`Flat.get_split`).
-/

namespace CodeSLoop

open Inpvec

namespace HashHelpers

/-- `index`. -/
structure Index where
  items : Inpvec UInt64

instance : Inhabited Index := ⟨⟨Inpvec.init⟩⟩

namespace Index

/-! ## The operations -/

/-- `internal_get`: the number at an entry, and whether it is that of a page. -/
def internalGet (x : Index) (k : UInt64) : Option (UInt64 × Bool) :=
  ((x.items.getPtr k.toNat).bind x.items.deref).map fun i : UInt64 => (i >>> 1, i &&& 1 == 1)

/-- `internal_set`. -/
def internalSet (x : Index) (k pos : UInt64) (isPage : Bool) (fuel : Nat) : Option Index :=
  (x.items.set k.toNat ((pos <<< 1) ||| if isPage then 1 else 0) fuel).map fun r => ⟨r.1⟩

/-- `not_found_`. -/
def notFound : UInt64 := 0xffffffffffffffff

/-- The loop of `lookup_pagepos_for_hashkey`, with `n` bytes to go from bit `i` on: the entry, and
    `shift`. -/
def lookupLoop (x : Index) (hk : UInt64) : Nat → UInt64 → UInt64 → UInt64 → UInt64 × UInt64
  | 0, _, _, shift => (notFound, shift)
  | n + 1, i, off, shift =>
    let tpos := (hk >>> i) &&& 0xff
    match x.internalGet (off + tpos) with
    | none => (notFound, shift)
    | some (_, true) => (off + tpos, i)
    | some (pg, false) => lookupLoop x hk n (i + 8) (pg * 256) shift

/-- `lookup_pagepos_for_hashkey`. -/
def lookup (x : Index) (hk shift : UInt64) : UInt64 × UInt64 := x.lookupLoop hk 8 0 0 shift

/-- `get`: the page, if there is one, and `shift`. -/
def get (x : Index) (hk shift : UInt64) : Option UInt64 × UInt64 :=
  let (pos, shift) := x.lookup hk shift
  match x.internalGet pos with
  | some (pg, true) => (some pg, shift)
  | _ => (none, shift)

/-- The loop of `split` through the others. -/
def splitLoop (endp : UInt64) (posv : Inpvec UInt64) (n : Nat) : Nat → Iter → Index → Option Index
  | 0, _, _ => none
  | fuel + 1, it, x =>
    match posv.nextUsed it with
    | (_, none) => some x
    | (it, some p) =>
      (posv.deref p).bind fun pg =>
        (x.internalSet (endp * 256 + UInt64.ofNat it.gpos) pg true n).bind (splitLoop endp posv n fuel it)

/-- `split`: the index, `shift`, and what it returns. -/
def split (x : Index) (hk shift : UInt64) (posv : Inpvec UInt64) (fuel : Nat) :
    Option (Index × UInt64 × Bool) :=
  let (pos, shift) := x.lookup hk shift
  let ii := UInt64.ofNat x.items.lastFreePos
  let endp := (ii + 256 - 1) / 256
  if pos = notFound then some (x, shift, false)
  else do
    let x ← x.internalSet pos endp false fuel
    let it := posv.begin
    let x ←
      match posv.star it with
      | some p => (posv.deref p).bind fun pg => x.internalSet (endp * 256) pg true fuel
      | none => some x
    let x ← splitLoop endp posv fuel fuel it x
    some (x, shift, false)

/-! ## An index without a link -/

variable {x x' : Index} {S : Nat → Prop} {hk s : UInt64} {fuel : Nat}

theorem internalGet_eq {k : UInt64} :
    x.internalGet k = (x.items.view k.toNat).map fun i : UInt64 => (i >>> 1, i &&& 1 == 1) := rfl

theorem byte_lt {i : UInt64} : ((hk >>> i) &&& 0xff).toNat < 256 := by
  rw [UInt64.toNat_and]
  exact Nat.lt_of_le_of_lt Nat.and_le_right (by decide)

/-- The bytes of `S` have the page number 0, and the others have nothing. The last two say how much
    memory there is at most; `m` is the number of entries that were made. -/
structure Flat (x : Index) (S : Nat → Prop) (m : Nat) : Prop where
  ok : x.items.Ok
  page : ∀ k, S k → x.items.view k = some 1
  empty : ∀ k, ¬ S k → x.items.view k = none
  lt : ∀ k, S k → k < 256
  size : x.items.size < 2 ^ 33
  tail : m < 2 ^ 24 → x.items.tail.mul.toNat ≤ 2 * m + 6

theorem flat_init : Flat default (fun _ => False) 0 where
  ok := ok_init
  page := nofun
  empty k _ := view_init
  lt := nofun
  size := by
    have h64 : (default : Index).items.size = 64 := rfl
    omega
  tail _ := by
    have h1 : (default : Index).items.tail.mul.toNat = 1 := rfl
    omega

variable {m : Nat}

theorem Flat.not_notFound (h : Flat x S m) : ¬ S notFound.toNat := fun hs => by
  have hlt := h.lt _ hs
  have heq : notFound.toNat = 2 ^ 64 - 1 := rfl
  omega

theorem Flat.congr {S' : Nat → Prop} {m' : Nat} (h : Flat x S m) (hS : ∀ j, S j ↔ S' j) (hm : m ≤ m') :
    Flat x S' m' where
  ok := h.ok
  page k hk := h.page k ((hS k).mpr hk)
  empty k hk := h.empty k fun hs => hk ((hS k).mp hs)
  lt k hk := h.lt k ((hS k).mpr hk)
  size := h.size
  tail hlt := by
    have := h.tail (by omega)
    omega

/-- A byte that has a page. -/
theorem Flat.lookup_page (h : Flat x S m) (hs : S (hk &&& 0xff).toNat) : x.lookup hk s = (hk &&& 0xff, 0) := by
  have hget : x.internalGet (0 + ((hk >>> (0 : UInt64)) &&& 0xff)) = some (0, true) := by
    rw [UInt64.shiftRight_zero, UInt64.zero_add, internalGet_eq, h.page _ hs]
    rfl
  rw [lookup, lookupLoop, hget]
  dsimp only
  rw [UInt64.shiftRight_zero, UInt64.zero_add]

theorem Flat.get_page (h : Flat x S m) (hs : S (hk &&& 0xff).toNat) : x.get hk s = (some 0, 0) := by
  have hget : x.internalGet (hk &&& 0xff) = some (0, true) := by
    rw [internalGet_eq, h.page _ hs]
    rfl
  rw [get, h.lookup_page hs]
  dsimp only
  rw [hget]

/-- A byte that has none. -/
theorem Flat.get_none (h : Flat x S m) (hs : ¬ S (hk &&& 0xff).toNat) : (x.get hk s).1 = none := by
  have hfirst : x.internalGet (0 + ((hk >>> (0 : UInt64)) &&& 0xff)) = none := by
    rw [UInt64.shiftRight_zero, UInt64.zero_add, internalGet_eq, h.empty _ hs]
    rfl
  have hlast : x.internalGet notFound = none := by
    rw [internalGet_eq, h.empty _ h.not_notFound]
    rfl
  have hlookup : x.lookup hk s = (notFound, s) := by
    rw [lookup, lookupLoop, hfirst]
  rw [get, hlookup]
  dsimp only
  rw [hlast]

/-! ## One more entry -/

/-- What an entry says when it is read. -/
theorem entry_page : ((0 : UInt64) <<< 1) ||| 1 = 1 := rfl

theorem entry_link {p : UInt64} (h : p.toNat < 2 ^ 63) :
    ((p <<< 1) ||| 0) >>> 1 = p ∧ ((p <<< 1) ||| 0) &&& 1 = 0 := by
  have hval : ((p <<< 1) ||| 0).toNat = 2 * p.toNat := by
    rw [UInt64.or_zero, UInt64.toNat_shiftLeft, UInt64.toNat_one, Nat.shiftLeft_eq, show 2 ^ (1 % 64) = 2 from rfl]
    omega
  constructor
  · apply UInt64.toNat_inj.mp
    rw [UInt64.toNat_shiftRight, hval, UInt64.toNat_one, Nat.shiftRight_eq_div_pow, show 2 ^ (1 % 64) = 2 from rfl]
    omega
  · apply UInt64.toNat_inj.mp
    rw [UInt64.toNat_and, hval, UInt64.toNat_one, Nat.and_one_is_mod, UInt64.toNat_zero]
    omega

/-- A byte gets its page. -/
theorem Flat.set (h : Flat x S m) {k : UInt64} (hk : k.toNat < 256)
    (hset : x.internalSet k 0 true fuel = some x') : Flat x' (fun j => S j ∨ j = k.toNat) (m + 1) := by
  obtain ⟨⟨v, y⟩, hput, heq⟩ := Option.map_eq_some_iff.mp hset
  cases heq
  rw [if_pos rfl, entry_page] at hput
  obtain ⟨hview, hok, -, -⟩ := set_spec h.ok hput
  have hsize := (size_set hput).2
  have hlt := h.size
  constructor
  · exact hok
  · rintro j (hj | rfl)
    · rw [hview]
      by_cases heq : j = k.toNat
      · rw [heq, Function.update_self]
      · rw [Function.update_of_ne heq, h.page j hj]
    · rw [hview, Function.update_self]
  · intro j hj
    rw [not_or] at hj
    rw [hview, Function.update_of_ne hj.2, h.empty j hj.1]
  · rintro j (hj | rfl)
    · exact h.lt j hj
    · exact hk
  · dsimp only
    omega
  · intro hm
    have htail := h.tail (by omega)
    have hgrow := tail_set (by omega) (by omega) (by omega) hput
    dsimp only at hgrow ⊢
    omega

theorem Flat.set_returns (h : Flat x S m) {k : UInt64} (hk : k.toNat < 256) (hm : m < 2 ^ 24)
    (hfuel : 2 ≤ fuel) : ∃ x', x.internalSet k 0 true fuel = some x' := by
  have htail := h.tail hm
  have hsize := h.size
  obtain ⟨r, hr, -⟩ := Inpvec.set_returns (v := x.items) (k := k.toNat) (t := ((0 : UInt64) <<< 1) ||| 1)
    (by omega) (by omega) (by omega)
  exact ⟨_, congrArg (Option.map _) (set_mono hfuel hr)⟩

/-! ## A link -/

/-- With nothing in `posv`, a split only makes the link. -/
theorem split_init (h : x.lookup hk s = (hk &&& 0xff, 0)) {r : Index × UInt64 × Bool}
    (hs : x.split hk s Inpvec.init fuel = some r) :
    x.internalSet (hk &&& 0xff) ((UInt64.ofNat x.items.lastFreePos + 256 - 1) / 256) false fuel = some r.1 := by
  rw [split, h] at hs
  dsimp only at hs
  have hne : ¬ (hk &&& 0xff = notFound) := fun heq => by
    have hlt : ((hk >>> (0 : UInt64)) &&& 0xff).toNat < 256 := byte_lt
    rw [UInt64.shiftRight_zero, heq] at hlt
    exact absurd hlt (by decide)
  rw [if_neg hne] at hs
  obtain ⟨x₁, hx₁, hs⟩ := Option.bind_eq_some_iff.mp hs
  rw [hx₁]
  have hbegin : (Inpvec.init : Inpvec UInt64).begin = endIt := rfl
  rw [hbegin] at hs
  obtain ⟨x₂, hx₂, hs⟩ := Option.bind_eq_some_iff.mp hs
  cases hx₂
  obtain ⟨x₃, hx₃, hs⟩ := Option.bind_eq_some_iff.mp hs
  cases hs
  cases fuel with
  | zero => cases hx₃
  | succ fuel =>
    cases hx₃
    rfl

/-- **After a split the key is not found**: its byte is a link to a part of the index with nothing
    in it. -/
theorem Flat.get_split (h : Flat x S m) (hs : S (hk &&& 0xff).toNat) {s' : UInt64} {b : Bool}
    (hsplit : x.split hk s Inpvec.init fuel = some (x', s', b)) {s'' : UInt64} : (x'.get hk s'').1 = none := by
  have hset := split_init (h.lookup_page hs) hsplit
  obtain ⟨⟨v, y⟩, hput, heq⟩ := Option.map_eq_some_iff.mp hset
  cases heq
  -- the part begins behind the entries
  have hused : (x.items.view (hk &&& 0xff).toNat).isSome := by
    rw [h.page _ hs]
    rfl
  have hlast := lt_lastFreePos h.ok hused
  have hle := lastFreePos_le h.ok
  have hsize := h.size
  generalize hendp : (UInt64.ofNat x.items.lastFreePos + 256 - 1) / 256 = endp at hput
  have hii : (UInt64.ofNat x.items.lastFreePos).toNat = x.items.lastFreePos := by
    rw [UInt64.toNat_ofNat']
    omega
  have hpart : 1 ≤ endp.toNat ∧ endp.toNat ≤ 2 ^ 33 := by
    have h256 : UInt64.toNat 256 = 256 := rfl
    have h1 : UInt64.toNat 1 = 1 := rfl
    rw [← hendp, UInt64.toNat_div, UInt64.toNat_sub, UInt64.toNat_add, hii, h256, h1]
    omega
  obtain ⟨hview, -, -, -⟩ := set_spec h.ok hput
  rw [if_neg Bool.false_ne_true] at hview
  obtain ⟨hshift, hbit⟩ := entry_link (p := endp) (by omega)
  have hempty : ∀ k : UInt64, 256 ≤ k.toNat → (⟨v⟩ : Index).internalGet k = none := by
    intro k hle
    have hnot : ¬ S k.toNat := fun hs => by
      have := h.lt _ hs
      omega
    have hne : k.toNat ≠ (hk &&& 0xff).toNat := by
      have := h.lt _ hs
      omega
    rw [internalGet_eq, hview, Function.update_of_ne hne, h.empty _ hnot]
    rfl
  have hlink : (⟨v⟩ : Index).internalGet (0 + ((hk >>> (0 : UInt64)) &&& 0xff)) = some (endp, false) := by
    rw [UInt64.shiftRight_zero, UInt64.zero_add, internalGet_eq, hview, Function.update_self, Option.map_some,
      hshift, hbit]
    rfl
  have hnext : (⟨v⟩ : Index).internalGet (endp * 256 + ((hk >>> ((0 : UInt64) + 8)) &&& 0xff)) = none := by
    refine hempty _ ?_
    have hb : ((hk >>> ((0 : UInt64) + 8)) &&& 0xff).toNat < 256 := byte_lt
    have h256 : UInt64.toNat 256 = 256 := rfl
    rw [UInt64.toNat_add, UInt64.toNat_mul, h256]
    omega
  have hlookup : (⟨v⟩ : Index).lookup hk s'' = (notFound, s'') := by
    rw [lookup, lookupLoop, hlink]
    dsimp only
    rw [lookupLoop, hnext]
  rw [get, hlookup]
  dsimp only
  rw [hempty notFound (by decide)]

end Index

end HashHelpers

end CodeSLoop
