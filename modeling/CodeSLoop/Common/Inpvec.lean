import CodeSLoop.Lib.Run
import CodeSLoop.Lib.Bits
import CodeSLoop.Lib.Segments

/-!
# `inpvec` — the in-place vector (`common/inpvec.hh`, `common/inpvec_impl.hh`)

An `inpvec<T>` is a chain of pages. A page has room for `mul_ * 64` items and a bitmap of
`mul_` 64-bit words that says which of them are constructed; the first page, of 64 items, is
inside the object and `tail_` is the last one. A position counts the places from the start of
the first page on. Items never move, so a page is named here by its place in the chain and a
`T *` by the page and the offset in it.

`mul_` is a 32-bit number and `size()` multiplies it in 32 bits, so a page of `2^26` words
has, by its own account, no room at all. `mul_alloc` does not look at what `malloc` gave: a
page that would take the items past the 64-bit address space has no memory, and the `memset`
that follows never returns.
-/

namespace CodeSLoop

open Bits Segments

universe u

namespace Inpvec

/-- `byte_last_free()` of `common/hlprs.cc`. -/
def byteLastFree (b : Nat) : Nat :=
  [ 0, 1, 2, 2, 3, 3, 3, 3, 4, 4, 4, 4, 4, 4, 4, 4, 5, 5, 5, 5, 5, 5, 5, 5, 5, 5, 5, 5, 5, 5, 5, 5,
    6, 6, 6, 6, 6, 6, 6, 6, 6, 6, 6, 6, 6, 6, 6, 6, 6, 6, 6, 6, 6, 6, 6, 6, 6, 6, 6, 6, 6, 6, 6, 6,
    7, 7, 7, 7, 7, 7, 7, 7, 7, 7, 7, 7, 7, 7, 7, 7, 7, 7, 7, 7, 7, 7, 7, 7, 7, 7, 7, 7, 7, 7, 7, 7,
    7, 7, 7, 7, 7, 7, 7, 7, 7, 7, 7, 7, 7, 7, 7, 7, 7, 7, 7, 7, 7, 7, 7, 7, 7, 7, 7, 7, 7, 7, 7, 7,
    8, 8, 8, 8, 8, 8, 8, 8, 8, 8, 8, 8, 8, 8, 8, 8, 8, 8, 8, 8, 8, 8, 8, 8, 8, 8, 8, 8, 8, 8, 8, 8,
    8, 8, 8, 8, 8, 8, 8, 8, 8, 8, 8, 8, 8, 8, 8, 8, 8, 8, 8, 8, 8, 8, 8, 8, 8, 8, 8, 8, 8, 8, 8, 8,
    8, 8, 8, 8, 8, 8, 8, 8, 8, 8, 8, 8, 8, 8, 8, 8, 8, 8, 8, 8, 8, 8, 8, 8, 8, 8, 8, 8, 8, 8, 8, 8,
    8, 8, 8, 8, 8, 8, 8, 8, 8, 8, 8, 8, 8, 8, 8, 8, 8, 8, 8, 8, 8, 8, 8, 8, 8, 8, 8, 8, 8, 8, 8, 8 ].getD b 0

/-- `byte_first_free()` of `common/hlprs.cc`. -/
def byteFirstFree (b : Nat) : Nat :=
  [ 0, 1, 0, 2, 0, 1, 0, 3, 0, 1, 0, 2, 0, 1, 0, 4, 0, 1, 0, 2, 0, 1, 0, 3, 0, 1, 0, 2, 0, 1, 0, 5,
    0, 1, 0, 2, 0, 1, 0, 3, 0, 1, 0, 2, 0, 1, 0, 4, 0, 1, 0, 2, 0, 1, 0, 3, 0, 1, 0, 2, 0, 1, 0, 6,
    0, 1, 0, 2, 0, 1, 0, 3, 0, 1, 0, 2, 0, 1, 0, 4, 0, 1, 0, 2, 0, 1, 0, 3, 0, 1, 0, 2, 0, 1, 0, 5,
    0, 1, 0, 2, 0, 1, 0, 3, 0, 1, 0, 2, 0, 1, 0, 4, 0, 1, 0, 2, 0, 1, 0, 3, 0, 1, 0, 2, 0, 1, 0, 7,
    0, 1, 0, 2, 0, 1, 0, 3, 0, 1, 0, 2, 0, 1, 0, 4, 0, 1, 0, 2, 0, 1, 0, 3, 0, 1, 0, 2, 0, 1, 0, 5,
    0, 1, 0, 2, 0, 1, 0, 3, 0, 1, 0, 2, 0, 1, 0, 4, 0, 1, 0, 2, 0, 1, 0, 3, 0, 1, 0, 2, 0, 1, 0, 6,
    0, 1, 0, 2, 0, 1, 0, 3, 0, 1, 0, 2, 0, 1, 0, 4, 0, 1, 0, 2, 0, 1, 0, 3, 0, 1, 0, 2, 0, 1, 0, 5,
    0, 1, 0, 2, 0, 1, 0, 3, 0, 1, 0, 2, 0, 1, 0, 4, 0, 1, 0, 2, 0, 1, 0, 3, 0, 1, 0, 2, 0, 1, 0, 255 ].getD b 0

set_option maxRecDepth 4096 in
theorem highTable_byteLastFree : HighTable byteLastFree := by decide +kernel

set_option maxRecDepth 4096 in
theorem lowTable_byteFirstFree : LowTable byteFirstFree := by decide +kernel

end Inpvec

/-- `inpvec::item`, a page. `items` holds a value where one is constructed. -/
structure Page (T : Type u) where
  mul : UInt32
  bmap : Nat → BitVec 64
  items : Nat → Option T

namespace Page

open Inpvec

variable {T : Type u}

/-- `size()`, a 32-bit product. -/
def size (p : Page T) : Nat := (p.mul * 64).toNat

/-- `(bmap_[at/width_] >> (at%width_)) & 1`. -/
def isUsed (p : Page T) (k : Nat) : Bool := test (p.bmap (k / 64)) (k % 64)

/-- `mul_alloc`. -/
def mulAlloc (m : UInt32) : Page T := ⟨m, fun _ => 0#64, fun _ => none⟩

/-- The loop of `last_free`, from word `i - 1` down. The source unrolls the scan of a word. -/
def lastFreeLoop (bmap : Nat → BitVec 64) : Nat → Nat → Nat
  | 0, ret => ret
  | i + 1, _ =>
    if bmap i = 0#64 then lastFreeLoop bmap i (i * 64)
    else
      match scanDown byteLastFree (bmap i) 8 with
      | some r => i * 64 + r
      | none => lastFreeLoop bmap i (i * 64)

/-- `last_free()`. -/
def lastFree (p : Page T) : Nat := lastFreeLoop p.bmap p.mul.toNat p.size

/-- The loop of `first_free`, at word `i` with `n` words to go. -/
def firstFreeLoop (bmap : Nat → BitVec 64) : Nat → Nat → Nat → Nat
  | 0, _, ret => ret
  | n + 1, i, _ =>
    if bmap i = BitVec.allOnes 64 then firstFreeLoop bmap n (i + 1) ((i + 1) * 64)
    else
      match scanUp byteFirstFree (bmap i) 0 8 with
      | some r => i * 64 + r
      | none => firstFreeLoop bmap n (i + 1) (i * 64 + 56)

/-- `first_free()`. -/
def firstFree (p : Page T) : Nat := firstFreeLoop p.bmap p.mul.toNat 0 p.size

/-- `destroy(at)`, the count in the parent left out. -/
def destroy (p : Page T) (k : Nat) : Page T :=
  if p.isUsed k then
    { p with
      items := Function.update p.items k none
      bmap := Function.update p.bmap (k / 64) (erase (p.bmap (k / 64)) (k % 64)) }
  else p

/-- `set(at,t)`: assigns to the item, or constructs one. -/
def set (p : Page T) (k : Nat) (t : T) : Page T :=
  if p.isUsed k then { p with items := Function.update p.items k (some t) }
  else
    { p with
      items := Function.update p.items k (some t)
      bmap := Function.update p.bmap (k / 64) (insert (p.bmap (k / 64)) (k % 64)) }

/-- `construct(at)`: leaves an item alone, or constructs a default one. -/
def construct [Inhabited T] (p : Page T) (k : Nat) : Page T :=
  if p.isUsed k then p else p.set k default

/-- Writing to the item at an offset. -/
def poke (p : Page T) (k : Nat) (f : T → T) : Page T :=
  { p with items := Function.update p.items k ((p.items k).map f) }

theorem mul_destroy {p : Page T} {k : Nat} : (p.destroy k).mul = p.mul := by
  unfold destroy; split <;> rfl

theorem mul_set {p : Page T} {k : Nat} {t : T} : (p.set k t).mul = p.mul := by
  unfold set; split <;> rfl

theorem mul_construct [Inhabited T] {p : Page T} {k : Nat} : (p.construct k).mul = p.mul := by
  unfold construct
  split
  · rfl
  · exact mul_set

end Page

/-- The members of `inpvec`. The items a vector has room for fit the address space, so the
    64-bit sums of page sizes that the source computes are exact. -/
structure Inpvec (T : Type u) where
  pages : List (Page T)
  nItems : Nat
  pages_ne : pages ≠ []
  size_lt : (pages.map Page.size).sum < 2 ^ 64

namespace Inpvec

variable {T : Type u}

/-- A pointer to a place in a page. -/
structure Ptr where
  page : Nat
  off : Nat
deriving DecidableEq, Repr

/-- `inpvec::iterator`; `page` is `none` when `i_` is null. -/
structure Iter where
  page : Option Nat
  pos : Nat
  gpos : Nat
deriving DecidableEq, Repr

/-- `inpvec()`, one page of one word. -/
def init : Inpvec T where
  pages := [Page.mulAlloc 1]
  nItems := 0
  pages_ne := by simp
  size_lt := by simp [Page.size, Page.mulAlloc]

def sizes (v : Inpvec T) : List Nat := v.pages.map Page.size

/-- `*tail_`. -/
def tail (v : Inpvec T) : Page T := v.pages.getLast v.pages_ne

/-- `size()`. -/
def size (v : Inpvec T) : Nat := v.sizes.sum

/-- `end()`. -/
def endIt : Iter := ⟨none, 0, 0⟩

/-- `allocate(mul)`. -/
def allocate (v : Inpvec T) (mul : UInt32) : Option (Inpvec T) :=
  if h : v.size + (mul * 64).toNat < 2 ^ 64 then
    some
      { v with
        pages := v.pages ++ [Page.mulAlloc mul]
        pages_ne := by simp
        size_lt := by simpa [size, sizes, Page.size, Page.mulAlloc] using h }
  else none

/-- The search through the pages that `get_ptr`, `iterator_at` and `force_iterator_at` have in
    common: the page with position `k`, and the offset in it. `i` counts the pages behind,
    `maxPos` their room. -/
def pageAt (k : Nat) : List (Page T) → Nat → Nat → Option Ptr
  | [], _, _ => none
  | p :: ps, i, maxPos =>
    let maxPos := maxPos + p.size
    if k ≥ maxPos then pageAt k ps (i + 1) maxPos else some ⟨i, k - (maxPos - p.size)⟩

/-- The value at a pointer. -/
def deref (v : Inpvec T) (x : Ptr) : Option T := v.pages[x.page]?.bind fun p => p.items x.off

/-- The bit at a pointer. -/
def isUsed (v : Inpvec T) (x : Ptr) : Bool :=
  match v.pages[x.page]? with
  | some p => p.isUsed x.off
  | none => false

/-- `get_ptr(at)`. -/
def getPtr (v : Inpvec T) (k : Nat) : Option Ptr :=
  match pageAt k v.pages 0 0 with
  | some x => if v.isUsed x then some x else none
  | none => none

/-- `iterator_at(pos)`. -/
def iteratorAt (v : Inpvec T) (k : Nat) : Iter :=
  if v.nItems = 0 then endIt
  else
    match pageAt k v.pages 0 0 with
    | some x => ⟨some x.page, x.off, k⟩
    | none => endIt

/-- `force_iterator_at(pos)`, its recursion cut off after `fuel` calls. -/
def forceIteratorAt (v : Inpvec T) (k : Nat) : Nat → Option (Inpvec T × Iter)
  | 0 => none
  | fuel + 1 =>
    match pageAt k v.pages 0 0 with
    | some x => some (v, ⟨some x.page, x.off, k⟩)
    | none =>
      let mul := v.tail.mul + 2
      let px := k - v.size
      let mul := if mul.toNat < px / 64 + 2 then UInt32.ofNat (px / 64 + 2) else mul
      match v.allocate mul with
      | some v' => forceIteratorAt v' k fuel
      | none => none

/-- `last_free()`. -/
def lastFree (v : Inpvec T) : Option (Inpvec T × Iter) :=
  let mul := v.tail.mul + 2
  let pos := v.tail.lastFree
  if pos = v.tail.size then
    let sz := v.size
    (v.allocate mul).map fun v' => (v', ⟨some v.pages.length, v'.tail.lastFree, sz⟩)
  else some (v, ⟨some (v.pages.length - 1), pos, pos + base v.sizes (v.pages.length - 1)⟩)

/-- The loop of `first_free`. -/
def firstFreeLoop : List (Page T) → Nat → Nat → Option Iter
  | [], _, _ => none
  | p :: ps, i, pos =>
    let f := p.firstFree
    if f ≠ p.size then some ⟨some i, f, pos + f⟩ else firstFreeLoop ps (i + 1) (pos + f)

/-- `first_free()`. -/
def firstFree (v : Inpvec T) : Option (Inpvec T × Iter) :=
  match firstFreeLoop v.pages 0 0 with
  | some it => some (v, it)
  | none =>
    let mul := v.tail.mul + 2
    let sz := v.size
    (v.allocate mul).map fun v' => (v', ⟨some v.pages.length, 0, sz⟩)

/-- The vector with page `i` changed in place and the count set. -/
def onPage (v : Inpvec T) (i : Nat) (f : Page T → Page T) (hf : ∀ p, (f p).mul = p.mul)
    (nItems : Nat) : Inpvec T where
  pages := v.pages.modify i f
  nItems := nItems
  pages_ne := by
    intro h
    have := congrArg List.length h
    rw [List.length_modify] at this
    exact v.pages_ne (List.eq_nil_of_length_eq_zero this)
  size_lt := by
    have hsame : (v.pages.modify i f).map Page.size = v.pages.map Page.size := by
      apply List.ext_getElem?
      intro j
      rw [List.getElem?_map, List.getElem?_map, List.getElem?_modify]
      cases v.pages[j]? with
      | none => rfl
      | some p => by_cases hj : i = j <;> simp [hj, Page.size, hf]
    rw [hsame]
    exact v.size_lt

/-- `iterator::set(t)`. -/
def iterSet (v : Inpvec T) (it : Iter) (t : T) : Inpvec T × Option Ptr :=
  match it.page with
  | none => (v, none)
  | some i =>
    (v.onPage i (·.set it.pos t) (fun _ => Page.mul_set)
      (if v.isUsed ⟨i, it.pos⟩ then v.nItems else v.nItems + 1), some ⟨i, it.pos⟩)

/-- `iterator::construct()`. -/
def iterConstruct [Inhabited T] (v : Inpvec T) (it : Iter) : Inpvec T × Option Ptr :=
  match it.page with
  | none => (v, none)
  | some i =>
    (v.onPage i (·.construct it.pos) (fun _ => Page.mul_construct)
      (if v.isUsed ⟨i, it.pos⟩ then v.nItems else v.nItems + 1), some ⟨i, it.pos⟩)

/-- `iterator::free()`. -/
def iterFree (v : Inpvec T) (it : Iter) : Inpvec T :=
  match it.page with
  | none => v
  | some i =>
    v.onPage i (·.destroy it.pos) (fun _ => Page.mul_destroy)
      (if v.isUsed ⟨i, it.pos⟩ then v.nItems - 1 else v.nItems)

/-- Writing through a pointer to an item. -/
def poke (v : Inpvec T) (x : Ptr) (f : T → T) : Inpvec T :=
  v.onPage x.page (·.poke x.off f) (fun _ => rfl) v.nItems

/-- `iterator::is_empty()`. A null iterator stands on nothing. -/
def iterIsEmpty (v : Inpvec T) (it : Iter) : Bool :=
  match it.page with
  | none => true
  | some i => !v.isUsed ⟨i, it.pos⟩

/-- `free_at(pos)`. -/
def freeAt (v : Inpvec T) (k : Nat) : Inpvec T × Bool :=
  let it := v.iteratorAt k
  if it ≠ endIt ∧ v.iterIsEmpty it = false then (v.iterFree it, true) else (v, false)

/-- `set(pos,t)`. -/
def set (v : Inpvec T) (k : Nat) (t : T) (fuel : Nat) : Option (Inpvec T × Option Ptr) :=
  (v.forceIteratorAt k fuel).map fun r => r.1.iterSet r.2 t

/-- `construct(pos)`. -/
def construct [Inhabited T] (v : Inpvec T) (k : Nat) (fuel : Nat) :
    Option (Inpvec T × Option Ptr) :=
  (v.forceIteratorAt k fuel).map fun r => r.1.iterConstruct r.2

/-- `push_back(t)`. -/
def pushBack (v : Inpvec T) (t : T) : Option (Inpvec T × Option Ptr) :=
  v.lastFree.map fun r => r.1.iterSet r.2 t

/-- `reset()`. The pages after the first are deleted and the first is as it was at the start. -/
def reset (_ : Inpvec T) : Inpvec T := init

end Inpvec

end CodeSLoop
