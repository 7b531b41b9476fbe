import CodeSLoop.Lib.Heap
import CodeSLoop.Lib.Run

/-!
# `tbuf`s over whole runs (`common/tbuf.hh`, `common/tbuf_impl.hh`)

Several buffers share a heap. Each has its preallocated area, `data_` is a pointer to that or to a
block, and whatever a call does has a meaning only as long as it stays inside what is there and
gives back blocks that are there. `malloc` never fails here, and what is in a new block is
anything.

What the buffers are meant to be is an array of bytes that grows, some of which may not have been
said yet (`none`). A run of calls is right throughout exactly when nothing of a buffer that is on
the heap is appended to the buffer itself, nothing that is set is written over while it is copied,
and no size that is asked for is too much for 64 bits (`runs_iff`): `append` takes the pointer to
what it appends before `allocate` gives it back.
-/

namespace CodeSLoop

open Heap Lts

universe u

namespace Tbufs

/-! ## The buffers -/

section Model

variable {ι : Type u}

/-- The members `data_` and `size_`. The preallocated area is `Ptr.area` of the buffer. -/
structure Head (ι : Type u) where
  data : Ptr ι
  size : UInt64

structure World (ι : Type u) where
  mem : Store ι UInt8
  bufs : ι → Head ι

/-- What a caller gives: a pointer, which may be null, and how many bytes there are. -/
structure Range where
  dta : Option (List UInt8)
  sz : UInt64
  enough : ∀ bs, dta = some bs → sz.toNat ≤ bs.length

/-- What `set` and `append` copy from: what a caller gives, or what is behind a pointer into some
    buffer. -/
inductive Source (ι : Type u)
  | range (dta : Option (List UInt8))
  | at (p : Ptr ι) (off : Nat)

/-- The source side of `memcpy`. -/
def Source.bytes (mem : Store ι UInt8) (n : Nat) : Source ι → Option (List UInt8)
  | .range none => none
  | .range (some bs) => if n ≤ bs.length then some (bs.take n) else none
  | .at p off => mem.load p off n

/-- Are some of the `n` bytes also among those from `off` on at `q`? -/
def Source.Overlaps (q : Ptr ι) (off n : Nat) : Source ι → Prop
  | .range _ => False
  | .at p o => p = q ∧ o < off + n ∧ off < o + n

variable [DecidableEq ι]

instance (q : Ptr ι) (off n : Nat) : ∀ src : Source ι, Decidable (src.Overlaps q off n)
  | .range _ => inferInstanceAs (Decidable False)
  | .at _ _ => inferInstanceAs (Decidable (_ ∧ _))

/-- `memcpy`, which has no meaning when what it copies is written over. -/
def copy (mem : Store ι UInt8) (q : Ptr ι) (off : Nat) (src : Source ι) (n : Nat) :
    Option (Store ι UInt8) :=
  if src.Overlaps q off n then none else (src.bytes mem n).bind (mem.store q off)

def World.put (w : World ι) (i : ι) (b : Head ι) : World ι := { w with bufs := Function.update w.bufs i b }

theorem World.put_self (w : World ι) (i : ι) (b : Head ι) : (w.put i b).bufs i = b :=
  Function.update_self _ _ _

/-- `reset`. -/
def reset (w : World ι) (i : ι) : Option (World ι) :=
  let b := w.bufs i
  if b.data ≠ .area i then
    (w.mem.free b.data).map fun mem => { mem := mem, bufs := Function.update w.bufs i ⟨.area i, 0⟩ }
  else some (w.put i { b with size := 0 })

variable (SZ : UInt64) (junk : Nat → Nat → UInt8)

/-- `allocate`, and the pointer that it returns. -/
def allocate (w : World ι) (i : ι) (sz : UInt64) : Option (World ι × Ptr ι) :=
  let b := w.bufs i
  if sz = 0 then (reset w i).map (·, b.data)
  else if sz ≤ b.size then some (w.put i { b with size := sz }, b.data)
  else if sz ≤ SZ ∧ b.data = .area i then some (w.put i { b with size := sz }, b.data)
  else
    let tmp := .block w.mem.next
    let mem := w.mem.malloc junk sz.toNat
    (if b.size > 0 then
        (mem.load b.data 0 b.size.toNat).bind fun dta =>
          (mem.store tmp 0 dta).bind fun mem => if b.data ≠ .area i then mem.free b.data else some mem
      else some mem).map fun mem => (⟨mem, Function.update w.bufs i ⟨tmp, sz⟩⟩, tmp)

/-- `allocate_nocopy`. -/
def allocateNocopy (w : World ι) (i : ι) (sz : UInt64) : Option (World ι × Ptr ι) :=
  let b := w.bufs i
  if sz = 0 then (reset w i).map fun w => (w, (w.bufs i).data)
  else if sz ≤ b.size then some (w.put i { b with size := sz }, b.data)
  else if sz ≤ SZ then
    (if b.size > 0 ∧ b.data ≠ .area i then w.mem.free b.data else some w.mem).map fun mem =>
      (⟨mem, Function.update w.bufs i ⟨.area i, sz⟩⟩, .area i)
  else
    let tmp := .block w.mem.next
    let mem := w.mem.malloc junk sz.toNat
    (if b.size > 0 ∧ b.data ≠ .area i then mem.free b.data else some mem).map fun mem =>
      (⟨mem, Function.update w.bufs i ⟨tmp, sz⟩⟩, tmp)

/-- `set(dta,sz)`. -/
def set (w : World ι) (i : ι) (dta : Source ι) (sz : UInt64) : Option (World ι × Bool) :=
  if sz = 0 then (reset w i).map (·, true)
  else
    match dta with
    | .range none => some (w, false)
    | dta =>
      (allocate SZ junk w i sz).bind fun a =>
        (copy a.1.mem (a.1.bufs i).data 0 dta sz.toNat).map fun mem => ({ a.1 with mem := mem }, true)

/-- `append(dta,sz)`. -/
def append (w : World ι) (i : ι) (dta : Source ι) (sz : UInt64) : Option (World ι × Bool) :=
  if sz = 0 then some (w, true)
  else
    match dta with
    | .range none => some (w, false)
    | dta =>
      (allocate SZ junk w i ((w.bufs i).size + sz)).bind fun a =>
        (copy a.1.mem (a.1.bufs i).data ((a.1.bufs i).size - sz).toNat dta sz.toNat).map fun mem =>
          ({ a.1 with mem := mem }, true)

/-- `append(other)`. -/
def appendBuf (w : World ι) (i j : ι) : Option (World ι × Bool) :=
  append SZ junk w i (.at (w.bufs j).data 0) (w.bufs j).size

/-- `set_at`. -/
def setAt (w : World ι) (i : ι) (pos : UInt64) (c : UInt8) : Option (World ι) :=
  (if pos ≥ (w.bufs i).size then allocate SZ junk w i (pos + 1) else some (w, (w.bufs i).data)).bind
    fun a => (a.1.mem.store a.2 pos.toNat [c]).map fun mem => { a.1 with mem := mem }

/-- `append(c)`. -/
def appendChar (w : World ι) (i : ι) (c : UInt8) : Option (World ι) := setAt SZ junk w i (w.bufs i).size c

/-- `operator=(const tbuf &)`. -/
def assign (w : World ι) (i j : ι) : Option (World ι) :=
  if j = i ∨ (w.bufs j).data = (w.bufs i).data then some w
  else if (w.bufs j).size = 0 then reset w i
  else
    (allocateNocopy SZ junk w i (w.bufs j).size).bind fun a =>
      (a.1.mem.load (a.1.bufs j).data 0 (a.1.bufs j).size.toNat).bind fun bs =>
        (a.1.mem.store a.2 0 bs).map fun mem => { a.1 with mem := mem }

/-- The calls; `set` and `append` also with bytes from `off` on of a buffer, the same or another. -/
inductive Op (ι : Type u)
  | set (i : ι) (r : Range)
  | setFrom (i j : ι) (off sz : UInt64)
  | append (i : ι) (r : Range)
  | appendFrom (i j : ι) (off sz : UInt64)
  | appendBuf (i j : ι)
  | appendChar (i : ι) (c : UInt8)
  | setAt (i : ι) (pos : UInt64) (c : UInt8)
  | allocate (i : ι) (sz : UInt64)
  | allocateNocopy (i : ι) (sz : UInt64)
  | assign (i j : ι)
  | reset (i : ι)

/-- The buffers after a call, when all that it does has a meaning. There is none when the bytes of a
    buffer that are given are not all in it. -/
def exec (w : World ι) : Op ι → Option (World ι)
  | .set i r => (set SZ junk w i (.range r.dta) r.sz).map Prod.fst
  | .setFrom i j off sz =>
    if off.toNat + sz.toNat ≤ (w.bufs j).size.toNat then
      (set SZ junk w i (.at (w.bufs j).data off.toNat) sz).map Prod.fst
    else none
  | .append i r => (append SZ junk w i (.range r.dta) r.sz).map Prod.fst
  | .appendFrom i j off sz =>
    if off.toNat + sz.toNat ≤ (w.bufs j).size.toNat then
      (append SZ junk w i (.at (w.bufs j).data off.toNat) sz).map Prod.fst
    else none
  | .appendBuf i j => (appendBuf SZ junk w i j).map Prod.fst
  | .appendChar i c => appendChar SZ junk w i c
  | .setAt i pos c => setAt SZ junk w i pos c
  | .allocate i sz => (allocate SZ junk w i sz).map Prod.fst
  | .allocateNocopy i sz => (allocateNocopy SZ junk w i sz).map Prod.fst
  | .assign i j => assign SZ junk w i j
  | .reset i => reset w i

end Model

/-! ## Arrays that grow -/

section Arrays

/-- Bytes, some of which have not been said. -/
abbrev Bytes := List (Option UInt8)

/-- The first bytes are kept. -/
def resize (xs : Bytes) (n : Nat) : Bytes := xs.take n ++ List.replicate (n - xs.length) none

/-- They are kept only when there are not to be more. -/
def resizeNocopy (xs : Bytes) (n : Nat) : Bytes :=
  if n ≤ xs.length then xs.take n else List.replicate n none

variable {ι : Type u} [DecidableEq ι]

/-- What a call makes of the arrays. -/
def plain (σ : ι → Bytes) : Op ι → ι → Bytes
  | .set i r => Function.update σ i <|
    if r.sz = 0 then []
    else match r.dta with
      | none => σ i
      | some bs => (bs.take r.sz.toNat).map some
  | .setFrom i j off sz => Function.update σ i (((σ j).drop off.toNat).take sz.toNat)
  | .append i r => Function.update σ i <|
    match r.dta with
    | none => σ i
    | some bs => σ i ++ (bs.take r.sz.toNat).map some
  | .appendFrom i j off sz => Function.update σ i (σ i ++ ((σ j).drop off.toNat).take sz.toNat)
  | .appendBuf i j => Function.update σ i (σ i ++ σ j)
  | .appendChar i c => Function.update σ i (σ i ++ [some c])
  | .setAt i pos c => Function.update σ i <|
    (if pos.toNat < (σ i).length then σ i else resize (σ i) (pos.toNat + 1)).set pos.toNat (some c)
  | .allocate i sz => Function.update σ i (resize (σ i) sz.toNat)
  | .allocateNocopy i sz => Function.update σ i (resizeNocopy (σ i) sz.toNat)
  | .assign i j => Function.update σ i (σ j)
  | .reset i => Function.update σ i []

/-- The bytes are what the array says, where it says something. -/
def Says (xs : Bytes) (bs : List UInt8) : Prop := List.Forall₂ (fun x b => ∀ c, x = some c → c = b) xs bs

section Says

variable {xs ys : Bytes} {bs cs : List UInt8} {n : Nat}

theorem Says.length_eq (h : Says xs bs) : xs.length = bs.length := List.Forall₂.length_eq h

theorem says_map (bs : List UInt8) : Says (bs.map some) bs := by
  induction bs with
  | nil => exact .nil
  | cons b bs ih => exact .cons (fun c hc => (Option.some.inj hc).symm) ih

theorem says_replicate (bs : List UInt8) : Says (List.replicate bs.length none) bs := by
  induction bs with
  | nil => exact .nil
  | cons b bs ih => exact .cons (fun c hc => (by cases hc)) ih

theorem Says.append (h : Says xs bs) (h' : Says ys cs) : Says (xs ++ ys) (bs ++ cs) := List.rel_append h h'

theorem Says.take (h : Says xs bs) (n : Nat) : Says (xs.take n) (bs.take n) := List.forall₂_take n h

theorem Says.drop (h : Says xs bs) (n : Nat) : Says (xs.drop n) (bs.drop n) := List.forall₂_drop n h

theorem Says.set (h : Says xs bs) (k : Nat) (c : UInt8) : Says (xs.set k (some c)) (bs.set k c) := by
  induction h generalizing k with
  | nil => exact .nil
  | cons hx hxs ih =>
    cases k with
    | zero => exact .cons (fun d hd => (Option.some.inj hd).symm) hxs
    | succ k => exact .cons hx (ih k)

theorem Says.resize (h : Says xs bs) (hcs : (bs.take n ++ cs).length = n) :
    Says (resize xs n) (bs.take n ++ cs) := by
  have hlen : cs.length = n - xs.length := by
    rw [List.length_append, List.length_take] at hcs
    rw [h.length_eq]
    omega
  rw [Tbufs.resize, ← hlen]
  exact (h.take n).append (says_replicate cs)

theorem Says.setAt (h : Says xs bs) (c : UInt8) (hcs : (bs ++ cs).length = max bs.length (n + 1)) :
    Says ((if n < xs.length then xs else Tbufs.resize xs (n + 1)).set n (some c)) ((bs ++ cs).set n c) := by
  rw [List.length_append] at hcs
  refine Says.set ?_ n c
  rw [h.length_eq]
  split
  · have hnil : cs = [] := List.length_eq_zero_iff.mp (by omega)
    rw [hnil, List.append_nil]
    exact h
  · have htake : bs.take (n + 1) = bs := List.take_of_length_le (by omega)
    have hlong := h.resize (by rw [htake, List.length_append]; omega : (bs.take (n + 1) ++ cs).length = n + 1)
    rwa [htake] at hlong

/-- A byte at the end. -/
theorem set_length (xs : Bytes) (x : Option UInt8) :
    (if xs.length < xs.length then xs else resize xs (xs.length + 1)).set xs.length x = xs ++ [x] := by
  have htake : xs.take (xs.length + 1) = xs := List.take_of_length_le (Nat.le_succ _)
  rw [if_neg (Nat.lt_irrefl _), Tbufs.resize, htake, Nat.add_sub_cancel_left]
  simp

theorem Says.resizeNocopy (h : Says xs bs) (hcs : cs.length = n)
    (hkeep : n ≤ bs.length → cs = bs.take n) : Says (resizeNocopy xs n) cs := by
  rw [Tbufs.resizeNocopy]
  split
  · rename_i hle
    rw [hkeep (h.length_eq ▸ hle)]
    exact h.take n
  · rw [← hcs]
    exact says_replicate cs

end Says

end Arrays

/-! ## What holds between calls -/

section Sound

variable {ι : Type u} [DecidableEq ι] {SZ : UInt64} {junk : Nat → Nat → UInt8} {w w' : World ι} {i j : ι}

/-- What the data pointer points to. -/
def cells (w : World ι) (i : ι) : List UInt8 := (w.mem.contents (w.bufs i).data).getD []

/-- The bytes of a buffer. -/
def view (w : World ι) (i : ι) : List UInt8 := (cells w i).take (w.bufs i).size.toNat

/-- Every block belongs to one buffer, and a data pointer points to storage of `size()` bytes at
    least. -/
structure Sound (SZ : UInt64) (w : World ι) : Prop where
  ledger : Ledger w.mem fun i => (w.bufs i).data
  areas : ∀ i, (w.mem.areas i).length = SZ.toNat
  used : ∀ i id, (w.bufs i).data = .block id → (w.bufs i).size ≠ 0
  room : ∀ i, (w.bufs i).size.toNat ≤ (cells w i).length
  bounded : ∀ i, (cells w i).length < 2 ^ 64

/-- The other buffers, and what they point to, are as before. -/
def Others (i : ι) (w w' : World ι) : Prop :=
  ∀ j, j ≠ i → w'.bufs j = w.bufs j ∧ w'.mem.contents (w.bufs j).data = w.mem.contents (w.bufs j).data

omit [DecidableEq ι] in
theorem Others.refl (i : ι) (w : World ι) : Others i w w := fun _ _ => ⟨rfl, rfl⟩

omit [DecidableEq ι] in
theorem Others.trans {w'' : World ι} (h : Others i w w') (h' : Others i w' w'') : Others i w w'' := by
  intro j hj
  obtain ⟨hb, hc⟩ := h j hj
  obtain ⟨hb', hc'⟩ := h' j hj
  rw [hb] at hb' hc'
  exact ⟨hb', hc'.trans hc⟩

omit [DecidableEq ι] in
theorem Others.cells_eq (h : Others i w w') (hj : j ≠ i) : cells w' j = cells w j := by
  obtain ⟨hb, hc⟩ := h j hj
  rw [cells, cells, hb, hc]

omit [DecidableEq ι] in
theorem Others.view_eq (h : Others i w w') (hj : j ≠ i) : view w' j = view w j := by
  rw [view, view, h.cells_eq hj, (h j hj).1]

namespace Sound

omit [DecidableEq ι] in
theorem contents_eq (h : Sound SZ w) (i : ι) : w.mem.contents (w.bufs i).data = some (cells w i) := by
  obtain ⟨xs, hxs⟩ := h.ledger.contents i
  rw [cells, hxs, Option.getD_some]

omit [DecidableEq ι] in
theorem length_view (h : Sound SZ w) (i : ι) : (view w i).length = (w.bufs i).size.toNat := by
  rw [view, List.length_take]
  exact Nat.min_eq_left (h.room i)

omit [DecidableEq ι] in
theorem load_range (h : Sound SZ w) (i : ι) {off n : Nat} (hn : off + n ≤ (w.bufs i).size.toNat) :
    w.mem.load (w.bufs i).data off n = some (((view w i).drop off).take n) := by
  rw [Store.load_eq (h.contents_eq i) (Nat.le_trans hn (h.room i)), view, List.drop_take,
    List.take_take, Nat.min_eq_left (by omega)]

omit [DecidableEq ι] in
theorem load_first (h : Sound SZ w) (i : ι) {n : Nat} (hn : n ≤ (w.bufs i).size.toNat) :
    w.mem.load (w.bufs i).data 0 n = some ((view w i).take n) := by
  rw [h.load_range i (by rwa [Nat.zero_add]), List.drop_zero]

omit [DecidableEq ι] in
theorem load_view (h : Sound SZ w) (i : ι) :
    w.mem.load (w.bufs i).data 0 (w.bufs i).size.toNat = some (view w i) := by
  rw [h.load_first i (Nat.le_refl _), List.take_of_length_le (Nat.le_of_eq (h.length_view i))]

/-- It is enough to look at the buffer of the call. -/
theorem of_others (h : Sound SZ w) (ho : Others i w w') (hl : Ledger w'.mem fun i => (w'.bufs i).data)
    (ha : ∀ j, (w'.mem.areas j).length = (w.mem.areas j).length)
    (hu : ∀ id, (w'.bufs i).data = .block id → (w'.bufs i).size ≠ 0)
    (hr : (w'.bufs i).size.toNat ≤ (cells w' i).length) (hb : (cells w' i).length < 2 ^ 64) :
    Sound SZ w' where
  ledger := hl
  areas j := (ha j).trans (h.areas j)
  used j id hj := by
    by_cases hji : j = i
    · rw [hji] at hj ⊢
      exact hu id hj
    · rw [(ho j hji).1] at hj ⊢
      exact h.used j id hj
  room j := by
    by_cases hji : j = i
    · rw [hji]
      exact hr
    · rw [(ho j hji).1, ho.cells_eq hji]
      exact h.room j
  bounded j := by
    by_cases hji : j = i
    · rw [hji]
      exact hb
    · rw [ho.cells_eq hji]
      exact h.bounded j

omit [DecidableEq ι] in
theorem size_of_view_nil (h : Sound SZ w) (hnil : view w i = []) : (w.bufs i).size = 0 := by
  rw [← UInt64.toNat_inj, ← h.length_view, hnil]
  rfl

/-- The size is set, within what there is. -/
theorem put (h : Sound SZ w) {sz : UInt64} (hle : sz.toNat ≤ (cells w i).length)
    (hne : ∀ id, (w.bufs i).data = .block id → sz ≠ 0) :
    Sound SZ (w.put i { w.bufs i with size := sz }) ∧ Others i w (w.put i { w.bufs i with size := sz }) ∧
      view (w.put i { w.bufs i with size := sz }) i = (cells w i).take sz.toNat := by
  have hself := w.put_self i { w.bufs i with size := sz }
  have hdata : (fun j => ((w.put i { w.bufs i with size := sz }).bufs j).data) = fun j => (w.bufs j).data := by
    funext j
    by_cases hj : j = i
    · rw [hj, hself]
    · exact congrArg Head.data (Function.update_of_ne hj _ _)
  have hcells : cells (w.put i { w.bufs i with size := sz }) i = cells w i := by
    rw [cells, hself]
    rfl
  have hothers : Others i w (w.put i { w.bufs i with size := sz }) :=
    fun j hj => ⟨Function.update_of_ne hj _ _, rfl⟩
  refine ⟨h.of_others hothers ?_ (fun _ => rfl) ?_ ?_ ?_, hothers, ?_⟩
  · rw [hdata]
    exact h.ledger
  · rw [hself]
    exact hne
  · rwa [hself, hcells]
  · rw [hcells]
    exact h.bounded i
  · rw [view, hcells, hself]

/-- The size is set to less than it was. -/
theorem put_less (h : Sound SZ w) {sz : UInt64} (hle : sz ≤ (w.bufs i).size) (h0 : sz ≠ 0) :
    Sound SZ (w.put i { w.bufs i with size := sz }) ∧ Others i w (w.put i { w.bufs i with size := sz }) ∧
      view (w.put i { w.bufs i with size := sz }) i = (view w i).take sz.toNat := by
  have hroom : sz.toNat ≤ (w.bufs i).size.toNat := UInt64.le_iff_toNat_le.mp hle
  obtain ⟨hs, ho, hv⟩ := h.put (Nat.le_trans hroom (h.room i)) fun _ _ => h0
  refine ⟨hs, ho, ?_⟩
  rw [hv, view, List.take_take, Nat.min_eq_left hroom]

/-- A block is given back. -/
theorem drop (h : Sound SZ w) {id : Nat} (hi : (w.bufs i).data = .block id) :
    ∃ mem, w.mem.free (.block id) = some mem ∧ mem.next = w.mem.next ∧
      Sound SZ ⟨mem, Function.update w.bufs i ⟨.area i, 0⟩⟩ ∧
      Others i w ⟨mem, Function.update w.bufs i ⟨.area i, 0⟩⟩ := by
  obtain ⟨mem, hfree, hledger⟩ := h.ledger.drop hi
  have hmem : mem = { w.mem with blocks := Function.update w.mem.blocks id none,
                                 freed := id :: w.mem.freed } := by
    rw [Store.free_eq ((h.ledger.live id).mpr ⟨i, hi⟩)] at hfree
    exact (Option.some.inj hfree).symm
  have hothers : Others i w ⟨mem, Function.update w.bufs i ⟨.area i, 0⟩⟩ := by
    intro j hj
    refine ⟨Function.update_of_ne hj _ _, Store.contents_free_of_ne hfree fun he => ?_⟩
    exact hj (h.ledger.apart j i id he hi)
  have hself : (Function.update w.bufs i ⟨.area i, 0⟩ : ι → Head ι) i = ⟨.area i, 0⟩ :=
    Function.update_self _ _ _
  have hdata : (fun j => (Function.update w.bufs i ⟨.area i, 0⟩ j).data) =
      Function.update (fun j => (w.bufs j).data) i (.area i) := by
    funext j
    by_cases hj : j = i
    · rw [hj, Function.update_self, Function.update_self]
    · rw [Function.update_of_ne hj, Function.update_of_ne hj]
  have hareas : mem.areas = w.mem.areas := by rw [hmem]
  have hcells : cells ⟨mem, Function.update w.bufs i ⟨.area i, 0⟩⟩ i = w.mem.areas i := by
    rw [cells]
    simp only [hself]
    rw [← hareas]
    rfl
  refine ⟨mem, hfree, by rw [hmem], h.of_others hothers ?_ ?_ ?_ ?_ ?_, hothers⟩
  · simp only [hdata]
    exact hledger
  · intro j
    simp only [hareas]
  · intro k hk
    simp only [hself] at hk
    cases hk
  · simp only [hself]
    exact Nat.zero_le _
  · rw [hcells, h.areas]
    exact UInt64.toNat_lt _

/-- A block is asked for. -/
theorem grow (h : Sound SZ w) (hi : (w.bufs i).data = .area i) (junk : Nat → Nat → UInt8) {sz : UInt64}
    (hne : sz ≠ 0) :
    Sound SZ ⟨w.mem.malloc junk sz.toNat, Function.update w.bufs i ⟨.block w.mem.next, sz⟩⟩ ∧
      Others i w ⟨w.mem.malloc junk sz.toNat, Function.update w.bufs i ⟨.block w.mem.next, sz⟩⟩ ∧
      cells ⟨w.mem.malloc junk sz.toNat, Function.update w.bufs i ⟨.block w.mem.next, sz⟩⟩ i =
        (List.range sz.toNat).map (junk w.mem.next) := by
  have hothers : Others i w
      ⟨w.mem.malloc junk sz.toNat, Function.update w.bufs i ⟨.block w.mem.next, sz⟩⟩ :=
    fun j hj => ⟨Function.update_of_ne hj _ _, Store.contents_malloc_of_ne (h.ledger.ne_next j)⟩
  have hself : (Function.update w.bufs i ⟨.block w.mem.next, sz⟩ : ι → Head ι) i = ⟨.block w.mem.next, sz⟩ :=
    Function.update_self _ _ _
  have hdata : (fun j => (Function.update w.bufs i ⟨.block w.mem.next, sz⟩ j).data) =
      Function.update (fun j => (w.bufs j).data) i (.block w.mem.next) := by
    funext j
    by_cases hj : j = i
    · rw [hj, Function.update_self, Function.update_self]
    · rw [Function.update_of_ne hj, Function.update_of_ne hj]
  have hcells : cells ⟨w.mem.malloc junk sz.toNat, Function.update w.bufs i ⟨.block w.mem.next, sz⟩⟩ i =
      (List.range sz.toNat).map (junk w.mem.next) := by
    rw [cells]
    simp only [hself]
    rw [Store.contents_malloc_self, Option.getD_some]
  refine ⟨h.of_others hothers ?_ (fun _ => rfl) ?_ ?_ ?_, hothers, hcells⟩
  · simp only [hdata]
    exact h.ledger.grow hi junk sz.toNat
  · intro k _
    simp only [hself]
    exact hne
  · simp only [hself]
    rw [hcells, Store.length_malloc]
  · rw [hcells, Store.length_malloc]
    exact sz.toNat_lt

/-- Bytes are written where the data pointer points to. -/
theorem store (h : Sound SZ w) (i : ι) (off : Nat) (bs : List UInt8)
    (hle : off + bs.length ≤ (cells w i).length) : ∃ mem,
    w.mem.store (w.bufs i).data off bs = some mem ∧
      mem = w.mem.write (w.bufs i).data (patch (cells w i) off bs) ∧ Sound SZ { w with mem := mem } ∧
      Others i w { w with mem := mem } ∧ cells { w with mem := mem } i = patch (cells w i) off bs := by
  have hstore := Store.store_eq (h.contents_eq i) hle
  have hothers : Others i w { w with mem := w.mem.write (w.bufs i).data (patch (cells w i) off bs) } :=
    fun j hj => ⟨rfl, Store.contents_write_of_ne (h.ledger.ptr_ne hj)⟩
  have hcells : cells { w with mem := w.mem.write (w.bufs i).data (patch (cells w i) off bs) } i =
      patch (cells w i) off bs := by
    rw [cells]
    simp only [Store.contents_write_self, Option.getD_some]
  refine ⟨_, hstore, rfl, h.of_others hothers (h.ledger.write i _) ?_ (h.used i) ?_ ?_, hothers, hcells⟩
  · intro j
    cases hp : (w.bufs i).data with
    | area k =>
      have hk : k = i := h.ledger.own i k hp
      by_cases hj : j = i
      · have harea : cells w i = w.mem.areas i := by
          rw [cells, hp, hk]
          rfl
        rw [Store.write, hk, hj, ← harea]
        simp only [Function.update_self]
        exact length_patch hle
      · rw [Store.write, hk]
        simp only [Function.update_of_ne hj]
    | block id => rfl
  · rw [hcells, length_patch hle]
    exact h.room i
  · rw [hcells, length_patch hle]
    exact h.bounded i

end Sound

end Sound

/-! ## What each function does -/

section Functions

variable {ι : Type u} [DecidableEq ι] {SZ : UInt64} {junk : Nat → Nat → UInt8} {w : World ι} {i j : ι}

omit [DecidableEq ι] in
theorem Source.length_bytes {mem : Store ι UInt8} {n : Nat} {src : Source ι} {bs : List UInt8}
    (h : src.bytes mem n = some bs) : bs.length = n := by
  cases src with
  | range dta =>
    cases dta with
    | none => cases h
    | some cs =>
      rw [Source.bytes] at h
      split at h
      · cases h
        rw [List.length_take]
        exact Nat.min_eq_left ‹_›
      · cases h
  | «at» p off =>
    rw [Source.bytes, Store.load, Option.bind_eq_some_iff] at h
    obtain ⟨xs, -, h⟩ := h
    split at h
    · cases h
      rw [List.length_take, List.length_drop]
      omega
    · cases h

/-- A call on the buffer `i` has a meaning, leaves the others alone and gives it the bytes `bs`. -/
def Gives (SZ : UInt64) (w : World ι) (i : ι) (r : Option (World ι)) (bs : List UInt8) : Prop :=
  ∃ w', r = some w' ∧ Sound SZ w' ∧ Others i w w' ∧ view w' i = bs

namespace Sound

theorem reset_gives (h : Sound SZ w) (i : ι) : Gives SZ w i (reset w i) [] := by
  rw [reset]
  cases hp : (w.bufs i).data with
  | area k =>
    obtain rfl := h.ledger.own i k hp
    have hne : ∀ id, (w.bufs k).data = .block id → (0 : UInt64) ≠ 0 := by
      intro id hid
      rw [hp] at hid
      cases hid
    obtain ⟨hs, ho, hv⟩ := h.put (Nat.zero_le _) hne
    rw [if_neg (not_not.mpr rfl), ← hp]
    exact ⟨_, rfl, hs, ho, hv⟩
  | block id =>
    obtain ⟨mem, hfree, -, hs, ho⟩ := h.drop hp
    rw [if_pos (fun he => by cases he), hfree]
    refine ⟨_, rfl, hs, ho, ?_⟩
    rw [view]
    simp only [Function.update_self]
    exact List.take_zero

/-- A block for a buffer that is in its own area, with `dta` at its start. -/
theorem fill_gives (h : Sound SZ w) (hi : (w.bufs i).data = .area i) (junk : Nat → Nat → UInt8) {sz : UInt64}
    (hne : sz ≠ 0) {dta : List UInt8} (hdta : dta.length ≤ sz.toNat) : ∃ mem,
    mem = (w.mem.malloc junk sz.toNat).write (.block w.mem.next)
      (patch ((List.range sz.toNat).map (junk w.mem.next)) 0 dta) ∧
      (w.mem.malloc junk sz.toNat).store (.block w.mem.next) 0 dta = some mem ∧
      Sound SZ ⟨mem, Function.update w.bufs i ⟨.block w.mem.next, sz⟩⟩ ∧
      Others i w ⟨mem, Function.update w.bufs i ⟨.block w.mem.next, sz⟩⟩ ∧
      view ⟨mem, Function.update w.bufs i ⟨.block w.mem.next, sz⟩⟩ i =
        dta ++ ((List.range sz.toNat).map (junk w.mem.next)).drop dta.length := by
  obtain ⟨hs, ho, hnew⟩ := h.grow hi junk hne
  have hfit : 0 + dta.length ≤ ((List.range sz.toNat).map (junk w.mem.next)).length := by
    rwa [Store.length_malloc, Nat.zero_add]
  obtain ⟨mem, hstore, hmem, hs', ho', hcells⟩ := hs.store i 0 dta (by rwa [hnew])
  have hself : (Function.update w.bufs i ⟨.block w.mem.next, sz⟩ : ι → Head ι) i = ⟨.block w.mem.next, sz⟩ :=
    Function.update_self _ _ _
  simp only [hself, hnew] at hstore hmem hcells
  have hview : view ⟨mem, Function.update w.bufs i ⟨.block w.mem.next, sz⟩⟩ i =
      patch ((List.range sz.toNat).map (junk w.mem.next)) 0 dta := by
    rw [view, hcells]
    simp only [hself]
    refine List.take_of_length_le (Nat.le_of_eq ?_)
    rw [length_patch hfit, Store.length_malloc]
  exact ⟨mem, hmem, hstore, hs', ho.trans ho', hview.trans (patch_zero _ _)⟩

/-- A block of its own for a buffer, with the first `n` bytes of what the buffer has. -/
theorem move_gives (h : Sound SZ w) (junk : Nat → Nat → UInt8) {sz : UInt64}
    (hsz : (w.bufs i).size < sz) {n : Nat} (hn : n ≤ (w.bufs i).size.toNat) : ∃ mem,
    (if (w.bufs i).size > 0 then
        ((w.mem.malloc junk sz.toNat).load (w.bufs i).data 0 n).bind fun dta =>
          ((w.mem.malloc junk sz.toNat).store (.block w.mem.next) 0 dta).bind fun mem =>
            if (w.bufs i).data ≠ .area i then mem.free (w.bufs i).data else some mem
      else some (w.mem.malloc junk sz.toNat)) = some mem ∧
      Sound SZ ⟨mem, Function.update w.bufs i ⟨.block w.mem.next, sz⟩⟩ ∧
      Others i w ⟨mem, Function.update w.bufs i ⟨.block w.mem.next, sz⟩⟩ ∧
      view ⟨mem, Function.update w.bufs i ⟨.block w.mem.next, sz⟩⟩ i =
        (view w i).take n ++ ((List.range sz.toNat).map (junk w.mem.next)).drop n := by
  have hne : sz ≠ 0 := by
    rintro rfl
    exact UInt64.not_lt_zero hsz
  have hlength : ((view w i).take n).length = n := by
    rw [List.length_take, h.length_view]
    exact Nat.min_eq_left hn
  have hfit : ((view w i).take n).length ≤ sz.toNat := by
    rw [hlength]
    exact Nat.le_trans hn (Nat.le_of_lt (UInt64.lt_iff_toNat_lt.mp hsz))
  have hload : (w.mem.malloc junk sz.toNat).load (w.bufs i).data 0 n = some ((view w i).take n) := by
    rw [Store.load, Store.contents_malloc_of_ne (h.ledger.ne_next i)]
    exact h.load_first i hn
  cases hp : (w.bufs i).data with
  | area k =>
    obtain rfl := h.ledger.own i k hp
    obtain ⟨mem, -, hstore, hs, ho, hv⟩ := h.fill_gives hp junk hne hfit
    rw [hlength] at hv
    rw [hp] at hload
    by_cases hpos : (w.bufs k).size > 0
    · rw [if_pos hpos, hload, Option.bind_some, hstore, Option.bind_some, if_neg (not_not.mpr rfl)]
      exact ⟨mem, rfl, hs, ho, hv⟩
    · -- there is nothing to copy
      have hzero : n = 0 :=
        Nat.eq_zero_of_not_pos fun h0 => hpos (UInt64.lt_iff_toNat_lt.mpr (Nat.lt_of_lt_of_le h0 hn))
      obtain ⟨hs', ho', hnew⟩ := h.grow hp junk hne
      rw [if_neg hpos, hzero]
      refine ⟨_, rfl, hs', ho', ?_⟩
      rw [view, hnew]
      simp only [Function.update_self]
      exact List.take_of_length_le (Nat.le_of_eq (Store.length_malloc _ _ _))
  | block id =>
    have hpos : (w.bufs i).size > 0 := UInt64.pos_iff_ne_zero.mpr (h.used i id hp)
    obtain ⟨mem₀, hfree, hnext, hs₀, ho₀⟩ := h.drop hp
    have hself : (Function.update w.bufs i ⟨.area i, 0⟩ : ι → Head ι) i = ⟨.area i, 0⟩ :=
      Function.update_self _ _ _
    obtain ⟨mem, hmem, -, hs, ho, hv⟩ :=
      hs₀.fill_gives (i := i) (by simp only [hself]) junk hne hfit
    simp only [hnext, Function.update_idem, hlength] at hmem hs ho hv
    have hblock : id ≠ w.mem.next := by
      rintro rfl
      exact h.ledger.ne_next i hp
    have hstore : (w.mem.malloc junk sz.toNat).store (.block w.mem.next) 0 ((view w i).take n) =
        some ((w.mem.malloc junk sz.toNat).write (.block w.mem.next)
          (patch ((List.range sz.toNat).map (junk w.mem.next)) 0 ((view w i).take n))) := by
      refine Store.store_eq (w.mem.contents_malloc_self junk sz.toNat) ?_
      rw [Store.length_malloc, Nat.zero_add]
      exact hfit
    rw [hp] at hload
    rw [if_pos hpos, hload, Option.bind_some, hstore, Option.bind_some, if_pos (fun he => by cases he),
      Store.free_write (fun he => hblock (Ptr.block.inj he).symm), Store.free_malloc hblock, hfree,
      Option.map_some, Option.map_some, ← hmem]
    exact ⟨mem, rfl, hs, ho₀.trans ho, hv⟩

/-- **`allocate`** keeps the first bytes. -/
theorem allocate_gives (h : Sound SZ w) (junk : Nat → Nat → UInt8) (i : ι) (sz : UInt64) : ∃ w' p rest,
    allocate SZ junk w i sz = some (w', p) ∧ Sound SZ w' ∧ Others i w w' ∧
      view w' i = (view w i).take sz.toNat ++ rest ∧ (w'.bufs i).size = sz ∧
      (sz ≠ 0 → p = (w'.bufs i).data) := by
  rw [allocate]
  by_cases h0 : sz = 0
  · obtain ⟨w', hr, hs, ho, hv⟩ := h.reset_gives i
    have hsize : (w'.bufs i).size = sz := (hs.size_of_view_nil hv).trans h0.symm
    rw [if_pos h0, hr]
    refine ⟨w', _, [], rfl, hs, ho, ?_, hsize, fun hne => absurd h0 hne⟩
    rw [hv, h0]
    rfl
  rw [if_neg h0]
  by_cases hle : sz ≤ (w.bufs i).size
  · obtain ⟨hs, ho, hv⟩ := h.put_less hle h0
    rw [if_pos hle]
    refine ⟨_, _, [], rfl, hs, ho, ?_, by rw [World.put_self], fun _ => by rw [World.put_self]⟩
    rw [hv, List.append_nil]
  rw [if_neg hle]
  have hlt : (w.bufs i).size < sz := UInt64.not_le.mp hle
  have htake : (view w i).take sz.toNat = view w i :=
    List.take_of_length_le ((h.length_view i).trans_le (Nat.le_of_lt (UInt64.lt_iff_toNat_lt.mp hlt)))
  rw [htake]
  by_cases hsz : sz ≤ SZ ∧ (w.bufs i).data = .area i
  · have harea : cells w i = w.mem.areas i := by
      rw [cells, hsz.2]
      rfl
    have hroom : sz.toNat ≤ (cells w i).length := by
      rw [harea, h.areas]
      exact UInt64.le_iff_toNat_le.mp hsz.1
    obtain ⟨hs, ho, hv⟩ := h.put hroom fun _ _ => h0
    have hsplit : (cells w i).take sz.toNat =
        view w i ++ ((cells w i).take sz.toNat).drop (view w i).length := by
      have hpre : view w i <+: (cells w i).take sz.toNat :=
        List.take_prefix_take_left (Nat.le_of_lt (UInt64.lt_iff_toNat_lt.mp hlt))
      exact (List.prefix_iff_eq_append.mp hpre).symm
    rw [if_pos hsz]
    exact ⟨_, _, _, rfl, hs, ho, hv.trans hsplit, by rw [World.put_self], fun _ => by rw [World.put_self]⟩
  · obtain ⟨mem, hmem, hs, ho, hv⟩ := h.move_gives junk hlt (Nat.le_refl _)
    rw [List.take_of_length_le (Nat.le_of_eq (h.length_view i))] at hv
    rw [if_neg hsz]
    simp only [hmem]
    exact ⟨_, _, _, rfl, hs, ho, hv, by simp only [Function.update_self],
      fun _ => by simp only [Function.update_self]⟩

/-- What `allocate_nocopy` gives back, an own block or nothing: no matter whether before or after
    the new block is taken, the array is then in its area. -/
theorem drop_old (h : Sound SZ w) (junk : Nat → Nat → UInt8) (i : ι) (n : Nat) :
    ∃ w₀, Sound SZ w₀ ∧ Others i w w₀ ∧ (w₀.bufs i).data = .area i ∧
      w₀.mem.next = w.mem.next ∧ (∀ b, Function.update w₀.bufs i b = Function.update w.bufs i b) ∧
      (if (w.bufs i).size > 0 ∧ (w.bufs i).data ≠ .area i then w.mem.free (w.bufs i).data
        else some w.mem) = some w₀.mem ∧
      (if (w.bufs i).size > 0 ∧ (w.bufs i).data ≠ .area i then
          (w.mem.malloc junk n).free (w.bufs i).data
        else some (w.mem.malloc junk n)) = some (w₀.mem.malloc junk n) := by
  cases hp : (w.bufs i).data with
  | area k =>
    obtain rfl := h.ledger.own i k hp
    refine ⟨w, h, Others.refl k w, hp, rfl, fun _ => rfl, ?_, ?_⟩
    · rw [if_neg fun hh => hh.2 rfl]
    · rw [if_neg fun hh => hh.2 rfl]
  | block id =>
    have hpos : (w.bufs i).size > 0 := UInt64.pos_iff_ne_zero.mpr (h.used i id hp)
    have hblock : id ≠ w.mem.next := by
      rintro rfl
      exact h.ledger.ne_next i hp
    obtain ⟨mem, hfree, hnext, hs, ho⟩ := h.drop hp
    refine ⟨_, hs, ho, by simp only [Function.update_self], hnext,
      fun b => by simp only [Function.update_idem], ?_, ?_⟩
    · rw [if_pos ⟨hpos, fun he => by cases he⟩, hfree]
    · rw [if_pos ⟨hpos, fun he => by cases he⟩, Store.free_malloc hblock, hfree]
      rfl

/-- **`allocate_nocopy`** has the size, and keeps the first bytes when it is not to be more. -/
theorem allocateNocopy_gives (h : Sound SZ w) (junk : Nat → Nat → UInt8) (i : ι) (sz : UInt64) : ∃ w' p,
    allocateNocopy SZ junk w i sz = some (w', p) ∧ Sound SZ w' ∧ Others i w w' ∧
      (w'.bufs i).size = sz ∧ p = (w'.bufs i).data ∧
      (sz ≤ (w.bufs i).size → view w' i = (view w i).take sz.toNat) := by
  rw [allocateNocopy]
  by_cases h0 : sz = 0
  · obtain ⟨w', hr, hs, ho, hv⟩ := h.reset_gives i
    have hsize : (w'.bufs i).size = sz := (hs.size_of_view_nil hv).trans h0.symm
    rw [if_pos h0, hr]
    refine ⟨w', _, rfl, hs, ho, hsize, rfl, fun _ => ?_⟩
    rw [hv, h0]
    rfl
  rw [if_neg h0]
  by_cases hle : sz ≤ (w.bufs i).size
  · obtain ⟨hs, ho, hv⟩ := h.put_less hle h0
    rw [if_pos hle]
    exact ⟨_, _, rfl, hs, ho, by rw [World.put_self], by rw [World.put_self], fun _ => hv⟩
  rw [if_neg hle]
  obtain ⟨w₀, hs₀, ho₀, hdata, hnext, hupdate, hfree, hfree'⟩ := h.drop_old junk i sz.toNat
  by_cases hsz : sz ≤ SZ
  · have hroom : sz.toNat ≤ (cells w₀ i).length := by
      have harea : cells w₀ i = w₀.mem.areas i := by
        rw [cells, hdata]
        rfl
      rw [harea, hs₀.areas]
      exact UInt64.le_iff_toNat_le.mp hsz
    obtain ⟨hs, ho, -⟩ := hs₀.put hroom fun _ _ => h0
    have hworld : w₀.put i { w₀.bufs i with size := sz } =
        ⟨w₀.mem, Function.update w.bufs i ⟨.area i, sz⟩⟩ := by
      rw [World.put, ← hupdate]
      simp only [hdata]
    rw [hworld] at hs ho
    rw [if_pos hsz, hfree]
    exact ⟨_, _, rfl, hs, ho₀.trans ho, by simp only [Function.update_self],
      by simp only [Function.update_self], fun h' => absurd h' hle⟩
  · obtain ⟨hs, ho, -⟩ := hs₀.grow hdata junk h0
    rw [hnext, hupdate] at hs ho
    rw [if_neg hsz]
    simp only [hfree', Option.map_some]
    exact ⟨_, _, rfl, hs, ho₀.trans ho, by simp only [Function.update_self],
      by simp only [Function.update_self], fun h' => absurd h' hle⟩

/-- Nothing can be written at 2^64 and beyond. -/
theorem store_none (h : Sound SZ w) (p : Ptr ι) (off : Nat) (bs : List UInt8)
    (hle : 2 ^ 64 ≤ off + bs.length) : w.mem.store p off bs = none := by
  cases hc : w.mem.contents p with
  | none =>
    rw [Store.store, hc]
    rfl
  | some xs =>
    refine Store.store_outside hc (Nat.lt_of_lt_of_le ?_ hle)
    cases p with
    | area k =>
      cases hc
      rw [h.areas]
      exact UInt64.toNat_lt _
    | block id =>
      obtain ⟨k, hk⟩ := (h.ledger.live id).mp (Option.isSome_iff_exists.mpr ⟨xs, hc⟩)
      have hcells := h.contents_eq k
      rw [hk, hc, Option.some.injEq] at hcells
      rw [hcells]
      exact h.bounded k

/-- Bytes are written within the size. -/
theorem store_view (h : Sound SZ w) (i : ι) (off : Nat) (bs : List UInt8)
    (hle : off + bs.length ≤ (w.bufs i).size.toNat) : ∃ mem,
    w.mem.store (w.bufs i).data off bs = some mem ∧ Sound SZ { w with mem := mem } ∧
      Others i w { w with mem := mem } ∧ view { w with mem := mem } i = patch (view w i) off bs := by
  obtain ⟨mem, hstore, -, hs, ho, hcells⟩ := h.store i off bs (Nat.le_trans hle (h.room i))
  refine ⟨mem, hstore, hs, ho, ?_⟩
  rw [view, hcells, take_patch hle (h.room i)]
  rfl

theorem set_eq {src : Source ι} {sz : UInt64} (h0 : sz ≠ 0) (hsrc : src ≠ .range none) :
    set SZ junk w i src sz = (allocate SZ junk w i sz).bind fun a =>
      (copy a.1.mem (a.1.bufs i).data 0 src sz.toNat).map fun mem => ({ a.1 with mem := mem }, true) := by
  unfold set
  rw [if_neg h0]
  cases src with
  | range dta =>
    cases dta with
    | none => exact absurd rfl hsrc
    | some bs => rfl
  | «at» p off => rfl

/-- What is set is what the buffer has then, when it can still be copied after `allocate`. -/
theorem set_gives (h : Sound SZ w) {src : Source ι} {sz : UInt64} {bs : List UInt8} (h0 : sz ≠ 0)
    (hsrc : src ≠ .range none)
    (hcopy : ∀ w' p, allocate SZ junk w i sz = some (w', p) →
      ¬ src.Overlaps (w'.bufs i).data 0 sz.toNat ∧ src.bytes w'.mem sz.toNat = some bs) :
    Gives SZ w i ((set SZ junk w i src sz).map Prod.fst) bs := by
  obtain ⟨w', p, rest, ha, hs, ho, -, hsize, -⟩ := h.allocate_gives junk i sz
  obtain ⟨hover, hb⟩ := hcopy w' p ha
  have hlen := Source.length_bytes hb
  obtain ⟨mem, hstore, hs', ho', hv⟩ := hs.store_view i 0 bs (by rw [hlen, hsize, Nat.zero_add])
  rw [set_eq h0 hsrc, ha, Option.bind_some, copy, if_neg hover, hb, Option.bind_some, hstore]
  refine ⟨_, rfl, hs', ho.trans ho', hv.trans (patch_all ?_)⟩
  rw [hlen, hs.length_view, hsize]

theorem set_zero_gives (h : Sound SZ w) (i : ι) (src : Source ι) :
    Gives SZ w i ((set SZ junk w i src 0).map Prod.fst) [] := by
  obtain ⟨w', hr, hw'⟩ := h.reset_gives i
  have hset : set SZ junk w i src 0 = (reset w i).map (·, true) := by
    unfold set
    exact if_pos rfl
  rw [hset, hr]
  exact ⟨w', rfl, hw'⟩

/-- What a caller gives is set. -/
theorem setRange_gives (h : Sound SZ w) (i : ι) (r : Range) :
    Gives SZ w i ((set SZ junk w i (.range r.dta) r.sz).map Prod.fst) (if r.sz = 0 then []
      else match r.dta with
        | none => view w i
        | some bs => bs.take r.sz.toNat) := by
  obtain ⟨dta, sz, henough⟩ := r
  by_cases h0 : sz = 0
  · subst h0
    exact h.set_zero_gives i _
  rw [if_neg h0]
  cases dta with
  | none =>
    refine ⟨w, ?_, h, Others.refl i w, rfl⟩
    unfold set
    simp only
    rw [if_neg h0]
    rfl
  | some bs =>
    exact h.set_gives h0 (fun he => by cases he) fun w' p _ => ⟨id, if_pos (henough bs rfl)⟩

/-- To less than there is, a buffer goes in its place. -/
theorem allocate_less (w : World ι) (i : ι) {sz : UInt64} (h0 : sz ≠ 0) (hle : sz ≤ (w.bufs i).size) :
    allocate SZ junk w i sz = some (w.put i { w.bufs i with size := sz }, (w.bufs i).data) := by
  rw [allocate, if_neg h0, if_pos hle]

/-- A part of a buffer is set, also of the same one when it is not written over. -/
theorem setFrom_gives (h : Sound SZ w) {off sz : UInt64}
    (hin : off.toNat + sz.toNat ≤ (w.bufs j).size.toNat) (hself : j = i → sz = 0 ∨ sz.toNat ≤ off.toNat) :
    Gives SZ w i ((set SZ junk w i (.at (w.bufs j).data off.toNat) sz).map Prod.fst)
      (((view w j).drop off.toNat).take sz.toNat) := by
  by_cases h0 : sz = 0
  · rw [h0, UInt64.toNat_zero, List.take_zero]
    exact h.set_zero_gives i _
  refine h.set_gives h0 (fun he => by cases he) fun w' p ha => ?_
  rw [Source.bytes, ← h.load_range j hin]
  by_cases hji : j = i
  · subst hji
    have hle : sz ≤ (w.bufs j).size := UInt64.le_iff_toNat_le.mpr (by omega)
    rw [allocate_less w j h0 hle] at ha
    cases ha
    refine ⟨fun hover => ?_, rfl⟩
    have := (hself rfl).resolve_left h0
    have := hover.2.1
    omega
  · obtain ⟨w'', p', rest, ha', hs, ho, -⟩ := h.allocate_gives junk i sz
    rw [ha, Option.some.injEq, Prod.mk.injEq] at ha'
    cases ha'.1
    refine ⟨fun hover => ?_, ?_⟩
    · have hdata := hover.1
      rw [← (ho j hji).1] at hdata
      exact hs.ledger.ptr_ne hji hdata
    · rw [Store.load, Store.load, (ho j hji).2]

/-- A part of the buffer itself that is written over. -/
theorem setFrom_overlaps {off sz : UInt64} (h0 : sz ≠ 0)
    (hin : off.toNat + sz.toNat ≤ (w.bufs i).size.toNat) (hlt : off.toNat < sz.toNat) :
    set SZ junk w i (.at (w.bufs i).data off.toNat) sz = none := by
  have hle : sz ≤ (w.bufs i).size := UInt64.le_iff_toNat_le.mpr (by omega)
  rw [set_eq h0 (fun he => by cases he), allocate_less w i h0 hle, Option.bind_some, copy, if_pos]
  · rfl
  · rw [World.put_self]
    exact ⟨rfl, by omega, by omega⟩

theorem append_zero (src : Source ι) : append SZ junk w i src 0 = some (w, true) := by
  unfold append
  exact if_pos rfl

theorem append_eq {src : Source ι} {sz : UInt64} (h0 : sz ≠ 0) (hsrc : src ≠ .range none) :
    append SZ junk w i src sz = (allocate SZ junk w i ((w.bufs i).size + sz)).bind fun a =>
      (copy a.1.mem (a.1.bufs i).data ((a.1.bufs i).size - sz).toNat src sz.toNat).map fun mem =>
        ({ a.1 with mem := mem }, true) := by
  unfold append
  rw [if_neg h0]
  cases src with
  | range dta =>
    cases dta with
    | none => exact absurd rfl hsrc
    | some bs => rfl
  | «at» p off => rfl

/-- What is appended goes behind the bytes, when it can still be copied after `allocate`. -/
theorem append_gives (h : Sound SZ w) {src : Source ι} {sz : UInt64} {bs : List UInt8} (h0 : sz ≠ 0)
    (hsrc : src ≠ .range none) (hfit : (w.bufs i).size.toNat + sz.toNat < 2 ^ 64)
    (hcopy : ∀ w' p, allocate SZ junk w i ((w.bufs i).size + sz) = some (w', p) →
      ¬ src.Overlaps (w'.bufs i).data (w.bufs i).size.toNat sz.toNat ∧
        src.bytes w'.mem sz.toNat = some bs) :
    Gives SZ w i ((append SZ junk w i src sz).map Prod.fst) (view w i ++ bs) := by
  obtain ⟨w', p, rest, ha, hs, ho, hv, hsize, -⟩ := h.allocate_gives junk i ((w.bufs i).size + sz)
  have hsum : ((w.bufs i).size + sz).toNat = (w.bufs i).size.toNat + sz.toNat := by
    rw [UInt64.toNat_add]
    exact Nat.mod_eq_of_lt hfit
  have hoff : (w'.bufs i).size - sz = (w.bufs i).size := by
    rw [hsize]
    exact UInt64.add_sub_cancel _ _
  obtain ⟨hover, hb⟩ := hcopy w' p ha
  have hlen := Source.length_bytes hb
  have htake : (view w i).take ((w.bufs i).size + sz).toNat = view w i := by
    refine List.take_of_length_le ?_
    rw [h.length_view, hsum]
    exact Nat.le_add_right _ _
  rw [htake] at hv
  have hrest : bs.length = rest.length := by
    have hlength := congrArg List.length hv
    rw [hs.length_view, hsize, hsum, List.length_append, h.length_view] at hlength
    omega
  obtain ⟨mem, hstore, hs', ho', hv'⟩ := hs.store_view i (w.bufs i).size.toNat bs
    (by rw [hlen, hsize, hsum])
  rw [append_eq h0 hsrc, ha, Option.bind_some, hoff, copy, if_neg hover, hb, Option.bind_some, hstore]
  refine ⟨_, rfl, hs', ho.trans ho', hv'.trans ?_⟩
  rw [hv, ← h.length_view, patch_append hrest]

/-- More than 64 bits: what is appended would go where nothing is. -/
theorem append_wraps (h : Sound SZ w) {src : Source ι} {sz : UInt64} (hsrc : src ≠ .range none)
    (hwrap : 2 ^ 64 ≤ (w.bufs i).size.toNat + sz.toNat) : append SZ junk w i src sz = none := by
  have h0 : sz ≠ 0 := by
    rintro rfl
    exact absurd (UInt64.toNat_lt (w.bufs i).size) (Nat.not_lt_of_le hwrap)
  obtain ⟨w', p, rest, ha, hs, -, -, hsize, -⟩ := h.allocate_gives junk i ((w.bufs i).size + sz)
  have hoff : (w'.bufs i).size - sz = (w.bufs i).size := by
    rw [hsize]
    exact UInt64.add_sub_cancel _ _
  rw [append_eq h0 hsrc, ha, Option.bind_some, copy]
  split
  · rfl
  cases hb : src.bytes w'.mem sz.toNat with
  | none => rfl
  | some bs =>
    have hnone := hs.store_none (w'.bufs i).data (w.bufs i).size.toNat bs
      (by rwa [Source.length_bytes hb])
    rw [Option.bind_some, hoff, hnone]
    rfl

/-- On the heap, `allocate` goes to another block when there is to be more. -/
theorem allocate_moves (h : Sound SZ w) {id : Nat} (hi : (w.bufs i).data = .block id) {sz : UInt64}
    (hsz : (w.bufs i).size < sz) {p : Ptr ι} {w' : World ι} (ha : allocate SZ junk w i sz = some (w', p)) :
    (w'.bufs i).data = .block w.mem.next := by
  have h0 : sz ≠ 0 := by
    rintro rfl
    exact UInt64.not_lt_zero hsz
  obtain ⟨mem, hmem, -⟩ := h.move_gives junk hsz (Nat.le_refl _)
  rw [allocate, if_neg h0, if_neg (UInt64.not_le.mpr hsz), if_neg (fun hh => by rw [hi] at hh; cases hh.2)]
    at ha
  simp only [hmem, Option.map_some, Option.some.injEq, Prod.mk.injEq] at ha
  rw [← ha.1]
  simp only [Function.update_self]

/-- And then what the buffer had there cannot be read any more. -/
theorem append_lost (h : Sound SZ w) {id : Nat} (hi : (w.bufs i).data = .block id) {sz : UInt64}
    (h0 : sz ≠ 0) (hfit : (w.bufs i).size.toNat + sz.toNat < 2 ^ 64) (off : Nat) :
    append SZ junk w i (.at (.block id) off) sz = none := by
  have hpos : sz.toNat ≠ 0 := fun hz => h0 (UInt64.toNat_inj.mp hz)
  have hlt : (w.bufs i).size < (w.bufs i).size + sz := by
    rw [UInt64.lt_iff_toNat_lt, UInt64.toNat_add, Nat.mod_eq_of_lt hfit]
    omega
  obtain ⟨w', p, rest, ha, hs, ho, -⟩ := h.allocate_gives junk i ((w.bufs i).size + sz)
  have hdata := h.allocate_moves hi hlt ha
  have hgone : w'.mem.contents (.block id) = none := by
    rw [← Option.not_isSome_iff_eq_none]
    intro hlive
    obtain ⟨k, hk⟩ := (hs.ledger.live id).mp hlive
    by_cases hki : k = i
    · rw [hki, hdata] at hk
      exact h.ledger.ne_next i (hi.trans hk.symm)
    · rw [(ho k hki).1] at hk
      exact hki (h.ledger.apart k i id hk hi)
  rw [append_eq h0 (fun he => by cases he), ha, Option.bind_some, copy, Source.bytes, Store.load, hgone]
  split <;> rfl

/-- In its own area a buffer still has what it had when there is to be more. -/
theorem allocate_keeps {k : ι} (hi : (w.bufs i).data = .area i) {sz : UInt64} {p : Ptr ι}
    {w' : World ι} (ha : allocate SZ junk w i sz = some (w', p)) :
    w'.mem.contents (.area k) = w.mem.contents (.area k) := by
  have hin : ¬ (w.bufs i).data ≠ .area i := not_not.mpr hi
  rw [allocate] at ha
  simp only at ha
  split at ha
  · rw [reset, if_neg hin, Option.map_some] at ha
    cases ha
    rfl
  split at ha
  · cases ha
    rfl
  split at ha
  · cases ha
    rfl
  obtain ⟨mem, hmem, hw⟩ := Option.map_eq_some_iff.mp ha
  cases hw
  split at hmem
  · obtain ⟨dta, -, hmem⟩ := Option.bind_eq_some_iff.mp hmem
    obtain ⟨mem', hstore, hmem⟩ := Option.bind_eq_some_iff.mp hmem
    cases hmem
    obtain ⟨xs, -, hstore⟩ := Option.bind_eq_some_iff.mp hstore
    split at hstore
    · cases hstore
      rfl
    · cases hstore
  · cases hmem
    rfl

/-- **A part of a buffer** is appended: but for more than 64 bits, and to itself on the heap. -/
theorem appendFrom_gives (h : Sound SZ w) {off : Nat} {sz : UInt64}
    (hin : off + sz.toNat ≤ (w.bufs j).size.toNat)
    (hfit : sz ≠ 0 → (w.bufs i).size.toNat + sz.toNat < 2 ^ 64 ∧ ¬ (j = i ∧ (w.bufs i).data ≠ .area i)) :
    Gives SZ w i ((append SZ junk w i (.at (w.bufs j).data off) sz).map Prod.fst)
      (view w i ++ ((view w j).drop off).take sz.toNat) := by
  by_cases h0 : sz = 0
  · rw [h0, append_zero, UInt64.toNat_zero, List.take_zero, List.append_nil]
    exact ⟨w, rfl, h, Others.refl i w, rfl⟩
  obtain ⟨hsum, hself⟩ := hfit h0
  refine h.append_gives h0 (fun he => by cases he) hsum fun w' p ha => ?_
  rw [Source.bytes, ← h.load_range j hin]
  by_cases hji : j = i
  · have hi : (w.bufs i).data = .area i := not_not.mp fun hne => hself ⟨hji, hne⟩
    subst hji
    refine ⟨fun hover => ?_, by rw [Store.load, Store.load, hi, allocate_keeps hi ha]⟩
    -- the bytes end where those that are written begin
    have := hover.2.2
    omega
  · obtain ⟨w'', p', rest, ha', hs, ho, -⟩ := h.allocate_gives junk i ((w.bufs i).size + sz)
    rw [ha, Option.some.injEq, Prod.mk.injEq] at ha'
    cases ha'.1
    refine ⟨fun hover => ?_, by rw [Store.load, Store.load, (ho j hji).2]⟩
    have hdata := hover.1
    rw [← (ho j hji).1] at hdata
    exact hs.ledger.ptr_ne hji hdata

/-- **`append(other)`**. -/
theorem appendBuf_gives (h : Sound SZ w) (hfit : (w.bufs i).size.toNat + (w.bufs j).size.toNat < 2 ^ 64)
    (hself : ¬ (j = i ∧ (w.bufs i).data ≠ .area i)) :
    Gives SZ w i ((appendBuf SZ junk w i j).map Prod.fst) (view w i ++ view w j) := by
  have hall : ((view w j).drop 0).take (w.bufs j).size.toNat = view w j :=
    List.take_of_length_le (Nat.le_of_eq (h.length_view j))
  have hgives := @appendFrom_gives ι _ SZ junk w i j h 0 (w.bufs j).size (Nat.le_of_eq (Nat.zero_add _))
    fun _ => ⟨hfit, hself⟩
  rwa [hall] at hgives

/-- **`set_at`**. -/
theorem setAt_gives (h : Sound SZ w) (junk : Nat → Nat → UInt8) (i : ι) {pos : UInt64} (c : UInt8)
    (hfit : pos.toNat + 1 < 2 ^ 64) :
    ∃ rest, Gives SZ w i (setAt SZ junk w i pos c) ((view w i ++ rest).set pos.toNat c) ∧
      (view w i ++ rest).length = max (w.bufs i).size.toNat (pos.toNat + 1) := by
  by_cases hpos : pos ≥ (w.bufs i).size
  · obtain ⟨w', p, rest, ha, hs, ho, hv, hsize, hp⟩ := h.allocate_gives junk i (pos + 1)
    have hle : (w.bufs i).size.toNat ≤ pos.toNat := UInt64.le_iff_toNat_le.mp hpos
    have hsum : (pos + 1).toNat = pos.toNat + 1 := by
      rw [UInt64.toNat_add]
      exact Nat.mod_eq_of_lt hfit
    have hne : pos + 1 ≠ 0 := by
      intro hz
      rw [hz] at hsum
      cases hsum
    have htake : (view w i).take (pos + 1).toNat = view w i := by
      refine List.take_of_length_le ?_
      rw [h.length_view, hsum]
      omega
    rw [htake] at hv
    have hlen : (view w i ++ rest).length = pos.toNat + 1 := by
      rw [← hv, hs.length_view, hsize, hsum]
    obtain ⟨mem, hstore, hs', ho', hv'⟩ := hs.store_view i pos.toNat [c]
      (by rw [hsize, hsum]; exact Nat.le_refl _)
    refine ⟨rest, ?_, hlen.trans (by omega)⟩
    rw [setAt, if_pos hpos, ha, Option.bind_some, hp hne, hstore]
    refine ⟨_, rfl, hs', ho.trans ho', hv'.trans ?_⟩
    rw [hv, patch_singleton (by omega)]
  · have hlt : pos.toNat < (w.bufs i).size.toNat := by
      rw [← UInt64.lt_iff_toNat_lt]
      exact UInt64.not_le.mp hpos
    obtain ⟨mem, hstore, hs', ho', hv'⟩ := h.store_view i pos.toNat [c] hlt
    refine ⟨[], ?_, ?_⟩
    · rw [setAt, if_neg hpos, Option.bind_some, hstore, List.append_nil]
      refine ⟨_, rfl, hs', ho', hv'.trans (patch_singleton ?_)⟩
      rwa [h.length_view]
    · rw [List.append_nil, h.length_view]
      omega

/-- At the last place that 64 bits can tell there is no room. -/
theorem setAt_wraps (h : Sound SZ w) {pos : UInt64} {c : UInt8} (hwrap : 2 ^ 64 ≤ pos.toNat + 1) :
    setAt SZ junk w i pos c = none := by
  rw [setAt]
  split
  · obtain ⟨w', p, -, ha, hs, -⟩ := h.allocate_gives junk i (pos + 1)
    rw [ha, Option.bind_some, hs.store_none p _ _ hwrap]
    rfl
  · rw [Option.bind_some, h.store_none _ _ _ hwrap]
    rfl

/-- **`operator=`**. -/
theorem assign_gives (h : Sound SZ w) (i j : ι) : Gives SZ w i (assign SZ junk w i j) (view w j) := by
  rw [assign]
  by_cases hsame : j = i ∨ (w.bufs j).data = (w.bufs i).data
  · have hji : j = i := by
      rcases hsame with hji | hdata
      · exact hji
      · by_contra hne
        exact h.ledger.ptr_ne hne hdata
    rw [if_pos hsame, hji]
    exact ⟨w, rfl, h, Others.refl i w, rfl⟩
  have hji : j ≠ i := fun he => hsame (Or.inl he)
  rw [if_neg hsame]
  by_cases h0 : (w.bufs j).size = 0
  · have hnil : view w j = [] := by
      rw [← List.length_eq_zero_iff, h.length_view, h0]
      rfl
    rw [if_pos h0, hnil]
    exact h.reset_gives i
  · obtain ⟨w', p, ha, hs, ho, hsize, hp, -⟩ := h.allocateNocopy_gives junk i (w.bufs j).size
    have hlen : (view w j).length = (w'.bufs i).size.toNat := by rw [h.length_view, hsize]
    obtain ⟨mem, hstore, hs', ho', hv'⟩ := hs.store_view i 0 (view w j)
      (by rw [hlen, Nat.zero_add])
    rw [if_neg h0, ha, Option.bind_some, hs.load_view j, ho.view_eq hji, Option.bind_some, hp, hstore]
    refine ⟨_, rfl, hs', ho.trans ho', hv'.trans (patch_all ?_)⟩
    rw [hlen, hs.length_view]

end Sound

end Functions

/-! ## Runs -/

section Runs

variable {ι : Type u} [DecidableEq ι]

/-- The buffer that a call is on. -/
def Op.buf : Op ι → ι
  | .set i _ | .setFrom i _ _ _ | .append i _ | .appendFrom i _ _ _ | .appendBuf i _ | .appendChar i _ | .setAt i _ _ | .allocate i _
  | .allocateNocopy i _ | .assign i _ | .reset i => i

/-- The size that is asked for fits in 64 bits; a part of a buffer is inside of it; what is appended
    is nothing of the buffer itself when that is on the heap; and what is set to a part of the buffer
    itself is no more than what is before that. -/
def Fits (w : World ι) : Op ι → Prop
  | .setFrom i j off sz => off.toNat + sz.toNat ≤ (w.bufs j).size.toNat ∧
      (j = i → sz = 0 ∨ sz.toNat ≤ off.toNat)
  | .append i r => r.dta ≠ none → (w.bufs i).size.toNat + r.sz.toNat < 2 ^ 64
  | .appendFrom i j off sz => off.toNat + sz.toNat ≤ (w.bufs j).size.toNat ∧
      (sz ≠ 0 → (w.bufs i).size.toNat + sz.toNat < 2 ^ 64 ∧ ¬ (j = i ∧ (w.bufs i).data ≠ .area i))
  | .appendBuf i j => (w.bufs i).size.toNat + (w.bufs j).size.toNat < 2 ^ 64 ∧
      ¬ (j = i ∧ (w.bufs i).data ≠ .area i)
  | .appendChar i _ => (w.bufs i).size.toNat + 1 < 2 ^ 64
  | .setAt _ pos _ => pos.toNat + 1 < 2 ^ 64
  | _ => True

/-- The buffers, unless something that a call did had no meaning, and the arrays that they are to
    be. -/
abbrev State (ι : Type u) := Option (World ι) × (ι → Bytes)

/-- Every call so far had a meaning, blocks are as they should be, and the bytes are those of the
    arrays. -/
def Right (SZ : UInt64) (s : State ι) : Prop :=
  ∃ w, s.1 = some w ∧ Sound SZ w ∧ ∀ i, Says (s.2 i) (view w i)

def step (SZ : UInt64) (junk : Nat → Nat → UInt8) (s : State ι) (op : Op ι) : State ι :=
  (s.1.bind fun w => exec SZ junk w op, plain s.2 op)

/-- New buffers, with whatever is in their areas. -/
def start (SZ : UInt64) (areas : ι → { bs : List UInt8 // bs.length = SZ.toNat }) : State ι :=
  (some ⟨⟨fun i => areas i, fun _ => none, 0, []⟩, fun i => ⟨.area i, 0⟩⟩, fun _ => [])

/-- The calls, each with the state that it leads to. -/
def trace (SZ : UInt64) (junk : Nat → Nat → UInt8) : State ι → List (Op ι) → List (Op ι × State ι)
  | _, [] => []
  | s, op :: ops => (op, step SZ junk s op) :: trace SZ junk (step SZ junk s op) ops

variable {SZ : UInt64} {junk : Nat → Nat → UInt8} {w : World ι} {σ : ι → Bytes}

theorem plain_of_ne {op : Op ι} {k : ι} (hk : k ≠ op.buf) : plain σ op k = σ k := by
  cases op <;> exact Function.update_of_ne hk _ _

/-- **One call that fits** does what it does to the array. -/
theorem exec_fits (h : Sound SZ w) (junk : Nat → Nat → UInt8) (hsay : ∀ i, Says (σ i) (view w i))
    {op : Op ι} (hfit : Fits w op) :
    ∃ bs, Gives SZ w op.buf (exec SZ junk w op) bs ∧ Says (plain σ op op.buf) bs := by
  cases op with
  | set i r =>
    refine ⟨_, h.setRange_gives i r, ?_⟩
    rw [plain, Op.buf, Function.update_self]
    split
    · exact .nil
    · split
      · exact hsay i
      · exact says_map _
  | setFrom i j off sz =>
    rw [plain, Op.buf, Function.update_self, exec, if_pos hfit.1]
    exact ⟨_, h.setFrom_gives hfit.1 hfit.2, ((hsay j).drop _).take _⟩
  | append i r =>
    obtain ⟨dta, sz, henough⟩ := r
    rw [plain, Op.buf, Function.update_self, exec]
    cases dta with
    | none =>
      refine ⟨view w i, ⟨w, ?_, h, Others.refl i w, rfl⟩, hsay i⟩
      unfold append
      split <;> rfl
    | some bs =>
      refine ⟨view w i ++ bs.take sz.toNat, ?_, (hsay i).append (says_map _)⟩
      by_cases h0 : sz = 0
      · subst h0
        rw [Sound.append_zero, UInt64.toNat_zero, List.take_zero, List.append_nil]
        exact ⟨w, rfl, h, Others.refl i w, rfl⟩
      · exact h.append_gives h0 (fun he => by cases he) (hfit fun he => by cases he)
          fun w' p _ => ⟨id, if_pos (henough bs rfl)⟩
  | appendFrom i j off sz =>
    rw [plain, Op.buf, Function.update_self, exec, if_pos hfit.1]
    exact ⟨_, h.appendFrom_gives hfit.1 hfit.2, (hsay i).append (((hsay j).drop _).take _)⟩
  | appendBuf i j =>
    rw [plain, Op.buf, Function.update_self]
    exact ⟨_, h.appendBuf_gives hfit.1 hfit.2, (hsay i).append (hsay j)⟩
  | appendChar i c =>
    obtain ⟨rest, hgives, hlen⟩ := h.setAt_gives junk i c hfit
    have hlength := (hsay i).length_eq
    rw [← h.length_view, ← hlength] at hgives hlen
    refine ⟨_, hgives, ?_⟩
    rw [plain, Op.buf, Function.update_self, ← set_length]
    refine (hsay i).setAt c ?_
    rw [hlen, hlength]
  | setAt i pos c =>
    obtain ⟨rest, hgives, hlen⟩ := h.setAt_gives junk i c hfit
    rw [← h.length_view] at hlen
    rw [plain, Op.buf, Function.update_self]
    exact ⟨_, hgives, (hsay i).setAt c hlen⟩
  | allocate i sz =>
    obtain ⟨w', p, rest, ha, hs, ho, hv, hsize, -⟩ := h.allocate_gives junk i sz
    refine ⟨_, ⟨w', by rw [exec, ha]; rfl, hs, ho, hv⟩, ?_⟩
    rw [plain, Op.buf, Function.update_self]
    refine (hsay i).resize ?_
    rw [← hv, hs.length_view, hsize]
  | allocateNocopy i sz =>
    obtain ⟨w', p, ha, hs, ho, hsize, -, hkeep⟩ := h.allocateNocopy_gives junk i sz
    refine ⟨view w' i, ⟨w', by rw [exec, ha]; rfl, hs, ho, rfl⟩, ?_⟩
    rw [plain, Op.buf, Function.update_self]
    refine (hsay i).resizeNocopy ?_ fun hle => hkeep ?_
    · rw [hs.length_view, hsize]
    · rwa [UInt64.le_iff_toNat_le, ← h.length_view]
  | assign i j =>
    rw [plain, Op.buf, Function.update_self]
    exact ⟨_, h.assign_gives i j, hsay j⟩
  | reset i =>
    rw [plain, Op.buf, Function.update_self]
    exact ⟨_, h.reset_gives i, .nil⟩

/-- Nothing of a buffer that is on the heap is appended to itself, nor more than 64 bits can tell. -/
theorem append_none (h : Sound SZ w) {i j : ι} {sz : UInt64} (h0 : sz ≠ 0) (off : Nat)
    (hnot : ¬ ((w.bufs i).size.toNat + sz.toNat < 2 ^ 64 ∧ ¬ (j = i ∧ (w.bufs i).data ≠ .area i))) :
    append SZ junk w i (.at (w.bufs j).data off) sz = none := by
  by_cases hfit : (w.bufs i).size.toNat + sz.toNat < 2 ^ 64
  · obtain ⟨rfl, hheap⟩ := not_not.mp fun hh => hnot ⟨hfit, hh⟩
    cases hp : (w.bufs j).data with
    | area k =>
      cases h.ledger.own j k hp
      exact absurd hp hheap
    | block id => exact h.append_lost hp h0 hfit off
  · exact h.append_wraps (fun he => by cases he) (Nat.le_of_not_lt hfit)

/-- And one that does not has no meaning. -/
theorem exec_none (h : Sound SZ w) {op : Op ι} (hnot : ¬ Fits w op) : exec SZ junk w op = none := by
  cases op with
  | setFrom i j off sz =>
    rw [exec]
    split
    · rename_i hin
      obtain ⟨rfl, hself⟩ := Classical.not_imp.mp fun hh => hnot ⟨hin, hh⟩
      rw [not_or] at hself
      rw [Sound.setFrom_overlaps hself.1 hin (Nat.lt_of_not_le hself.2)]
      rfl
    · rfl
  | append i r =>
    rw [Fits, Classical.not_imp] at hnot
    have hsrc : Source.range r.dta ≠ (.range none : Source ι) := fun he => hnot.1 (Source.range.inj he)
    rw [exec, h.append_wraps hsrc (Nat.le_of_not_lt hnot.2)]
    rfl
  | appendFrom i j off sz =>
    rw [exec]
    split
    · rename_i hin
      obtain ⟨h0, hself⟩ := Classical.not_imp.mp fun hh => hnot ⟨hin, hh⟩
      rw [append_none h h0 _ hself]
      rfl
    · rfl
  | appendBuf i j =>
    rw [exec, appendBuf, append_none h ?_ _ hnot]
    · rfl
    · -- of nothing there is not too much, and a buffer of nothing is not on the heap
      intro h0
      refine hnot ⟨?_, ?_⟩
      · rw [h0]
        exact UInt64.toNat_lt _
      · rintro ⟨rfl, hheap⟩
        cases hp : (w.bufs j).data with
        | area k =>
          cases h.ledger.own j k hp
          exact hheap hp
        | block id => exact h.used j id hp h0
  | appendChar i c => exact h.setAt_wraps (Nat.le_of_not_lt hnot)
  | setAt i pos c => exact h.setAt_wraps (Nat.le_of_not_lt hnot)
  | set | allocate | allocateNocopy | assign | reset => exact absurd trivial hnot

/-- **One call**: right before it, right after it exactly when it fits. -/
theorem step_right_iff {s : State ι} (h : Right SZ s) (op : Op ι) :
    Right SZ (step SZ junk s op) ↔ ∀ w, s.1 = some w → Fits w op := by
  obtain ⟨w, hw, hs, hsay⟩ := h
  rw [hw, Right, step, hw, Option.bind_some]
  constructor
  · rintro ⟨w', hw', -⟩ v hv
    cases hv
    by_contra hnot
    rw [exec_none hs hnot] at hw'
    cases hw'
  · intro hfit
    obtain ⟨bs, ⟨w', hr, hs', ho, hv⟩, hbs⟩ := exec_fits hs junk hsay (hfit w rfl)
    refine ⟨w', hr, hs', fun k => ?_⟩
    simp only
    by_cases hk : k = op.buf
    · rw [hk, hv]
      exact hbs
    · rw [plain_of_ne hk, ho.view_eq hk]
      exact hsay k

theorem run_trace (s : State ι) (ops : List (Op ι)) :
    Run (fun s op s' => s' = step SZ junk s op) s (trace SZ junk s ops) := by
  induction ops generalizing s with
  | nil => exact .nil s
  | cons op ops ih => exact .cons rfl (ih _)

omit [DecidableEq ι] in
theorem start_right (areas : ι → { bs : List UInt8 // bs.length = SZ.toNat }) : Right SZ (start SZ areas) := by
  have hbounded : ∀ i, (areas i).1.length < 2 ^ 64 := by
    intro i
    rw [(areas i).2]
    exact SZ.toNat_lt
  exact ⟨_, rfl, ⟨ledger_init _, fun i => (areas i).2, fun i id hi => (nomatch hi), fun _ => Nat.zero_le _,
    hbounded⟩, fun _ => .nil⟩

/-- From a state that is right, a run stays right as long as its calls fit. -/
theorem trace_right_iff {s : State ι} (h : Right SZ s) (ops : List (Op ι)) :
    Always (fun _ _ s' => Right SZ s') s (trace SZ junk s ops) ↔
      Always (fun s op _ => ∀ w, s.1 = some w → Fits w op) s (trace SZ junk s ops) := by
  refine Run.always_iff (I := Right SZ) ?_ ?_ (run_trace s ops) h
  · rintro s op s' hs rfl
    exact step_right_iff hs op
  · rintro s op s' - rfl hs'
    exact hs'

/-- **Whole runs**: every state of a run is right exactly when every call fits. -/
theorem runs_iff (SZ : UInt64) (junk : Nat → Nat → UInt8)
    (areas : ι → { bs : List UInt8 // bs.length = SZ.toNat }) (ops : List (Op ι)) :
    Always (fun _ _ s' => Right SZ s') (start SZ areas) (trace SZ junk (start SZ areas) ops) ↔
      Always (fun s op _ => ∀ w, s.1 = some w → Fits w op) (start SZ areas)
        (trace SZ junk (start SZ areas) ops) :=
  trace_right_iff (start_right areas) ops

/-- Five bytes where four are preallocated, appended to themselves. -/
theorem runs_fail : ¬ Always (fun _ _ s' => Right 4 s') (start 4 fun _ : Unit => ⟨[0, 0, 0, 0], rfl⟩)
    (trace 4 (fun _ _ => 0) (start 4 fun _ : Unit => ⟨[0, 0, 0, 0], rfl⟩)
      [.set () ⟨some [1, 2, 3, 4, 5], 5, by decide⟩, .appendBuf () ()]) := by
  rw [trace_right_iff (start_right _)]
  rintro ⟨-, hfits, -⟩
  exact (hfits _ rfl).2 ⟨rfl, by decide⟩

end Runs

end Tbufs

end CodeSLoop
