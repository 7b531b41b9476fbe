import CodeSLoop.Common.TbufRun
import CodeSLoop.Lib.Objects

/-!
# `preallocated_array` (`common/preallocated_array.hh`, `common/preallocated_array_impl.hh`)

A `tbuf` for elements of any type that may be copied as bytes. It has the members of a `tbuf`, but
`size_` counts elements where memory calls count bytes, so each function multiplies by
`item_size_`. Read in bytes (`Layout.inBytes`) the world of some arrays is one of `tbuf`s, and
`reset`, `allocate_nocopy` and the assignment are what they are there. `allocate` is not: the size
of what it copies to a new block is not multiplied (`allocate_moves`).
-/

namespace CodeSLoop

open Heap
open Tbufs (Head World Others)

universe u v

namespace PreallocatedArray

/-! ## The arrays -/

section Model

variable {ι : Type u} {T : Type v}

/-- The arguments of the template: what an element has in memory, `item_size_` and `SZ`. The member
    `preallocated_` is an object, so its size is one of `size_t`. -/
structure Layout (T : Type v) where
  rep : T → List UInt8
  itemSize : UInt64
  SZ : UInt64
  length_rep : ∀ t, (rep t).length = itemSize.toNat
  itemSize_pos : 0 < itemSize.toNat
  fits : SZ.toNat * itemSize.toNat < 2 ^ 64

/-- What a caller gives: a pointer, which may be null, and how many elements there are, in
    memory. -/
structure Range (L : Layout T) where
  dta : Option (List T)
  sz : UInt64
  enough : ∀ ts, dta = some ts → sz.toNat ≤ ts.length
  inMemory : ∀ ts, dta = some ts → ts.length * L.itemSize.toNat < 2 ^ 64

/-- The source side of `memcpy`. -/
def Range.bytes {L : Layout T} (r : Range L) (n : Nat) : Option (List UInt8) :=
  r.dta.bind fun ts => if n ≤ (ts.flatMap L.rep).length then some ((ts.flatMap L.rep).take n) else none

variable [DecidableEq ι]

/-- `reset`. -/
def reset (w : World ι) (i : ι) : Option (World ι) :=
  let b := w.bufs i
  if b.data ≠ .area i then
    (w.mem.free b.data).map fun mem => { mem := mem, bufs := Function.update w.bufs i ⟨.area i, 0⟩ }
  else some (w.put i { b with size := 0 })

variable (L : Layout T) (junk : Nat → Nat → UInt8)

/-- `allocate`, and the pointer that it returns. -/
def allocate (w : World ι) (i : ι) (sz : UInt64) : Option (World ι × Ptr ι) :=
  let b := w.bufs i
  if sz = 0 then (reset w i).map (·, b.data)
  else if sz ≤ b.size then some (w.put i { b with size := sz }, b.data)
  else if sz ≤ L.SZ ∧ b.data = .area i then some (w.put i { b with size := sz }, b.data)
  else
    let tmp := .block w.mem.next
    let mem := w.mem.malloc junk (L.itemSize * sz).toNat
    (if b.size > 0 then
        -- `size_` is the number of elements, and here it is that of the bytes
        (mem.load b.data 0 b.size.toNat).bind fun dta =>
          (mem.store tmp 0 dta).bind fun mem => if b.data ≠ .area i then mem.free b.data else some mem
      else some mem).map fun mem => (⟨mem, Function.update w.bufs i ⟨tmp, sz⟩⟩, tmp)

/-- `allocate_nocopy`. -/
def allocateNocopy (w : World ι) (i : ι) (sz : UInt64) : Option (World ι × Ptr ι) :=
  let b := w.bufs i
  if sz = 0 then (reset w i).map fun w => (w, (w.bufs i).data)
  else if sz ≤ b.size then some (w.put i { b with size := sz }, b.data)
  else if sz ≤ L.SZ then
    (if b.size > 0 ∧ b.data ≠ .area i then w.mem.free b.data else some w.mem).map fun mem =>
      (⟨mem, Function.update w.bufs i ⟨.area i, sz⟩⟩, .area i)
  else
    let tmp := .block w.mem.next
    let mem := w.mem.malloc junk (L.itemSize * sz).toNat
    (if b.size > 0 ∧ b.data ≠ .area i then mem.free b.data else some mem).map fun mem =>
      (⟨mem, Function.update w.bufs i ⟨tmp, sz⟩⟩, tmp)

/-- `set`. -/
def set (w : World ι) (i : ι) (r : Range L) : Option (World ι × Bool) :=
  if r.sz = 0 then (reset w i).map (·, true)
  else if r.dta.isNone then some (w, false)
  else
    (allocate L junk w i r.sz).bind fun a =>
      (r.bytes (L.itemSize * r.sz).toNat).bind fun bs =>
        (a.1.mem.store (a.1.bufs i).data 0 bs).map fun mem => ({ a.1 with mem := mem }, true)

/-- `operator=(const preallocated_array &)`. -/
def assign (w : World ι) (i j : ι) : Option (World ι) :=
  if j = i ∨ (w.bufs j).data = (w.bufs i).data then some w
  else if (w.bufs j).size = 0 then reset w i
  else
    (allocateNocopy L junk w i (w.bufs j).size).bind fun a =>
      (a.1.mem.load (a.1.bufs j).data 0 ((a.1.bufs j).size * L.itemSize).toNat).bind fun bs =>
        (a.1.mem.store a.2 0 bs).map fun mem => { a.1 with mem := mem }

/-- `operator==`, of the array `i` with the other one `j`. -/
def opEq (w : World ι) (i j : ι) : Option Bool :=
  if (w.bufs j).size ≠ (w.bufs i).size then some false
  else if (w.bufs i).size = 0 then some true
  else
    (w.mem.load (w.bufs j).data 0 ((w.bufs i).size * L.itemSize).toNat).bind fun xs =>
      (w.mem.load (w.bufs i).data 0 ((w.bufs i).size * L.itemSize).toNat).map fun ys => decide (xs = ys)

/-- `get`, with what is at the caller's pointer. -/
def get (w : World ι) (i : ι) (dta : Option (List UInt8)) : Option (Bool × Option (List UInt8)) :=
  match dta with
  | none => some (false, none)
  | some out =>
    if (w.bufs i).size = 0 then some (false, some out)
    else
      (w.mem.load (w.bufs i).data 0 ((w.bufs i).size * L.itemSize).toNat).bind fun bs =>
        if bs.length ≤ out.length then some (true, some (patch out 0 bs)) else none

inductive Op (ι : Type u) (L : Layout T)
  | set (i : ι) (r : Range L)
  | allocate (i : ι) (sz : UInt64)
  | allocateNocopy (i : ι) (sz : UInt64)
  | assign (i j : ι)
  | reset (i : ι)

/-- The arrays after a call, when all that it does has a meaning. -/
def exec (w : World ι) : Op ι L → Option (World ι)
  | .set i r => (set L junk w i r).map Prod.fst
  | .allocate i sz => (allocate L junk w i sz).map Prod.fst
  | .allocateNocopy i sz => (allocateNocopy L junk w i sz).map Prod.fst
  | .assign i j => assign L junk w i j
  | .reset i => reset w i

end Model

/-! ## In bytes -/

section InBytes

variable {ι : Type u} {T : Type v} {L : Layout T} {w w' : World ι} {i j : ι} {sz : UInt64} {mem : Store ι UInt8}

/-- The members, with the size in bytes. -/
def Layout.head (L : Layout T) (b : Head ι) : Head ι := ⟨b.data, b.size * L.itemSize⟩

/-- The arrays as `tbuf`s. -/
def Layout.inBytes (L : Layout T) (w : World ι) : World ι := ⟨w.mem, fun i => L.head (w.bufs i)⟩

theorem Layout.toNat_mul (L : Layout T) (h : sz.toNat * L.itemSize.toNat < 2 ^ 64) :
    (sz * L.itemSize).toNat = sz.toNat * L.itemSize.toNat := by
  rw [UInt64.toNat_mul]
  exact Nat.mod_eq_of_lt h

theorem Layout.mul_eq_zero_iff (L : Layout T) (h : sz.toNat * L.itemSize.toNat < 2 ^ 64) :
    sz * L.itemSize = 0 ↔ sz = 0 := by
  rw [← UInt64.toNat_inj, ← UInt64.toNat_inj, L.toNat_mul h, UInt64.toNat_zero]
  exact ⟨fun h0 => (Nat.mul_eq_zero.mp h0).resolve_right (Nat.ne_of_gt L.itemSize_pos),
    fun h0 => by rw [h0, Nat.zero_mul]⟩

theorem Layout.mul_le_iff (L : Layout T) {n : UInt64} (h : sz.toNat * L.itemSize.toNat < 2 ^ 64)
    (hn : n.toNat * L.itemSize.toNat < 2 ^ 64) : sz * L.itemSize ≤ n * L.itemSize ↔ sz ≤ n := by
  rw [UInt64.le_iff_toNat_le, UInt64.le_iff_toNat_le, L.toNat_mul h, L.toNat_mul hn]
  exact Nat.mul_le_mul_right_iff L.itemSize_pos

theorem Layout.pos_iff (L : Layout T) (h : sz.toNat * L.itemSize.toNat < 2 ^ 64) :
    sz * L.itemSize > 0 ↔ sz > 0 := by
  rw [gt_iff_lt, gt_iff_lt, UInt64.pos_iff_ne_zero, UInt64.pos_iff_ne_zero, ne_eq, L.mul_eq_zero_iff h]

theorem Layout.inBytes_update [DecidableEq ι] (L : Layout T) (bufs : ι → Head ι) (i : ι) (b : Head ι) :
    L.inBytes ⟨mem, Function.update bufs i b⟩ =
      ⟨mem, Function.update (fun j => L.head (bufs j)) i (L.head b)⟩ :=
  congrArg (World.mk mem) (Function.comp_update L.head bufs i b)

/-- The bytes of the elements. -/
def view (L : Layout T) (w : World ι) (i : ι) : List UInt8 := Tbufs.view (L.inBytes w) i

/-- Every block belongs to one array, and a data pointer points to storage of `size()` elements at
    least. -/
structure Sound (L : Layout T) (w : World ι) : Prop where
  ledger : Ledger w.mem fun i => (w.bufs i).data
  areas : ∀ i, (w.mem.areas i).length = L.SZ.toNat * L.itemSize.toNat
  used : ∀ i id, (w.bufs i).data = .block id → (w.bufs i).size ≠ 0
  room : ∀ i, (w.bufs i).size.toNat * L.itemSize.toNat ≤ (Tbufs.cells w i).length
  bounded : ∀ i, (Tbufs.cells w i).length < 2 ^ 64

theorem view_of_others (ho : Others i w w') (hj : j ≠ i) : view L w' j = view L w j := by
  have hbytes : Others i (L.inBytes w) (L.inBytes w') :=
    fun k hk => ⟨congrArg L.head (ho k hk).1, (ho k hk).2⟩
  exact hbytes.view_eq hj

namespace Sound

theorem size_lt (h : Sound L w) (i : ι) : (w.bufs i).size.toNat * L.itemSize.toNat < 2 ^ 64 :=
  Nat.lt_of_le_of_lt (h.room i) (h.bounded i)

theorem inBytes (h : Sound L w) : Tbufs.Sound (L.SZ * L.itemSize) (L.inBytes w) where
  ledger := h.ledger
  areas i := (h.areas i).trans (L.toNat_mul L.fits).symm
  used i id hi h0 := h.used i id hi ((L.mul_eq_zero_iff (h.size_lt i)).mp h0)
  room i := Nat.le_trans (Nat.le_of_eq (L.toNat_mul (h.size_lt i))) (h.room i)
  bounded := h.bounded

theorem of_inBytes (hs : Tbufs.Sound (L.SZ * L.itemSize) (L.inBytes w))
    (hsize : ∀ i, (w.bufs i).size.toNat * L.itemSize.toNat < 2 ^ 64) : Sound L w where
  ledger := hs.ledger
  areas i := (hs.areas i).trans (L.toNat_mul L.fits)
  used i id hi h0 := hs.used i id hi ((L.mul_eq_zero_iff (hsize i)).mpr h0)
  room i := Nat.le_trans (Nat.le_of_eq (L.toNat_mul (hsize i)).symm) (hs.room i)
  bounded := hs.bounded

theorem length_view (h : Sound L w) (i : ι) :
    (view L w i).length = (w.bufs i).size.toNat * L.itemSize.toNat :=
  (h.inBytes.length_view i).trans (L.toNat_mul (h.size_lt i))

theorem load_view (h : Sound L w) (i : ι) :
    w.mem.load (w.bufs i).data 0 ((w.bufs i).size * L.itemSize).toNat = some (view L w i) :=
  h.inBytes.load_view i

/-- It is enough that one array is right in bytes, when its size is one that bytes can be counted
    in. -/
theorem lift [DecidableEq ι] (h : Sound L w) {b : Head ι} (hb : w'.bufs = Function.update w.bufs i b)
    (hsize : b.size.toNat * L.itemSize.toNat < 2 ^ 64)
    (hs : Tbufs.Sound (L.SZ * L.itemSize) (L.inBytes w')) (ho : Others i (L.inBytes w) (L.inBytes w')) :
    Sound L w' ∧ Others i w w' := by
  refine ⟨of_inBytes hs fun j => ?_, fun j hj => ⟨?_, (ho j hj).2⟩⟩
  · by_cases hj : j = i
    · rw [hb, hj, Function.update_self]
      exact hsize
    · rw [hb, Function.update_of_ne hj]
      exact h.size_lt j
  · rw [hb, Function.update_of_ne hj]

end Sound

end InBytes

/-! ## What each function does to the members -/

section Heads

variable {ι : Type u} [DecidableEq ι] {T : Type v} {L : Layout T} {junk : Nat → Nat → UInt8}
variable {w w' : World ι} {i j : ι} {sz : UInt64} {p : Ptr ι}

/-- More elements than there are, which do not fit where the array is: `allocate` takes another
    block. -/
def Moves (L : Layout T) (i : ι) (b : Head ι) (sz : UInt64) : Prop :=
  b.size < sz ∧ ¬ (sz ≤ L.SZ ∧ b.data = .area i)

/-- The members after `allocate`, and the number of the next block. -/
def allocateHead (L : Layout T) (i : ι) (b : Head ι) (next : Nat) (sz : UInt64) : Head ι × Nat :=
  if sz = 0 then (⟨.area i, 0⟩, next)
  else if sz ≤ b.size then (⟨b.data, sz⟩, next)
  else if sz ≤ L.SZ ∧ b.data = .area i then (⟨b.data, sz⟩, next)
  else (⟨.block next, sz⟩, next + 1)

/-- And after `allocate_nocopy`. -/
def allocateNocopyHead (L : Layout T) (i : ι) (b : Head ι) (next : Nat) (sz : UInt64) : Head ι × Nat :=
  if sz = 0 then (⟨.area i, 0⟩, next)
  else if sz ≤ b.size then (⟨b.data, sz⟩, next)
  else if sz ≤ L.SZ then (⟨.area i, sz⟩, next)
  else (⟨.block next, sz⟩, next + 1)

theorem size_allocateHead (i : ι) (b : Head ι) (next : Nat) (sz : UInt64) :
    (allocateHead L i b next sz).1.size = sz := by
  unfold allocateHead
  split_ifs with h0
  · exact h0.symm
  all_goals rfl

omit [DecidableEq ι] in
theorem size_allocateNocopyHead (i : ι) (b : Head ι) (next : Nat) (sz : UInt64) :
    (allocateNocopyHead L i b next sz).1.size = sz := by
  unfold allocateNocopyHead
  split_ifs with h0
  · exact h0.symm
  all_goals rfl

/-- The members of one array are `m.1`, and there are `m.2` blocks so far; the others are as
    before. -/
def Sets (i : ι) (w w' : World ι) (m : Head ι × Nat) : Prop :=
  w'.bufs = Function.update w.bufs i m.1 ∧ w'.mem.next = m.2

theorem reset_sets (h : reset w i = some w') : Sets i w w' (⟨.area i, 0⟩, w.mem.next) := by
  unfold reset at h
  simp only at h
  split at h
  · obtain ⟨mem, hfree, rfl⟩ := Option.map_eq_some_iff.mp h
    exact ⟨rfl, Store.next_free hfree⟩
  · rename_i hin
    cases h
    rw [not_not] at hin
    refine ⟨?_, rfl⟩
    rw [World.put, hin]

theorem allocate_sets (h : allocate L junk w i sz = some (w', p)) :
    Sets i w w' (allocateHead L i (w.bufs i) w.mem.next sz) := by
  unfold allocate at h
  unfold allocateHead
  simp only at h
  split_ifs at h ⊢ with h0 hle hin hpos hheap
  · obtain ⟨v, hv, he⟩ := Option.map_eq_some_iff.mp h
    cases he
    exact reset_sets hv
  · cases h
    exact ⟨rfl, rfl⟩
  · cases h
    exact ⟨rfl, rfl⟩
  · obtain ⟨mem, hmem, he⟩ := Option.map_eq_some_iff.mp h
    cases he
    obtain ⟨dta, -, hmem⟩ := Option.bind_eq_some_iff.mp hmem
    obtain ⟨mem', hstore, hfree⟩ := Option.bind_eq_some_iff.mp hmem
    exact ⟨rfl, (Store.next_free hfree).trans (Store.next_store hstore)⟩
  · obtain ⟨mem, hmem, he⟩ := Option.map_eq_some_iff.mp h
    cases he
    obtain ⟨dta, -, hmem⟩ := Option.bind_eq_some_iff.mp hmem
    obtain ⟨mem', hstore, he⟩ := Option.bind_eq_some_iff.mp hmem
    cases he
    exact ⟨rfl, Store.next_store hstore⟩
  · obtain ⟨mem, hmem, he⟩ := Option.map_eq_some_iff.mp h
    cases he
    cases hmem
    exact ⟨rfl, rfl⟩

theorem allocateNocopy_sets (h : allocateNocopy L junk w i sz = some (w', p)) :
    Sets i w w' (allocateNocopyHead L i (w.bufs i) w.mem.next sz) := by
  unfold allocateNocopy at h
  unfold allocateNocopyHead
  simp only at h
  split_ifs at h ⊢ with h0 hle hin hpos hpos
  · obtain ⟨v, hv, he⟩ := Option.map_eq_some_iff.mp h
    cases he
    exact reset_sets hv
  · cases h
    exact ⟨rfl, rfl⟩
  · obtain ⟨mem, hmem, he⟩ := Option.map_eq_some_iff.mp h
    cases he
    exact ⟨rfl, Store.next_free hmem⟩
  · cases h
    exact ⟨rfl, rfl⟩
  · obtain ⟨mem, hmem, he⟩ := Option.map_eq_some_iff.mp h
    cases he
    exact ⟨rfl, Store.next_free hmem⟩
  · cases h
    exact ⟨rfl, rfl⟩

/-- What is written where an array is leaves the members alone. -/
theorem Sets.store {m : Head ι × Nat} {mem : Store ι UInt8} {q : Ptr ι} {off : Nat} {bs : List UInt8}
    (h : Sets i w w' m) (hstore : w'.mem.store q off bs = some mem) : Sets i w { w' with mem := mem } m :=
  ⟨h.1, (Store.next_store hstore).trans h.2⟩

/-- The members after a call. -/
def opHead (L : Layout T) (bufs : ι → Head ι) (next : Nat) : Op ι L → Head ι × Nat
  | .set i r =>
    if r.sz = 0 then (⟨.area i, 0⟩, next)
    else if r.dta.isNone then (bufs i, next)
    else allocateHead L i (bufs i) next r.sz
  | .allocate i sz => allocateHead L i (bufs i) next sz
  | .allocateNocopy i sz => allocateNocopyHead L i (bufs i) next sz
  | .assign i j =>
    if j = i ∨ (bufs j).data = (bufs i).data then (bufs i, next)
    else if (bufs j).size = 0 then (⟨.area i, 0⟩, next)
    else allocateNocopyHead L i (bufs i) next (bufs j).size
  | .reset i => (⟨.area i, 0⟩, next)

/-- The array that a call is on. -/
def Op.buf : Op ι L → ι
  | .set i _ | .allocate i _ | .allocateNocopy i _ | .assign i _ | .reset i => i

/-- What the members are after a call does not depend on what is in memory. -/
theorem exec_sets {op : Op ι L} (h : exec L junk w op = some w') :
    Sets op.buf w w' (opHead L w.bufs w.mem.next op) := by
  cases op with
  | set i r =>
    obtain ⟨⟨v, ok⟩, hv, he⟩ := Option.map_eq_some_iff.mp h
    cases he
    unfold set at hv
    rw [opHead, Op.buf]
    split_ifs at hv ⊢ with h0 hnone
    · obtain ⟨u, hu, he⟩ := Option.map_eq_some_iff.mp hv
      cases he
      exact reset_sets hu
    · cases hv
      exact ⟨(Function.update_eq_self _ _).symm, rfl⟩
    · obtain ⟨⟨u, q⟩, ha, hv⟩ := Option.bind_eq_some_iff.mp hv
      obtain ⟨bs, -, hv⟩ := Option.bind_eq_some_iff.mp hv
      obtain ⟨mem, hstore, he⟩ := Option.map_eq_some_iff.mp hv
      cases he
      exact (allocate_sets ha).store hstore
  | allocate i sz =>
    obtain ⟨⟨v, q⟩, hv, he⟩ := Option.map_eq_some_iff.mp h
    cases he
    exact allocate_sets hv
  | allocateNocopy i sz =>
    obtain ⟨⟨v, q⟩, hv, he⟩ := Option.map_eq_some_iff.mp h
    cases he
    exact allocateNocopy_sets hv
  | assign i j =>
    rw [exec, assign] at h
    rw [opHead, Op.buf]
    split_ifs at h ⊢ with hsame h0
    · cases h
      exact ⟨(Function.update_eq_self _ _).symm, rfl⟩
    · exact reset_sets h
    · obtain ⟨⟨u, q⟩, ha, h⟩ := Option.bind_eq_some_iff.mp h
      obtain ⟨bs, -, h⟩ := Option.bind_eq_some_iff.mp h
      obtain ⟨mem, hstore, he⟩ := Option.map_eq_some_iff.mp h
      cases he
      exact (allocateNocopy_sets ha).store hstore
  | reset i => exact reset_sets h

end Heads

/-! ## What each function does to the bytes -/

section Functions

variable {ι : Type u} [DecidableEq ι] {T : Type v} {L : Layout T} {junk : Nat → Nat → UInt8}
variable {w w' : World ι} {i j : ι} {sz : UInt64} {p : Ptr ι}

omit [DecidableEq ι] in
theorem Layout.head_zero (L : Layout T) (p : Ptr ι) : L.head ⟨p, 0⟩ = ⟨p, 0⟩ := by
  rw [Layout.head, UInt64.zero_mul]

theorem Layout.inBytes_put (L : Layout T) (w : World ι) (i : ι) (b : Head ι) :
    L.inBytes (w.put i b) = (L.inBytes w).put i (L.head b) := L.inBytes_update w.bufs i b

/-- A result that is some memory, and other members for one array, with a pointer. -/
theorem Layout.map_inBytes (L : Layout T) (bufs : ι → Head ι) (i : ι) (b : Head ι) (q : Ptr ι)
    (mem : Option (Store ι UInt8)) :
    (mem.map fun mem => (⟨mem, Function.update bufs i b⟩, q)).map (Prod.map L.inBytes id) =
      mem.map fun mem => (⟨mem, Function.update (fun j => L.head (bufs j)) i (L.head b)⟩, q) := by
  rw [Option.map_map]
  exact congrArg (Option.map · mem) (funext fun mem => congrArg (·, q) (L.inBytes_update bufs i b))

/-- In bytes, `reset` is that of a `tbuf`. -/
theorem inBytes_reset (L : Layout T) (w : World ι) (i : ι) :
    (reset w i).map L.inBytes = Tbufs.reset (L.inBytes w) i := by
  unfold reset Tbufs.reset
  by_cases hin : (w.bufs i).data = .area i
  · have hin' : ((L.inBytes w).bufs i).data = .area i := hin
    rw [if_neg (not_not.mpr hin), if_neg (not_not.mpr hin'), Option.map_some, L.inBytes_put, L.head_zero]
    rfl
  · have hin' : ((L.inBytes w).bufs i).data ≠ .area i := hin
    rw [if_pos hin, if_pos hin', Option.map_map]
    refine congrArg (Option.map · (w.mem.free (w.bufs i).data)) (funext fun mem => ?_)
    rw [Function.comp_apply, L.inBytes_update, L.head_zero]
    rfl

/-- Whatever is made of it. -/
theorem Layout.map_reset (L : Layout T) (w : World ι) (i : ι) {f g : World ι → World ι × Ptr ι}
    (hfg : ∀ v, Prod.map L.inBytes id (f v) = g (L.inBytes v)) :
    ((reset w i).map f).map (Prod.map L.inBytes id) = (Tbufs.reset (L.inBytes w) i).map g := by
  rw [← inBytes_reset, Option.map_map, Option.map_map]
  exact congrArg (Option.map · (reset w i)) (funext hfg)

/-- And so is `allocate_nocopy`, where the bytes can be counted. -/
theorem inBytes_allocateNocopy (h : Sound L w) (hfit : sz.toNat * L.itemSize.toNat < 2 ^ 64) :
    (allocateNocopy L junk w i sz).map (Prod.map L.inBytes id) =
      Tbufs.allocateNocopy (L.SZ * L.itemSize) junk (L.inBytes w) i (sz * L.itemSize) := by
  have hzero := L.mul_eq_zero_iff hfit
  have hless := L.mul_le_iff hfit (h.size_lt i)
  have hroom := L.mul_le_iff hfit L.fits
  have hpos := L.pos_iff (h.size_lt i)
  unfold allocateNocopy Tbufs.allocateNocopy
  simp only [Layout.inBytes, Layout.head, hzero, hless, hroom, hpos, UInt64.mul_comm L.itemSize sz]
  split_ifs
  · exact L.map_reset w i fun _ => rfl
  · exact congrArg (fun v => some (v, (w.bufs i).data)) (L.inBytes_put w i _)
  all_goals exact L.map_inBytes w.bufs i _ _ _

/-- `allocate` too, as long as the array stays where it is. -/
theorem inBytes_allocate (h : Sound L w) (hfit : sz.toNat * L.itemSize.toNat < 2 ^ 64)
    (hstay : ¬ Moves L i (w.bufs i) sz) :
    (allocate L junk w i sz).map (Prod.map L.inBytes id) =
      Tbufs.allocate (L.SZ * L.itemSize) junk (L.inBytes w) i (sz * L.itemSize) := by
  have hzero := L.mul_eq_zero_iff hfit
  have hless := L.mul_le_iff hfit (h.size_lt i)
  have hroom := L.mul_le_iff hfit L.fits
  unfold allocate Tbufs.allocate
  simp only [Layout.inBytes, Layout.head, hzero, hless, hroom]
  split_ifs with h0 hle hin
  · exact L.map_reset w i fun _ => rfl
  · exact congrArg (fun v => some (v, (w.bufs i).data)) (L.inBytes_put w i _)
  · exact congrArg (fun v => some (v, (w.bufs i).data)) (L.inBytes_put w i _)
  all_goals exact absurd ⟨UInt64.not_le.mp hle, hin⟩ hstay

/-- So the assignment is that of the `tbuf`s. -/
theorem inBytes_assign (h : Sound L w) :
    (assign L junk w i j).map L.inBytes = Tbufs.assign (L.SZ * L.itemSize) junk (L.inBytes w) i j := by
  have hzero := L.mul_eq_zero_iff (h.size_lt j)
  have hnocopy := @inBytes_allocateNocopy _ _ _ L junk w i (w.bufs j).size h (h.size_lt j)
  unfold assign Tbufs.assign
  by_cases hsame : j = i ∨ (w.bufs j).data = (w.bufs i).data
  · rw [if_pos hsame]
    exact (if_pos hsame).symm
  rw [if_neg hsame]
  refine Eq.trans ?_ (if_neg hsame).symm
  by_cases h0 : (w.bufs j).size = 0
  · rw [if_pos h0, inBytes_reset]
    exact (if_pos (hzero.mpr h0)).symm
  rw [if_neg h0]
  refine Eq.trans ?_ (if_neg fun hh => h0 (hzero.mp hh)).symm
  rw [Option.map_bind]
  refine Eq.trans ?_ (congrArg (Option.bind · _) hnocopy)
  rw [Option.bind_map]
  refine congrArg (Option.bind _) (funext fun a => ?_)
  rw [Function.comp_apply, Function.comp_apply, Option.map_bind]
  refine congrArg (Option.bind _) (funext fun bs => ?_)
  rw [Function.comp_apply, Option.map_map]
  rfl

/-- A call on the array `i` has a meaning, leaves the others alone and gives it the bytes `bs`. -/
def Gives (L : Layout T) (w : World ι) (i : ι) (r : Option (World ι)) (bs : List UInt8) : Prop :=
  ∃ w', r = some w' ∧ Sound L w' ∧ Others i w w' ∧ view L w' i = bs

namespace Sound

/-- What a call does in bytes is what it does, when its size is one that bytes can be counted in. -/
theorem gives_of_inBytes (h : Sound L w) {r : Option (World ι)} {bs : List UInt8} {m : Head ι × Nat}
    (hr : Tbufs.Gives (L.SZ * L.itemSize) (L.inBytes w) i (r.map L.inBytes) bs)
    (hsets : ∀ w', r = some w' → Sets i w w' m) (hsize : m.1.size.toNat * L.itemSize.toNat < 2 ^ 64) :
    Gives L w i r bs := by
  obtain ⟨v, hv, hs, ho, hview⟩ := hr
  obtain ⟨w', hw', rfl⟩ := Option.map_eq_some_iff.mp hv
  obtain ⟨hs', ho'⟩ := h.lift (hsets w' hw').1 hsize hs ho
  exact ⟨w', hw', hs', ho', hview⟩

theorem reset_gives (h : Sound L w) (i : ι) : Gives L w i (reset w i) [] := by
  have hbytes := h.inBytes.reset_gives i
  rw [← inBytes_reset] at hbytes
  refine h.gives_of_inBytes hbytes (fun w' => reset_sets) ?_
  rw [UInt64.toNat_zero, Nat.zero_mul]
  exact Nat.two_pow_pos 64

/-- **`allocate_nocopy`** keeps the first elements when there are not to be more. -/
theorem allocateNocopy_gives (h : Sound L w) (junk : Nat → Nat → UInt8) (i : ι)
    (hfit : sz.toNat * L.itemSize.toNat < 2 ^ 64) : ∃ w' p,
    allocateNocopy L junk w i sz = some (w', p) ∧ Sound L w' ∧ Others i w w' ∧ (w'.bufs i).size = sz ∧
      p = (w'.bufs i).data ∧
      (sz ≤ (w.bufs i).size → view L w' i = (view L w i).take (sz.toNat * L.itemSize.toNat)) := by
  obtain ⟨v, p, hv, hs, ho, -, hp, hkeep⟩ := h.inBytes.allocateNocopy_gives junk i (sz * L.itemSize)
  rw [← inBytes_allocateNocopy h hfit] at hv
  obtain ⟨⟨w', q⟩, hw', he⟩ := Option.map_eq_some_iff.mp hv
  cases he
  have hsets := (allocateNocopy_sets hw').1
  have hsize := @size_allocateNocopyHead _ _ L i (w.bufs i) w.mem.next sz
  obtain ⟨hs', ho'⟩ := h.lift hsets (by rwa [hsize]) hs ho
  refine ⟨w', q, hw', hs', ho', ?_, hp, fun hle => ?_⟩
  · rw [hsets, Function.update_self, hsize]
  · rw [← L.toNat_mul hfit]
    exact hkeep ((L.mul_le_iff hfit (h.size_lt i)).mpr hle)

/-- **`allocate`** keeps the first elements, as long as the array stays where it is. -/
theorem allocate_stays (h : Sound L w) (junk : Nat → Nat → UInt8) {i : ι} {sz : UInt64}
    (hfit : sz.toNat * L.itemSize.toNat < 2 ^ 64) (hstay : ¬ Moves L i (w.bufs i) sz) : ∃ w' p rest,
    allocate L junk w i sz = some (w', p) ∧ Sound L w' ∧ Others i w w' ∧
      view L w' i = (view L w i).take (sz.toNat * L.itemSize.toNat) ++ rest := by
  obtain ⟨v, p, rest, hv, hs, ho, hview, -⟩ := h.inBytes.allocate_gives junk i (sz * L.itemSize)
  rw [← inBytes_allocate h hfit hstay] at hv
  obtain ⟨⟨w', q⟩, hw', he⟩ := Option.map_eq_some_iff.mp hv
  cases he
  have hsize := @size_allocateHead _ _ _ L i (w.bufs i) w.mem.next sz
  obtain ⟨hs', ho'⟩ := h.lift (allocate_sets hw').1 (by rwa [hsize]) hs ho
  rw [L.toNat_mul hfit] at hview
  exact ⟨w', q, rest, hw', hs', ho', hview⟩

/-- In another block there are as many bytes of the elements as there were elements. -/
theorem allocate_moves (h : Sound L w) (junk : Nat → Nat → UInt8) {i : ι} {sz : UInt64}
    (hfit : sz.toNat * L.itemSize.toNat < 2 ^ 64) (hmove : Moves L i (w.bufs i) sz) : ∃ w' p,
    allocate L junk w i sz = some (w', p) ∧ Sound L w' ∧ Others i w w' ∧
      view L w' i = (view L w i).take (w.bufs i).size.toNat ++
        ((List.range (sz.toNat * L.itemSize.toNat)).map (junk w.mem.next)).drop (w.bufs i).size.toNat := by
  have hle : ¬ sz ≤ (w.bufs i).size := UInt64.not_le.mpr hmove.1
  have h0 : sz ≠ 0 := by
    rintro rfl
    exact UInt64.not_lt_zero hmove.1
  have hless : ((L.inBytes w).bufs i).size < sz * L.itemSize := by
    rw [← UInt64.not_le]
    exact fun hh => hle ((L.mul_le_iff hfit (h.size_lt i)).mp hh)
  have hfirst : (w.bufs i).size.toNat ≤ ((L.inBytes w).bufs i).size.toNat :=
    Nat.le_trans (Nat.le_mul_of_pos_right _ L.itemSize_pos) (Nat.le_of_eq (L.toNat_mul (h.size_lt i)).symm)
  obtain ⟨mem, hmem, hs, ho, hview⟩ := h.inBytes.move_gives junk hless hfirst
  simp only [Layout.inBytes, Layout.head, L.pos_iff (h.size_lt i), UInt64.mul_comm sz] at hmem
  have ha : allocate L junk w i sz =
      some (⟨mem, Function.update w.bufs i ⟨.block w.mem.next, sz⟩⟩, .block w.mem.next) := by
    rw [allocate, if_neg h0, if_neg hle, if_neg hmove.2]
    exact congrArg (Option.map _) hmem
  have hbytes : L.inBytes ⟨mem, Function.update w.bufs i ⟨.block w.mem.next, sz⟩⟩ =
      ⟨mem, Function.update (L.inBytes w).bufs i ⟨.block (L.inBytes w).mem.next, sz * L.itemSize⟩⟩ :=
    L.inBytes_update w.bufs i _
  rw [← hbytes] at hs ho
  obtain ⟨hs', ho'⟩ := h.lift rfl hfit hs ho
  refine ⟨_, _, ha, hs', ho', ?_⟩
  rw [view, hbytes, hview, L.toNat_mul hfit]
  rfl

theorem allocate_gives (h : Sound L w) (junk : Nat → Nat → UInt8) (i : ι)
    (hfit : sz.toNat * L.itemSize.toNat < 2 ^ 64) : ∃ w' p,
    allocate L junk w i sz = some (w', p) ∧ Sound L w' ∧ Others i w w' ∧ (w'.bufs i).size = sz := by
  have hgives : ∃ w' p, allocate L junk w i sz = some (w', p) ∧ Sound L w' ∧ Others i w w' := by
    by_cases hmove : Moves L i (w.bufs i) sz
    · obtain ⟨w', p, ha, hs, ho, -⟩ := h.allocate_moves junk hfit hmove
      exact ⟨w', p, ha, hs, ho⟩
    · obtain ⟨w', p, -, ha, hs, ho, -⟩ := h.allocate_stays junk hfit hmove
      exact ⟨w', p, ha, hs, ho⟩
  obtain ⟨w', p, ha, hs, ho⟩ := hgives
  refine ⟨w', p, ha, hs, ho, ?_⟩
  rw [(allocate_sets ha).1, Function.update_self, size_allocateHead]

/-- Bytes are written within the elements. -/
theorem store_view (h : Sound L w) (i : ι) (bs : List UInt8)
    (hle : bs.length ≤ (w.bufs i).size.toNat * L.itemSize.toNat) : ∃ mem,
    w.mem.store (w.bufs i).data 0 bs = some mem ∧ Sound L { w with mem := mem } ∧
      Others i w { w with mem := mem } ∧ view L { w with mem := mem } i = patch (view L w i) 0 bs := by
  have hroom : 0 + bs.length ≤ ((L.inBytes w).bufs i).size.toNat := by
    rw [Nat.zero_add]
    exact Nat.le_trans hle (Nat.le_of_eq (L.toNat_mul (h.size_lt i)).symm)
  obtain ⟨mem, hstore, hs, ho, hv⟩ := h.inBytes.store_view i 0 bs hroom
  have hsame : ({ w with mem := mem } : World ι).bufs = Function.update w.bufs i (w.bufs i) :=
    (Function.update_eq_self _ _).symm
  obtain ⟨hs', ho'⟩ := h.lift hsame (h.size_lt i) hs ho
  exact ⟨mem, hstore, hs', ho', hv⟩

/-- **`set`**: all bytes of the elements are copied, whatever `allocate` kept. -/
theorem set_gives (h : Sound L w) (junk : Nat → Nat → UInt8) (i : ι) (r : Range L) :
    Gives L w i ((set L junk w i r).map Prod.fst) (if r.sz = 0 then []
      else match r.dta with
        | none => view L w i
        | some ts => (ts.take r.sz.toNat).flatMap L.rep) := by
  obtain ⟨dta, sz, henough, hmemory⟩ := r
  unfold set
  simp only
  by_cases h0 : sz = 0
  · obtain ⟨w', hr, hw'⟩ := h.reset_gives i
    rw [if_pos h0, if_pos h0, hr]
    exact ⟨w', rfl, hw'⟩
  rw [if_neg h0, if_neg h0]
  cases dta with
  | none => exact ⟨w, rfl, h, Others.refl i w, rfl⟩
  | some ts =>
    have hfit : sz.toNat * L.itemSize.toNat < 2 ^ 64 :=
      Nat.lt_of_le_of_lt (Nat.mul_le_mul_right _ (henough ts rfl)) (hmemory ts rfl)
    have hcount : (L.itemSize * sz).toNat = sz.toNat * L.itemSize.toNat := by
      rw [UInt64.mul_comm, L.toNat_mul hfit]
    have htake := Objects.take_flatMap L.length_rep ts sz.toNat
    have hlen : ((ts.take sz.toNat).flatMap L.rep).length = sz.toNat * L.itemSize.toNat := by
      rw [Objects.length_flatMap L.length_rep, List.length_take, Nat.min_eq_left (henough ts rfl)]
    have hbytes : Range.bytes (⟨some ts, sz, henough, hmemory⟩ : Range L) (L.itemSize * sz).toNat =
        some ((ts.take sz.toNat).flatMap L.rep) := by
      have hle : sz.toNat * L.itemSize.toNat ≤ (ts.flatMap L.rep).length := by
        rw [Objects.length_flatMap L.length_rep]
        exact Nat.mul_le_mul_right _ (henough ts rfl)
      rw [Range.bytes, Option.bind_some, hcount, if_pos hle, htake]
    obtain ⟨w', p, ha, hs, ho, hsize⟩ := h.allocate_gives junk i hfit
    obtain ⟨mem, hstore, hs', ho', hv⟩ := hs.store_view i ((ts.take sz.toNat).flatMap L.rep)
      (by rw [hlen, hsize])
    have hsome : ¬ (some ts).isNone = true := Bool.false_ne_true
    rw [if_neg hsome, ha, Option.bind_some, hbytes, Option.bind_some, hstore]
    refine ⟨_, rfl, hs', ho.trans ho', hv.trans (patch_all ?_)⟩
    rw [hlen, hs.length_view, hsize]

/-- **`operator=`**, which is that of the `tbuf`s. -/
theorem assign_gives (h : Sound L w) (junk : Nat → Nat → UInt8) (i j : ι) :
    Gives L w i (assign L junk w i j) (view L w j) := by
  have hbytes := @Tbufs.Sound.assign_gives _ _ _ junk _ h.inBytes i j
  rw [← inBytes_assign h] at hbytes
  refine h.gives_of_inBytes hbytes (fun w' hw' => exec_sets (show exec L junk w (.assign i j) = _ from hw')) ?_
  rw [opHead]
  split_ifs
  · exact h.size_lt i
  · rw [UInt64.toNat_zero, Nat.zero_mul]
    exact Nat.two_pow_pos 64
  · rw [size_allocateNocopyHead]
    exact h.size_lt j

omit [DecidableEq ι] in
/-- **`operator==`** compares all bytes of the elements. -/
theorem opEq_view (h : Sound L w) (i j : ι) : opEq L w i j = some (decide (view L w i = view L w j)) := by
  unfold opEq
  split_ifs with hsize h0
  · have hne : view L w i ≠ view L w j := by
      intro he
      have hlen := congrArg List.length he
      rw [h.length_view, h.length_view] at hlen
      exact hsize (UInt64.toNat_inj.mp (Nat.eq_of_mul_eq_mul_right L.itemSize_pos hlen.symm))
    rw [decide_eq_false hne]
  · have hnil : ∀ k, (w.bufs k).size = 0 → view L w k = [] := by
      intro k hk
      rw [← List.length_eq_zero_iff, h.length_view, hk, UInt64.toNat_zero, Nat.zero_mul]
    rw [hnil i h0, hnil j ((not_not.mp hsize).trans h0), decide_eq_true rfl]
  · have hload := h.load_view j
    rw [not_not.mp hsize] at hload
    rw [hload, h.load_view i, Option.bind_some, Option.map_some]
    exact congrArg some (decide_eq_decide.mpr eq_comm)

omit [DecidableEq ι] in
/-- **`get`** delivers them. -/
theorem get_view (h : Sound L w) {i : ι} (h0 : (w.bufs i).size ≠ 0) {out : List UInt8}
    (hroom : (view L w i).length ≤ out.length) :
    get L w i (some out) = some (true, some (patch out 0 (view L w i))) := by
  rw [get, if_neg h0, h.load_view i, Option.bind_some, if_pos hroom]

end Sound

end Functions

end PreallocatedArray

end CodeSLoop
