import CodeSLoop.Lib.Memory

/-!
# `tbuf` — the preallocated template buffer (`common/tbuf.hh`, `common/tbuf_impl.hh`)

`tbuf<SZ>` holds its bytes in `preallocated_`, an area of `SZ` bytes inside the object, and
moves to the heap when that is too small. `data_` points at the area in use and `size_` is
how much of it has been asked for; what the area *physically* holds can be more, since
`allocate` never gives storage back when it shrinks.

The test `data_ == preallocated_` is the test that no heap block is in use, so the model
keeps the heap block, if there is one, and has `data` as a function of it. That the recorded
size never exceeds the storage is part of the type.
-/

namespace CodeSLoop

open Memory

/-- The members of `tbuf<SZ>`. -/
structure Tbuf (SZ : UInt64) where
  preallocated : Block
  heap : Option Block
  size : UInt64
  length_preallocated : preallocated.bytes.length = SZ.toNat
  size_le : size.toNat ≤ (heap.getD preallocated).bytes.length

namespace Tbuf

variable {SZ : UInt64}

/-- The area `data_` points at. -/
def block (t : Tbuf SZ) : Block := t.heap.getD t.preallocated

/-- `data_`. -/
def data (t : Tbuf SZ) : UInt64 := t.block.addr

/-- `tbuf()`. The preallocated area is left as it was found. -/
def init (preallocated : Block) (h : preallocated.bytes.length = SZ.toNat) : Tbuf SZ where
  preallocated := preallocated
  heap := none
  size := 0
  length_preallocated := h
  size_le := Nat.zero_le _

/-- Frees the heap block, if any. -/
def reset (t : Tbuf SZ) : Tbuf SZ where
  preallocated := t.preallocated
  heap := none
  size := 0
  length_preallocated := t.length_preallocated
  size_le := Nat.zero_le _

/-- The cases in which `allocate` has to ask the heap. -/
def NeedsMalloc (t : Tbuf SZ) (sz : UInt64) : Prop :=
  sz ≠ 0 ∧ ¬ sz ≤ t.size ∧ ¬ (sz ≤ SZ ∧ t.heap = none)

instance (t : Tbuf SZ) (sz : UInt64) : Decidable (t.NeedsMalloc sz) := by
  have : Decidable (t.heap = none) := decidable_of_iff _ Option.isNone_iff_eq_none
  unfold NeedsMalloc
  infer_instance

/-- `allocate`, and the pointer it returns. The first `size_` bytes are copied into a new
    block; the rest of it is as `malloc` gave it. -/
def allocate (t : Tbuf SZ) (m : Malloc) (sz : UInt64) : Tbuf SZ × UInt64 :=
  if _ : sz = 0 then (t.reset, t.data)
  else if hle : sz ≤ t.size then
    ({ t with
        size := sz
        size_le := Nat.le_trans (UInt64.le_iff_toNat_le.mp hle) t.size_le }, t.data)
  else if h : sz ≤ SZ ∧ t.heap = none then
    ({ t with
        size := sz
        size_le := by
          rw [h.2, Option.getD_none, t.length_preallocated]
          exact UInt64.le_iff_toNat_le.mp h.1 }, t.data)
  else
    match hm : m.answer sz with
    | none => (t, 0)
    | some tmp =>
      have hlen : 0 + (t.block.bytes.take t.size.toNat).length ≤ tmp.bytes.length := by
        have := m.length_eq hm
        rw [UInt64.le_iff_toNat_le] at hle
        rw [List.length_take]
        omega
      ({ t with
          heap := some (tmp.splice 0 (t.block.bytes.take t.size.toNat) hlen)
          size := sz
          size_le := Nat.le_of_eq <| by
            rw [Option.getD_some, Block.length_splice, m.length_eq hm] }, tmp.addr)

/-- The buffer with the contents of the area in use replaced. -/
def setBlock (t : Tbuf SZ) (b : Block) (h : b.bytes.length = t.block.bytes.length) : Tbuf SZ :=
  match hh : t.heap with
  | none =>
    { t with
      preallocated := b
      length_preallocated := by rw [h, block, hh, Option.getD_none, t.length_preallocated]
      size_le := by
        have := t.size_le
        rw [hh, Option.getD_none] at this ⊢
        rwa [h, block, hh, Option.getD_none] }
  | some _ =>
    { t with
      heap := some b
      size_le := by rw [Option.getD_some, h]; exact t.size_le }

/-- Writing through a pointer into the area in use; `none` is a write outside of it. -/
def store (t : Tbuf SZ) (p : UInt64) (bs : List UInt8) : Option (Tbuf SZ) :=
  if bs = [] then some t
  else if h : (p - t.data).toNat + bs.length ≤ t.block.bytes.length then
    some (t.setBlock (t.block.splice (p - t.data).toNat bs h) (Block.length_splice h))
  else none

/-- Reading through a pointer into the area in use. -/
def load (t : Tbuf SZ) (p : UInt64) (n : Nat) : Option (List UInt8) :=
  if n = 0 then some []
  else if (p - t.data).toNat + n ≤ t.block.bytes.length then
    some (t.block.read (p - t.data).toNat n)
  else none

/-! ## What `allocate` can do -/

variable {t : Tbuf SZ} {m : Malloc} {sz : UInt64}

theorem size_le_length : t.size.toNat ≤ t.block.bytes.length := t.size_le

@[simp] theorem block_setBlock {b : Block} (h : b.bytes.length = t.block.bytes.length) :
    (t.setBlock b h).block = b := by
  unfold setBlock block
  split <;> rename_i hh
  · simp [hh]
  · simp

@[simp] theorem size_setBlock {b : Block} (h : b.bytes.length = t.block.bytes.length) :
    (t.setBlock b h).size = t.size := by
  unfold setBlock
  split <;> rfl

theorem allocate_zero : t.allocate m 0 = (t.reset, t.data) := by simp [allocate]

/-- A request that needs no memory is met in place. -/
theorem allocate_inplace (h0 : sz ≠ 0) (hn : ¬ t.NeedsMalloc sz) :
    (t.allocate m sz).1.size = sz ∧ (t.allocate m sz).1.block = t.block ∧
      (t.allocate m sz).1.heap = t.heap ∧ (t.allocate m sz).2 = t.data := by
  unfold allocate
  rw [dif_neg h0]
  by_cases hle : sz ≤ t.size
  · rw [dif_pos hle]
    exact ⟨rfl, rfl, rfl, rfl⟩
  by_cases hst : sz ≤ SZ ∧ t.heap = none
  · rw [dif_neg hle, dif_pos hst]
    exact ⟨rfl, rfl, rfl, rfl⟩
  · exact absurd ⟨h0, hle, hst⟩ hn

theorem not_needsMalloc_of_le (hle : sz ≤ t.size) : ¬ t.NeedsMalloc sz :=
  fun hn => hn.2.1 hle

/-- The recorded size is then nothing, what was asked for, or what it was. -/
theorem allocate_size : (t.allocate m sz).1.size = 0 ∨ (t.allocate m sz).1.size = sz ∨
    (t.allocate m sz).1.size = t.size := by
  unfold allocate
  split
  · exact .inl rfl
  · split
    · exact .inr (.inl rfl)
    · split
      · exact .inr (.inl rfl)
      · split
        · exact .inr (.inr rfl)
        · exact .inr (.inl rfl)

/-- A refused request changes nothing and answers the null pointer. -/
theorem allocate_refused (hn : t.NeedsMalloc sz) (hm : m.answer sz = none) :
    t.allocate m sz = (t, 0) := by
  obtain ⟨h0, hle, hst⟩ := hn
  simp only [allocate, dif_neg h0, dif_neg hle, dif_neg hst]
  split
  · rfl
  · rename_i hs
    rw [hm] at hs
    cases hs

/-- A block that is given is the one in use then. -/
theorem heap_allocate (hn : t.NeedsMalloc sz) (hm : (m.answer sz).isSome) :
    (t.allocate m sz).1.heap.isSome = true := by
  obtain ⟨h0, hle, hst⟩ := hn
  simp only [allocate, dif_neg h0, dif_neg hle, dif_neg hst]
  split
  · rename_i hs
    rw [hs] at hm
    cases hm
  · rfl

/-- Any other request is met: the recorded size is the one asked for, the pointer is to the
    area now in use, and the first bytes, as many as were recorded before, are what they
    were. -/
theorem allocate_met (h0 : sz ≠ 0) (hm : t.NeedsMalloc sz → (m.answer sz).isSome) :
    (t.allocate m sz).1.size = sz ∧ (t.allocate m sz).2 = (t.allocate m sz).1.data ∧
      (t.allocate m sz).1.block.bytes.take t.size.toNat = t.block.bytes.take t.size.toNat := by
  by_cases hn : t.NeedsMalloc sz
  · have hsome := hm hn
    obtain ⟨-, hle, hst⟩ := hn
    unfold allocate
    rw [dif_neg h0, dif_neg hle, dif_neg hst]
    split
    · rename_i hno
      rw [hno] at hsome
      cases hsome
    · -- the old bytes were copied to the front of the new block
      refine ⟨rfl, rfl, ?_⟩
      have hlen : (t.block.bytes.take t.size.toNat).length = t.size.toNat := by
        rw [List.length_take, Nat.min_eq_left t.size_le_length]
      simp only [block, Option.getD_some, Block.splice, List.take_zero, List.nil_append] at hlen ⊢
      rw [List.take_append_of_le_length (Nat.le_of_eq hlen.symm),
        List.take_of_length_le (Nat.le_of_eq hlen)]
  · obtain ⟨hs, hb, -, hp⟩ := allocate_inplace (m := m) h0 hn
    refine ⟨hs, ?_, by rw [hb]⟩
    rw [hp]; unfold data; rw [hb]

/-- Bytes survive a request that is met unless it moves the buffer and they lie beyond the
    recorded size. -/
theorem read_allocate {o n : Nat} (h0 : sz ≠ 0)
    (hm : t.NeedsMalloc sz → (m.answer sz).isSome ∧ o + n ≤ t.size.toNat) :
    (t.allocate m sz).1.block.read o n = t.block.read o n := by
  by_cases hn : t.NeedsMalloc sz
  · obtain ⟨-, -, hcopy⟩ := allocate_met h0 fun hn => (hm hn).1
    exact Block.read_congr hcopy (hm hn).2
  · rw [(allocate_inplace h0 hn).2.1]

/-- The bytes asked for. -/
def bytes (t : Tbuf SZ) : List UInt8 := t.block.bytes.take t.size.toNat

theorem length_bytes (t : Tbuf SZ) : t.bytes.length = t.size.toNat :=
  List.length_take_of_le t.size_le_length

theorem bytes_allocate_le (hle : sz.toNat ≤ t.size.toNat) :
    (t.allocate m sz).1.bytes = t.bytes.take sz.toNat := by
  by_cases h0 : sz = 0
  · rw [h0, allocate_zero, UInt64.toNat_zero, List.take_zero]
    exact List.take_zero
  · have hn := not_needsMalloc_of_le (UInt64.le_iff_toNat_le.mpr hle)
    obtain ⟨hs, hb, -, -⟩ := allocate_inplace (m := m) h0 hn
    rw [bytes, bytes, hs, hb, List.take_take, Nat.min_eq_left hle]

theorem take_bytes_allocate (hle : t.size.toNat ≤ sz.toNat)
    (hm : t.NeedsMalloc sz → (m.answer sz).isSome) :
    (t.allocate m sz).1.bytes.take t.size.toNat = t.bytes := by
  by_cases h0 : sz = 0
  · have hs : t.size.toNat = 0 := by
      rw [h0, UInt64.toNat_zero] at hle
      exact Nat.le_zero.mp hle
    rw [bytes, bytes, hs, List.take_zero, List.take_zero]
  · obtain ⟨hs, -, hcopy⟩ := allocate_met h0 hm
    rw [bytes, hs, List.take_take, Nat.min_eq_left hle, hcopy]
    rfl

/-! ## Reading and writing at an offset -/

variable {off : UInt64} {bs : List UInt8} {n : Nat}

theorem heap_setBlock {b : Block} (h : b.bytes.length = t.block.bytes.length) :
    (t.setBlock b h).heap = none ↔ t.heap = none := by
  unfold setBlock
  split <;> rename_i hh <;> simp [hh]

theorem load_data_add (h : off.toNat + n ≤ t.block.bytes.length) :
    t.load (t.data + off) n = some (t.block.read off.toNat n) := by
  have hoff : t.data + off - t.data = off := by rw [UInt64.add_comm, UInt64.add_sub_cancel]
  unfold load
  rw [hoff, if_pos h]
  split
  · rename_i h0; rw [h0, Block.read_zero]
  · rfl

/-- A write inside the area leaves everything before it, puts the bytes in their place, and
    moves nothing. -/
theorem store_data_add (h : off.toNat + bs.length ≤ t.block.bytes.length) :
    ∃ t', t.store (t.data + off) bs = some t' ∧ t'.size = t.size ∧ t'.data = t.data ∧
      (t'.heap = none ↔ t.heap = none) ∧ t'.block.bytes.length = t.block.bytes.length ∧
      t'.block.read off.toNat bs.length = bs ∧
      ∀ o n, o + n ≤ off.toNat → t'.block.read o n = t.block.read o n := by
  have hoff : t.data + off - t.data = off := by rw [UInt64.add_comm, UInt64.add_sub_cancel]
  by_cases h0 : bs = []
  · subst h0
    exact ⟨t, by simp [store], rfl, rfl, Iff.rfl, rfl, by simp, fun _ _ _ => rfl⟩
  · have h' : (t.data + off - t.data).toNat + bs.length ≤ t.block.bytes.length := by
      rwa [hoff]
    refine ⟨t.setBlock (t.block.splice _ bs h') (Block.length_splice h'), ?_, size_setBlock _,
      ?_, heap_setBlock _, ?_, ?_, ?_⟩
    · simp only [store, if_neg h0, dif_pos h']
    · simp only [data, block_setBlock, Block.addr_splice]
    · rw [block_setBlock, Block.length_splice]
    · rw [block_setBlock]
      simpa only [hoff] using Block.read_splice_self h'
    · intro o n hb
      rw [block_setBlock, Block.read_splice_before h' (by rwa [hoff])]

/-- A pointer to a byte of the area, or to one past its end, is not null. -/
theorem data_add_ne_zero (h : off.toNat ≤ t.block.bytes.length) : t.data + off ≠ 0 := by
  have hfit := t.block.fits
  have hne : t.data.toNat ≠ 0 := fun h0 => t.block.addr_ne (UInt64.toNat_inj.mp h0)
  intro hz
  have := congrArg UInt64.toNat hz
  rw [UInt64.toNat_add, UInt64.toNat_zero] at this
  simp only [data] at this hne
  omega

end Tbuf

end CodeSLoop
