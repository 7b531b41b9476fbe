import CodeSLoop.Common.StringsTerminated

/-!
# String objects (`common/tbuf.hh`, `common/tbuf_impl.hh`)

A string is more than its bytes when a pointer into its buffer is kept while the buffer is made
larger. On the heap a larger buffer is a new block, and the old one is given back; in the
preallocated area the bytes stay where they were, also when the buffer moves to the heap. So an
`Obj` is the bytes, as in `Strings`, and where they are. It is what a `Tbuf` is without the
addresses (`allocate_ofTbuf`).
-/

namespace CodeSLoop

open Bytes Memory

namespace Strings

/-- The `tbuf` of a string: its bytes, and whether `data_` points to the heap. -/
structure Obj (SZ : Nat) where
  bytes : List UInt8
  onHeap : Bool
  fits : onHeap = false → bytes.length ≤ SZ

variable {SZ : Nat} (lib : Libc)

/-- How a `Tbuf` is seen here. -/
def Obj.ofTbuf {SZ : UInt64} (t : Tbuf SZ) : Obj SZ.toNat where
  bytes := t.bytes
  onHeap := t.heap.isSome
  fits := by
    intro h
    have hle := t.size_le
    rw [Option.isSome_eq_false_iff, Option.isNone_iff_eq_none] at h
    rw [h, Option.getD_none, t.length_preallocated] at hle
    rwa [t.length_bytes]

namespace Obj

/-- `reset()`. -/
def reset : Obj SZ := ⟨[], false, fun _ => Nat.zero_le _⟩

/-- `allocate`, with no buffer when the pointer it returns is null. -/
def allocate (o : Obj SZ) (sz : UInt64) : Option (Obj SZ) :=
  if sz = 0 then some reset
  else if sz.toNat ≤ o.bytes.length then
    some ⟨o.bytes.take sz.toNat, o.onHeap, fun h => (List.length_take_le' ..).trans (o.fits h)⟩
  else if h : sz.toNat ≤ SZ ∧ o.onHeap = false then
    some ⟨(o.bytes ++ lib.fresh (sz.toNat - o.bytes.length)).take sz.toNat, false,
      fun _ => (List.length_take_le ..).trans h.1⟩
  else if hasBlock sz.toNat then
    some ⟨o.bytes ++ lib.fresh (sz.toNat - o.bytes.length), true, fun h => Bool.noConfusion h⟩
  else none

/-- `allocate_nocopy`. -/
def allocateNocopy (o : Obj SZ) (sz : UInt64) : Option (Obj SZ) :=
  if sz = 0 then some reset
  else if sz.toNat ≤ o.bytes.length then
    some ⟨o.bytes.take sz.toNat, o.onHeap, fun h => (List.length_take_le' ..).trans (o.fits h)⟩
  else if h : sz.toNat ≤ SZ then
    some ⟨lib.fresh sz.toNat, false, fun _ => by rwa [lib.length_fresh]⟩
  else if hasBlock sz.toNat then some ⟨lib.fresh sz.toNat, true, fun h => Bool.noConfusion h⟩
  else none

/-- `memcpy` to a place in the buffer. Nothing is ever written behind its end. -/
def copyTo (o : Obj SZ) (place : Nat) (dta : List UInt8) : Obj SZ :=
  ⟨(o.bytes.take place ++ dta ++ o.bytes.drop (place + dta.length)).take o.bytes.length, o.onHeap,
    fun h => (List.length_take_le ..).trans (o.fits h)⟩

/-- `append(other)`, of the same buffer or another one. In the same buffer the pointer is to the old
    area, which on the heap has been given back: there is no larger one that is not new. -/
def append (o other : Obj SZ) (same : Bool) : Obj SZ :=
  if other.bytes = [] then o
  else
    match o.allocate lib (UInt64.ofNat o.bytes.length + UInt64.ofNat other.bytes.length) with
    | none => o
    | some o' =>
      o'.copyTo (o'.bytes.length - other.bytes.length)
        (if same && o.onHeap then lib.freed other.bytes else other.bytes)

/-- `append(dta,sz)` of bytes from elsewhere. -/
def appendBytes (o : Obj SZ) (dta : List UInt8) : Obj SZ :=
  o.append lib (⟨dta, true, fun h => Bool.noConfusion h⟩ : Obj SZ) false

/-- `operator=(const tbuf &)`, from another one. -/
def copy (o other : Obj SZ) : Obj SZ :=
  if other.bytes = [] then reset
  else
    match o.allocateNocopy lib (UInt64.ofNat other.bytes.length) with
    | none => o
    | some o' => o'.copyTo 0 other.bytes

/-! ## What the calls do -/

variable {lib} {o other : Obj SZ} {sz : UInt64} {dta : List UInt8}

@[ext] theorem ext {o o' : Obj SZ} (hbytes : o.bytes = o'.bytes) (hheap : o.onHeap = o'.onHeap) :
    o = o' := by
  cases o
  cases o'
  cases hbytes
  cases hheap
  rfl

/-- `allocate` is that of a `Tbuf`, with its bytes and its heap block. -/
theorem allocate_ofTbuf {SZ : UInt64} (t : Tbuf SZ) {m : Malloc}
    (hm : ∀ n, (m.answer n).isSome = hasBlock n.toNat)
    (hfresh : lib.fresh (sz.toNat - t.size.toNat) = (t.allocate m sz).1.bytes.drop t.size.toNat) :
    (ofTbuf t).allocate lib sz =
      if (t.allocate m sz).2 = 0 then none else some (ofTbuf (t.allocate m sz).1) := by
  have hlen : (ofTbuf t).bytes.length = t.size.toNat := t.length_bytes
  have hstatic : (ofTbuf t).onHeap = false ↔ t.heap = none := by
    rw [ofTbuf, Option.isSome_eq_false_iff, Option.isNone_iff_eq_none]
  have hsmaller : sz.toNat ≤ (ofTbuf t).bytes.length ↔ sz.toNat ≤ t.size.toNat := by rw [hlen]
  unfold allocate
  by_cases h0 : sz = 0
  · rw [if_pos h0, h0, Tbuf.allocate_zero, if_neg (show t.data ≠ 0 from t.block.addr_ne)]
    exact congrArg some (ext (show [] = t.reset.block.bytes.take 0 from List.take_zero.symm) rfl)
  by_cases hle : sz.toNat ≤ t.size.toNat
  · have hn := Tbuf.not_needsMalloc_of_le (UInt64.le_iff_toNat_le.mpr hle)
    obtain ⟨-, -, hheap, hptr⟩ := Tbuf.allocate_inplace (m := m) h0 hn
    rw [if_neg h0, if_pos (hsmaller.mpr hle), hptr, if_neg (show t.data ≠ 0 from t.block.addr_ne)]
    exact congrArg some (ext (Tbuf.bytes_allocate_le hle).symm (congrArg Option.isSome hheap.symm))
  have hgrow (hb : t.NeedsMalloc sz → (m.answer sz).isSome) :
      t.bytes ++ lib.fresh (sz.toNat - (ofTbuf t).bytes.length) = (t.allocate m sz).1.bytes := by
    rw [hlen, hfresh, ← Tbuf.take_bytes_allocate (Nat.le_of_not_le hle) hb, List.take_append_drop]
  by_cases hin : sz.toNat ≤ SZ.toNat ∧ t.heap = none
  · have hn : ¬ t.NeedsMalloc sz := fun hn => hn.2.2 ⟨UInt64.le_iff_toNat_le.mpr hin.1, hin.2⟩
    obtain ⟨hs, -, hheap, hptr⟩ := Tbuf.allocate_inplace (m := m) h0 hn
    rw [if_neg h0, if_neg (mt hsmaller.mp hle), dif_pos ⟨hin.1, hstatic.mpr hin.2⟩, hptr,
      if_neg (show t.data ≠ 0 from t.block.addr_ne)]
    refine congrArg some (ext ?_ ?_)
    · change (t.bytes ++ _).take _ = _
      rw [hgrow fun hn' => absurd hn' hn]
      refine List.take_of_length_le ?_
      rw [Tbuf.length_bytes, hs]
    · exact (congrArg Option.isSome (hheap.trans hin.2)).symm
  · have hn : t.NeedsMalloc sz :=
      ⟨h0, fun h => hle (UInt64.le_iff_toNat_le.mp h), fun h => hin ⟨UInt64.le_iff_toNat_le.mp h.1, h.2⟩⟩
    rw [if_neg h0, if_neg (mt hsmaller.mp hle), dif_neg (fun h => hin ⟨h.1, hstatic.mp h.2⟩)]
    by_cases hblock : hasBlock sz.toNat
    · have hptr : (t.allocate m sz).2 ≠ 0 := by
        rw [(Tbuf.allocate_met h0 fun _ => by rw [hm]; exact hblock).2.1]
        exact (t.allocate m sz).1.block.addr_ne
      rw [if_pos hblock, if_neg hptr]
      refine congrArg some (ext (hgrow fun _ => by rw [hm]; exact hblock) ?_)
      exact (Tbuf.heap_allocate hn (by rw [hm]; exact hblock)).symm
    · have hnone : m.answer sz = none := by
        rw [← Option.not_isSome_iff_eq_none, hm]
        exact hblock
      rw [if_neg hblock, Tbuf.allocate_refused hn hnone, if_pos rfl]

theorem allocate_cut (h : sz.toNat ≤ o.bytes.length) :
    ∃ o', o.allocate lib sz = some o' ∧ o'.bytes = o.bytes.take sz.toNat ∧
      (o'.onHeap = if sz = 0 then false else o.onHeap) := by
  unfold allocate
  by_cases h0 : sz = 0
  · refine ⟨_, if_pos h0, ?_, (if_pos h0).symm⟩
    rw [h0, UInt64.toNat_zero, List.take_zero]
    rfl
  · rw [if_neg h0, if_pos h]
    exact ⟨_, rfl, rfl, (if_neg h0).symm⟩

/-- A larger buffer has the old bytes in front. -/
theorem allocate_grow (h : o.bytes.length < sz.toNat) (hsz : sz.toNat < 2 ^ 63) :
    ∃ o', o.allocate lib sz = some o' ∧
      o'.bytes = o.bytes ++ lib.fresh (sz.toNat - o.bytes.length) := by
  have h0 : sz ≠ 0 := by
    intro h0
    rw [h0, UInt64.toNat_zero] at h
    exact Nat.not_lt_zero _ h
  unfold allocate
  rw [if_neg h0, if_neg (Nat.not_le_of_lt h)]
  split
  · refine ⟨_, rfl, List.take_of_length_le ?_⟩
    rw [List.length_append, lib.length_fresh]
    omega
  · rw [if_pos (hasBlock_of_lt hsz)]
    exact ⟨_, rfl, rfl⟩

theorem bytes_copyTo_end {old new : List UInt8} (h : o.bytes = dta ++ old)
    (hlen : new.length = old.length) :
    (o.copyTo dta.length new).bytes = dta ++ new := by
  have hdrop : o.bytes.drop (dta.length + new.length) = [] := by
    rw [h, List.drop_of_length_le]
    rw [List.length_append, hlen]
  change (o.bytes.take dta.length ++ new ++ o.bytes.drop (dta.length + new.length)).take _ = _
  rw [hdrop, h, List.take_left' rfl, List.append_nil, List.take_of_length_le]
  rw [List.length_append, List.length_append, hlen]

/-- What is appended: the bytes that the pointer has left. -/
theorem bytes_append (same : Bool)
    (h : o.bytes.length + other.bytes.length < 2 ^ 63) :
    (o.append lib other same).bytes =
      o.bytes ++ if same && o.onHeap then lib.freed other.bytes else other.bytes := by
  unfold append
  by_cases hne : other.bytes = []
  · have hfreed : lib.freed [] = [] := List.length_eq_zero_iff.mp (lib.length_freed [])
    rw [if_pos hne, hne, hfreed, ite_self, List.append_nil]
  · have hpos := List.length_pos_of_ne_nil hne
    have hsum : (UInt64.ofNat o.bytes.length + UInt64.ofNat other.bytes.length).toNat =
        o.bytes.length + other.bytes.length := by
      rw [UInt64.toNat_add, toNat_length (by omega), toNat_length (by omega),
        Nat.mod_eq_of_lt (by omega)]
    obtain ⟨o', ho', hbytes⟩ := @allocate_grow SZ lib o
      (UInt64.ofNat o.bytes.length + UInt64.ofNat other.bytes.length) (by omega) (by omega)
    rw [hsum, Nat.add_sub_cancel_left] at hbytes
    have hlen : o'.bytes.length - other.bytes.length = o.bytes.length := by
      rw [hbytes, List.length_append, lib.length_fresh, Nat.add_sub_cancel]
    rw [if_neg hne, ho']
    simp only [hlen]
    refine bytes_copyTo_end hbytes ?_
    rw [lib.length_fresh]
    split
    · exact lib.length_freed _
    · rfl

theorem bytes_appendBytes (h : o.bytes.length + dta.length < 2 ^ 63) :
    (o.appendBytes lib dta).bytes = o.bytes ++ dta :=
  bytes_append false h

theorem allocateNocopy_met (h0 : sz ≠ 0) (h : sz.toNat < 2 ^ 63) :
    ∃ o', o.allocateNocopy lib sz = some o' ∧ o'.bytes.length = sz.toNat := by
  unfold allocateNocopy
  rw [if_neg h0]
  split
  · exact ⟨_, rfl, List.length_take_of_le ‹_›⟩
  · split
    · exact ⟨_, rfl, lib.length_fresh _⟩
    · rw [if_pos (hasBlock_of_lt h)]
      exact ⟨_, rfl, lib.length_fresh _⟩

/-- A copy has the bytes. -/
theorem bytes_copy (h : other.bytes.length < 2 ^ 63) : (o.copy lib other).bytes = other.bytes := by
  unfold copy
  by_cases hne : other.bytes = []
  · rw [if_pos hne, hne]
    rfl
  · have hlen := toNat_length h
    obtain ⟨o', ho', hbytes⟩ := @allocateNocopy_met SZ lib o (UInt64.ofNat other.bytes.length)
      (ofNat_length_ne_zero hne h) (by omega)
    rw [hlen] at hbytes
    rw [if_neg hne, ho']
    exact @bytes_copyTo_end SZ o' [] o'.bytes other.bytes rfl hbytes.symm

end Obj

end Strings

end CodeSLoop
