import CodeSLoop.Common.XdrReads

/-!
# The two forms of `get_data` with a size

One takes a place to put the data, the other one an object with `allocate`. Both are for what
`operator<<` writes with a size in front, and that is a number of eight bytes. The second form reads
the size first, as a number of four, and goes back: what it has then is the high half.

For data that is to be read the two never agree (`agree_iff`). Below 2^32 bytes the high half is
0, and the data is refused. From there on a buffer of so many bytes is allocated as the high half
says, and all of the data is put into it.
-/

namespace CodeSLoop

open Bytes Codec

namespace Xdrbuf

/-- What is written with a size: a `bindata_t`, a `ustr`, a `pbuf`. -/
inductive Sized
  | bindata (d : List UInt8)
  | ustr (s : Ustr)
  | pbuf (c : Pbuf)

def Sized.bytes : Sized → List UInt8
  | bindata d => d
  | ustr s => s.buf
  | pbuf c => c.bytes

def Sized.write (x : Xdrbuf) : Sized → Xdrbuf × Option Exc
  | bindata d => x.writeBindata (some d) (UInt64.ofNat d.length)
  | ustr s => x.writeUstr s.buf
  | pbuf c => x.writePbuf c

/-- The reader stands where `w` has written the data, whatever was written behind it. -/
structure Before (w : Xdrbuf) (d : Sized) (x : Xdrbuf) : Prop where
  ok : x.Ok
  off : x.off = w.b.bytes.length
  written : (d.write w).1.b.bytes <+: x.b.bytes

/-- Both forms of `get_data` give the data and end at the same position, or both refuse it and leave
    the reader alone. The place that the first one is given has `maxSize` bytes. -/
structure Agree (x : Xdrbuf) (d : List UInt8) (alloc : UInt64 → Bool) (size maxSize : UInt64) : Prop where
  fits : d.length ≤ maxSize.toNat → ∃ y z,
    x.getDataMax maxSize.toNat maxSize = (y, .ret (true, UInt64.ofNat d.length, d)) ∧
      x.getDataT alloc size maxSize = (z, .ret (true, UInt64.ofNat d.length, d)) ∧
      y.position = z.position
  above : maxSize.toNat < d.length → ∃ sz sz',
    x.getDataMax maxSize.toNat maxSize = (x, .ret (false, sz, [])) ∧
      x.getDataT alloc size maxSize = (x, .ret (false, sz', []))

variable {w x y : Xdrbuf} {d : Sized} {b : Pbuf} {bs tail : List UInt8} {alloc : UInt64 → Bool}
  {size maxSize : UInt64}

/-- All three are written in the same way. -/
theorem Sized.bytes_write (h : d.bytes.length < 2 ^ 64) :
    (d.write w).1.b.bytes = w.b.bytes ++ counted d.bytes := by
  cases d with
  | bindata d =>
    have h : d.length < 2 ^ 64 := h
    obtain ⟨c, hc, hbytes⟩ := putCounted_eq w h
    rw [write, writeBindata, hc]
    exact hbytes
  | ustr s =>
    have h : s.buf.length < 2 ^ 64 := h
    obtain ⟨c, hc, hbytes⟩ := putCounted_eq w h
    rw [write, writeUstr, hc]
    exact hbytes
  | pbuf c =>
    rw [bytes, ← c.size_eq_bytes] at h
    obtain ⟨c', hc, hbytes⟩ := writePbuf_eq w h
    rw [write, hc]
    exact hbytes

theorem Before.at (h : Before w d x) (hlen : d.bytes.length < 2 ^ 64) :
    ∃ tail, At x.b x (counted d.bytes ++ tail) := by
  obtain ⟨tail, htail⟩ := h.written
  rw [Sized.bytes_write hlen] at htail
  refine ⟨tail, rfl, h.ok, ?_, ?_⟩
  · rw [h.off, ← htail, List.append_assoc, List.length_append]
    exact Nat.le_add_right _ _
  · rw [rest, h.off, ← htail, List.append_assoc, List.drop_left]

/-- What is longer than the high half of its size does not fit. -/
theorem getDataT_ne_true_of_fits (h : At b x (counted bs ++ tail)) (hne : bs ≠ [])
    (hfits : bs.length ≤ maxSize.toNat) {sz : UInt64} {bs' : List UInt8} :
    x.getDataT alloc size maxSize ≠ (y, .ret (true, sz, bs')) := by
  intro hret
  obtain ⟨h8, hann⟩ := h.announced (Nat.lt_of_le_of_lt hfits maxSize.toNat_lt)
  rw [getDataT_eq h.ok (by omega)] at hret
  split at hret
  · cases hret
  · have hle : ¬ x.announced > maxSize := by
      rw [gt_iff_lt, UInt64.lt_iff_toNat_lt, hann]
      omega
    obtain ⟨y', z, hm, -, hy⟩ := @getDataMax_enough x h.ok h8
      (if alloc x.announced32.toUInt64 then x.announced32.toNat else 0) maxSize hle
    have hpos := List.length_pos_of_ne_nil hne
    have hhigh := x.announced32_le h8
    have hall : bs.length ≤ y'.rest.length := by
      rw [(hm.of_length h.ok h8).2.2, h.rest, counted, List.append_assoc, List.drop_left' length_be,
        List.append_assoc, List.length_append]
      exact Nat.le_add_right _ _
    have hroom : (if alloc x.announced32.toUInt64 then x.announced32.toNat else 0) < bs.length := by
      split <;> omega
    rw [hy, if_pos (by omega)] at hret
    cases hret

/-- **When the two forms agree**, wherever the data stands: if and only if there is more of it than
    `max_size`. -/
theorem agree_iff (h : Before w d x) (hne : d.bytes ≠ []) (hlen : d.bytes.length < 2 ^ 64)
    (alloc : UInt64 → Bool) (size maxSize : UInt64) :
    Agree x d.bytes alloc size maxSize ↔ maxSize.toNat < d.bytes.length := by
  obtain ⟨tail, hat⟩ := h.at hlen
  obtain ⟨h8, hann⟩ := hat.announced hlen
  constructor
  · intro hagree
    by_contra hle
    have hfits := Nat.le_of_not_lt hle
    obtain ⟨y, z, -, hret, -⟩ := hagree.fits hfits
    exact getDataT_ne_true_of_fits hat hne hfits hret
  · intro hlt
    refine ⟨fun hle => absurd hle (Nat.not_le_of_lt hlt), fun _ => ?_⟩
    have hgt : x.announced > maxSize := by
      rw [gt_iff_lt, UInt64.lt_iff_toNat_lt, hann]
      exact hlt
    refine ⟨x.announced, ?_⟩
    rw [getDataT_eq hat.ok (by omega)]
    split
    · exact ⟨size, getDataMax_above hat.ok h8 hgt, rfl⟩
    · exact ⟨x.announced, getDataMax_above hat.ok h8 hgt, getDataMax_above hat.ok h8 hgt⟩

/-- Three bytes behind a number, of which at most two are wanted. -/
theorem agree_iff_number :
    let w := ((new Pbuf.init).writeInt32 7).1
    let x := (new ((Sized.bindata [1, 2, 3]).write w).1.b).readInt32.1
    Agree x [1, 2, 3] (fun _ => true) 0 2 ↔ UInt64.toNat 2 < 3 := by
  intro w x
  have hbefore : Before w (.bindata [1, 2, 3]) x := by
    refine ⟨(readInt32_keeps (ok_new _)).1, by decide, by decide⟩
  exact agree_iff hbefore (List.cons_ne_nil _ _) (by decide) _ 0 2

/-- A single byte, and room for eight. The second form refuses it. -/
theorem agree_fails :
    let x := new ((Sized.bindata [65]).write (new Pbuf.init)).1.b
    (x.getDataMax 8 8).2 = .ret (true, 1, [65]) ∧
      (x.getDataT (fun _ => true) 0 8).2 = .ret (false, 0, []) ∧
      ¬ Agree x [65] (fun _ => true) 0 8 := by
  intro x
  have hmax : (x.getDataMax 8 8).2 = .ret (true, 1, [65]) := by decide
  have hrefuse : (x.getDataT (fun _ => true) 0 8).2 = .ret (false, 0, []) := by decide
  refine ⟨hmax, hrefuse, fun hagree => ?_⟩
  obtain ⟨y, z, -, hret, -⟩ := hagree.fits (by decide)
  rw [hret] at hrefuse
  cases hrefuse

end Xdrbuf

end CodeSLoop
