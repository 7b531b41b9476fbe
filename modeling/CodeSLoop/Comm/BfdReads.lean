import CodeSLoop.Comm.Bfd

/-!
# What has been read comes out (`comm/bfd.cc`, `common/rdbuf.hh`)

`read_some` and its kin read with a part of the buffer taken, and then a reservation asks for
`len_ + sz` bytes where it needs `start_ + len_ + sz`. In the preallocated area, which is larger
than what was asked for, the part may still be inside; on the heap only as much of it is as
`start_` leaves. And `can_read` puts the descriptor to an `fd_set` without a look whether there is a
place for it. `Roomy` says when the loop keeps to what there really is, and `reads_back_when` that in
a run of such calls what is handed out is what came in.
-/

namespace CodeSLoop

open Memory Lts

namespace Bfd

/-- What there is to get in a turn. -/
def Offer.waiting : Offer → List UInt8
  | .data c cs => c :: cs
  | .selectFailed | .unready | .closed | .failed => []

/-- How much there is to get in turn `i`. -/
def waits (ts : List Turn) (i : Nat) : Nat := (ts[i]?.elim [] fun t => t.offer.waiting).length

/-- There is room for what comes in. Nothing has been taken from the front; or what is
    waiting leaves room in the preallocated area, or fills it, finds room for twice as much (not
    counting what was taken), and no more comes; or the request is cut down to what the limit
    leaves; or the bytes that were taken would fit in as well. -/
def Fits (b : Bfd) (ts : List Turn) : Prop :=
  b.fd ≤ 0 ∨ b.buf.start = 0 ∨
    if b.buf.buf.heap = none ∧ b.buf.buf.size < 512 then
      waits ts 0 < 512 - b.buf.buf.size.toNat ∨
        b.buf.len.toNat + 3 * (512 - b.buf.buf.size.toNat) ≤ 512 ∧ waits ts 1 = 0
    else
      262144 < b.buf.start.toNat + b.buf.len.toNat + (readAmount b.buf).toNat ∨
        b.buf.start.toNat + waits ts 0 ≤ (readAmount b.buf).toNat

instance (b : Bfd) (ts : List Turn) : Decidable (b.Fits ts) := by
  unfold Fits
  infer_instance

/-- `internal_read` keeps to its storage. The descriptor has a place in the `fd_set`, unless the
    buffer is full and nobody asks for it; and there is room for what comes in. -/
def Roomy (b : Bfd) (ts : List Turn) : Prop :=
  (b.fd < fdSetsize ∨ b.buf.start.toNat + b.buf.len.toNat = 262144) ∧ b.Fits ts

instance (b : Bfd) (ts : List Turn) : Decidable (b.Roomy ts) := by
  unfold Roomy
  infer_instance

/-- The calls: `read_some`, `recv_some` and `recvfrom_some`; `read`, `recv` and `recvfrom`;
    `read_buf`; and what sets `fd_` (`init`, `close`). With what came in, and what was handed
    out. -/
inductive Use
  | readSome (ts : List Turn) (got : List UInt8)
  | recv (sz : UInt64) (ts : List Turn) (got bs : List UInt8)
  | readBuf (sz : UInt64) (bs : List UInt8)
  | fd (fd : Int)

/-- What came from the descriptor. -/
def Use.got : Use → List UInt8
  | .readSome _ got => got
  | .recv _ _ got _ => got
  | .readBuf _ _ | .fd _ => []

/-- What was handed out. -/
def Use.handed : Use → List UInt8
  | .readSome _ _ | .fd _ => []
  | .recv _ _ _ bs => bs
  | .readBuf _ bs => bs

def Step (b : Bfd) (u : Use) (b' : Bfd) : Prop :=
  match u with
  | .readSome ts got => b.internalRead ts = some (b', got)
  | .recv sz ts got bs => b.recv sz ts = some (b', bs) ∧ got = b.fresh ts
  | .readBuf sz bs => b.readBuf sz = some (b', bs)
  | .fd fd => b' = { b with fd := fd }

/-- A call that reads finds room. `recv` reads when there is nothing in the buffer. -/
def UseRoomy (b : Bfd) (u : Use) (_ : Bfd) : Prop :=
  match u with
  | .readSome ts _ => b.Roomy ts
  | .recv .. => 0 < b.size ∨ b.fd < fdSetsize
  | .readBuf .. | .fd _ => True

instance (b : Bfd) (u : Use) (b' : Bfd) : Decidable (UseRoomy b u b') :=
  match u with
  | .readSome ts _ => inferInstanceAs (Decidable (b.Roomy ts))
  | .recv .. => inferInstanceAs (Decidable (0 < b.size ∨ b.fd < fdSetsize))
  | .readBuf .. | .fd _ => inferInstanceAs (Decidable True)

/-! ## One reservation -/

/-- Between the calls, as long as there was room. -/
structure Kept (w : Buf) : Prop where
  within : w.Within
  start : w.len = 0 → w.start = 0
  size_le : w.buf.size.toNat ≤ 262144

variable {w w₁ : Buf} {m : Malloc} {n : UInt64} {rr : Part} {k : Nat} {bs : List UInt8}

theorem Kept.held (h : Kept w) : w.Held :=
  ⟨h.within.le_max, Nat.le_trans h.within.le_size w.buf.size_le_length, fun _ => h.within.le_size⟩

theorem Kept.tidy (h : Kept w) : Tidy w := ⟨h.held, h.start, h.size_le⟩

theorem Whole.kept (h : Whole w) : Kept w :=
  ⟨⟨h.held.le_max, h.held.le_size (.inl h.start)⟩, fun _ => h.start, h.size_le⟩

theorem kept_init (fd : Int) {area : Block} (h : area.bytes.length = 512) : Kept (init fd area h).buf :=
  ⟨WorkBuffer.within_init h, fun _ => rfl, by simp [init, WorkBuffer.init, Tbuf.init]⟩

/-- A part behind the stored bytes, of which there is storage for `k`. -/
structure Opened (w w₁ : Buf) (rr : Part) (k : Nat) : Prop where
  start : w₁.start = w.start
  len : w₁.len.toNat = w.len.toNat + rr.bytes.toNat
  data : rr.data = w₁.buf.data + (w.start + w.len)
  failed : rr.failed = false
  unread : w₁.buf.block.read w.start.toNat w.len.toNat = w.unread
  le_max : w.start.toNat + w₁.len.toNat ≤ 262144
  size_le : w₁.buf.size.toNat ≤ 262144
  fits : w.start.toNat + w.len.toNat + k ≤ w₁.buf.size.toNat ∨
    w₁.buf.heap = none ∧ w.start.toNat + w.len.toNat + k ≤ 512

/-- What fits in is inside the storage, and `allocate` leaves it there. -/
theorem le_length_of_fits {t : Tbuf 512} (h : n.toNat ≤ t.size.toNat ∨ t.heap = none ∧ n.toNat ≤ 512) :
    n.toNat ≤ t.block.bytes.length ∧ ¬ t.NeedsMalloc n := by
  rcases h with hle | ⟨hheap, hle⟩
  · exact ⟨Nat.le_trans hle t.size_le_length,
      Tbuf.not_needsMalloc_of_le (UInt64.le_iff_toNat_le.mpr hle)⟩
  · refine ⟨?_, fun hn => hn.2.2 ⟨UInt64.le_iff_toNat_le.mpr hle, hheap⟩⟩
    rw [Tbuf.block, hheap, Option.getD_none, t.length_preallocated]
    exact hle

theorem Opened.le_length (h : Opened w w₁ rr k) :
    w.start.toNat + w.len.toNat + k ≤ w₁.buf.block.bytes.length := by
  rcases h.fits with hle | ⟨hheap, hle⟩
  · exact Nat.le_trans hle w₁.buf.size_le_length
  · rw [Tbuf.block, hheap, Option.getD_none, w₁.buf.length_preallocated]
    exact hle

/-- Bytes that fit go behind the stored ones, and nothing else of the buffer changes. -/
theorem Opened.store (h : Opened w w₁ rr k) (hle : w.start.toNat + w.len.toNat ≤ 262144)
    (hbs : bs.length ≤ k) :
    ∃ buf, w₁.buf.store rr.data bs = some buf ∧ buf.size = w₁.buf.size ∧ buf.data = w₁.buf.data ∧
      (buf.heap = none ↔ w₁.buf.heap = none) ∧
      buf.block.read w.start.toNat (w.len.toNat + bs.length) = w.unread ++ bs := by
  have hsum : (w.start + w.len).toNat = w.start.toNat + w.len.toNat := WorkBuffer.toNat_start_add_len hle
  have hlen := h.le_length
  obtain ⟨buf, hstore, hsize, hdata, hheap, -, hself, hbefore⟩ :=
    Tbuf.store_data_add (t := w₁.buf)
      (show (w.start + w.len).toNat + bs.length ≤ w₁.buf.block.bytes.length by omega)
  refine ⟨buf, by rw [h.data, hstore], hsize, hdata, hheap, ?_⟩
  have hfront : buf.block.read w.start.toNat w.len.toNat = w.unread := by
    rw [hbefore _ _ (Nat.le_of_eq hsum.symm), h.unread]
  rw [hsum] at hself
  rw [Block.read_add, hfront, hself]

/-- Giving back what was not filled of a part, when what stays fits in. -/
theorem kept_adjust {k : UInt64} (hmax : w.start.toNat + w.len.toNat ≤ 262144)
    (hdata : rr.data = w.buf.data + (w.start + w.len - rr.bytes)) (hfailed : rr.failed = false)
    (hle : rr.bytes.toNat < w.len.toNat) (hk : k.toNat < rr.bytes.toNat)
    (hfits : w.start.toNat + (w.len.toNat - rr.bytes.toNat + k.toNat) ≤ w.buf.size.toNat ∨
      w.buf.heap = none ∧ w.start.toNat + (w.len.toNat - rr.bytes.toNat + k.toNat) ≤ 512) :
    Kept (w.adjust m rr k).1 ∧ (w.adjust m rr k).1.unread =
      w.buf.block.read w.start.toNat (w.len.toNat - rr.bytes.toNat + k.toNat) := by
  have hsum : (w.start + w.len).toNat = w.start.toNat + w.len.toNat :=
    WorkBuffer.toNat_start_add_len hmax
  have hoff : (w.start + w.len - rr.bytes).toNat =
      w.start.toNat + w.len.toNat - rr.bytes.toNat := by
    rw [UInt64.toNat_sub_of_le _ _ (UInt64.le_iff_toNat_le.mpr (by omega)), hsum]
  have hsub : (rr.bytes - k).toNat = rr.bytes.toNat - k.toNat :=
    UInt64.toNat_sub_of_le _ _ (UInt64.le_iff_toNat_le.mpr (Nat.le_of_lt hk))
  have hnew : (w.len - (rr.bytes - k)).toNat = w.len.toNat - rr.bytes.toNat + k.toNat := by
    rw [UInt64.toNat_sub_of_le _ _ (UInt64.le_iff_toNat_le.mpr (by omega)), hsub]
    omega
  have hkeep : (w.len - (rr.bytes - k) + w.start).toNat =
      w.start.toNat + (w.len.toNat - rr.bytes.toNat + k.toNat) := by
    rw [UInt64.toNat_add, hnew]
    omega
  rw [← hkeep] at hfits
  obtain ⟨hlength, hn⟩ := le_length_of_fits hfits
  have hne : rr.data ≠ 0 := by
    rw [hdata]
    exact Tbuf.data_add_ne_zero (by omega)
  have hback : rr.data - w.buf.data = w.start + w.len - rr.bytes := by
    rw [hdata, UInt64.add_comm, UInt64.add_sub_cancel]
  -- the part stands at the end of what is stored, which is what `adjust` checks
  have hok : ¬ (rr.bytes < k ∨ rr.data = 0 ∨ rr.failed = true ∨ w.len < rr.bytes ∨
      rr.data - w.buf.data ≠ w.start + w.len - rr.bytes) := by
    simp only [UInt64.lt_iff_toNat_lt, hback, hne, hfailed]
    simp only [Bool.false_eq_true, ne_eq, not_true, or_false, false_or]
    omega
  have h0 : w.len - (rr.bytes - k) ≠ 0 := by
    intro hz
    rw [hz, UInt64.toNat_zero] at hnew
    omega
  have hpos : 0 < rr.bytes - k := by
    rw [UInt64.lt_iff_toNat_lt, hsub, UInt64.toNat_zero]
    omega
  obtain ⟨hs, hblock, -, -⟩ := Tbuf.allocate_inplace (m := m)
    (fun hz => by rw [hz, UInt64.toNat_zero] at hkeep; omega) hn
  unfold WorkBuffer.adjust
  dsimp only
  rw [if_neg hok, if_neg h0, if_pos hpos]
  refine ⟨⟨⟨?_, ?_⟩, fun hz => absurd hz h0, ?_⟩, ?_⟩
  · dsimp only
    rw [hnew]
    have : (262144 : UInt64).toNat = 262144 := rfl
    omega
  · dsimp only
    rw [hs, hkeep, hnew]
  · dsimp only
    rw [hs, hkeep]
    omega
  · rw [WorkBuffer.unread, ← hnew]
    dsimp only
    rw [hblock]

/-- A part that is filled in part, by `bs`. -/
theorem Opened.keep (h : Opened w w₁ rr bs.length) (hpos : 0 < w.len.toNat)
    (hlt : bs.length < rr.bytes.toNat) :
    ∃ buf, w₁.buf.store rr.data bs = some buf ∧
      Kept (({ w₁ with buf := buf } : Buf).adjust m rr bs.length.toUInt64).1 ∧
      (({ w₁ with buf := buf } : Buf).adjust m rr bs.length.toUInt64).1.unread = w.unread ++ bs := by
  have hlen := h.len
  have hmax := h.le_max
  have hst : w₁.start.toNat = w.start.toNat := congrArg UInt64.toNat h.start
  have hk : bs.length.toUInt64.toNat = bs.length := by
    have := rr.bytes.toNat_lt
    exact Nat.mod_eq_of_lt (by omega)
  obtain ⟨buf, hstore, hsize, hdata, hheap, hread⟩ := h.store (by omega) (Nat.le_refl _)
  have hoff : w₁.start + w₁.len - rr.bytes = w.start + w.len := by
    apply UInt64.toNat_inj.mp
    rw [UInt64.toNat_sub_of_le _ _ (UInt64.le_iff_toNat_le.mpr (by rw [UInt64.toNat_add]; omega)),
      UInt64.toNat_add, UInt64.toNat_add]
    omega
  have hkept := @kept_adjust { w₁ with buf := buf } m rr bs.length.toUInt64 (by dsimp only; omega)
    (by dsimp only; rw [hoff, hdata, h.data]) h.failed
    (by dsimp only; omega) (by omega)
    (by
      dsimp only
      rw [hst, hsize, hheap, hk, hlen, Nat.add_sub_cancel, ← Nat.add_assoc]
      exact h.fits)
  refine ⟨buf, hstore, hkept.1, ?_⟩
  rw [hkept.2]
  dsimp only
  rw [hst, hk, hlen, Nat.add_sub_cancel, hread]

/-! ## What a reservation opens -/

theorem reserve_full (hle : w.start.toNat + w.len.toNat + n.toNat ≤ 262144) (h0 : n ≠ 0) :
    w.reserve m n = ({ buf := (w.buf.allocate m (w.len + n)).1, start := w.start, len := w.len + n },
      { Part.reset with
        data := (w.buf.allocate m (w.len + n)).2 + w.start + w.len, bytes := n }) := by
  have hfull : ¬ w.start + w.len + n > 262144 := by
    rw [GT.gt, UInt64.lt_iff_toNat_lt, UInt64.toNat_add, UInt64.toNat_add]
    have : (262144 : UInt64).toNat = 262144 := rfl
    omega
  unfold WorkBuffer.reserve
  dsimp only
  rw [if_neg hfull, if_neg h0]

/-- In the preallocated area: the request is met in place, and the part is inside as far as the area
    goes. -/
theorem opened_static (hheap : w.buf.heap = none) (h0 : n ≠ 0) (hin : w.len.toNat + n.toNat ≤ 512)
    (hk : w.start.toNat + w.len.toNat + k ≤ 512) :
    (w.reserve m n).2.bytes = n ∧ (w.reserve m n).1.buf.heap = none ∧
      Opened w (w.reserve m n).1 (w.reserve m n).2 k := by
  have hn : 0 < n.toNat := Nat.pos_of_ne_zero fun hz => h0 (UInt64.toNat_inj.mp hz)
  have hadd : (w.len + n).toNat = w.len.toNat + n.toNat := by
    rw [UInt64.toNat_add]
    omega
  obtain ⟨hs, hblock, hh, hptr⟩ := @Tbuf.allocate_inplace _ w.buf m (w.len + n)
    (fun hz => by rw [hz, UInt64.toNat_zero] at hadd; omega)
    (fun hneed => hneed.2.2
      ⟨UInt64.le_iff_toNat_le.mpr (by rw [hadd]; exact hin), hheap⟩)
  have hdata : (w.buf.allocate m (w.len + n)).1.data = w.buf.data := by
    unfold Tbuf.data
    rw [hblock]
  rw [reserve_full (by omega) h0]
  refine ⟨rfl, hh.trans hheap, rfl, hadd, ?_, rfl, ?_, ?_, ?_, Or.inr ⟨hh.trans hheap, hk⟩⟩
  · dsimp only
    rw [hptr, hdata, UInt64.add_assoc]
  · dsimp only
    rw [hblock]
    rfl
  · dsimp only
    omega
  · dsimp only
    rw [hs, hadd]
    omega

/-- In any storage: as much of the part is inside as is left when what was taken is counted. -/
theorem opened_slack (h : Kept w) (hm : ∀ n : UInt64, n ≤ 262144 → (m.answer n).isSome) (h0 : n ≠ 0)
    (hle : w.start.toNat + w.len.toNat + n.toNat ≤ 262144) (hk : w.start.toNat + k ≤ n.toNat) :
    (w.reserve m n).2.bytes = n ∧ Opened w (w.reserve m n).1 (w.reserve m n).2 k := by
  have hn : 0 < n.toNat := Nat.pos_of_ne_zero fun hz => h0 (UInt64.toNat_inj.mp hz)
  have hmax : (262144 : UInt64).toNat = 262144 := rfl
  have hadd : (w.len + n).toNat = w.len.toNat + n.toNat := by
    rw [UInt64.toNat_add]
    omega
  have hne : w.len + n ≠ 0 := by
    intro hz
    rw [hz, UInt64.toNat_zero] at hadd
    omega
  have hsome : (m.answer (w.len + n)).isSome :=
    hm _ (UInt64.le_iff_toNat_le.mpr (by omega))
  obtain ⟨hs, hptr, -⟩ := @Tbuf.allocate_met _ w.buf m (w.len + n) hne fun _ => hsome
  rw [reserve_full hle h0]
  refine ⟨rfl, rfl, hadd, ?_, rfl, ?_, ?_, ?_, Or.inl ?_⟩
  · dsimp only
    rw [hptr, UInt64.add_assoc]
  · exact Tbuf.read_allocate hne fun _ => ⟨hsome, h.within.le_size⟩
  · dsimp only
    omega
  · dsimp only
    rw [hs, hadd]
    omega
  · dsimp only
    rw [hs, hadd]
    omega

/-- Up to the limit: the request is cut down, and all of the part is inside. -/
theorem opened_cut (h : Kept w) (hm : ∀ n : UInt64, n ≤ 262144 → (m.answer n).isSome)
    (hgt : w.start + w.len + n > 262144) (hroom : w.start + w.len < 262144) :
    (w.reserve m n).2.bytes.toNat = 262144 - w.start.toNat - w.len.toNat ∧
      (w.reserve m n).1.buf.size = 262144 ∧
      Opened w (w.reserve m n).1 (w.reserve m n).2 (w.reserve m n).2.bytes.toNat := by
  have hle := h.within.le_max
  have hmax : (262144 : UInt64).toNat = 262144 := rfl
  have hsome : (m.answer 262144).isSome := hm 262144 (UInt64.le_refl _)
  have hr := WorkBuffer.reserved_of_cut h.held hgt hroom fun _ => ⟨hsome, h.within.le_size⟩
  obtain ⟨hs, -, -⟩ := @Tbuf.allocate_met _ w.buf m 262144 (by simp) fun _ => hsome
  have hbytes : (w.reserve m n).2.bytes = w.nFree := by
    unfold WorkBuffer.reserve
    dsimp only
    rw [if_pos hgt, if_pos hroom]
  have hsize : (w.reserve m n).1.buf.size = 262144 := by
    unfold WorkBuffer.reserve
    dsimp only
    rw [if_pos hgt, if_pos hroom]
    exact hs
  have hfree : (w.reserve m n).2.bytes.toNat = 262144 - w.start.toNat - w.len.toNat := by
    rw [hbytes, WorkBuffer.toNat_nFree hle, hmax]
  have hlen := hr.len
  refine ⟨hfree, hsize, hr.start, hlen, hr.data, hr.failed, hr.unread, ?_, ?_, Or.inl ?_⟩
  · omega
  · rw [hsize]
    exact Nat.le_refl _
  · rw [hsize, hfree]
    omega

/-! ## One turn -/

variable {b : Bfd} {amount : UInt64} {got : List UInt8} {t : Turn} {ts : List Turn}

/-- A turn that does not fill its part ends the loop. -/
theorem readLoop_short (got : List UInt8) (ts : List Turn) (hfd : b.fd < fdSetsize)
    (hpos : 0 < b.buf.len.toNat)
    (ho : Opened b.buf (b.buf.reserve t.malloc amount).1 (b.buf.reserve t.malloc amount).2
      t.offer.waiting.length)
    (hlt : t.offer.waiting.length < (b.buf.reserve t.malloc amount).2.bytes.toNat) :
    ∃ b', readLoop b amount got (t :: ts) = some (b', got ++ t.offer.waiting) ∧ Kept b'.buf ∧
      b'.buf.unread = b.buf.unread ++ t.offer.waiting := by
  have h0 : (b.buf.reserve t.malloc amount).2.bytes ≠ 0 := by
    intro hz
    rw [hz] at hlt
    cases hlt
  obtain ⟨buf, hstore, hkept, hun⟩ := ho.keep (m := t.malloc) hpos hlt
  simp only [readLoop, Rdbuf.reserve, Rdbuf.adjust, Bool.false_eq_true, false_and, if_false, h0,
    not_le_of_gt hfd]
  generalize b.buf.reserve t.malloc amount = r at hstore hkept hun hlt
  cases hoffer : t.offer with
  | unready | closed | selectFailed | failed =>
    rw [hoffer] at hstore hkept hun
    -- nothing is written, and all of the part is given back
    have hbuf : buf = r.1.buf := (Option.some.inj hstore).symm
    subst hbuf
    rw [Offer.waiting, List.append_nil]
    exact ⟨_, rfl, hkept, hun⟩
  | data c cs =>
    rw [hoffer] at hstore hkept hun hlt
    simp only [Offer.waiting] at hstore hkept hun hlt ⊢
    simp only [List.take_of_length_le (Nat.le_of_lt hlt), hstore, if_neg (Nat.ne_of_lt hlt)]
    exact ⟨_, rfl, hkept, hun⟩

/-- A turn that fills its part goes on behind it. -/
theorem readLoop_full (got : List UInt8) (ts : List Turn) (hfd : b.fd < fdSetsize)
    (hle : b.buf.start.toNat + b.buf.len.toNat ≤ 262144)
    (h0 : (b.buf.reserve t.malloc amount).2.bytes ≠ 0)
    (ho : Opened b.buf (b.buf.reserve t.malloc amount).1 (b.buf.reserve t.malloc amount).2
      (b.buf.reserve t.malloc amount).2.bytes.toNat)
    (hge : (b.buf.reserve t.malloc amount).2.bytes.toNat ≤ t.offer.waiting.length) :
    ∃ buf bs, readLoop b amount got (t :: ts) =
        readLoop { b with buf := { (b.buf.reserve t.malloc amount).1 with buf := buf } } (amount * 2)
          (got ++ bs) ts ∧
      buf.size = (b.buf.reserve t.malloc amount).1.buf.size ∧
      (buf.heap = none ↔ (b.buf.reserve t.malloc amount).1.buf.heap = none) ∧
      ({ (b.buf.reserve t.malloc amount).1 with buf := buf } : Buf).unread = b.buf.unread ++ bs := by
  have hlen : (t.offer.waiting.take (b.buf.reserve t.malloc amount).2.bytes.toNat).length =
      (b.buf.reserve t.malloc amount).2.bytes.toNat := List.length_take_of_le hge
  obtain ⟨buf, hstore, hsize, -, hheap, hread⟩ := ho.store hle (Nat.le_of_eq hlen)
  refine ⟨buf, t.offer.waiting.take (b.buf.reserve t.malloc amount).2.bytes.toNat, ?_, hsize, hheap, ?_⟩
  · simp only [readLoop, Rdbuf.reserve, Rdbuf.adjust, Bool.false_eq_true, false_and, if_false, h0,
      not_le_of_gt hfd]
    cases hoffer : t.offer with
    | unready | closed | selectFailed | failed =>
      exfalso
      rw [hoffer] at hge
      exact h0 (UInt64.toNat_inj.mp (Nat.le_zero.mp hge))
    | data c cs =>
      rw [hoffer] at hstore hlen
      simp only [Offer.waiting] at hstore hlen ⊢
      simp only [hstore, if_pos hlen]
  · rw [WorkBuffer.unread, ← hread, hlen, ← ho.len, ← ho.start]

/-- At the limit there is nothing to reserve, and the loop ends. -/
theorem readLoop_limit (hmax : b.buf.start.toNat + b.buf.len.toNat = 262144)
    (hn : amount.toNat ≤ 1048576) (h0 : amount ≠ 0) :
    readLoop b amount got (t :: ts) = some (b, got) := by
  have hpos : 0 < amount.toNat := Nat.pos_of_ne_zero fun hz => h0 (UInt64.toNat_inj.mp hz)
  have hsum : (b.buf.start + b.buf.len).toNat = 262144 := by
    rw [UInt64.toNat_add, hmax]
  have hc : (262144 : UInt64).toNat = 262144 := rfl
  have hgt : b.buf.start + b.buf.len + amount > 262144 := by
    rw [GT.gt, UInt64.lt_iff_toNat_lt, UInt64.toNat_add, hsum]
    omega
  have hroom : ¬ b.buf.start + b.buf.len < 262144 := by
    rw [UInt64.lt_iff_toNat_lt, hsum]
    omega
  have hres : b.buf.reserve t.malloc amount = (b.buf, { Part.reset with failed := true }) := by
    unfold WorkBuffer.reserve
    dsimp only
    rw [if_pos hgt, if_neg hroom]
  simp only [readLoop, Rdbuf.reserve, hres, Part.reset, if_true]

/-! ## The loop, with a part of the buffer taken -/

/-- The loop ends when it may take `turns` of them, and what it gets is behind what was there. -/
def Gets (b : Bfd) (amount : UInt64) (ts : List Turn) (turns : Nat) : Prop :=
  ∀ got, (turns < ts.length → (readLoop b amount got ts).isSome) ∧
    ∀ b' got', readLoop b amount got ts = some (b', got') →
      ∃ bs, got' = got ++ bs ∧ Kept b'.buf ∧ b'.buf.unread = b.buf.unread ++ bs

theorem gets_nil {turns : Nat} : Gets b amount [] turns := by
  intro got
  refine ⟨fun h => absurd h (Nat.not_lt_zero _), ?_⟩
  intro b' got' h
  cases h

theorem gets_short {turns : Nat} (hfd : b.fd < fdSetsize) (hpos : 0 < b.buf.len.toNat)
    (ho : Opened b.buf (b.buf.reserve t.malloc amount).1 (b.buf.reserve t.malloc amount).2
      t.offer.waiting.length)
    (hlt : t.offer.waiting.length < (b.buf.reserve t.malloc amount).2.bytes.toNat) :
    Gets b amount (t :: ts) turns := by
  intro got
  obtain ⟨b₁, hl, hkept, hun⟩ := readLoop_short got ts hfd hpos ho hlt
  rw [hl]
  refine ⟨fun _ => rfl, ?_⟩
  intro b' got' he
  cases he
  exact ⟨_, rfl, hkept, hun⟩

/-- A full turn, and the rest. -/
theorem gets_full (turns : Nat) (hfd : b.fd < fdSetsize)
    (hle : b.buf.start.toNat + b.buf.len.toNat ≤ 262144)
    (h0 : (b.buf.reserve t.malloc amount).2.bytes ≠ 0)
    (ho : Opened b.buf (b.buf.reserve t.malloc amount).1 (b.buf.reserve t.malloc amount).2
      (b.buf.reserve t.malloc amount).2.bytes.toNat)
    (hge : (b.buf.reserve t.malloc amount).2.bytes.toNat ≤ t.offer.waiting.length)
    (hrest : ∀ buf : Tbuf 512, buf.size = (b.buf.reserve t.malloc amount).1.buf.size →
      (buf.heap = none ↔ (b.buf.reserve t.malloc amount).1.buf.heap = none) →
      Gets { b with buf := { (b.buf.reserve t.malloc amount).1 with buf := buf } } (amount * 2) ts
        turns) :
    Gets b amount (t :: ts) (turns + 1) := by
  intro got
  obtain ⟨buf, bs, hl, hsize, hheap, hun⟩ := readLoop_full got ts hfd hle h0 ho hge
  obtain ⟨hsome, hadds⟩ := hrest buf hsize hheap (got ++ bs)
  rw [hl]
  refine ⟨fun hlt => hsome (Nat.lt_of_succ_lt_succ hlt), ?_⟩
  intro b' got' he
  obtain ⟨cs, hgot, hkept, hun'⟩ := hadds b' got' he
  refine ⟨bs ++ cs, by rw [hgot, List.append_assoc], hkept, ?_⟩
  rw [hun', hun, List.append_assoc]

theorem toNat_readAmount (h : w.buf.size < 512) :
    (readAmount w).toNat = 512 - w.buf.size.toNat := by
  unfold readAmount
  rw [if_pos h, UInt64.toNat_sub_of_le _ _ (UInt64.le_of_lt h)]
  rfl

theorem readAmount_pos (h : w.buf.size.toNat ≤ 262144) : 0 < (readAmount w).toNat := by
  by_cases hlt : w.buf.size < 512
  · rw [toNat_readAmount hlt]
    have := UInt64.lt_iff_toNat_lt.mp hlt
    have hc : (512 : UInt64).toNat = 512 := rfl
    omega
  · unfold readAmount
    rw [if_neg hlt]
    simp only [UInt64.toNat_mul, UInt64.toNat_add, UInt64.toNat_div, UInt64.reduceToNat]
    omega

theorem toNat_double (h : n.toNat ≤ 524288) : (n * 2).toNat = n.toNat * 2 := by
  rw [UInt64.toNat_mul]
  exact Nat.mod_eq_of_lt (by simp; omega)

theorem ne_zero_of_toNat (h : 0 < n.toNat) : n ≠ 0 := by
  intro hz
  rw [hz] at h
  cases h

/-- In the preallocated area. -/
theorem gets_static (h : Kept b.buf) (hfd : b.fd < fdSetsize) (hpos : 0 < b.buf.len.toNat)
    (hheap : b.buf.buf.heap = none) (hlt : b.buf.buf.size < 512)
    (hroom : waits ts 0 < 512 - b.buf.buf.size.toNat ∨
      b.buf.len.toNat + 3 * (512 - b.buf.buf.size.toNat) ≤ 512 ∧ waits ts 1 = 0) :
    Gets b (readAmount b.buf) ts 1 := by
  have hsize := h.within.le_size
  have hn := toNat_readAmount hlt
  have h0 := ne_zero_of_toNat (readAmount_pos h.size_le)
  have hdouble := toNat_double (readAmount_le h.size_le)
  have h512 : b.buf.buf.size.toNat < 512 := UInt64.lt_iff_toNat_lt.mp hlt
  cases ts with
  | nil => exact gets_nil
  | cons t ts =>
    have hw : waits (t :: ts) 0 = t.offer.waiting.length := rfl
    rw [hw, ← hn] at hroom
    by_cases hshort : t.offer.waiting.length < (readAmount b.buf).toNat
    · obtain ⟨hbytes, -, ho⟩ := opened_static (m := t.malloc) (n := readAmount b.buf)
        (k := t.offer.waiting.length) hheap h0 (by omega) (by omega)
      exact gets_short hfd hpos ho (by rw [hbytes]; exact hshort)
    · -- the area is filled; twice as much is met in place too, and all of it given back
      obtain ⟨hin, hnone⟩ := hroom.resolve_left hshort
      obtain ⟨hbytes, hheap₁, ho⟩ := opened_static (m := t.malloc) (n := readAmount b.buf)
        (k := (readAmount b.buf).toNat) hheap h0 (by omega) (by omega)
      have hlen := ho.len
      have hst := congrArg UInt64.toNat ho.start
      rw [hbytes] at hlen
      refine gets_full 0 hfd (by omega) (by rw [hbytes]; exact h0) (by rw [hbytes]; exact ho)
        (by rw [hbytes]; omega) ?_
      intro buf _ hstatic
      cases ts with
      | nil => exact gets_nil
      | cons t₂ ts =>
        have hw₂ : t₂.offer.waiting.length = 0 := hnone
        obtain ⟨hbytes₂, -, ho₂⟩ := @opened_static
          { (b.buf.reserve t.malloc (readAmount b.buf)).1 with buf := buf } t₂.malloc
          (readAmount b.buf * 2) t₂.offer.waiting.length (hstatic.mpr hheap₁)
          (ne_zero_of_toNat (by omega)) (by dsimp only; omega) (by dsimp only; omega)
        exact gets_short hfd (by dsimp only; omega) ho₂ (by rw [hbytes₂]; omega)

/-- At the limit. -/
theorem gets_limit (turns : Nat) (h : Kept b.buf) (hmax : b.buf.start.toNat + b.buf.len.toNat = 262144)
    (hn : amount.toNat ≤ 1048576) (h0 : amount ≠ 0) : Gets b amount ts turns := by
  cases ts with
  | nil => exact gets_nil
  | cons t ts =>
    intro got
    rw [readLoop_limit hmax hn h0]
    refine ⟨fun _ => rfl, ?_⟩
    intro b' got' he
    cases he
    exact ⟨[], (List.append_nil _).symm, h, (List.append_nil _).symm⟩

/-- With less room up to the limit than is asked for. -/
theorem gets_cut (h : Kept b.buf) (hfd : b.fd < fdSetsize) (hpos : 0 < b.buf.len.toNat)
    (hgt : 262144 < b.buf.start.toNat + b.buf.len.toNat + (readAmount b.buf).toNat)
    (hroom : b.buf.start.toNat + b.buf.len.toNat < 262144) :
    Gets b (readAmount b.buf) (t :: ts) 1 := by
  have hle := readAmount_le h.size_le
  have hdouble := toNat_double hle
  have hc : (262144 : UInt64).toNat = 262144 := rfl
  obtain ⟨hfree, hsize, ho⟩ := opened_cut (n := readAmount b.buf) h t.ample
    (by rw [GT.gt, UInt64.lt_iff_toNat_lt, UInt64.toNat_add, UInt64.toNat_add]; omega)
    (by rw [UInt64.lt_iff_toNat_lt, UInt64.toNat_add]; omega)
  by_cases hshort : t.offer.waiting.length <
      (b.buf.reserve t.malloc (readAmount b.buf)).2.bytes.toNat
  · refine gets_short hfd hpos { ho with fits := ?_ } hshort
    exact ho.fits.imp (fun hf => by omega) (fun hf => ⟨hf.1, by omega⟩)
  · -- the limit is reached: the next turn has nothing to reserve
    have hlen := ho.len
    have hst := congrArg UInt64.toNat ho.start
    refine gets_full 0 hfd (Nat.le_of_lt hroom) (ne_zero_of_toNat (by omega)) ho (by omega) ?_
    intro buf hbuf _
    refine gets_limit 0 ⟨⟨?_, ?_⟩, ?_, ?_⟩ (by dsimp only; omega) (by omega)
      (ne_zero_of_toNat (by omega))
    · dsimp only
      omega
    · dsimp only
      rw [hbuf, hsize]
      omega
    · intro hz
      have hz := congrArg UInt64.toNat hz
      rw [UInt64.toNat_zero] at hz
      dsimp only at hz
      omega
    · dsimp only
      rw [hbuf, hsize]
      exact Nat.le_refl _

/-- Anywhere else. -/
theorem gets_else (h : Kept b.buf) (hfd : b.fd < fdSetsize) (hst : b.buf.start ≠ 0)
    (hroom : 262144 < b.buf.start.toNat + b.buf.len.toNat + (readAmount b.buf).toNat ∨
      b.buf.start.toNat + waits ts 0 ≤ (readAmount b.buf).toNat) :
    Gets b (readAmount b.buf) ts 1 := by
  have hmax : b.buf.start.toNat + b.buf.len.toNat ≤ 262144 := h.within.le_max
  have hstart : 0 < b.buf.start.toNat := Nat.pos_of_ne_zero fun hz => hst (UInt64.toNat_inj.mp hz)
  have hpos : 0 < b.buf.len.toNat :=
    Nat.pos_of_ne_zero fun hz => hst (h.start (UInt64.toNat_inj.mp hz))
  have h0 := ne_zero_of_toNat (readAmount_pos h.size_le)
  have hle := readAmount_le h.size_le
  cases ts with
  | nil => exact gets_nil
  | cons t ts =>
    have hw : waits (t :: ts) 0 = t.offer.waiting.length := rfl
    by_cases hgt : 262144 < b.buf.start.toNat + b.buf.len.toNat + (readAmount b.buf).toNat
    · by_cases hfull : b.buf.start.toNat + b.buf.len.toNat = 262144
      · exact gets_limit 1 h hfull (by omega) h0
      · exact gets_cut h hfd hpos hgt (Nat.lt_of_le_of_ne hmax hfull)
    · -- what is waiting does not fill the part, as something has been taken from the front
      rw [hw] at hroom
      obtain ⟨hbytes, ho⟩ := opened_slack (k := t.offer.waiting.length) h t.ample h0 (by omega)
        (hroom.resolve_left hgt)
      exact gets_short hfd hpos ho (by rw [hbytes]; omega)

/-- A turn with nothing in it ends the loop: what may follow is not looked at. -/
theorem readLoop_append {us : List Turn} (hstop : ∃ t ∈ ts, t.offer.waiting = []) :
    readLoop b amount got (ts ++ us) = readLoop b amount got ts := by
  induction ts generalizing b amount got with
  | nil =>
    obtain ⟨t, ht, -⟩ := hstop
    cases ht
  | cons t ts ih =>
    simp only [List.cons_append, readLoop]
    cases hoffer : t.offer with
    | unready | closed | selectFailed | failed => rfl
    | data c cs =>
      have hrest : ∃ t ∈ ts, t.offer.waiting = [] := by
        obtain ⟨t', ht, hw⟩ := hstop
        rcases List.mem_cons.mp ht with rfl | ht
        · rw [hoffer] at hw
          cases hw
        · exact ⟨t', ht, hw⟩
      simp only [ih hrest]

theorem Fits.append (us : List Turn) (hr : b.Fits ts) (hstop : ∃ t ∈ ts, t.offer.waiting = []) :
    b.Fits (ts ++ us) := by
  refine hr.imp_right (Or.imp_right fun hroom => ?_)
  obtain ⟨t', ht, hw⟩ := hstop
  cases ts with
  | nil => cases ht
  | cons t ts =>
    cases ts with
    | cons t₂ ts => exact hroom
    | nil =>
      -- the only turn has nothing, and what is added is not waited for
      have h0 : waits [t] 0 = 0 := by
        rw [List.mem_singleton] at ht
        subst ht
        exact congrArg List.length hw
      have h0' : waits ([t] ++ us) 0 = 0 := h0
      rw [h0']
      rw [h0] at hroom
      split at hroom
      · rename_i hs
        rw [if_pos hs]
        have := UInt64.lt_iff_toNat_lt.mp hs.2
        exact Or.inl (Nat.sub_pos_of_lt this)
      · rename_i hs
        rw [if_neg hs]
        exact hroom

/-! ## Calls -/

/-- **`internal_read`**, where there is room. -/
theorem internalRead_roomy (h : Kept b.buf) (hr : b.Roomy ts) :
    (262144 < ts.length → (b.internalRead ts).isSome) ∧
      ∀ b' got, b.internalRead ts = some (b', got) →
        Kept b'.buf ∧ b'.buf.unread = b.buf.unread ++ got := by
  obtain ⟨hset, hfits⟩ := hr
  by_cases hwhole : b.buf.start = 0 ∧ b.fd < fdSetsize
  · have hw : Whole b.buf := ⟨h.held, hwhole.1, h.size_le⟩
    refine ⟨internalRead_returns hw hwhole.2, ?_⟩
    intro b' got he
    obtain ⟨hw', hun⟩ := internalRead_spec hw he
    exact ⟨hw'.kept, hun⟩
  · unfold internalRead
    by_cases hfd : b.fd ≤ 0
    · rw [if_pos hfd]
      refine ⟨fun _ => rfl, ?_⟩
      intro b' got he
      cases he
      exact ⟨h, (List.append_nil _).symm⟩
    · rw [if_neg hfd]
      have hgets : Gets b (readAmount b.buf) ts 1 := by
        rcases hset with hmax | hfull
        · have hst : b.buf.start ≠ 0 := fun hst => hwhole ⟨hst, hmax⟩
          have hroom := (hfits.resolve_left hfd).resolve_left hst
          split at hroom
          · rename_i hs
            refine gets_static h hmax ?_ hs.1 hs.2 hroom
            exact Nat.pos_of_ne_zero fun hz => hst (h.start (UInt64.toNat_inj.mp hz))
          · exact gets_else h hmax hst hroom
        · have hle := readAmount_le h.size_le
          exact gets_limit 1 h hfull (by omega) (ne_zero_of_toNat (readAmount_pos h.size_le))
      obtain ⟨hsome, hadds⟩ := hgets []
      refine ⟨fun hlen => hsome (by omega), ?_⟩
      intro b' got he
      obtain ⟨bs, hgot, hkept, hun⟩ := hadds b' got he
      rw [List.nil_append] at hgot
      rw [hgot]
      exact ⟨hkept, hun⟩

/-- The loop comes to an end: there is a turn that has nothing, or there are more than it can take. -/
def Ends (ts : List Turn) : Prop := 262144 < ts.length ∨ ∃ t ∈ ts, t.offer.waiting = []

theorem internalRead_ends (h : Kept b.buf) (hr : b.Roomy ts) (hend : Ends ts) :
    (b.internalRead ts).isSome := by
  rcases hend with hlen | hstop
  · exact (internalRead_roomy h hr).1 hlen
  · obtain ⟨t, -, -⟩ := id hstop
    have hlong := (internalRead_roomy h ⟨hr.1, hr.2.append (List.replicate 262145 t) hstop⟩).1
      (by rw [List.length_append, List.length_replicate]; omega)
    unfold internalRead at hlong ⊢
    rwa [readLoop_append hstop] at hlong

theorem Kept.get (h : Kept w) (sz : UInt64) : Kept (w.get sz).1 :=
  ⟨WorkBuffer.get_within h.within sz, (h.tidy.get sz).start, (h.tidy.get sz).size_le⟩

variable {b' : Bfd} {sz : UInt64} {u : Use}

theorem readBuf_kept (h : Kept b.buf) (hr : b.readBuf sz = some (b', bs)) : Kept b'.buf := by
  obtain ⟨htake, -⟩ := WorkBuffer.take_held h.held sz
  rw [readBuf, htake] at hr
  cases hr
  exact h.get sz

/-- `recv` reads only when there is nothing, and then nothing is taken. -/
theorem recv_kept (h : Kept b.buf) (hfd : 0 < b.size ∨ b.fd < fdSetsize)
    (hr : b.recv sz ts = some (b', bs)) : Kept b'.buf := by
  unfold recv at hr
  split at hr
  · exact readBuf_kept h hr
  · rename_i hpos
    have hfd := hfd.resolve_left hpos
    -- the buffer is empty, so nothing has been taken from the front of it
    have hlen : b.buf.len = 0 := UInt64.le_zero_iff.mp (UInt64.not_lt.mp hpos)
    split at hr
    · cases hr
      exact h
    · split at hr
      · cases hr
      · rename_i b₁ got hread
        have hkept := ((internalRead_roomy h ⟨.inl hfd, .inr (.inl (h.start hlen))⟩).2 _ _ hread).1
        split at hr
        · exact readBuf_kept hkept hr
        · cases hr
          exact hkept

theorem recv_fd (hr : b.recv sz ts = some (b', bs)) : b'.fd = b.fd ∨ b'.fd < 0 := by
  have hbuf : ∀ {b₁ : Bfd}, b₁.readBuf sz = some (b', bs) → b'.fd = b₁.fd := by
    intro b₁ h₁
    obtain ⟨r, -, he⟩ := Option.map_eq_some_iff.mp h₁
    cases he
    rfl
  unfold recv at hr
  split at hr
  · exact .inl (hbuf hr)
  · split at hr
    · cases hr
      exact .inl rfl
    · split at hr
      · cases hr
      · rename_i hread
        have hfd := internalRead_fd hread
        split at hr
        · rw [hbuf hr]
          exact hfd
        · cases hr
          exact hfd

theorem recv_returns (h : Kept b.buf) (hfd : 0 < b.size ∨ b.fd < fdSetsize)
    (hend : Ends ts) : (b.recv sz ts).isSome := by
  have hbuf : ∀ {b₁ : Bfd}, Kept b₁.buf → (b₁.readBuf sz).isSome := by
    intro b₁ h₁
    obtain ⟨b₂, hb, -⟩ := readBuf_spec h₁.tidy sz
    rw [hb]
    rfl
  unfold recv
  split
  · exact hbuf h
  · rename_i hpos
    have h0 : b.buf.len = 0 := UInt64.le_zero_iff.mp (UInt64.not_lt.mp hpos)
    have hroom : b.Roomy ts := ⟨.inl (hfd.resolve_left hpos), .inr (.inl (h.start h0))⟩
    have hr := internalRead_roomy h hroom
    split
    · rfl
    · split
      · rename_i hnone
        have := internalRead_ends h hroom hend
        rw [hnone] at this
        cases this
      · rename_i hread
        split
        · exact hbuf (hr.2 _ _ hread).1
        · rfl

/-- What a call takes from the descriptor is counted, and nothing else: what was in the buffer and
    what came in is what was handed out and what is in the buffer now. -/
def Accounts (b : Bfd) (u : Use) (b' : Bfd) : Prop :=
  Conserves (fun b : Bfd => b.buf.unread) Use.got Use.handed b u b' ∧
    b.size.toNat + u.got.length = u.handed.length + b'.size.toNat

/-- The calls come back: with a turn that has nothing, and when there is always more, too. -/
structure Returns (b : Bfd) : Prop where
  internalRead : ∀ ts, b.Roomy ts → Ends ts → (b.internalRead ts).isSome
  recv : ∀ sz ts, 0 < b.size ∨ b.fd < fdSetsize → Ends ts → (b.recv sz ts).isSome
  readBuf : ∀ sz, (b.readBuf sz).isSome

theorem Kept.returns (h : Kept b.buf) : Returns b where
  internalRead _ hr hend := internalRead_ends h hr hend
  recv _ _ hfd := recv_returns h hfd
  readBuf sz := by
    obtain ⟨b₁, hb, -⟩ := readBuf_spec h.tidy sz
    rw [hb]
    rfl

theorem Kept.length_unread (h : Kept b.buf) : b.buf.unread.length = b.size.toNat :=
  WorkBuffer.length_unread h.held

/-- What goes in and comes out of the buffer is counted by its length. -/
theorem accounts_of (h : Kept b.buf) (h' : Kept b'.buf)
    (hc : b.buf.unread ++ u.got = u.handed ++ b'.buf.unread) : Accounts b u b' := by
  refine ⟨hc, ?_⟩
  have hlen := congrArg List.length hc
  rwa [List.length_append, List.length_append, h.length_unread, h'.length_unread] at hlen

/-- One call. -/
theorem accounts_step (h : Kept b.buf) (hroom : UseRoomy b u b') (hs : Step b u b') :
    Accounts b u b' ∧ Kept b'.buf := by
  cases u with
  | readSome ts got =>
    obtain ⟨hkept, hun⟩ := (internalRead_roomy h hroom).2 _ _ hs
    exact ⟨accounts_of h hkept hun.symm, hkept⟩
  | recv sz ts got bs =>
    obtain ⟨hr, hgot⟩ := hs
    have hkept := recv_kept h hroom hr
    obtain ⟨-, hbs, hun⟩ := recv_spec h.tidy hr
    refine ⟨accounts_of h hkept ?_, hkept⟩
    rw [Use.got, Use.handed, hgot, hbs, hun, List.take_append_drop]
  | readBuf sz bs =>
    have hs : b.readBuf sz = some (b', bs) := hs
    have hkept := readBuf_kept h hs
    obtain ⟨b₁, hb, -, -, hun⟩ := readBuf_spec h.tidy sz
    rw [hs] at hb
    cases hb
    refine ⟨accounts_of h hkept ?_, hkept⟩
    rw [Use.got, Use.handed, hun, List.append_nil, List.take_append_drop]
  | fd fd =>
    have hs : b' = { b with fd := fd } := hs
    subst hs
    exact ⟨accounts_of h h (List.append_nil _), h⟩

/-- **What came in comes out**, in every run whose reads find room: each call counts what it got and
    what it handed out; what came in is what was handed out and then what is still there, which is
    as much as `size()` says; and the calls come back. -/
theorem reads_back_when (fd : Int) {area : Block} (harea : area.bytes.length = 512)
    {tr : List (Use × Bfd)} (h : Run Step (init fd area harea) tr)
    (hroom : Always UseRoomy (init fd area harea) tr) :
    Always Accounts (init fd area harea) tr ∧
      total Use.got tr = total Use.handed tr ++ (last (init fd area harea) tr).buf.unread ∧
      (last (init fd area harea) tr).size.toNat =
        (last (init fd area harea) tr).buf.unread.length ∧
      Returns (last (init fd area harea) tr) := by
  have hsteps := h.always_of_guard (I := fun b => Kept b.buf)
    (P := fun b u b' => Accounts b u b' ∧ Kept b'.buf)
    (fun _ _ _ hi hg hs => ⟨accounts_step hi hg hs, (accounts_step hi hg hs).2⟩)
    (kept_init fd harea) hroom
  have hlast : Kept (last (init fd area harea) tr).buf :=
    Always.last_state (Q := fun b => Kept b.buf) (hsteps.mono fun _ _ _ hp => hp.2)
      (kept_init fd harea)
  have hacc : Always Accounts (init fd area harea) tr := hsteps.mono fun _ _ _ hp => hp.1
  have hc := h.conserved (hacc.mono fun _ _ _ hp => hp.1)
  rw [unread_init, List.nil_append] at hc
  exact ⟨hacc, hc, hlast.length_unread.symm, hlast.returns⟩

/-! ## Runs -/

/-- A call, whatever it is said to have got. -/
def exec (b : Bfd) : Use → Option (Use × Bfd)
  | .readSome ts _ => (b.internalRead ts).map fun r => (.readSome ts r.2, r.1)
  | .recv sz ts _ _ => (b.recv sz ts).map fun r => (.recv sz ts (b.fresh ts) r.2, r.1)
  | .readBuf sz _ => (b.readBuf sz).map fun r => (.readBuf sz r.2, r.1)
  | .fd fd => some (.fd fd, { b with fd := fd })

theorem step_of_exec (b : Bfd) (u : Use) (e : Use × Bfd) (h : exec b u = some e) :
    Step b e.1 e.2 := by
  cases u with
  | readSome ts got | recv sz ts got bs | readBuf sz bs =>
    obtain ⟨r, hr, rfl⟩ := Option.map_eq_some_iff.mp h
    simp [Step, hr]
  | fd fd =>
    cases h
    rfl

def sampleArea : Block :=
  ⟨36864, List.replicate 512 0, by decide, by rw [List.length_replicate]; decide⟩

theorem length_sampleArea : sampleArea.bytes.length = 512 := List.length_replicate

/-- Memory that has sevens in it. -/
def sevens : Malloc := .within 1048576 262144 7 (by decide) (by decide)

def sampleTurn (offer : Offer) : Turn where
  malloc := sevens
  ample n h := by
    have hle : n.toNat ≤ 262144 := UInt64.le_iff_toNat_le.mp h
    simp [sevens, Malloc.within, hle]
  offer := offer

/-- Some bytes, one of which is taken, and others behind them. -/
def roomyUses : List Use :=
  [.readSome [sampleTurn (.data 1 [2, 3])] [], .readBuf 1 [],
    .readSome [sampleTurn (.data 4 [5])] [], .recv 9 [] [] []]

theorem reads_back_when_roomy :
    ∃ tr, tr.map (·.1.handed) = [[], [1], [], [2, 3, 4, 5]] ∧
      Always Accounts (init 3 sampleArea length_sampleArea) tr ∧
      total Use.got tr = total Use.handed tr ++
        (last (init 3 sampleArea length_sampleArea) tr).buf.unread ∧
      (last (init 3 sampleArea length_sampleArea) tr).size.toNat =
        (last (init 3 sampleArea length_sampleArea) tr).buf.unread.length ∧
      Returns (last (init 3 sampleArea length_sampleArea) tr) :=
  ⟨(replay exec (init 3 sampleArea length_sampleArea) roomyUses).get (by decide +kernel),
    by decide +kernel,
    reads_back_when 3 length_sampleArea (run_of_replay step_of_exec _ (Option.some_get _).symm)
      (by decide +kernel)⟩

/-- 500 bytes, one of which is taken, then the 12 that the preallocated area has room for, and that
    is all. -/
def lossyUses : List Use :=
  [.readSome [sampleTurn (.data 1 (List.replicate 499 1))] [], .readBuf 1 [],
    .readSome [sampleTurn (.data 2 (List.replicate 11 2)), sampleTurn .unready] [], .readBuf 600 []]

theorem reads_back_fails :
    ∃ tr, Run Step (init 3 sampleArea length_sampleArea) tr ∧
      total Use.got tr = List.replicate 500 1 ++ List.replicate 12 2 ∧
      total Use.handed tr = List.replicate 500 1 ++ List.replicate 11 2 ++ [7] ∧
      ¬ total Use.handed tr <+: total Use.got tr :=
  ⟨(replay exec (init 3 sampleArea length_sampleArea) lossyUses).get (by decide +kernel),
    run_of_replay step_of_exec _ (Option.some_get _).symm, by decide +kernel, by decide +kernel,
    by decide +kernel⟩

end Bfd

end CodeSLoop
