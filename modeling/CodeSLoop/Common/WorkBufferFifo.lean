import CodeSLoop.Lib.Fifo
import CodeSLoop.Common.WorkBufferBounds

/-!
# `limited_work_buffer` as a queue of bytes

A caller uses the buffer in two ways. A *put* reserves room, fills the part it was given and
adjusts it to the bytes it keeps; a *take* gets a part and reads it. The bytes pending are the
`len_` bytes from `start_` on, in whatever storage the underlying `tbuf` is using, and the
question is whether puts and takes are steps of a queue (`Lts.Conserves`).

They are while every reservation is `Safe`. A request that comes after something was taken
leaves the recorded size of the `tbuf` short of the stored bytes. In the preallocated area
nothing comes of it; but a move to a new block copies only the recorded size, and `fifo_fails`
is a run that loses bytes so, all inside the memory the code owns.
-/

namespace CodeSLoop

open Memory Lts

namespace WorkBuffer

variable {Preallocated MaxSize : UInt64} {w : WorkBuffer Preallocated MaxSize}

/-- The bytes not yet taken. -/
def unread (w : WorkBuffer Preallocated MaxSize) : List UInt8 :=
  w.buf.block.read w.start.toNat w.len.toNat

/-- Reserve `n`, fill the part with `bs`, keep `k`. `none` when `bs` is not one byte for each
    byte of the part, when more is kept than that, or when the part reaches out of the
    storage and filling it is undefined. -/
def put (w : WorkBuffer Preallocated MaxSize) (m m' : Malloc) (n : UInt64) (bs : List UInt8)
    (k : UInt64) : Option (WorkBuffer Preallocated MaxSize) :=
  let (w, rr) := LimitedWorkBuffer.reserve w m n
  if bs.length = rr.bytes.toNat ∧ k ≤ rr.bytes then
    (w.buf.store rr.data bs).map fun buf =>
      (LimitedWorkBuffer.adjust { w with buf := buf } m' rr k).1
  else none

/-- Get up to `sz` bytes and read them. -/
def take (w : WorkBuffer Preallocated MaxSize) (sz : UInt64) :
    Option (WorkBuffer Preallocated MaxSize × List UInt8) :=
  let (w, rr) := LimitedWorkBuffer.get w sz
  (w.buf.load rr.data rr.bytes.toNat).map fun bs => (w, bs)

/-- What a trace records: a put with the allocators its two calls met, or a take with the
    bytes it read. -/
inductive Use
  | put (m m' : Malloc) (n : UInt64) (bs : List UInt8) (k : UInt64)
  | take (sz : UInt64) (bs : List UInt8)

/-- The bytes kept by the use. -/
def Use.kept : Use → List UInt8
  | .put _ _ _ bs k => bs.take k.toNat
  | .take _ _ => []

/-- The bytes obtained by the use. -/
def Use.got : Use → List UInt8
  | .put .. => []
  | .take _ bs => bs

def UseStep (w : WorkBuffer Preallocated MaxSize) (a : Use)
    (w' : WorkBuffer Preallocated MaxSize) : Prop :=
  match a with
  | .put m m' n bs k => w.put m m' n bs k = some w'
  | .take sz bs => w.take sz = some (w', bs)

/-- The trace of the given uses, when each can be carried out; a take's bytes are those it
    really reads. -/
def replayUses (w : WorkBuffer Preallocated MaxSize) :
    List Use → Option (List (Use × WorkBuffer Preallocated MaxSize))
  | [] => some []
  | .put m m' n bs k :: us =>
    match w.put m m' n bs k with
    | some w' => (replayUses w' us).map ((.put m m' n bs k, w') :: ·)
    | none => none
  | .take sz _ :: us =>
    match w.take sz with
    | some (w', bs) => (replayUses w' us).map ((.take sz bs, w') :: ·)
    | none => none

theorem run_of_replayUses {us : List Use} : ∀ {w : WorkBuffer Preallocated MaxSize}
    {tr : List (Use × WorkBuffer Preallocated MaxSize)},
    w.replayUses us = some tr → Run UseStep w tr := by
  induction us with
  | nil =>
    intro w tr h
    simp only [replayUses, Option.some.injEq] at h
    exact h ▸ .nil w
  | cons u us ih =>
    intro w tr h
    cases u with
    | put m m' n bs k =>
      unfold replayUses at h
      split at h
      · rename_i w' hput
        rw [Option.map_eq_some_iff] at h
        obtain ⟨tr', htr, rfl⟩ := h
        exact .cons hput (ih htr)
      · cases h
    | take sz bs =>
      unfold replayUses at h
      split at h
      · rename_i w' bs' htake
        rw [Option.map_eq_some_iff] at h
        obtain ⟨tr', htr, rfl⟩ := h
        exact .cons htake (ih htr)
      · cases h

/-- The reservations that lose nothing. One that is cut down may move the buffer only when the
    recorded size covers the stored bytes. One met in full either comes before anything was
    taken from the front, or finds the buffer in its preallocated area with room there for
    all of it. -/
def Safe (w : WorkBuffer Preallocated MaxSize) (m : Malloc) (n : UInt64) : Prop :=
  if w.start + w.len + n > MaxSize then
    w.start + w.len < MaxSize → w.buf.NeedsMalloc MaxSize →
      (m.answer MaxSize).isSome ∧ w.start.toNat + w.len.toNat ≤ w.buf.size.toNat
  else
    n ≠ 0 →
      (w.start = 0 ∧ w.len.toNat + n.toNat < 2 ^ 64 ∧
        (w.buf.NeedsMalloc (w.len + n) → (m.answer (w.len + n)).isSome)) ∨
      (w.buf.heap = none ∧ w.start.toNat + w.len.toNat + n.toNat ≤ Preallocated.toNat)

instance (w : WorkBuffer Preallocated MaxSize) (m : Malloc) (n : UInt64) :
    Decidable (w.Safe m n) := by
  have : Decidable (w.buf.heap = none) := decidable_of_iff _ Option.isNone_iff_eq_none
  unfold Safe
  infer_instance

/-- A reservation that keeps to the storage is safe. -/
theorem Fits.safe {m : Malloc} {n : UInt64} (h : w.Within) (hf : w.Fits m (.reserve n)) :
    w.Safe m n := by
  simp only [Fits] at hf
  unfold Safe
  split at hf
  · rename_i hgt
    rw [if_pos hgt]
    exact fun hroom hn => ⟨hf hroom hn, h.le_size⟩
  · rename_i hle
    rw [if_neg hle]
    exact fun h0 => .inl (hf h0)

/-- The use's reservation, if it has one, is safe. -/
def UseSafe (w : WorkBuffer Preallocated MaxSize) (a : Use)
    (_ : WorkBuffer Preallocated MaxSize) : Prop :=
  match a with
  | .put m _ n _ _ => w.Safe m n
  | .take _ _ => True

instance (w : WorkBuffer Preallocated MaxSize) (a : Use) (w' : WorkBuffer Preallocated MaxSize) :
    Decidable (UseSafe w a w') := by
  unfold UseSafe; cases a <;> infer_instance

/-- The invariant: the stored bytes lie within the limit and within the storage, and within the
    recorded size too unless the buffer is in its preallocated area with its front taken. -/
structure Held (w : WorkBuffer Preallocated MaxSize) : Prop where
  le_max : w.start.toNat + w.len.toNat ≤ MaxSize.toNat
  le_length : w.start.toNat + w.len.toNat ≤ w.buf.block.bytes.length
  le_size : w.start = 0 ∨ w.buf.heap ≠ none → w.start.toNat + w.len.toNat ≤ w.buf.size.toNat

theorem held_init {area : Block} (h : area.bytes.length = Preallocated.toNat) :
    (init area h : WorkBuffer Preallocated MaxSize).Held :=
  ⟨by simp [init], by simp [init], fun _ => by simp [init, Tbuf.init]⟩

/-! ## Taking -/

theorem get_held (h : w.Held) (sz : UInt64) : (w.get sz).1.Held := by
  have h1 := h.le_max
  have h2 := h.le_length
  have h3 := h.le_size
  rcases get_cases w sz with ⟨failed, he⟩ | ⟨ret, hret, he⟩
  · rw [he]; exact h
  · obtain ⟨hlen, hstart⟩ := toNat_taken h1 (show ret.toNat ≤ w.len.toNat by omega)
    rw [he]
    dsimp only
    by_cases h0 : w.len - ret = 0
    · rw [if_pos h0, h0]
      exact ⟨by simp, by simp, fun _ => by simp⟩
    · rw [if_neg h0]
      refine ⟨by simp only [hlen, hstart]; omega, by simp only [hlen, hstart]; omega, ?_⟩
      intro hor
      have hz : w.start = 0 ∨ w.buf.heap ≠ none := by
        refine hor.imp_left fun hs => UInt64.toNat_inj.mp ?_
        have hs : w.start + ret = 0 := hs
        rw [hs, UInt64.toNat_zero] at hstart
        rw [UInt64.toNat_zero]; omega
      have := h3 hz
      simp only [hlen, hstart]; omega

/-- A take reads the front of what is pending, and leaves the rest. -/
theorem take_conserves {sz : UInt64} {bs : List UInt8} {w' : WorkBuffer Preallocated MaxSize}
    (h : w.Held) (ht : w.take sz = some (w', bs)) : w.unread = bs ++ w'.unread := by
  have h2 := h.le_length
  unfold take LimitedWorkBuffer.get at ht
  rcases get_cases w sz with ⟨failed, he⟩ | ⟨ret, hret, he⟩
  · rw [he] at ht
    simp only [Part.reset, UInt64.toNat_zero, Tbuf.load, if_true, Option.map_some,
      Option.some.injEq, Prod.mk.injEq] at ht
    obtain ⟨rfl, rfl⟩ := ht
    rfl
  · obtain ⟨hlen, hstart⟩ := toNat_taken h.le_max (show ret.toNat ≤ w.len.toNat by omega)
    rw [he] at ht
    dsimp only at ht
    rw [Tbuf.load_data_add (by omega), Option.map_some, Option.some.injEq, Prod.mk.injEq] at ht
    obtain ⟨rfl, rfl⟩ := ht
    have hsplit : w.len.toNat = ret.toNat + (w.len.toNat - ret.toNat) := by omega
    simp only [unread, hlen]
    by_cases h0 : w.len - ret = 0
    · -- drained: `start_` goes back to zero and there is nothing to read
      rw [h0, UInt64.toNat_zero] at hlen
      rw [← hlen, Block.read_zero, List.append_nil, show w.len.toNat = ret.toNat by omega]
    · rw [if_neg h0, hstart, ← Block.read_add, ← hsplit]

theorem length_unread (h : w.Held) : w.unread.length = w.len.toNat := by
  have := h.le_length
  simp only [unread, Block.read, List.length_take, List.length_drop]
  omega

/-- A take can be carried out, and takes what it may of what is pending. -/
theorem take_held (h : w.Held) (sz : UInt64) :
    w.take sz = some ((w.get sz).1, w.unread.take sz.toNat) ∧
      (w.get sz).1.unread = w.unread.drop sz.toNat := by
  have h2 := h.le_length
  have hun := length_unread h
  have hloaded : ∃ bs, w.take sz = some ((w.get sz).1, bs) ∧ bs.length = min w.len.toNat sz.toNat := by
    unfold take LimitedWorkBuffer.get
    rcases get_cases w sz with ⟨failed, he⟩ | ⟨ret, hret, he⟩
    · refine ⟨[], by simp [he, Part.reset, Tbuf.load], ?_⟩
      have hpart := congrArg (fun r => r.2.bytes) he
      unfold get at hpart
      split at hpart
      · rename_i hz
        simp [hz]
      · split at hpart
        · rename_i hz _
          exfalso
          dsimp only at hpart
          split at hpart
          · exact hz hpart
          · rename_i hlen _
            exact absurd hlen (by rw [hpart]; exact UInt64.lt_irrefl 0)
        · rename_i hlen
          have hlen := (not_congr UInt64.lt_iff_toNat_lt).mp hlen
          rw [UInt64.toNat_zero] at hlen
          simp only [List.length_nil]
          omega
    · rw [he]
      dsimp only
      rw [Tbuf.load_data_add (by omega)]
      refine ⟨_, rfl, ?_⟩
      simp only [Block.read, List.length_take, List.length_drop]
      omega
  obtain ⟨bs, htake, hlen⟩ := hloaded
  have hsplit := take_conserves h htake
  have hbs : bs = w.unread.take sz.toNat := by
    rw [hsplit, List.take_append, hlen]
    by_cases hle : w.len.toNat ≤ sz.toNat
    · have hrest : (w.get sz).1.unread = [] := by
        have := congrArg List.length hsplit
        rw [List.length_append] at this
        exact List.eq_nil_of_length_eq_zero (by omega)
      rw [hrest, List.take_nil, List.append_nil, List.take_of_length_le (by omega)]
    · rw [Nat.min_eq_right (by omega), Nat.sub_self, List.take_zero, List.append_nil,
        List.take_of_length_le (by omega)]
  refine ⟨hbs ▸ htake, ?_⟩
  refine @List.append_cancel_left _ bs _ _ ?_
  rw [← hsplit, hbs, List.take_append_drop]

/-! ## Putting -/

/-- A reserved part: it stands behind the stored bytes, which are where they were, and the
    buffer that holds it keeps the invariant. -/
structure Reserved (w w' : WorkBuffer Preallocated MaxSize) (rr : Part) : Prop where
  held : w'.Held
  data : rr.data = w'.buf.data + (w.start + w.len)
  failed : rr.failed = false
  start : w'.start = w.start
  len : w'.len.toNat = w.len.toNat + rr.bytes.toNat
  unread : w'.buf.block.read w.start.toNat w.len.toNat = w.unread

theorem reserved_of_cut {m : Malloc} {n : UInt64} (h : w.Held)
    (hgt : w.start + w.len + n > MaxSize) (hroom : w.start + w.len < MaxSize)
    (hm : w.buf.NeedsMalloc MaxSize →
      (m.answer MaxSize).isSome ∧ w.start.toNat + w.len.toNat ≤ w.buf.size.toNat) :
    Reserved w (w.reserve m n).1 (w.reserve m n).2 := by
  have hlt := UInt64.lt_iff_toNat_lt.mp hroom
  have hsum := toNat_start_add_len h.le_max
  have hfree := toNat_nFree h.le_max
  have hne : MaxSize ≠ 0 := by
    intro hz
    have := congrArg UInt64.toNat hz
    rw [UInt64.toNat_zero] at this; omega
  obtain ⟨hs, hptr, -⟩ := Tbuf.allocate_met hne fun hn => (hm hn).1
  have hphys := (w.buf.allocate m MaxSize).1.size_le_length
  have hlen : (MaxSize - w.start).toNat = MaxSize.toNat - w.start.toNat :=
    UInt64.toNat_sub_of_le _ _ (UInt64.le_iff_toNat_le.mpr (by omega))
  unfold reserve
  dsimp only
  rw [if_pos hgt, if_pos hroom]
  refine ⟨⟨?_, ?_, fun _ => ?_⟩, ?_, rfl, rfl, ?_, ?_⟩
  · dsimp only; omega
  · dsimp only; rw [hs] at hphys; omega
  · dsimp only; rw [hs]; omega
  · dsimp only; rw [hptr, UInt64.add_assoc]
  · dsimp only; omega
  · exact Tbuf.read_allocate hne hm

theorem reserved_of_full {m : Malloc} {n : UInt64} (h : w.Held)
    (hle : ¬ w.start + w.len + n > MaxSize) (h0 : n ≠ 0)
    (hok : (w.start = 0 ∧ w.len.toNat + n.toNat < 2 ^ 64 ∧
        (w.buf.NeedsMalloc (w.len + n) → (m.answer (w.len + n)).isSome)) ∨
      (w.buf.heap = none ∧ w.start.toNat + w.len.toNat + n.toNat ≤ Preallocated.toNat)) :
    Reserved w (w.reserve m n).1 (w.reserve m n).2 := by
  have hn : n.toNat ≠ 0 := fun hz => h0 (UInt64.toNat_inj.mp hz)
  have hsum := toNat_start_add_len h.le_max
  have hP := Preallocated.toNat_lt
  have hadd : (w.len + n).toNat = w.len.toNat + n.toNat := by
    rw [UInt64.toNat_add]; omega
  have hne : w.len + n ≠ 0 := by
    intro hz
    rw [hz, UInt64.toNat_zero] at hadd; omega
  have hmax : w.start.toNat + (w.len.toNat + n.toNat) ≤ MaxSize.toNat := by
    have hM := MaxSize.toNat_lt
    have hw := (not_congr UInt64.lt_iff_toNat_lt).mp hle
    rw [UInt64.toNat_add, hsum] at hw
    rcases hok with ⟨hs, hfit, -⟩ | ⟨-, hfit⟩
    · have : w.start.toNat = 0 := by rw [hs]; rfl
      omega
    · omega
  unfold reserve
  dsimp only
  rw [if_neg hle, if_neg h0]
  rcases hok with ⟨hs, hfit, hm⟩ | ⟨hstatic, hfit⟩
  · -- nothing was taken yet: the recorded size covers what is stored, before and after
    have hs0 : w.start.toNat = 0 := by rw [hs]; rfl
    obtain ⟨hsz, hptr, -⟩ := Tbuf.allocate_met hne hm
    have hphys := (w.buf.allocate m (w.len + n)).1.size_le_length
    rw [hsz] at hphys
    refine ⟨⟨?_, ?_, fun _ => ?_⟩, ?_, rfl, rfl, hadd, ?_⟩
    · dsimp only; omega
    · dsimp only; omega
    · dsimp only; rw [hsz]; omega
    · dsimp only; rw [hptr, UInt64.add_assoc]
    · exact Tbuf.read_allocate hne fun hn => ⟨hm hn, h.le_size (.inl hs)⟩
  · -- the preallocated area takes it all, and the buffer stays there
    have hnm : ¬ w.buf.NeedsMalloc (w.len + n) := fun hneed =>
      hneed.2.2 ⟨UInt64.le_iff_toNat_le.mpr (by omega), hstatic⟩
    obtain ⟨hsz, hblock, hheap, hptr⟩ := Tbuf.allocate_inplace (m := m) hne hnm
    have hlenP : w.buf.block.bytes.length = Preallocated.toNat := by
      rw [Tbuf.block, hstatic, Option.getD_none, w.buf.length_preallocated]
    have hdata : (w.buf.allocate m (w.len + n)).1.data = w.buf.data := by
      unfold Tbuf.data; rw [hblock]
    refine ⟨⟨?_, ?_, ?_⟩, ?_, rfl, rfl, hadd, ?_⟩
    · dsimp only; omega
    · dsimp only; rw [hblock]; omega
    · rintro (hs | hh)
      · have hs0 : w.start.toNat = 0 := congrArg UInt64.toNat hs
        dsimp only; rw [hsz]; omega
      · exact absurd (hheap.trans hstatic) hh
    · dsimp only; rw [hptr, hdata, UInt64.add_assoc]
    · dsimp only; rw [hblock]; rfl

/-- What a safe `reserve` gives: a part that is none and the buffer as it was, or a part right
    behind the stored bytes. -/
theorem reserve_cases {m : Malloc} {n : UInt64} (h : w.Held) (hsafe : w.Safe m n) :
    ((w.reserve m n).1 = w ∧ (w.reserve m n).2.data = 0 ∧ (w.reserve m n).2.bytes = 0) ∨
      Reserved w (w.reserve m n).1 (w.reserve m n).2 := by
  unfold Safe at hsafe
  by_cases hgt : w.start + w.len + n > MaxSize
  · rw [if_pos hgt] at hsafe
    by_cases hroom : w.start + w.len < MaxSize
    · exact .inr (reserved_of_cut h hgt hroom (hsafe hroom))
    · refine .inl ?_
      unfold reserve
      dsimp only
      rw [if_pos hgt, if_neg hroom]
      exact ⟨rfl, rfl, rfl⟩
  · rw [if_neg hgt] at hsafe
    by_cases h0 : n = 0
    · refine .inl ?_
      unfold reserve
      dsimp only
      rw [if_neg hgt, if_pos h0]
      exact ⟨rfl, rfl, rfl⟩
    · exact .inr (reserved_of_full h hgt h0 (hsafe h0))

/-- Adjusting the part that stands at the end of the buffer keeps its first `k` bytes. -/
theorem adjust_held {m : Malloc} {rr : Part} {k : UInt64} (h : w.Held)
    (hdata : rr.data = w.buf.data + (w.start + w.len - rr.bytes)) (hfailed : rr.failed = false)
    (hle : rr.bytes.toNat ≤ w.len.toNat) (hk : k.toNat ≤ rr.bytes.toNat) :
    (w.adjust m rr k).1.Held ∧ (w.adjust m rr k).1.unread =
      w.buf.block.read w.start.toNat (w.len.toNat - rr.bytes.toNat + k.toNat) := by
  have h1 := h.le_max
  have h2 := h.le_length
  have hsum := toNat_start_add_len h1
  have hoff : (w.start + w.len - rr.bytes).toNat = w.start.toNat + w.len.toNat - rr.bytes.toNat := by
    rw [UInt64.toNat_sub_of_le _ _ (UInt64.le_iff_toNat_le.mpr (by omega)), hsum]
  have hne : rr.data ≠ 0 := by
    rw [hdata]; exact Tbuf.data_add_ne_zero (by omega)
  have hback : rr.data - w.buf.data = w.start + w.len - rr.bytes := by
    rw [hdata, UInt64.add_comm, UInt64.add_sub_cancel]
  -- the part passes the checks of `adjust`
  have hok : ¬ (rr.bytes < k ∨ rr.data = 0 ∨ rr.failed = true ∨ w.len < rr.bytes ∨
      rr.data - w.buf.data ≠ w.start + w.len - rr.bytes) := by
    simp only [UInt64.lt_iff_toNat_lt, hback, hne, hfailed]
    simp only [Bool.false_eq_true, ne_eq, not_true, or_false, false_or]
    omega
  have hnew : (w.len - (rr.bytes - k)).toNat = w.len.toNat - rr.bytes.toNat + k.toNat := by
    have hsub : (rr.bytes - k).toNat = rr.bytes.toNat - k.toNat :=
      UInt64.toNat_sub_of_le _ _ (UInt64.le_iff_toNat_le.mpr hk)
    rw [UInt64.toNat_sub_of_le _ _ (UInt64.le_iff_toNat_le.mpr (by omega)), hsub]
    omega
  rw [← hnew]
  unfold adjust
  dsimp only
  rw [if_neg hok]
  split
  · -- everything was given back
    rename_i h0
    rw [h0]
    exact ⟨⟨by simp, by simp, fun _ => by simp⟩, by simp [unread]⟩
  · rename_i h0
    have h0' : (w.len - (rr.bytes - k)).toNat ≠ 0 := fun hz => h0 (UInt64.toNat_inj.mp hz)
    have hsub : (w.len - (rr.bytes - k)).toNat ≤ w.len.toNat := by omega
    split
    · -- the block is the same, cut down to the bytes kept
      have hadd : (w.len - (rr.bytes - k) + w.start).toNat =
          (w.len - (rr.bytes - k)).toNat + w.start.toNat := by
        have := MaxSize.toNat_lt
        rw [UInt64.toNat_add]; omega
      have hnm : ¬ w.buf.NeedsMalloc (w.len - (rr.bytes - k) + w.start) := by
        rintro ⟨-, hgt, hst⟩
        rw [UInt64.le_iff_toNat_le] at hgt
        by_cases hheap : w.buf.heap = none
        · refine hst ⟨UInt64.le_iff_toNat_le.mpr ?_, hheap⟩
          rw [Tbuf.block, hheap, Option.getD_none, w.buf.length_preallocated] at h2
          omega
        · have := h.le_size (.inr hheap)
          omega
      obtain ⟨hs, hblock, -, -⟩ := Tbuf.allocate_inplace (m := m)
        (fun hz => by rw [hz, UInt64.toNat_zero] at hadd; omega) hnm
      refine ⟨⟨?_, ?_, fun _ => ?_⟩, ?_⟩
      · dsimp only; omega
      · dsimp only; rw [hblock]; omega
      · dsimp only; rw [hs]; omega
      · simp only [unread, hblock]
    · refine ⟨⟨?_, ?_, fun hor => ?_⟩, rfl⟩
      · dsimp only; omega
      · dsimp only; omega
      · have := h.le_size hor
        dsimp only; omega

/-- A part that is none is ignored. -/
theorem adjust_null {m : Malloc} {rr : Part} {k : UInt64} (hdata : rr.data = 0) :
    (w.adjust m rr k).1 = w := by
  unfold adjust
  dsimp only
  rw [if_pos (.inr (.inl hdata))]

/-- Filling the front of a reserved part leaves what was stored before it, and the invariant. -/
theorem Reserved.store {w₁ : WorkBuffer Preallocated MaxSize} {rr : Part} {bs : List UInt8}
    (h : w.Held) (hr : Reserved w w₁ rr) (hbs : bs.length ≤ rr.bytes.toNat) :
    ∃ buf, w₁.buf.store rr.data bs = some buf ∧ buf.size = w₁.buf.size ∧
      ({ w₁ with buf := buf } : WorkBuffer Preallocated MaxSize).Held ∧
      rr.data = buf.data + (w₁.start + w₁.len - rr.bytes) ∧
      ∀ k, k ≤ bs.length → buf.block.read w₁.start.toNat (w.len.toNat + k) = w.unread ++ bs.take k := by
  have hsum := toNat_start_add_len h.le_max
  have hst : w₁.start.toNat = w.start.toNat := congrArg UInt64.toNat hr.start
  have hlen := hr.len
  have hle₁ := hr.held.le_length
  obtain ⟨buf, hstore, hsize, hdata, hheap, hlenb, hself, hbefore⟩ :=
    Tbuf.store_data_add (t := w₁.buf)
      (show (w.start + w.len).toNat + bs.length ≤ w₁.buf.block.bytes.length by omega)
  have hoff : w₁.start + w₁.len - rr.bytes = w.start + w.len := by
    apply UInt64.toNat_inj.mp
    have hsum₁ := toNat_start_add_len hr.held.le_max
    rw [UInt64.toNat_sub_of_le _ _ (UInt64.le_iff_toNat_le.mpr (by omega)), hsum₁, hsum]
    omega
  refine ⟨buf, by rw [hr.data, hstore], hsize, ⟨hr.held.le_max, ?_, fun hor => ?_⟩, ?_, ?_⟩
  · dsimp only; omega
  · have := hr.held.le_size (hor.imp_right (mt hheap.mpr))
    dsimp only; rw [hsize]; exact this
  · rw [hdata, hoff, hr.data]
  · intro k hk
    have hfront : buf.block.read w.start.toNat w.len.toNat = w.unread := by
      rw [hbefore _ _ (Nat.le_of_eq hsum.symm), hr.unread]
    have htake : buf.block.read (w.start.toNat + w.len.toNat) k = bs.take k := by
      rw [← hself, ← hsum, Block.read, Block.read, List.take_take, Nat.min_eq_left hk]
    rw [hst, Block.read_add, hfront, htake]

/-- A safe put can be carried out whatever the bytes, and adds what it keeps at the end. -/
theorem put_safe {m : Malloc} (m' : Malloc) {n k : UInt64} {bs : List UInt8} (h : w.Held)
    (hsafe : w.Safe m n) (hbs : bs.length = (w.reserve m n).2.bytes.toNat)
    (hk : k ≤ (w.reserve m n).2.bytes) :
    ∃ w', w.put m m' n bs k = some w' ∧ w'.Held ∧ w'.unread = w.unread ++ bs.take k.toNat := by
  have hcases := reserve_cases h hsafe
  unfold put LimitedWorkBuffer.reserve LimitedWorkBuffer.adjust
  generalize hres : w.reserve m n = r at hbs hk hcases
  obtain ⟨w₁, rr⟩ := r
  dsimp only at hbs hk hcases ⊢
  rw [if_pos ⟨hbs, hk⟩]
  rw [UInt64.le_iff_toNat_le] at hk
  rcases hcases with ⟨rfl, hd, hb⟩ | hr
  · -- nothing was reserved and there is nothing to fill
    have hnil : bs = [] := by
      rw [hb, UInt64.toNat_zero] at hbs
      exact List.eq_nil_of_length_eq_zero hbs
    subst hnil
    refine ⟨w₁, ?_, h, by simp⟩
    simp [Tbuf.store, adjust_null hd]
  · have hlen := hr.len
    obtain ⟨buf, hstore, -, hheld, hdata, hread⟩ := hr.store h (Nat.le_of_eq hbs)
    rw [hstore, Option.map_some]
    obtain ⟨hheld', hun⟩ := adjust_held (m := m') (k := k) hheld hdata hr.failed
      (by dsimp only; omega) hk
    refine ⟨_, rfl, hheld', ?_⟩
    rw [hun, ← hread _ (by omega)]
    dsimp only
    rw [show w₁.len.toNat - rr.bytes.toNat + k.toNat = w.len.toNat + k.toNat by omega]

/-! ## Runs -/

theorem use_conserves {a : Use} {w' : WorkBuffer Preallocated MaxSize} (h : w.Held)
    (hsafe : UseSafe w a w') (hs : UseStep w a w') :
    Conserves unread Use.kept Use.got w a w' ∧ w'.Held := by
  cases a with
  | put m m' n bs k =>
    have hs : w.put m m' n bs k = some w' := hs
    have hcond : bs.length = (w.reserve m n).2.bytes.toNat ∧ k ≤ (w.reserve m n).2.bytes := by
      unfold put LimitedWorkBuffer.reserve at hs
      dsimp only at hs
      split at hs
      · assumption
      · cases hs
    obtain ⟨w₂, hput, hheld, hun⟩ := put_safe m' h hsafe hcond.1 hcond.2
    rw [hs, Option.some.injEq] at hput
    subst hput
    refine ⟨?_, hheld⟩
    simp only [Conserves, Use.kept, Use.got, List.nil_append, hun]
  | take sz bs =>
    have hs : w.take sz = some (w', bs) := hs
    have hc := take_conserves h hs
    refine ⟨by simpa only [Conserves, Use.kept, Use.got, List.append_nil] using hc, ?_⟩
    have hheld := get_held h sz
    unfold take LimitedWorkBuffer.get at hs
    dsimp only at hs
    rw [Option.map_eq_some_iff] at hs
    obtain ⟨_, -, heq⟩ := hs
    cases heq
    exact hheld

/-- **A queue of bytes.** In every run of puts and takes whose reservations are safe, whatever
    the storage and the bytes: what was got is a prefix of what was kept, and the bytes still
    in the buffer are the rest of it. -/
theorem fifo (area : Block) (harea : area.bytes.length = Preallocated.toNat)
    {tr : List (Use × WorkBuffer Preallocated MaxSize)} (h : Run UseStep (init area harea) tr)
    (hsafe : Always UseSafe (init area harea) tr) :
    total Use.got tr <+: total Use.kept tr ∧
      total Use.kept tr = total Use.got tr ++ (last (init area harea) tr).unread := by
  have hq := h.always_of_guard (I := Held) (P := Conserves unread Use.kept Use.got)
    (fun _ _ _ hi hg hs => use_conserves hi hg hs) (held_init harea) hsafe
  have hempty : (init area harea : WorkBuffer Preallocated MaxSize).unread = [] := by simp [unread, init]
  have hc := h.conserved hq
  rw [hempty, List.nil_append] at hc
  exact ⟨h.delivered_prefix hq hempty, hc⟩

/-- Three of four bytes are taken before a fifth is put; the recorded size is then 2, and the
    move to the heap that the next put makes copies 2 bytes of the 5. -/
def lossyUses : List Use :=
  [.put .fail .fail 4 [1, 2, 3, 4] 4, .take 3 [], .put .fail .fail 1 [5] 1,
    .put sampleHeap .fail 100 (List.replicate 11 0) 0, .take 2 []]

theorem fifo_fails :
    ∃ tr, Run UseStep (init sampleArea rfl : WorkBuffer 8 16) tr ∧
      total Use.kept tr = [1, 2, 3, 4, 5] ∧ total Use.got tr = [1, 2, 3, 0, 0] ∧
      ¬ total Use.got tr <+: total Use.kept tr :=
  ⟨(replayUses (init sampleArea rfl) lossyUses).get (by decide),
    run_of_replayUses (Option.some_get _).symm, by decide, by decide, by decide⟩

/-- Bytes put and taken by turns in the preallocated area, then moved to the heap whole. -/
def turnUses : List Use :=
  [.put .fail .fail 4 [1, 2, 3, 4] 3, .take 2 [], .put .fail .fail 5 [5, 6, 7, 8, 9] 2, .take 9 [],
    .put .fail .fail 2 [10, 11] 2,
    .put sampleHeap .fail 100 (List.replicate 14 12) 1, .take 2 []]

theorem fifo_turn :
    ∃ tr, tr.map (·.1.got) = [[], [1, 2], [], [3, 5, 6], [], [], [10, 11]] ∧
      total Use.got tr <+: total Use.kept tr ∧
      total Use.kept tr = total Use.got tr ++
        (last (init sampleArea rfl : WorkBuffer 8 16) tr).unread :=
  ⟨(replayUses (init sampleArea rfl) turnUses).get (by decide), by decide,
    fifo sampleArea rfl (run_of_replayUses (Option.some_get _).symm) (by decide)⟩

end WorkBuffer

end CodeSLoop
