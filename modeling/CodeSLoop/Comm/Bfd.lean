import CodeSLoop.Common.WorkBufferFifo

/-!
# `bfd` — the buffered file descriptor (`comm/bfd.hh`, `comm/bfd.cc`)

What is read from the descriptor goes to an `rdbuf` first, and is handed out from there.
`internal_read` reads as much as there is: it reserves room, and as long as what it gets fills the
room, it reserves more. Whatever the sizes, the bytes it got are then behind those that were in the
buffer before (`internalRead_spec`), if no part of the buffer is taken when it reads.

What comes from the descriptor is given by a script, one entry for each turn of the loop.
The memory that the buffer asks for (256 KiB at most) is taken to be there.
-/

namespace CodeSLoop

open Memory

/-- `bfd::buf_t`. -/
abbrev Bfd.Buf := WorkBuffer 512 262144

/-- The members of `bfd`. -/
structure Bfd where
  fd : Int
  buf : Bfd.Buf

namespace Bfd

/-- The states: `ok_`, `closed_` and `fd_error_`. -/
def ok_ : Int := 0
def closed_ : Int := -3
def fdError_ : Int := -4

/-- `FD_SETSIZE`: an `fd_set` has room for the descriptors below it, and `can_read` does not look. -/
def fdSetsize : Int := 1024

/-- What a turn of the loop finds: `select` fails or says no, or there is the end, an error, or
    data, of which it gets as much as it has room for. -/
inductive Offer
  | selectFailed | unready | closed | failed | data (b : UInt8) (bs : List UInt8)

/-- A turn, with the memory it has. -/
structure Turn where
  malloc : Malloc
  ample : ∀ n : UInt64, n ≤ 262144 → (malloc.answer n).isSome
  offer : Offer

/-- A descriptor that has just been opened. The preallocated area is left as it was found. -/
def init (fd : Int) (area : Block) (h : area.bytes.length = 512) : Bfd := ⟨fd, .init area h⟩

/-- The first `read_amount`. -/
def readAmount (w : Buf) : UInt64 :=
  if w.buf.size < 512 then 512 - w.buf.size else (w.buf.size / 512 + 4) * 512

/-- The loop of `internal_read`, with what it has got. There is none when the script ends before
    the loop does, or when a write is outside of the buffer, or of the `fd_set`. -/
def readLoop (b : Bfd) (amount : UInt64) (got : List UInt8) :
    List Turn → Option (Bfd × List UInt8)
  | [] => none
  | t :: ts =>
    let (w, tmp) := Rdbuf.reserve b.buf t.malloc amount
    let back := (Rdbuf.adjust false w t.malloc tmp 0).1
    if tmp.bytes = 0 then some ({ b with buf := w }, got)
    else if fdSetsize ≤ b.fd then none
    else match t.offer with
      | .unready => some ({ b with buf := back }, got)
      | .selectFailed | .failed => some (⟨fdError_, back⟩, got)
      | .closed => some (⟨closed_, back⟩, got)
      | .data c cs =>
        let err := (c :: cs).take tmp.bytes.toNat
        match w.buf.store tmp.data err with
        | none => none
        | some buf =>
          let w := { w with buf := buf }
          if err.length = tmp.bytes.toNat then
            readLoop { b with buf := w } (amount * 2) (got ++ err) ts
          else
            some ({ b with buf := (Rdbuf.adjust false w t.malloc tmp err.length.toUInt64).1 },
              got ++ err)

/-- `internal_read`: the bytes it has got; it returns their number. -/
def internalRead (b : Bfd) (ts : List Turn) : Option (Bfd × List UInt8) :=
  if b.fd ≤ 0 then some (b, []) else readLoop b (readAmount b.buf) [] ts

/-- `size()`. -/
def size (b : Bfd) : UInt64 := b.buf.len

/-- `state()`. -/
def state (b : Bfd) : Int := if b.fd > 0 then ok_ else b.fd

/-- `read_buf`, and the bytes it hands out. -/
def readBuf (b : Bfd) (sz : UInt64) : Option (Bfd × List UInt8) :=
  (b.buf.take sz).map fun r => ({ b with buf := r.1 }, r.2)

/-- `read`, `recv` and `recvfrom`, and the bytes they hand out. -/
def recv (b : Bfd) (sz : UInt64) (ts : List Turn) : Option (Bfd × List UInt8) :=
  if 0 < b.size then b.readBuf sz
  else if b.fd ≤ 0 then some (b, [])
  else
    match b.internalRead ts with
    | none => none
    | some (b, got) => if 0 < got.length then b.readBuf sz else some (b, [])

/-- `send`, and what goes out when `::send` returns `err`. -/
def send (b : Bfd) (data : List UInt8) (err : Int) : Bfd × List UInt8 :=
  if data = [] ∨ b.fd ≤ 0 then (b, [])
  else if err < 0 then ({ b with fd := fdError_ }, [])
  else if err = 0 then ({ b with fd := closed_ }, [])
  else (b, data.take err.toNat)

/-! ## What the loop does to the buffer -/

/-- A buffer of which nothing is taken, or everything. -/
structure Whole (w : Buf) : Prop where
  held : w.Held
  start : w.start = 0
  size_le : w.buf.size.toNat ≤ 262144

variable {w : Buf} {m : Malloc} {n : UInt64}

/-- The loop may ask for `n` bytes: that is no more than 1 MiB, and, unless the buffer is full,
    no more than half of it. -/
structure Asks (w : Buf) (n : UInt64) : Prop where
  le : n.toNat ≤ 1048576
  le_half : w.len.toNat = 262144 ∨ n.toNat ≤ 524288

theorem Asks.safe (ha : Asks w n) (h : Whole w) (hm : ∀ n : UInt64, n ≤ 262144 → (m.answer n).isSome) :
    w.Safe m n := by
  have hle := h.held.le_size (.inl h.start)
  have hmax : w.start.toNat + w.len.toNat ≤ 262144 := h.held.le_max
  unfold WorkBuffer.Safe
  split
  · intro _ _
    exact ⟨hm 262144 (by simp), hle⟩
  · intro hn0
    have hn := ha.le
    rename_i hgt
    have hstart : w.start.toNat = 0 := by simp [h.start]
    have hsum : (w.len + n).toNat = w.len.toNat + n.toNat := by
      rw [UInt64.toNat_add]
      omega
    refine .inl ⟨h.start, by omega, fun _ => hm _ ?_⟩
    rw [h.start, UInt64.zero_add] at hgt
    exact UInt64.not_lt.mp hgt

theorem size_reserve (h : Whole w) : (w.reserve m n).1.buf.size.toNat ≤ 262144 := by
  have hsize := h.size_le
  unfold WorkBuffer.reserve
  dsimp only
  split
  · split
    · rcases @Tbuf.allocate_size _ w.buf m 262144 with he | he | he
      all_goals dsimp only; rw [he]; simp [hsize]
    · exact hsize
  · split
    · exact hsize
    · rename_i hgt _
      rw [h.start, UInt64.zero_add] at hgt
      have hle := UInt64.le_iff_toNat_le.mp (UInt64.not_lt.mp hgt)
      rcases @Tbuf.allocate_size _ w.buf m (w.len + n) with he | he | he
      · dsimp only; rw [he]; simp
      · dsimp only; rw [he]; exact hle
      · dsimp only; rw [he]; exact hsize

/-- What a reservation leaves to ask for when all of it is filled. -/
theorem Asks.next (ha : Asks w n) (h : Whole w) (hne : (w.reserve m n).2.bytes ≠ 0)
    {w' : Buf} (hlen : w'.len = (w.reserve m n).1.len) : Asks w' (n * 2) := by
  have hle := ha.le
  have hmax : w.start.toNat + w.len.toNat ≤ 262144 := h.held.le_max
  have hdouble : (n * 2).toNat = n.toNat * 2 := by
    rw [UInt64.toNat_mul]
    exact Nat.mod_eq_of_lt (by simp; omega)
  unfold WorkBuffer.reserve at hne hlen
  dsimp only at hne hlen
  rw [h.start, UInt64.zero_add] at hne hlen
  split at hlen
  · rename_i hgt
    rw [if_pos hgt] at hne
    split at hlen
    · rename_i hroom
      have hlt : w.len.toNat < 262144 := UInt64.lt_iff_toNat_lt.mp hroom
      have hhalf : n.toNat ≤ 524288 := ha.le_half.resolve_left (Nat.ne_of_lt hlt)
      refine ⟨by omega, .inl ?_⟩
      rw [hlen]
      simp
    · rename_i hroom
      rw [if_neg hroom] at hne
      exact absurd rfl hne
  · rename_i hle
    rw [if_neg hle] at hne
    have hsum : (w.len + n).toNat = w.len.toNat + n.toNat := by
      rw [UInt64.toNat_add]
      omega
    have hfit : w.len.toNat + n.toNat ≤ 262144 := by
      rw [← hsum]
      exact UInt64.le_iff_toNat_le.mp (UInt64.not_lt.mp hle)
    exact ⟨by omega, .inr (by omega)⟩

open WorkBuffer in
/-- Giving back what of the last part has not been filled. -/
theorem whole_adjust {rr : Part} {k : UInt64} (h : w.Held) (hstart : w.start = 0)
    (hsize : w.buf.size.toNat ≤ 262144)
    (hdata : rr.data = w.buf.data + (w.start + w.len - rr.bytes)) (hfailed : rr.failed = false)
    (hle : rr.bytes.toNat ≤ w.len.toNat) (hk : k.toNat ≤ rr.bytes.toNat) :
    Whole (w.adjust m rr k).1 ∧ (w.adjust m rr k).1.unread =
      w.buf.block.read w.start.toNat (w.len.toNat - rr.bytes.toNat + k.toNat) := by
  obtain ⟨hheld, hun⟩ := adjust_held (m := m) h hdata hfailed hle hk
  refine ⟨⟨hheld, ?_, ?_⟩, hun⟩
  · unfold adjust
    dsimp only
    split
    · exact hstart
    · split
      · rfl
      · split <;> exact hstart
  · have hmax : w.start.toNat + w.len.toNat ≤ 262144 := h.le_max
    have hgive : (w.len - (rr.bytes - k)).toNat ≤ w.len.toNat := by
      have hsub : (rr.bytes - k).toNat = rr.bytes.toNat - k.toNat :=
        UInt64.toNat_sub_of_le _ _ (UInt64.le_iff_toNat_le.mpr hk)
      rw [UInt64.toNat_sub_of_le _ _ (UInt64.le_iff_toNat_le.mpr (by omega))]
      exact Nat.sub_le _ _
    unfold adjust
    dsimp only
    split
    · exact hsize
    · split
      · simp [Tbuf.allocate_zero, Tbuf.reset]
      · split
        · dsimp only
          rcases @Tbuf.allocate_size _ w.buf m (w.len - (rr.bytes - k) + w.start) with he | he | he
          · rw [he]
            simp
          · rw [he, hstart, UInt64.add_zero]
            omega
          · rw [he]
            exact hsize
        · exact hsize

open WorkBuffer in
/-- A turn that has nothing: the room is given back. -/
theorem whole_back (h : Whole w) (ha : Asks w n)
    (hm : ∀ n : UInt64, n ≤ 262144 → (m.answer n).isSome) :
    Whole ((w.reserve m n).1.adjust m (w.reserve m n).2 0).1 ∧
      ((w.reserve m n).1.adjust m (w.reserve m n).2 0).1.unread = w.unread := by
  have hsize := size_reserve (m := m) (n := n) h
  rcases reserve_cases h.held (ha.safe h hm) with ⟨he, hd, -⟩ | hr
  · rw [adjust_null hd, he]
    exact ⟨h, rfl⟩
  · have hlen := hr.len
    have hsum := toNat_start_add_len h.held.le_max
    have hsum₁ := toNat_start_add_len hr.held.le_max
    have hst : (w.reserve m n).1.start.toNat = w.start.toNat := congrArg UInt64.toNat hr.start
    have hoff : (w.reserve m n).1.start + (w.reserve m n).1.len - (w.reserve m n).2.bytes =
        w.start + w.len := by
      apply UInt64.toNat_inj.mp
      rw [UInt64.toNat_sub_of_le _ _ (UInt64.le_iff_toNat_le.mpr (by omega)), hsum₁, hsum]
      omega
    obtain ⟨hwhole, hun⟩ := whole_adjust (m := m) (k := 0) hr.held (hr.start.trans h.start) hsize
      (by rw [hoff, hr.data]) hr.failed (by omega) (Nat.zero_le _)
    refine ⟨hwhole, ?_⟩
    rw [hun, hst, ← hr.unread, hlen]
    simp

/-- A turn for which there is no room. -/
theorem whole_full (h : Whole w) (ha : Asks w n)
    (hm : ∀ n : UInt64, n ≤ 262144 → (m.answer n).isSome) (h0 : (w.reserve m n).2.bytes = 0) :
    Whole (w.reserve m n).1 ∧ (w.reserve m n).1.unread = w.unread := by
  rcases WorkBuffer.reserve_cases h.held (ha.safe h hm) with ⟨he, -, -⟩ | hr
  · rw [he]
    exact ⟨h, rfl⟩
  · have hlen := hr.len
    rw [h0] at hlen
    refine ⟨⟨hr.held, hr.start.trans h.start, size_reserve h⟩, ?_⟩
    rw [WorkBuffer.unread, hlen, hr.start, UInt64.toNat_zero, Nat.add_zero, hr.unread]

open WorkBuffer in
/-- A turn that gets `bs`: all of the room, and the loop goes on, or less. -/
theorem whole_fill (h : Whole w) (ha : Asks w n)
    (hm : ∀ n : UInt64, n ≤ 262144 → (m.answer n).isSome)
    (hne : (w.reserve m n).2.bytes ≠ 0) {bs : List UInt8}
    (hbs : bs.length ≤ (w.reserve m n).2.bytes.toNat) :
    ∃ buf, (w.reserve m n).1.buf.store (w.reserve m n).2.data bs = some buf ∧
      (bs.length = (w.reserve m n).2.bytes.toNat →
        Whole { (w.reserve m n).1 with buf := buf } ∧
        Asks { (w.reserve m n).1 with buf := buf } (n * 2) ∧
        (w.reserve m n).1.len.toNat = w.len.toNat + bs.length ∧
        ({ (w.reserve m n).1 with buf := buf } : Buf).unread = w.unread ++ bs) ∧
      Whole (({ (w.reserve m n).1 with buf := buf } : Buf).adjust m (w.reserve m n).2
        bs.length.toUInt64).1 ∧
      (({ (w.reserve m n).1 with buf := buf } : Buf).adjust m (w.reserve m n).2
        bs.length.toUInt64).1.unread = w.unread ++ bs := by
  have hsize := size_reserve (m := m) (n := n) h
  rcases reserve_cases h.held (ha.safe h hm) with ⟨-, -, hb⟩ | hr
  · exact absurd hb hne
  · have hlen := hr.len
    obtain ⟨buf, hstore, hsz, hheld, hdata, hread⟩ := hr.store h.held hbs
    have hall : bs.take bs.length = bs := List.take_length
    have hk : bs.length.toUInt64.toNat = bs.length := by
      have := (w.reserve m n).2.bytes.toNat_lt
      exact Nat.mod_eq_of_lt (by omega)
    refine ⟨buf, hstore, fun hfull => ?_, ?_⟩
    · refine ⟨⟨hheld, hr.start.trans h.start, by dsimp only; rw [hsz]; exact hsize⟩,
        ha.next (m := m) h hne rfl, by omega, ?_⟩
      rw [unread]
      dsimp only
      rw [hlen, ← hfull, hread _ (Nat.le_refl _), hall]
    · obtain ⟨hwhole, hun⟩ := whole_adjust (m := m) (k := bs.length.toUInt64) hheld
        (hr.start.trans h.start) (by dsimp only; rw [hsz]; exact hsize) hdata hr.failed
        (by dsimp only; omega) (by omega)
      refine ⟨hwhole, ?_⟩
      rw [hun, hk]
      dsimp only
      rw [hlen, Nat.add_sub_cancel, hread _ (Nat.le_refl _), hall]

/-- **The loop of `internal_read`.** What it gets is behind what was there, and it ends: no more
    than 256 KiB fit. -/
theorem readLoop_spec {ts : List Turn} : ∀ {b : Bfd} {amount : UInt64} {got : List UInt8},
    Whole b.buf → Asks b.buf amount →
      (b.fd < fdSetsize → 262144 < b.buf.len.toNat + ts.length → (readLoop b amount got ts).isSome) ∧
      ∀ b' got', readLoop b amount got ts = some (b', got') →
        ∃ bs, got' = got ++ bs ∧ Whole b'.buf ∧ b'.buf.unread = b.buf.unread ++ bs := by
  -- by the turns: each one that fills its room makes the buffer longer, and it cannot grow for ever
  induction ts with
  | nil =>
    intro b amount got h _
    refine ⟨fun _ hlt => ?_, fun b' got' hl => by cases hl⟩
    have hmax : b.buf.start.toNat + b.buf.len.toNat ≤ 262144 := h.held.le_max
    simp only [List.length_nil] at hlt
    omega
  | cons t ts ih =>
    intro b amount got h ha
    have hback := whole_back h ha t.ample
    have hnone : ∀ {b₁ : Bfd}, Whole b₁.buf → b₁.buf.unread = b.buf.unread →
        ∀ b' got', some (b₁, got) = some (b', got') →
          ∃ bs, got' = got ++ bs ∧ Whole b'.buf ∧ b'.buf.unread = b.buf.unread ++ bs := by
      intro b₁ hw hun b' got' he
      cases he
      exact ⟨[], (List.append_nil _).symm, hw, hun.trans (List.append_nil _).symm⟩
    simp only [readLoop, Rdbuf.reserve, Rdbuf.adjust, Bool.false_eq_true, false_and, if_false]
    by_cases h0 : (b.buf.reserve t.malloc amount).2.bytes = 0
    · have hwhole := whole_full h ha t.ample h0
      simp only [h0, if_true]
      exact ⟨fun _ _ => rfl, hnone hwhole.1 hwhole.2⟩
    · simp only [h0, if_false]
      by_cases hfd : fdSetsize ≤ b.fd
      · rw [if_pos hfd]
        exact ⟨fun hlt => absurd hlt (not_lt_of_ge hfd), fun b' got' he => by cases he⟩
      rw [if_neg hfd]
      cases t.offer with
      | unready | closed | selectFailed | failed =>
        -- with nothing to get, the room is given back
        exact ⟨fun _ _ => rfl, hnone hback.1 hback.2⟩
      | data c cs =>
        dsimp only
        generalize hbs : (c :: cs).take (b.buf.reserve t.malloc amount).2.bytes.toNat = bs
        have hle : bs.length ≤ (b.buf.reserve t.malloc amount).2.bytes.toNat := by
          rw [← hbs]
          exact List.length_take_le _ _
        obtain ⟨buf, hstore, hfull, hwhole, hun⟩ := whole_fill h ha t.ample h0 hle
        rw [hstore]
        dsimp only
        by_cases hall : bs.length = (b.buf.reserve t.malloc amount).2.bytes.toNat
        · -- the room is filled: the next turn goes on from here
          obtain ⟨hw, hasks, hlen, hun₁⟩ := hfull hall
          rw [if_pos hall]
          obtain ⟨hsome, hres⟩ := @ih { b with buf := _ } (amount * 2) (got ++ bs) hw hasks
          refine ⟨fun hmax hlt => hsome hmax ?_, fun b' got' he => ?_⟩
          · have hpos : bs.length ≠ 0 := by
              intro hz
              exact h0 (UInt64.toNat_inj.mp (hall.symm.trans hz))
            dsimp only
            simp only [List.length_cons] at hlt
            omega
          · obtain ⟨cs, hgot, hw', hun'⟩ := hres b' got' he
            refine ⟨bs ++ cs, by rw [hgot, List.append_assoc], hw', ?_⟩
            rw [hun', hun₁, List.append_assoc]
        · rw [if_neg hall]
          refine ⟨fun _ _ => rfl, fun b' got' he => ?_⟩
          cases he
          exact ⟨bs, rfl, hwhole, hun⟩

/-! ## Reading -/

/-- Between the calls: what is taken of an empty buffer is forgotten. -/
structure Tidy (w : Buf) : Prop where
  held : w.Held
  start : w.len = 0 → w.start = 0
  size_le : w.buf.size.toNat ≤ 262144

theorem Whole.tidy (h : Whole w) : Tidy w := ⟨h.held, fun _ => h.start, h.size_le⟩

theorem tidy_init (fd : Int) {area : Block} (h : area.bytes.length = 512) :
    Tidy (init fd area h).buf :=
  ⟨WorkBuffer.held_init h, fun _ => rfl, by simp [init, WorkBuffer.init, Tbuf.init]⟩

@[simp] theorem unread_init (fd : Int) {area : Block} (h : area.bytes.length = 512) :
    (init fd area h).buf.unread = [] := by
  simp [init, WorkBuffer.unread, WorkBuffer.init]

theorem unread_eq_nil (h : Tidy w) : w.unread = [] ↔ w.len = 0 := by
  rw [← List.length_eq_zero_iff, WorkBuffer.length_unread h.held]
  exact UInt64.toNat_inj (b := 0)

theorem Tidy.whole (h : Tidy w) (hun : w.unread = []) : Whole w :=
  ⟨h.held, h.start ((unread_eq_nil h).mp hun), h.size_le⟩

theorem Tidy.get (h : Tidy w) (sz : UInt64) : Tidy (w.get sz).1 := by
  have hheld := WorkBuffer.get_held h.held sz
  rcases WorkBuffer.get_cases w sz with ⟨failed, he⟩ | ⟨ret, -, he⟩
  · rw [he]
    exact h
  · refine ⟨hheld, ?_, ?_⟩
    · rw [he]
      intro h0
      exact if_pos h0
    · rw [he]
      exact h.size_le

variable {b b' : Bfd} {got bs : List UInt8} {ts : List Turn} {sz : UInt64}

/-- What `read_buf` hands out, and leaves. -/
theorem readBuf_spec (h : Tidy b.buf) (sz : UInt64) :
    ∃ b', b.readBuf sz = some (b', b.buf.unread.take sz.toNat) ∧ b'.fd = b.fd ∧ Tidy b'.buf ∧
      b'.buf.unread = b.buf.unread.drop sz.toNat := by
  obtain ⟨htake, hun⟩ := WorkBuffer.take_held h.held sz
  exact ⟨⟨b.fd, (b.buf.get sz).1⟩, by rw [readBuf, htake]; rfl, rfl, h.get sz, hun⟩

theorem readAmount_le (hsize : w.buf.size.toNat ≤ 262144) : (readAmount w).toNat ≤ 524288 := by
  unfold readAmount
  split
  · rename_i hlt
    rw [UInt64.toNat_sub_of_le _ _ (UInt64.le_of_lt hlt)]
    exact Nat.le_trans (Nat.sub_le _ _) (by simp)
  · simp only [UInt64.toNat_mul, UInt64.toNat_add, UInt64.toNat_div, UInt64.reduceToNat]
    omega

theorem asks_readAmount (h : Whole w) : Asks w (readAmount w) := by
  have hle := readAmount_le h.size_le
  exact ⟨Nat.le_trans hle (by omega), .inr hle⟩

/-- **`internal_read`** puts what it gets behind what is there. -/
theorem internalRead_spec (h : Whole b.buf) (hr : b.internalRead ts = some (b', got)) :
    Whole b'.buf ∧ b'.buf.unread = b.buf.unread ++ got := by
  unfold internalRead at hr
  split at hr
  · cases hr
    exact ⟨h, (List.append_nil _).symm⟩
  · obtain ⟨bs, hgot, hw, hun⟩ := (readLoop_spec h (asks_readAmount h)).2 _ _ hr
    rw [List.nil_append] at hgot
    exact ⟨hw, hgot ▸ hun⟩

theorem readLoop_fd {ts : List Turn} : ∀ {b b' : Bfd} {amount : UInt64} {got bs : List UInt8},
    readLoop b amount got ts = some (b', bs) → b'.fd = b.fd ∨ b'.fd < 0 := by
  induction ts with
  | nil =>
    intro b b' amount got bs h
    cases h
  | cons t ts ih =>
    intro b b' amount got bs h
    simp only [readLoop] at h
    split at h
    · cases h
      exact .inl rfl
    · split at h
      · cases h
      split at h
      · cases h
        exact .inl rfl
      · cases h
        exact .inr (show fdError_ < 0 by decide)
      · cases h
        exact .inr (show fdError_ < 0 by decide)
      · cases h
        exact .inr (show closed_ < 0 by decide)
      · split at h
        · cases h
        · split at h
          · simpa using ih h
          · cases h
            exact .inl rfl

theorem internalRead_fd (hr : b.internalRead ts = some (b', got)) : b'.fd = b.fd ∨ b'.fd < 0 := by
  unfold internalRead at hr
  split at hr
  · cases hr
    exact .inl rfl
  · exact readLoop_fd hr

theorem state_eq_ok (h : b.fd ≠ 0) : b.state = ok_ ↔ 0 < b.fd := by
  unfold state ok_
  split
  · simpa
  · rename_i hn
    exact ⟨fun h0 => absurd h0 h, fun hp => absurd hp hn⟩

theorem internalRead_returns (h : Whole b.buf) (hfd : b.fd < fdSetsize) (hlen : 262144 < ts.length) :
    (b.internalRead ts).isSome := by
  unfold internalRead
  split
  · rfl
  · exact (readLoop_spec h (asks_readAmount h)).1 hfd (Nat.lt_add_left _ hlen)

/-- What a call of `recv` gets from the descriptor: nothing as long as there is something in the
    buffer. -/
def fresh (b : Bfd) (ts : List Turn) : List UInt8 :=
  if 0 < b.size then [] else (b.internalRead ts).elim [] Prod.snd

/-- **`recv`** hands out what is in the buffer, and only if there is nothing, what it gets. -/
theorem recv_spec (h : Tidy b.buf) (hr : b.recv sz ts = some (b', bs)) :
    Tidy b'.buf ∧ bs = (b.buf.unread ++ b.fresh ts).take sz.toNat ∧
      b'.buf.unread = (b.buf.unread ++ b.fresh ts).drop sz.toNat := by
  unfold recv at hr
  unfold fresh
  by_cases hpos : 0 < b.size
  · rw [if_pos hpos] at hr ⊢
    obtain ⟨b₁, hb, -, ht, hun⟩ := readBuf_spec h sz
    rw [hb] at hr
    cases hr
    rw [List.append_nil]
    exact ⟨ht, rfl, hun⟩
  · have hlen : b.buf.len = 0 := UInt64.le_zero_iff.mp (UInt64.not_lt.mp hpos)
    have hnil := (unread_eq_nil h).mpr hlen
    rw [if_neg hpos] at hr ⊢
    rw [hnil, List.nil_append]
    by_cases hfd : b.fd ≤ 0
    · rw [if_pos hfd] at hr
      cases hr
      have hread : b.internalRead ts = some (b, []) := if_pos hfd
      rw [hread]
      simp [h, hnil]
    · rw [if_neg hfd] at hr
      cases hread : b.internalRead ts with
      | none =>
        rw [hread] at hr
        cases hr
      | some r =>
        obtain ⟨b₁, got⟩ := r
        obtain ⟨hw, hun⟩ := internalRead_spec (h.whole hnil) hread
        rw [hnil, List.nil_append] at hun
        rw [hread] at hr
        simp only [Option.elim] at hr ⊢
        by_cases hgot : 0 < got.length
        · rw [if_pos hgot] at hr
          obtain ⟨b₂, hb, -, ht, hun₂⟩ := readBuf_spec hw.tidy sz
          rw [hb] at hr
          cases hr
          rw [hun] at hun₂ ⊢
          exact ⟨ht, rfl, hun₂⟩
        · rw [if_neg hgot] at hr
          cases hr
          have hg : got = [] := List.eq_nil_of_length_eq_zero (Nat.eq_zero_of_not_pos hgot)
          rw [hg] at hun
          simp [hw.tidy, hun, hg]

end Bfd

end CodeSLoop
