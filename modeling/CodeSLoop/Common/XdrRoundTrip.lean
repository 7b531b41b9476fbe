import CodeSLoop.Common.XdrbufSpec

/-!
# What is written with an `xdrbuf` is read back

`roundTrips_iff` answers, for every sequence of values, when writing them to a fresh `pbuf` does
not throw and reading them back gives the same values and ends at the end: exactly when no wide
string among them is empty or ends with a zero character of its own.

A wide string is written without its trailing zero. So of an empty one no bytes are left to
write, and `size_and_buf_to_pbuf` throws on that; `ustr` and C strings take the branch for
empty data. And a last character that is zero is taken for the trailing zero by the reader.
-/

namespace CodeSLoop

open Bytes Codec

namespace Xdrbuf

variable {b : Pbuf} {bs : List UInt8}

/-! ## Readers in front of well-formed data -/

/-- The reader of `b` has `tail` still to read. -/
structure At (b : Pbuf) (x : Xdrbuf) (tail : List UInt8) : Prop where
  b_eq : x.b = b
  ok : x.Ok
  off_le : x.off ≤ b.bytes.length
  rest : x.rest = tail

theorem at_new (b : Pbuf) : At b (new b) b.bytes := ⟨rfl, ok_new b, Nat.zero_le _, rfl⟩

theorem At.position_add {x : Xdrbuf} {tail : List UInt8} (h : At b x tail) :
    x.position + tail.length = b.size := by
  have hlen := rest_length x
  have hle := h.off_le
  rw [h.rest, h.b_eq] at hlen
  rw [h.ok.position, b.size_eq_bytes]
  omega

theorem At.position {x : Xdrbuf} (h : At b x []) : x.position = b.size := h.position_add

/-- Padding is stepped over, whatever it is. -/
theorem At.moves_over {x y : Xdrbuf} {skipped tail : List UInt8} {n : Nat}
    (h : At b x (skipped ++ tail)) (hm : Moves x y n) (hskip : skipped.length = round4 n) :
    At b y tail := by
  have hlen := rest_length x
  have hround := le_round4 n
  have hle := h.off_le
  rw [h.rest, h.b_eq, List.length_append, hskip] at hlen
  have hn : n ≤ x.rest.length := by
    rw [h.rest, List.length_append, hskip]
    omega
  refine ⟨hm.b.trans h.b_eq, hm.ok, ?_, ?_⟩
  · rw [(hm.enough hn).1, h.b_eq]
    omega
  · rw [hm.rest hn, h.rest, ← hskip, List.drop_left]

theorem At.moves {x y : Xdrbuf} {tail : List UInt8} (h : At b x (bs ++ pad bs.length ++ tail))
    (hm : Moves x y bs.length) : At b y tail := by
  have hround := le_round4 bs.length
  refine h.moves_over hm ?_
  rw [List.length_append, length_pad]
  omega

theorem decodes_getData :
    Decodes (At b) (fun x => x.getData bs.length) (bs ++ pad bs.length) bs := by
  intro x tail h
  obtain ⟨hm, hbytes⟩ := getData_spec h.ok bs.length
  have hbs : (x.getData bs.length).2 = bs := by
    rw [hbytes, h.rest, List.append_assoc, List.take_left']
    rfl
  exact ⟨_, Prod.ext rfl hbs, h.moves hm⟩

/-- The readers of a number, in front of its bytes. -/
theorem decodes_number {α : Type} {w n : Nat} (hw : w % 4 = 0) (hn : n < 256 ^ w) {a : α}
    {g : List UInt8 → α} (hg : ∀ bs, ofBe bs = n → g bs = a) :
    Decodes (At b) (fun x => andThen (x.readBytes w) fun x bs => (x, .ret (bs.map g))) (be w n)
      (.ret (some a)) := by
  have hpad : pad (be w n).length = [] := by
    rw [length_be, pad, round4_of_mod hw, Nat.sub_self]
    rfl
  intro x tail h
  have hdec := @decodes_getData b (be w n)
  rw [hpad, List.append_nil, length_be] at hdec
  obtain ⟨y, hy, hat⟩ := hdec x tail h
  refine ⟨y, ?_, hat⟩
  dsimp only at hy ⊢
  rw [readBytes, hy]
  simp only [length_be, if_true, andThen_ret, Option.map_some, hg _ (ofBe_be hn)]

theorem decodes_readUInt64 (v : UInt64) :
    Decodes (At b) readUInt64 (be 8 v.toNat) (.ret (some v)) :=
  decodes_number rfl v.toNat_lt fun bs hbs => by rw [hbs, UInt64.ofNat_toNat]

theorem decodes_readUInt32 (v : UInt32) :
    Decodes (At b) readUInt32 (be 4 v.toNat) (.ret (some v)) :=
  decodes_number rfl v.toNat_lt fun bs hbs => by rw [hbs, UInt32.ofNat_toNat]

theorem decodes_readInt64 (v : Int64) :
    Decodes (At b) readInt64 (be 8 v.toUInt64.toNat) (.ret (some v)) :=
  decodes_number rfl v.toUInt64.toNat_lt fun bs hbs => by
    rw [hbs, UInt64.ofNat_toNat, Int64.toInt64_toUInt64]

theorem decodes_readInt32 (v : Int32) :
    Decodes (At b) readInt32 (be 4 v.toUInt32.toNat) (.ret (some v)) :=
  decodes_number rfl v.toUInt32.toNat_lt fun bs hbs => by
    rw [hbs, UInt32.ofNat_toNat, Int32.toInt32_toUInt32]

/-- Data as it is written: the length, the bytes, and the padding. -/
def counted (bs : List UInt8) : List UInt8 := be 8 bs.length ++ (bs ++ pad bs.length)

theorem length_counted (bs : List UInt8) : (counted bs).length = 8 + round4 bs.length := by
  have := le_round4 bs.length
  rw [counted, List.length_append, List.length_append, length_be, length_pad]
  omega

theorem toNat_length (h : bs.length < 2 ^ 64) : (UInt64.ofNat bs.length).toNat = bs.length := by
  rw [UInt64.toNat_ofNat', Nat.mod_eq_of_lt h]

theorem decodes_length (h : bs.length < 2 ^ 64) :
    Decodes (At b) readUInt64 (be 8 bs.length) (.ret (some (UInt64.ofNat bs.length))) := by
  have hdec := decodes_readUInt64 (b := b) (UInt64.ofNat bs.length)
  rw [toNat_length h] at hdec
  exact hdec

theorem length_eq_zero_iff (h : bs.length < 2 ^ 64) : UInt64.ofNat bs.length = 0 ↔ bs = [] := by
  rw [← UInt64.toNat_inj, toNat_length h, UInt64.toNat_zero, List.length_eq_zero_iff]

/-- The readers of strings, given memory. -/
theorem decodes_readCounted {cleared : List UInt8} {ensure : List UInt8 → List UInt8}
    (h : bs.length < 2 ^ 64) :
    Decodes (At b) (fun x => x.readCounted (fun _ => true) cleared ensure) (counted bs)
      (.ret (some (if bs = [] then cleared else ensure bs))) := by
  refine (decodes_length h).andThen fun x tail hx => ?_
  dsimp only
  rw [Option.getD_some]
  by_cases hnil : bs = []
  · subst hnil
    exact ⟨x, by simp, hx⟩
  · obtain ⟨y, hy, hat⟩ := decodes_getData x tail hx
    refine ⟨y, ?_, hat⟩
    rw [if_neg (fun he => hnil ((length_eq_zero_iff h).mp he)), if_pos rfl, toNat_length h, if_neg hnil]
    dsimp only at hy
    rw [hy, if_pos rfl]

/-- `get_data` into a buffer of the given size. -/
theorem decodes_getDataMax {max : UInt64} (h : bs.length ≤ max.toNat) :
    Decodes (At b) (fun x => x.getDataMax max.toNat max) (counted bs)
      (.ret (true, UInt64.ofNat bs.length, bs)) := by
  have hlt : bs.length < 2 ^ 64 := Nat.lt_of_le_of_lt h max.toNat_lt
  intro x tail hx
  rw [counted, List.append_assoc] at hx
  obtain ⟨x', hx', hat'⟩ := decodes_length hlt x _ hx
  obtain ⟨y, hy, hat⟩ := decodes_getData x' tail hat'
  refine ⟨y, ?_, hat⟩
  dsimp only at hy ⊢
  have hle : ¬ UInt64.ofNat bs.length > max := by
    rw [gt_iff_lt, UInt64.lt_iff_toNat_lt, toNat_length hlt]
    omega
  rw [getDataMax, hx', andThen_ret]
  dsimp only
  rw [Option.getD_some, if_neg hle, toNat_length hlt, hy]
  dsimp only
  rw [if_neg (by omega), if_pos rfl]

theorem bytes_appendPages (c : Pbuf) (ps : List Page8) :
    (appendPages c ps).1.bytes = c.bytes ++ ps.flatten ∧ (appendPages c ps).2 = true := by
  induction ps generalizing c with
  | nil => exact ⟨by simp [appendPages], rfl⟩
  | cons p ps ih =>
    rw [appendPages, Pbuf.append_snd, if_neg (by simp)]
    obtain ⟨h₁, h₂⟩ := ih (c.append p).1
    rw [h₁, Pbuf.bytes_append, List.append_assoc, List.flatten_cons]
    exact ⟨rfl, h₂⟩

theorem decodes_readPbuf {c : Pbuf} (h : c.size < 2 ^ 64) :
    Decodes (At b) (fun x => x.readPbuf Pbuf.init) (counted c.bytes) (.ret c) := by
  rw [c.size_eq_bytes] at h
  intro x tail hx
  rw [counted, List.append_assoc] at hx
  have hlen : 8 ≤ x.rest.length := by
    rw [hx.rest, List.length_append, length_be]
    omega
  have hne : ¬ x.AtEnd := fun he => by
    rw [hx.ok.rest_atEnd he, List.length_nil] at hlen
    omega
  obtain ⟨x', hx', hat'⟩ := decodes_length h x _ hx
  obtain ⟨y, hm, hy⟩ := readUInt64_enough hx.ok hlen
  rw [hx', Prod.mk.injEq] at hy
  obtain ⟨rfl, -⟩ := hy
  -- the length was read from a page, so the iterator can be followed
  obtain ⟨z, hz, hmoves, hbytes⟩ :=
    scanFrom_spec (n := c.bytes.length) hat'.ok ((hm.enough hlen).2 (by omega))
  rw [hat'.rest, List.append_assoc, List.take_left' rfl] at hbytes
  refine ⟨_, ?_, hat'.moves hmoves⟩
  have hc : (appendPages Pbuf.init (z.scanFrom c.bytes.length).2).1 = c := by
    refine Pbuf.ext_bytes ?_
    rw [(bytes_appendPages _ _).1, hbytes, Pbuf.bytes_init, List.nil_append]
  dsimp only
  rw [readPbuf, if_neg hne, hx', andThen_ret]
  dsimp only
  rw [hz, Option.getD_some, toNat_length h]
  dsimp only
  rw [hc, hbytes, if_neg (by simp)]

/-! ## Writers -/

theorem put_eq (x : Xdrbuf) (bs : List UInt8) :
    x.put bs = ({ x with b := (x.b.append bs).1 }, none) := by
  simp [put]

theorem sizeAndBufToPbuf_eq (c : Pbuf) (h : bs ≠ []) :
    ∃ c', sizeAndBufToPbuf c (some bs) = (c', none) ∧ c'.bytes = c.bytes ++ counted bs := by
  unfold sizeAndBufToPbuf
  simp only [if_neg h, Pbuf.append_snd, Bool.true_eq_false, if_false, if_true]
  by_cases hpad : pad bs.length = []
  · exact ⟨_, if_pos hpad, by simp [counted, hpad]⟩
  · exact ⟨_, if_neg hpad, by simp [counted]⟩

theorem putCounted_eq (x : Xdrbuf) (h : bs.length < 2 ^ 64) :
    ∃ c, x.putCounted (UInt64.ofNat bs.length) (some bs) = ({ x with b := c }, none) ∧
      c.bytes = x.b.bytes ++ counted bs := by
  by_cases hnil : bs = []
  · refine ⟨(x.b.append (be 8 0)).1, ?_, ?_⟩
    · rw [putCounted, if_pos ((length_eq_zero_iff h).mpr hnil), writeUInt64, put_eq]
      rfl
    · subst hnil
      rw [Pbuf.bytes_append]
      rfl
  · obtain ⟨c, hc, hbytes⟩ := sizeAndBufToPbuf_eq x.b hnil
    refine ⟨c, ?_, hbytes⟩
    rw [putCounted, if_neg (fun he => hnil ((length_eq_zero_iff h).mp he)), hc]
    simp

theorem writePbuf_eq (x : Xdrbuf) {c : Pbuf} (h : c.size < 2 ^ 64) :
    ∃ c', x.writePbuf c = ({ x with b := c' }, none) ∧ c'.bytes = x.b.bytes ++ counted c.bytes := by
  have hsz : (UInt64.ofNat c.size).toNat = c.size := by
    rw [UInt64.toNat_ofNat', Nat.mod_eq_of_lt h]
  have hbs := c.size_eq_bytes
  rw [writePbuf, writeUInt64, put_eq, hsz]
  dsimp only
  by_cases h0 : c.size = 0
  · refine ⟨(x.b.append (be 8 c.size)).1, if_pos h0, ?_⟩
    have hnil : c.bytes = [] := List.eq_nil_of_length_eq_zero (hbs.symm.trans h0)
    rw [Pbuf.bytes_append, counted, ← hbs, h0, hnil]
    rfl
  · obtain ⟨hpages, htrue⟩ := bytes_appendPages (x.b.append (be 8 c.size)).1 c.pages
    rw [if_neg h0, htrue, if_neg (by simp)]
    rw [Pbuf.bytes_append] at hpages
    by_cases hpad : pad c.size = []
    · refine ⟨_, if_pos hpad, ?_⟩
      rw [hpages, counted, ← hbs, hpad, List.append_nil, List.append_assoc]
      rfl
    · refine ⟨_, if_neg hpad, ?_⟩
      rw [Pbuf.bytes_append, hpages, counted, ← hbs, List.append_assoc, List.append_assoc]
      rfl

/-! ## Sequences of values -/

/-- A C string, without its zero. -/
structure CStr where
  chars : List UInt8
  no_nul : 0 ∉ chars
  fits : chars.length < 2 ^ 64

/-- A `ustr`: what its buffer holds before the trailing zero. -/
structure Ustr where
  chars : List UInt8
  fits : chars.length + 1 < 2 ^ 64

/-- A `str`: the bytes of whole characters that its buffer holds before the trailing zero. -/
structure Str where
  chars : List UInt8
  whole : chars.length % 4 = 0
  fits : chars.length + 4 < 2 ^ 64

def Ustr.buf (s : Ustr) : List UInt8 := s.chars ++ [0]

def Str.buf (s : Str) : List UInt8 := s.chars ++ List.replicate 4 0

/-- A value to write, with the room there will be for it when it is data of no type. -/
inductive Item
  | int32 (v : Int32) | uint32 (v : UInt32) | int64 (v : Int64) | uint64 (v : UInt64)
  | cstr (s : CStr) | ustr (s : Ustr) | str (s : Str)
  | bindata (bs : List UInt8) (max : UInt64) (h : bs.length ≤ max.toNat)
  | pbuf (c : Pbuf) (h : c.size < 2 ^ 64)

/-- A value read, strings with their buffers. -/
inductive Value
  | int32 (v : Int32) | uint32 (v : UInt32) | int64 (v : Int64) | uint64 (v : UInt64)
  | ustr (buf : List UInt8) | str (buf : List UInt8) | bindata (bs : List UInt8) | pbuf (c : Pbuf)
deriving DecidableEq

/-- What to read. -/
inductive Kind
  | int32 | uint32 | int64 | uint64 | ustr | str | bindata (max : UInt64) | pbuf

/-- The writer of a value. -/
def Item.write (x : Xdrbuf) : Item → Xdrbuf × Option Exc
  | .int32 v => x.writeInt32 v
  | .uint32 v => x.writeUInt32 v
  | .int64 v => x.writeInt64 v
  | .uint64 v => x.writeUInt64 v
  | .cstr s => x.writeCstr (some s.chars)
  | .ustr s => x.writeUstr s.buf
  | .str s => x.writeStr s.buf
  | .bindata bs _ _ => x.writeBindata (some bs) (UInt64.ofNat bs.length)
  | .pbuf c _ => x.writePbuf c

/-- Values in order, up to the first that throws. -/
def writeAll (x : Xdrbuf) : List Item → Xdrbuf × Option Exc
  | [] => (x, none)
  | i :: is =>
    let r := i.write x
    match r.2 with
    | some e => (r.1, some e)
    | none => writeAll r.1 is

/-- The reader of a kind; memory is there, and `stray` is what lies outside of short buffers.
    There is no value when the argument is not filled. -/
def Kind.read (stray : Bool) : Kind → Xdrbuf → Xdrbuf × Res Exc (Option Value)
  | .int32, x => andThen x.readInt32 fun x v => (x, .ret (v.map .int32))
  | .uint32, x => andThen x.readUInt32 fun x v => (x, .ret (v.map .uint32))
  | .int64, x => andThen x.readInt64 fun x v => (x, .ret (v.map .int64))
  | .uint64, x => andThen x.readUInt64 fun x v => (x, .ret (v.map .uint64))
  | .ustr, x => andThen (x.readUstr fun _ => true) fun x v => (x, .ret (v.map .ustr))
  | .str, x => andThen (x.readStr (fun _ => true) stray) fun x v => (x, .ret (v.map .str))
  | .bindata max, x =>
    andThen (x.getDataMax max.toNat max) fun x v =>
      (x, .ret (if v.1 then some (.bindata v.2.2) else none))
  | .pbuf, x => andThen (x.readPbuf Pbuf.init) fun x c => (x, .ret (some (.pbuf c)))

/-- The kind that matches a value; a C string is read as a `ustr`. -/
def Item.kind : Item → Kind
  | .int32 _ => .int32
  | .uint32 _ => .uint32
  | .int64 _ => .int64
  | .uint64 _ => .uint64
  | .cstr _ | .ustr _ => .ustr
  | .str _ => .str
  | .bindata _ max _ => .bindata max
  | .pbuf _ _ => .pbuf

/-- What reading should give. -/
def Item.value : Item → Value
  | .int32 v => .int32 v
  | .uint32 v => .uint32 v
  | .int64 v => .int64 v
  | .uint64 v => .uint64 v
  | .cstr s => .ustr (s.chars ++ [0])
  | .ustr s => .ustr s.buf
  | .str s => .str s.buf
  | .bindata bs _ _ => .bindata bs
  | .pbuf c _ => .pbuf c

/-- Writing the values to a fresh buffer does not throw, and reading them back gives them all
    and ends at the end. -/
def RoundTrips (stray : Bool) (items : List Item) : Prop :=
  let w := writeAll (new Pbuf.init) items
  let r := readAll (Kind.read stray) (items.map Item.kind) (new w.1.b)
  w.2 = none ∧ r.2 = .ret (items.map fun i => some i.value) ∧ r.1.position = w.1.b.size

/-! ## Each value on its own -/

/-- The bytes written for a value. -/
def Item.encode : Item → List UInt8
  | .int32 v => be 4 v.toUInt32.toNat
  | .uint32 v => be 4 v.toNat
  | .int64 v => be 8 v.toUInt64.toNat
  | .uint64 v => be 8 v.toNat
  | .cstr s => counted s.chars
  | .ustr s => counted s.buf
  | .str s => counted s.chars
  | .bindata bs _ _ => counted bs
  | .pbuf c _ => counted c.bytes

/-- What reading does give: to a wide string that ends with a zero none is added. -/
def Item.readBack : Item → Value
  | .str s =>
    .str (if s.chars.drop (s.chars.length - 4) = List.replicate 4 0 then s.chars else s.buf)
  | i => i.value

theorem strSize_buf (s : Str) : strSize s.buf * 4 = s.chars.length := by
  have hw := s.whole
  unfold strSize Str.buf
  rw [List.length_append, List.length_replicate, if_neg (by omega)]
  omega

theorem length_buf_ne_zero (s : Str) : UInt64.ofNat s.buf.length ≠ 0 := by
  have hf := s.fits
  have hlen : s.buf.length = s.chars.length + 4 := by simp [Str.buf]
  intro h
  rw [length_eq_zero_iff (by omega)] at h
  rw [h, List.length_nil] at hlen
  omega

theorem writeStr_eq (x : Xdrbuf) (s : Str) :
    x.writeStr s.buf =
      ({ x with b := (sizeAndBufToPbuf x.b (some s.chars)).1 },
        if x.useExc then (sizeAndBufToPbuf x.b (some s.chars)).2 else none) := by
  have htake : s.buf.take (strSize s.buf * 4) = s.chars := by
    rw [strSize_buf, Str.buf, List.take_left' rfl]
  rw [writeStr, htake, putCounted, if_neg (length_buf_ne_zero s)]

/-- An empty wide string is not written. -/
theorem writeStr_nil {x : Xdrbuf} (hexc : x.useExc = true) {s : Str} (h : s.chars = []) :
    (x.writeStr s.buf).2 = some .rsCannotAppend := by
  rw [writeStr_eq, h, hexc]
  rfl

/-- **Every other value is written**, behind what is there. -/
theorem Item.write_eq (x : Xdrbuf) (i : Item) (h : ∀ s, i = .str s → s.chars ≠ []) :
    ∃ c, i.write x = ({ x with b := c }, none) ∧ c.bytes = x.b.bytes ++ i.encode := by
  cases i with
  | int32 v => exact ⟨_, put_eq x _, Pbuf.bytes_append _ _⟩
  | uint32 v => exact ⟨_, put_eq x _, Pbuf.bytes_append _ _⟩
  | int64 v => exact ⟨_, put_eq x _, Pbuf.bytes_append _ _⟩
  | uint64 v => exact ⟨_, put_eq x _, Pbuf.bytes_append _ _⟩
  | cstr s => exact putCounted_eq x s.fits
  | ustr s => exact putCounted_eq x (by simpa [Ustr.buf] using s.fits)
  | str s =>
    obtain ⟨c, hc, hbytes⟩ := sizeAndBufToPbuf_eq x.b (h s rfl)
    refine ⟨c, ?_, hbytes⟩
    rw [Item.write, writeStr_eq, hc]
    simp
  | bindata bs max hle => exact putCounted_eq x (Nat.lt_of_le_of_lt hle max.toNat_lt)
  | pbuf c hlt => exact writePbuf_eq x hlt

/-- A string of whole characters is not looked at outside its bounds. -/
theorem strEnsure_whole {s : Str} (h : s.chars ≠ []) (stray : Bool) :
    strEnsureTrailingZero stray s.chars =
      if s.chars.drop (s.chars.length - 4) = List.replicate 4 0 then s.chars else s.buf := by
  have hlen := List.length_pos_iff.mpr h
  have hw := s.whole
  have hidx : 4 * (s.chars.length / 4 - 1) = s.chars.length - 4 := by omega
  have htake : (s.chars.drop (s.chars.length - 4)).take 4 = s.chars.drop (s.chars.length - 4) :=
    List.take_of_length_le (by rw [List.length_drop]; omega)
  unfold strEnsureTrailingZero
  rw [if_neg h, if_neg (show ¬ s.chars.length < 4 by omega), hidx, htake, ite_not]
  rfl

/-- A reader's value in other terms. -/
theorem decodes_map {α β : Type} {read : Xdrbuf → Xdrbuf × Res Exc α} {f : α → β}
    {enc : List UInt8} {a : α} (h : Decodes (At b) read enc (.ret a)) :
    Decodes (At b) (fun x => andThen (read x) fun x v => (x, .ret (f v))) enc (.ret (f a)) := by
  have hd := h.andThen (f := fun x v => (x, .ret (f v))) decodes_ret
  rwa [List.append_nil] at hd

theorem decodes_readUstr (s : Ustr) : Decodes (At b) (fun x => x.readUstr fun _ => true)
    (counted s.buf) (.ret (some s.buf)) := by
  have hbuf : (if s.buf = [] then [0] else ustrEnsureTrailingZero s.buf) = s.buf := by
    rw [Ustr.buf, if_neg (by simp), ustrEnsureTrailingZero, if_pos List.getLast?_concat]
  have hd := @decodes_readCounted b s.buf [0] ustrEnsureTrailingZero
    (by simpa [Ustr.buf] using s.fits)
  rw [hbuf] at hd
  exact hd

theorem decodes_readStr (stray : Bool) {s : Str} (h : s.chars ≠ []) :
    Decodes (At b) (fun x => x.readStr (fun _ => true) stray) (counted s.chars)
      (.ret (some (if s.chars.drop (s.chars.length - 4) = List.replicate 4 0 then s.chars
        else s.buf))) := by
  have hfits : s.chars.length < 2 ^ 64 := by
    have := s.fits
    omega
  have hd := @decodes_readCounted b s.chars (List.replicate 4 0) (strEnsureTrailingZero stray)
    hfits
  rw [if_neg h, strEnsure_whole h] at hd
  exact hd

/-- **Every value is read back** from its bytes. -/
theorem Item.decodes (stray : Bool) (i : Item) (h : ∀ s, i = .str s → s.chars ≠ []) :
    Decodes (At b) (i.kind.read stray) i.encode (.ret (some i.readBack)) := by
  cases i with
  | int32 v => exact decodes_map (decodes_readInt32 v)
  | uint32 v => exact decodes_map (decodes_readUInt32 v)
  | int64 v => exact decodes_map (decodes_readInt64 v)
  | uint64 v => exact decodes_map (decodes_readUInt64 v)
  | cstr s =>
    have hbuf : (if s.chars = [] then [0] else ustrEnsureTrailingZero s.chars) =
        s.chars ++ [0] := by
      by_cases hnil : s.chars = []
      · rw [if_pos hnil, hnil]
        rfl
      · have hlast : s.chars.getLast? ≠ some 0 := fun hl => s.no_nul (List.mem_of_getLast? hl)
        rw [if_neg hnil, ustrEnsureTrailingZero, if_neg hlast]
    have hd := @decodes_readCounted b s.chars [0] ustrEnsureTrailingZero s.fits
    rw [hbuf] at hd
    exact decodes_map hd
  | ustr s => exact decodes_map (decodes_readUstr s)
  | str s => exact decodes_map (decodes_readStr stray (h s rfl))
  | bindata bs max hle => exact decodes_map (decodes_getDataMax hle)
  | pbuf c hlt => exact decodes_map (decodes_readPbuf hlt)

/-! ## Sequences -/

theorem writeAll_eq (items : List Item) (x : Xdrbuf) (h : ∀ s, Item.str s ∈ items → s.chars ≠ []) :
    ∃ c, writeAll x items = ({ x with b := c }, none) ∧
      c.bytes = x.b.bytes ++ items.flatMap Item.encode := by
  induction items generalizing x with
  | nil => exact ⟨x.b, rfl, by simp⟩
  | cons i items ih =>
    obtain ⟨c, hc, hbytes⟩ := i.write_eq x fun s hs => h s (by rw [hs]; exact List.mem_cons_self ..)
    obtain ⟨d, hd, htail⟩ := ih { x with b := c } fun s hs => h s (List.mem_cons_of_mem i hs)
    refine ⟨d, ?_, ?_⟩
    · rw [writeAll, hc]
      exact hd
    · rw [htail, hbytes, List.flatMap_cons, List.append_assoc]

/-- With an empty wide string among the values, the writers throw. -/
theorem writeAll_throws {items : List Item} {x : Xdrbuf} (hexc : x.useExc = true) {s : Str}
    (hmem : Item.str s ∈ items) (hnil : s.chars = []) : (writeAll x items).2 ≠ none := by
  induction items generalizing x with
  | nil => cases hmem
  | cons i items ih =>
    rw [writeAll]
    by_cases hi : ∃ t, i = .str t ∧ t.chars = []
    · obtain ⟨t, rfl, ht⟩ := hi
      rw [show (Item.str t).write x = x.writeStr t.buf from rfl, writeStr_nil hexc ht]
      exact Option.some_ne_none _
    · obtain ⟨c, hc, -⟩ := i.write_eq x fun t ht hn => hi ⟨t, ht, hn⟩
      have htail : Item.str s ∈ items := by
        rcases List.mem_cons.mp hmem with he | htail
        · exact absurd ⟨s, he.symm, hnil⟩ hi
        · exact htail
      rw [hc]
      exact ih (x := { x with b := c }) hexc htail

/-- What is read back is what was written, but for a wide string that ends with a zero. -/
theorem Item.readBack_eq_iff (i : Item) : i.readBack = i.value ↔
    ∀ s, i = .str s → s.chars.drop (s.chars.length - 4) ≠ List.replicate 4 0 := by
  cases i with
  | str s =>
    have hlen : s.buf ≠ s.chars := fun he => by
      have := congrArg List.length he
      simp [Str.buf] at this
    rw [Item.readBack, Item.value]
    by_cases hz : s.chars.drop (s.chars.length - 4) = List.replicate 4 0
    · rw [if_pos hz]
      exact ⟨fun he => absurd (Value.str.inj he).symm hlen, fun h => absurd hz (h s rfl)⟩
    · rw [if_neg hz]
      refine ⟨fun _ t ht => ?_, fun _ => rfl⟩
      cases ht
      exact hz
  | _ => simp [Item.readBack]

/-- **What is written is read back** exactly when no wide string among it is empty or ends with
    a zero character. -/
theorem roundTrips_iff (stray : Bool) (items : List Item) : RoundTrips stray items ↔
    ∀ s, Item.str s ∈ items →
      s.chars ≠ [] ∧ s.chars.drop (s.chars.length - 4) ≠ List.replicate 4 0 := by
  by_cases hempty : ∃ s, Item.str s ∈ items ∧ s.chars = []
  · obtain ⟨s, hmem, hnil⟩ := hempty
    constructor
    · intro h
      exact absurd h.1 (writeAll_throws rfl hmem hnil)
    · intro h
      exact absurd hnil (h s hmem).1
  · have hne : ∀ s, Item.str s ∈ items → s.chars ≠ [] := fun s hs hn => hempty ⟨s, hs, hn⟩
    obtain ⟨c, hw, hbytes⟩ := writeAll_eq items (new Pbuf.init) hne
    have hall : Decodes (At c) (readAll (Kind.read stray) (items.map Item.kind))
        (items.flatMap Item.encode) (.ret (items.map fun i => some i.readBack)) :=
      Decodes.all fun i hi => i.decodes stray fun s hs => hne s (hs ▸ hi)
    have hat := at_new c
    rw [hbytes, show (new Pbuf.init).b.bytes = [] from Pbuf.bytes_init, List.nil_append,
      ← List.append_nil (items.flatMap _)] at hat
    obtain ⟨y, hy, hend⟩ := hall (new c) [] hat
    have hread : RoundTrips stray items ↔
        items.map (fun i => some i.readBack) = items.map fun i => some i.value := by
      unfold RoundTrips
      rw [hw]
      dsimp only
      rw [hy, hend.position]
      simp
    rw [hread, List.map_inj_left]
    simp only [Option.some.injEq, Item.readBack_eq_iff]
    constructor
    · exact fun h s hs => ⟨hne s hs, h _ hs s rfl⟩
    · rintro h i hi s rfl
      exact (h s hi).2

/-- The empty wide string is not written, and a wide string of the two characters `'a'` and 0
    comes back as the first alone. -/
theorem roundTrips_fails :
    ¬ RoundTrips false [.str ⟨[], by decide, by decide⟩] ∧
      ¬ RoundTrips false [.str ⟨[97, 0, 0, 0, 0, 0, 0, 0], by decide, by decide⟩] := by
  constructor
  · exact fun h => absurd h.1 (by decide)
  · exact fun h => absurd h.2.1 (by decide)

end Xdrbuf

end CodeSLoop
