import CodeSLoop.Common.XdrReads

/-!
# XDR of variables (`common/int64.cc`, `common/str.cc`, `common/ustr.cc`, `common/binry.cc`)

The four classes of `var` write themselves with `to_xdr` and read themselves with `from_xdr`,
which answer whether that went well, the exceptions of `xdrbuf` being caught. Are sequences of
them read back as they were written? `roundTrips_iff` says for which (`Var.Good`):

* An `int64` goes as two signed halves and comes back as their sum, so a low half that is
  negative costs the high half one.
* An empty `str` is not written, and one whose last character is zero comes back without it
  (`XdrRoundTrip`).
* A `binry` is never read. `get_data<T>` looks at four bytes for the size where eight were
  written, and finds the high half of it: 0, which is as good as an empty binary, and nothing is
  taken from the stream. From there on the reader lags behind the writer, and it does not catch
  up: as long as no single string has 4 GiB, what lies between the two are the words 0 and 1, and
  of these there are two at least (`Lagging`).
-/

namespace CodeSLoop

open Bytes Codec Xdrbuf

universe u

namespace VarXdr

/-! ## The classes -/

/-- `try { … return true; } catch( exc e ) { return false; }`, for a writer. -/
def tried (r : Xdrbuf × Option Exc) : Xdrbuf × Bool := (r.1, r.2.isNone)

/-- The same for a reader: what the variable holds after `true`, and none for `false`. -/
def caught {α : Type u} (r : Xdrbuf × Res Exc (Option α)) : Xdrbuf × Res Exc (Option α) :=
  match r.2 with
  | .thrown _ => (r.1, .ret none)
  | _ => r

/-- `static_cast<int32_t>(value_>>32)`. -/
def high (value : Int64) : Int32 := (value >>> 32).toInt32

/-- `static_cast<int32_t>(value_&0xffffffff)`. -/
def low (value : Int64) : Int32 := (value &&& 0xffffffff).toInt32

/-- `(static_cast<int64_t>(high)<<32) + static_cast<int64_t>(low)`. -/
def recombine (high low : Int32) : Int64 := (high.toInt64 <<< 32) + low.toInt64

/-- `int64::to_xdr`. -/
def int64ToXdr (value : Int64) (b : Xdrbuf) : Xdrbuf × Bool :=
  let r := b.writeInt32 (high value)
  match r.2 with
  | some _ => (r.1, false)
  | none => tried (r.1.writeInt32 (low value))

/-- `int64::from_xdr`. -/
def int64FromXdr (v : Xdrbuf) : Xdrbuf × Res Exc (Option Value) :=
  caught (andThen v.readInt32 fun v high => andThen v.readInt32 fun v low =>
    (v, .ret (some (.int64 (recombine (high.getD 0) (low.getD 0))))))

/-- `from_xdr` of the strings, from what `operator>>` does; `buf` is what is in the buffer of
    the fresh variable, and stays there when the argument is not filled. -/
def bufFromXdr (f : List UInt8 → Value) (buf : List UInt8)
    (r : Xdrbuf × Res Exc (Option (List UInt8))) : Xdrbuf × Res Exc (Option Value) :=
  caught (andThen r fun v bs => (v, .ret (some (f (bs.getD buf)))))

/-- `str::to_xdr`. -/
def strToXdr (buf : List UInt8) (b : Xdrbuf) : Xdrbuf × Bool := tried (b.writeStr buf)

/-- `str::from_xdr`. -/
def strFromXdr (stray : Bool) (v : Xdrbuf) : Xdrbuf × Res Exc (Option Value) :=
  bufFromXdr .str (List.replicate 4 0) (v.readStr (fun _ => true) stray)

/-- `ustr::to_xdr`. -/
def ustrToXdr (buf : List UInt8) (b : Xdrbuf) : Xdrbuf × Bool := tried (b.writeUstr buf)

/-- `ustr::from_xdr`. -/
def ustrFromXdr (v : Xdrbuf) : Xdrbuf × Res Exc (Option Value) :=
  bufFromXdr .ustr [0] (v.readUstr fun _ => true)

/-- `binry::to_xdr`. -/
def binryToXdr (value : List UInt8) (b : Xdrbuf) : Xdrbuf × Bool :=
  tried (b.writeBindata (some value) (UInt64.ofNat value.length))

/-- `binry::from_xdr`. -/
def binryFromXdr (v : Xdrbuf) : Xdrbuf × Res Exc (Option Value) :=
  caught (andThen (v.getDataT (fun _ => true) 0 0x3fffffff) fun v r =>
    (v, .ret (if r.2.1 = 0 then some (.bindata []) else if r.1 = false then none
      else some (.bindata r.2.2))))

/-! ## Sequences of variables -/

/-- A variable with its value: strings by what is in their buffers (`XdrRoundTrip`). -/
inductive Var
  | int64 (v : Int64) | str (s : Str) | ustr (s : Ustr)
  | binry (bs : List UInt8) (fits : bs.length < 2 ^ 64)

/-- The classes. -/
inductive Kind
  | int64 | str | ustr | binry

def Var.kind : Var → Kind
  | .int64 _ => .int64
  | .str _ => .str
  | .ustr _ => .ustr
  | .binry _ _ => .binry

def Var.value : Var → Value
  | .int64 v => .int64 v
  | .str s => .str s.buf
  | .ustr s => .ustr s.buf
  | .binry bs _ => .bindata bs

def Var.toXdr (b : Xdrbuf) : Var → Xdrbuf × Bool
  | .int64 v => int64ToXdr v b
  | .str s => strToXdr s.buf b
  | .ustr s => ustrToXdr s.buf b
  | .binry bs _ => binryToXdr bs b

/-- `from_xdr` of a fresh variable of the class. -/
def Kind.fromXdr (stray : Bool) : Kind → Xdrbuf → Xdrbuf × Res Exc (Option Value)
  | .int64 => int64FromXdr
  | .str => strFromXdr stray
  | .ustr => ustrFromXdr
  | .binry => binryFromXdr

/-- Variables in order, and whether every `to_xdr` returns `true`. -/
def writeAll (b : Xdrbuf) : List Var → Xdrbuf × Bool
  | [] => (b, true)
  | v :: vs =>
    let r := v.toXdr b
    let s := writeAll r.1 vs
    (s.1, r.2 && s.2)

/-- Every variable is written to the one `xdrbuf`, and after `rewind()` every one is read back
    with its value, to the end. -/
def RoundTrips (stray : Bool) (vs : List Var) : Prop :=
  let w := writeAll (new Pbuf.init) vs
  let r := readAll (Kind.fromXdr stray) (vs.map Var.kind) w.1.rewind
  w.2 = true ∧ r.2 = .ret (vs.map fun v => some v.value) ∧ r.1.position = w.1.b.size

/-- The variables that are read back: an `int64` of which bit 31 is not set, a `str` that is not
    empty and does not end with a zero character of its own, and every `ustr`. -/
def Var.Good : Var → Prop
  | .int64 v => 0 ≤ low v
  | .str s => s.chars ≠ [] ∧ s.chars.drop (s.chars.length - 4) ≠ List.replicate 4 0
  | .ustr _ => True
  | .binry _ _ => False

/-- The variables but for strings of 4 GiB. -/
def Var.Small : Var → Prop
  | .str s => s.buf.length < 4294967296
  | .ustr s => s.buf.length < 4294967296
  | .int64 _ | .binry _ _ => True

/-- The variables that are written: all but the empty `str`. -/
def Var.Written (v : Var) : Prop := ∀ s, v = .str s → s.chars ≠ []

/-- The bytes that a variable is written as. -/
def Var.encode : Var → List UInt8
  | .int64 v => be 4 (high v).toUInt32.toNat ++ be 4 (low v).toUInt32.toNat
  | .str s => counted s.chars
  | .ustr s => counted s.buf
  | .binry bs _ => counted bs

/-! ## The halves of a number -/

theorem toInt_high (v : Int64) : (high v).toInt = v.toInt / 4294967296 := by
  have h32 : (Int64.toBitVec 32).smod 64 = 32#64 := by decide
  have hshift : (v >>> 32).toInt = v.toInt / 4294967296 := by
    rw [← Int64.toInt_toBitVec, Int64.toBitVec_shiftRight, h32, BitVec.toInt_sshiftRight',
      ← Int64.toInt_toBitVec, Int.shiftRight_eq_div_pow]
    rfl
  have hle := v.le_toInt
  have hlt := v.toInt_lt
  rw [high, Int64.toInt_toInt32, hshift]
  exact Int.bmod_eq_of_le (by omega) (by omega)

theorem toInt_low (v : Int64) : (low v).toInt = v.toInt.bmod 4294967296 := by
  have hones : (4294967295 : Int64).toInt32 = -1 := by decide
  rw [low, Int64.toInt32_and, hones, Int32.and_neg_one, Int64.toInt_toInt32]

theorem toInt_shl (h : Int32) : (h.toInt64 <<< 32).toInt = h.toInt * 4294967296 := by
  have h32 : (Int64.toBitVec 32).smod 64 = 32#64 := by decide
  have hpow : (4294967296 : Int64).toInt = 4294967296 := by decide
  have hmul : h.toInt64 <<< 32 = h.toInt64 * 4294967296 := by
    rw [← Int64.toBitVec_inj, Int64.toBitVec_shiftLeft, Int64.toBitVec_mul, h32,
      BitVec.shiftLeft_eq', BitVec.shiftLeft_eq_mul_twoPow]
    congr 1
  have hle := h.le_toInt
  have hlt := h.toInt_lt
  rw [hmul, Int64.toInt_mul, Int32.toInt_toInt64, hpow]
  exact Int.bmod_eq_of_le (by omega) (by omega)

/-- **The halves make up the number** when the low one is not negative. -/
theorem recombine_eq_iff (v : Int64) : recombine (high v) (low v) = v ↔ 0 ≤ low v := by
  have hmod : (low v).toInt % 4294967296 = v.toInt % 4294967296 := by
    rw [toInt_low]
    exact Int.bmod_emod
  have hl := (low v).le_toInt
  have hlt := (low v).toInt_lt
  have hv := v.le_toInt
  have hvlt := v.toInt_lt
  rw [← Int64.toInt_inj, recombine, Int64.toInt_add, toInt_shl, Int32.toInt_toInt64, toInt_high,
    Int32.le_iff_toInt_le, Int32.toInt_zero]
  constructor
  · intro h
    have hback := congrArg (· % (18446744073709551616 : Int)) h
    have hsum : (v.toInt / 4294967296 * 4294967296 + (low v).toInt) % 18446744073709551616 =
        v.toInt % 18446744073709551616 := Int.bmod_emod.symm.trans hback
    omega
  · intro h
    have hsum : v.toInt / 4294967296 * 4294967296 + (low v).toInt = v.toInt := by omega
    rw [hsum]
    exact Int.bmod_eq_of_le (by omega) (by omega)

/-! ## Each variable on its own -/

variable {b : Pbuf} {x : Xdrbuf} {stray : Bool} {tail : List UInt8}

/-- The reader stands in front of `tail`, with exceptions in use. -/
def Before (b : Pbuf) (x : Xdrbuf) (tail : List UInt8) : Prop := At b x tail ∧ x.useExc = true

theorem useExc_readInt32 (h : x.Ok) : x.readInt32.1.useExc = x.useExc := by
  by_cases h4 : 4 ≤ x.rest.length
  · obtain ⟨y, hm, hy⟩ := readNumber_enough h h4 fun bs => (UInt32.ofNat (ofBe bs)).toInt32
    rw [readInt32, hy]
    exact hm.useExc
  · obtain ⟨y, e, hm, hy⟩ :=
      readNumber_short h (Nat.lt_of_not_le h4) fun bs => (UInt32.ofNat (ofBe bs)).toInt32
    rw [readInt32, hy]
    exact hm.useExc

/-- The reader of a number that is there. -/
theorem before_readInt32 (v : Int32) :
    Decodes (Before b) readInt32 (be 4 v.toUInt32.toNat) (.ret (some v)) :=
  (decodes_readInt32 v).keep fun _ _ hx hexc => (useExc_readInt32 hx.ok).trans hexc

theorem decodes_int64FromXdr (h l : Int32) :
    Decodes (Before b) int64FromXdr (be 4 h.toUInt32.toNat ++ be 4 l.toUInt32.toNat)
      (.ret (some (.int64 (recombine h l)))) := by
  have hread := (before_readInt32 (b := b) h).andThen
    (f := fun v high => andThen v.readInt32 fun v low =>
      (v, .ret (some (Value.int64 (recombine (high.getD 0) (low.getD 0))))))
    ((before_readInt32 l).andThen decodes_ret)
  rw [List.append_nil] at hread
  intro x tail hx
  obtain ⟨y, hy, hat⟩ := hread x tail hx
  dsimp only at hy
  exact ⟨y, by rw [int64FromXdr, hy]; rfl, hat⟩

theorem useExc_readCounted {cleared : List UInt8} {ensure : List UInt8 → List UInt8} (h : x.Ok) :
    (x.readCounted (fun _ => true) cleared ensure).1.useExc = x.useExc := by
  by_cases h8 : 8 ≤ x.rest.length
  · by_cases h0 : x.announced = 0
    · obtain ⟨y, hm, hy⟩ := @readCounted_none x _ cleared ensure h h8 (Or.inl h0)
      rw [hy]
      exact hm.useExc
    · obtain ⟨y, z, hm, hm', e, hz⟩ :=
        @readCounted_enough x (fun _ => true) cleared ensure h h8 h0 rfl
      rw [hz]
      exact hm'.useExc.trans hm.useExc
  · obtain ⟨y, e, hm, hy⟩ := @readCounted_short x _ cleared ensure h (Nat.lt_of_not_le h8)
    rw [hy]
    exact hm.useExc

/-- The strings are read as by `operator>>`. -/
theorem decodes_bufFromXdr {cleared buf : List UInt8} {ensure : List UInt8 → List UInt8}
    {f : List UInt8 → Value} {enc bs : List UInt8}
    (h : Decodes (At b) (fun x => x.readCounted (fun _ => true) cleared ensure) enc
      (.ret (some bs))) :
    Decodes (Before b) (fun x => bufFromXdr f buf (x.readCounted (fun _ => true) cleared ensure))
      enc (.ret (some (f bs))) := by
  have hkeep := h.keep (P := fun x => x.useExc = true)
    fun x tail hx hexc => (useExc_readCounted hx.ok).trans hexc
  intro x tail hx
  obtain ⟨y, hy, hat⟩ := hkeep x tail hx
  dsimp only at hy ⊢
  exact ⟨y, by rw [hy]; rfl, hat⟩

/-- **A `binry` is not read**: the stream is left as it is, and the binary is empty if `true` is
    returned. -/
theorem binryFromXdr_eq (h : x.Ok) (h8 : 8 ≤ x.rest.length) : binryFromXdr x =
    (x, .ret (if x.announced32 ≤ 0 ∨ x.announced32.toUInt64 > 0x3fffffff then some (.bindata [])
      else none)) := by
  have heq := getDataT_eq h (Nat.le_trans (by decide) h8) (fun _ => true) 0 0x3fffffff
  rw [binryFromXdr, heq]
  by_cases hsz : x.announced32 ≤ 0 ∨ x.announced32.toUInt64 > 0x3fffffff
  · rw [if_pos hsz, if_pos hsz]
    rfl
  · -- a high half that is not 0 makes the whole size too large
    have hle := x.announced32_le h8
    have h0 : ¬ x.announced32.toNat ≤ 0 := fun h0 => hsz (Or.inl (UInt32.le_iff_toNat_le.mpr h0))
    have hgt : x.announced > 0x3fffffff := by
      rw [gt_iff_lt, UInt64.lt_iff_toNat_lt]
      exact Nat.lt_of_lt_of_le (by decide : (0x3fffffff : UInt64).toNat < 2 ^ 32) (by omega)
    have hne : x.announced ≠ 0 := fun he => by
      rw [he] at hgt
      exact absurd hgt (by decide)
    rw [if_neg hsz, if_neg hsz, getDataMax_above h h8 hgt, andThen_ret]
    dsimp only
    rw [if_neg hne, if_pos rfl]
    rfl

theorem eq_nil_of_binryFromXdr {bs : List UInt8} (h : x.Ok) (h8 : 8 ≤ x.rest.length)
    (hr : (binryFromXdr x).2 = .ret (some (.bindata bs))) : bs = [] ∧ (binryFromXdr x).1 = x := by
  rw [binryFromXdr_eq h h8] at hr ⊢
  refine ⟨?_, rfl⟩
  split at hr
  · cases hr
    rfl
  · cases hr

/-- What reading a variable back gives, in front of its bytes. -/
def Var.readBack : Var → Value
  | .int64 v => .int64 (recombine (high v) (low v))
  | .str s => (Item.str s).readBack
  | v => v.value

theorem Var.readBack_eq_iff {v : Var} (hw : v.Written) (hb : v.kind ≠ .binry) :
    v.readBack = v.value ↔ v.Good := by
  cases v with
  | int64 v => exact Value.int64.injEq .. ▸ recombine_eq_iff v
  | str s =>
    rw [Var.Good, and_iff_right (hw s rfl)]
    exact (Item.readBack_eq_iff (.str s)).trans
      ⟨fun h => h s rfl, fun h t ht => by cases ht; exact h⟩
  | ustr s => exact iff_of_true rfl trivial
  | binry bs fits => exact absurd rfl hb

/-- **Every other variable is read** from its bytes. -/
theorem Var.decodes {v : Var} (hw : v.Written) (hb : v.kind ≠ .binry) :
    Decodes (Before b) (v.kind.fromXdr stray) v.encode (.ret (some v.readBack)) := by
  cases v with
  | int64 v => exact decodes_int64FromXdr _ _
  | str s => exact decodes_bufFromXdr (decodes_readStr stray (hw s rfl))
  | ustr s => exact decodes_bufFromXdr (decodes_readUstr s)
  | binry bs fits => exact absurd rfl hb

/-! ## Writing -/

/-- **Every variable but the empty `str` is written**, behind what is there. -/
theorem Var.toXdr_eq (x : Xdrbuf) {v : Var} (hw : v.Written) :
    ∃ c, v.toXdr x = ({ x with b := c }, true) ∧ c.bytes = x.b.bytes ++ v.encode := by
  cases v with
  | int64 v =>
    refine ⟨((x.b.append (be 4 (high v).toUInt32.toNat)).1.append
      (be 4 (low v).toUInt32.toNat)).1, ?_, ?_⟩
    · rw [Var.toXdr, int64ToXdr, writeInt32, put_eq]
      dsimp only
      rw [writeInt32, put_eq]
      rfl
    · rw [Pbuf.bytes_append, Pbuf.bytes_append, List.append_assoc]
      rfl
  | str s =>
    obtain ⟨c, hc, hbytes⟩ := (Item.str s).write_eq x fun t ht => by cases ht; exact hw s rfl
    exact ⟨c, by rw [Var.toXdr, strToXdr, show x.writeStr s.buf = _ from hc]; rfl, hbytes⟩
  | ustr s =>
    obtain ⟨c, hc, hbytes⟩ := @putCounted_eq s.buf x (by simpa [Ustr.buf] using s.fits)
    exact ⟨c, by rw [Var.toXdr, ustrToXdr, writeUstr, hc]; rfl, hbytes⟩
  | binry bs fits =>
    obtain ⟨c, hc, hbytes⟩ := putCounted_eq x fits
    exact ⟨c, by rw [Var.toXdr, binryToXdr, writeBindata, hc]; rfl, hbytes⟩

theorem writeAll_eq {vs : List Var} (x : Xdrbuf) (hw : ∀ v ∈ vs, v.Written) :
    ∃ c, writeAll x vs = ({ x with b := c }, true) ∧
      c.bytes = x.b.bytes ++ vs.flatMap Var.encode := by
  induction vs generalizing x with
  | nil => exact ⟨x.b, rfl, by simp⟩
  | cons v vs ih =>
    obtain ⟨c, hc, hbytes⟩ := v.toXdr_eq x (hw v (List.mem_cons_self ..))
    obtain ⟨d, hd, htail⟩ := ih { x with b := c } fun u hu => hw u (List.mem_cons_of_mem v hu)
    refine ⟨d, ?_, ?_⟩
    · rw [writeAll, hc]
      dsimp only
      rw [hd, Bool.and_self]
    · rw [htail, hbytes, List.flatMap_cons, List.append_assoc]

/-- When every `to_xdr` returns `true`, there is no empty `str`. -/
theorem written_of_writeAll {vs : List Var} (hexc : x.useExc = true)
    (h : (writeAll x vs).2 = true) : ∀ v ∈ vs, v.Written := by
  induction vs generalizing x with
  | nil => exact fun v hv => absurd hv List.not_mem_nil
  | cons v vs ih =>
    rw [writeAll] at h
    obtain ⟨hhead, htail⟩ := (Bool.and_eq_true _ _).mp h
    have hv : v.Written := by
      intro s hs hnil
      subst hs
      rw [Var.toXdr, strToXdr, tried, writeStr_nil hexc hnil] at hhead
      cases hhead
    obtain ⟨c, hc, -⟩ := v.toXdr_eq x hv
    rw [hc] at htail
    intro u hu
    rcases List.mem_cons.mp hu with rfl | hu
    · exact hv
    · exact ih (x := { x with b := c }) hexc htail u hu

/-! ## A reader that lags behind -/

/-- The words 0 and 1. -/
def word (a : Bool) : List UInt8 := [0, 0, 0, if a then 1 else 0]

@[simp] theorem length_word (a : Bool) : (word a).length = 4 := rfl

/-- A reader before words that were to be read already, and `tail`. -/
structure Lagging (b : Pbuf) (x : Xdrbuf) (ws : List Bool) (tail : List UInt8) : Prop where
  two_le : 2 ≤ ws.length
  before : Before b x (ws.flatMap word ++ tail)

theorem length_words (ws : List Bool) : (ws.flatMap word).length = 4 * ws.length := by
  induction ws with
  | nil => rfl
  | cons a ws ih =>
    rw [List.flatMap_cons, List.length_append, ih, length_word, List.length_cons]
    omega

theorem Lagging.exists_two {ws : List Bool} (h : Lagging b x ws tail) :
    ∃ a c us, ws = a :: c :: us := by
  have htwo := h.two_le
  rcases ws with _ | ⟨a, _ | ⟨c, us⟩⟩
  · exact absurd htwo (by simp)
  · exact absurd htwo (by simp)
  · exact ⟨a, c, us, rfl⟩

/-- A reader that lags has not come to the end. -/
theorem Lagging.position_lt {ws : List Bool} (h : Lagging b x ws []) : x.position < b.size := by
  have hpos := h.before.1.position_add
  have htwo := h.two_le
  rw [List.append_nil, length_words] at hpos
  omega

/-- The size that two words make. -/
theorem announced_words {a c : Bool} (hx : Before b x (word a ++ (word c ++ tail))) :
    x.announced.toNat = (if a then 4294967296 else 0) + if c then 1 else 0 := by
  have htake : (word a ++ word c ++ tail).take 8 = word a ++ word c := List.take_left' rfl
  rw [toNat_announced, hx.1.rest, ← List.append_assoc, htake]
  cases a <;> cases c <;> rfl

/-- A size of 4 GiB: there are as many bytes, or the reader throws. -/
theorem readCounted_large {cleared : List UInt8} {ensure : List UInt8 → List UInt8}
    (hx : Before b x tail) (h8 : 8 ≤ x.rest.length) (hn : 4294967296 ≤ x.announced.toNat) :
    (∃ e, (x.readCounted (fun _ => true) cleared ensure).2 = .thrown e) ∨
      ∃ bs, 4294967296 ≤ bs.length ∧
        (x.readCounted (fun _ => true) cleared ensure).2 = .ret (some (ensure bs)) := by
  have h0 : x.announced ≠ 0 := fun h0 => by
    rw [h0] at hn
    exact absurd hn (by decide)
  obtain ⟨y, z, hm, hm', e, hz⟩ :=
    @readCounted_enough x (fun _ => true) cleared ensure hx.1.ok h8 h0 rfl
  have hexc : z.useExc = true := hm'.useExc.trans (hm.useExc.trans hx.2)
  rw [hz]
  by_cases hle : x.announced.toNat ≤ y.rest.length
  · refine Or.inr ⟨y.rest.take x.announced.toNat, ?_, if_pos hle⟩
    rw [List.length_take, Nat.min_eq_left hle]
    exact hn
  · exact Or.inl ⟨e, by rw [if_neg hle, thr, if_pos hexc]⟩

/-- What a string may be read as from the words: as an empty one, as one zero, or as one that
    is not small. -/
theorem readCounted_words {cleared : List UInt8} {ensure : List UInt8 → List UInt8}
    {a c w : Bool} (hx : Before b x (word a ++ (word c ++ (word w ++ tail)))) :
    (∃ y, x.readCounted (fun _ => true) cleared ensure = (y, .ret (some cleared)) ∧
        Before b y (word w ++ tail)) ∨
      (∃ y, x.readCounted (fun _ => true) cleared ensure = (y, .ret (some (ensure [0]))) ∧
        Before b y tail) ∨
      (∃ e, (x.readCounted (fun _ => true) cleared ensure).2 = .thrown e) ∨
      ∃ bs, 4294967296 ≤ bs.length ∧
        (x.readCounted (fun _ => true) cleared ensure).2 = .ret (some (ensure bs)) := by
  have hn := announced_words hx
  have h8 : 8 ≤ x.rest.length := by
    rw [hx.1.rest, List.length_append, List.length_append, length_word, length_word]
    omega
  cases a with
  | true => exact Or.inr (Or.inr (readCounted_large hx h8 (by rw [hn]; exact Nat.le_add_right _ _)))
  | false =>
    rw [← List.append_assoc] at hx
    cases c with
    | false =>
      have h0 : x.announced = 0 := UInt64.toNat_inj.mp hn
      obtain ⟨y, hm, hy⟩ :=
        @readCounted_none x (fun _ => true) cleared ensure hx.1.ok h8 (Or.inl h0)
      rw [if_pos h0] at hy
      exact Or.inl ⟨y, hy, hx.1.moves_over hm rfl, hm.useExc.trans hx.2⟩
    | true =>
      have h0 : x.announced ≠ 0 := fun h0 => by
        rw [h0] at hn
        exact absurd hn (by decide)
      obtain ⟨y, z, hm, hm', e, hz⟩ :=
        @readCounted_enough x (fun _ => true) cleared ensure hx.1.ok h8 h0 rfl
      have hat := hx.1.moves_over hm rfl
      rw [show x.announced.toNat = 1 from hn] at hz hm'
      rw [hat.rest, if_pos (show 1 ≤ (word w ++ tail).length from Nat.le_add_left 1 _)] at hz
      exact Or.inr (Or.inl ⟨z, hz, hat.moves_over hm' rfl,
        hm'.useExc.trans (hm.useExc.trans hx.2)⟩)

/-- Behind the first two words is another one, be it of the data that comes after. -/
theorem next_word (ws : List Bool) {bs : List UInt8} (hlt : bs.length < 4294967296) :
    ∃ w t, ws.flatMap word ++ (counted bs ++ tail) = word w ++ t ∧
      (bs = [0] → ∃ us : List Bool, us.length = ws.length + 2 ∧ t = us.flatMap word ++ tail) := by
  cases ws with
  | cons w ws =>
    refine ⟨w, ws.flatMap word ++ (counted bs ++ tail), by simp, fun hbs => ?_⟩
    refine ⟨ws ++ [false, true, false], by simp, ?_⟩
    have hword : counted [0] = [false, true, false].flatMap word := rfl
    rw [hbs, hword, List.flatMap_append, List.append_assoc]
  | nil =>
    have hhigh : be 8 bs.length = word false ++ be 4 bs.length := by
      have hzero : bs.length / 256 / 256 / 256 / 256 = 0 := by omega
      simp only [be, hzero]
      rfl
    refine ⟨false, be 4 bs.length ++ (bs ++ pad bs.length) ++ tail, ?_, fun hbs => ?_⟩
    · rw [counted, hhigh]
      simp
    · exact ⟨[true, false], rfl, by rw [hbs]; rfl⟩

/-- A small string that is read as it was written is read as an empty one, or as one zero. -/
theorem bufFromXdr_lagging {cleared bs buf : List UInt8} {ensure : List UInt8 → List UInt8}
    {f : List UInt8 → Value} {ws : List Bool} (h : Lagging b x ws (counted bs ++ tail))
    (hf : ∀ l l', f l = f l' → l = l') (hensure : ∀ l, l.length ≤ (ensure l).length)
    (hbs : bs.length < 4294967296) (hbuf : buf.length < 4294967296)
    (hr : (bufFromXdr f cleared (x.readCounted (fun _ => true) cleared ensure)).2 =
      .ret (some (f buf))) :
    ∃ us : List Bool, ws.length = us.length + 2 ∧
      ((buf = cleared ∧
          Before b (bufFromXdr f cleared (x.readCounted (fun _ => true) cleared ensure)).1
            (us.flatMap word ++ (counted bs ++ tail))) ∨
        (buf = ensure [0] ∧ (bs = [0] → ∃ us' : List Bool, us'.length = us.length + 2 ∧
          Before b (bufFromXdr f cleared (x.readCounted (fun _ => true) cleared ensure)).1
            (us'.flatMap word ++ tail)))) := by
  obtain ⟨a, c, ws, rfl⟩ := h.exists_two
  have hx := h.before
  obtain ⟨w, t, hword, hone⟩ := @next_word tail ws bs hbs
  rw [List.flatMap_cons, List.flatMap_cons, List.append_assoc, List.append_assoc, hword] at hx
  refine ⟨ws, rfl, ?_⟩
  rcases @readCounted_words b x t cleared ensure a c w hx with
    ⟨y, hy, hat⟩ | ⟨y, hy, hat⟩ | ⟨e, hy⟩ | ⟨l, hl, hy⟩
  · rw [hy] at hr ⊢
    injection hr with hr
    injection hr with hr
    exact Or.inl ⟨(hf _ _ hr).symm, by rw [hword]; exact hat⟩
  · rw [hy] at hr ⊢
    injection hr with hr
    injection hr with hr
    refine Or.inr ⟨(hf _ _ hr).symm, fun hz => ?_⟩
    obtain ⟨us, hlen, rfl⟩ := hone hz
    exact ⟨us, hlen, hat⟩
  · exfalso
    rw [bufFromXdr, andThen, hy] at hr
    cases hr
  · -- a string of 4 GiB is not a small one
    exfalso
    rw [bufFromXdr, andThen, hy] at hr
    injection hr with hr
    injection hr with hr
    have hlen := hensure l
    rw [← hf _ _ hr, Option.getD_some] at hbuf
    omega

theorem length_strEnsure (l : List UInt8) : l.length ≤ (strEnsureTrailingZero stray l).length := by
  unfold strEnsureTrailingZero
  split_ifs <;> simp_all

theorem length_ustrEnsure (l : List UInt8) : l.length ≤ (ustrEnsureTrailingZero l).length := by
  unfold ustrEnsureTrailingZero
  split_ifs <;> simp

/-- What is read as one zero is no `str`: its characters are not whole. -/
theorem strEnsure_zero_ne (s : Str) : s.buf ≠ strEnsureTrailingZero stray [0] := by
  intro h
  have hlen := congrArg List.length h
  have hw := s.whole
  rw [Str.buf, List.length_append, List.length_replicate] at hlen
  cases stray
  · have hfive : (strEnsureTrailingZero false [0]).length = 5 := rfl
    omega
  · have hone : (strEnsureTrailingZero true [0]).length = 1 := rfl
    omega

theorem be_flag (a : Bool) : be 4 (if a then 1 else 0 : Int32).toUInt32.toNat = word a := by
  cases a <;> rfl

/-- **A reader that lags goes on lagging**, when what it reads is what was written. -/
theorem Lagging.step {ws : List Bool} {v : Var} (h : Lagging b x ws (v.encode ++ tail))
    (hw : v.Written) (hs : v.Small)
    (hr : (v.kind.fromXdr stray x).2 = .ret (some v.value)) :
    ∃ us, Lagging b (v.kind.fromXdr stray x).1 us tail := by
  cases v with
  | int64 v =>
    obtain ⟨a, c, us, rfl⟩ := h.exists_two
    have hx := h.before
    have hread := decodes_int64FromXdr (b := b) (if a then 1 else 0) (if c then 1 else 0)
    rw [be_flag, be_flag] at hread
    rw [List.flatMap_cons, List.flatMap_cons, List.append_assoc, List.append_assoc,
      ← List.append_assoc (word a)] at hx
    obtain ⟨y, hy, hat⟩ := hread x _ hx
    rw [Var.kind, Kind.fromXdr, hy] at hr ⊢
    -- the words it was read from are those it was written as
    have hv : Var.encode (.int64 v) = [a, c].flatMap word := by
      injection hr with hr
      injection hr with hr
      rw [← Value.int64.inj hr]
      cases a <;> cases c <;> rfl
    rw [hv, ← List.append_assoc, ← List.flatMap_append] at hat
    exact ⟨us ++ [a, c], by simp, hat⟩
  | str s =>
    exfalso
    have hlen : s.chars.length < 4294967296 := by
      have hs : s.buf.length < 4294967296 := hs
      rw [Str.buf, List.length_append] at hs
      omega
    obtain ⟨us, -, ⟨hnil, -⟩ | ⟨hzero, -⟩⟩ := bufFromXdr_lagging h (fun _ _ => Value.str.inj)
      length_strEnsure hlen hs hr
    · exact hw s rfl (List.append_left_eq_self.mp hnil)
    · exact strEnsure_zero_ne s hzero
  | ustr s =>
    have hword : counted [0] = [false, true, false].flatMap word := rfl
    obtain ⟨us, hlen, ⟨hnil, hat⟩ | ⟨hzero, hone⟩⟩ := bufFromXdr_lagging h
      (fun _ _ => Value.ustr.inj) length_ustrEnsure hs hs hr
    · refine ⟨us ++ [false, true, false], by simp, ?_⟩
      rw [hnil, hword, ← List.append_assoc, ← List.flatMap_append] at hat
      exact hat
    · obtain ⟨us', hlen', hat⟩ := hone hzero
      exact ⟨us', by omega, hat⟩
  | binry bs fits =>
    have hx := h.before
    have htwo := h.two_le
    have h8 : 8 ≤ x.rest.length := by
      rw [hx.1.rest, List.length_append, length_words]
      omega
    obtain ⟨rfl, hstay⟩ := eq_nil_of_binryFromXdr hx.1.ok h8 hr
    have hword : Var.encode (.binry [] fits) = [false, false].flatMap word := rfl
    rw [hword, ← List.append_assoc, ← List.flatMap_append] at hx
    refine ⟨ws ++ [false, false], by simp, ?_⟩
    rw [Var.kind, Kind.fromXdr, hstay]
    exact hx

/-! ## Reading sequences -/

/-- Once it lags, the reader does not come to the end. -/
theorem Lagging.run {vs : List Var} {ws : List Bool}
    (h : Lagging b x ws (vs.flatMap Var.encode)) (hw : ∀ v ∈ vs, v.Written ∧ v.Small)
    (hr : (readAll (Kind.fromXdr stray) (vs.map Var.kind) x).2 =
      .ret (vs.map fun v => some v.value)) :
    (readAll (Kind.fromXdr stray) (vs.map Var.kind) x).1.position < b.size := by
  induction vs generalizing x ws with
  | nil => exact h.position_lt
  | cons v vs ih =>
    obtain ⟨hhead, htail, hlast⟩ := readAll_cons hr
    obtain ⟨hv, hs⟩ := hw v (List.mem_cons_self ..)
    obtain ⟨us, hus⟩ := h.step hv hs hhead
    have hpos := ih hus (fun u hu => hw u (List.mem_cons_of_mem v hu)) htail
    rw [List.map_cons, hlast]
    exact hpos

/-- A sequence that is read as it was written, to the end, has only variables that are read
    back. -/
theorem good_of_reads {vs : List Var} (hx : Before b x (vs.flatMap Var.encode))
    (hw : ∀ v ∈ vs, v.Written ∧ v.Small)
    (hr : (readAll (Kind.fromXdr stray) (vs.map Var.kind) x).2 =
      .ret (vs.map fun v => some v.value))
    (hend : (readAll (Kind.fromXdr stray) (vs.map Var.kind) x).1.position = b.size) :
    ∀ v ∈ vs, v.Good := by
  induction vs generalizing x with
  | nil => exact fun v hv => absurd hv List.not_mem_nil
  | cons v vs ih =>
    obtain ⟨hhead, htail, hlast⟩ := readAll_cons hr
    obtain ⟨hv, -⟩ := hw v (List.mem_cons_self ..)
    have hws := fun u hu => hw u (List.mem_cons_of_mem v hu)
    rw [List.map_cons, hlast] at hend
    rw [List.flatMap_cons] at hx
    by_cases hb : v.kind = .binry
    · -- the binary is not read, and behind it the reader lags
      exfalso
      cases v with
      | binry bs fits =>
        have h8 : 8 ≤ x.rest.length := by
          rw [hx.1.rest, List.length_append, Var.encode, length_counted]
          omega
        obtain ⟨rfl, hstay⟩ := eq_nil_of_binryFromXdr hx.1.ok h8 hhead
        have hlag : Lagging b x [false, false] (vs.flatMap Var.encode) := ⟨Nat.le_refl 2, hx⟩
        rw [Var.kind, Kind.fromXdr, hstay] at htail hend
        exact absurd hend (Nat.ne_of_lt (hlag.run hws htail))
      | _ => cases hb
    · obtain ⟨y, hy, hat⟩ := v.decodes hv hb x _ hx
      rw [hy] at hhead htail hend
      have hgood : v.Good := by
        refine (Var.readBack_eq_iff hv hb).mp ?_
        injection hhead with hhead
        injection hhead
      intro u hu
      rcases List.mem_cons.mp hu with rfl | hu
      · exact hgood
      · exact ih hat hws htail hend u hu

theorem Var.Good.written {v : Var} (h : v.Good) : v.Written := by
  intro s hs
  subst hs
  exact h.1

theorem Var.Good.ne_binry {v : Var} (h : v.Good) : v.kind ≠ .binry := by
  intro hb
  cases v with
  | binry bs fits => exact h
  | _ => cases hb

/-- **Sequences of variables are read back** when every one of them is, and only then as long
    as there is no string of 4 GiB among them. -/
theorem roundTrips_iff_good (stray : Bool) (vs : List Var) :
    ((∀ v ∈ vs, v.Good) → RoundTrips stray vs) ∧
      ((∀ v ∈ vs, v.Small) → RoundTrips stray vs → ∀ v ∈ vs, v.Good) := by
  have hnew : ∀ {c : Pbuf}, c.bytes = (new Pbuf.init).b.bytes ++ vs.flatMap Var.encode →
      Before c (new c) (vs.flatMap Var.encode) := by
    intro c hbytes
    have hat := at_new c
    rw [hbytes, show (new Pbuf.init).b.bytes = [] from Pbuf.bytes_init, List.nil_append] at hat
    exact ⟨hat, rfl⟩
  constructor
  · intro hgood
    have hw := fun v hv => (hgood v hv).written
    obtain ⟨c, hc, hbytes⟩ := writeAll_eq (new Pbuf.init) hw
    have hall : Decodes (Before c) (readAll (Kind.fromXdr stray) (vs.map Var.kind))
        (vs.flatMap Var.encode) (.ret (vs.map fun v => some v.readBack)) :=
      Decodes.all fun v hv => v.decodes (hw v hv) (hgood v hv).ne_binry
    have hx := hnew hbytes
    rw [← List.append_nil (vs.flatMap _)] at hx
    obtain ⟨y, hy, hend⟩ := hall (new c) [] hx
    have hback : vs.map (fun v => some v.readBack) = vs.map fun v => some v.value :=
      List.map_congr_left fun v hv =>
        congrArg some ((Var.readBack_eq_iff (hw v hv) (hgood v hv).ne_binry).mpr (hgood v hv))
    rw [hback] at hy
    unfold RoundTrips
    rw [hc]
    refine ⟨rfl, ?_, ?_⟩
    · exact congrArg Prod.snd hy
    · exact (congrArg (fun r => r.1.position) hy).trans hend.1.position
  · intro hsmall hround
    have hw := written_of_writeAll (x := new Pbuf.init) rfl hround.1
    obtain ⟨c, hc, hbytes⟩ := writeAll_eq (new Pbuf.init) hw
    unfold RoundTrips at hround
    rw [hc] at hround
    obtain ⟨-, hr, hend⟩ := hround
    exact good_of_reads (hnew hbytes) (fun v hv => ⟨hw v hv, hsmall v hv⟩) hr hend

/-- An `int64` with bit 31 set, the empty `str` and a `binry`, each on its own. -/
theorem variables_lost : ¬ RoundTrips false [.int64 2147483648] ∧
    ¬ RoundTrips false [.str ⟨[], by decide, by decide⟩] ∧
    ¬ RoundTrips false [.binry [1] (by decide)] := by
  refine ⟨?_, ?_, ?_⟩
  · exact fun h => absurd h.2.1 (by decide)
  · exact fun h => absurd h.1 (by decide)
  · exact fun h => absurd h.2.1 (by decide)

end VarXdr

end CodeSLoop
