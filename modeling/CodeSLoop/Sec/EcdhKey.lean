import CodeSLoop.Common.XdrReads

/-!
# `ecdh_key` and `bignum` in XDR (`sec/ecdh_key.cc`, `sec/bignum.cc`)

A public key is the name of an algorithm and two numbers, which are written one after the other;
a number is written as its sign and its bytes. Both readers catch the exceptions of the stream
and return false instead. What they leave in the key or the number then is not followed here.

A number is read back through `get_data<T>`, which takes the size of any data below 2^32 bytes
for 0 (`getDataT_ne_true`). So no key is ever read (`fromXdr_ne_some`).
-/

namespace CodeSLoop

open Codec Xdrbuf

/-- The members of `bignum`. -/
structure Bignum where
  buf : List UInt8
  isNegative : Bool
deriving DecidableEq

/-- The members of `ecdh_key`. -/
structure EcdhKey where
  algname : Ustr
  x : Bignum
  y : Bignum

namespace Bignum

/-- `is_empty()`. -/
def isEmpty (n : Bignum) : Bool := n.buf.isEmpty

/-- `to_xdr`. -/
def toXdr (n : Bignum) (buf : Xdrbuf) : Xdrbuf × Bool :=
  let r := buf.writeInt32 (if n.isNegative then 1 else 0)
  if r.2 = none then
    let r := r.1.writeBindata (some n.buf) (UInt64.ofNat n.buf.length)
    (r.1, r.2.isNone)
  else (r.1, false)

/-- `from_xdr`: the number, unless it returns false. -/
def fromXdr (buf : Xdrbuf) : Xdrbuf × Res Exc (Option Bignum) :=
  let r := buf.readInt32
  match r.2 with
  | .thrown _ => (r.1, .ret none)
  | .fault => (r.1, .fault)
  | .ret isNeg =>
    let s := r.1.getDataT (fun _ => true) 0 2048
    (s.1, match s.2 with
      | .thrown _ => .ret none
      | .fault => .fault
      | .ret v => .ret (if v.1 then some ⟨v.2.2, isNeg.getD 0 ≠ 0⟩ else none))

end Bignum

namespace EcdhKey

/-- `is_empty()`, by `has_data()`. -/
def isEmpty (k : EcdhKey) : Bool := k.x.isEmpty || k.y.isEmpty || k.algname.chars.isEmpty

/-- `to_xdr`. -/
def toXdr (k : EcdhKey) (buf : Xdrbuf) : Xdrbuf × Bool :=
  let r := buf.writeUstr k.algname.buf
  if r.2 = none then
    let r := k.x.toXdr r.1
    if r.2 then k.y.toXdr r.1 else r
  else (r.1, false)

/-- `algname_ = tmp`, where `tmp` holds the given bytes and a zero. -/
def ofCstr (bs : List UInt8) (h : bs.length < 64) : Ustr :=
  ⟨bs.takeWhile (· ≠ 0), by
    have := (List.takeWhile_sublist (· ≠ 0) (l := bs)).length_le
    omega⟩

/-- `from_xdr`: the key, unless it returns false. The zero behind a name of 64 bytes has no
    place in `tmp`. -/
def fromXdr (buf : Xdrbuf) : Xdrbuf × Res Exc (Option EcdhKey) :=
  let r := buf.getDataMax 64 64
  match r.2 with
  | .thrown _ => (r.1, .ret none)
  | .fault => (r.1, .fault)
  | .ret v =>
    if v.1 = false then (r.1, .ret none)
    else if h : v.2.2.length < 64 then
      let rx := Bignum.fromXdr r.1
      match rx.2 with
      | .ret (some x) =>
        let ry := Bignum.fromXdr rx.1
        (ry.1, match ry.2 with
          | .ret y => .ret (y.map fun y => ⟨ofCstr v.2.2 h, x, y⟩)
          | .thrown _ => .ret none
          | .fault => .fault)
      | .ret none | .thrown _ => (rx.1, .ret none)
      | .fault => (rx.1, .fault)
    else (r.1, .fault)

end EcdhKey

variable {buf y : Xdrbuf}

/-! ## Writing -/

/-- The bytes written for a number. -/
def Bignum.encode (n : Bignum) : List UInt8 :=
  Bytes.be 4 (if n.isNegative then 1 else 0 : Int32).toUInt32.toNat ++ counted n.buf

/-- The bytes written for a key. -/
def EcdhKey.encode (k : EcdhKey) : List UInt8 :=
  counted k.algname.buf ++ (k.x.encode ++ k.y.encode)

theorem Bignum.toXdr_eq (n : Bignum) (b : Pbuf) (h : n.buf.length < 2 ^ 64) :
    ∃ c, n.toXdr (Xdrbuf.new b) = (Xdrbuf.new c, true) ∧ c.bytes = b.bytes ++ n.encode := by
  let v : Int32 := if n.isNegative then 1 else 0
  have hw : (Xdrbuf.new b).writeInt32 v =
      (Xdrbuf.new (b.append (Bytes.be 4 v.toUInt32.toNat)).1, none) := put_eq _ _
  obtain ⟨c, hc, hbytes⟩ :=
    putCounted_eq (Xdrbuf.new (b.append (Bytes.be 4 v.toUInt32.toNat)).1) h
  refine ⟨c, ?_, ?_⟩
  · rw [toXdr, hw]
    dsimp only
    rw [if_pos rfl, writeBindata, hc]
    rfl
  · rw [hbytes, encode, ← List.append_assoc]
    exact congrArg (· ++ _) (Pbuf.bytes_append _ _)

theorem EcdhKey.toXdr_eq (k : EcdhKey) (b : Pbuf) (hx : k.x.buf.length < 2 ^ 64)
    (hy : k.y.buf.length < 2 ^ 64) :
    ∃ c, k.toXdr (Xdrbuf.new b) = (Xdrbuf.new c, true) ∧ c.bytes = b.bytes ++ k.encode := by
  obtain ⟨c₁, hc₁, hb₁⟩ := @putCounted_eq k.algname.buf (Xdrbuf.new b)
    (by simpa [Ustr.buf] using k.algname.fits)
  obtain ⟨c₂, hc₂, hb₂⟩ := k.x.toXdr_eq c₁ hx
  obtain ⟨c₃, hc₃, hb₃⟩ := k.y.toXdr_eq c₂ hy
  refine ⟨c₃, ?_, ?_⟩
  · rw [toXdr, writeUstr, hc₁]
    dsimp only
    rw [if_pos rfl, show ({ Xdrbuf.new b with b := c₁ } : Xdrbuf) = Xdrbuf.new c₁ from rfl, hc₂]
    dsimp only
    rw [if_pos rfl, hc₃]
  · rw [hb₃, hb₂, hb₁, encode, List.append_assoc, List.append_assoc]
    rfl

/-! ## Reading -/

/-- Reading a number ends with `false`. -/
theorem Bignum.fromXdr_ends (h : buf.Ok) (hexc : buf.useExc = true) :
    ∃ y, Bignum.fromXdr buf = (y, .ret none) := by
  obtain ⟨hok, hexc'⟩ := readInt32_keeps h
  unfold fromXdr
  dsimp only
  rcases readInt32_ends h hexc with ⟨v, hv⟩ | ⟨e, hv⟩
  · rw [hv]
    have hmax : (2048 : UInt64).toNat < 2 ^ 32 := by decide
    rcases getDataT_ends hok (hexc'.trans hexc) (fun _ => true) 0 hmax with ⟨z, sz, hz⟩ | ⟨z, e, hz⟩
    · exact ⟨_, by dsimp only; rw [hz]; rfl⟩
    · exact ⟨_, by dsimp only; rw [hz]⟩
  · rw [hv]
    exact ⟨_, rfl⟩

/-- **No number is read.** -/
theorem Bignum.fromXdr_ne_some (h : buf.Ok) (hexc : buf.useExc = true) {n : Bignum} :
    Bignum.fromXdr buf ≠ (y, .ret (some n)) := by
  obtain ⟨z, hz⟩ := Bignum.fromXdr_ends h hexc
  rw [hz]
  intro hret
  cases hret

/-- A name of just 64 bytes is next in the stream. -/
def Xdrbuf.FillsName (x : Xdrbuf) : Prop := x.announced = 64 ∧ 72 ≤ x.rest.length

/-- Reading a key ends with `false`, or with the zero behind a name of 64 bytes. -/
theorem EcdhKey.fromXdr_ends (h : buf.Ok) (hexc : buf.useExc = true) :
    (∃ y, EcdhKey.fromXdr buf = (y, .ret none)) ∧ ¬ buf.FillsName ∨
      (∃ y, EcdhKey.fromXdr buf = (y, .fault)) ∧ buf.FillsName := by
  unfold fromXdr
  by_cases h8 : 8 ≤ buf.rest.length
  · by_cases hgt : buf.announced > 64
    · rw [getDataMax_above h h8 hgt]
      refine Or.inl ⟨⟨_, rfl⟩, fun hf => ?_⟩
      rw [hf.1] at hgt
      exact absurd hgt (by decide)
    · obtain ⟨y, z, hm, hm', hy⟩ := @getDataMax_enough buf h h8 64 64 hgt
      have hlen : y.rest.length = buf.rest.length - 8 := by
        rw [(hm.of_length h h8).2.2, List.length_drop]
      have hle : buf.announced.toNat ≤ 64 := by
        rw [gt_iff_lt, UInt64.lt_iff_toNat_lt] at hgt
        exact Nat.le_of_not_lt hgt
      rw [hy, if_neg (by omega)]
      by_cases hall : buf.announced.toNat ≤ y.rest.length
      · rw [if_pos hall]
        dsimp only
        rw [if_neg Bool.true_eq_false.mp]
        have htake : (y.rest.take buf.announced.toNat).length = buf.announced.toNat :=
          List.length_take_of_le hall
        by_cases h64 : buf.announced.toNat = 64
        · rw [dif_neg (by omega)]
          refine Or.inr ⟨⟨_, rfl⟩, UInt64.toNat_inj.mp h64, by omega⟩
        · rw [dif_pos (by omega)]
          obtain ⟨w, hw⟩ := Bignum.fromXdr_ends hm'.ok
            (hm'.useExc.trans (hm.useExc.trans hexc))
          rw [hw]
          exact Or.inl ⟨⟨_, rfl⟩, fun hf => h64 (congrArg UInt64.toNat hf.1)⟩
      · rw [if_neg hall, Xdrbuf.thr, hm'.useExc, hm.useExc, hexc]
        refine Or.inl ⟨⟨_, rfl⟩, fun hf => hall ?_⟩
        have h64 : (64 : UInt64).toNat = 64 := rfl
        have := hf.2
        rw [hf.1, h64]
        omega
  · obtain ⟨y, z, e, -, -, hy⟩ := getDataMax_short h (Nat.lt_of_not_le h8) 64 64
    rw [hy, hexc]
    refine Or.inl ⟨⟨_, rfl⟩, fun hf => h8 ?_⟩
    have := hf.2
    omega

/-- **No key is read.** -/
theorem EcdhKey.fromXdr_ne_some (h : buf.Ok) (hexc : buf.useExc = true) {k : EcdhKey} :
    EcdhKey.fromXdr buf ≠ (y, .ret (some k)) := by
  intro hret
  rcases EcdhKey.fromXdr_ends h hexc with ⟨⟨z, hz⟩, -⟩ | ⟨⟨z, hz⟩, -⟩
  · rw [hz] at hret
    cases hret
  · rw [hz] at hret
    cases hret

/-! ## A key that was written -/

variable {c : Pbuf} {tail : List UInt8}

/-- A number that was written is refused, whatever the setting for exceptions: the half of its
    size that is looked at is 0. -/
theorem Bignum.fromXdr_encode (n : Bignum) (h : n.buf.length < 2 ^ 32)
    (hat : At c buf (n.encode ++ tail)) : ∃ y, Bignum.fromXdr buf = (y, .ret none) := by
  rw [encode, List.append_assoc] at hat
  obtain ⟨x, hx, hat⟩ := decodes_readInt32 _ buf _ hat
  have hdata := getDataT_counted hat h (fun _ => true) 0 2048
  refine ⟨x, ?_⟩
  rw [fromXdr, hx]
  dsimp only
  rw [hdata]
  rfl

namespace EcdhKey

/-- The name has room in the buffer of the decoder, and the numbers have 1 to 2048 bytes. -/
structure Fits (k : EcdhKey) : Prop where
  algname : k.algname.buf.length ≤ 64
  x : 1 ≤ k.x.buf.length ∧ k.x.buf.length ≤ 2048
  y : 1 ≤ k.y.buf.length ∧ k.y.buf.length ≤ 2048

/-- The key is written behind what is in `b`, and the reader `x` gets it back and stands behind
    it then. -/
def Reread (k : EcdhKey) (b : Pbuf) (x : Xdrbuf) : Prop :=
  (k.toXdr (Xdrbuf.new b)).2 = true ∧
    ∃ y, EcdhKey.fromXdr x = (y, .ret (some k)) ∧ y.position = x.b.size

/-- **What becomes of a key that was written**: with a name of 63 characters its zero goes where
    `tmp` has ended, and with a shorter one it is refused at the first number. -/
theorem fromXdr_encode {k : EcdhKey} (h : k.Fits) (hat : At c buf (k.encode ++ tail)) :
    ∃ y, EcdhKey.fromXdr buf =
      (y, if k.algname.buf.length = 64 then .fault else .ret none) := by
  have hname := h.algname
  have h64 : (64 : UInt64).toNat = 64 := rfl
  rw [encode, List.append_assoc, List.append_assoc] at hat
  obtain ⟨x, hx, hat⟩ := @decodes_getDataMax c k.algname.buf 64 hname buf _ hat
  dsimp only at hx
  rw [h64] at hx
  obtain ⟨z, hz⟩ := k.x.fromXdr_encode (Nat.lt_of_le_of_lt h.x.2 (by decide)) hat
  rw [fromXdr, hx]
  dsimp only
  rw [if_neg Bool.true_eq_false.mp]
  by_cases hlen : k.algname.buf.length = 64
  · rw [dif_neg (by omega), if_pos hlen]
    exact ⟨x, rfl⟩
  · rw [dif_pos (by omega), if_neg hlen, hz]
    exact ⟨z, rfl⟩

/-- **No key comes back.** The reader is any one of the stream that the key was written to, with
    any setting for exceptions, which has come to where the key starts. -/
theorem not_reread {k : EcdhKey} {b : Pbuf} {x : Xdrbuf} (h : k.Fits) (hx : x.Ok)
    (hb : x.b = (k.toXdr (Xdrbuf.new b)).1.b) (hpos : x.position = b.size) : ¬ k.Reread b x := by
  obtain ⟨c, hc, hbytes⟩ := k.toXdr_eq b (Nat.lt_of_le_of_lt h.x.2 (by decide))
    (Nat.lt_of_le_of_lt h.y.2 (by decide))
  rw [hc] at hb
  have hoff : x.off = b.bytes.length := by rw [← hx.position, hpos, b.size_eq_bytes]
  have hle : x.off ≤ c.bytes.length := by
    rw [hoff, hbytes, List.length_append]
    exact Nat.le_add_right _ _
  have hrest : x.rest = k.encode ++ [] := by
    rw [rest, hb, hoff, List.append_nil]
    exact (congrArg _ hbytes).trans (List.drop_left' rfl)
  obtain ⟨y, hy⟩ := fromXdr_encode h ⟨hb, hx, hle, hrest⟩
  rintro ⟨-, z, hz, -⟩
  rw [hy] at hz
  by_cases hlen : k.algname.buf.length = 64
  · rw [if_pos hlen] at hz
    cases hz
  · rw [if_neg hlen] at hz
    cases hz

/-- A key with a name of one letter and numbers of one byte. -/
def small : EcdhKey := ⟨⟨[115], by decide⟩, ⟨[2], false⟩, ⟨[3], true⟩⟩

theorem small_fits : small.Fits := ⟨by decide, by decide, by decide⟩

theorem not_reread_small :
    ¬ small.Reread Pbuf.init (Xdrbuf.new (small.toXdr (Xdrbuf.new Pbuf.init)).1.b) :=
  not_reread small_fits (ok_new _) rfl rfl

/-- It is written, and then refused. -/
theorem reread_fails :
    (small.toXdr (Xdrbuf.new Pbuf.init)).2 = true ∧
      (EcdhKey.fromXdr (Xdrbuf.new (small.toXdr (Xdrbuf.new Pbuf.init)).1.b)).2 = .ret none ∧
      ¬ small.Reread Pbuf.init (Xdrbuf.new (small.toXdr (Xdrbuf.new Pbuf.init)).1.b) := by
  obtain ⟨c, hc, hbytes⟩ := small.toXdr_eq Pbuf.init (by decide) (by decide)
  have hat := at_new c
  rw [hbytes, Pbuf.bytes_init, List.nil_append, ← List.append_nil small.encode] at hat
  obtain ⟨y, hy⟩ := fromXdr_encode small_fits hat
  rw [if_neg (by decide)] at hy
  rw [hc]
  refine ⟨rfl, ?_, ?_⟩
  · exact congrArg Prod.snd hy
  · rintro ⟨-, z, hz, -⟩
    cases hy.symm.trans hz

end EcdhKey

end CodeSLoop
