import CodeSLoop.Common.Tbuf
import CodeSLoop.Sec.EcdhKey

/-!
# What `from_xdr` leaves in a key (`sec/ecdh_key.cc`, `sec/bignum.cc`)

`fromXdr` of a key and of a number say what is read, and not what becomes of the object that it is
read into. Here they work on the object: a number is a `tbuf` with a sign, and its buffer is given
the size that the stream announces before anything is known to be there. A key has its name before
its numbers are looked at.

Of both calls it is asked that they write inside their buffers, take nothing for a number or a key
that is none, and leave the object alone when they return false (`Meets`). `refuses_cleanly_iff`
says for which bytes that are left in the stream they do, with exceptions or without (`Clean`).
-/

namespace CodeSLoop

open Bytes Codec Memory Xdrbuf

/-! ## Setting and reading into a `tbuf` -/

namespace Tbuf

variable {SZ : UInt64} (t : Tbuf SZ) (m : Malloc)

/-- `set(dta,sz)`, for bytes that are none of the buffer's own; with no buffer when it is written
    outside of it. -/
def set (dta : List UInt8) : Option (Tbuf SZ) :=
  if dta = [] then some t.reset
  else
    let a := t.allocate m (UInt64.ofNat dta.length)
    if a.2 = 0 then some a.1 else a.1.store a.2 dta

/-- There is no memory for so many bytes. -/
def Refuses (sz : UInt64) : Prop := t.NeedsMalloc sz ∧ m.answer sz = none

instance (sz : UInt64) : Decidable (t.Refuses m sz) :=
  have : Decidable (m.answer sz = none) := decidable_of_iff _ Option.isNone_iff_eq_none
  inferInstanceAs (Decidable (_ ∧ _))

variable {t m}

theorem answer_of_not_refuses {sz : UInt64} (hno : ¬ t.Refuses m sz) (hn : t.NeedsMalloc sz) :
    (m.answer sz).isSome := by
  rw [Option.isSome_iff_ne_none]
  intro hnone
  exact hno ⟨hn, hnone⟩

/-- The bytes are there afterwards, or there was no memory for them. -/
theorem set_eq {dta : List UInt8} (hne : dta ≠ []) (hlt : dta.length < 2 ^ 64) :
    ∃ t', t.set m dta = some t' ∧
      t'.bytes = if t.Refuses m (UInt64.ofNat dta.length) then t.bytes else dta := by
  have hlen : (UInt64.ofNat dta.length).toNat = dta.length := by
    rw [UInt64.toNat_ofNat', Nat.mod_eq_of_lt hlt]
  have h0 : UInt64.ofNat dta.length ≠ 0 := by
    intro h0
    rw [h0, UInt64.toNat_zero] at hlen
    exact hne (List.length_eq_zero_iff.mp hlen.symm)
  unfold set
  rw [if_neg hne]
  by_cases hno : t.Refuses m (UInt64.ofNat dta.length)
  · rw [allocate_refused hno.1 hno.2, if_pos rfl, if_pos hno]
    exact ⟨t, rfl, rfl⟩
  · rw [if_neg hno]
    obtain ⟨hs, hp, -⟩ := allocate_met h0 (answer_of_not_refuses hno)
    have hfit : (0 : UInt64).toNat + dta.length ≤
        (t.allocate m (UInt64.ofNat dta.length)).1.block.bytes.length := by
      have := (t.allocate m (UInt64.ofNat dta.length)).1.size_le_length
      rw [hs, hlen] at this
      rwa [UInt64.toNat_zero, Nat.zero_add]
    obtain ⟨t', ht', hsize, -, -, -, hread, -⟩ := store_data_add hfit
    rw [UInt64.add_zero] at ht'
    have hnz : (t.allocate m (UInt64.ofNat dta.length)).1.data ≠ 0 := by
      exact (t.allocate m (UInt64.ofNat dta.length)).1.block.addr_ne
    dsimp only
    rw [hp, if_neg hnz]
    refine ⟨t', ht', ?_⟩
    rw [bytes, hsize, hs, hlen]
    exact hread

/-- `allocate` leaves the bytes when it is asked for as many as there are, or refuses. -/
theorem bytes_allocate_iff {sz : UInt64} (h0 : sz ≠ 0) :
    (t.allocate m sz).1.bytes = t.bytes ↔ sz = t.size ∨ t.Refuses m sz := by
  constructor
  · intro h
    by_cases hno : t.Refuses m sz
    · exact Or.inr hno
    · left
      have hlen := congrArg List.length h
      rw [length_bytes, length_bytes, (allocate_met h0 (answer_of_not_refuses hno)).1] at hlen
      exact UInt64.toNat_inj.mp hlen
  · rintro (rfl | hno)
    · rw [bytes_allocate_le (Nat.le_refl _), List.take_of_length_le (Nat.le_of_eq t.length_bytes)]
    · rw [allocate_refused hno.1 hno.2]

end Tbuf

namespace Xdrbuf

variable {SZ : UInt64}

/-- `get_data(where,size,max_size)` with a place in the buffer: what it makes of the buffer, and
    whether it succeeds. -/
def getDataAt (x : Xdrbuf) (t : Tbuf SZ) (place maxSize : UInt64) :
    Tbuf SZ × Xdrbuf × Res Exc Bool :=
  let r := x.readUInt64
  match r.2 with
  | .thrown e => (t, r.1, .thrown e)
  | .fault => (t, r.1, .fault)
  | .ret v =>
    let sz := v.getD 0
    if sz > maxSize then (t, { r.1 with it := x.it, pos := x.pos }, .ret false)
    else
      let s := r.1.getData sz.toNat
      match t.store place s.2 with
      | none => (t, s.1, .fault)
      | some t => (t, s.1, if s.2.length = sz.toNat then .ret true else s.1.thr .rsXdrInvalid false)

/-- `get_data<T>(t,size,max_size)` with a `tbuf`. -/
def getDataTbuf (x : Xdrbuf) (t : Tbuf SZ) (m : Malloc) (maxSize : UInt64) :
    Tbuf SZ × Xdrbuf × Res Exc Bool :=
  let r := x.readUInt32
  match r.2 with
  | .thrown e => (t, r.1, .thrown e)
  | .fault | .ret none => (t, r.1, .fault)
  | .ret (some sz) =>
    let x := { r.1 with it := x.it, pos := x.pos }
    if sz ≤ 0 ∨ sz.toUInt64 > maxSize then (t, x, .ret false)
    else
      let a := t.allocate m sz.toUInt64
      x.getDataAt a.1 a.2 maxSize

end Xdrbuf

/-! ## The objects -/

/-- A `bignum` with its buffer. -/
structure Bignum.Obj where
  buf : Tbuf 128
  isNegative : Bool

/-- An `ecdh_key` with its buffers. -/
structure EcdhKey.Obj where
  algname : Tbuf 128
  x : Bignum.Obj
  y : Bignum.Obj

/-- The number that is held. -/
def Bignum.Obj.value (n : Bignum.Obj) : Bignum := ⟨n.buf.bytes, n.isNegative⟩

/-- `from_xdr`. -/
def Bignum.Obj.fromXdr (n : Bignum.Obj) (m : Malloc) (buf : Xdrbuf) :
    Bignum.Obj × Xdrbuf × Res Exc Bool :=
  let r := buf.readInt32
  match r.2 with
  | .thrown _ => (n, r.1, .ret false)
  | .fault => (n, r.1, .fault)
  | .ret isNeg =>
    let s := r.1.getDataTbuf n.buf m 2048
    match s.2.2 with
    | .thrown _ => (⟨s.1, n.isNegative⟩, s.2.1, .ret false)
    | .fault => (⟨s.1, n.isNegative⟩, s.2.1, .fault)
    | .ret ok => (⟨s.1, if ok then isNeg.getD 0 ≠ 0 else n.isNegative⟩, s.2.1, .ret ok)

/-- `from_xdr`. The zero behind a name of 64 bytes has no place in `tmp`. -/
def EcdhKey.Obj.fromXdr (k : EcdhKey.Obj) (m : Malloc) (buf : Xdrbuf) :
    EcdhKey.Obj × Xdrbuf × Res Exc Bool :=
  let r := buf.getDataMax 64 64
  match r.2 with
  | .thrown _ => (k, r.1, .ret false)
  | .fault => (k, r.1, .fault)
  | .ret v =>
    if v.1 = false then (k, r.1, .ret false)
    else if v.2.2.length < 64 then
      match k.algname.set m (v.2.2.takeWhile (· ≠ 0) ++ [0]) with
      | none => (k, r.1, .fault)
      | some algname =>
        let rx := k.x.fromXdr m r.1
        if rx.2.2 = .ret true then
          let ry := k.y.fromXdr m rx.2.1
          (⟨algname, rx.1, ry.1⟩, ry.2)
        else (⟨algname, rx.1, k.y⟩, rx.2)
    else (k, r.1, .fault)

/-! ## What reading into a `tbuf` does -/

namespace Xdrbuf

variable {SZ : UInt64} {x : Xdrbuf} (t : Tbuf SZ) (m : Malloc) {place maxSize : UInt64}

/-- The size that a `tbuf` is given: the four bytes that `get_data<T>` takes for one. -/
def asked (maxSize : UInt64) (bs : List UInt8) : Option UInt64 :=
  let sz := UInt32.ofNat (ofBe (bs.take 4))
  if bs.length < 4 ∨ sz ≤ 0 ∨ sz.toUInt64 > maxSize then none else some sz.toUInt64

/-- What the `tbuf` is then. -/
def allocated (maxSize : UInt64) (bs : List UInt8) : Tbuf SZ :=
  match asked maxSize bs with
  | none => t
  | some sz => (t.allocate m sz).1

/-- How `get_data<T>` ends, when exceptions are caught: never with the data. -/
def ending (useExc : Bool) (maxSize : UInt64) (bs : List UInt8) : Res Exc Bool :=
  if useExc = true ∨ 4 ≤ bs.length ∧ (asked maxSize bs = none ∨ 8 ≤ bs.length) then .ret false
  else if asked maxSize bs = none then .fault
  else .ret true

/-- `catch( csl::common::exc e ) { ret = false; }`. -/
def caught : Res Exc Bool → Res Exc Bool
  | .thrown _ => .ret false
  | o => o

theorem asked_ne_zero {bs : List UInt8} {sz : UInt64} (h : asked maxSize bs = some sz) : sz ≠ 0 := by
  unfold asked at h
  dsimp only at h
  split at h
  · cases h
  · rename_i hno
    cases h
    intro h0
    have h0 : (UInt32.ofNat (ofBe (bs.take 4))).toUInt64.toNat = 0 := congrArg UInt64.toNat h0
    rw [UInt32.toNat_toUInt64] at h0
    exact hno (Or.inr (Or.inl (UInt32.le_iff_toNat_le.mpr (Nat.le_of_eq h0))))

theorem getDataAt_short (h : x.Ok) (h8 : x.rest.length < 8) :
    ∃ y z e, Moves x y 8 ∧ Moves y z 0 ∧ x.getDataAt t place maxSize =
      if x.useExc then (t, y, .thrown e) else (t, z, .ret true) := by
  obtain ⟨y, e, hm, hy⟩ := readUInt64_short h h8
  obtain ⟨hm', hbytes⟩ := getData_spec hm.ok 0
  rw [List.take_zero] at hbytes
  refine ⟨y, _, e, hm, hm', ?_⟩
  unfold getDataAt
  rw [hy, thr, hm.useExc]
  cases x.useExc with
  | true => rfl
  | false =>
    have hle : ¬ (0 : UInt64) > maxSize := by
      rw [gt_iff_lt, UInt64.lt_iff_toNat_lt]
      exact Nat.not_lt_zero _
    simp only [Bool.false_eq_true, if_false, Option.getD_none, if_neg hle, UInt64.toNat_zero,
      hbytes, Tbuf.store, if_true, List.length_nil]

theorem getDataAt_above (h : x.Ok) (h8 : 8 ≤ x.rest.length) (hgt : x.announced > maxSize) :
    x.getDataAt t place maxSize = (t, x, .ret false) := by
  obtain ⟨y, hm, hy⟩ := readUInt64_enough h h8
  have hb := hm.b
  have hexc := hm.useExc
  unfold getDataAt
  rw [hy]
  dsimp only
  rw [Option.getD_some, if_pos hgt, hb, hexc]

theorem getDataTbuf_short (h : x.Ok) (h4 : x.rest.length < 4) :
    ∃ y e, Moves x y 4 ∧ x.getDataTbuf t m maxSize =
      (t, y, if x.useExc then .thrown e else .fault) := by
  obtain ⟨y, e, hm, hy⟩ := readNumber_short h h4 fun bs => UInt32.ofNat (ofBe bs)
  refine ⟨y, e, hm, ?_⟩
  unfold getDataTbuf
  rw [readUInt32, hy, thr, hm.useExc]
  cases x.useExc <;> rfl

theorem getDataTbuf_enough (h : x.Ok) (h4 : 4 ≤ x.rest.length) : x.getDataTbuf t m maxSize =
    match asked maxSize x.rest with
    | none => (t, x, .ret false)
    | some sz => x.getDataAt (t.allocate m sz).1 (t.allocate m sz).2 maxSize := by
  obtain ⟨y, hm, hy⟩ := readNumber_enough h h4 fun bs => UInt32.ofNat (ofBe bs)
  have hb := hm.b
  have hexc := hm.useExc
  unfold getDataTbuf asked
  rw [readUInt32, hy]
  dsimp only
  rw [hb, hexc]
  by_cases hsz : UInt32.ofNat (ofBe (x.rest.take 4)) ≤ 0 ∨
      (UInt32.ofNat (ofBe (x.rest.take 4))).toUInt64 > maxSize
  · rw [if_pos hsz, if_pos (Or.inr hsz)]
  · rw [if_neg hsz, if_neg (not_or.mpr ⟨Nat.not_lt.mpr h4, hsz⟩)]

/-- What is asked for is the high half of a size, which then is too large. -/
theorem announced_gt_of_asked (hmax : maxSize.toNat < 2 ^ 32) (h8 : 8 ≤ x.rest.length)
    {sz : UInt64} (h : asked maxSize x.rest = some sz) : x.announced > maxSize := by
  by_cases hsz : x.rest.length < 4 ∨ x.announced32 ≤ 0 ∨ x.announced32.toUInt64 > maxSize
  · have hnone : asked maxSize x.rest = none := if_pos hsz
    cases hnone.symm.trans h
  · have hle := x.announced32_le h8
    have h0 : ¬ x.announced32.toNat ≤ 0 :=
      fun h0 => hsz (Or.inr (Or.inl (UInt32.le_iff_toNat_le.mpr h0)))
    rw [gt_iff_lt, UInt64.lt_iff_toNat_lt]
    omega

theorem getDataTbuf_ends (h : x.Ok) (hmax : maxSize.toNat < 2 ^ 32) :
    ∃ y o, x.getDataTbuf t m maxSize = (allocated t m maxSize x.rest, y, o) ∧ y.Ok ∧
      y.useExc = x.useExc ∧ caught o = ending x.useExc maxSize x.rest ∧
      (o = .ret true → y.rest = []) := by
  -- four bytes for the size that is asked for, and eight for the one that is announced
  by_cases h4 : 4 ≤ x.rest.length
  · rw [getDataTbuf_enough t m h h4]
    cases hasked : asked maxSize x.rest with
    | none =>
      refine ⟨x, _, by rw [allocated, hasked], h, rfl, ?_, fun hret => by cases hret⟩
      rw [ending, if_pos (Or.inr ⟨h4, Or.inl hasked⟩)]
      rfl
    | some sz =>
      have hleft : allocated t m maxSize x.rest = (t.allocate m sz).1 := by rw [allocated, hasked]
      rw [hleft]
      by_cases h8 : 8 ≤ x.rest.length
      · dsimp only
        -- the second size has the first one in its high half
        rw [getDataAt_above _ h h8 (announced_gt_of_asked hmax h8 hasked)]
        refine ⟨x, _, rfl, h, rfl, ?_, fun hret => by cases hret⟩
        rw [ending, if_pos (Or.inr ⟨h4, Or.inr h8⟩)]
        rfl
      · obtain ⟨y, z, e, hy, hz, heq⟩ :=
          @getDataAt_short SZ x (t.allocate m sz).1 (t.allocate m sz).2 maxSize h (Nat.lt_of_not_le h8)
        dsimp only
        rw [heq]
        cases hexc : x.useExc with
        | true =>
          refine ⟨y, _, rfl, hy.ok, hy.useExc.trans hexc, ?_, fun hret => by cases hret⟩
          rw [ending, if_pos (Or.inl rfl)]
          rfl
        | false =>
          refine ⟨z, _, rfl, hz.ok, (hz.useExc.trans hy.useExc).trans hexc, ?_, fun _ => ?_⟩
          · rw [ending, hasked, if_neg, if_neg (fun hnone => by cases hnone)]
            · rfl
            · rintro (hexc' | ⟨-, hnone | hle⟩)
              · cases hexc'
              · cases hnone
              · exact h8 hle
          · rw [hz.rest (Nat.zero_le _), hy.ok.rest_atEnd (hy.short (Nat.lt_of_not_le h8)),
              List.drop_nil]
  · have hasked : asked maxSize x.rest = none := if_pos (Or.inl (Nat.lt_of_not_le h4))
    obtain ⟨y, e, hy, heq⟩ := @getDataTbuf_short SZ x t m maxSize h (Nat.lt_of_not_le h4)
    rw [heq, allocated, hasked, ending, hasked]
    cases hexc : x.useExc with
    | true =>
      refine ⟨y, _, rfl, hy.ok, hy.useExc.trans hexc, ?_, fun hret => by cases hret⟩
      rw [if_pos (Or.inl rfl)]
      rfl
    | false =>
      refine ⟨y, _, rfl, hy.ok, hy.useExc.trans hexc, ?_, fun hret => by cases hret⟩
      rw [if_neg Bool.false_ne_true, if_neg, if_pos rfl]
      · rfl
      · rintro (hexc' | ⟨hle, -⟩)
        · cases hexc'
        · exact h4 hle

theorem ending_cases (useExc : Bool) (maxSize : UInt64) (bs : List UInt8) :
    ending useExc maxSize bs = .ret false ∨ ending useExc maxSize bs = .fault ∨
      ending useExc maxSize bs = .ret true := by
  unfold ending
  split
  · exact Or.inl rfl
  · split
    · exact Or.inr (Or.inl rfl)
    · exact Or.inr (Or.inr rfl)

theorem ending_eq_false {useExc : Bool} {bs : List UInt8} : ending useExc maxSize bs = .ret false ↔
    useExc = true ∨ 4 ≤ bs.length ∧ (asked maxSize bs = none ∨ 8 ≤ bs.length) := by
  unfold ending
  split
  · exact iff_of_true rfl ‹_›
  · refine iff_of_false (fun h => ?_) ‹_›
    split at h
    · cases h
    · cases h

/-- Success is only without exceptions, on a stream that ends in the size. -/
theorem lt_of_ending_eq_true {useExc : Bool} {bs : List UInt8}
    (h : ending useExc maxSize bs = .ret true) : useExc = false ∧ bs.length < 8 := by
  unfold ending at h
  split at h
  · cases h
  · rename_i hno
    split at h
    · cases h
    · rename_i hsome
      have h4 : 4 ≤ bs.length := by
        by_contra h4
        exact hsome (if_pos (Or.inl (Nat.lt_of_not_le h4)))
      refine ⟨Bool.eq_false_iff.mpr fun hexc => hno (Or.inl hexc), Nat.lt_of_not_le fun h8 => ?_⟩
      exact hno (Or.inr ⟨h4, Or.inr h8⟩)

end Xdrbuf

/-! ## A number -/

/-- Its sign and its size alone have twelve bytes. -/
theorem Bignum.length_encode_ge (n : Bignum) : 12 ≤ n.encode.length := by
  rw [encode, counted, List.length_append, List.length_append, List.length_append, length_be, length_be]
  omega

namespace Bignum.Obj

/-- What becomes of the number and the reader. -/
structure Ends (n : Obj) (m : Malloc) (buf : Xdrbuf) (n' : Obj) (y : Xdrbuf) : Prop where
  fromXdr : n.fromXdr m buf = (n', y, ending buf.useExc 2048 (buf.rest.drop 4))
  buffer : n'.buf = allocated n.buf m 2048 (buf.rest.drop 4)
  sign : ending buf.useExc 2048 (buf.rest.drop 4) ≠ .ret true → n'.isNegative = n.isNegative
  ok : y.Ok
  useExc : y.useExc = buf.useExc
  rest : ending buf.useExc 2048 (buf.rest.drop 4) = .ret true → y.rest = []

/-- It is asked of `from_xdr` that it writes inside its buffers, returns false for what is not a
    number, and leaves the number as it was when it does. -/
structure Meets (n : Obj) (m : Malloc) (buf : Xdrbuf) : Prop where
  inside : (n.fromXdr m buf).2.2 ≠ .fault
  malformed : (¬ ∃ (v : Bignum) (tail : List UInt8), buf.rest = v.encode ++ tail) →
    (n.fromXdr m buf).2.2 = .ret false
  kept : (n.fromXdr m buf).2.2 = .ret false → (n.fromXdr m buf).1.value = n.value

/-- The bytes of which `from_xdr` makes what is asked of it: with exceptions, or with the four bytes
    behind the sign, and the next four when the first make a size; which then is the one that the
    buffer has, unless there is no memory for it. -/
def Clean (n : Obj) (m : Malloc) (useExc : Bool) (bs : List UInt8) : Prop :=
  (useExc = true ∨
    8 ≤ bs.length ∧ (asked 2048 (bs.drop 4) = none ∨ 12 ≤ bs.length)) ∧
      ∀ sz, asked 2048 (bs.drop 4) = some sz → sz = n.buf.size ∨ n.buf.Refuses m sz

variable {n : Obj} {m : Malloc} {buf : Xdrbuf}

/-- Behind the sign. -/
theorem fromXdr_of_sign {y : Xdrbuf} {isNeg : Option Int32} (hread : buf.readInt32 = (y, .ret isNeg))
    (hok : y.Ok) (hexc : y.useExc = buf.useExc) (hrest : y.rest = buf.rest.drop 4) :
    ∃ n' z, Ends n m buf n' z := by
  obtain ⟨z, o, hz, hzok, hzexc, ho, hend⟩ :=
    @getDataTbuf_ends 128 y n.buf m 2048 hok (by decide)
  rw [hrest, hexc] at ho
  rw [hrest] at hz
  cases o with
  | thrown e =>
    refine ⟨⟨allocated n.buf m 2048 (buf.rest.drop 4), n.isNegative⟩, z, ?_, rfl, fun _ => rfl, hzok,
      hzexc.trans hexc, fun hret => ?_⟩
    · rw [fromXdr, hread, ← ho]
      dsimp only
      rw [hz]
      rfl
    · cases ho.trans hret
  | fault =>
    refine ⟨⟨allocated n.buf m 2048 (buf.rest.drop 4), n.isNegative⟩, z, ?_, rfl, fun _ => rfl, hzok,
      hzexc.trans hexc, fun hret => ?_⟩
    · rw [fromXdr, hread, ← ho]
      dsimp only
      rw [hz]
      rfl
    · cases ho.trans hret
  | ret ok =>
    refine ⟨⟨allocated n.buf m 2048 (buf.rest.drop 4),
      if ok then isNeg.getD 0 ≠ 0 else n.isNegative⟩, z, ?_, rfl, fun hne => ?_, hzok,
      hzexc.trans hexc, fun hret => hend (ho.trans hret)⟩
    · rw [fromXdr, hread, ← ho]
      dsimp only
      rw [hz]
      rfl
    · cases ok with
      | true => exact absurd ho.symm hne
      | false => rfl

theorem fromXdr_ends (n : Obj) (m : Malloc) (h : buf.Ok) : ∃ n' y, Ends n m buf n' y := by
  have hr4 : round4 4 = 4 := rfl
  -- without exceptions a sign that is not there is taken for one
  by_cases h4 : 4 ≤ buf.rest.length
  · obtain ⟨y, hm, hy⟩ := readNumber_enough h h4 fun bs => (UInt32.ofNat (ofBe bs)).toInt32
    exact fromXdr_of_sign hy hm.ok hm.useExc (hm.rest h4)
  · obtain ⟨y, e, hm, hy⟩ :=
      readNumber_short h (Nat.lt_of_not_le h4) fun bs => (UInt32.ofNat (ofBe bs)).toInt32
    have hnil : buf.rest.drop 4 = [] := List.drop_of_length_le (Nat.le_of_not_le h4)
    cases hexc : buf.useExc with
    | true =>
      rw [thr, hm.useExc, hexc, if_pos rfl] at hy
      refine ⟨n, y, ?_, ?_, fun _ => rfl, hm.ok, hm.useExc, fun hret => ?_⟩
      · rw [fromXdr, readInt32, hy, hnil, hexc]
        rfl
      · rw [hnil]
        rfl
      · rw [hnil, hexc] at hret
        cases hret
    | false =>
      rw [thr, hm.useExc, hexc, if_neg Bool.false_ne_true] at hy
      refine fromXdr_of_sign hy hm.ok hm.useExc ?_
      rw [hm.ok.rest_atEnd (hm.short (Nat.lt_of_not_le h4)), hnil]

/-- Behind a number that is taken for one nothing is left for another. -/
theorem Ends.next_faults {n' : Obj} {y : Xdrbuf} (h : Ends n m buf n' y)
    (htrue : ending buf.useExc 2048 (buf.rest.drop 4) = .ret true) (next : Obj) :
    ∃ n'' z, next.fromXdr m y = (n'', z, .fault) := by
  obtain ⟨n'', z, hz⟩ := fromXdr_ends next m h.ok
  have hexc : y.useExc = false := h.useExc.trans (lt_of_ending_eq_true htrue).1
  refine ⟨n'', z, ?_⟩
  rw [hz.fromXdr, h.rest htrue, hexc]
  rfl

theorem clean_iff {useExc : Bool} {bs : List UInt8} : n.Clean m useExc bs ↔
    ending useExc 2048 (bs.drop 4) = .ret false ∧
      (allocated n.buf m 2048 (bs.drop 4)).bytes = n.buf.bytes := by
  have h8 : 4 ≤ (bs.drop 4).length ↔ 8 ≤ bs.length := by
    rw [List.length_drop]
    omega
  have h12 : 8 ≤ (bs.drop 4).length ↔ 12 ≤ bs.length := by
    rw [List.length_drop]
    omega
  rw [Clean, ending_eq_false, h8, h12]
  refine and_congr_right fun _ => ?_
  unfold allocated
  cases hasked : asked 2048 (bs.drop 4) with
  | none => exact iff_of_true (fun sz h => by cases h) rfl
  | some sz =>
    have h0 : sz ≠ 0 := asked_ne_zero hasked
    rw [Tbuf.bytes_allocate_iff h0]
    constructor
    · exact fun h => h sz rfl
    · rintro h sz' hsz'
      cases hsz'
      exact h

/-- Of a call that returns false only the number is asked. -/
theorem meets_iff_of_false {n' : Obj} {y : Xdrbuf} (h : n.fromXdr m buf = (n', y, .ret false)) :
    n.Meets m buf ↔ n'.value = n.value := by
  constructor
  · intro hmeets
    have hkept := hmeets.kept
    rw [h] at hkept
    exact hkept rfl
  · intro hvalue
    refine ⟨?_, ?_, ?_⟩
    · rw [h]
      intro hret
      cases hret
    · rw [h]
      exact fun _ => rfl
    · rw [h]
      exact fun _ => hvalue

/-- Success is for less than a number. -/
theorem not_meets_of_true {n' : Obj} {y : Xdrbuf} (h : Ends n m buf n' y)
    (htrue : ending buf.useExc 2048 (buf.rest.drop 4) = .ret true) : ¬ n.Meets m buf := by
  intro hmeets
  have hmalformed := hmeets.malformed
  have hshort := (lt_of_ending_eq_true htrue).2
  rw [h.fromXdr, htrue] at hmalformed
  rw [List.length_drop] at hshort
  have hfalse := hmalformed fun ⟨v, tail, hv⟩ => by
    have hlen := congrArg List.length hv
    rw [List.length_append] at hlen
    have := v.length_encode_ge
    omega
  cases hfalse

/-- A call that returns false leaves the number as it was if it leaves the size of the buffer. -/
theorem Ends.value_iff {n' : Obj} {y : Xdrbuf} (h : Ends n m buf n' y)
    (hfalse : ending buf.useExc 2048 (buf.rest.drop 4) = .ret false) :
    n'.value = n.value ↔ (allocated n.buf m 2048 (buf.rest.drop 4)).bytes = n.buf.bytes := by
  have hsign : n'.isNegative = n.isNegative := by
    apply h.sign
    rw [hfalse]
    intro hret
    cases hret
  rw [value, value, hsign, h.buffer, Bignum.mk.injEq]
  exact and_iff_left rfl

/-- **One number.** -/
theorem meets_iff (h : buf.Ok) : n.Meets m buf ↔ n.Clean m buf.useExc buf.rest := by
  obtain ⟨n', y, hend⟩ := fromXdr_ends n m h
  have hfrom := hend.fromXdr
  rw [clean_iff]
  rcases ending_cases buf.useExc 2048 (buf.rest.drop 4) with hfalse | hfault | htrue
  · rw [hfalse] at hfrom
    rw [meets_iff_of_false hfrom, hend.value_iff hfalse, and_iff_right hfalse]
  · rw [hfault] at hfrom
    refine iff_of_false ?_ ?_
    · intro hmeets
      apply hmeets.inside
      rw [hfrom]
    · intro hclean
      cases hfault.symm.trans hclean.1
  · refine iff_of_false (not_meets_of_true hend htrue) ?_
    intro hclean
    cases htrue.symm.trans hclean.1

end Bignum.Obj

/-! ## A key -/

theorem Xdrbuf.length_of_payload {x : Xdrbuf} {p : List UInt8} (h : payload x.rest = some p) :
    p.length = x.announced.toNat := by
  unfold payload at h
  split at h
  · rename_i hle
    cases h
    rw [toNat_announced, List.length_take, List.length_drop, Nat.min_eq_left hle.2]
  · cases h

/-- `tmp`, up to its zero. -/
def EcdhKey.cstr (p : List UInt8) : List UInt8 := p.takeWhile (· ≠ 0) ++ [0]

theorem EcdhKey.length_cstr {p : List UInt8} (h : p.length < 64) : (cstr p).length < 2 ^ 64 := by
  have := (List.takeWhile_sublist (· ≠ 0) (l := p)).length_le
  rw [cstr, List.length_append, List.length_singleton]
  omega

namespace EcdhKey.Obj

/-- It is asked of `from_xdr` that it writes inside its buffers, returns false for what is not a
    key, and leaves the name and the numbers as they were when it does. -/
structure Meets (k : Obj) (m : Malloc) (buf : Xdrbuf) : Prop where
  inside : (k.fromXdr m buf).2.2 ≠ .fault
  malformed : (¬ ∃ (v : EcdhKey) (tail : List UInt8), buf.rest = v.encode ++ tail) →
    (k.fromXdr m buf).2.2 = .ret false
  algname : (k.fromXdr m buf).2.2 = .ret false →
    (k.fromXdr m buf).1.algname.bytes = k.algname.bytes
  x : (k.fromXdr m buf).2.2 = .ret false → (k.fromXdr m buf).1.x.value = k.x.value
  y : (k.fromXdr m buf).2.2 = .ret false → (k.fromXdr m buf).1.y.value = k.y.value

/-- The name that is set is the one that the key has, unless there is no memory for it. -/
def KeepsName (k : Obj) (m : Malloc) (p : List UInt8) : Prop :=
  cstr p = k.algname.bytes ∨ k.algname.Refuses m (UInt64.ofNat (cstr p).length)

/-- The bytes of which `from_xdr` makes what is asked of it: with exceptions, or with the size of
    the name. When the name is there and not too long, it has less than 64 bytes and is the one of
    the key, and of what is behind it the reader of a number makes what is asked of that. -/
def Clean (k : Obj) (m : Malloc) (useExc : Bool) (bs : List UInt8) : Prop :=
  (useExc = true ∨ 8 ≤ bs.length) ∧
    ∀ p, payload bs = some p → p.length ≤ 64 →
      p.length < 64 ∧ k.KeepsName m p ∧ k.x.Clean m useExc (bs.drop (8 + round4 p.length))

variable {k : Obj} {m : Malloc} {buf : Xdrbuf}

/-- Behind the name. -/
theorem fromXdr_of_name {z : Xdrbuf} {sz : UInt64} {p : List UInt8}
    (hread : buf.getDataMax 64 64 = (z, .ret (true, sz, p))) (hlt : p.length < 64) (hok : z.Ok) :
    ∃ algname, algname.bytes = (if k.algname.Refuses m (UInt64.ofNat (cstr p).length) then
        k.algname.bytes else cstr p) ∧
      (ending z.useExc 2048 (z.rest.drop 4) = .ret false ∧
        (∃ x y, Bignum.Obj.Ends k.x m z x y ∧ k.fromXdr m buf = (⟨algname, x, k.y⟩, y, .ret false)) ∨
      ending z.useExc 2048 (z.rest.drop 4) ≠ .ret false ∧ (k.fromXdr m buf).2.2 = .fault) := by
  obtain ⟨algname, hset, hbytes⟩ :=
    @Tbuf.set_eq 128 k.algname m (cstr p) (List.append_ne_nil_of_right_ne_nil _ (List.cons_ne_nil _ _))
      (length_cstr hlt)
  obtain ⟨x, w, hx⟩ := Bignum.Obj.fromXdr_ends k.x m hok
  refine ⟨algname, hbytes, ?_⟩
  have heq : k.fromXdr m buf = if ending z.useExc 2048 (z.rest.drop 4) = .ret true then
      (⟨algname, x, (k.y.fromXdr m w).1⟩, (k.y.fromXdr m w).2)
    else (⟨algname, x, k.y⟩, w, ending z.useExc 2048 (z.rest.drop 4)) := by
    rw [fromXdr, hread]
    dsimp only
    rw [if_neg Bool.true_eq_false.mp, if_pos hlt, ← cstr, hset]
    dsimp only
    rw [hx.fromXdr]
  -- the first number is refused, or goes wrong, or is taken; then the second one goes wrong
  rcases ending_cases z.useExc 2048 (z.rest.drop 4) with hfalse | hfault | htrue
  · refine Or.inl ⟨hfalse, x, w, hx, ?_⟩
    rw [heq, hfalse]
    rfl
  · refine Or.inr ⟨fun hfalse => (by cases hfault.symm.trans hfalse), ?_⟩
    rw [heq, hfault]
    rfl
  · refine Or.inr ⟨fun hfalse => (by cases htrue.symm.trans hfalse), ?_⟩
    obtain ⟨y, v, hy⟩ := hx.next_faults htrue k.y
    rw [heq, if_pos htrue, hy]

/-- Of a call that returns false the name and the numbers are asked. -/
theorem meets_iff_of_false {k' : Obj} {y : Xdrbuf} (h : k.fromXdr m buf = (k', y, .ret false)) :
    k.Meets m buf ↔
      k'.algname.bytes = k.algname.bytes ∧ k'.x.value = k.x.value ∧ k'.y.value = k.y.value := by
  constructor
  · intro hmeets
    have hname := hmeets.algname
    have hx := hmeets.x
    have hy := hmeets.y
    rw [h] at hname hx hy
    exact ⟨hname rfl, hx rfl, hy rfl⟩
  · intro ⟨hname, hx, hy⟩
    refine ⟨?_, ?_, ?_, ?_, ?_⟩
    · rw [h]
      intro hret
      cases hret
    all_goals rw [h]
    · exact fun _ => rfl
    · exact fun _ => hname
    · exact fun _ => hx
    · exact fun _ => hy

/-- A call that returns false before there is a name. -/
theorem meets_of_false {y : Xdrbuf} (h : k.fromXdr m buf = (k, y, .ret false)) : k.Meets m buf :=
  (meets_iff_of_false h).mpr ⟨rfl, rfl, rfl⟩

theorem meets_iff_of_name {z : Xdrbuf} {sz : UInt64} {p : List UInt8}
    (hread : buf.getDataMax 64 64 = (z, .ret (true, sz, p))) (hlt : p.length < 64) (hok : z.Ok) :
    k.Meets m buf ↔ p.length < 64 ∧ k.KeepsName m p ∧ k.x.Clean m z.useExc z.rest := by
  obtain ⟨s, hs, ⟨hfalse, x, w, hx, hfrom⟩ | ⟨hne, hfault⟩⟩ := @fromXdr_of_name k m buf z sz p hread hlt hok
  · have hname : s.bytes = k.algname.bytes ↔ k.KeepsName m p := by
      rw [hs, KeepsName]
      by_cases hno : k.algname.Refuses m (UInt64.ofNat (cstr p).length)
      · rw [if_pos hno]
        exact iff_of_true rfl (Or.inr hno)
      · rw [if_neg hno]
        exact (or_iff_left hno).symm
    rw [Bignum.Obj.clean_iff, meets_iff_of_false hfrom, ← hname, ← hx.value_iff hfalse]
    constructor
    · intro ⟨halg, hkx, _⟩
      exact ⟨hlt, halg, hfalse, hkx⟩
    · rintro ⟨-, halg, -, hkx⟩
      exact ⟨halg, hkx, rfl⟩
  · refine iff_of_false (fun hmeets => hmeets.inside hfault) fun hc => hne ?_
    exact (Bignum.Obj.clean_iff.mp hc.2.2).1

/-- Without the size of a name it returns false with exceptions, and goes wrong without. -/
theorem meets_iff_short (h : buf.Ok) (h8 : buf.rest.length < 8) :
    k.Meets m buf ↔ k.Clean m buf.useExc buf.rest := by
  have hpay := payload_short h8
  obtain ⟨y, z, e, hm, hm', hz⟩ := getDataMax_short h h8 64 64
  cases hexc : buf.useExc with
  | true =>
    rw [hexc, if_pos rfl] at hz
    refine iff_of_true (@meets_of_false k m buf y ?_)
      ⟨Or.inl rfl, fun p hp => by cases hpay.symm.trans hp⟩
    rw [fromXdr, hz]
  | false =>
    rw [hexc, if_neg Bool.false_ne_true] at hz
    have hnil : z.rest = [] := by
      rw [hm'.rest (Nat.zero_le _), hm.ok.rest_atEnd (hm.short h8), List.drop_nil]
    have hzexc : z.useExc = false := (hm'.useExc.trans hm.useExc).trans hexc
    obtain ⟨s, -, ⟨hfalse, -⟩ | ⟨-, hfault⟩⟩ :=
      @fromXdr_of_name k m buf z 0 [] hz (by decide) hm'.ok
    · rw [hnil, hzexc] at hfalse
      cases hfalse
    · refine iff_of_false (fun hmeets => hmeets.inside hfault) ?_
      rintro ⟨hexc' | h8', -⟩
      · cases hexc'
      · exact Nat.not_le_of_lt h8 h8'

/-- When all of the name is there. -/
theorem meets_iff_of_payload {z : Xdrbuf} {p : List UInt8} (h8 : 8 ≤ buf.rest.length)
    (hpay : payload buf.rest = some p) (hle : p.length ≤ 64)
    (hread : buf.getDataMax 64 64 = (z, .ret (true, buf.announced, p))) (hok : z.Ok)
    (hexc : z.useExc = buf.useExc) (hrest : z.rest = buf.rest.drop (8 + round4 p.length)) :
    k.Meets m buf ↔ k.Clean m buf.useExc buf.rest := by
  have hclean : k.Clean m buf.useExc buf.rest ↔
      p.length < 64 ∧ k.KeepsName m p ∧ k.x.Clean m z.useExc z.rest := by
    rw [Clean, hpay, hexc, hrest]
    constructor
    · intro hc
      exact hc.2 p rfl hle
    · intro hc
      refine ⟨Or.inr h8, fun p' hp' _ => ?_⟩
      cases hp'
      exact hc
  rw [hclean]
  by_cases hlt : p.length < 64
  · exact meets_iff_of_name hread hlt hok
  · refine iff_of_false (fun hmeets => hmeets.inside ?_) (fun hc => hlt hc.1)
    rw [fromXdr, hread]
    dsimp only
    rw [if_neg Bool.true_eq_false.mp, if_neg hlt]

/-- **One key.** -/
theorem meets_iff (h : buf.Ok) : k.Meets m buf ↔ k.Clean m buf.useExc buf.rest := by
  -- no size, a size that is too large, a name that is there, or one that is cut off
  by_cases h8 : 8 ≤ buf.rest.length
  · by_cases hgt : buf.announced > 64
    · have hfrom : k.fromXdr m buf = (k, buf, .ret false) := by
        rw [fromXdr, getDataMax_above h h8 hgt]
        rfl
      refine iff_of_true (meets_of_false hfrom) ⟨Or.inr h8, fun p hp hle => ?_⟩
      rw [gt_iff_lt, UInt64.lt_iff_toNat_lt, ← length_of_payload hp] at hgt
      exact absurd hle (Nat.not_le_of_lt hgt)
    · obtain ⟨y, z, hm, hm', hz⟩ := @getDataMax_enough buf h h8 64 64 hgt
      have hpay := payload_eq h hm h8
      have hle : buf.announced.toNat ≤ 64 := by
        rw [gt_iff_lt, UInt64.lt_iff_toNat_lt] at hgt
        exact Nat.le_of_not_lt hgt
      rw [if_neg (by omega)] at hz
      by_cases hall : buf.announced.toNat ≤ y.rest.length
      · rw [if_pos hall] at hpay hz
        have hlen := length_of_payload hpay
        refine meets_iff_of_payload h8 hpay (by omega) hz hm'.ok (hm'.useExc.trans hm.useExc) ?_
        rw [hm'.rest hall, (hm.of_length h h8).2.2, List.drop_drop, ← (hm.of_length h h8).2.2, hlen]
      · rw [if_neg hall] at hpay hz
        refine iff_of_true ?_ ⟨Or.inr h8, fun p hp => by cases hpay.symm.trans hp⟩
        refine @meets_of_false k m buf z ?_
        rw [fromXdr, hz, thr]
        cases z.useExc with
        | true => rfl
        | false => rfl
  · exact meets_iff_short h (Nat.lt_of_not_le h8)

end EcdhKey.Obj

/-! ## Both

What the calls return, and where they leave the reader, is what the ones that do not follow the
object say. -/

theorem Xdrbuf.getDataAt_agrees {SZ : UInt64} {x : Xdrbuf} (t : Tbuf SZ) (h : x.Ok)
    (h8 : x.rest.length < 8) (place maxSize : UInt64) (room : Nat) : (x.getDataAt t place maxSize).2 =
      andThen (x.getDataMax room maxSize) fun x v => (x, .ret v.1) := by
  obtain ⟨y, e, hm, hy⟩ := readUInt64_short h h8
  obtain ⟨-, hbytes⟩ := getData_spec hm.ok 0
  rw [List.take_zero] at hbytes
  have hle : ¬ (0 : UInt64) > maxSize := by
    rw [gt_iff_lt, UInt64.lt_iff_toNat_lt]
    exact Nat.not_lt_zero _
  unfold getDataAt getDataMax
  rw [hy, thr]
  cases y.useExc with
  | true => rfl
  | false =>
    simp only [Bool.false_eq_true, if_false, andThen, Option.getD_none, if_neg hle, UInt64.toNat_zero,
      hbytes, Tbuf.store, if_true, List.length_nil, Nat.not_lt_zero, gt_iff_lt]

theorem Xdrbuf.getDataTbuf_agrees {SZ : UInt64} {x : Xdrbuf} (t : Tbuf SZ) (m : Malloc) {maxSize : UInt64}
    (h : x.Ok) (hmax : maxSize.toNat < 2 ^ 32) : (x.getDataTbuf t m maxSize).2 =
      andThen (x.getDataT (fun _ => true) 0 maxSize) fun x v => (x, .ret v.1) := by
  by_cases h4 : 4 ≤ x.rest.length
  · rw [getDataTbuf_enough t m h h4, getDataT_eq h h4]
    by_cases hsz : x.announced32 ≤ 0 ∨ x.announced32.toUInt64 > maxSize
    · have hnone : asked maxSize x.rest = none := if_pos (Or.inr hsz)
      rw [hnone, if_pos hsz]
      rfl
    · have hsome : asked maxSize x.rest = some x.announced32.toUInt64 :=
        if_neg (not_or.mpr ⟨Nat.not_lt.mpr h4, hsz⟩)
      rw [hsome, if_neg hsz]
      by_cases h8 : 8 ≤ x.rest.length
      · have hgt := announced_gt_of_asked hmax h8 hsome
        dsimp only
        rw [getDataAt_above _ h h8 hgt, getDataMax_above h h8 hgt]
        rfl
      · exact getDataAt_agrees _ h (Nat.lt_of_not_le h8) _ _ _
  · obtain ⟨y, e, hm, hy⟩ :=
      readNumber_short h (Nat.lt_of_not_le h4) fun bs => UInt32.ofNat (ofBe bs)
    unfold getDataTbuf getDataT
    rw [readUInt32, hy, thr]
    cases y.useExc with
    | true => rfl
    | false => rfl

theorem Bignum.Obj.fromXdr_agrees (n : Bignum.Obj) (m : Malloc) {buf : Xdrbuf} (h : buf.Ok) :
    (n.fromXdr m buf).2 = andThen (Bignum.fromXdr buf) fun x v => (x, .ret v.isSome) := by
  have hok := (readInt32_keeps h).1
  unfold fromXdr Bignum.fromXdr
  generalize buf.readInt32 = r at hok
  obtain ⟨y, o⟩ := r
  cases o with
  | thrown e => rfl
  | fault => rfl
  | ret isNeg =>
    have hagree := @getDataTbuf_agrees 128 y n.buf m 2048 hok (by decide)
    dsimp only
    generalize y.getDataTbuf n.buf m 2048 = s at hagree
    generalize y.getDataT (fun _ => true) 0 2048 = s' at hagree
    obtain ⟨t, z, o⟩ := s
    obtain ⟨z', o'⟩ := s'
    cases o' with
    | thrown e =>
      cases hagree
      rfl
    | fault =>
      cases hagree
      rfl
    | ret v =>
      cases hagree
      obtain ⟨ok, sz, bs⟩ := v
      cases ok with
      | true => rfl
      | false => rfl

theorem Xdrbuf.getDataMax_ok {x : Xdrbuf} (h : x.Ok) (maxSize : UInt64) :
    (x.getDataMax maxSize.toNat maxSize).1.Ok := by
  have hok : (asFlag (x.getDataMax maxSize.toNat maxSize)).1.Ok :=
    (answered_iff h (.dataMax maxSize)).1
  generalize x.getDataMax maxSize.toNat maxSize = r at hok
  obtain ⟨y, o⟩ := r
  cases o with
  | thrown e => exact hok
  | fault => exact hok
  | ret v => exact hok

section Agrees

variable {α : Type} {r : Xdrbuf × Res Exc (Option α)} {y : Xdrbuf}

theorem eq_of_agrees_ret {b : Bool} (h : (y, .ret b) = andThen r fun x v => (x, .ret v.isSome)) :
    ∃ v, r = (y, .ret v) ∧ v.isSome = b := by
  obtain ⟨z, o⟩ := r
  cases o with
  | thrown e => cases h
  | fault => cases h
  | ret v =>
    cases h
    exact ⟨v, rfl, rfl⟩

theorem eq_of_agrees_fault (h : (y, .fault) = andThen r fun x v => (x, .ret v.isSome)) :
    r = (y, .fault) := by
  obtain ⟨z, o⟩ := r
  cases o with
  | thrown e => cases h
  | fault =>
    cases h
    rfl
  | ret v => cases h

end Agrees

theorem EcdhKey.Obj.fromXdr_agrees (k : EcdhKey.Obj) (m : Malloc) {buf : Xdrbuf} (h : buf.Ok) :
    (k.fromXdr m buf).2 = andThen (EcdhKey.fromXdr buf) fun x v => (x, .ret v.isSome) := by
  have hok : (buf.getDataMax 64 64).1.Ok := getDataMax_ok h 64
  unfold fromXdr EcdhKey.fromXdr
  generalize buf.getDataMax 64 64 = r at hok
  obtain ⟨z, o⟩ := r
  cases o with
  | thrown e => rfl
  | fault => rfl
  | ret v =>
    obtain ⟨ok, sz, p⟩ := v
    cases ok with
    | false => rfl
    | true =>
      dsimp only
      rw [if_neg Bool.true_eq_false.mp, if_neg Bool.true_eq_false.mp]
      by_cases hlt : p.length < 64
      · obtain ⟨s, hset, -⟩ := @Tbuf.set_eq 128 k.algname m (cstr p)
          (List.append_ne_nil_of_right_ne_nil _ (List.cons_ne_nil _ _)) (length_cstr hlt)
        obtain ⟨x, w, hx⟩ := Bignum.Obj.fromXdr_ends k.x m hok
        have hagree := k.x.fromXdr_agrees m hok
        have heq := hx.fromXdr
        rw [if_pos hlt, dif_pos hlt, ← cstr, hset]
        dsimp only at hagree ⊢
        rcases ending_cases z.useExc 2048 (z.rest.drop 4) with hend | hend | hend
        · rw [hend] at heq
          rw [heq] at hagree ⊢
          obtain ⟨v, hv, hnone⟩ := eq_of_agrees_ret hagree
          rw [hv, Option.isSome_eq_false_iff.mp hnone |> Option.isNone_iff_eq_none.mp]
          rfl
        · rw [hend] at heq
          rw [heq] at hagree ⊢
          rw [eq_of_agrees_fault hagree]
          rfl
        · rw [hend] at heq
          rw [heq] at hagree ⊢
          obtain ⟨v, hv, hsome⟩ := eq_of_agrees_ret hagree
          obtain ⟨x', rfl⟩ := Option.isSome_iff_exists.mp hsome
          obtain ⟨y, u, hy⟩ := hx.next_faults hend k.y
          have hagree := k.y.fromXdr_agrees m hx.ok
          rw [hy] at hagree
          rw [hv, if_pos rfl, hy]
          dsimp only
          rw [eq_of_agrees_fault hagree]
          rfl
      · rw [if_neg hlt, dif_neg hlt]
        rfl

/-- **What `from_xdr` makes of bytes that are no key or no number.** -/
theorem EcdhKey.refuses_cleanly_iff {buf : Xdrbuf} (h : buf.Ok) (m : Malloc) :
    (∀ k : EcdhKey.Obj, k.Meets m buf ↔ k.Clean m buf.useExc buf.rest) ∧
      ∀ n : Bignum.Obj, n.Meets m buf ↔ n.Clean m buf.useExc buf.rest :=
  ⟨fun _ => EcdhKey.Obj.meets_iff h, fun _ => Bignum.Obj.meets_iff h⟩

theorem EcdhKey.length_padded (bs : List UInt8) :
    (bs.take 128 ++ List.replicate (128 - bs.length) 0).length = 128 := by
  rw [List.length_append, List.length_take, List.length_replicate]
  omega

/-- A buffer that holds the given bytes, of which there are 128 at most. -/
def EcdhKey.sampleTbuf (bs : List UInt8) : Tbuf 128 where
  preallocated := ⟨20736, bs.take 128 ++ List.replicate (128 - bs.length) 0, by decide, by
    rw [length_padded]
    decide⟩
  heap := none
  size := UInt64.ofNat (bs.take 128).length
  length_preallocated := length_padded bs
  size_le := by
    rw [Option.getD_none, List.length_append, UInt64.toNat_ofNat']
    exact Nat.le_add_right_of_le (Nat.mod_le _ _)

/-- A key that was just made. -/
def EcdhKey.Obj.fresh : EcdhKey.Obj :=
  ⟨sampleTbuf [0], ⟨sampleTbuf [], false⟩, ⟨sampleTbuf [], false⟩⟩

/-- A key of the name `a`, and with numbers of two bytes. -/
def EcdhKey.Obj.held : EcdhKey.Obj :=
  ⟨sampleTbuf [97, 0], ⟨sampleTbuf [5, 6], true⟩, ⟨sampleTbuf [7, 8], false⟩⟩

/-- Another key of this name. -/
def EcdhKey.written : EcdhKey := ⟨⟨[97], by decide⟩, ⟨[1, 2, 3], false⟩, ⟨[4, 5, 6, 7], true⟩⟩

/-- The bytes of a whole key are refused for its first number, and the key that has the same name is
    kept; so is a number of two bytes, when two is what the high half of the size says. -/
theorem EcdhKey.refuses_cleanly_iff_whole :
    EcdhKey.Obj.held.Meets (Malloc.within 8192 64 0 (by decide) (by decide))
      (readerOf true EcdhKey.written.encode) ∧
    EcdhKey.Obj.held.x.Meets (Malloc.within 8192 64 0 (by decide) (by decide))
      (readerOf false ([0, 0, 0, 1] ++ [0, 0, 0, 2, 0, 0, 0, 0] ++ [1, 2, 3, 4])) := by
  constructor
  · refine ((EcdhKey.refuses_cleanly_iff (ok_new _) _).1 _).mpr ⟨Or.inl rfl, fun p hp hle => ?_⟩
    have hname : payload (readerOf true EcdhKey.written.encode).rest = some [97, 0] := by
      decide +kernel
    cases hname.symm.trans hp
    refine ⟨by decide, Or.inl (by decide), Or.inl rfl, fun sz hsz => ?_⟩
    have hnone : asked 2048 (((readerOf true EcdhKey.written.encode).rest.drop
        (8 + round4 [(97 : UInt8), 0].length)).drop 4) = none := by decide +kernel
    cases hnone.symm.trans hsz
  · have hok : (readerOf false ([0, 0, 0, 1] ++ [0, 0, 0, 2, 0, 0, 0, 0] ++ [1, 2, 3, 4])).Ok :=
      ok_new (Pbuf.init.append _).1
    refine ((EcdhKey.refuses_cleanly_iff hok _).2 _).mpr
      ⟨Or.inr ⟨?_, Or.inr ?_⟩, fun sz hsz => Or.inl ?_⟩
    · decide
    · decide
    have hsome : asked 2048 ((readerOf false ([0, 0, 0, 1] ++ [0, 0, 0, 2, 0, 0, 0, 0] ++
        [1, 2, 3, 4])).rest.drop 4) = some 2 := by decide +kernel
    exact (Option.some.inj (hsome.symm.trans hsz)).symm

/-- A name of one letter, and nothing behind it; a name of 64; and a size of one byte, for a
    number that has none. -/
theorem EcdhKey.refuses_cleanly_fails :
    ¬ EcdhKey.Obj.fresh.Meets Malloc.fail (readerOf true [0, 0, 0, 0, 0, 0, 0, 1, 97, 0, 0, 0]) ∧
    ¬ EcdhKey.Obj.fresh.Meets Malloc.fail
      (readerOf true ([0, 0, 0, 0, 0, 0, 0, 64] ++ List.replicate 64 97)) ∧
    ¬ EcdhKey.Obj.fresh.x.Meets Malloc.fail (readerOf true [0, 0, 0, 0, 0, 0, 0, 1]) := by
  refine ⟨fun h => ?_, fun h => ?_, fun h => ?_⟩
  · have hclean := ((EcdhKey.Obj.meets_iff (ok_new _)).mp h).2 [97] (by decide) (by decide)
    rcases hclean.2.1 with hname | hno
    · exact absurd hname (by decide)
    · exact absurd hno (by decide)
  · have hclean := ((EcdhKey.Obj.meets_iff (ok_new _)).mp h).2 (List.replicate 64 97) (by decide) (by decide)
    exact absurd hclean.1 (by decide)
  · have hclean := ((Bignum.Obj.meets_iff (ok_new _)).mp h).2 1 (by decide)
    revert hclean
    decide

end CodeSLoop
