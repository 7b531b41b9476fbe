import CodeSLoop.Lib.Bytes
import CodeSLoop.Lib.Codec
import CodeSLoop.Common.Pbuf

/-!
# `xdrbuf` — XDR over a `pbuf` (`common/xdrbuf.hh`, `common/xdrbuf.cc`)

Numbers are written in network order; everything else as its length in eight bytes, the data,
and zeros up to a multiple of four. Values are written to the end of the `pbuf` and read from
where the iterator stands, page by page.

Every reader is translated with its own way of ending: by an exception, by a return value, or
by leaving its argument alone. A read is a `fault` when it follows the iterator at `end()`,
uses a variable that was not assigned, or writes where it has no room. `append` never fails
(`Pbuf.append_snd`), so in the readers the branches for its failure are left out.
-/

namespace CodeSLoop

open Bytes Codec

universe u

/-- The reasons of the exceptions thrown here (`exc::rs_…`). -/
inductive Exc
  | rsCannotAppend | rsXdrEof | rsXdrInvalid | rsCannotGet
deriving DecidableEq, Repr

/-- The members of `xdrbuf`. `it` is the number of pages before the one that `it_` stands on;
    at `end()` that is the number of all pages. -/
structure Xdrbuf where
  useExc : Bool
  b : Pbuf
  it : Nat
  pos : Nat
deriving DecidableEq

namespace Xdrbuf

variable {α : Type u}

/-- The constructor. -/
def new (b : Pbuf) : Xdrbuf := ⟨true, b, 0, 0⟩

/-- `THR`: an exception when they are in use, the given return value otherwise. -/
def thr (x : Xdrbuf) (e : Exc) (a : α) : Res Exc α := if x.useExc then .thrown e else .ret a

/-! ## Writing -/

/-- `size_and_buf_to_pbuf(b,p,sz)`, where `p` points to `sz` bytes or is null. -/
def sizeAndBufToPbuf (b : Pbuf) (p : Option (List UInt8)) : Pbuf × Option Exc :=
  match p with
  | none => (b, some .rsCannotAppend)
  | some p =>
    if p = [] then (b, some .rsCannotAppend)
    else
      let r := b.append (be 8 p.length)
      if r.2 = false then (r.1, some .rsCannotAppend)
      else
        let r := r.1.append p
        if r.2 = false then (r.1, some .rsCannotAppend)
        else if pad p.length = [] then (r.1, none)
        else
          let r := r.1.append (pad p.length)
          (r.1, if r.2 then none else some .rsCannotAppend)

/-- What is common to the writers of a number. -/
def put (x : Xdrbuf) (bs : List UInt8) : Xdrbuf × Option Exc :=
  let r := x.b.append bs
  ({ x with b := r.1 }, if r.2 || !x.useExc then none else some .rsCannotAppend)

/-- `operator<<(int32_t)`. -/
def writeInt32 (x : Xdrbuf) (val : Int32) : Xdrbuf × Option Exc := x.put (be 4 val.toUInt32.toNat)

/-- `operator<<(uint32_t)`. -/
def writeUInt32 (x : Xdrbuf) (val : UInt32) : Xdrbuf × Option Exc := x.put (be 4 val.toNat)

/-- `operator<<(int64_t)`. -/
def writeInt64 (x : Xdrbuf) (val : Int64) : Xdrbuf × Option Exc := x.put (be 8 val.toUInt64.toNat)

/-- `operator<<(uint64_t)`. -/
def writeUInt64 (x : Xdrbuf) (val : UInt64) : Xdrbuf × Option Exc := x.put (be 8 val.toNat)

/-- What is common to the writers of data: a size of 0 is written as such, other data goes
    through `size_and_buf_to_pbuf`, whose exceptions are passed on when they are in use. -/
def putCounted (x : Xdrbuf) (sz : UInt64) (p : Option (List UInt8)) : Xdrbuf × Option Exc :=
  if sz = 0 then x.writeUInt64 0
  else
    let r := sizeAndBufToPbuf x.b p
    ({ x with b := r.1 }, if x.useExc then r.2 else none)

/-- `operator<<(const char *)`; the list is the string without its zero. -/
def writeCstr (x : Xdrbuf) (val : Option (List UInt8)) : Xdrbuf × Option Exc :=
  match val with
  | none => x.writeUInt64 0
  | some s => x.putCounted (UInt64.ofNat s.length) (some s)

/-- `str::size()`, from the bytes in the string's buffer. -/
def strSize (buf : List UInt8) : Nat := if buf.length ≤ 1 then 0 else buf.length / 4 - 1

/-- `operator<<(const str &)`. -/
def writeStr (x : Xdrbuf) (buf : List UInt8) : Xdrbuf × Option Exc :=
  x.putCounted (UInt64.ofNat buf.length) (some (buf.take (strSize buf * 4)))

/-- `operator<<(const ustr &)`. -/
def writeUstr (x : Xdrbuf) (buf : List UInt8) : Xdrbuf × Option Exc :=
  x.putCounted (UInt64.ofNat buf.length) (some buf)

/-- `operator<<(const bindata_t &)`, where `first` points to `second` bytes or is null. -/
def writeBindata (x : Xdrbuf) (first : Option (List UInt8)) (second : UInt64) :
    Xdrbuf × Option Exc :=
  x.putCounted second first

/-- The loop over the pages of the other buffer. -/
def appendPages (b : Pbuf) : List Page8 → Pbuf × Bool
  | [] => (b, true)
  | p :: ps =>
    let r := b.append p
    if r.2 = false then r else appendPages r.1 ps

/-- `operator<<(const pbuf &)`. -/
def writePbuf (x : Xdrbuf) (val : Pbuf) : Xdrbuf × Option Exc :=
  let r := x.writeUInt64 (UInt64.ofNat val.size)
  match r.2 with
  | some e => (r.1, some e)
  | none =>
    if val.size = 0 then r
    else
      let s := appendPages r.1.b val.pages
      if s.2 = false then ({ r.1 with b := s.1 }, none)
      else if pad val.size = [] then ({ r.1 with b := s.1 }, none)
      else ({ r.1 with b := (s.1.append (pad val.size)).1 }, none)

/-! ## Reading -/

/-- `it_ == b_->end()`. -/
def AtEnd (x : Xdrbuf) : Prop := x.it = x.b.pages.length

instance (x : Xdrbuf) : Decidable x.AtEnd := inferInstanceAs (Decidable (_ = _))

/-- `if( pos_ >= (*it_)->size_ ) { ++it_; pos_=0; }`, which follows `it_`. -/
def settle (x : Xdrbuf) : Option Xdrbuf :=
  (x.b.pages[x.it]?).map fun p =>
    if x.pos ≥ p.length then { x with it := x.it + 1, pos := 0 } else x

/-- The loop through the pages that `get_data`, `forward` and the reader of a `pbuf` have in
    common: where it leaves `it_` and `pos_`, and the pieces it met on the way. -/
def scan : List Page8 → Nat → Nat → Nat → Nat × Nat × List (List UInt8)
  | [], it, pos, _ => (it, pos, [])
  | p :: ps, it, pos, size =>
    if size = 0 then (it, pos, [])
    else
      let ts := p.length - pos
      if ts ≥ size then (it, pos + round4 size, [(p.drop pos).take size])
      else if ts > 0 then
        let r := scan ps (it + 1) 0 (size - ts)
        (r.1, r.2.1, p.drop pos :: r.2.2)
      else scan ps (it + 1) 0 size

/-- The loop on the members. -/
def scanFrom (x : Xdrbuf) (size : Nat) : Xdrbuf × List (List UInt8) :=
  let r := scan (x.b.pages.drop x.it) x.it x.pos size
  ({ x with it := r.1, pos := r.2.1 }, r.2.2)

/-- `get_data(where,size)`, with the bytes it puts to `where`. -/
def getData (x : Xdrbuf) (size : Nat) : Xdrbuf × List UInt8 :=
  match x.settle with
  | none => (x, [])
  | some x =>
    let r := x.scanFrom size
    (r.1, r.2.flatten)

/-- How a read of `size` bytes, of which `szrd` came, ends when it did not get all of them. -/
def short (x : Xdrbuf) (size szrd : Nat) (a : α) : Res Exc α :=
  if szrd = 0 ∧ x.AtEnd then x.thr .rsXdrEof a
  else if szrd ≠ size then x.thr .rsXdrInvalid a
  else x.thr .rsCannotGet a

/-- What is common to the readers of a number: its bytes, or none when it is left alone. -/
def readBytes (x : Xdrbuf) (w : Nat) : Xdrbuf × Res Exc (Option (List UInt8)) :=
  let r := x.getData w
  (r.1, if r.2.length = w then .ret (some r.2) else r.1.short w r.2.length none)

/-- `operator>>(int32_t &)`. -/
def readInt32 (x : Xdrbuf) : Xdrbuf × Res Exc (Option Int32) :=
  andThen (x.readBytes 4) fun x bs => (x, .ret (bs.map fun bs => (UInt32.ofNat (ofBe bs)).toInt32))

/-- `operator>>(uint32_t &)`. -/
def readUInt32 (x : Xdrbuf) : Xdrbuf × Res Exc (Option UInt32) :=
  andThen (x.readBytes 4) fun x bs => (x, .ret (bs.map fun bs => UInt32.ofNat (ofBe bs)))

/-- `operator>>(int64_t &)`. -/
def readInt64 (x : Xdrbuf) : Xdrbuf × Res Exc (Option Int64) :=
  andThen (x.readBytes 8) fun x bs => (x, .ret (bs.map fun bs => (UInt64.ofNat (ofBe bs)).toInt64))

/-- `operator>>(uint64_t &)`. -/
def readUInt64 (x : Xdrbuf) : Xdrbuf × Res Exc (Option UInt64) :=
  andThen (x.readBytes 8) fun x bs => (x, .ret (bs.map fun bs => UInt64.ofNat (ofBe bs)))

/-- `str::ensure_trailing_zero()`. A buffer shorter than a character is looked at outside its
    bounds; `stray` says whether that is a zero. -/
def strEnsureTrailingZero (stray : Bool) (buf : List UInt8) : List UInt8 :=
  if buf = [] then List.replicate 4 0
  else if buf.length < 4 then (if stray then buf else buf ++ List.replicate 4 0)
  else if (buf.drop (4 * (buf.length / 4 - 1))).take 4 ≠ List.replicate 4 0 then
    buf ++ List.replicate 4 0
  else buf

/-- `ustr::ensure_trailing_zero()`. -/
def ustrEnsureTrailingZero (buf : List UInt8) : List UInt8 :=
  if buf.getLast? = some 0 then buf else buf ++ [0]

/-- What is common to the readers of strings: the buffer afterwards, or none when the string is
    not filled. `alloc` says whether `allocate` returns a buffer of the given size, `cleared` is
    what `clear()` leaves. -/
def readCounted (x : Xdrbuf) (alloc : UInt64 → Bool) (cleared : List UInt8)
    (ensure : List UInt8 → List UInt8) : Xdrbuf × Res Exc (Option (List UInt8)) :=
  andThen x.readUInt64 fun x v =>
    let sz := v.getD 0
    if sz = 0 then (x, .ret (some cleared))
    else if alloc sz then
      let r := x.getData sz.toNat
      (r.1, if r.2.length = sz.toNat then .ret (some (ensure r.2))
        else r.1.short sz.toNat r.2.length none)
    else (x, .ret none)

/-- `operator>>(str &)`. -/
def readStr (x : Xdrbuf) (alloc : UInt64 → Bool) (stray : Bool) :
    Xdrbuf × Res Exc (Option (List UInt8)) :=
  x.readCounted alloc (List.replicate 4 0) (strEnsureTrailingZero stray)

/-- `operator>>(ustr &)`. -/
def readUstr (x : Xdrbuf) (alloc : UInt64 → Bool) : Xdrbuf × Res Exc (Option (List UInt8)) :=
  x.readCounted alloc [0] ustrEnsureTrailingZero

/-- `operator>>(pbuf &)`, which appends to `val`. -/
def readPbuf (x : Xdrbuf) (val : Pbuf) : Xdrbuf × Res Exc Pbuf :=
  if x.AtEnd then (x, .ret val)
  else
    andThen x.readUInt64 fun x v =>
      let size := (v.getD 0).toNat
      match x.settle with
      | none => (x, .fault)
      | some x =>
        let r := x.scanFrom size
        let val := (appendPages val r.2).1
        (r.1, if size ≠ r.2.flatten.length then r.1.thr .rsXdrInvalid val else .ret val)

/-- `get_data(where,size,max_size)` where there is room for `room` bytes: whether it succeeds,
    the size, and the bytes put to `where`. -/
def getDataMax (x : Xdrbuf) (room : Nat) (maxSize : UInt64) :
    Xdrbuf × Res Exc (Bool × UInt64 × List UInt8) :=
  andThen x.readUInt64 fun x' v =>
    let sz := v.getD 0
    if sz > maxSize then ({ x' with it := x.it, pos := x.pos }, .ret (false, sz, []))
    else
      let r := x'.getData sz.toNat
      (r.1, if r.2.length > room then .fault
        else if r.2.length = sz.toNat then .ret (true, sz, r.2)
        else r.1.thr .rsXdrInvalid (false, sz, r.2))

/-- `get_data<T>(t,size,max_size)`; `alloc` says whether `t.allocate` returns a buffer of the
    given size. `size` is what the caller has there, and is left if the first four bytes are refused. -/
def getDataT (x : Xdrbuf) (alloc : UInt64 → Bool) (size maxSize : UInt64) :
    Xdrbuf × Res Exc (Bool × UInt64 × List UInt8) :=
  andThen x.readUInt32 fun x' v =>
    match v with
    | none => (x', .fault)
    | some sz =>
      let x := { x' with it := x.it, pos := x.pos }
      if sz ≤ 0 ∨ sz.toUInt64 > maxSize then (x, .ret (false, size, []))
      else x.getDataMax (if alloc sz.toUInt64 then sz.toNat else 0) maxSize

/-- `forward(n)`. -/
def forward (x : Xdrbuf) (n : Nat) : Xdrbuf × Bool :=
  match x.settle with
  | none => (x, false)
  | some x =>
    let r := x.scanFrom n
    (r.1, decide (r.2.flatten.length = n))

/-- `rewind()`. -/
def rewind (x : Xdrbuf) : Xdrbuf := { x with it := 0, pos := 0 }

/-- `position()`. -/
def position (x : Xdrbuf) : Nat :=
  ((x.b.pages.take x.it).map List.length).sum + if x.AtEnd then 0 else x.pos

end Xdrbuf

end CodeSLoop
