import CodeSLoop.Common.Tbuf
import CodeSLoop.Common.XdrReads

/-!
# `str` and `ustr` — the string classes (`common/str.hh`, `common/str.cc`, `common/ustr.hh`, `common/ustr.cc`)

A string is the bytes of its `tbuf`. "The class ensures that a trailing zero character is always
present": most operations end in `ensure_trailing_zero()`, which looks at the last character by an
index that it takes from the size before it does anything to the buffer. For an empty buffer, and
in `str` for one that is shorter than a character, that index is the largest number there is.
`str` looks whether the buffer is empty first; `ustr` does too, and then goes on to look at the
character.

The functions here are on the bytes of buffers; `none` is an index outside of one. A pointer into
the string's own buffer may be to bytes that are given back, when the buffer is on the heap, or that
are written over, before they are copied; that too is `none`.
-/

namespace CodeSLoop

open Bytes Codec Memory

namespace Strings

/-! ## The C library -/

/-- What the strings use of the C library, and what memory has in it that nobody wrote. `malloc`
    gives no block that half of the address space is too small for.

    A conversion returns how many characters it put to the area that it was given, or -1, which it
    also does when it already put some there. `n` is what there is room for: bytes for `wcstombs`,
    wide characters for `mbstowcs`. -/
structure Libc where
  /-- The bytes of new memory. -/
  fresh : Nat → List UInt8
  /-- What is found where bytes were that have been given back, or have been kept. -/
  freed : List UInt8 → List UInt8
  wcstombs : (s : List UInt8) → (n : Nat) → UInt64
  mbstowcs : (s : List UInt8) → (n : Nat) → UInt64
  /-- The area after the conversion. -/
  wcstombsTo : (s area : List UInt8) → List UInt8
  mbstowcsTo : (s area : List UInt8) → List UInt8
  length_fresh : ∀ n, (fresh n).length = n
  length_freed : ∀ bs, (freed bs).length = bs.length
  wcstombs_le : ∀ s n, wcstombs s n = -1 ∨ (wcstombs s n).toNat ≤ n
  mbstowcs_le : ∀ s n, mbstowcs s n = -1 ∨ (mbstowcs s n).toNat ≤ n
  length_wcstombsTo : ∀ s area, (wcstombsTo s area).length = area.length
  length_mbstowcsTo : ∀ s area, (mbstowcsTo s area).length = area.length

attribute [simp] Libc.length_fresh Libc.length_freed Libc.length_wcstombsTo Libc.length_mbstowcsTo

/-- Whether `malloc` has a block of the given size. -/
def hasBlock (n : Nat) : Bool := decide (n < 2 ^ 63)

variable (lib : Libc)

/-! ## The bytes of a `tbuf` -/

/-- `allocate`, with no buffer when the pointer it returns is null. -/
def allocate (buf : List UInt8) (sz : UInt64) : Option (List UInt8) :=
  if sz = 0 then some []
  else if sz.toNat ≤ buf.length then some (buf.take sz.toNat)
  else if hasBlock sz.toNat then some (buf ++ lib.fresh (sz.toNat - buf.length))
  else none

/-- `set(dta,sz)`, where `dta` are the bytes from the pointer on. -/
def set (buf dta : List UInt8) (sz : UInt64) : Option (List UInt8) :=
  if sz = 0 then some []
  else
    match allocate lib buf sz with
    | none => some buf
    | some b => if sz.toNat ≤ dta.length then some (dta.take sz.toNat ++ b.drop sz.toNat) else none

/-- `set(dta,sz)` with bytes of the buffer itself, for which no other memory is needed. They are not
    copied where they are written over. -/
def setOwn (buf : List UInt8) (off n : Nat) : Option (List UInt8) :=
  if n = 0 then some [] else if off < n then none else some ((buf.drop off).take n)

/-- `append(dta,sz)`. -/
def append (buf dta : List UInt8) : List UInt8 :=
  if dta = [] then buf
  else
    match allocate lib buf (UInt64.ofNat buf.length + UInt64.ofNat dta.length) with
    | none => buf
    | some b => b.take (b.length - dta.length) ++ dta

/-- `operator=(const pbuf &)`. -/
def copyPbuf (buf : List UInt8) (other : Pbuf) : List UInt8 :=
  let sz := UInt64.ofNat other.size
  if sz = 0 then []
  else
    match allocate lib buf sz with
    | none => buf
    | some b => other.bytes ++ b.drop other.bytes.length

/-- What is common to the readers of strings: `Xdrbuf.readCounted`, with a fault where
    `ensure_trailing_zero()` looks outside of the buffer. -/
def readCounted (x : Xdrbuf) (alloc : UInt64 → Bool) (cleared : List UInt8)
    (ensure : List UInt8 → Option (List UInt8)) : Xdrbuf × Res Exc (Option (List UInt8)) :=
  andThen x.readUInt64 fun x v =>
    let sz := v.getD 0
    if sz = 0 then (x, .ret (some cleared))
    else if alloc sz then
      let r := x.getData sz.toNat
      (r.1, if r.2.length = sz.toNat then (ensure r.2).elim .fault fun b => .ret (some b)
        else r.1.short sz.toNat r.2.length none)
    else (x, .ret none)

/-- What `substr` does to "shrink length to fit in". -/
def fitIn (sz start length : UInt64) : UInt64 := if sz < length + start then sz - start else length

/-- The exceptions of the strings themselves. -/
inductive StrExc
  | rsInvalidParam | rsConvError
deriving DecidableEq

/-! ## `ustr` -/

namespace Ustr

/-- `size()`. -/
def size (buf : List UInt8) : UInt64 :=
  if buf.length ≤ 1 then 0 else UInt64.ofNat buf.length - 1

/-- `ensure_trailing_zero()`. -/
def ensureTrailingZero (buf : List UInt8) : Option (List UInt8) :=
  let sz := UInt64.ofNat buf.length
  let buf := if buf.length = 0 then append lib buf [0] else buf
  (buf[(sz - 1).toNat]?).map fun c => if c ≠ 0 then append lib buf [0] else buf

/-- The buffer before something is appended. -/
def withoutZero (buf : List UInt8) : List UInt8 :=
  let sz := UInt64.ofNat buf.length
  if sz > 0 ∧ buf[(sz - 1).toNat]? = some 0 then (allocate lib buf (sz - 1)).getD buf else buf

/-- `operator+=(const ustr &)`, of another string. -/
def addUstr (buf s : List UInt8) : Option (List UInt8) :=
  ensureTrailingZero lib (append lib (withoutZero lib buf) s)

/-- `operator+=(const ustr &)`, of the string itself. On the heap the bytes to append are given back
    before they are copied. -/
def addSelf (heap : Bool) (buf : List UInt8) : Option (List UInt8) :=
  let dta := withoutZero lib buf
  if heap ∧ dta ≠ [] then none else ensureTrailingZero lib (append lib dta dta)

/-- `operator+=(const char *)`, with the zero of the C string. -/
def addCstr (buf s : List UInt8) : Option (List UInt8) :=
  ensureTrailingZero lib (append lib (withoutZero lib buf) s)

/-- The C string from a place in the buffer on, with its zero. -/
def cstrAt (buf : List UInt8) (off : Nat) : List UInt8 := (buf.drop off).takeWhile (· ≠ 0) ++ [0]

/-- `operator+=(const char *)`, of the C string from a place in the string itself on. On the heap it
    is given back before it is copied; and what is put in the place of the terminator is written over
    it when the C string goes as far as that and the buffer stays where it is. -/
def addOwnCstr (heap : Bool) (buf : List UInt8) (off : Nat) : Option (List UInt8) :=
  let b := withoutZero lib buf
  let s := cstrAt buf off
  if heap ∨ (b.length + s.length ≤ 128 ∧ b.length < off + s.length) then none
  else ensureTrailingZero lib (append lib b s)

/-- `from_integer(v)` and `from_double(v)`, for what is printed. `SNPRINTF` cuts it to what it is said
    to have room for, and tells how long it is. -/
def fromNumber (buf text : List UInt8) : Option (List UInt8) :=
  (allocate lib buf (128 - 1)).bind fun p =>
    let out := text.take (128 - 2) ++ [0]
    allocate lib (out ++ p.drop out.length) (UInt64.ofNat (text.length + 1))

/-- `operator=(const str &)`. -/
def copyStr (buf other : List UInt8) : Option (List UInt8) :=
  let sz := UInt64.ofNat other.length - 1
  match allocate lib buf sz with
  | none => ensureTrailingZero lib buf
  | some b =>
    if sz = 0 then ensureTrailingZero lib b
    else
      let szz := lib.wcstombs other sz.toNat
      let b := lib.wcstombsTo other b
      if szz = -1 then ensureTrailingZero lib []
      else ensureTrailingZero lib ((allocate lib b szz).getD b)

/-- `ustr(const str &)`. -/
def ofStr (other : List UInt8) : Option (List UInt8) := copyStr lib [0] other

/-- `operator+=(const str &)`. -/
def addStr (buf other : List UInt8) : Option (List UInt8) :=
  (ofStr lib other).bind (addUstr lib buf)

/-- `substr(start,length)`. -/
def substr (buf : List UInt8) (start length : UInt64) : Except StrExc (Option (List UInt8)) :=
  let sz := size buf
  if start > sz then .error .rsInvalidParam
  else
    .ok ((set lib [0] (buf.drop start.toNat) (fitIn sz start length)).bind (ensureTrailingZero lib))

/-- `from_binary(v,sz)`. -/
def fromBinary (buf v : List UInt8) : Option (List UInt8) :=
  if v = [] then some [0]
  else (set lib buf v (UInt64.ofNat v.length)).bind (ensureTrailingZero lib)

/-- `assign(start,end)`. -/
def assign (buf range : List UInt8) : Option (List UInt8) :=
  set lib buf range (UInt64.ofNat range.length)

/-- `operator=(const pbuf &)`. -/
def copyPbuf (buf : List UInt8) (other : Pbuf) : Option (List UInt8) :=
  ensureTrailingZero lib (Strings.copyPbuf lib buf other)

/-- `xdrbuf::operator>>(ustr &)`. -/
def read (x : Xdrbuf) (alloc : UInt64 → Bool) : Xdrbuf × Res Exc (Option (List UInt8)) :=
  readCounted x alloc [0] (ensureTrailingZero lib)

end Ustr

/-! ## `str` -/

namespace Str

/-- A wide zero. -/
def zero : List UInt8 := List.replicate 4 0

/-- `size()`. -/
def size (buf : List UInt8) : UInt64 :=
  if buf.length ≤ 1 then 0 else UInt64.ofNat buf.length / 4 - 1

/-- `data()[i]`. -/
def char? (buf : List UInt8) (i : UInt64) : Option (List UInt8) :=
  if 4 * i.toNat + 4 ≤ buf.length then some ((buf.drop (4 * i.toNat)).take 4) else none

/-- `ensure_trailing_zero()`. -/
def ensureTrailingZero (buf : List UInt8) : Option (List UInt8) :=
  let sz := UInt64.ofNat buf.length / 4 - 1
  if buf.length = 0 then some (append lib buf zero)
  else (char? buf sz).map fun c => if c ≠ zero then append lib buf zero else buf

/-- The buffer before something is appended. -/
def withoutZero (buf : List UInt8) : List UInt8 :=
  let sz := size buf
  if buf.length > 0 ∧ char? buf sz = some zero then (allocate lib buf (sz * 4)).getD buf else buf

/-- `operator+=(const str &)`, of another string. -/
def addStr (buf s : List UInt8) : Option (List UInt8) :=
  ensureTrailingZero lib (append lib (withoutZero lib buf) s)

/-- `operator+=(const str &)`, of the string itself. -/
def addSelf (heap : Bool) (buf : List UInt8) : Option (List UInt8) :=
  let dta := withoutZero lib buf
  if heap ∧ dta ≠ [] then none else ensureTrailingZero lib (append lib dta dta)

/-- `operator+=(const wchar_t *)`, with the zero of the C string. -/
def addWcs (buf s : List UInt8) : Option (List UInt8) :=
  ensureTrailingZero lib (append lib (withoutZero lib buf) s)

/-- The bytes of wide characters up to a zero, with that. -/
def wcs : List UInt8 → List UInt8
  | a :: b :: c :: d :: s => if [a, b, c, d] = zero then zero else a :: b :: c :: d :: wcs s
  | _ => []

/-- `operator+=(const wchar_t *)`, of the wide C string from the character `off` of the string itself
    on. -/
def addOwnWcs (heap : Bool) (buf : List UInt8) (off : Nat) : Option (List UInt8) :=
  let b := withoutZero lib buf
  let s := wcs (buf.drop (4 * off))
  if heap ∨ (b.length + s.length ≤ 512 ∧ b.length < 4 * off + s.length) then none
  else ensureTrailingZero lib (append lib b s)

/-- Wide characters, with their low byte first. -/
def ofChars (text : List UInt8) : List UInt8 := text.flatMap fun c => [c, 0, 0, 0]

/-- `from_integer(v)` and `from_double(v)`, for what is printed. What `SWPRINTF` is said to have room
    for is meant to be in bytes, and taken to be in wide characters. -/
def fromNumber (buf text : List UInt8) : Option (List UInt8) :=
  (allocate lib buf (512 - 1)).bind fun p =>
    let out := ofChars text ++ zero
    if 512 < out.length then none
    else allocate lib (out ++ p.drop out.length) (UInt64.ofNat (text.length + 1) * 4)

/-- `operator=(const char *)`. -/
def copyCstr (useExc : Bool) (buf us : List UInt8) : Except StrExc (Option (List UInt8)) :=
  let len := (us.takeWhile (· ≠ 0)).length + 1
  let b := (allocate lib buf (UInt64.ofNat len * 4)).elim buf (lib.mbstowcsTo us)
  let ssz := lib.mbstowcs us len
  if ssz = -1 then if useExc then .error .rsConvError else .ok (ensureTrailingZero lib [])
  else .ok (ensureTrailingZero lib ((allocate lib b (ssz * 4)).getD b))

/-- What is common to the conversions; `shrink` is what becomes of the buffer after `mbstowcs`. -/
def convert (buf other : List UInt8) (shrink : List UInt8 → UInt64 → List UInt8) :
    Option (List UInt8) :=
  let sz := Ustr.size other
  match allocate lib buf (sz * 4) with
  | none => ensureTrailingZero lib buf
  | some b =>
    if sz = 0 then ensureTrailingZero lib b
    else
      let szz := lib.mbstowcs other sz.toNat
      ensureTrailingZero lib (shrink (lib.mbstowcsTo other b) szz)

/-- `str(const ustr &)`. That the conversion may have failed is not looked at. -/
def ofUstr (other : List UInt8) : Option (List UInt8) :=
  convert lib zero other fun b szz => (allocate lib b (szz * 4)).getD b

/-- `operator=(const ustr &)`. -/
def copyUstr (buf other : List UInt8) : Option (List UInt8) :=
  convert lib buf other fun b szz => if szz = -1 then [] else (allocate lib b (szz * 4)).getD b

/-- `operator+=(const ustr &)`. -/
def addUstr (buf other : List UInt8) : Option (List UInt8) :=
  (ofUstr lib other).bind (addStr lib buf)

/-- `substr(start,length)`. -/
def substr (buf : List UInt8) (start length : UInt64) : Except StrExc (Option (List UInt8)) :=
  let sz := size buf
  if start > sz then .error .rsInvalidParam
  else
    .ok ((set lib zero (buf.drop (4 * start.toNat)) (fitIn sz start length * 4)).bind (ensureTrailingZero lib))

/-- `from_binary(v,sz)`. -/
def fromBinary (buf v : List UInt8) : Option (List UInt8) :=
  if v = [] then some zero
  else (set lib buf v (UInt64.ofNat v.length)).bind (ensureTrailingZero lib)

/-- `assign(start,end)`. -/
def assign (buf range : List UInt8) : Option (List UInt8) :=
  set lib buf range (UInt64.ofNat range.length)

/-- `operator=(const pbuf &)`. -/
def copyPbuf (buf : List UInt8) (other : Pbuf) : Option (List UInt8) :=
  ensureTrailingZero lib (Strings.copyPbuf lib buf other)

/-- `xdrbuf::operator>>(str &)`. -/
def read (x : Xdrbuf) (alloc : UInt64 → Bool) : Xdrbuf × Res Exc (Option (List UInt8)) :=
  readCounted x alloc zero (ensureTrailingZero lib)

end Str

/-! ## The "C" locale -/

/-- The bytes of wide characters below 128, with their low byte first, up to a zero. -/
def narrow : List UInt8 → Option (List UInt8)
  | a :: b :: c :: d :: s =>
    if a = 0 ∧ b = 0 ∧ c = 0 ∧ d = 0 then some []
    else if a < 128 ∧ b = 0 ∧ c = 0 ∧ d = 0 then (narrow s).map fun bs => a :: bs
    else none
  | _ => some []

/-- The other way. -/
def widen : List UInt8 → Option (List UInt8)
  | [] => some []
  | a :: s =>
    if a = 0 then some []
    else if a < 128 then (widen s).map fun ws => a :: 0 :: 0 :: 0 :: ws
    else none

/-- An area with bytes put at its start, as many as it has room for. -/
def put (bs area : List UInt8) : List UInt8 := bs.take area.length ++ area.drop bs.length

theorem length_put {bs area : List UInt8} : (put bs area).length = area.length := by
  rw [put, List.length_append, List.length_take, List.length_drop]
  omega

/-- How many characters there are in the bytes, `w` to a character, and at most `n`. -/
def count (w n : Nat) (bs : Option (List UInt8)) : UInt64 :=
  bs.elim (-1) fun bs => UInt64.ofNat (min n (bs.length / w))

theorem count_le {w n : Nat} {bs : Option (List UInt8)} :
    count w n bs = -1 ∨ (count w n bs).toNat ≤ n := by
  cases bs with
  | none => exact Or.inl rfl
  | some bs =>
    right
    rw [count, Option.elim_some, UInt64.toNat_ofNat']
    exact (Nat.mod_le _ _).trans (Nat.min_le_left _ _)

/-- This locale, where the program starts; new memory is zero, and what was in it is kept. -/
def Libc.c : Libc where
  fresh n := List.replicate n 0
  freed bs := bs
  wcstombs s n := count 1 n (narrow s)
  mbstowcs s n := count 4 n (widen s)
  wcstombsTo s area := put ((narrow s).getD []) area
  mbstowcsTo s area := put ((widen s).getD []) area
  length_fresh _ := List.length_replicate
  length_freed _ := rfl
  wcstombs_le _ _ := count_le
  mbstowcs_le _ _ := count_le
  length_wcstombsTo _ _ := length_put
  length_mbstowcsTo _ _ := length_put

/-- "hi", there and back. -/
example : (Str.ofUstr Libc.c [104, 105, 0]).bind (Ustr.ofStr Libc.c) = some [104, 105, 0] := by decide

/-! ## What the calls on the buffer do -/

variable {lib : Libc} {buf dta : List UInt8} {sz : UInt64} {x : Xdrbuf}

theorem toNat_length (h : buf.length < 2 ^ 63) : (UInt64.ofNat buf.length).toNat = buf.length := by
  rw [UInt64.toNat_ofNat', Nat.mod_eq_of_lt (by omega)]

theorem toNat_sub_one (h : 0 < sz.toNat) : (sz - 1).toNat = sz.toNat - 1 := by
  rw [UInt64.toNat_sub_of_le _ _ (UInt64.le_iff_toNat_le.mpr ?_)]
  · rfl
  · exact h

/-- In 64 bits, the sum of a length and a place in the string may wrap. Then the length is left as
    it is, and that is more than half of the address space. -/
theorem fitIn_cases {start length : UInt64} (hle : start.toNat ≤ sz.toNat) (hsz : sz.toNat < 2 ^ 60) :
    (start.toNat + length.toNat < 2 ^ 64 ∧
      (fitIn sz start length).toNat = min length.toNat (sz.toNat - start.toNat)) ∨
    (2 ^ 64 ≤ start.toNat + length.toNat ∧ fitIn sz start length = length) := by
  have hl := length.toNat_lt
  have hlt : sz < length + start ↔ sz.toNat < (length.toNat + start.toNat) % 2 ^ 64 := by
    rw [UInt64.lt_iff_toNat_lt, UInt64.toNat_add]
  by_cases hwrap : start.toNat + length.toNat < 2 ^ 64
  · refine Or.inl ⟨hwrap, ?_⟩
    rw [Nat.mod_eq_of_lt (by omega)] at hlt
    by_cases hfit : sz < length + start
    · have hover := hlt.mp hfit
      rw [fitIn, if_pos hfit, UInt64.toNat_sub_of_le _ _ (UInt64.le_iff_toNat_le.mpr hle)]
      omega
    · have hunder := mt hlt.mpr hfit
      rw [fitIn, if_neg hfit]
      omega
  · refine Or.inr ⟨Nat.le_of_not_lt hwrap, if_neg fun hfit => ?_⟩
    have hover := hlt.mp hfit
    omega

theorem ofNat_length_ne_zero (hne : buf ≠ []) (h : buf.length < 2 ^ 63) :
    UInt64.ofNat buf.length ≠ 0 := by
  intro h0
  have hpos := List.length_pos_of_ne_nil hne
  have hlen := congrArg UInt64.toNat h0
  rw [toNat_length h, UInt64.toNat_zero] at hlen
  omega

theorem allocate_take (h : sz.toNat ≤ buf.length) : allocate lib buf sz = some (buf.take sz.toNat) := by
  unfold allocate
  by_cases h0 : sz = 0
  · rw [if_pos h0, h0, UInt64.toNat_zero, List.take_zero]
  · rw [if_neg h0, if_pos h]

theorem hasBlock_of_lt {n : Nat} (h : n < 2 ^ 63) : hasBlock n = true := decide_eq_true h

theorem allocate_enough (lib : Libc) (buf : List UInt8) (h : sz.toNat < 2 ^ 63) :
    ∃ b, allocate lib buf sz = some b ∧ b.length = sz.toNat := by
  by_cases hle : sz.toNat ≤ buf.length
  · exact ⟨_, allocate_take hle, List.length_take_of_le hle⟩
  · have h0 : sz ≠ 0 := fun h0 => hle (by rw [h0]; exact Nat.zero_le _)
    refine ⟨_, by rw [allocate, if_neg h0, if_neg hle, if_pos (hasBlock_of_lt h)], ?_⟩
    rw [List.length_append, lib.length_fresh]
    omega

theorem allocate_refused (hbuf : buf.length < 2 ^ 63) (h : 2 ^ 63 ≤ sz.toNat) :
    allocate lib buf sz = none := by
  have h0 : sz ≠ 0 := by
    intro h0
    rw [h0, UInt64.toNat_zero] at h
    omega
  have hblock : hasBlock sz.toNat = false := decide_eq_false (by omega)
  rw [allocate, if_neg h0, if_neg (by omega), hblock, if_neg Bool.false_ne_true]

/-- These are the bytes of a `Tbuf`, as its own `allocate` leaves them. -/
theorem allocate_tbuf {SZ : UInt64} (t : Tbuf SZ) {m : Malloc}
    (hm : ∀ n, (m.answer n).isSome = hasBlock n.toNat) (hSZ : SZ.toNat < 2 ^ 63)
    (hsize : t.size.toNat < 2 ^ 63)
    (hfresh : lib.fresh (sz.toNat - t.size.toNat) = (t.allocate m sz).1.bytes.drop t.size.toNat) :
    allocate lib t.bytes sz =
      if (t.allocate m sz).2 = 0 then none else some (t.allocate m sz).1.bytes := by
  have hlen := t.length_bytes
  by_cases h : sz.toNat < 2 ^ 63
  · have hptr : (t.allocate m sz).2 ≠ 0 := by
      by_cases h0 : sz = 0
      · rw [h0, Tbuf.allocate_zero]
        exact t.block.addr_ne
      · rw [(Tbuf.allocate_met h0 fun _ => by rw [hm]; exact hasBlock_of_lt h).2.1]
        exact (t.allocate m sz).1.block.addr_ne
    rw [if_neg hptr]
    by_cases hle : sz.toNat ≤ t.size.toNat
    · rw [allocate_take (by rw [hlen]; exact hle), Tbuf.bytes_allocate_le hle]
    · have h0 : sz ≠ 0 := fun h0 => hle (by rw [h0]; exact Nat.zero_le _)
      rw [allocate, if_neg h0, hlen, if_neg hle, if_pos (hasBlock_of_lt h), hfresh,
        ← Tbuf.take_bytes_allocate (Nat.le_of_not_le hle) fun _ => by rw [hm]; exact hasBlock_of_lt h,
        List.take_append_drop]
  · have hneeds : t.NeedsMalloc sz := by
      refine ⟨fun h0 => h (by rw [h0]; decide), fun hle => ?_, fun hle => ?_⟩
      · rw [UInt64.le_iff_toNat_le] at hle
        omega
      · have hle := UInt64.le_iff_toNat_le.mp hle.1
        omega
    have hnone : m.answer sz = none := by
      have hsome := hm sz
      rw [hasBlock, decide_eq_false h] at hsome
      exact Option.not_isSome_iff_eq_none.mp (by rw [hsome]; exact Bool.false_ne_true)
    rw [Tbuf.allocate_refused hneeds hnone, if_pos rfl,
      allocate_refused (by omega) (Nat.le_of_not_lt h)]

/-- What is appended is behind what was there. -/
theorem append_eq (h : buf.length + dta.length < 2 ^ 63) : append lib buf dta = buf ++ dta := by
  unfold append
  by_cases hd : dta = []
  · rw [if_pos hd, hd, List.append_nil]
  · have hpos := List.length_pos_of_ne_nil hd
    have hsum : (UInt64.ofNat buf.length + UInt64.ofNat dta.length).toNat =
        buf.length + dta.length := by
      rw [UInt64.toNat_add, toNat_length (by omega), toNat_length (by omega),
        Nat.mod_eq_of_lt (by omega)]
    have h0 : UInt64.ofNat buf.length + UInt64.ofNat dta.length ≠ 0 := by
      intro h0
      rw [h0, UInt64.toNat_zero] at hsum
      omega
    have halloc : allocate lib buf (UInt64.ofNat buf.length + UInt64.ofNat dta.length) =
        some (buf ++ lib.fresh dta.length) := by
      rw [allocate, if_neg h0, hsum, if_neg (by omega),
        if_pos (hasBlock_of_lt (by omega)), Nat.add_sub_cancel_left]
    rw [if_neg hd, halloc]
    simp

/-- Nothing is there but the bytes that were set. -/
theorem set_eq (h0 : sz ≠ 0) (hle : sz.toNat ≤ dta.length) (h : sz.toNat < 2 ^ 63) :
    set lib buf dta sz = some (dta.take sz.toNat) := by
  obtain ⟨b, hb, hlen⟩ := allocate_enough lib buf h
  rw [set, if_neg h0, hb]
  simp only [if_pos hle]
  rw [List.drop_of_length_le (Nat.le_of_eq hlen), List.append_nil]

theorem set_length (hne : dta ≠ []) (h : dta.length < 2 ^ 63) :
    set lib buf dta (UInt64.ofNat dta.length) = some dta := by
  have hlen := toNat_length h
  rw [set_eq (ofNat_length_ne_zero hne h) (Nat.le_of_eq hlen) (by omega), hlen, List.take_length]

theorem set_refused (hbuf : buf.length < 2 ^ 63) (h : 2 ^ 63 ≤ sz.toNat) :
    set lib buf dta sz = some buf := by
  have h0 : sz ≠ 0 := by
    intro h0
    rw [h0, UInt64.toNat_zero] at h
    omega
  rw [set, if_neg h0, allocate_refused hbuf h]

theorem copyPbuf_eq (other : Pbuf) (h : other.size < 2 ^ 63) :
    copyPbuf lib buf other = other.bytes := by
  have hsize := other.size_eq_bytes
  have hsz : (UInt64.ofNat other.size).toNat = other.bytes.length := by
    rw [hsize]
    exact toNat_length (by omega)
  unfold copyPbuf
  by_cases hne : other.bytes = []
  · rw [if_pos (by rw [hsize, hne]; rfl), hne]
  · have hlt : (UInt64.ofNat other.size).toNat < 2 ^ 63 := by omega
    obtain ⟨b, hb, hlen⟩ := allocate_enough lib buf hlt
    have h0 : UInt64.ofNat other.size ≠ 0 := by
      rw [hsize]
      exact ofNat_length_ne_zero hne (by omega)
    rw [if_neg h0, hb]
    simp only
    rw [List.drop_of_length_le (by omega), List.append_nil]

/-! ## What a read does -/

section Read

variable {cleared : List UInt8}

/-- A read with which no data comes: not a fault, and at most the string was cleared. -/
def Clears (cleared : List UInt8) (r : Res Exc (Option (List UInt8))) : Prop :=
  r ≠ .fault ∧ ∀ b, r = .ret (some b) → b = cleared

theorem clears_ret {v : Option (List UInt8)} (hv : ∀ b ∈ v, b = cleared) :
    Clears cleared (.ret v) := by
  refine ⟨fun hf => (by cases hf), fun b hb => ?_⟩
  cases hb
  exact hv b rfl

theorem clears_thrown {e : Exc} : Clears cleared (.thrown e) :=
  ⟨fun hf => (by cases hf), fun b hb => (by cases hb)⟩

theorem clears_thr {e : Exc} {v : Option (List UInt8)} (hv : ∀ b ∈ v, b = cleared) :
    Clears cleared (x.thr e v) := by
  unfold Xdrbuf.thr
  split
  · exact clears_thrown
  · exact clears_ret hv

/-- Data comes, and `ensure_trailing_zero()` is called; or none does, and it is not called. -/
theorem readCounted_cases (h : x.Ok) (alloc : UInt64 → Bool) (cleared : List UInt8)
    (ensure : List UInt8 → Option (List UInt8)) (ensure' : List UInt8 → List UInt8) :
    (∃ p z, Xdrbuf.payload x.rest = some p ∧ p ≠ [] ∧ alloc x.announced = true ∧
      readCounted x alloc cleared ensure = (z, (ensure p).elim .fault fun b => .ret (some b)) ∧
      x.readCounted alloc cleared ensure' = (z, .ret (some (ensure' p)))) ∨
    ((∀ p, Xdrbuf.payload x.rest = some p → p ≠ [] → alloc x.announced = false) ∧
      Clears cleared (readCounted x alloc cleared ensure).2 ∧
      readCounted x alloc cleared ensure = x.readCounted alloc cleared ensure') := by
  by_cases h8 : 8 ≤ x.rest.length
  · obtain ⟨y, hm, hy⟩ := Xdrbuf.readUInt64_enough h h8
    obtain ⟨hm', hbytes⟩ := Xdrbuf.getData_spec hm.ok x.announced.toNat
    have hpay := Xdrbuf.payload_eq h hm h8
    simp only [readCounted, Xdrbuf.readCounted, hy, andThen_ret, Option.getD_some]
    by_cases h0 : x.announced = 0
    · rw [h0, UInt64.toNat_zero, if_pos (Nat.zero_le _), List.take_zero] at hpay
      refine Or.inr ⟨fun p hp hne => absurd (Option.some.inj (hpay.symm.trans hp)).symm hne, ?_, ?_⟩
      · rw [if_pos h0]
        exact clears_ret fun b hb => (Option.some.inj hb).symm
      · rw [if_pos h0, if_pos h0]
    · cases ha : alloc x.announced with
      | false =>
        refine Or.inr ⟨fun _ _ _ => rfl, ?_, ?_⟩
        · rw [if_neg h0, if_neg Bool.false_ne_true]
          exact clears_ret fun b hb => (by cases hb)
        · rw [if_neg h0, if_neg h0, if_neg Bool.false_ne_true, if_neg Bool.false_ne_true]
      | true =>
        rw [if_neg h0, if_neg h0, if_pos rfl, if_pos rfl, hbytes, List.length_take]
        by_cases hle : x.announced.toNat ≤ y.rest.length
        · have hne : y.rest.take x.announced.toNat ≠ [] := by
            rw [← List.length_pos_iff, List.length_take, Nat.min_eq_left hle, Nat.pos_iff_ne_zero]
            exact fun hz => h0 (UInt64.toNat_inj.mp hz)
          rw [if_pos hle] at hpay
          rw [if_pos (Nat.min_eq_left hle), if_pos (Nat.min_eq_left hle)]
          exact Or.inl ⟨_, _, hpay, hne, rfl, rfl, rfl⟩
        · obtain ⟨e, he⟩ := Xdrbuf.short_eq (n := x.announced.toNat) (y.getData x.announced.toNat).1
            (min x.announced.toNat y.rest.length) (none : Option (List UInt8))
          have hshort : ¬ min x.announced.toNat y.rest.length = x.announced.toNat := by omega
          rw [if_neg hle] at hpay
          rw [if_neg hshort, if_neg hshort, he]
          refine Or.inr ⟨fun p hp => ?_, clears_thr fun b hb => (by cases hb), rfl⟩
          rw [hpay] at hp
          cases hp
  · obtain ⟨y, e, hm, hy⟩ := Xdrbuf.readUInt64_short h (Nat.lt_of_not_le h8)
    have hnone := Xdrbuf.payload_short (Nat.lt_of_not_le h8)
    simp only [readCounted, Xdrbuf.readCounted, hy, Xdrbuf.andThen_thr, Option.getD_none, if_pos]
    refine Or.inr ⟨fun p hp => ?_, ?_, trivial⟩
    · rw [hnone] at hp
      cases hp
    · split
      · exact clears_thrown
      · exact clears_ret fun b hb => (Option.some.inj hb).symm

theorem length_payload {p : List UInt8} (h : Xdrbuf.payload x.rest = some p) :
    p.length ≤ x.b.bytes.length := by
  have hrest := x.rest_length
  unfold Xdrbuf.payload at h
  split at h
  · rw [← Option.some.inj h, List.length_take, List.length_drop]
    omega
  · cases h

end Read

/-! ## `ensure_trailing_zero()` -/

namespace Ustr

/-- The size was 0 when the index was taken from it. -/
theorem ensureTrailingZero_nil : ensureTrailingZero lib [] = none := by
  have happ : append lib [] [0] = [0] := append_eq (by decide)
  simp [ensureTrailingZero, happ]

theorem ensureTrailingZero_eq (hne : buf ≠ []) (h : buf.length + 4 < 2 ^ 63) :
    ensureTrailingZero lib buf = some (Xdrbuf.ustrEnsureTrailingZero buf) := by
  have hpos := List.length_pos_of_ne_nil hne
  have hlen : (UInt64.ofNat buf.length).toNat = buf.length := toNat_length (by omega)
  have hidx : (UInt64.ofNat buf.length - 1).toNat = buf.length - 1 := by
    rw [toNat_sub_one (by omega), hlen]
  have hlast : buf[buf.length - 1]? = some (buf.getLast hne) := by
    rw [← List.getLast?_eq_getElem?, List.getLast?_eq_some_getLast hne]
  simp only [ensureTrailingZero, if_neg (Nat.ne_of_gt hpos), hidx, hlast, Option.map_some,
    Xdrbuf.ustrEnsureTrailingZero, List.getLast?_eq_some_getLast hne, Option.some.injEq, ne_eq,
    ite_not]
  rw [append_eq (by rw [List.length_singleton]; omega)]

/-- A read never finds the buffer empty there. -/
theorem read_eq (h : x.Ok) (hlen : x.b.bytes.length < 2 ^ 62) (alloc : UInt64 → Bool) :
    read lib x alloc = x.readUstr alloc := by
  rcases readCounted_cases h alloc [0] (ensureTrailingZero lib) Xdrbuf.ustrEnsureTrailingZero with
    ⟨p, z, hp, hne, -, hread, hread'⟩ | ⟨-, -, heq⟩
  · have hple := length_payload hp
    rw [read, hread, ensureTrailingZero_eq hne (by omega), Xdrbuf.readUstr, hread']
    rfl
  · exact heq

end Ustr

namespace Str

theorem ensureTrailingZero_nil : ensureTrailingZero lib [] = some zero := by
  have happ : append lib [] zero = zero := append_eq (by decide)
  simp [ensureTrailingZero, happ]

/-- There is no whole character, and the index is not that of one. -/
theorem ensureTrailingZero_short (hne : buf ≠ []) (h : buf.length < 4) :
    ensureTrailingZero lib buf = none := by
  have hpos := List.length_pos_of_ne_nil hne
  have hidx : UInt64.ofNat buf.length / 4 - 1 = -1 := by
    have hdiv : UInt64.ofNat buf.length / 4 = 0 := by
      rw [← UInt64.toNat_inj, UInt64.toNat_div, toNat_length (by omega)]
      exact Nat.div_eq_of_lt h
    rw [hdiv]
    rfl
  have hnone : char? buf (-1) = none := by
    refine if_neg ?_
    rw [show (-1 : UInt64).toNat = 18446744073709551615 from rfl]
    omega
  rw [ensureTrailingZero, if_neg (Nat.ne_of_gt hpos), hidx, hnone]
  rfl

theorem ensureTrailingZero_eq (h4 : 4 ≤ buf.length) (h : buf.length + 4 < 2 ^ 63) (stray : Bool) :
    ensureTrailingZero lib buf = some (Xdrbuf.strEnsureTrailingZero stray buf) := by
  have hne : buf ≠ [] := by
    intro h0
    rw [h0, List.length_nil] at h4
    omega
  have hidx : (UInt64.ofNat buf.length / 4 - 1).toNat = buf.length / 4 - 1 := by
    have hdiv : (UInt64.ofNat buf.length / 4).toNat = buf.length / 4 := by
      rw [UInt64.toNat_div, toNat_length (by omega)]
      rfl
    rw [toNat_sub_one (by omega), hdiv]
  have hchar : char? buf (UInt64.ofNat buf.length / 4 - 1) =
      some ((buf.drop (4 * (buf.length / 4 - 1))).take 4) := by
    rw [char?, hidx, if_pos (by omega)]
  have happ : append lib buf zero = buf ++ zero := by
    refine append_eq ?_
    rw [zero, List.length_replicate]
    omega
  have h0 : ¬ buf.length = 0 := by omega
  have hshort : ¬ buf.length < 4 := by omega
  rw [ensureTrailingZero, if_neg h0, hchar, Option.map_some, Xdrbuf.strEnsureTrailingZero,
    if_neg hne, if_neg hshort, happ]
  rfl

theorem read_eq (h : x.Ok) (hlen : x.b.bytes.length < 2 ^ 62) {alloc : UInt64 → Bool}
    (hread : (read lib x alloc).2 ≠ .fault) (stray : Bool) :
    read lib x alloc = x.readStr alloc stray := by
  rcases readCounted_cases h alloc zero (ensureTrailingZero lib) (Xdrbuf.strEnsureTrailingZero stray)
    with ⟨p, z, hp, hne, -, hr, hr'⟩ | ⟨-, -, heq⟩
  · have hple := length_payload hp
    by_cases h4 : 4 ≤ p.length
    · rw [read, hr, ensureTrailingZero_eq h4 (by omega) stray, Xdrbuf.readStr]
      exact hr'.symm
    · rw [read, hr, ensureTrailingZero_short hne (Nat.lt_of_not_le h4)] at hread
      exact absurd rfl hread
  · exact heq

end Str

end Strings

end CodeSLoop
