import CodeSLoop.Lib.Numerals
import CodeSLoop.Common.StringsSearch

/-!
# Integers as text (`common/str.cc`, `common/ustr.cc`, `common/int64.cc`)

`from_integer` prints into what the buffer has room for and then makes the buffer as long as the
text, `to_integer` reads with `wcstoll` in `str` and with `atoll` in `ustr`. The first finds out
the base by itself, so a text with a zero at its start is octal to `str` and decimal to `ustr`
(`integer_text`).
-/

namespace CodeSLoop

open Numerals

namespace Strings

/-! ## The conversions -/

/-- The characters before the terminator, when there is one. -/
def cstr (cs : List Nat) : Option (List Nat) := if 0 ∈ cs then some (cs.takeWhile (· ≠ 0)) else none

namespace Ustr

/-- `buf_size`. -/
def bufSize : UInt64 := 128

def codes (buf : List UInt8) : List Nat := buf.map UInt8.toNat

/-- `to_integer`, which always returns true. -/
def toInteger (buf : List UInt8) : Option Int := (cstr (codes buf)).map (strtoll 10)

/-- `SNPRINTF(p,n,"%lld",v)`: the area after it, and what it returns. There is nothing when it
    writes behind the area. -/
def snprintf (area : List UInt8) (n : Nat) (v : Int) : Option (List UInt8 × Int) :=
  let text := (render v).map UInt8.ofNat
  let out := if text.length < n then text ++ [0] else if n = 0 then [] else text.take (n - 1) ++ [0]
  if out.length ≤ area.length then some (put out area, text.length) else none

/-- `from_integer`: the buffer after it, and what it returns. -/
def fromInteger (lib : Libc) (buf : List UInt8) (v : Int64) : Option (List UInt8 × Bool) :=
  (allocate lib buf (bufSize - 1)).bind fun p =>
    (snprintf p (bufSize - 1).toNat v.toInt).map fun r =>
      match allocate lib r.1 (UInt64.ofNat (r.2 + 1).toNat) with
      | none => (r.1, false)
      | some b => (b, true)

/-- `operator=(const char *)`, where `us` are the bytes from the pointer on. -/
def copyCstr (lib : Libc) (buf us : List UInt8) : Option (List UInt8) :=
  set lib buf us (UInt64.ofNat ((us.takeWhile (· ≠ 0)).length + 1))

/-- `from_string(const char *)`, where the pointer may be null. -/
def fromCstr (lib : Libc) (buf : List UInt8) : Option (List UInt8) → Option (List UInt8)
  | none => some [0]
  | some us => copyCstr lib buf us

/-- `from_string(const std::string &)`. -/
def fromStd (lib : Libc) (buf v : List UInt8) : Option (List UInt8) :=
  if v.length = 0 then some [0] else copyCstr lib buf (v ++ [0])

end Ustr

namespace Str

/-- `buf_size`. -/
def bufSize : UInt64 := 128 * 4

/-- The code of a wide character. -/
def code : List UInt8 → Nat
  | [] => 0
  | b :: bs => b.toNat + 256 * code bs

def codes (buf : List UInt8) : List Nat := (letters buf).map code

/-- `to_integer`, which always returns true: `endp` is never null. -/
def toInteger (buf : List UInt8) : Option Int := (cstr (codes buf)).map (strtoll 0)

/-- Wide characters of codes below 256. -/
def wide (cs : List Nat) : List UInt8 := cs.flatMap fun c => [UInt8.ofNat c, 0, 0, 0]

/-- `SWPRINTF(p,n,L"%lld",v)`, where `n` is in wide characters. -/
def swprintf (area : List UInt8) (n : Nat) (v : Int) : Option (List UInt8 × Int) :=
  if (render v).length < n then
    let out := wide (render v) ++ zero
    if out.length ≤ area.length then some (put out area, (render v).length) else none
  else some (area, -1)

/-- `from_integer`: the buffer after it, and what it returns. -/
def fromInteger (lib : Libc) (buf : List UInt8) (v : Int64) : Option (List UInt8 × Bool) :=
  (allocate lib buf (bufSize - 1)).bind fun p =>
    (swprintf p (bufSize - 1).toNat v.toInt).map fun r =>
      match allocate lib r.1 (UInt64.ofNat (r.2 + 1).toNat * 4) with
      | none => (r.1, false)
      | some b => (b, true)

/-- `operator=(const wchar_t *)`, where `wcs` are the bytes from the pointer on. -/
def copyWcs (lib : Libc) (buf wcs : List UInt8) : Option (List UInt8) :=
  set lib buf wcs (4 * UInt64.ofNat (((letters wcs).takeWhile (· ≠ zero)).length + 1))

/-- `from_string(const wchar_t *)`, where the pointer may be null. -/
def fromWcs (lib : Libc) (buf : List UInt8) : Option (List UInt8) → Option (List UInt8)
  | none => some zero
  | some wcs => copyWcs lib buf wcs

end Str

/-- The forms of `int64::from_string`. -/
def int64FromUstr (v : List UInt8) : Option Int := Ustr.toInteger v

def int64FromStr (v : List UInt8) : Option Int := Str.toInteger v

def int64FromStd (lib : Libc) (v : List UInt8) : Option Int := (Ustr.fromStd lib [0] v).bind Ustr.toInteger

def int64FromCstr (lib : Libc) (v : Option (List UInt8)) : Option Int :=
  (Ustr.fromCstr lib [0] v).bind Ustr.toInteger

def int64FromWcs (lib : Libc) (v : Option (List UInt8)) : Option Int :=
  (Str.fromWcs lib Str.zero v).bind Str.toInteger

/-! ## Text -/

section Text

variable {lib : Libc} {cs : List Nat} {buf rest : List UInt8}

theorem takeWhile_terminated {γ : Type} [DecidableEq γ] {z : γ} {bs rest : List γ} (h : ∀ c ∈ bs, c ≠ z) :
    (bs ++ z :: rest).takeWhile (· ≠ z) = bs := by
  have hall : ∀ c ∈ bs, decide (c ≠ z) = true := fun c hc => decide_eq_true (h c hc)
  rw [List.takeWhile_append_of_pos hall]
  simp

theorem cstr_eq (h : 0 ∉ cs) (rest : List Nat) : cstr (cs ++ 0 :: rest) = some cs := by
  have hne : ∀ c ∈ cs, c ≠ 0 := fun c hc h0 => h (h0 ▸ hc)
  rw [cstr, if_pos (by simp), takeWhile_terminated hne]

theorem codes_narrow (h : ∀ c ∈ cs, c < 256) : Ustr.codes (cs.map UInt8.ofNat) = cs := by
  rw [Ustr.codes, List.map_map]
  conv => rhs; rw [← List.map_id cs]
  refine List.map_congr_left fun c hc => ?_
  rw [Function.comp_apply, UInt8.toNat_ofNat', Nat.mod_eq_of_lt (h c hc), id]

theorem letters_wide (cs : List Nat) (rest : List UInt8) : Str.letters (Str.wide cs ++ rest) =
    cs.map (fun c => [UInt8.ofNat c, 0, 0, 0]) ++ Str.letters rest := by
  induction cs with
  | nil => rfl
  | cons c cs ih =>
    have hcons : Str.wide (c :: cs) ++ rest = UInt8.ofNat c :: 0 :: 0 :: 0 :: (Str.wide cs ++ rest) := rfl
    rw [hcons, Str.letters, ih]
    rfl

theorem length_wide (cs : List Nat) : (Str.wide cs).length = 4 * cs.length := by
  induction cs with
  | nil => rfl
  | cons c cs ih =>
    have hcons : Str.wide (c :: cs) = UInt8.ofNat c :: 0 :: 0 :: 0 :: Str.wide cs := rfl
    rw [hcons, List.length_cons, List.length_cons, List.length_cons, List.length_cons, ih, List.length_cons]
    omega

theorem codes_wide (h : ∀ c ∈ cs, c < 256) : Str.codes (Str.wide cs ++ Str.zero) = cs ++ [0] := by
  have hcode : ∀ c ∈ cs, Str.code [UInt8.ofNat c, 0, 0, 0] = c := by
    intro c hc
    rw [Str.code, UInt8.toNat_ofNat', Nat.mod_eq_of_lt (h c hc)]
    rfl
  rw [Str.codes, letters_wide, List.map_append, List.map_map]
  congr 1
  conv => rhs; rw [← List.map_id cs]
  exact List.map_congr_left hcode

/-- What is read from a text. -/
theorem toInteger_narrow (h : ∀ c ∈ cs, 0 < c ∧ c < 256) :
    Ustr.toInteger (cs.map UInt8.ofNat ++ [0]) = some (strtoll 10 cs) := by
  have hcodes : Ustr.codes (cs.map UInt8.ofNat ++ [0]) = cs ++ [0] := by
    rw [Ustr.codes, List.map_append, ← Ustr.codes, codes_narrow fun c hc => (h c hc).2]
    rfl
  rw [Ustr.toInteger, hcodes, cstr_eq fun h0 => absurd (h 0 h0).1 (Nat.lt_irrefl 0)]
  rfl

theorem toInteger_wide (h : ∀ c ∈ cs, 0 < c ∧ c < 256) :
    Str.toInteger (Str.wide cs ++ Str.zero) = some (strtoll 0 cs) := by
  rw [Str.toInteger, codes_wide fun c hc => (h c hc).2, cstr_eq fun h0 => absurd (h 0 h0).1 (Nat.lt_irrefl 0)]
  rfl

/-- A text put into an area and cut out of it again. -/
theorem take_put {out area : List UInt8} (h : out.length ≤ area.length) :
    (put out area).take out.length = out := by
  rw [put, List.take_of_length_le h, List.take_left]

theorem render_codes {v : Int} : ∀ c ∈ render v, 0 < c ∧ c < 256 := by
  intro c hc
  rw [← Numeral.text_ofInt] at hc
  have hrange := Numeral.mem_text hc
  omega

theorem toInt_range (v : Int64) : -2 ^ 63 ≤ v.toInt ∧ v.toInt < 2 ^ 63 := ⟨v.le_toInt, v.toInt_lt⟩

end Text

/-! ## There and back -/

section RoundTrip

variable (lib : Libc) (buf : List UInt8) (v : Int64)

/-- **Through `ustr`**, whatever was in it. -/
theorem Ustr.fromInteger_toInteger : ∃ b, fromInteger lib buf v = some (b, true) ∧
    toInteger b = some v.toInt := by
  obtain ⟨p, hp, hlen⟩ := @allocate_enough (bufSize - 1) lib buf (by decide)
  have hroom : p.length = 127 := hlen
  have hshort := length_render (toInt_range v)
  have hout : ((render v.toInt).map UInt8.ofNat ++ [0]).length = (render v.toInt).length + 1 := by simp
  have hprint : snprintf p (bufSize - 1).toNat v.toInt =
      some (put ((render v.toInt).map UInt8.ofNat ++ [0]) p, ((render v.toInt).length : Int)) := by
    have hfit : ((render v.toInt).map UInt8.ofNat).length < (bufSize - 1).toNat := by
      rw [List.length_map, show (bufSize - 1).toNat = 127 from rfl]
      omega
    rw [snprintf]
    simp only [if_pos hfit]
    rw [if_pos (by rw [hout]; omega), List.length_map]
  have hret : (UInt64.ofNat ((render v.toInt).length + 1 : Int).toNat).toNat = (render v.toInt).length + 1 := by
    rw [UInt64.toNat_ofNat']
    omega
  refine ⟨(render v.toInt).map UInt8.ofNat ++ [0], ?_, ?_⟩
  · rw [fromInteger, hp, Option.bind_some, hprint, Option.map_some, allocate_take, hret, ← hout, take_put]
    · rw [hout]
      omega
    · rw [hret, length_put]
      omega
  · rw [toInteger_narrow render_codes, (strtoll_render (toInt_range v)).2]

/-- **Through `str`**, whatever was in it. -/
theorem Str.fromInteger_toInteger : ∃ b, fromInteger lib buf v = some (b, true) ∧
    toInteger b = some v.toInt := by
  obtain ⟨p, hp, hlen⟩ := @allocate_enough (bufSize - 1) lib buf (by decide)
  have hroom : p.length = 511 := hlen
  have hshort := length_render (toInt_range v)
  have hout : (wide (render v.toInt) ++ zero).length = 4 * ((render v.toInt).length + 1) := by
    rw [List.length_append, length_wide, length_zero]
    omega
  have hprint : swprintf p (bufSize - 1).toNat v.toInt =
      some (put (wide (render v.toInt) ++ zero) p, ((render v.toInt).length : Int)) := by
    have hfit : (render v.toInt).length < (bufSize - 1).toNat := by
      rw [show (bufSize - 1).toNat = 511 from rfl]
      omega
    rw [swprintf, if_pos hfit]
    exact if_pos (by rw [hout]; omega)
  have hret : (UInt64.ofNat ((render v.toInt).length + 1 : Int).toNat * 4).toNat =
      4 * ((render v.toInt).length + 1) := by
    rw [UInt64.toNat_mul, UInt64.toNat_ofNat', show (4 : UInt64).toNat = 4 from rfl]
    omega
  refine ⟨wide (render v.toInt) ++ zero, ?_, ?_⟩
  · rw [fromInteger, hp, Option.bind_some, hprint, Option.map_some, allocate_take, hret, ← hout, take_put]
    · rw [hout]
      omega
    · rw [hret, length_put]
      omega
  · rw [toInteger_wide render_codes, (strtoll_render (toInt_range v)).1]

end RoundTrip

/-! ## Numerals of other sources -/

/-- A sign or none and decimal digits, for a number of 64 bits, with room for it in memory. -/
structure Integer extends Numeral where
  fits : toNumeral.Fits
  small : InMemory (4 * (toNumeral.text.length + 1))

namespace Integer

/-- The bytes of the text, without a terminator. -/
def chars (n : Integer) : List UInt8 := n.text.map UInt8.ofNat

def narrow (n : Integer) : List UInt8 := n.chars ++ [0]

def wide (n : Integer) : List UInt8 := Str.wide n.text ++ Str.zero

/-- All the ways to read it give the same. -/
def Agree (lib : Libc) (n : Integer) : Prop :=
  ∃ v, Str.toInteger n.wide = some v ∧ Ustr.toInteger n.narrow = some v ∧
    int64FromUstr n.narrow = some v ∧ int64FromStd lib n.chars = some v ∧
    int64FromCstr lib (some n.narrow) = some v ∧ int64FromStr n.wide = some v ∧
    int64FromWcs lib (some n.wide) = some v

variable (lib : Libc) (n : Integer)

theorem text_codes : ∀ c ∈ n.text, 0 < c ∧ c < 256 := by
  intro c hc
  have hrange := Numeral.mem_text hc
  omega

/-- A C string is copied up to its zero. -/
theorem copyCstr_narrow : Ustr.copyCstr lib [0] n.narrow = some n.narrow := by
  have hsmall : 4 * (n.text.length + 1) < 2 ^ 60 := n.small
  have hne : ∀ b ∈ n.chars, b ≠ 0 := by
    intro b hb h0
    obtain ⟨c, hc, rfl⟩ := List.mem_map.mp hb
    have hcode := congrArg UInt8.toNat h0
    rw [UInt8.toNat_ofNat', Nat.mod_eq_of_lt (n.text_codes c hc).2] at hcode
    exact absurd (n.text_codes c hc).1 (by rw [hcode]; decide)
  have hstrlen : n.narrow.takeWhile (· ≠ 0) = n.chars := takeWhile_terminated hne
  have hlength : n.narrow.length = n.chars.length + 1 := by rw [narrow, List.length_append]; rfl
  have hchars : n.chars.length = n.text.length := List.length_map _
  rw [Ustr.copyCstr, hstrlen, ← hlength]
  refine set_length (List.append_ne_nil_of_right_ne_nil _ (by decide)) ?_
  rw [hlength, hchars]
  omega

theorem copyWcs_wide : Str.copyWcs lib Str.zero n.wide = some n.wide := by
  have hsmall : 4 * (n.text.length + 1) < 2 ^ 60 := n.small
  have hne : ∀ b ∈ n.text.map (fun c => [UInt8.ofNat c, 0, 0, 0]), b ≠ Str.zero := by
    intro b hb h0
    obtain ⟨c, hc, rfl⟩ := List.mem_map.mp hb
    have hcode := congrArg UInt8.toNat (List.cons.inj h0).1
    rw [UInt8.toNat_ofNat', Nat.mod_eq_of_lt (n.text_codes c hc).2] at hcode
    exact absurd (n.text_codes c hc).1 (by rw [hcode]; decide)
  have hletters : Str.letters n.wide = n.text.map (fun c => [UInt8.ofNat c, 0, 0, 0]) ++ Str.zero :: [] :=
    letters_wide n.text Str.zero
  have hlength : n.wide.length = 4 * (n.text.length + 1) := by
    rw [wide, List.length_append, length_wide, Str.length_zero]
    omega
  have hsz : (4 * UInt64.ofNat (n.text.length + 1)) = UInt64.ofNat n.wide.length := by
    rw [hlength, UInt64.ofNat_mul]
    rfl
  rw [Str.copyWcs, hletters, takeWhile_terminated hne, List.length_map, hsz, set_length]
  · exact List.append_ne_nil_of_right_ne_nil _ (by decide)
  · rw [hlength]
    omega

/-- **When they agree**: unless it starts with a zero and is 8 or more. -/
theorem agrees_iff : n.Agree lib ↔ ¬ n.Padded ∨ n.abs < 8 := by
  have hten : strtoll 10 n.text = n.int := Numeral.strtoll_ten n.fits
  have hnarrow : Ustr.toInteger n.narrow = some n.int := by
    rw [← hten]
    exact toInteger_narrow n.text_codes
  have hwide : Str.toInteger n.wide = some (strtoll 0 n.text) := toInteger_wide n.text_codes
  have hcstr : int64FromCstr lib (some n.narrow) = some n.int := by
    rw [int64FromCstr, Ustr.fromCstr, copyCstr_narrow]
    exact hnarrow
  have hstd : int64FromStd lib n.chars = some n.int := by
    have hne : n.chars.length ≠ 0 := by
      have hdigits := List.length_pos_of_ne_nil n.digits_ne
      rw [chars, List.length_map, Numeral.text, List.length_append, List.length_map]
      omega
    rw [int64FromStd, Ustr.fromStd, if_neg hne, ← narrow, copyCstr_narrow]
    exact hnarrow
  have hwcs : int64FromWcs lib (some n.wide) = some (strtoll 0 n.text) := by
    rw [int64FromWcs, Str.fromWcs, copyWcs_wide]
    exact hwide
  rw [← Numeral.strtoll_zero_iff n.fits]
  constructor
  · rintro ⟨v, h0, h10, -⟩
    rw [hwide, Option.some.injEq] at h0
    rw [hnarrow, Option.some.injEq] at h10
    rw [h0, h10]
  · intro h
    rw [h] at hwide hwcs
    exact ⟨n.int, hwide, hnarrow, hnarrow, hstd, hcstr, hwide, hwcs⟩

end Integer

/-- **Integers and their text**: what is printed is read back through both classes, whatever was
in the string before; and a text of another source is read as the same number by all unless it
starts with a zero and is 8 or more. -/
theorem integer_text (lib : Libc) (buf : List UInt8) (v : Int64) (n : Integer) :
    (∃ b, Ustr.fromInteger lib buf v = some (b, true) ∧ Ustr.toInteger b = some v.toInt) ∧
    (∃ b, Str.fromInteger lib buf v = some (b, true) ∧ Str.toInteger b = some v.toInt) ∧
    (n.Agree lib ↔ ¬ n.Padded ∨ n.abs < 8) :=
  ⟨Ustr.fromInteger_toInteger lib buf v, Str.fromInteger_toInteger lib buf v, n.agrees_iff lib⟩

/-- "010" is 8 to `str` and 10 to `ustr`. -/
theorem integer_text_fails : ¬ Integer.Agree Libc.c
    ⟨⟨none, [0, 1, 0], by decide, by decide⟩, by decide, by decide⟩ := by
  rw [Integer.agrees_iff]
  decide

end Strings

end CodeSLoop
