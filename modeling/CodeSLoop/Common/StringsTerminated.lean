import CodeSLoop.Common.Strings

/-!
# The terminators of strings

A `ustr` is well formed when its last byte is zero, a `str` when it is whole characters, of which
the last one is zero. Which operations keep to that, and never look for the zero outside of the
buffer, is told from their operands: `ensure_trailing_zero()` of a `ustr` must not find the buffer
empty (`Ustr.sound_ensure`), that of a `str` must find whole characters (`Str.sound_ensure`), and
`assign` does not call it. An operand in the string itself must still be there when it is copied.
`strings_sound_iff` is the list that comes of it.

All operands are in memory (`InMemory`); what is asked for beyond that has no block.
-/

namespace CodeSLoop

open Bytes Codec

namespace Strings

/-- That there can be so many bytes. -/
def InMemory (n : Nat) : Prop := n < 2 ^ 60

instance (n : Nat) : Decidable (InMemory n) := inferInstanceAs (Decidable (_ < _))

/-- A `ustr`, and a C string with its zero. -/
structure Ustr extends Xdrbuf.Ustr where
  small : InMemory (chars.length + 1)

/-- A `str`, and a wide C string with its zero. -/
structure Str extends Xdrbuf.Str where
  small : InMemory (chars.length + 4)

/-- Bytes that are not none. -/
structure Range where
  bytes : List UInt8
  ne : bytes ≠ []
  small : InMemory bytes.length

/-- A range of wide characters. -/
structure WRange extends Range where
  whole : bytes.length % 4 = 0

/-- A reader, anywhere in its stream. -/
structure Stream where
  x : Xdrbuf
  ok : x.Ok
  small : InMemory x.b.bytes.length

/-- The variables that `+=` takes of the class `var`; a number by what is printed for it. -/
inductive Var
  | number (text : List UInt8) (h : InMemory text.length)
  | str (t : Str)
  | ustr (t : Ustr)
  | binry (v : List UInt8) (h : InMemory v.length)

def Ustr.WellFormed (buf : List UInt8) : Prop := buf.getLast? = some 0

def Str.WellFormed (buf : List UInt8) : Prop := buf.length % 4 = 0 ∧ Str.zero <:+ buf

/-- The operation looked at nothing outside of the buffer, and the string is well formed after
    it. -/
def Sound (wf : List UInt8 → Prop) (r : Option (List UInt8)) : Prop := ∃ b ∈ r, wf b

variable {lib : Libc} {buf : List UInt8}

@[simp] theorem sound_some {wf : List UInt8 → Prop} {b : List UInt8} :
    Sound wf (some b) ↔ wf b := by simp [Sound]

@[simp] theorem sound_none {wf : List UInt8 → Prop} : ¬ Sound wf none := by simp [Sound]

theorem Ustr.length_buf (s : Ustr) : s.buf.length = s.chars.length + 1 := by
  rw [Xdrbuf.Ustr.buf, List.length_append, List.length_singleton]

theorem Str.length_buf (s : Str) : s.buf.length = s.chars.length + 4 := by
  rw [Xdrbuf.Str.buf, List.length_append, List.length_replicate]

/-- Bytes of the string itself are not copied where they are written over. -/
theorem setOwn_eq {off n : Nat} (h0 : 0 < n) :
    setOwn buf off n = if n ≤ off then some ((buf.drop off).take n) else none := by
  rw [setOwn, if_neg (Nat.ne_of_gt h0)]
  by_cases hle : n ≤ off
  · rw [if_pos hle, if_neg (Nat.not_lt_of_le hle)]
  · rw [if_neg hle, if_pos (Nat.lt_of_not_le hle)]

/-! ## `ustr` -/

namespace Ustr

/-- `from_var(v)` of a new string, which is `v.to_string(tmp)`. -/
def ofVar (lib : Libc) : Var → Option (List UInt8)
  | .number text _ => fromNumber lib [0] text
  | .str t => copyStr lib [0] t.buf
  | .ustr t => some t.buf
  | .binry v _ => fromBinary lib [0] v

/-- `operator+=(const var &)`. -/
def addVar (lib : Libc) (buf : List UInt8) (other : Var) : Option (List UInt8) :=
  (ofVar lib other).bind (addUstr lib buf)

/-- The operations on a `ustr`. The first argument is the string that is changed, except where it
    is a new one; `heap` says whether its buffer is on the heap, where that matters. In `fromOwn`,
    `addOwnCstr` and `assignOwn` the bytes are some of the string itself. -/
inductive Op
  | read (s : Stream) (alloc : UInt64 → Bool)
  | fromBinary (s : Ustr) (v : Range)
  | fromOwn (s : Ustr) (off n : Nat) (h : 0 < n ∧ off + n ≤ s.buf.length)
  | substr (s : Ustr) (start length : UInt64)
  | addUstr (s t : Ustr) | addSelf (s : Ustr) (heap : Bool)
  | addCstr (s t : Ustr) | addOwnCstr (s : Ustr) (heap : Bool) (off : Nat)
  | addStr (s : Ustr) (t : Str) | addVar (s : Ustr) (v : Var)
  | assign (s : Ustr) (r : Range)
  | assignOwn (s : Ustr) (off n : Nat) (h : 0 < n ∧ off + n ≤ s.buf.length)
  | ofStr (t : Str) | copyStr (s : Ustr) (t : Str)
  | copyPbuf (s : Ustr) (other : Pbuf) (h : InMemory other.size)

/-- The operation is sound: with what it leaves or returns, unless it throws. -/
def Op.Sound (lib : Libc) : Op → Prop
  | .read s alloc => (Ustr.read lib s.x alloc).2 ≠ .fault ∧
      ∀ b, (Ustr.read lib s.x alloc).2 = .ret (some b) → WellFormed b
  | .fromBinary s v => Strings.Sound WellFormed (Ustr.fromBinary lib s.buf v.bytes)
  | .fromOwn s off n _ =>
    Strings.Sound WellFormed ((setOwn s.buf off n).bind (ensureTrailingZero lib))
  | .substr s start length =>
    ∀ r, Ustr.substr lib s.buf start length = .ok r → Strings.Sound WellFormed r
  | .addUstr s t => Strings.Sound WellFormed (Ustr.addUstr lib s.buf t.buf)
  | .addSelf s heap => Strings.Sound WellFormed (Ustr.addSelf lib heap s.buf)
  | .addCstr s t => Strings.Sound WellFormed (Ustr.addCstr lib s.buf t.buf)
  | .addOwnCstr s heap off => Strings.Sound WellFormed (Ustr.addOwnCstr lib heap s.buf off)
  | .addStr s t => Strings.Sound WellFormed (Ustr.addStr lib s.buf t.buf)
  | .addVar s v => Strings.Sound WellFormed (Ustr.addVar lib s.buf v)
  | .assign s r => Strings.Sound WellFormed (Ustr.assign lib s.buf r.bytes)
  | .assignOwn s off n _ => Strings.Sound WellFormed (setOwn s.buf off n)
  | .ofStr t => Strings.Sound WellFormed (Ustr.ofStr lib t.buf)
  | .copyStr s t => Strings.Sound WellFormed (Ustr.copyStr lib s.buf t.buf)
  | .copyPbuf s other _ => Strings.Sound WellFormed (Ustr.copyPbuf lib s.buf other)

/-- The string has a character, and `wcstombs` can write all of it. -/
def Converts (lib : Libc) (t : Str) : Prop :=
  lib.wcstombs t.buf (t.buf.length - 1) ≠ 0 ∧ lib.wcstombs t.buf (t.buf.length - 1) ≠ -1

/-- The operands with which the operation is sound. The sum in `substr` is one of 64 bits. -/
def Op.Safe (lib : Libc) : Op → Prop
  | .read _ _ | .fromBinary _ _ | .addUstr _ _ | .addCstr _ _ => True
  | .substr s start length => s.chars.length < start.toNat ∨
      length ≠ 0 ∧ (start.toNat < s.chars.length ∨ 2 ^ 64 ≤ start.toNat + length.toNat)
  | .fromOwn _ off n _ => n ≤ off
  | .addSelf s heap => s.chars ≠ [] ∧ heap = false
  | .addOwnCstr s heap off => heap = false ∧ (128 < s.chars.length + (cstrAt s.buf off).length ∨
      off + (cstrAt s.buf off).length ≤ s.chars.length)
  | .addVar _ (.number _ _) | .addVar _ (.ustr _) | .addVar _ (.binry _ _) => True
  | .assign _ r => r.bytes.getLast? = some 0
  | .assignOwn s off n _ => n ≤ off ∧ ((s.buf.drop off).take n).getLast? = some 0
  | .ofStr t | .copyStr _ t | .addStr _ t | .addVar _ (.str t) => Converts lib t
  | .copyPbuf _ other _ => other.bytes ≠ []

theorem wellFormed_iff : (WellFormed buf ∧ InMemory buf.length) ↔ ∃ s : Ustr, s.buf = buf := by
  constructor
  · rintro ⟨hwf, hsmall⟩
    obtain ⟨chars, rfl⟩ := List.getLast?_eq_some_iff.mp hwf
    have hlen : (chars ++ [0]).length = chars.length + 1 := by simp
    rw [hlen, InMemory] at hsmall
    exact ⟨⟨⟨chars, by omega⟩, hsmall⟩, rfl⟩
  · rintro ⟨s, rfl⟩
    exact ⟨List.getLast?_concat, by rw [s.length_buf]; exact s.small⟩

theorem wellFormed_ensure : WellFormed (Xdrbuf.ustrEnsureTrailingZero buf) := by
  unfold Xdrbuf.ustrEnsureTrailingZero
  split
  · assumption
  · exact List.getLast?_concat

theorem length_ustrEnsureTrailingZero_le (buf : List UInt8) :
    (Xdrbuf.ustrEnsureTrailingZero buf).length ≤ buf.length + 1 := by
  unfold Xdrbuf.ustrEnsureTrailingZero
  split
  · exact Nat.le_succ _
  · rw [List.length_append, List.length_singleton]

theorem sound_ensure (h : buf.length + 4 < 2 ^ 63) :
    Strings.Sound WellFormed (ensureTrailingZero lib buf) ↔ buf ≠ [] := by
  by_cases hne : buf = []
  · rw [hne, ensureTrailingZero_nil]
    exact iff_of_false sound_none fun h => h rfl
  · rw [ensureTrailingZero_eq hne h, sound_some]
    exact iff_of_true wellFormed_ensure hne

theorem withoutZero_buf (s : Ustr) : withoutZero lib s.buf = s.chars := by
  have hlen := s.length_buf
  have hsmall : s.chars.length + 1 < 2 ^ 60 := s.small
  have hnat : (UInt64.ofNat s.buf.length).toNat = s.chars.length + 1 := by
    rw [toNat_length (by omega), hlen]
  have hidx : (UInt64.ofNat s.buf.length - 1).toNat = s.chars.length := by
    rw [toNat_sub_one (by omega), hnat, Nat.add_sub_cancel]
  have hpos : UInt64.ofNat s.buf.length > 0 := by
    rw [gt_iff_lt, UInt64.lt_iff_toNat_lt, hnat]
    exact Nat.succ_pos _
  have hlast : s.buf[(UInt64.ofNat s.buf.length - 1).toNat]? = some 0 := by
    rw [hidx, Xdrbuf.Ustr.buf, List.getElem?_concat_length]
  rw [withoutZero, if_pos ⟨hpos, hlast⟩, allocate_take (by omega), hidx, Option.getD_some,
    Xdrbuf.Ustr.buf, List.take_left' rfl]

/-- Of what is appended to a string with characters, or has some itself. -/
theorem sound_add (s : Ustr) {dta : List UInt8} (h : dta.length < 2 ^ 62) :
    Strings.Sound WellFormed (ensureTrailingZero lib (append lib (withoutZero lib s.buf) dta)) ↔
      s.chars ≠ [] ∨ dta ≠ [] := by
  have hsmall : s.chars.length + 1 < 2 ^ 60 := s.small
  have hlen : (s.chars ++ dta).length = s.chars.length + dta.length := List.length_append
  rw [s.withoutZero_buf, append_eq (by omega), sound_ensure (by omega)]
  constructor
  · intro hne
    by_cases hd : dta = []
    · rw [hd, List.append_nil] at hne
      exact Or.inl hne
    · exact Or.inr hd
  · rintro (hc | hd) happ
    · exact hc (List.append_eq_nil_iff.mp happ).1
    · exact hd (List.append_eq_nil_iff.mp happ).2

/-- What a conversion leaves: with no bytes in the buffer, the terminator is looked for outside of
    it. -/
theorem copyStr_cases (lib : Libc) (buf : List UInt8) (t : Str) :
    (Converts lib t ∧ ∃ b, copyStr lib buf t.buf = some b ∧ WellFormed b ∧ b.length ≤ t.buf.length) ∨
      (¬ Converts lib t ∧ copyStr lib buf t.buf = none) := by
  have hlen := t.length_buf
  have hsmall : t.chars.length + 4 < 2 ^ 60 := t.small
  have hsz : (UInt64.ofNat t.buf.length - 1).toNat = t.buf.length - 1 := by
    have hnat : (UInt64.ofNat t.buf.length).toNat = t.buf.length := toNat_length (by omega)
    rw [toNat_sub_one (by omega), hnat]
  have h0 : UInt64.ofNat t.buf.length - 1 ≠ 0 := by
    intro h0
    rw [h0, UInt64.toNat_zero] at hsz
    omega
  obtain ⟨b, hb, hblen⟩ := allocate_enough lib buf
    (show (UInt64.ofNat t.buf.length - 1).toNat < 2 ^ 63 by omega)
  have hle := lib.wcstombs_le t.buf (t.buf.length - 1)
  have hto := lib.length_wcstombsTo t.buf b
  simp only [copyStr, hb, if_neg h0, hsz, Converts]
  generalize lib.wcstombs t.buf (t.buf.length - 1) = szz at hle ⊢
  generalize lib.wcstombsTo t.buf b = area at hto ⊢
  by_cases hfail : szz = -1
  · rw [if_pos hfail]
    exact Or.inr ⟨fun h => h.2 hfail, ensureTrailingZero_nil⟩
  · -- the buffer is cut to what was written, which is never more
    have hle := hle.resolve_left hfail
    have hcut : (area.take szz.toNat).length = szz.toNat := List.length_take_of_le (by omega)
    rw [if_neg hfail, allocate_take (by omega), Option.getD_some]
    by_cases hzero : szz = 0
    · rw [hzero, UInt64.toNat_zero, List.take_zero, ensureTrailingZero_nil]
      exact Or.inr ⟨fun h => h.1 rfl, rfl⟩
    · have hne : area.take szz.toNat ≠ [] := by
        rw [← List.length_pos_iff, hcut, Nat.pos_iff_ne_zero]
        exact fun hz => hzero (UInt64.toNat_inj.mp hz)
      refine Or.inl ⟨⟨hzero, hfail⟩, _, ensureTrailingZero_eq hne (by omega), wellFormed_ensure, ?_⟩
      have hadd := length_ustrEnsureTrailingZero_le (area.take szz.toNat)
      omega

theorem sound_copyStr {t : Str} : Strings.Sound WellFormed (copyStr lib buf t.buf) ↔ Converts lib t := by
  rcases copyStr_cases lib buf t with ⟨hc, b, hb, hwf, -⟩ | ⟨hc, hnone⟩
  · rw [hb, sound_some]
    exact iff_of_true hwf hc
  · rw [hnone]
    exact iff_of_false sound_none hc

/-- A string, or a variable that becomes one. -/
theorem sound_addStr {s : Ustr} {t : Str} :
    Strings.Sound WellFormed (addStr lib s.buf t.buf) ↔ Converts lib t := by
  rcases copyStr_cases lib [0] t with ⟨hc, b, hb, hwf, hle⟩ | ⟨hc, hnone⟩
  · have hsmall : t.chars.length + 4 < 2 ^ 60 := t.small
    have hlen := t.length_buf
    have hne : b ≠ [] := by
      intro h0
      rw [h0] at hwf
      cases hwf
    rw [addStr, ofStr, hb, Option.bind_some]
    exact iff_of_true ((s.sound_add (by omega)).mpr (Or.inr hne)) hc
  · rw [addStr, ofStr, hnone, Option.bind_none]
    exact iff_of_false sound_none hc

/-- What is printed for a number, with more memory behind it when that was cut. -/
theorem fromNumber_eq {text : List UInt8} (h : InMemory text.length) :
    ∃ b, fromNumber lib [0] text = some b ∧ b.length = text.length + 1 := by
  have hlt : text.length < 2 ^ 60 := h
  obtain ⟨p, hp, hplen⟩ := allocate_enough lib [0] (show (128 - 1 : UInt64).toNat < 2 ^ 63 by decide)
  have hsz : (UInt64.ofNat (text.length + 1)).toNat = text.length + 1 := by
    rw [UInt64.toNat_ofNat', Nat.mod_eq_of_lt (by omega)]
  obtain ⟨b, hb, hlen⟩ := allocate_enough lib
    ((text.take (128 - 2) ++ [0]) ++ p.drop (text.take (128 - 2) ++ [0]).length)
    (show (UInt64.ofNat (text.length + 1)).toNat < 2 ^ 63 by omega)
  refine ⟨b, ?_, hlen.trans hsz⟩
  rw [fromNumber, hp, Option.bind_some]
  exact hb

/-- **A variable** is appended, unless it is a wide string that does not convert. -/
theorem sound_addVar (s : Ustr) (v : Var) :
    (Op.addVar s v).Sound lib ↔ (Op.addVar s v).Safe lib := by
  have hadd : ∀ {b : List UInt8}, b ≠ [] → b.length < 2 ^ 62 →
      Strings.Sound WellFormed (addUstr lib s.buf b) :=
    fun hne hlen => (s.sound_add hlen).mpr (Or.inr hne)
  cases v with
  | number text h =>
    obtain ⟨b, hb, hlen⟩ := @fromNumber_eq lib text h
    have hlt : text.length < 2 ^ 60 := h
    rw [Op.Sound, addVar, ofVar, hb, Option.bind_some]
    refine iff_of_true (hadd (fun hnil => ?_) (by omega)) trivial
    rw [hnil] at hlen
    cases hlen
  | str t => exact sound_addStr
  | ustr t =>
    have hsmall : t.chars.length + 1 < 2 ^ 60 := t.small
    have hlen := t.length_buf
    rw [Op.Sound, addVar, ofVar, Option.bind_some]
    refine iff_of_true (hadd (fun hnil => ?_) (by omega)) trivial
    rw [hnil] at hlen
    cases hlen
  | binry v h =>
    have hlt : v.length < 2 ^ 60 := h
    rw [Op.Sound, addVar, ofVar, fromBinary]
    refine iff_of_true ?_ trivial
    split
    · exact hadd (List.cons_ne_nil _ _) (by decide)
    · rename_i hne
      have hle := length_ustrEnsureTrailingZero_le v
      rw [set_length hne (by omega), Option.bind_some, ensureTrailingZero_eq hne (by omega),
        Option.bind_some]
      refine hadd (fun hnil => ?_) (by omega)
      have hwf := @wellFormed_ensure v
      rw [hnil] at hwf
      cases hwf

/-- Of the string itself, on the heap or in place. -/
theorem sound_addOwnCstr (s : Ustr) (heap : Bool) (off : Nat) :
    (Op.addOwnCstr s heap off).Sound lib ↔ (Op.addOwnCstr s heap off).Safe lib := by
  have hsmall : s.chars.length + 1 < 2 ^ 60 := s.small
  have hlen : (cstrAt s.buf off).length ≤ s.chars.length + 2 := by
    have hle := (List.takeWhile_sublist (· ≠ 0) (l := s.buf.drop off)).length_le
    rw [List.length_drop, s.length_buf] at hle
    rw [cstrAt, List.length_append, List.length_singleton]
    omega
  have hne : cstrAt s.buf off ≠ [] := List.append_ne_nil_of_right_ne_nil _ (List.cons_ne_nil _ _)
  have hadd := @sound_add lib s (cstrAt s.buf off) (by omega)
  rw [s.withoutZero_buf] at hadd
  simp only [Op.Sound, Op.Safe, addOwnCstr, s.withoutZero_buf]
  split
  · rename_i hbad
    refine iff_of_false sound_none ?_
    rintro ⟨rfl, hgood⟩
    rcases hbad with hheap | hin
    · cases hheap
    · omega
  · rename_i hgood
    obtain ⟨hheap, hin⟩ := not_or.mp hgood
    refine iff_of_true (hadd.mpr (Or.inr hne)) ⟨Bool.eq_false_iff.mpr hheap, ?_⟩
    omega

theorem toNat_size_buf (s : Ustr) : (size s.buf).toNat = s.chars.length := by
  have hlen := s.length_buf
  have hsmall : s.chars.length + 1 < 2 ^ 60 := s.small
  unfold size
  split
  · rw [UInt64.toNat_zero]
    omega
  · have hnat : (UInt64.ofNat s.buf.length).toNat = s.buf.length := toNat_length (by omega)
    rw [toNat_sub_one (by omega), hnat, hlen, Nat.add_sub_cancel]

/-- No characters to copy is no bytes to copy. -/
theorem sound_substr (s : Ustr) (start length : UInt64) :
    (Op.substr s start length).Sound lib ↔ (Op.substr s start length).Safe lib := by
  have hsize := s.toNat_size_buf
  have hsmall : s.chars.length + 1 < 2 ^ 60 := s.small
  have hlen := s.length_buf
  have hlength : length = 0 ↔ length.toNat = 0 := by rw [← UInt64.toNat_inj, UInt64.toNat_zero]
  simp only [Op.Sound, Op.Safe, substr]
  by_cases hgt : start > size s.buf
  · rw [if_pos hgt]
    rw [gt_iff_lt, UInt64.lt_iff_toNat_lt, hsize] at hgt
    exact iff_of_true (fun r hr => by cases hr) (Or.inl hgt)
  · rw [if_neg hgt]
    rw [gt_iff_lt, UInt64.lt_iff_toNat_lt, hsize] at hgt
    simp only [Except.ok.injEq, forall_eq']
    rcases @fitIn_cases (size s.buf) start length (by omega) (by omega) with
      ⟨hwrap, hfit⟩ | ⟨hwrap, hfit⟩
    · by_cases h0 : fitIn (size s.buf) start length = 0
      · rw [h0, UInt64.toNat_zero] at hfit
        rw [h0, set, if_pos rfl, Option.bind_some, ensureTrailingZero_nil]
        refine iff_of_false sound_none ?_
        rw [ne_eq, hlength]
        omega
      · have hpos : (fitIn (size s.buf) start length).toNat ≠ 0 := fun hz => h0 (UInt64.toNat_inj.mp hz)
        have hdrop : (s.buf.drop start.toNat).length = s.chars.length + 1 - start.toNat := by
          rw [List.length_drop, hlen]
        rw [set_eq h0 (by omega) (by omega), Option.bind_some, sound_ensure ?_]
        · refine iff_of_true ?_ ?_
          · rw [← List.length_pos_iff, List.length_take]
            omega
          · rw [ne_eq, hlength]
            omega
        · rw [List.length_take]
          omega
    · -- there is no memory for so much, and the new string stays as it was made
      rw [hfit, set_refused (by simp) (by omega), Option.bind_some, sound_ensure (by simp)]
      refine iff_of_true (List.cons_ne_nil _ _) (Or.inr ⟨?_, Or.inr hwrap⟩)
      rw [ne_eq, hlength]
      omega

theorem sound_read (s : Stream) (alloc : UInt64 → Bool) : (Op.read s alloc).Sound lib := by
  have hsmall : s.x.b.bytes.length < 2 ^ 60 := s.small
  rcases readCounted_cases s.ok alloc [0] (ensureTrailingZero lib) id with
    ⟨p, z, hp, hne, -, hread, -⟩ | ⟨-, hclears, -⟩
  · have hple := length_payload hp
    simp only [Op.Sound, read, hread, ensureTrailingZero_eq hne (show p.length + 4 < 2 ^ 63 by omega)]
    refine ⟨fun h => (by cases h), fun b hb => ?_⟩
    cases hb
    exact wellFormed_ensure
  · refine ⟨hclears.1, fun b hb => ?_⟩
    rw [hclears.2 b hb]
    rfl

theorem sound_fromBinary (s : Ustr) (v : Range) : (Op.fromBinary s v).Sound lib := by
  have hsmall : v.bytes.length < 2 ^ 60 := v.small
  rw [Op.Sound, fromBinary, if_neg v.ne, set_length v.ne (by omega), Option.bind_some,
    sound_ensure (by omega)]
  exact v.ne

theorem sound_copyPbuf (s : Ustr) (other : Pbuf) (h : InMemory other.size) :
    (Op.copyPbuf s other h).Sound lib ↔ other.bytes ≠ [] := by
  have hsize := other.size_eq_bytes
  have hsmall : other.size < 2 ^ 60 := h
  rw [Op.Sound, copyPbuf, copyPbuf_eq other (by omega), sound_ensure (by omega)]

/-- **When an operation on a `ustr` is sound.** -/
theorem Op.sound_iff_safe (lib : Libc) (op : Op) : op.Sound lib ↔ op.Safe lib := by
  cases op with
  | read s alloc => exact iff_of_true (sound_read s alloc) trivial
  | fromBinary s v => exact iff_of_true (sound_fromBinary s v) trivial
  | substr s start length => exact sound_substr s start length
  | addUstr s t | addCstr s t =>
    have hsmall : t.chars.length + 1 < 2 ^ 60 := t.small
    have hlen := t.length_buf
    refine iff_of_true ((s.sound_add (by omega)).mpr (Or.inr ?_)) trivial
    rw [← List.length_pos_iff, hlen]
    exact Nat.succ_pos _
  | fromOwn s off n h =>
    have hsmall : s.chars.length + 1 < 2 ^ 60 := s.small
    have hlen := s.length_buf
    have htake : ((s.buf.drop off).take n).length = n := by
      rw [List.length_take, List.length_drop]
      omega
    rw [Op.Sound, setOwn_eq h.1]
    split
    · rename_i hle
      rw [Option.bind_some, sound_ensure (by omega), ← List.length_pos_iff, htake]
      exact iff_of_true h.1 hle
    · exact iff_of_false sound_none ‹_›
  | addSelf s heap =>
    have hsmall : s.chars.length + 1 < 2 ^ 60 := s.small
    have hadd := @sound_add lib s s.chars (by omega)
    rw [or_self, s.withoutZero_buf] at hadd
    rw [Op.Sound, Ustr.addSelf, s.withoutZero_buf]
    split
    · rename_i hbad
      refine iff_of_false sound_none fun hsafe => ?_
      rw [hsafe.2] at hbad
      cases hbad.1
    · rename_i hgood
      rw [hadd]
      exact ⟨fun hne => ⟨hne, Bool.eq_false_iff.mpr fun hheap => hgood ⟨hheap, hne⟩⟩, And.left⟩
  | addOwnCstr s heap off => exact sound_addOwnCstr s heap off
  | addVar s v => exact sound_addVar s v
  | assignOwn s off n h =>
    rw [Op.Sound, setOwn_eq h.1]
    split
    · rename_i hle
      rw [sound_some]
      exact (and_iff_right hle).symm
    · rename_i hlt
      exact iff_of_false sound_none fun hsafe => hlt hsafe.1
  | addStr s t => exact sound_addStr
  | assign s r =>
    have hsmall : r.bytes.length < 2 ^ 60 := r.small
    rw [Op.Sound, Ustr.assign, set_length r.ne (by omega), sound_some]
    rfl
  | ofStr t | copyStr s t => exact sound_copyStr
  | copyPbuf s other h => exact sound_copyPbuf s other h

end Ustr

/-! ## `str` -/

namespace Str

/-- `from_var(v)` of a new string, which is `v.to_string(tmp)`; does it throw exceptions? -/
def ofVar (lib : Libc) (useExc : Bool) : Var → Except StrExc (Option (List UInt8))
  | .number text _ => .ok (fromNumber lib zero text)
  | .str t => .ok (some t.buf)
  | .ustr t => copyCstr lib useExc zero t.buf
  | .binry v _ => .ok (fromBinary lib zero v)

/-- `operator+=(const var &)`. -/
def addVar (lib : Libc) (useExc : Bool) (buf : List UInt8) (other : Var) :
    Except StrExc (Option (List UInt8)) :=
  (ofVar lib useExc other).map fun tmp => tmp.bind (addStr lib buf)

/-- The operations on a `str`; places and sizes in the string itself are in characters, but for
    `fromOwn`. -/
inductive Op
  | read (s : Stream) (alloc : UInt64 → Bool)
  | fromBinary (s : Str) (v : Range)
  | fromOwn (s : Str) (off n : Nat) (h : 0 < n ∧ off + n ≤ s.buf.length)
  | substr (s : Str) (start length : UInt64)
  | addStr (s t : Str) | addSelf (s : Str) (heap : Bool)
  | addWcs (s t : Str) | addOwnWcs (s : Str) (heap : Bool) (off : Nat)
  | addUstr (s : Str) (t : Ustr) | addVar (s : Str) (useExc : Bool) (v : Var)
  | assign (s : Str) (r : WRange)
  | assignOwn (s : Str) (off n : Nat) (h : 0 < n ∧ 4 * (off + n) ≤ s.buf.length)
  | ofUstr (t : Ustr) | copyUstr (s : Str) (t : Ustr)
  | copyPbuf (s : Str) (other : Pbuf) (h : InMemory other.size)

/-- The operation is sound, as for a `ustr`. -/
def Op.Sound (lib : Libc) : Op → Prop
  | .read s alloc => (Str.read lib s.x alloc).2 ≠ .fault ∧
      ∀ b, (Str.read lib s.x alloc).2 = .ret (some b) → WellFormed b
  | .fromBinary s v => Strings.Sound WellFormed (Str.fromBinary lib s.buf v.bytes)
  | .fromOwn s off n _ =>
    Strings.Sound WellFormed ((setOwn s.buf off n).bind (ensureTrailingZero lib))
  | .substr s start length =>
    ∀ r, Str.substr lib s.buf start length = .ok r → Strings.Sound WellFormed r
  | .addStr s t => Strings.Sound WellFormed (Str.addStr lib s.buf t.buf)
  | .addSelf s heap => Strings.Sound WellFormed (Str.addSelf lib heap s.buf)
  | .addWcs s t => Strings.Sound WellFormed (Str.addWcs lib s.buf t.buf)
  | .addOwnWcs s heap off => Strings.Sound WellFormed (Str.addOwnWcs lib heap s.buf off)
  | .addUstr s t => Strings.Sound WellFormed (Str.addUstr lib s.buf t.buf)
  | .addVar s useExc v => ∀ r, Str.addVar lib useExc s.buf v = .ok r → Strings.Sound WellFormed r
  | .assign s r => Strings.Sound WellFormed (Str.assign lib s.buf r.bytes)
  | .assignOwn s off n _ => Strings.Sound WellFormed (setOwn s.buf (4 * off) (4 * n))
  | .ofUstr t => Strings.Sound WellFormed (Str.ofUstr lib t.buf)
  | .copyUstr s t => Strings.Sound WellFormed (Str.copyUstr lib s.buf t.buf)
  | .copyPbuf s other _ => Strings.Sound WellFormed (Str.copyPbuf lib s.buf other)

/-- The operands with which the operation is sound: bytes from elsewhere that are whole characters,
    numbers for which there is room, and parts of the string itself that stay where they are until
    they are copied. -/
def Op.Safe : Op → Prop
  | .read s alloc => ∀ p, Xdrbuf.payload s.x.rest = some p → alloc s.x.announced = true →
      p.length % 4 = 0
  | .fromBinary _ v => v.bytes.length % 4 = 0
  | .fromOwn _ off n _ => n ≤ off ∧ n % 4 = 0
  | .addSelf s heap => heap = true → s.chars = []
  | .addOwnWcs s heap off => heap = false ∧
      (512 < s.chars.length + (wcs (s.buf.drop (4 * off))).length ∨
        4 * off + (wcs (s.buf.drop (4 * off))).length ≤ s.chars.length)
  | .addVar _ _ (.number text _) => text.length < 128
  | .addVar _ _ (.binry v _) => v.length % 4 = 0
  | .assign _ r => zero <:+ r.bytes
  | .assignOwn s off n _ => n ≤ off ∧ zero <:+ (s.buf.drop (4 * off)).take (4 * n)
  | .copyPbuf _ other _ => other.bytes.length % 4 = 0
  | .substr _ _ _ | .addStr _ _ | .addWcs _ _ | .addUstr _ _ | .addVar _ _ (.str _)
  | .addVar _ _ (.ustr _) | .ofUstr _ | .copyUstr _ _ => True

@[simp] theorem length_zero : zero.length = 4 := rfl

theorem wellFormed_iff : (WellFormed buf ∧ InMemory buf.length) ↔ ∃ s : Str, s.buf = buf := by
  constructor
  · rintro ⟨⟨hmod, chars, rfl⟩, hsmall⟩
    rw [List.length_append, length_zero] at hmod hsmall
    have hlt : chars.length + 4 < 2 ^ 60 := hsmall
    exact ⟨⟨⟨chars, by omega, by omega⟩, hsmall⟩, rfl⟩
  · rintro ⟨s, rfl⟩
    have hwhole := s.whole
    have hlen := s.length_buf
    exact ⟨⟨by omega, s.chars, rfl⟩, by rw [hlen]; exact s.small⟩

/-- With whole characters, the last one is at the end. -/
theorem wellFormed_ensure (h4 : 4 ≤ buf.length) (stray : Bool) :
    WellFormed (Xdrbuf.strEnsureTrailingZero stray buf) ↔ buf.length % 4 = 0 := by
  have hne : buf ≠ [] := by
    intro h0
    rw [h0, List.length_nil] at h4
    omega
  have hshort : ¬ buf.length < 4 := by omega
  unfold Xdrbuf.strEnsureTrailingZero
  rw [if_neg hne, if_neg hshort]
  split
  · rename_i hlast
    rw [WellFormed, List.length_append, List.length_replicate, Nat.add_mod_right]
    exact and_iff_left ⟨buf, rfl⟩
  · rename_i hlast
    have hlast := not_not.mp hlast
    refine ⟨And.left, fun hmod => ⟨hmod, buf.take (4 * (buf.length / 4 - 1)), ?_⟩⟩
    have hdrop : (buf.drop (4 * (buf.length / 4 - 1))).length ≤ 4 := by
      rw [List.length_drop]
      omega
    rw [List.take_of_length_le hdrop] at hlast
    rw [zero, ← hlast, List.take_append_drop]

/-- The number of whole characters is what counts. -/
theorem sound_ensure (h : buf.length + 4 < 2 ^ 63) :
    Strings.Sound WellFormed (ensureTrailingZero lib buf) ↔ buf.length % 4 = 0 := by
  by_cases hne : buf = []
  · rw [hne, ensureTrailingZero_nil, sound_some]
    exact iff_of_true ⟨rfl, [], rfl⟩ rfl
  · have hpos := List.length_pos_of_ne_nil hne
    by_cases h4 : 4 ≤ buf.length
    · rw [ensureTrailingZero_eq h4 h false, sound_some, wellFormed_ensure h4]
    · rw [ensureTrailingZero_short hne (Nat.lt_of_not_le h4)]
      exact iff_of_false sound_none (by omega)

theorem toNat_size_buf (s : Str) : (size s.buf).toNat = s.chars.length / 4 := by
  have hlen := s.length_buf
  have hsmall : s.chars.length + 4 < 2 ^ 60 := s.small
  have hnat : (UInt64.ofNat s.buf.length).toNat = s.buf.length := toNat_length (by omega)
  have hdiv : (UInt64.ofNat s.buf.length / 4).toNat = s.buf.length / 4 := by
    rw [UInt64.toNat_div, hnat]
    rfl
  rw [size, if_neg (by omega), toNat_sub_one (by omega), hdiv]
  omega

theorem toNat_mul_four {n : UInt64} (h : n.toNat < 2 ^ 62) : (n * 4).toNat = 4 * n.toNat := by
  rw [UInt64.toNat_mul, show (4 : UInt64).toNat = 4 from rfl, Nat.mod_eq_of_lt (by omega), Nat.mul_comm]

theorem withoutZero_buf (s : Str) : withoutZero lib s.buf = s.chars := by
  have hsize := s.toNat_size_buf
  have hlen := s.length_buf
  have hwhole := s.whole
  have hsmall : s.chars.length + 4 < 2 ^ 60 := s.small
  have hfour : 4 * (size s.buf).toNat = s.chars.length := by omega
  have hchar : char? s.buf (size s.buf) = some zero := by
    rw [char?, hfour, if_pos (Nat.le_of_eq hlen.symm), Xdrbuf.Str.buf, List.drop_left' rfl]
    rfl
  have hmul : (size s.buf * 4).toNat = s.chars.length := by rw [toNat_mul_four (by omega), hfour]
  rw [withoutZero, if_pos ⟨by omega, hchar⟩, allocate_take (by omega), hmul, Option.getD_some,
    Xdrbuf.Str.buf, List.take_left' rfl]

theorem sound_add (s : Str) {dta : List UInt8} (h : dta.length < 2 ^ 62 + 2 ^ 61) :
    Strings.Sound WellFormed (ensureTrailingZero lib (append lib (withoutZero lib s.buf) dta)) ↔
      dta.length % 4 = 0 := by
  have hsmall : s.chars.length + 4 < 2 ^ 60 := s.small
  have hwhole := s.whole
  have hlen : (s.chars ++ dta).length = s.chars.length + dta.length := List.length_append
  rw [s.withoutZero_buf, append_eq (by omega), sound_ensure (by omega)]
  omega

theorem length_ensure_le {b : List UInt8} (h : buf.length + 4 < 2 ^ 63)
    (hb : ensureTrailingZero lib buf = some b) : b.length ≤ buf.length + 4 := by
  by_cases hne : buf = []
  · rw [hne, ensureTrailingZero_nil] at hb
    rw [← Option.some.inj hb, length_zero]
    exact Nat.le_add_left 4 _
  · by_cases h4 : 4 ≤ buf.length
    · rw [ensureTrailingZero_eq h4 h true] at hb
      rw [← Option.some.inj hb]
      unfold Xdrbuf.strEnsureTrailingZero
      split
      · exact absurd ‹_› hne
      · split
        · exact Nat.le_add_right _ 4
        · split
          · rw [List.length_append, List.length_replicate]
          · exact Nat.le_add_right _ 4
    · rw [ensureTrailingZero_short hne (Nat.lt_of_not_le h4)] at hb
      cases hb

/-- Whole characters or not. -/
theorem length_ensure_mod {b : List UInt8} (h : buf.length + 4 < 2 ^ 63)
    (hb : ensureTrailingZero lib buf = some b) : b.length % 4 = buf.length % 4 := by
  by_cases hne : buf = []
  · rw [hne, ensureTrailingZero_nil] at hb
    rw [hne, ← Option.some.inj hb]
    rfl
  · by_cases h4 : 4 ≤ buf.length
    · rw [ensureTrailingZero_eq h4 h true] at hb
      rw [← Option.some.inj hb]
      unfold Xdrbuf.strEnsureTrailingZero
      rw [if_neg hne, if_neg (Nat.not_lt_of_le h4)]
      split
      · rw [List.length_append, List.length_replicate, Nat.add_mod_right]
      · rfl
    · rw [ensureTrailingZero_short hne (Nat.lt_of_not_le h4)] at hb
      cases hb

theorem wcs_length (xs : List UInt8) : (wcs xs).length % 4 = 0 ∧ (wcs xs).length ≤ xs.length := by
  induction xs using wcs.induct with
  | case1 a b c d s h =>
    rw [wcs, if_pos h, length_zero, List.length_cons, List.length_cons, List.length_cons,
      List.length_cons]
    omega
  | case2 a b c d s h ih =>
    rw [wcs, if_neg h]
    simp only [List.length_cons]
    omega
  | case3 xs h =>
    rw [wcs]
    · exact ⟨rfl, Nat.zero_le _⟩
    · exact h

/-- Of the string itself, on the heap or in place. -/
theorem sound_addOwnWcs (s : Str) (heap : Bool) (off : Nat) :
    (Op.addOwnWcs s heap off).Sound lib ↔ (Op.addOwnWcs s heap off).Safe := by
  have hsmall : s.chars.length + 4 < 2 ^ 60 := s.small
  have hlen := s.length_buf
  obtain ⟨hmod, hle⟩ := wcs_length (s.buf.drop (4 * off))
  rw [List.length_drop] at hle
  have hadd := @sound_add lib s (wcs (s.buf.drop (4 * off))) (by omega)
  rw [s.withoutZero_buf] at hadd
  simp only [Op.Sound, Op.Safe, addOwnWcs, s.withoutZero_buf]
  split
  · rename_i hbad
    refine iff_of_false sound_none ?_
    rintro ⟨rfl, hgood⟩
    rcases hbad with hheap | hin
    · cases hheap
    · omega
  · rename_i hgood
    obtain ⟨hheap, hin⟩ := not_or.mp hgood
    refine iff_of_true (hadd.mpr hmod) ⟨Bool.eq_false_iff.mpr hheap, ?_⟩
    omega

theorem length_ofChars (text : List UInt8) : (ofChars text).length = 4 * text.length := by
  rw [ofChars, List.length_flatMap]
  simp [Nat.mul_comm]

/-- What is printed for a number, when there is room for it. -/
theorem fromNumber_eq {text : List UInt8} : fromNumber lib zero text =
    if text.length < 128 then some (ofChars text ++ zero) else none := by
  obtain ⟨p, hp, hplen⟩ := allocate_enough lib zero (show (512 - 1 : UInt64).toNat < 2 ^ 63 by decide)
  have hout : (ofChars text ++ zero).length = 4 * (text.length + 1) := by
    rw [List.length_append, length_ofChars, length_zero]
    omega
  rw [fromNumber, hp, Option.bind_some]
  by_cases hlt : text.length < 128
  · have hsz : (UInt64.ofNat (text.length + 1) * 4).toNat = (ofChars text ++ zero).length := by
      rw [toNat_mul_four (by rw [UInt64.toNat_ofNat']; omega), UInt64.toNat_ofNat', hout]
      omega
    rw [if_pos hlt, if_neg (by omega), allocate_take (by rw [hsz]; exact (List.prefix_append _ _).length_le),
      hsz, List.take_left' rfl]
  · rw [if_neg hlt, if_pos (by omega)]

/-- A conversion, when the buffer is cut to whole characters. -/
theorem convert_eq (lib : Libc) (buf : List UInt8) (t : Ustr)
    {shrink : List UInt8 → UInt64 → List UInt8}
    (hs : ∀ b szz, b.length = 4 * t.chars.length → (szz = -1 ∨ szz.toNat ≤ t.chars.length) →
      (shrink b szz).length % 4 = 0 ∧ (shrink b szz).length ≤ b.length) :
    ∃ b, convert lib buf t.buf shrink = some b ∧ WellFormed b ∧ b.length < 2 ^ 62 + 2 ^ 61 := by
  have hsize := t.toNat_size_buf
  have hsmall : t.chars.length + 1 < 2 ^ 60 := t.small
  have hmul : (Ustr.size t.buf * 4).toNat = 4 * t.chars.length := by
    rw [toNat_mul_four (by omega), hsize]
  have hsound : ∀ c : List UInt8, c.length % 4 = 0 → c.length ≤ 4 * t.chars.length →
      ∃ b, ensureTrailingZero lib c = some b ∧ WellFormed b ∧ b.length < 2 ^ 62 + 2 ^ 61 := by
    intro c hmod hle
    obtain ⟨b, hb, hwf⟩ := (@sound_ensure lib c (by omega)).mpr hmod
    have hlen := length_ensure_le (by omega) hb
    exact ⟨b, hb, hwf, by omega⟩
  obtain ⟨b, hb, hblen⟩ := allocate_enough lib buf
    (show (Ustr.size t.buf * 4).toNat < 2 ^ 63 by omega)
  simp only [convert, hb]
  split
  · exact hsound b (by omega) (by omega)
  · have hto := lib.length_mbstowcsTo t.buf b
    obtain ⟨hmod, hle⟩ := hs (lib.mbstowcsTo t.buf b) (lib.mbstowcs t.buf (Ustr.size t.buf).toNat)
      (by omega) (by rw [hsize]; exact lib.mbstowcs_le _ _)
    exact hsound _ hmod (by omega)

theorem length_cut {b : List UInt8} {n : Nat} {szz : UInt64} (hlen : b.length = 4 * n)
    (hn : n < 2 ^ 61) (hszz : szz.toNat ≤ n) :
    ((allocate lib b (szz * 4)).getD b).length % 4 = 0 ∧
      ((allocate lib b (szz * 4)).getD b).length ≤ b.length := by
  have hmul : (szz * 4).toNat = 4 * szz.toNat := toNat_mul_four (by omega)
  rw [allocate_take (by omega), Option.getD_some, List.length_take]
  omega

/-- When the conversion fails, `malloc` has no block of the size that is asked for, and the area
    that was to be written stays the buffer. -/
theorem ofUstr_eq (lib : Libc) (t : Ustr) :
    ∃ b, ofUstr lib t.buf = some b ∧ WellFormed b ∧ b.length < 2 ^ 62 + 2 ^ 61 := by
  have hsmall : t.chars.length + 1 < 2 ^ 60 := t.small
  refine convert_eq lib zero t fun b szz hlen hszz => ?_
  rcases hszz with hfail | hle
  · have hhuge : 2 ^ 63 ≤ (szz * 4).toNat := by
      rw [hfail]
      decide
    rw [allocate_refused (by omega) hhuge, Option.getD_none]
    omega
  · exact length_cut hlen (by omega) hle

theorem sound_copyUstr (s : Str) (t : Ustr) : (Op.copyUstr s t).Sound lib := by
  have hsmall : t.chars.length + 1 < 2 ^ 60 := t.small
  obtain ⟨b, hb, hwf, -⟩ := @convert_eq lib s.buf t
    (fun b szz => if szz = -1 then [] else (allocate lib b (szz * 4)).getD b) fun b szz hlen hszz => by
      by_cases hfail : szz = -1
      · rw [if_pos hfail]
        exact ⟨rfl, Nat.zero_le _⟩
      · rw [if_neg hfail]
        exact length_cut hlen (by omega) (hszz.resolve_left hfail)
  exact ⟨b, hb, hwf⟩

/-- Whole characters are copied, also none. -/
theorem sound_substr (s : Str) (start length : UInt64) : (Op.substr s start length).Sound lib := by
  have hsize := s.toNat_size_buf
  have hsmall : s.chars.length + 4 < 2 ^ 60 := s.small
  have hwhole := s.whole
  have hlen := s.length_buf
  intro r hr
  unfold substr at hr
  by_cases hgt : start > size s.buf
  · simp only [if_pos hgt] at hr
    cases hr
  · simp only [if_neg hgt, Except.ok.injEq] at hr
    rw [gt_iff_lt, UInt64.lt_iff_toNat_lt, hsize] at hgt
    rw [← hr]
    rcases @fitIn_cases (size s.buf) start length (by omega) (by omega) with
      ⟨hwrap, hfit⟩ | ⟨hwrap, hfit⟩
    · have hmul : (fitIn (size s.buf) start length * 4).toNat =
          4 * (fitIn (size s.buf) start length).toNat := toNat_mul_four (by omega)
      by_cases h0 : fitIn (size s.buf) start length * 4 = 0
      · rw [h0, set, if_pos rfl, Option.bind_some, sound_ensure (by decide)]
        rfl
      · have hdrop : (s.buf.drop (4 * start.toNat)).length = s.chars.length + 4 - 4 * start.toNat := by
          rw [List.length_drop, hlen]
        have htake : ((s.buf.drop (4 * start.toNat)).take
            (fitIn (size s.buf) start length * 4).toNat).length =
              4 * (fitIn (size s.buf) start length).toNat := by
          rw [List.length_take]
          omega
        rw [set_eq h0 (by omega) (by omega), Option.bind_some, sound_ensure (by omega), htake]
        omega
    · -- the number of bytes wraps as well, and there is no memory for what is left of it
      have hl := length.toNat_lt
      have hhuge : 2 ^ 63 ≤ (length * 4).toNat := by
        rw [UInt64.toNat_mul, show (4 : UInt64).toNat = 4 from rfl]
        omega
      rw [hfit, set_refused (by decide) hhuge, Option.bind_some, sound_ensure (by decide)]
      rfl

theorem sound_read (s : Stream) (alloc : UInt64 → Bool) :
    (Op.read s alloc).Sound lib ↔ (Op.read s alloc).Safe := by
  have hsmall : s.x.b.bytes.length < 2 ^ 60 := s.small
  rcases readCounted_cases s.ok alloc zero (ensureTrailingZero lib) id with
    ⟨p, z, hp, hne, ha, hread, -⟩ | ⟨hnone, hclears, -⟩
  · have hple := length_payload hp
    have hens := @sound_ensure lib p (by omega)
    simp only [Op.Sound, Op.Safe, read, hread, hp, ha, Option.some.injEq, forall_const, forall_eq']
    rw [← hens]
    cases ensureTrailingZero lib p with
    | none => simp
    | some b => simp
  · refine iff_of_true ⟨hclears.1, fun b hb => ?_⟩ fun p hp ha => ?_
    · rw [hclears.2 b hb]
      exact ⟨rfl, [], rfl⟩
    · by_cases hne : p = []
      · rw [hne]
        rfl
      · rw [hnone p hp hne] at ha
        cases ha

theorem sound_fromBinary (s : Str) (v : Range) :
    (Op.fromBinary s v).Sound lib ↔ v.bytes.length % 4 = 0 := by
  have hsmall : v.bytes.length < 2 ^ 60 := v.small
  rw [Op.Sound, fromBinary, if_neg v.ne, set_length v.ne (by omega), Option.bind_some,
    sound_ensure (by omega)]

/-- A C string that is converted; a failure leaves the empty string, or throws. -/
theorem copyCstr_cases (lib : Libc) (useExc : Bool) (t : Ustr) :
    (∃ e, copyCstr lib useExc zero t.buf = .error e) ∨
      ∃ b, copyCstr lib useExc zero t.buf = .ok (some b) ∧ WellFormed b ∧
        b.length < 2 ^ 62 + 2 ^ 61 := by
  have hsmall : t.chars.length + 1 < 2 ^ 60 := t.small
  have hle := (List.takeWhile_sublist (· ≠ 0) (l := t.buf)).length_le
  rw [t.length_buf] at hle
  generalize hn : (t.buf.takeWhile (· ≠ 0)).length + 1 = n
  have hmul : (UInt64.ofNat n * 4).toNat = 4 * n := by
    have hnat : (UInt64.ofNat n).toNat = n := by
      rw [UInt64.toNat_ofNat', Nat.mod_eq_of_lt (by omega)]
    rw [toNat_mul_four (by omega), hnat]
  obtain ⟨p, hp, hplen⟩ := allocate_enough lib zero (show (UInt64.ofNat n * 4).toNat < 2 ^ 63 by omega)
  have hmax := lib.mbstowcs_le t.buf n
  have hto := lib.length_mbstowcsTo t.buf p
  simp only [copyCstr, hn, hp, Option.elim_some]
  generalize lib.mbstowcs t.buf n = ssz at hmax ⊢
  split
  · rename_i hfail
    cases useExc with
    | true => exact Or.inl ⟨_, rfl⟩
    | false => exact Or.inr ⟨zero, by rw [ensureTrailingZero_nil]; rfl, ⟨rfl, [], rfl⟩, by decide⟩
  · rename_i hdone
    obtain ⟨hmod, hcut⟩ := @length_cut lib (lib.mbstowcsTo t.buf p) n ssz (by omega) (by omega)
      (hmax.resolve_left hdone)
    obtain ⟨b, hb, hwf⟩ := (@sound_ensure lib _ (by omega)).mpr hmod
    have hlen := length_ensure_le (by omega) hb
    exact Or.inr ⟨b, by rw [hb], hwf, by omega⟩

/-- **A variable**: a binary is not made of whole characters, and there may be no room for a
    number. -/
theorem sound_addVar (s : Str) (useExc : Bool) (v : Var) :
    (Op.addVar s useExc v).Sound lib ↔ (Op.addVar s useExc v).Safe := by
  cases v with
  | number text h =>
    have hlt : text.length < 2 ^ 60 := h
    simp only [Op.Sound, Op.Safe, addVar, ofVar, Except.map, Except.ok.injEq, forall_eq', fromNumber_eq]
    split
    · rename_i hroom
      have hout : (ofChars text ++ zero).length = 4 * (text.length + 1) := by
        rw [List.length_append, length_ofChars, length_zero]
        omega
      exact iff_of_true ((s.sound_add (by omega)).mpr (by omega)) hroom
    · rename_i hnone
      exact iff_of_false sound_none hnone
  | str t =>
    have hsmall : t.chars.length + 4 < 2 ^ 60 := t.small
    have hwhole := t.whole
    have hlen := t.length_buf
    simp only [Op.Sound, Op.Safe, addVar, ofVar, Except.map, Except.ok.injEq, forall_eq', Option.bind_some]
    exact iff_of_true ((s.sound_add (by omega)).mpr (by omega)) trivial
  | ustr t =>
    refine iff_of_true (fun r hr => ?_) trivial
    rcases copyCstr_cases lib useExc t with ⟨e, he⟩ | ⟨b, hb, hwf, hlt⟩
    · rw [addVar, ofVar, he] at hr
      cases hr
    · rw [addVar, ofVar, hb] at hr
      cases hr
      exact (s.sound_add hlt).mpr hwf.1
  | binry v h =>
    have hlt : v.length < 2 ^ 60 := h
    simp only [Op.Sound, Op.Safe, addVar, ofVar, Except.map, Except.ok.injEq, forall_eq', fromBinary]
    split
    · rename_i hnil
      rw [hnil, Option.bind_some]
      exact iff_of_true ((s.sound_add (by decide)).mpr rfl) rfl
    · rename_i hne
      rw [set_length hne (by omega), Option.bind_some, ← @sound_ensure lib v (by omega)]
      cases hens : ensureTrailingZero lib v with
      | none => exact Iff.rfl
      | some b =>
        have hle := length_ensure_le (by omega) hens
        have hmod := length_ensure_mod (by omega) hens
        have hadd := @sound_add lib s b (by omega)
        rw [hmod, ← @sound_ensure lib v (by omega), hens] at hadd
        exact hadd

/-- **When an operation on a `str` is sound.** -/
theorem Op.sound_iff_safe (lib : Libc) (op : Op) : op.Sound lib ↔ op.Safe := by
  cases op with
  | read s alloc => exact sound_read s alloc
  | fromBinary s v => exact sound_fromBinary s v
  | substr s start length => exact iff_of_true (sound_substr s start length) trivial
  | addStr s t | addWcs s t =>
    have hsmall : t.chars.length + 4 < 2 ^ 60 := t.small
    have hwhole := t.whole
    have hlen := t.length_buf
    exact iff_of_true ((s.sound_add (by omega)).mpr (by omega)) trivial
  | fromOwn s off n h =>
    have hsmall : s.chars.length + 4 < 2 ^ 60 := s.small
    have hlen := s.length_buf
    have htake : ((s.buf.drop off).take n).length = n := by
      rw [List.length_take, List.length_drop]
      omega
    rw [Op.Sound, setOwn_eq h.1]
    split
    · rename_i hle
      rw [Option.bind_some, sound_ensure (by omega), htake]
      exact (and_iff_right hle).symm
    · rename_i hlt
      exact iff_of_false sound_none fun hsafe => hlt hsafe.1
  | addSelf s heap =>
    have hsmall : s.chars.length + 4 < 2 ^ 60 := s.small
    have hadd := @sound_add lib s s.chars (by omega)
    rw [s.withoutZero_buf] at hadd
    rw [Op.Sound, Str.addSelf, s.withoutZero_buf]
    split
    · rename_i hbad
      exact iff_of_false sound_none fun hsafe => hbad.2 (hsafe hbad.1)
    · rename_i hgood
      exact iff_of_true (hadd.mpr s.whole) fun hheap => not_not.mp fun hne => hgood ⟨hheap, hne⟩
  | addOwnWcs s heap off => exact sound_addOwnWcs s heap off
  | addUstr s t =>
    obtain ⟨b, hb, hwf, hlt⟩ := ofUstr_eq lib t
    rw [Op.Sound, Str.addUstr, hb, Option.bind_some]
    exact iff_of_true ((s.sound_add hlt).mpr hwf.1) trivial
  | addVar s useExc v => exact sound_addVar s useExc v
  | assignOwn s off n h =>
    have hlen := s.length_buf
    have htake : ((s.buf.drop (4 * off)).take (4 * n)).length = 4 * n := by
      rw [List.length_take, List.length_drop]
      omega
    have hpos : 0 < 4 * n := Nat.mul_pos (by decide) h.1
    rw [Op.Sound, setOwn_eq hpos]
    split
    · rename_i hle
      rw [sound_some, WellFormed, htake]
      exact and_congr ⟨fun _ => by omega, fun _ => by omega⟩ Iff.rfl
    · rename_i hlt
      exact iff_of_false sound_none fun hsafe => hlt (Nat.mul_le_mul_left 4 hsafe.1)
  | assign s r =>
    have hsmall : r.bytes.length < 2 ^ 60 := r.small
    rw [Op.Sound, Str.assign, set_length r.ne (by omega), sound_some]
    exact and_iff_right r.whole
  | ofUstr t =>
    obtain ⟨b, hb, hwf, -⟩ := ofUstr_eq lib t
    exact iff_of_true ⟨b, hb, hwf⟩ trivial
  | copyUstr s t => exact iff_of_true (sound_copyUstr s t) trivial
  | copyPbuf s other h =>
    have hsize := other.size_eq_bytes
    have hsmall : other.size < 2 ^ 60 := h
    rw [Op.Sound, Str.copyPbuf, copyPbuf_eq other (by omega), sound_ensure (by omega)]
    rfl

end Str

/-! ## Both classes -/

/-- **Which operations keep the terminators**, of all strings. -/
theorem strings_sound_iff (lib : Libc) :
    (∀ op : Ustr.Op, op.Sound lib ↔ op.Safe lib) ∧ ∀ op : Str.Op, op.Sound lib ↔ op.Safe :=
  ⟨Ustr.Op.sound_iff_safe lib, Str.Op.sound_iff_safe lib⟩

/-- Operations that are not sound. Of a `ustr`: no characters of "x"; the empty string, appended
    to itself and converted; "x" appended to itself on the heap, also as a C string; an empty `pbuf`;
    and "ab" without a zero, assigned. Of a `str`: five bytes and one byte from a stream, three bytes,
    also behind a variable, a `pbuf` of one byte, and a character without a zero, assigned. -/
theorem strings_sound_fails :
    let x : Ustr := ⟨⟨[120], by decide⟩, by decide⟩
    let none : Ustr := ⟨⟨[], by decide⟩, by decide⟩
    let wnone : Str := ⟨⟨[], by decide, by decide⟩, by decide⟩
    let five : Stream := ⟨Xdrbuf.readerOf true [0, 0, 0, 0, 0, 0, 0, 5, 97, 0, 0, 0, 98, 0, 0, 0],
      Xdrbuf.ok_new _, by decide⟩
    let one : Stream := ⟨Xdrbuf.readerOf true [0, 0, 0, 0, 0, 0, 0, 1, 97, 0, 0, 0],
      Xdrbuf.ok_new _, by decide⟩
    ¬ (Ustr.Op.substr x 0 0).Sound Libc.c ∧
    ¬ (Ustr.Op.addSelf none false).Sound Libc.c ∧
    ¬ (Ustr.Op.addSelf x true).Sound Libc.c ∧
    ¬ (Ustr.Op.addOwnCstr x true 0).Sound Libc.c ∧
    ¬ (Ustr.Op.ofStr wnone).Sound Libc.c ∧
    ¬ (Ustr.Op.copyPbuf x Pbuf.init (by decide)).Sound Libc.c ∧
    ¬ (Ustr.Op.assign x ⟨[97, 98], by decide, by decide⟩).Sound Libc.c ∧
    ¬ (Str.Op.read five fun _ => true).Sound Libc.c ∧
    ¬ (Str.Op.read one fun _ => true).Sound Libc.c ∧
    ¬ (Str.Op.fromBinary wnone ⟨[97, 98, 99], by decide, by decide⟩).Sound Libc.c ∧
    ¬ (Str.Op.addVar wnone true (.binry [97, 98, 99] (by decide))).Sound Libc.c ∧
    ¬ (Str.Op.copyPbuf wnone (Pbuf.init.append [97]).1 (by decide)).Sound Libc.c ∧
    ¬ (Str.Op.assign wnone ⟨⟨[97, 0, 0, 0], by decide, by decide⟩, by decide⟩).Sound Libc.c := by
  intro x none wnone five one
  simp only [Ustr.Op.sound_iff_safe, Str.Op.sound_iff_safe, Ustr.Op.Safe, Str.Op.Safe, Ustr.Converts]
  refine ⟨by decide, by decide, by decide, by decide, by decide, by decide, by decide, fun h => ?_,
    fun h => ?_, by decide, by decide, by decide, by decide⟩
  · exact absurd (h [97, 0, 0, 0, 98] (by decide) trivial) (by decide)
  · exact absurd (h [97] (by decide) trivial) (by decide)

end Strings

end CodeSLoop
