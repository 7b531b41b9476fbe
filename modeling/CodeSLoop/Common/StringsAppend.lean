import CodeSLoop.Common.StringsObj
import Mathlib.Logic.Function.Basic

/-!
# Appending strings (`common/ustr.cc`, `common/str.cc`, `common/ustr.hh`, `common/str.hh`)

`operator+=` cuts the terminator off, and takes the pointer to what it appends before it makes the
buffer larger. When a string is appended to itself that pointer may not be good any more, and what
comes behind the characters then has no terminator; one is put there unless the last character looks
like it.

`append_laws` says for which strings `a += b` is what it should be. `+` works on copies, and `==` on
bytes, so neither depends on that.
-/

namespace CodeSLoop

open Bytes

namespace Strings

variable (lib : Libc)

/-! ## The classes -/

/-- What `ustr` and `str` have of their own: the size of `preallocated_`, the terminator, the size
    to which `operator+=` cuts the buffer first, `ensure_trailing_zero()` and `operator==`. -/
structure Cls where
  SZ : Nat
  zero : List UInt8
  zero_le : zero.length ≤ SZ
  WellFormed : List UInt8 → Prop
  /-- No zero is embedded in these characters. -/
  Plain : List UInt8 → Prop
  cut : List UInt8 → Option UInt64
  ensureTrailingZero : Libc → Obj SZ → Option (Obj SZ)
  eq : List UInt8 → List UInt8 → Option Bool

/-- `strncmp(a,b,n) == 0`; `none` is a look behind the end of one. -/
def strncmpEq : List UInt8 → List UInt8 → Nat → Option Bool
  | _, _, 0 => some true
  | a :: as, b :: bs, n + 1 =>
    if a ≠ b then some false else if a = 0 then some true else strncmpEq as bs n
  | _, _, _ + 1 => none

/-- `wcscmp(a,b) == 0`. -/
def wcscmpEq : List UInt8 → List UInt8 → Option Bool
  | a₁ :: a₂ :: a₃ :: a₄ :: as, b₁ :: b₂ :: b₃ :: b₄ :: bs =>
    if [a₁, a₂, a₃, a₄] ≠ [b₁, b₂, b₃, b₄] then some false
    else if [a₁, a₂, a₃, a₄] = Str.zero then some true else wcscmpEq as bs
  | _, _ => none

/-- `ustr::ensure_trailing_zero()`. -/
def Ustr.ensureObj (o : Obj 128) : Option (Obj 128) :=
  let sz := UInt64.ofNat o.bytes.length
  let o := if o.bytes.length = 0 then o.appendBytes lib [0] else o
  (o.bytes[(sz - 1).toNat]?).map fun c => if c ≠ 0 then o.appendBytes lib [0] else o

/-- `str::ensure_trailing_zero()`. -/
def Str.ensureObj (o : Obj 512) : Option (Obj 512) :=
  let sz := UInt64.ofNat o.bytes.length / 4 - 1
  if o.bytes.length = 0 then some (o.appendBytes lib Str.zero)
  else (Str.char? o.bytes sz).map fun c => if c ≠ Str.zero then o.appendBytes lib Str.zero else o

/-- No character of these is zero. -/
def Str.Plain : List UInt8 → Prop
  | a₁ :: a₂ :: a₃ :: a₄ :: as => [a₁, a₂, a₃, a₄] ≠ Str.zero ∧ Str.Plain as
  | _ => True

def Cls.ustr : Cls where
  SZ := 128
  zero := [0]
  zero_le := by decide
  WellFormed := Ustr.WellFormed
  Plain chars := 0 ∉ chars
  cut buf :=
    let sz := UInt64.ofNat buf.length
    if sz > 0 ∧ buf[(sz - 1).toNat]? = some 0 then some (sz - 1) else none
  ensureTrailingZero := Ustr.ensureObj
  eq a b := strncmpEq a b a.length

def Cls.str : Cls where
  SZ := 512
  zero := Str.zero
  zero_le := by decide
  WellFormed := Str.WellFormed
  Plain := Str.Plain
  cut buf :=
    let sz := Str.size buf
    if buf.length > 0 ∧ Str.char? buf sz = some Str.zero then some (sz * 4) else none
  ensureTrailingZero := Str.ensureObj
  eq := wcscmpEq

namespace Cls

variable (C : Cls)

/-- `operator+=(const ustr &)` and `operator+=(const str &)`, of the same object or another one. -/
def addAssign (o s : Obj C.SZ) (same : Bool) : Option (Obj C.SZ) :=
  let o := (C.cut o.bytes).elim o fun sz => (o.allocate lib sz).getD o
  C.ensureTrailingZero lib (o.append lib (if same then o else s) same)

/-- A new string that is a copy. It has its terminator before that. -/
def ofCopy (s : Obj C.SZ) : Obj C.SZ := Obj.copy lib ⟨C.zero, false, fun _ => C.zero_le⟩ s

/-- `operator+`, with the copy that is returned. -/
def add (a b : Obj C.SZ) : Option (Obj C.SZ) :=
  (C.addAssign lib (C.ofCopy lib a) b false).map (C.ofCopy lib)

/-- `a += b` where both are among some objects. -/
def addAssignAt {ι : Type} [DecidableEq ι] (σ : ι → Obj C.SZ) (i j : ι) : Option (ι → Obj C.SZ) :=
  (C.addAssign lib (σ i) (σ j) (decide (i = j))).map (Function.update σ i)

/-- A string that is well formed. -/
structure Text extends Obj C.SZ where
  wellFormed : C.WellFormed bytes
  small : InMemory bytes.length

variable {C}

/-- The characters, without the terminator. -/
def Text.chars (t : C.Text) : List UInt8 := t.bytes.take (t.bytes.length - C.zero.length)

variable (C)

/-- `a += b` appends, whatever memory has in it. -/
def Appends {ι : Type} [DecidableEq ι] (σ : ι → C.Text) (i j : ι) : Prop :=
  ∀ lib, ∃ σ', C.addAssignAt lib (fun k => (σ k).toObj) i j = some σ' ∧
    (σ' i).bytes = (σ i).chars ++ (σ j).chars ++ C.zero ∧ C.WellFormed (σ' i).bytes ∧
    ∀ k, k ≠ i → σ' k = (σ k).toObj

/-- `(a + b) + c` and `a + (b + c)` are the same. -/
def Associates (a b c : C.Text) : Prop :=
  ∀ lib, ∃ x y,
    (C.add lib a.toObj b.toObj).bind (C.add lib · c.toObj) = some x ∧
    (C.add lib b.toObj c.toObj).bind (C.add lib a.toObj ·) = some y ∧
    x.bytes = y.bytes ∧ x.bytes = a.chars ++ b.chars ++ c.chars ++ C.zero

/-- `a == b` if the characters are the same. -/
def Compares (a b : C.Text) : Prop :=
  C.Plain a.chars → C.Plain b.chars → C.eq a.bytes b.bytes = some (decide (a.chars = b.chars))

end Cls

/-! ## The laws, for a class -/

namespace Cls

/-- What is the same in both classes. A buffer that is whole characters is well formed if the last
    one is the terminator. -/
structure Lawful (C : Cls) : Prop where
  zero_ne : C.zero ≠ []
  short : C.zero.length ≤ 4
  suffix : ∀ {buf}, C.WellFormed buf → C.zero <:+ buf
  concat : ∀ {a b}, C.WellFormed (a ++ C.zero) → C.WellFormed (b ++ C.zero) →
    C.WellFormed (a ++ b ++ C.zero)
  same_length : ∀ {a b}, C.WellFormed (a ++ C.zero) → b.length = a.length → C.WellFormed (b ++ C.zero)
  closed : ∀ {a}, C.WellFormed (a ++ C.zero) → C.zero <:+ a → C.WellFormed a
  zero_le_length : ∀ {a}, C.WellFormed (a ++ C.zero) → a ≠ [] → C.zero.length ≤ a.length
  cut_eq : ∀ {a}, C.WellFormed (a ++ C.zero) → a.length + 4 < 2 ^ 62 →
    ∃ sz, C.cut (a ++ C.zero) = some sz ∧ sz.toNat = a.length
  ensure_closed : ∀ {lib} {o : Obj C.SZ}, C.WellFormed o.bytes → o.bytes.length + 4 < 2 ^ 63 →
    C.ensureTrailingZero lib o = some o
  ensure_open : ∀ {lib} {o : Obj C.SZ}, C.WellFormed (o.bytes ++ C.zero) → o.bytes ≠ [] →
    ¬ C.zero <:+ o.bytes → o.bytes.length + 4 < 2 ^ 63 →
    C.ensureTrailingZero lib o = some (o.appendBytes lib C.zero)

variable {C : Cls} {lib} {o s : Obj C.SZ} {a b : List UInt8}

/-- The buffer without its terminator. With nothing in it, it is not on the heap any more. -/
theorem Lawful.cut (hC : C.Lawful) (ho : o.bytes = a ++ C.zero) (ha : C.WellFormed (a ++ C.zero))
    (h : a.length + 4 < 2 ^ 62) :
    ∃ o' : Obj C.SZ, ((C.cut o.bytes).elim o fun sz => (o.allocate lib sz).getD o) = o' ∧
      o'.bytes = a ∧ (a ≠ [] → o'.onHeap = o.onHeap) := by
  obtain ⟨sz, hsz, hlen⟩ := hC.cut_eq ha h
  have hle : sz.toNat ≤ o.bytes.length := by
    rw [ho, hlen, List.length_append]
    exact Nat.le_add_right _ _
  obtain ⟨o', ho', hbytes, hheap⟩ := @Obj.allocate_cut C.SZ lib o sz hle
  refine ⟨o', ?_, ?_, fun hne => ?_⟩
  · rw [ho, hsz, Option.elim_some, ho', Option.getD_some]
  · rw [hbytes, hlen, ho, List.take_left' rfl]
  · rw [hheap, if_neg]
    intro h0
    rw [h0, UInt64.toNat_zero] at hlen
    exact hne (List.length_eq_zero_iff.mp hlen.symm)

/-- A terminator is put behind the bytes unless it looks as if one were there. -/
theorem Lawful.ensure_iff (hC : C.Lawful) (hwf : C.WellFormed (b ++ C.zero)) (hne : b ≠ [])
    (hlen : o.bytes.length = b.length) (h : b.length + 4 < 2 ^ 63) :
    (∃ o', C.ensureTrailingZero lib o = some o' ∧ o'.bytes = b ++ C.zero ∧ C.WellFormed o'.bytes) ↔
      o.bytes = b ∧ ¬ C.zero <:+ b := by
  have hshort := hC.short
  have hne' : o.bytes ≠ [] := by
    rw [← List.length_pos_iff, hlen]
    exact List.length_pos_of_ne_nil hne
  have hwf' := hC.same_length hwf hlen
  by_cases hzero : C.zero <:+ o.bytes
  · rw [hC.ensure_closed (hC.closed hwf' hzero) (by omega)]
    refine iff_of_false ?_ fun hb => hb.2 (hb.1 ▸ hzero)
    rintro ⟨o', ho', hbytes, -⟩
    have hlonger := congrArg List.length hbytes
    have hpos := List.length_pos_of_ne_nil hC.zero_ne
    rw [← Option.some.inj ho', List.length_append] at hlonger
    omega
  · rw [hC.ensure_open hwf' hne' hzero (by omega)]
    have hbytes : (o.appendBytes lib C.zero).bytes = o.bytes ++ C.zero :=
      Obj.bytes_appendBytes (by omega)
    constructor
    · rintro ⟨o', ho', hb, -⟩
      rw [← Option.some.inj ho', hbytes] at hb
      have hb := List.append_cancel_right hb
      exact ⟨hb, hb ▸ hzero⟩
    · rintro ⟨hb, -⟩
      refine ⟨_, rfl, ?_, ?_⟩
      · rw [hbytes, hb]
      · rwa [hbytes]

theorem Lawful.addAssign_other (hC : C.Lawful) (ho : o.bytes = a ++ C.zero) (hs : s.bytes = b ++ C.zero)
    (ha : C.WellFormed (a ++ C.zero)) (hb : C.WellFormed (b ++ C.zero))
    (h : a.length + b.length + 8 < 2 ^ 62) :
    ∃ o', C.addAssign lib o s false = some o' ∧ o'.bytes = a ++ b ++ C.zero := by
  have hshort := hC.short
  obtain ⟨o', hcut, hbytes, -⟩ := @Lawful.cut lib C o a hC ho ha (by omega)
  have happ : (o'.append lib s false).bytes = a ++ b ++ C.zero := by
    rw [Obj.bytes_append, hbytes, hs, List.append_assoc]
    · rfl
    · rw [hbytes, hs, List.length_append]
      omega
  refine ⟨o'.append lib s false, ?_, happ⟩
  rw [addAssign, hcut, if_neg Bool.false_ne_true]
  refine hC.ensure_closed ?_ ?_
  · rw [happ]
    exact hC.concat ha hb
  · rw [happ, List.length_append, List.length_append]
    omega

/-- The same object: what comes behind the characters is what is left of them. -/
theorem Lawful.addAssign_self (hC : C.Lawful) (ho : o.bytes = a ++ C.zero)
    (ha : C.WellFormed (a ++ C.zero)) (h : a.length + 4 < 2 ^ 61) :
    ∃ o' : Obj C.SZ, C.addAssign lib o o true = C.ensureTrailingZero lib o' ∧
      o'.bytes = a ++ if o.onHeap then lib.freed a else a := by
  obtain ⟨o', hcut, hbytes, hheap⟩ := @Lawful.cut lib C o a hC ho ha (by omega)
  refine ⟨o'.append lib o' true, ?_, ?_⟩
  · rw [addAssign, hcut]
    rfl
  · rw [Obj.bytes_append true (by rw [hbytes]; omega), hbytes, Bool.true_and]
    by_cases hne : a = []
    · have hfreed : lib.freed [] = [] := List.length_eq_zero_iff.mp (lib.length_freed [])
      rw [hne, hfreed, ite_self, ite_self]
    · rw [hheap hne]

theorem Lawful.add_eq (hC : C.Lawful) (ho : o.bytes = a ++ C.zero) (hs : s.bytes = b ++ C.zero)
    (ha : C.WellFormed (a ++ C.zero)) (hb : C.WellFormed (b ++ C.zero))
    (h : a.length + b.length + 8 < 2 ^ 62) :
    ∃ o', C.add lib o s = some o' ∧ o'.bytes = a ++ b ++ C.zero := by
  have hshort := hC.short
  have hcopy : (C.ofCopy lib o).bytes = a ++ C.zero := by
    rw [ofCopy, Obj.bytes_copy, ho]
    rw [ho, List.length_append]
    omega
  obtain ⟨o', ho', hbytes⟩ := @Lawful.addAssign_other lib C _ s a b hC hcopy hs ha hb h
  refine ⟨C.ofCopy lib o', by rw [add, ho']; rfl, ?_⟩
  rw [ofCopy, Obj.bytes_copy, hbytes]
  rw [hbytes, List.length_append, List.length_append]
  omega

/-! ### Strings that are well formed -/

theorem Text.bytes_eq (hC : C.Lawful) (t : C.Text) : t.bytes = t.chars ++ C.zero := by
  obtain ⟨chars, hchars⟩ := hC.suffix t.wellFormed
  have htake : t.chars = chars := by
    rw [Text.chars, ← hchars, List.length_append, Nat.add_sub_cancel, List.take_left' rfl]
  rw [htake, hchars]

theorem Text.wellFormed_chars (hC : C.Lawful) (t : C.Text) : C.WellFormed (t.chars ++ C.zero) := by
  rw [← t.bytes_eq hC]
  exact t.wellFormed

theorem Text.length_chars (hC : C.Lawful) (t : C.Text) : t.chars.length < 2 ^ 60 := by
  have hsmall : t.bytes.length < 2 ^ 60 := t.small
  rw [t.bytes_eq hC, List.length_append] at hsmall
  omega

variable {ι : Type} [DecidableEq ι] {σ : ι → C.Text} {i j : ι}

/-- What is at `i` then is what `addAssign` made, and the other objects are what they were. -/
theorem appends_iff : C.Appends σ i j ↔ ∀ lib, ∃ o',
    C.addAssign lib (σ i).toObj (σ j).toObj (decide (i = j)) = some o' ∧
      o'.bytes = (σ i).chars ++ (σ j).chars ++ C.zero ∧ C.WellFormed o'.bytes := by
  refine forall_congr' fun lib => ?_
  simp only [addAssignAt]
  constructor
  · rintro ⟨σ', hσ', hbytes, hwf, -⟩
    obtain ⟨o', ho', rfl⟩ := Option.map_eq_some_iff.mp hσ'
    rw [Function.update_self] at hbytes hwf
    exact ⟨o', ho', hbytes, hwf⟩
  · rintro ⟨o', ho', hbytes, hwf⟩
    refine ⟨_, by rw [ho']; rfl, ?_, ?_, fun k hk => Function.update_of_ne hk _ _⟩
    · rwa [Function.update_self]
    · rwa [Function.update_self]

theorem Lawful.appends_other (hC : C.Lawful) (hij : i ≠ j) : C.Appends σ i j := by
  have hi := (σ i).length_chars hC
  have hj := (σ j).length_chars hC
  refine appends_iff.mpr fun lib => ?_
  obtain ⟨o', ho', hbytes⟩ := @Lawful.addAssign_other lib C (σ i).toObj (σ j).toObj _ _ hC
    ((σ i).bytes_eq hC) ((σ j).bytes_eq hC) ((σ i).wellFormed_chars hC) ((σ j).wellFormed_chars hC)
    (by omega)
  rw [decide_eq_false hij]
  refine ⟨o', ho', hbytes, ?_⟩
  rw [hbytes]
  exact hC.concat ((σ i).wellFormed_chars hC) ((σ j).wellFormed_chars hC)

/-- A library that leaves other bytes in what was given back. -/
def scribble : Libc where
  __ := Libc.c
  freed bs := bs.map (· + 1)
  length_freed _ := List.length_map _

theorem map_add_one_ne (hne : a ≠ []) : a.map (· + 1) ≠ a := by
  cases a with
  | nil => exact absurd rfl hne
  | cons c a =>
    intro h
    have hc : c + 1 = c := (List.cons.inj h).1
    have hlt := c.toNat_lt
    have hnat := congrArg UInt8.toNat hc
    rw [UInt8.toNat_add, show (1 : UInt8).toNat = 1 from rfl] at hnat
    omega

/-- Of an object with characters to itself: the pointer must stay good, and the last character must
    not look like a terminator. -/
theorem Lawful.appends_self (hC : C.Lawful) (hne : (σ i).chars ≠ []) :
    C.Appends σ i i ↔ (σ i).onHeap = false ∧ ¬ C.zero <:+ (σ i).chars := by
  have hlen := (σ i).length_chars hC
  have hshort := hC.short
  have hwf := hC.concat ((σ i).wellFormed_chars hC) ((σ i).wellFormed_chars hC)
  have hlast : C.zero <:+ (σ i).chars ++ (σ i).chars ↔ C.zero <:+ (σ i).chars := by
    refine ⟨fun h => ?_, fun h => h.trans (List.suffix_append _ _)⟩
    exact List.suffix_of_suffix_length_le h (List.suffix_append _ _)
      (hC.zero_le_length ((σ i).wellFormed_chars hC) hne)
  -- with each content of memory, the bytes behind the characters are to be the same ones
  have hlib (lib : Libc) : (∃ o', C.addAssign lib (σ i).toObj (σ i).toObj true = some o' ∧
      o'.bytes = (σ i).chars ++ (σ i).chars ++ C.zero ∧ C.WellFormed o'.bytes) ↔
      (if (σ i).onHeap then lib.freed (σ i).chars else (σ i).chars) = (σ i).chars ∧
        ¬ C.zero <:+ (σ i).chars := by
    obtain ⟨o, ho, happ⟩ := @Lawful.addAssign_self lib C (σ i).toObj _ hC ((σ i).bytes_eq hC)
      ((σ i).wellFormed_chars hC) (by omega)
    have hfreed := lib.length_freed (σ i).chars
    have hdouble : ((σ i).chars ++ (σ i).chars).length = (σ i).chars.length + (σ i).chars.length :=
      List.length_append
    rw [ho, hC.ensure_iff hwf (fun h => hne (List.append_eq_nil_iff.mp h).1) ?_ (by omega), happ,
      List.append_cancel_left_eq, hlast]
    rw [happ, List.length_append, List.length_append]
    split
    · rw [hfreed]
    · rfl
  rw [appends_iff]
  simp only [decide_true]
  constructor
  · intro h
    have hscribble := (hlib scribble).mp (h scribble)
    refine ⟨?_, hscribble.2⟩
    cases hheap : (σ i).onHeap with
    | false => rfl
    | true =>
      rw [hheap, if_pos rfl] at hscribble
      exact absurd hscribble.1 (map_add_one_ne hne)
  · rintro ⟨hheap, hzero⟩ lib
    refine (hlib lib).mpr ⟨?_, hzero⟩
    rw [hheap, if_neg Bool.false_ne_true]

/-- With no characters there is nothing to look at when the terminator is put. -/
theorem Lawful.addAssign_nil (hC : C.Lawful) (t : C.Text) (hnil : t.chars = []) :
    ∃ o : Obj C.SZ, o.bytes = [] ∧
      C.addAssign lib t.toObj t.toObj true = C.ensureTrailingZero lib o := by
  have hbytes := t.bytes_eq hC
  have hwf := t.wellFormed_chars hC
  rw [hnil] at hbytes hwf
  have hfreed : lib.freed [] = [] := List.length_eq_zero_iff.mp (lib.length_freed [])
  obtain ⟨o, ho, happ⟩ := @Lawful.addAssign_self lib C t.toObj [] hC hbytes hwf (by decide)
  rw [hfreed, ite_self, List.append_nil] at happ
  exact ⟨o, happ, ho⟩

theorem Lawful.associates (hC : C.Lawful) (a b c : C.Text) : C.Associates a b c := by
  have ha := a.length_chars hC
  have hb := b.length_chars hC
  have hc := c.length_chars hC
  have hwa := a.wellFormed_chars hC
  have hwb := b.wellFormed_chars hC
  have hwc := c.wellFormed_chars hC
  have hab : (a.chars ++ b.chars).length = a.chars.length + b.chars.length := List.length_append
  have hbc : (b.chars ++ c.chars).length = b.chars.length + c.chars.length := List.length_append
  intro lib
  obtain ⟨x, hx, hxb⟩ := @Lawful.add_eq lib C a.toObj b.toObj _ _ hC (a.bytes_eq hC) (b.bytes_eq hC)
    hwa hwb (by omega)
  obtain ⟨x', hx', hxb'⟩ := @Lawful.add_eq lib C x c.toObj _ _ hC hxb (c.bytes_eq hC)
    (hC.concat hwa hwb) hwc (by omega)
  obtain ⟨y, hy, hyb⟩ := @Lawful.add_eq lib C b.toObj c.toObj _ _ hC (b.bytes_eq hC) (c.bytes_eq hC)
    hwb hwc (by omega)
  obtain ⟨y', hy', hyb'⟩ := @Lawful.add_eq lib C a.toObj y _ _ hC (a.bytes_eq hC) hyb
    hwa (hC.concat hwb hwc) (by omega)
  refine ⟨x', y', ?_, ?_, ?_, hxb'⟩
  · rw [hx, Option.bind_some, hx']
  · rw [hy, Option.bind_some, hy']
  · rw [hxb', hyb', List.append_assoc a.chars]

end Cls

/-! ## `ustr` -/

theorem Ustr.last? {buf : List UInt8} (hne : buf ≠ []) (h : buf.length < 2 ^ 63) :
    buf[(UInt64.ofNat buf.length - 1).toNat]? = some (buf.getLast hne) := by
  have hpos := List.length_pos_of_ne_nil hne
  have hlen := toNat_length h
  have hidx : (UInt64.ofNat buf.length - 1).toNat = buf.length - 1 := by
    rw [toNat_sub_one (by omega), hlen]
  rw [hidx, ← List.getLast?_eq_getElem?, List.getLast?_eq_some_getLast hne]

theorem Ustr.zero_suffix {buf : List UInt8} (hne : buf ≠ []) : [0] <:+ buf ↔ buf.getLast hne = 0 := by
  constructor
  · rintro ⟨chars, rfl⟩
    exact List.getLast_concat
  · intro h
    refine ⟨buf.dropLast, ?_⟩
    rw [← h]
    exact List.dropLast_append_getLast hne

theorem Ustr.ensureObj_eq {lib : Libc} {o : Obj 128} (hne : o.bytes ≠ []) (h : o.bytes.length < 2 ^ 63) :
    ensureObj lib o = some (if o.bytes.getLast hne ≠ 0 then o.appendBytes lib [0] else o) := by
  have hpos := List.length_pos_of_ne_nil hne
  simp only [ensureObj, if_neg (Nat.ne_of_gt hpos), last? hne h, Option.map_some]

/-- The size was 0 when the index was taken from it, as in `ensureTrailingZero_nil`. -/
theorem Ustr.ensureObj_nil {lib : Libc} {o : Obj 128} (h : o.bytes = []) : ensureObj lib o = none := by
  have happ : (o.appendBytes lib [0]).bytes = [0] := by
    rw [Obj.bytes_appendBytes, h]
    · rfl
    · rw [h]
      decide
  simp [ensureObj, h, happ]

theorem Ustr.cut_eq {a : List UInt8} (h : a.length + 4 < 2 ^ 62) :
    ∃ sz, Cls.ustr.cut (a ++ [0]) = some sz ∧ sz.toNat = a.length := by
  have hlen : (a ++ [(0 : UInt8)]).length = a.length + 1 := by simp
  have hnat : (UInt64.ofNat (a ++ [(0 : UInt8)]).length).toNat = a.length + 1 := by
    rw [toNat_length (by omega), hlen]
  have hpos : UInt64.ofNat (a ++ [(0 : UInt8)]).length > 0 := by
    rw [gt_iff_lt, UInt64.lt_iff_toNat_lt, hnat]
    exact Nat.succ_pos _
  have hne : a ++ [(0 : UInt8)] ≠ [] := List.append_ne_nil_of_right_ne_nil _ (List.cons_ne_nil _ _)
  have hlast := last? hne (by omega)
  rw [List.getLast_concat] at hlast
  refine ⟨_, if_pos ⟨hpos, hlast⟩, ?_⟩
  rw [toNat_sub_one (by omega), hnat, Nat.add_sub_cancel]

theorem Cls.lawful_ustr : Cls.ustr.Lawful where
  zero_ne := List.cons_ne_nil _ _
  short := by decide
  suffix := by
    intro buf h
    obtain ⟨chars, rfl⟩ := List.getLast?_eq_some_iff.mp h
    exact ⟨chars, rfl⟩
  concat _ _ := List.getLast?_concat
  same_length _ _ := List.getLast?_concat
  closed := by
    rintro a - ⟨chars, rfl⟩
    exact List.getLast?_concat
  zero_le_length := fun _ hne => List.length_pos_of_ne_nil hne
  cut_eq _ h := Ustr.cut_eq h
  ensure_closed := by
    intro lib o h hlen
    have hne : o.bytes ≠ [] := by
      intro h0
      rw [h0] at h
      cases h
    have hzero : o.bytes.getLast hne = 0 :=
      Option.some.inj ((List.getLast?_eq_some_getLast hne).symm.trans h)
    exact (Ustr.ensureObj_eq hne (by omega)).trans (congrArg some (if_neg (not_not.mpr hzero)))
  ensure_open := by
    intro lib o _ hne hzero hlen
    have hchar : o.bytes.getLast hne ≠ 0 := mt (Ustr.zero_suffix hne).mpr hzero
    exact (Ustr.ensureObj_eq hne (by omega)).trans (congrArg some (if_pos hchar))

theorem strncmpEq_eq {a b : List UInt8} (ha : 0 ∉ a) (hb : 0 ∉ b) :
    strncmpEq (a ++ [0]) (b ++ [0]) (a ++ [0]).length = some (decide (a = b)) := by
  induction a generalizing b with
  | nil =>
    cases b with
    | nil => rfl
    | cons c b =>
      have hc : 0 ≠ c := fun h => hb (h ▸ List.mem_cons_self)
      exact if_pos hc
  | cons c a ih =>
    have hc : c ≠ 0 := fun h => ha (h ▸ List.mem_cons_self)
    cases b with
    | nil => exact if_pos hc
    | cons d b =>
      have hrest := ih (fun h => ha (List.mem_cons_of_mem _ h)) (fun h => hb (List.mem_cons_of_mem _ h))
      by_cases hcd : c = d
      · subst hcd
        rw [List.cons_append, List.cons_append, List.length_cons, strncmpEq, if_neg (not_not.mpr rfl),
          if_neg hc, hrest]
        simp
      · rw [List.cons_append, List.cons_append, List.length_cons, strncmpEq, if_pos hcd,
          decide_eq_false fun h => hcd (List.cons.inj h).1]

/-! ## `str` -/

theorem Str.char?_last {buf : List UInt8} (h4 : 4 ≤ buf.length) (hmod : buf.length % 4 = 0) {i : UInt64}
    (hi : i.toNat = buf.length / 4 - 1) : char? buf i = some (buf.drop (buf.length - 4)) := by
  have hfour : 4 * i.toNat = buf.length - 4 := by omega
  rw [char?, hfour, if_pos (by omega), List.take_of_length_le]
  rw [List.length_drop]
  omega

theorem Str.zero_suffix {buf : List UInt8} (h4 : 4 ≤ buf.length) :
    zero <:+ buf ↔ buf.drop (buf.length - 4) = zero := by
  constructor
  · rintro ⟨chars, rfl⟩
    rw [List.length_append, length_zero, Nat.add_sub_cancel, List.drop_left' rfl]
  · intro h
    rw [← h]
    exact List.drop_suffix _ _

theorem Str.ensureObj_eq {lib : Libc} {o : Obj 512} (h4 : 4 ≤ o.bytes.length)
    (hmod : o.bytes.length % 4 = 0) (h : o.bytes.length < 2 ^ 63) :
    ensureObj lib o = some (if ¬ zero <:+ o.bytes then o.appendBytes lib zero else o) := by
  have h0 : ¬ o.bytes.length = 0 := by omega
  have hidx : (UInt64.ofNat o.bytes.length / 4 - 1).toNat = o.bytes.length / 4 - 1 := by
    have hdiv : (UInt64.ofNat o.bytes.length / 4).toNat = o.bytes.length / 4 := by
      rw [UInt64.toNat_div, toNat_length h]
      rfl
    rw [toNat_sub_one (by omega), hdiv]
  simp only [ensureObj, if_neg h0, char?_last h4 hmod hidx, Option.map_some, zero_suffix h4]

theorem Str.ensureObj_nil {lib : Libc} {o : Obj 512} (h : o.bytes = []) :
    ∃ o', ensureObj lib o = some o' ∧ o'.bytes = zero := by
  refine ⟨o.appendBytes lib zero, ?_, ?_⟩
  · rw [ensureObj, h]
    rfl
  · rw [Obj.bytes_appendBytes, h]
    · rfl
    · rw [h]
      decide

theorem Str.cut_eq {a : List UInt8} (hwf : WellFormed (a ++ zero)) (h : a.length + 4 < 2 ^ 62) :
    ∃ sz, Cls.str.cut (a ++ zero) = some sz ∧ sz.toNat = a.length := by
  have hlen : (a ++ zero).length = a.length + 4 := by rw [List.length_append, length_zero]
  have hmod := hwf.1
  have hsize : (size (a ++ zero)).toNat = (a ++ zero).length / 4 - 1 := by
    have hdiv : (UInt64.ofNat (a ++ zero).length / 4).toNat = (a ++ zero).length / 4 := by
      rw [UInt64.toNat_div, toNat_length (by omega)]
      rfl
    rw [size, if_neg (by omega), toNat_sub_one (by omega), hdiv]
  have hchar := char?_last (by omega) hmod hsize
  rw [(zero_suffix (by omega)).mp hwf.2] at hchar
  refine ⟨_, if_pos ⟨by omega, hchar⟩, ?_⟩
  rw [toNat_mul_four (by omega), hsize]
  omega

theorem Str.wellFormed_append {a : List UInt8} : WellFormed (a ++ zero) ↔ a.length % 4 = 0 := by
  rw [WellFormed, List.length_append, length_zero, Nat.add_mod_right]
  exact and_iff_left (List.suffix_append _ _)

theorem Cls.lawful_str : Cls.str.Lawful where
  zero_ne := List.cons_ne_nil _ _
  short := by decide
  suffix h := h.2
  concat := by
    intro a b ha hb
    have hmod := Str.wellFormed_append.mp ha
    have hmod' := Str.wellFormed_append.mp hb
    refine Str.wellFormed_append.mpr ?_
    rw [List.length_append]
    omega
  same_length := by
    intro a b ha hlen
    have hmod := Str.wellFormed_append.mp ha
    exact Str.wellFormed_append.mpr (hlen ▸ hmod)
  closed ha hzero := ⟨Str.wellFormed_append.mp ha, hzero⟩
  zero_le_length := by
    intro a ha hne
    have hmod := Str.wellFormed_append.mp ha
    have hpos := List.length_pos_of_ne_nil hne
    change 4 ≤ a.length
    omega
  cut_eq := Str.cut_eq
  ensure_closed := by
    intro lib o h hlen
    exact (Str.ensureObj_eq h.2.length_le h.1 (by omega)).trans
      (congrArg some (if_neg (not_not.mpr h.2)))
  ensure_open := by
    intro lib o h hne hzero hlen
    have hmod := Str.wellFormed_append.mp h
    have hpos := List.length_pos_of_ne_nil hne
    exact (Str.ensureObj_eq (by omega) hmod (by omega)).trans (congrArg some (if_pos hzero))

/-- Whole characters are none, or one and the others. -/
theorem Str.whole_cases {a : List UInt8} (h : a.length % 4 = 0) :
    a = [] ∨ ∃ a₁ a₂ a₃ a₄ as, a = a₁ :: a₂ :: a₃ :: a₄ :: as ∧ as.length % 4 = 0 := by
  match a, h with
  | [], _ => exact Or.inl rfl
  | a₁ :: a₂ :: a₃ :: a₄ :: as, h =>
    refine Or.inr ⟨a₁, a₂, a₃, a₄, as, rfl, ?_⟩
    simp only [List.length_cons] at h
    omega

theorem wcscmpEq_eq {n : Nat} : ∀ {a b : List UInt8}, a.length = 4 * n → b.length % 4 = 0 →
    Str.Plain a → Str.Plain b → wcscmpEq (a ++ Str.zero) (b ++ Str.zero) = some (decide (a = b)) := by
  induction n with
  | zero =>
    intro a b ha hb _ hpb
    cases List.length_eq_zero_iff.mp ha
    rcases Str.whole_cases hb with rfl | ⟨b₁, b₂, b₃, b₄, bs, rfl, -⟩
    · rfl
    · exact if_pos hpb.1.symm
  | succ n ih =>
    intro a b ha hb hpa hpb
    rcases Str.whole_cases (show a.length % 4 = 0 by omega) with rfl | ⟨a₁, a₂, a₃, a₄, as, rfl, -⟩
    · cases ha
    rcases Str.whole_cases hb with rfl | ⟨b₁, b₂, b₃, b₄, bs, rfl, hbs⟩
    · exact if_pos hpa.1
    · simp only [List.length_cons] at ha
      have hrest := ih (by omega) hbs hpa.2 hpb.2
      by_cases hchar : [a₁, a₂, a₃, a₄] = [b₁, b₂, b₃, b₄]
      · cases hchar
        simp only [List.cons_append, wcscmpEq, if_neg (not_not.mpr rfl), if_neg hpa.1, hrest]
        simp
      · simp only [List.cons_append, wcscmpEq]
        rw [if_pos hchar, decide_eq_false]
        intro h
        simp only [List.cons.injEq] at h
        obtain ⟨rfl, rfl, rfl, rfl, -⟩ := h
        exact hchar rfl

/-! ## The laws -/

namespace Cls

variable {ι : Type} [DecidableEq ι]

theorem ustr_appends_iff (σ : ι → Cls.ustr.Text) (i j : ι) : Cls.ustr.Appends σ i j ↔
    i ≠ j ∨ (σ i).chars ≠ [] ∧ (σ i).onHeap = false ∧ ¬ [0] <:+ (σ i).chars := by
  by_cases hij : i = j
  · subst hij
    by_cases hne : (σ i).chars = []
    · refine iff_of_false (fun h => ?_) (by rintro (h | h); exacts [h rfl, h.1 hne])
      obtain ⟨o', ho', -⟩ := appends_iff.mp h Libc.c
      obtain ⟨o, ho, hself⟩ := @Lawful.addAssign_nil Libc.c Cls.ustr lawful_ustr (σ i) hne
      rw [decide_eq_true rfl, hself] at ho'
      cases (Ustr.ensureObj_nil ho).symm.trans ho'
    · exact (lawful_ustr.appends_self hne).trans
        ⟨fun h => Or.inr ⟨hne, h⟩, fun h => (h.resolve_left fun hn => hn rfl).2⟩
  · exact iff_of_true (lawful_ustr.appends_other hij) (Or.inl hij)

theorem str_appends_iff (σ : ι → Cls.str.Text) (i j : ι) : Cls.str.Appends σ i j ↔
    i ≠ j ∨ (σ i).chars = [] ∨ (σ i).onHeap = false ∧ ¬ Str.zero <:+ (σ i).chars := by
  by_cases hij : i = j
  · subst hij
    by_cases hne : (σ i).chars = []
    · refine iff_of_true (appends_iff.mpr fun lib => ?_) (Or.inr (Or.inl hne))
      obtain ⟨o, ho, hself⟩ := @Lawful.addAssign_nil lib Cls.str lawful_str (σ i) hne
      obtain ⟨o', ho', hbytes⟩ := @Str.ensureObj_nil lib o ho
      rw [decide_eq_true rfl, hself, hne]
      refine ⟨o', ho', hbytes, ?_⟩
      rw [hbytes]
      exact ⟨rfl, [], rfl⟩
    · exact (lawful_str.appends_self hne).trans
        ⟨fun h => Or.inr (Or.inr h), fun h => (h.resolve_left fun hn => hn rfl).resolve_left hne⟩
  · exact iff_of_true (lawful_str.appends_other hij) (Or.inl hij)

theorem ustr_compares (a b : Cls.ustr.Text) : Cls.ustr.Compares a b := by
  intro ha hb
  rw [a.bytes_eq lawful_ustr, b.bytes_eq lawful_ustr]
  exact strncmpEq_eq ha hb

theorem str_compares (a b : Cls.str.Text) : Cls.str.Compares a b := by
  intro ha hb
  have hmod := Str.wellFormed_append.mp (a.wellFormed_chars lawful_str)
  have hmod' := Str.wellFormed_append.mp (b.wellFormed_chars lawful_str)
  rw [a.bytes_eq lawful_str, b.bytes_eq lawful_str]
  exact wcscmpEq_eq (Nat.eq_mul_of_div_eq_right (Nat.dvd_of_mod_eq_zero hmod) rfl) hmod' ha hb

/-- **When `a += b` appends**, and that `+` and `==` always are what they should be. One object
    must be in its own area still, and have a last character that the terminator is not mistaken
    for. -/
theorem append_laws :
    (∀ (σ : ι → Cls.ustr.Text) (i j : ι), Cls.ustr.Appends σ i j ↔
      i ≠ j ∨ (σ i).chars ≠ [] ∧ (σ i).onHeap = false ∧ ¬ [0] <:+ (σ i).chars) ∧
    (∀ (σ : ι → Cls.str.Text) (i j : ι), Cls.str.Appends σ i j ↔
      i ≠ j ∨ (σ i).chars = [] ∨ (σ i).onHeap = false ∧ ¬ Str.zero <:+ (σ i).chars) ∧
    (∀ a b c : Cls.ustr.Text, Cls.ustr.Associates a b c) ∧
    (∀ a b c : Cls.str.Text, Cls.str.Associates a b c) ∧
    (∀ a b : Cls.ustr.Text, Cls.ustr.Compares a b) ∧
    ∀ a b : Cls.str.Text, Cls.str.Compares a b :=
  ⟨ustr_appends_iff, str_appends_iff, lawful_ustr.associates, lawful_str.associates, ustr_compares,
    str_compares⟩

/-- 128 times "a". With the terminator it is a byte too long for the preallocated area. -/
def long : Cls.ustr.Text where
  bytes := List.replicate 128 97 ++ [0]
  onHeap := true
  fits h := Bool.noConfusion h
  wellFormed := List.getLast?_concat
  small := by
    rw [InMemory, List.length_append, List.length_replicate]
    decide

/-- It is not appended to itself. -/
theorem append_fails : ¬ Cls.ustr.Appends (fun _ : Unit => long) () () := by
  intro h
  have hlong := (ustr_appends_iff _ _ _).mp h
  rcases hlong with hne | ⟨-, hheap, -⟩
  · exact hne rfl
  · cases hheap

end Cls

end Strings

end CodeSLoop
