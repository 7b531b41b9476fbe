import CodeSLoop.Common.StringsTerminated
import Mathlib.Data.List.DropRight

/-!
# Searching strings, and cutting them (`common/str.cc`, `common/str.hh`, `common/ustr.cc`, `common/ustr.hh`)

`rfind` goes down an unsigned number and asks whether it is still `>= 0`, which every unsigned
number is. So the character has to be there: the search for one that is not goes on before the
start of the buffer (`rfind_iff`).

`trim` finds where the characters start that are no white space, and how many there are, in one
pass: the first of them is where it starts, and the later ones make it longer. With less than two
the length stays 0. `substr` adds start and length as numbers of 64 bits, and leaves the end of
the string to `ensure_trailing_zero()`. When both are right all the same is `cuts_trims_iff`.
-/

namespace CodeSLoop

open Bytes Codec

namespace Strings

universe u

/-- "Constant for find: not found". -/
def npos : UInt64 := 0xFFFFFFFF

/-! ## The loops -/

section Loops

variable {γ : Type u} [DecidableEq γ]

/-- How a search ends. `outside` is a look outside of the buffer. -/
inductive Found
  | pos (p : UInt64)
  | outside
deriving DecidableEq

/-- The loop of `rfind`, cut off after so many turns. -/
def rfindLoop (look : UInt64 → Option γ) (c : γ) : Nat → UInt64 → Option Found
  | 0, _ => none
  | fuel + 1, pos =>
    if pos ≥ 0 then
      match look pos with
      | none => some .outside
      | some x => if x = c then some (.pos pos) else rfindLoop look c fuel (pos - 1)
    else some (.pos npos)

/-- The loop of `trim` from `pos` on, with the characters that are left. -/
def trimLoop (space : γ → Bool) : List γ → (pos start length : UInt64) → UInt64 × UInt64
  | [], _, start, length => (start, length)
  | x :: xs, pos, start, length =>
    if start = npos ∧ ¬ space x then trimLoop space xs (pos + 1) pos length
    else if start ≠ npos ∧ ¬ space x then trimLoop space xs (pos + 1) start (pos - start + 1)
    else trimLoop space xs (pos + 1) start length

/-- What `rfind` is to return: the last index of the character, or that it is not there. -/
def IsLast (ls : List γ) (c : γ) (r : UInt64) : Prop :=
  (ls[r.toNat]? = some c ∧ ∀ i, r.toNat < i → ls[i]? ≠ some c) ∨ (c ∉ ls ∧ r = npos)

/-- `trim` of the characters: without the white space at both ends. -/
def trimmed (space : γ → Bool) (ls : List γ) : List γ := (ls.dropWhile space).rdropWhile space

end Loops

/-! ## `ustr` -/

namespace Ustr

/-- `rfind(c)`. -/
def rfind (buf : List UInt8) (c : UInt8) (fuel : Nat) : Option Found :=
  rfindLoop (fun p => buf[p.toNat]?) c fuel (size buf - 1)

/-- `trim()`, where `isspace` is the C library's. The characters that it looks at are those before
    `size()`. -/
def trim (lib : Libc) (isspace : UInt8 → Bool) (buf : List UInt8) : Except StrExc (Option (List UInt8)) :=
  let r := trimLoop isspace (buf.take (size buf).toNat) 0 npos 0
  substr lib buf r.1 r.2

end Ustr

/-! ## `str` -/

namespace Str

/-- The wide characters in the bytes. -/
def letters : List UInt8 → List (List UInt8)
  | a₁ :: a₂ :: a₃ :: a₄ :: as => [a₁, a₂, a₃, a₄] :: letters as
  | _ => []

/-- `rfind(c)`. -/
def rfind (buf c : List UInt8) (fuel : Nat) : Option Found := rfindLoop (char? buf) c fuel (size buf - 1)

/-- `THRR` of `substr`: with exceptions turned off the new string is returned as it is. -/
def cut (lib : Libc) (useExc : Bool) (buf : List UInt8) (start length : UInt64) :
    Except StrExc (Option (List UInt8)) :=
  match substr lib buf start length with
  | .error e => if useExc then .error e else .ok (some zero)
  | .ok r => .ok r

/-- `trim()`, where `iswspace` is the C library's. -/
def trim (lib : Libc) (useExc : Bool) (iswspace : List UInt8 → Bool) (buf : List UInt8) :
    Except StrExc (Option (List UInt8)) :=
  let r := trimLoop iswspace ((letters buf).take (size buf).toNat) 0 npos 0
  cut lib useExc buf r.1 r.2

end Str

/-! ## What the loops do -/

section Loops

variable {γ : Type u} [DecidableEq γ] {look : UInt64 → Option γ} {ls : List γ} {c : γ}

/-- The last index of a character that is there. -/
theorem exists_last (h : c ∈ ls) : ∃ k : Nat, ls[k]? = some c ∧ ∀ i, k < i → ls[i]? ≠ some c := by
  induction ls with
  | nil => cases h
  | cons x ls ih =>
    by_cases hls : c ∈ ls
    · obtain ⟨k, hk, hlast⟩ := ih hls
      refine ⟨k + 1, hk, fun i hi => ?_⟩
      obtain ⟨i, rfl⟩ := Nat.exists_eq_add_of_lt hi
      exact hlast _ (by omega)
    · cases (List.mem_cons.mp h).resolve_right hls
      refine ⟨0, rfl, fun i hi hc => hls ?_⟩
      obtain ⟨i, rfl⟩ := Nat.exists_eq_add_of_lt hi
      exact List.mem_of_getElem? hc

/-- Going down, the loop comes to the last one. -/
theorem rfindLoop_last (hlook : ∀ p : UInt64, p.toNat < ls.length → look p = ls[p.toNat]?) {k : UInt64}
    (hk : ls[k.toNat]? = some c) (hlast : ∀ i, k.toNat < i → ls[i]? ≠ some c) :
    ∀ {n fuel : Nat} {pos : UInt64}, pos.toNat = k.toNat + n → pos.toNat < ls.length →
      rfindLoop look c (fuel + n + 1) pos = some (.pos k) := by
  intro n
  induction n with
  | zero =>
    intro fuel pos hpos hlt
    cases UInt64.toNat_inj.mp hpos
    rw [rfindLoop, if_pos (UInt64.zero_le), hlook _ hlt, hk]
    exact if_pos rfl
  | succ n ih =>
    intro fuel pos hpos hlt
    have hsub : (pos - 1).toNat = pos.toNat - 1 := toNat_sub_one (by omega)
    have hne : ls[pos.toNat] ≠ c := by
      intro he
      refine hlast pos.toNat (by omega) ?_
      rw [List.getElem?_eq_getElem hlt, he]
    rw [rfindLoop, if_pos (UInt64.zero_le), hlook _ hlt, List.getElem?_eq_getElem hlt]
    exact (if_neg hne).trans (ih (by omega) (by omega))

/-- Without it, the loop ends before the start of the buffer or not at all. -/
theorem rfindLoop_absent (hlook : ∀ p : UInt64, p.toNat < ls.length → look p = ls[p.toNat]?)
    (hstart : look (-1) = none) (hc : c ∉ ls) : ∀ {fuel : Nat} {pos r : UInt64},
      pos.toNat < ls.length ∨ pos = -1 → rfindLoop look c fuel pos ≠ some (.pos r) := by
  intro fuel
  induction fuel with
  | zero =>
    intro pos r hpos h
    cases h
  | succ fuel ih =>
    intro pos r hpos h
    rw [rfindLoop, if_pos UInt64.zero_le] at h
    rcases hpos with hlt | rfl
    · have hne : ls[pos.toNat] ≠ c := fun he => hc (he ▸ List.getElem_mem hlt)
      rw [hlook _ hlt, List.getElem?_eq_getElem hlt] at h
      simp only [if_neg hne] at h
      refine ih ?_ h
      by_cases h0 : pos = 0
      · exact Or.inr (by rw [h0]; rfl)
      · left
        have hpos : pos.toNat ≠ 0 := fun hz => h0 (UInt64.toNat_inj.mp hz)
        rw [toNat_sub_one (by omega)]
        omega
    · rw [hstart] at h
      cases h

/-- **The search**: it comes back with the last index exactly if there is one. -/
theorem rfindLoop_iff (hlook : ∀ p : UInt64, p.toNat < ls.length → look p = ls[p.toNat]?)
    (hstart : look (-1) = none) (hsmall : ls.length < 2 ^ 60) {size : UInt64}
    (hsize : size.toNat = ls.length) :
    (∃ n r, IsLast ls c r ∧ ∀ fuel, n ≤ fuel → rfindLoop look c fuel (size - 1) = some (.pos r)) ↔
      c ∈ ls := by
  constructor
  · rintro ⟨n, r, -, hr⟩
    by_contra hc
    refine rfindLoop_absent hlook hstart hc ?_ (hr n (Nat.le_refl _))
    by_cases h0 : ls.length = 0
    · right
      have hzero : size = 0 := UInt64.toNat_inj.mp (hsize.trans h0)
      rw [hzero]
      rfl
    · left
      rw [toNat_sub_one (by omega)]
      omega
  · intro hc
    obtain ⟨k, hk, hlast⟩ := exists_last hc
    have hlt : k < ls.length := (List.getElem?_eq_some_iff.mp hk).1
    have hnat : (UInt64.ofNat k).toNat = k :=
      UInt64.toNat_ofNat_of_lt' (Nat.lt_trans (Nat.lt_trans hlt hsmall) (by decide))
    have hsub : (size - 1).toNat = ls.length - 1 := by rw [toNat_sub_one (by omega), hsize]
    rw [← hnat] at hk hlast
    refine ⟨ls.length, UInt64.ofNat k, Or.inl ⟨hk, hlast⟩, fun fuel hfuel => ?_⟩
    obtain ⟨m, rfl⟩ : ∃ m, fuel = m + (ls.length - 1 - k) + 1 := ⟨fuel - (ls.length - k), by omega⟩
    exact rfindLoop_last hlook hk hlast (by omega) (by omega)

end Loops

/-! ## Wide characters -/

namespace Str

theorem length_letters : ∀ bs : List UInt8, (letters bs).length = bs.length / 4
  | a₁ :: a₂ :: a₃ :: a₄ :: as => by
    rw [letters, List.length_cons, length_letters as]
    simp only [List.length_cons]
    omega
  | [] | [_] | [_, _] | [_, _, _] => by simp [letters]

theorem letters_getElem? : ∀ (bs : List UInt8) (i : Nat),
    (letters bs)[i]? = if 4 * i + 4 ≤ bs.length then some ((bs.drop (4 * i)).take 4) else none
  | a₁ :: a₂ :: a₃ :: a₄ :: as, i => by
    cases i with
    | zero => simp [letters]
    | succ i =>
      have hle : 4 * (i + 1) + 4 ≤ as.length + 1 + 1 + 1 + 1 ↔ 4 * i + 4 ≤ as.length := by omega
      have hdrop : (a₁ :: a₂ :: a₃ :: a₄ :: as).drop (4 * (i + 1)) = as.drop (4 * i) := rfl
      rw [letters, List.getElem?_cons_succ, letters_getElem? as i, hdrop]
      simp only [List.length_cons, hle]
  | [], i | [_], i | [_, _], i | [_, _, _], i => by
    simp only [letters, List.getElem?_nil, List.length_cons, List.length_nil]
    rw [if_neg (by omega)]

/-- `data()[i]` is one of them before the terminator. -/
theorem char?_buf (s : Str) {i : UInt64} (h : i.toNat < (letters s.chars).length) :
    char? s.buf i = (letters s.chars)[i.toNat]? := by
  have hlen := s.length_buf
  rw [length_letters] at h
  have hle : 4 * i.toNat ≤ s.chars.length := by omega
  rw [letters_getElem?, char?, if_pos (by omega), if_pos (by omega), Xdrbuf.Str.buf,
    List.drop_append_of_le_length hle, List.take_append_of_le_length]
  rw [List.length_drop]
  omega

end Str

/-! ## `rfind` -/

/-- `rfind(c)` comes back, with the last index of the character or with `npos`. -/
def Ustr.FindsLast (s : Ustr) (c : UInt8) : Prop :=
  ∃ n r, IsLast s.chars c r ∧ ∀ fuel, n ≤ fuel → rfind s.buf c fuel = some (.pos r)

def Str.FindsLast (s : Str) (c : List UInt8) : Prop :=
  ∃ n r, IsLast (letters s.chars) c r ∧ ∀ fuel, n ≤ fuel → rfind s.buf c fuel = some (.pos r)

theorem Ustr.findsLast_iff (s : Ustr) (c : UInt8) : s.FindsLast c ↔ c ∈ s.chars := by
  have hsmall : s.chars.length + 1 < 2 ^ 60 := s.small
  refine rfindLoop_iff (fun p hp => ?_) ?_ (by omega) s.toNat_size_buf
  · rw [Xdrbuf.Ustr.buf, List.getElem?_append_left hp]
  · refine List.getElem?_eq_none ?_
    rw [s.length_buf, show (-1 : UInt64).toNat = 2 ^ 64 - 1 from rfl]
    omega

theorem Str.findsLast_iff (s : Str) (c : List UInt8) : s.FindsLast c ↔ c ∈ letters s.chars := by
  have hsmall : s.chars.length + 4 < 2 ^ 60 := s.small
  refine rfindLoop_iff (fun p hp => s.char?_buf hp) ?_ ?_ ?_
  · refine if_neg ?_
    rw [s.length_buf, show (-1 : UInt64).toNat = 2 ^ 64 - 1 from rfl]
    omega
  · rw [length_letters]
    omega
  · rw [s.toNat_size_buf, length_letters]

/-- **When `rfind` finds the last one**: when there is one. -/
theorem rfind_iff (s : Ustr) (c : UInt8) (t : Str) (d : List UInt8) :
    (s.FindsLast c ↔ c ∈ s.chars) ∧ (t.FindsLast d ↔ d ∈ Str.letters t.chars) :=
  ⟨Ustr.findsLast_iff s c, Str.findsLast_iff t d⟩

/-- "a", which has no "b" in it. -/
theorem rfind_fails : ¬ Ustr.FindsLast ⟨⟨[97], by decide⟩, by decide⟩ 98 := by
  rw [Ustr.findsLast_iff]
  decide

/-! ## `trim` -/

section Trim

variable {γ : Type u} {space : γ → Bool} {ls pre mid post : List γ} {x y : γ} {pos start length : UInt64}

theorem trimLoop_spaces (h : ∀ a ∈ post, space a = true) :
    trimLoop space post pos start length = (start, length) := by
  induction post generalizing pos with
  | nil => rfl
  | cons a post ih =>
    have ha : ¬ ¬ space a = true := not_not.mpr (h a List.mem_cons_self)
    rw [trimLoop, if_neg fun hs => ha hs.2, if_neg fun hs => ha hs.2]
    exact ih fun b hb => h b (List.mem_cons_of_mem _ hb)

/-- The first character that is no white space is where it starts. -/
theorem trimLoop_first (hpre : ∀ a ∈ pre, space a = true) (hx : ¬ space x = true) :
    trimLoop space (pre ++ x :: post) pos npos length =
      trimLoop space post (pos + UInt64.ofNat pre.length + 1) (pos + UInt64.ofNat pre.length) length := by
  induction pre generalizing pos with
  | nil =>
    rw [List.nil_append, trimLoop, if_pos ⟨rfl, hx⟩, List.length_nil]
    simp
  | cons a pre ih =>
    have ha : ¬ ¬ space a = true := not_not.mpr (hpre a List.mem_cons_self)
    have hpos : pos + 1 + UInt64.ofNat pre.length = pos + UInt64.ofNat (pre.length + 1) := by
      rw [UInt64.ofNat_add]
      grind
    rw [List.cons_append, trimLoop, if_neg fun hs => ha hs.2, if_neg fun hs => ha hs.2,
      ih fun b hb => hpre b (List.mem_cons_of_mem _ hb), hpos, List.length_cons]

/-- And the last one, behind it, is where it ends. -/
theorem trimLoop_last (hstart : start ≠ npos) (hy : ¬ space y = true) (hpost : ∀ a ∈ post, space a = true) :
    trimLoop space (mid ++ y :: post) pos start length =
      (start, pos + UInt64.ofNat mid.length - start + 1) := by
  induction mid generalizing pos length with
  | nil =>
    rw [List.nil_append, trimLoop, if_neg fun hs => hstart hs.1, if_pos ⟨hstart, hy⟩,
      trimLoop_spaces hpost, List.length_nil]
    simp
  | cons a mid ih =>
    have hpos : pos + 1 + UInt64.ofNat mid.length = pos + UInt64.ofNat (mid.length + 1) := by
      rw [UInt64.ofNat_add]
      grind
    rw [List.cons_append, trimLoop, if_neg fun hs => hstart hs.1]
    split
    · rw [ih, hpos, List.length_cons]
    · rw [ih, hpos, List.length_cons]

/-- The white space at both ends is told apart from what is between. -/
theorem trimmed_split (space : γ → Bool) (ls : List γ) : ∃ post,
    ls = ls.takeWhile space ++ trimmed space ls ++ post ∧ ∀ a ∈ post, space a = true := by
  refine ⟨(ls.dropWhile space).rtakeWhile space, ?_, fun a ha => List.mem_rtakeWhile_imp ha⟩
  rw [List.append_assoc, trimmed, List.rdropWhile_append_rtakeWhile, List.takeWhile_append_dropWhile]

theorem trimmed_cons (h : trimmed space ls = x :: mid) : ¬ space x = true := by
  obtain ⟨post, hpost⟩ := List.rdropWhile_prefix space (l := ls.dropWhile space)
  have hdrop : ls.dropWhile space = x :: (mid ++ post) := by
    rw [← hpost]
    exact congrArg (· ++ post) h
  have hne : ls.dropWhile space ≠ [] := by
    rw [hdrop]
    exact List.cons_ne_nil _ _
  have hhead := List.head_dropWhile_not space hne
  simp only [hdrop, List.head_cons] at hhead
  rw [hhead]
  exact Bool.false_ne_true

theorem trimmed_concat (h : trimmed space ls = mid ++ [y]) : ¬ space y = true := by
  have hne : (ls.dropWhile space).rdropWhile space ≠ [] := by
    intro h0
    have h0 : mid ++ [y] = [] := h.symm.trans h0
    cases List.append_eq_nil_iff.mp h0 with
    | intro _ h0 => cases h0
  have hlast := List.rdropWhile_last_not space (ls.dropWhile space) hne
  have hget : ((ls.dropWhile space).rdropWhile space).getLast hne = y := by
    have hlast? : ((ls.dropWhile space).rdropWhile space).getLast? = some y := by
      rw [show (ls.dropWhile space).rdropWhile space = mid ++ [y] from h, List.getLast?_concat]
    exact Option.some.inj ((List.getLast?_eq_some_getLast hne).symm.trans hlast?)
  rwa [hget] at hlast

theorem spaces_or (space : γ → Bool) (ls : List γ) : (∀ a ∈ ls, space a = true) ∨
    ∃ pre x post, ls = pre ++ x :: post ∧ (∀ a ∈ pre, space a = true) ∧ ¬ space x = true := by
  induction ls with
  | nil => exact Or.inl fun a ha => (by cases ha)
  | cons b ls ih =>
    by_cases hb : space b = true
    · rcases ih with hall | ⟨pre, x, post, rfl, hpre, hx⟩
      · exact Or.inl (List.forall_mem_cons.mpr ⟨hb, hall⟩)
      · exact Or.inr ⟨b :: pre, x, post, rfl, List.forall_mem_cons.mpr ⟨hb, hpre⟩, hx⟩
    · exact Or.inr ⟨[], b, ls, rfl, fun a ha => (by cases ha), hb⟩

/-- When the first character is at `npos`, the next one is taken for it. -/
theorem trimLoop_npos (hsmall : mid.length < 2 ^ 60) (hy : ¬ space y = true)
    (hpost : ∀ a ∈ post, space a = true) :
    (trimLoop space (mid ++ y :: post) (npos + 1) npos 0).1.toNat ≤ 2 ^ 32 + mid.length ∧
      (trimLoop space (mid ++ y :: post) (npos + 1) npos 0).2.toNat < mid.length + 2 := by
  have hstart (n : Nat) (hn : n < 2 ^ 60) : (npos + 1 + UInt64.ofNat n).toNat = 2 ^ 32 + n := by
    rw [UInt64.toNat_add, UInt64.toNat_ofNat', show (npos + 1).toNat = 2 ^ 32 from rfl]
    omega
  rcases spaces_or space mid with hmid | ⟨pre, z, mid, rfl, hpre, hz⟩
  · rw [trimLoop_first hmid hy, trimLoop_spaces hpost, hstart _ hsmall]
    exact ⟨Nat.le_refl _, Nat.succ_pos _⟩
  · rw [List.length_append, List.length_cons] at hsmall ⊢
    have hpos := hstart pre.length (by omega)
    have hne : npos + 1 + UInt64.ofNat pre.length ≠ npos := by
      intro h0
      rw [h0, show npos.toNat = 2 ^ 32 - 1 from rfl] at hpos
      omega
    have hlen : npos + 1 + UInt64.ofNat pre.length + 1 + UInt64.ofNat mid.length -
        (npos + 1 + UInt64.ofNat pre.length) + 1 = UInt64.ofNat (mid.length + 2) := by
      rw [UInt64.ofNat_add]
      grind
    rw [List.append_assoc, List.cons_append, trimLoop_first hpre hz, trimLoop_last hne hy hpost, hpos,
      hlen, UInt64.toNat_ofNat']
    omega

/-- **What the pass finds**: nothing; or too little; or where the characters are. -/
theorem trimLoop_cases (space : γ → Bool) (ls : List γ) (hsmall : ls.length < 2 ^ 60) :
    (trimmed space ls = [] ∧ trimLoop space ls 0 npos 0 = (npos, 0)) ∨
    (trimmed space ls ≠ [] ∧
      ¬ (2 ≤ (trimmed space ls).length ∧ (ls.takeWhile space).length ≠ 2 ^ 32 - 1) ∧
      (trimLoop space ls 0 npos 0).1.toNat ≤ ls.length ∧
      (trimLoop space ls 0 npos 0).2.toNat < (trimmed space ls).length) ∨
    ((2 ≤ (trimmed space ls).length ∧ (ls.takeWhile space).length ≠ 2 ^ 32 - 1) ∧
      (trimLoop space ls 0 npos 0).1.toNat = (ls.takeWhile space).length ∧
      (trimLoop space ls 0 npos 0).2.toNat = (trimmed space ls).length) := by
  obtain ⟨post, hls, hpost⟩ := trimmed_split space ls
  have hpre : ∀ a ∈ ls.takeWhile space, space a = true := fun a ha => List.mem_takeWhile_imp ha
  have hlength := congrArg List.length hls
  rw [List.length_append, List.length_append] at hlength
  rcases htrim : trimmed space ls with _ | ⟨x, t⟩
  · have hall : ∀ a ∈ ls, space a = true := by
      intro a ha
      rw [hls, htrim, List.append_nil] at ha
      exact (List.mem_append.mp ha).elim (hpre a) (hpost a)
    exact Or.inl ⟨rfl, trimLoop_spaces hall⟩
  rw [htrim] at hlength
  have hx := trimmed_cons htrim
  have hfirst : trimLoop space ls 0 npos 0 = trimLoop space (t ++ post)
      (UInt64.ofNat (ls.takeWhile space).length + 1) (UInt64.ofNat (ls.takeWhile space).length) 0 := by
    have h := @trimLoop_first γ space (ls.takeWhile space) (t ++ post) x 0 0 hpre hx
    rw [UInt64.zero_add, ← List.cons_append, ← htrim, ← List.append_assoc, ← hls] at h
    exact h
  have hstart : (UInt64.ofNat (ls.takeWhile space).length).toNat = (ls.takeWhile space).length := by
    rw [UInt64.toNat_ofNat', Nat.mod_eq_of_lt (by omega)]
  rw [hfirst]
  rcases List.eq_nil_or_concat' t with rfl | ⟨mid, y, rfl⟩
  · rw [List.nil_append, trimLoop_spaces hpost, hstart]
    refine Or.inr (Or.inl ⟨List.cons_ne_nil _ _, fun h => absurd h.1 (by simp), by omega, ?_⟩)
    exact Nat.succ_pos _
  · have hy := @trimmed_concat γ space ls (x :: mid) y htrim
    simp only [List.length_cons, List.length_append, List.length_nil] at hlength ⊢
    rw [List.append_assoc, List.singleton_append]
    by_cases hn : (ls.takeWhile space).length = 2 ^ 32 - 1
    · have h := @trimLoop_npos γ space mid post y (by omega) hy hpost
      rw [hn, show UInt64.ofNat (2 ^ 32 - 1) = npos from rfl]
      exact Or.inr (Or.inl ⟨List.cons_ne_nil _ _, fun h => h.2 rfl, by omega, by omega⟩)
    · have hne : UInt64.ofNat (ls.takeWhile space).length ≠ npos := by
        intro h0
        rw [h0, show npos.toNat = 2 ^ 32 - 1 from rfl] at hstart
        exact hn hstart.symm
      have hlen : UInt64.ofNat (ls.takeWhile space).length + 1 + UInt64.ofNat mid.length -
          UInt64.ofNat (ls.takeWhile space).length + 1 = UInt64.ofNat (mid.length + 2) := by
        rw [UInt64.ofNat_add]
        grind
      have hnat : (UInt64.ofNat (mid.length + 2)).toNat = mid.length + 2 := by
        rw [UInt64.toNat_ofNat', Nat.mod_eq_of_lt (by omega)]
      rw [trimLoop_last hne hy hpost, hlen]
      exact Or.inr (Or.inr ⟨⟨by omega, hn⟩, hstart, hnat.trans (by omega)⟩)

end Trim

/-! ## `substr` -/

section Substr

variable {lib : Libc} {start length : UInt64}

/-- What a `substr` that starts in the string has: nothing that it looks at when there is nothing to
    copy, and nothing at all when the sum is more than 64 bits. -/
theorem Ustr.substr_eq (s : Ustr) (hstart : start.toNat ≤ s.chars.length) :
    substr lib s.buf start length = .ok (
      if start.toNat + length.toNat < 2 ^ 64 then
        if (s.chars.drop start.toNat).take length.toNat = [] then none
        else some (Xdrbuf.ustrEnsureTrailingZero ((s.chars.drop start.toNat).take length.toNat))
      else some [0]) := by
  have hsize := s.toNat_size_buf
  have hsmall : s.chars.length + 1 < 2 ^ 60 := s.small
  have hlen := s.length_buf
  have hle : ¬ start > size s.buf := by
    rw [gt_iff_lt, UInt64.lt_iff_toNat_lt, hsize]
    omega
  have hpiece : ((s.chars.drop start.toNat).take length.toNat).length =
      min length.toNat (s.chars.length - start.toNat) := by
    rw [List.length_take, List.length_drop]
  rw [substr, if_neg hle]
  refine congrArg Except.ok ?_
  rcases @fitIn_cases (size s.buf) start length (by omega) (by omega) with
    ⟨hwrap, hfit⟩ | ⟨hwrap, hfit⟩
  · rw [if_pos hwrap]
    by_cases h0 : fitIn (size s.buf) start length = 0
    · rw [h0, UInt64.toNat_zero] at hfit
      rw [h0, set, if_pos rfl, Option.bind_some, ensureTrailingZero_nil,
        if_pos (List.length_eq_zero_iff.mp (by omega))]
    · have hpos : (fitIn (size s.buf) start length).toNat ≠ 0 := fun hz => h0 (UInt64.toNat_inj.mp hz)
      have hne : (s.chars.drop start.toNat).take length.toNat ≠ [] := by
        rw [← List.length_pos_iff]
        omega
      have htake : (s.buf.drop start.toNat).take (fitIn (size s.buf) start length).toNat =
          (s.chars.drop start.toNat).take length.toNat := by
        have hdrop : s.buf.drop start.toNat = s.chars.drop start.toNat ++ [0] :=
          List.drop_append_of_le_length hstart
        rw [hfit, hsize, hdrop, ← List.length_drop, List.take_append_of_le_length (Nat.min_le_right _ _),
          ← List.take_eq_take_min]
      have hdrop : (s.buf.drop start.toNat).length = s.chars.length + 1 - start.toNat := by
        rw [List.length_drop, hlen]
      rw [set_eq h0 (by omega) (by omega), Option.bind_some, htake, if_neg hne,
        ensureTrailingZero_eq hne (by omega)]
  · rw [if_neg (by omega), hfit, set_refused (by decide) (by omega), Option.bind_some,
      ensureTrailingZero_eq (List.cons_ne_nil _ _) (by decide)]
    rfl

namespace Str

theorem letters_drop (bs : List UInt8) (k : Nat) : letters (bs.drop (4 * k)) = (letters bs).drop k := by
  refine List.ext_getElem? fun i => ?_
  rw [List.getElem?_drop, letters_getElem?, letters_getElem?, List.drop_drop, List.length_drop,
    Nat.mul_add]
  by_cases h : 4 * k + 4 * i + 4 ≤ bs.length
  · rw [if_pos h, if_pos (by omega)]
  · rw [if_neg h, if_neg (by omega)]

theorem letters_take (bs : List UInt8) (k : Nat) : letters (bs.take (4 * k)) = (letters bs).take k := by
  refine List.ext_getElem? fun i => ?_
  rw [List.getElem?_take, letters_getElem?, letters_getElem?, List.length_take]
  by_cases hi : i < k
  · have hmin : min 4 (4 * k - 4 * i) = 4 := by omega
    rw [if_pos hi, List.drop_take, List.take_take, hmin]
    by_cases h : 4 * i + 4 ≤ bs.length
    · rw [if_pos h, if_pos (by omega)]
    · rw [if_neg h, if_neg (by omega)]
  · rw [if_neg hi, if_neg (by omega)]

theorem flatten_letters : ∀ {bs : List UInt8}, bs.length % 4 = 0 → (letters bs).flatten = bs
  | [], _ => rfl
  | a₁ :: a₂ :: a₃ :: a₄ :: as, h => by
    simp only [List.length_cons] at h
    rw [letters, List.flatten_cons, @flatten_letters as (by omega)]
    rfl

theorem length_of_mem_letters : ∀ {bs : List UInt8} {a : List UInt8}, a ∈ letters bs → a.length = 4
  | a₁ :: a₂ :: a₃ :: a₄ :: as, a, h => by
    rcases List.mem_cons.mp h with rfl | h
    · rfl
    · exact length_of_mem_letters h

/-- What is made up of some of them is four bytes for each. -/
theorem length_flatten_letters {bs : List UInt8} {ls : List (List UInt8)} (h : ls ⊆ letters bs) :
    ls.flatten.length = 4 * ls.length := by
  induction ls with
  | nil => rfl
  | cons a ls ih =>
    rw [List.flatten_cons, List.length_append, length_of_mem_letters (h List.mem_cons_self),
      ih (List.subset_of_cons_subset h), List.length_cons]
    omega

/-- The last one is looked at. -/
theorem ensure_letters {bs : List UInt8} (hne : bs ≠ []) (hmod : bs.length % 4 = 0) (stray : Bool) :
    Xdrbuf.strEnsureTrailingZero stray bs =
      if (letters bs).getLast? = some zero then bs else bs ++ zero := by
  have hpos := List.length_pos_of_ne_nil hne
  have hlast : (letters bs).getLast? = some ((bs.drop (4 * (bs.length / 4 - 1))).take 4) := by
    rw [List.getLast?_eq_getElem?, length_letters, letters_getElem?, if_pos (by omega)]
  rw [Xdrbuf.strEnsureTrailingZero, if_neg hne, if_neg (by omega), hlast]
  simp only [Option.some.injEq, ne_eq, ite_not]
  rfl

/-- The characters of a piece. -/
def piece (s : Str) (start length : UInt64) : List (List UInt8) :=
  ((letters s.chars).drop start.toNat).take length.toNat

theorem piece_subset (s : Str) (start length : UInt64) : piece s start length ⊆ letters s.chars :=
  fun _ ha => List.mem_of_mem_drop (List.mem_of_mem_take ha)

theorem piece_eq (s : Str) (start length : UInt64) : piece s start length =
    letters ((s.chars.drop (4 * start.toNat)).take (4 * length.toNat)) := by
  rw [piece, letters_take, letters_drop]

/-- In bytes, the characters of a piece are whole. -/
theorem whole_piece (s : Str) (start length : UInt64) :
    ((s.chars.drop (4 * start.toNat)).take (4 * length.toNat)).length % 4 = 0 := by
  have hwhole := s.whole
  rw [List.length_take, List.length_drop]
  omega

theorem flatten_piece_nil (s : Str) {start length : UInt64} :
    (piece s start length).flatten = [] ↔ piece s start length = [] := by
  constructor
  · intro h
    rw [piece_eq, flatten_letters (s.whole_piece start length)] at h
    rw [piece_eq, h]
    rfl
  · intro h
    rw [h]
    rfl

/-- What a `substr` that starts in the string has. -/
theorem substr_eq (s : Str) (hstart : start.toNat ≤ (letters s.chars).length) :
    substr lib s.buf start length = .ok (some (
      if start.toNat + length.toNat < 2 ^ 64 ∧ (piece s start length).getLast? = some zero then
        (piece s start length).flatten
      else if start.toNat + length.toNat < 2 ^ 64 then (piece s start length).flatten ++ zero
      else zero)) := by
  have hsize := s.toNat_size_buf
  have hsmall : s.chars.length + 4 < 2 ^ 60 := s.small
  have hwhole := s.whole
  have hlen := s.length_buf
  rw [length_letters] at hstart
  have hle : ¬ start > size s.buf := by
    rw [gt_iff_lt, UInt64.lt_iff_toNat_lt, hsize]
    omega
  rw [substr, if_neg hle]
  refine congrArg Except.ok ?_
  rcases @fitIn_cases (size s.buf) start length (by omega) (by omega) with
    ⟨hwrap, hfit⟩ | ⟨hwrap, hfit⟩
  · have hmul : (fitIn (size s.buf) start length * 4).toNat =
        4 * (fitIn (size s.buf) start length).toNat := toNat_mul_four (by omega)
    have hmod := s.whole_piece start length
    simp only [hwrap, true_and, if_true]
    rw [piece_eq, flatten_letters hmod]
    by_cases h0 : fitIn (size s.buf) start length * 4 = 0
    · have hnil : (s.chars.drop (4 * start.toNat)).take (4 * length.toNat) = [] := by
        rw [h0, UInt64.toNat_zero] at hmul
        rw [← List.length_eq_zero_iff, List.length_take, List.length_drop]
        omega
      rw [h0, set, if_pos rfl, Option.bind_some, ensureTrailingZero_nil, hnil]
      rfl
    · have hpos : (fitIn (size s.buf) start length * 4).toNat ≠ 0 := fun hz => h0 (UInt64.toNat_inj.mp hz)
      have hdrop : s.buf.drop (4 * start.toNat) = s.chars.drop (4 * start.toNat) ++ zero :=
        List.drop_append_of_le_length (by omega)
      have hbuf : (s.buf.drop (4 * start.toNat)).length = s.chars.length - 4 * start.toNat + 4 := by
        rw [hdrop, List.length_append, List.length_drop]
        rfl
      have htake : (s.buf.drop (4 * start.toNat)).take (fitIn (size s.buf) start length * 4).toNat =
          (s.chars.drop (4 * start.toNat)).take (4 * length.toNat) := by
        have hmin : 4 * min length.toNat ((size s.buf).toNat - start.toNat) =
            min (4 * length.toNat) (s.chars.drop (4 * start.toNat)).length := by
          rw [List.length_drop]
          omega
        rw [hmul, hfit, hmin, hdrop, List.take_append_of_le_length (Nat.min_le_right _ _),
          ← List.take_eq_take_min]
      have hlength : 4 ≤ ((s.chars.drop (4 * start.toNat)).take (4 * length.toNat)).length := by
        rw [List.length_take, List.length_drop]
        omega
      rw [set_eq h0 (by omega) (by omega), Option.bind_some, htake, ensureTrailingZero_eq hlength ?_ false,
        ensure_letters (List.ne_nil_of_length_pos (by omega)) hmod]
      rw [List.length_take, List.length_drop]
      omega
  · have hl := length.toNat_lt
    have hhuge : 2 ^ 63 ≤ (length * 4).toNat := by
      rw [UInt64.toNat_mul, show (4 : UInt64).toNat = 4 from rfl]
      omega
    have hnot : ¬ start.toNat + length.toNat < 2 ^ 64 := by omega
    simp only [hnot, false_and, if_false]
    rw [hfit, set_refused (by decide) hhuge, Option.bind_some,
      ensureTrailingZero_eq (by decide) (by decide) false]
    rfl

end Str

end Substr

/-- `substr(start,length)` is the characters from `start` on, so many as there are. -/
def Ustr.Cuts (s : Ustr) (start length : UInt64) : Prop :=
  ∀ lib, substr lib s.buf start length =
    .ok (some ((s.chars.drop start.toNat).take length.toNat ++ [0]))

def Str.Cuts (s : Str) (start length : UInt64) : Prop :=
  ∀ lib, substr lib s.buf start length = .ok (some ((piece s start length).flatten ++ zero))

/-- `trim()` is the characters without the white space at both ends. -/
def Ustr.Trims (isspace : UInt8 → Bool) (s : Ustr) : Prop :=
  ∀ lib, trim lib isspace s.buf = .ok (some (trimmed isspace s.chars ++ [0]))

def Str.Trims (useExc : Bool) (iswspace : List UInt8 → Bool) (s : Str) : Prop :=
  ∀ lib, trim lib useExc iswspace s.buf =
    .ok (some ((trimmed iswspace (letters s.chars)).flatten ++ zero))

section Results

variable {lib : Libc} {start length : UInt64}

/-- When the sum wraps, nothing is copied, and that is right when there was nothing to copy. -/
theorem take_drop_nil_iff {γ : Type u} {ls : List γ} (hsmall : ls.length < 2 ^ 60)
    (hle : start.toNat ≤ ls.length) (hwrap : 2 ^ 64 ≤ start.toNat + length.toNat) :
    (ls.drop start.toNat).take length.toNat = [] ↔ start.toNat = ls.length := by
  rw [← List.length_eq_zero_iff, List.length_take, List.length_drop]
  omega

theorem Ustr.substr_right_iff (s : Ustr) (hle : start.toNat ≤ s.chars.length) :
    substr lib s.buf start length = .ok (some ((s.chars.drop start.toNat).take length.toNat ++ [0])) ↔
      (start.toNat + length.toNat < 2 ^ 64 ∧ (s.chars.drop start.toNat).take length.toNat ≠ [] ∧
        ((s.chars.drop start.toNat).take length.toNat).getLast? ≠ some 0) ∨
      (2 ^ 64 ≤ start.toNat + length.toNat ∧ start.toNat = s.chars.length) := by
  have hsmall : s.chars.length + 1 < 2 ^ 60 := s.small
  rw [s.substr_eq hle, Except.ok.injEq]
  by_cases hwrap : start.toNat + length.toNat < 2 ^ 64
  · have hnot : ¬ 2 ^ 64 ≤ start.toNat + length.toNat := Nat.not_le_of_lt hwrap
    simp only [hwrap, hnot, if_true, true_and, false_and, or_false]
    by_cases hnil : (s.chars.drop start.toNat).take length.toNat = []
    · rw [if_pos hnil]
      exact iff_of_false (fun h => by cases h) fun h => h.1 hnil
    · rw [if_neg hnil, Option.some.injEq, Xdrbuf.ustrEnsureTrailingZero]
      split
      · rename_i hlast
        refine iff_of_false (fun h => ?_) fun h => h.2 hlast
        exact absurd (List.self_eq_append_right.mp h) (List.cons_ne_nil _ _)
      · rename_i hlast
        exact iff_of_true rfl ⟨hnil, hlast⟩
  · have hle' := Nat.le_of_not_lt hwrap
    simp only [hwrap, hle', if_false, true_and, false_and, false_or]
    rw [Option.some.injEq, List.self_eq_append_left, take_drop_nil_iff (by omega) hle hle']

theorem Str.substr_right_iff (s : Str) (hle : start.toNat ≤ (letters s.chars).length) :
    substr lib s.buf start length = .ok (some ((piece s start length).flatten ++ zero)) ↔
      (start.toNat + length.toNat < 2 ^ 64 ∧ (piece s start length).getLast? ≠ some zero) ∨
      (2 ^ 64 ≤ start.toNat + length.toNat ∧ start.toNat = (letters s.chars).length) := by
  have hsmall : s.chars.length + 4 < 2 ^ 60 := s.small
  have hlen := length_letters s.chars
  rw [s.substr_eq hle, Except.ok.injEq, Option.some.injEq]
  by_cases hwrap : start.toNat + length.toNat < 2 ^ 64
  · have hnot : ¬ 2 ^ 64 ≤ start.toNat + length.toNat := Nat.not_le_of_lt hwrap
    simp only [hwrap, hnot, if_true, true_and, false_and, or_false]
    split
    · rename_i hlast
      refine iff_of_false (fun h => ?_) fun h => h hlast
      exact absurd (List.self_eq_append_right.mp h) (List.cons_ne_nil _ _)
    · rename_i hlast
      exact iff_of_true rfl hlast
  · have hle' := Nat.le_of_not_lt hwrap
    simp only [hwrap, hle', if_false, true_and, false_and, false_or]
    rw [List.self_eq_append_left, s.flatten_piece_nil, piece, take_drop_nil_iff (by omega) hle hle']

/-- At least two characters that are no white space, the first of which is not at `npos`. -/
def Two {γ : Type u} (space : γ → Bool) (ls : List γ) : Prop :=
  2 ≤ (trimmed space ls).length ∧ (ls.takeWhile space).length ≠ 2 ^ 32 - 1

theorem trimmed_subset {γ : Type u} (space : γ → Bool) (ls : List γ) : trimmed space ls ⊆ ls := by
  obtain ⟨post, hls, -⟩ := trimmed_split space ls
  intro a ha
  rw [hls]
  exact List.mem_append_left _ (List.mem_append_right _ ha)

theorem drop_trimmed {γ : Type u} (space : γ → Bool) (ls : List γ) :
    (ls.drop (ls.takeWhile space).length).take (trimmed space ls).length = trimmed space ls := by
  obtain ⟨post, hls, -⟩ := trimmed_split space ls
  have hdrop : (ls.takeWhile space ++ (trimmed space ls ++ post)).drop (ls.takeWhile space).length =
      trimmed space ls ++ post := List.drop_left
  rw [← List.append_assoc, ← hls] at hdrop
  rw [hdrop, List.take_left]

theorem length_trimmed_le {γ : Type u} (space : γ → Bool) (ls : List γ) :
    (trimmed space ls).length ≤ ls.length := by
  rw [← drop_trimmed, List.length_take, List.length_drop]
  omega

theorem Two.ne_nil {γ : Type u} {space : γ → Bool} {ls : List γ} (h : Two space ls) :
    trimmed space ls ≠ [] := by
  rw [← List.length_pos_iff]
  exact Nat.lt_of_lt_of_le Nat.two_pos h.1

theorem Ustr.substr_error (s : Ustr) (h : s.chars.length < start.toNat) :
    substr lib s.buf start length = .error .rsInvalidParam := by
  refine if_pos ?_
  rwa [gt_iff_lt, UInt64.lt_iff_toNat_lt, s.toNat_size_buf]

theorem Str.substr_error (s : Str) (h : (letters s.chars).length < start.toNat) :
    substr lib s.buf start length = .error .rsInvalidParam := by
  refine if_pos ?_
  rwa [gt_iff_lt, UInt64.lt_iff_toNat_lt, s.toNat_size_buf, ← length_letters]

/-- A `substr` has at most the characters asked for, and the zero. -/
theorem Ustr.length_substr_le (s : Ustr) (hle : start.toNat ≤ s.chars.length) {r : List UInt8}
    (h : substr lib s.buf start length = .ok (some r)) : r.length ≤ length.toNat + 1 := by
  rw [s.substr_eq hle, Except.ok.injEq] at h
  split at h
  · split at h
    · cases h
    · rw [← Option.some.inj h]
      exact Nat.le_trans (length_ustrEnsureTrailingZero_le _)
        (Nat.succ_le_succ (List.length_take_le _ _))
  · rw [← Option.some.inj h]
    exact Nat.le_add_left _ _

/-- A `substr` that starts in the string does not fail, so turning exceptions off changes
    nothing. -/
theorem Str.cut_eq_substr (s : Str) {useExc : Bool} (hle : start.toNat ≤ (letters s.chars).length) :
    cut lib useExc s.buf start length = substr lib s.buf start length := by
  rw [cut, s.substr_eq hle]

theorem Str.length_substr_le (s : Str) (hle : start.toNat ≤ (letters s.chars).length) {r : List UInt8}
    (h : substr lib s.buf start length = .ok (some r)) : r.length ≤ 4 * length.toNat + 4 := by
  have hcopied : (piece s start length).flatten.length ≤ 4 * length.toNat := by
    rw [length_flatten_letters (s.piece_subset start length)]
    exact Nat.mul_le_mul_left 4 (List.length_take_le _ _)
  rw [s.substr_eq hle, Except.ok.injEq, Option.some.injEq] at h
  rw [← h]
  split
  · exact Nat.le_add_right_of_le hcopied
  · split
    · rw [List.length_append]
      exact Nat.add_le_add_right hcopied _
    · exact Nat.le_add_left _ _

theorem Ustr.trim_right_iff (isspace : UInt8 → Bool) (s : Ustr) :
    trim lib isspace s.buf = .ok (some (trimmed isspace s.chars ++ [0])) ↔
      Two isspace s.chars ∧ (trimmed isspace s.chars).getLast? ≠ some 0 := by
  have hsmall : s.chars.length + 1 < 2 ^ 60 := s.small
  have hchars : s.buf.take (size s.buf).toNat = s.chars := by
    rw [s.toNat_size_buf]
    exact List.take_left
  simp only [trim, hchars]
  rcases trimLoop_cases isspace s.chars (by omega) with
    ⟨hnil, hr⟩ | ⟨-, hnot, hle, hlt⟩ | ⟨htwo, hpos, hlen⟩
  · -- no character is left, and that is what `ensure_trailing_zero()` cannot do
    refine iff_of_false ?_ fun h => h.1.ne_nil hnil
    rw [hr]
    by_cases hle : npos.toNat ≤ s.chars.length
    · rw [s.substr_eq hle, UInt64.toNat_zero, List.take_zero, if_pos rfl, if_pos (by decide)]
      exact fun h => by cases h
    · rw [s.substr_error (Nat.lt_of_not_le hle)]
      exact fun h => by cases h
  · refine iff_of_false (fun h => ?_) fun h => hnot h.1
    -- what was copied is shorter
    have hshort := s.length_substr_le hle h
    rw [List.length_append, List.length_singleton] at hshort
    omega
  · have hle : (trimLoop isspace s.chars 0 npos 0).1.toNat ≤ s.chars.length := by
      rw [hpos]
      exact (List.takeWhile_prefix _).length_le
    have hright := @Ustr.substr_right_iff lib _ (trimLoop isspace s.chars 0 npos 0).2 s hle
    rw [hpos, hlen, drop_trimmed] at hright
    have hfit := length_trimmed_le isspace s.chars
    rw [hright]
    constructor
    · rintro (⟨-, -, hlast⟩ | ⟨hwrap, -⟩)
      · exact ⟨htwo, hlast⟩
      · omega
    · rintro ⟨-, hlast⟩
      exact Or.inl ⟨by omega, Two.ne_nil htwo, hlast⟩

/-- With exceptions turned off, a string of white space is cut to none by `substr` failing. -/
theorem Str.trim_right_iff (useExc : Bool) (iswspace : List UInt8 → Bool) (s : Str) :
    trim lib useExc iswspace s.buf =
        .ok (some ((trimmed iswspace (letters s.chars)).flatten ++ zero)) ↔
      (Two iswspace (letters s.chars) ∧ (trimmed iswspace (letters s.chars)).getLast? ≠ some zero) ∨
      (trimmed iswspace (letters s.chars) = [] ∧
        (useExc = false ∨ npos.toNat ≤ (letters s.chars).length)) := by
  have hsmall : s.chars.length + 4 < 2 ^ 60 := s.small
  have hlength := length_letters s.chars
  have hwhole := s.whole
  have hchars : (letters s.buf).take (size s.buf).toNat = letters s.chars := by
    have hmul : 4 * (s.chars.length / 4) = s.chars.length := by omega
    rw [s.toNat_size_buf, ← letters_take, hmul, Xdrbuf.Str.buf, List.take_left]
  simp only [trim, hchars]
  rcases trimLoop_cases iswspace (letters s.chars) (by omega) with
    ⟨hnil, hr⟩ | ⟨hsome, hnot, hle, hlt⟩ | ⟨htwo, hpos, hlen⟩
  · have hfew : ¬ Two iswspace (letters s.chars) := fun h => h.ne_nil hnil
    rw [hr, hnil]
    simp only [hfew, false_and, true_and, false_or, List.flatten_nil, List.nil_append, cut]
    by_cases hle : npos.toNat ≤ (letters s.chars).length
    · have hpiece : piece s npos 0 = [] := List.take_zero
      rw [s.substr_eq hle, hpiece, if_neg fun h => Option.some_ne_none _ h.2.symm, if_pos (by decide)]
      exact iff_of_true rfl (Or.inr hle)
    · rw [s.substr_error (Nat.lt_of_not_le hle)]
      simp only [hle, or_false]
      cases useExc with
      | false => exact iff_of_true rfl rfl
      | true => exact iff_of_false (fun h => by cases h) fun h => by cases h
  · refine iff_of_false (fun h => ?_) ?_
    · -- what was copied is shorter
      have hwanted := length_flatten_letters (trimmed_subset iswspace (letters s.chars))
      rw [s.cut_eq_substr hle] at h
      have hshort := s.length_substr_le hle h
      rw [List.length_append, hwanted, length_zero] at hshort
      omega
    · rintro (⟨htwo, -⟩ | ⟨hnil, -⟩)
      · exact hnot htwo
      · exact hsome hnil
  · have hle : (trimLoop iswspace (letters s.chars) 0 npos 0).1.toNat ≤ (letters s.chars).length := by
      rw [hpos]
      exact (List.takeWhile_prefix _).length_le
    have hright := @Str.substr_right_iff lib _ (trimLoop iswspace (letters s.chars) 0 npos 0).2 s hle
    have hfit := length_trimmed_le iswspace (letters s.chars)
    rw [piece, hpos, hlen, drop_trimmed] at hright
    rw [s.cut_eq_substr hle, hright]
    constructor
    · rintro (⟨-, hlast⟩ | ⟨hwrap, -⟩)
      · exact Or.inl ⟨htwo, hlast⟩
      · omega
    · rintro (⟨-, hlast⟩ | ⟨hnil, -⟩)
      · exact Or.inl ⟨by omega, hlast⟩
      · exact absurd hnil (Two.ne_nil htwo)

theorem Ustr.cuts_iff (s : Ustr) (hle : start.toNat ≤ s.chars.length) : s.Cuts start length ↔
    (start.toNat + length.toNat < 2 ^ 64 ∧ (s.chars.drop start.toNat).take length.toNat ≠ [] ∧
      ((s.chars.drop start.toNat).take length.toNat).getLast? ≠ some 0) ∨
    (2 ^ 64 ≤ start.toNat + length.toNat ∧ start.toNat = s.chars.length) :=
  ⟨fun h => (s.substr_right_iff hle).mp (h Libc.c), fun h _ => (s.substr_right_iff hle).mpr h⟩

theorem Str.cuts_iff (s : Str) (hle : start.toNat ≤ (letters s.chars).length) : s.Cuts start length ↔
    (start.toNat + length.toNat < 2 ^ 64 ∧ (piece s start length).getLast? ≠ some zero) ∨
    (2 ^ 64 ≤ start.toNat + length.toNat ∧ start.toNat = (letters s.chars).length) :=
  ⟨fun h => (s.substr_right_iff hle).mp (h Libc.c), fun h _ => (s.substr_right_iff hle).mpr h⟩

theorem Ustr.trims_iff (isspace : UInt8 → Bool) (s : Ustr) : s.Trims isspace ↔
    Two isspace s.chars ∧ (trimmed isspace s.chars).getLast? ≠ some 0 :=
  ⟨fun h => (s.trim_right_iff isspace).mp (h Libc.c), fun h _ => (s.trim_right_iff isspace).mpr h⟩

theorem Str.trims_iff (useExc : Bool) (iswspace : List UInt8 → Bool) (s : Str) :
    s.Trims useExc iswspace ↔
      (Two iswspace (letters s.chars) ∧ (trimmed iswspace (letters s.chars)).getLast? ≠ some zero) ∨
      (trimmed iswspace (letters s.chars) = [] ∧
        (useExc = false ∨ npos.toNat ≤ (letters s.chars).length)) :=
  ⟨fun h => (s.trim_right_iff useExc iswspace).mp (h Libc.c),
    fun h _ => (s.trim_right_iff useExc iswspace).mpr h⟩

end Results

/-- **When `trim` and `substr` cut right**. `substr`: the sum fits in 64 bits and what is cut does
not end in a zero (nor is it empty, for `ustr`), or there is nothing to cut. `trim`: there are two
characters to keep, the first of which is not at `npos` and the last of which is not zero; or, for
`str`, there is none and the failing `substr` is not told of. -/
theorem cuts_trims_iff (s : Ustr) (t : Str) (start length : UInt64) (isspace : UInt8 → Bool)
    (iswspace : List UInt8 → Bool) (useExc : Bool) :
    (start.toNat ≤ s.chars.length →
      (s.Cuts start length ↔
        (start.toNat + length.toNat < 2 ^ 64 ∧ (s.chars.drop start.toNat).take length.toNat ≠ [] ∧
          ((s.chars.drop start.toNat).take length.toNat).getLast? ≠ some 0) ∨
        (2 ^ 64 ≤ start.toNat + length.toNat ∧ start.toNat = s.chars.length))) ∧
    (start.toNat ≤ (Str.letters t.chars).length →
      (t.Cuts start length ↔
        (start.toNat + length.toNat < 2 ^ 64 ∧ (Str.piece t start length).getLast? ≠ some Str.zero) ∨
        (2 ^ 64 ≤ start.toNat + length.toNat ∧ start.toNat = (Str.letters t.chars).length))) ∧
    (s.Trims isspace ↔ Two isspace s.chars ∧ (trimmed isspace s.chars).getLast? ≠ some 0) ∧
    (t.Trims useExc iswspace ↔
      (Two iswspace (Str.letters t.chars) ∧
        (trimmed iswspace (Str.letters t.chars)).getLast? ≠ some Str.zero) ∨
      (trimmed iswspace (Str.letters t.chars) = [] ∧
        (useExc = false ∨ npos.toNat ≤ (Str.letters t.chars).length))) :=
  ⟨fun hle => s.cuts_iff hle, fun hle => t.cuts_iff hle, s.trims_iff isspace, t.trims_iff useExc iswspace⟩

/-- "ab " is cut to "ab", and so is L"b" at its end to nothing. -/
theorem cuts_examples : Ustr.Cuts ⟨⟨[97, 98, 32], by decide⟩, by decide⟩ 0 2 ∧
    Str.Cuts ⟨⟨[98, 0, 0, 0], by decide, by decide⟩, by decide⟩ 1 (-1) := by
  obtain ⟨hustr, -⟩ := cuts_trims_iff ⟨⟨[97, 98, 32], by decide⟩, by decide⟩
    ⟨⟨[98, 0, 0, 0], by decide, by decide⟩, by decide⟩ 0 2 (fun a => a = 32) (fun _ => false) true
  obtain ⟨-, hstr, -⟩ := cuts_trims_iff ⟨⟨[97, 98, 32], by decide⟩, by decide⟩
    ⟨⟨[98, 0, 0, 0], by decide, by decide⟩, by decide⟩ 1 (-1) (fun a => a = 32) (fun _ => false) true
  exact ⟨(hustr (by decide)).mpr (Or.inl (by decide)), (hstr (by decide)).mpr (Or.inr (by decide))⟩

/-- " a ", of which `trim` leaves nothing. -/
theorem trim_fails : ¬ Ustr.Trims (fun a => a = 32) ⟨⟨[32, 97, 32], by decide⟩, by decide⟩ := by
  rw [Ustr.trims_iff]
  rintro ⟨⟨h2, -⟩, -⟩
  exact absurd h2 (by decide)

end Strings

end CodeSLoop
