import Mathlib.Data.Nat.Digits.Lemmas
import Mathlib.Data.List.TakeWhile

/-!
# Numbers as text

What `strtoll` of the C library makes of text, and what `%lld` prints, for characters given by their
codes: those of ASCII, which are the wide ones too.

`strtoll` with base 10 takes a numeral as it stands. With base 0 a zero at its start makes it
octal, and then it ends before the first digit that is not: that is another number as soon as it
is 8 or more (`octal_eq_iff`). What `%lld` prints has a zero at its start for the number 0 only,
so both read it back (`strtoll_render`).
-/

namespace Numerals

/-- The number of digits in base `b`, the first one being the highest. -/
def value (b : Nat) (ds : List Nat) : Nat := ds.foldl (fun n d => n * b + d) 0

/-- The digit of a character. -/
def digit? (c : Nat) : Option Nat :=
  if 48 ≤ c ∧ c ≤ 57 then some (c - 48)
  else if 97 ≤ c ∧ c ≤ 122 then some (c - 87)
  else if 65 ≤ c ∧ c ≤ 90 then some (c - 55)
  else none

/-- The digits in base `b` that text starts with. -/
def digits (b : Nat) : List Nat → List Nat
  | [] => []
  | c :: cs =>
    match digit? c with
    | some d => if d < b then d :: digits b cs else []
    | none => []

/-- White space, in the "C" locale. -/
def isSpace (c : Nat) : Bool := c = 32 ∨ 9 ≤ c ∧ c ≤ 13

/-- Whether there is a minus, and what is behind the sign. -/
def sign : List Nat → Bool × List Nat
  | [] => (false, [])
  | c :: cs => if c = 45 then (true, cs) else if c = 43 then (false, cs) else (false, c :: cs)

/-- "0x", with a digit behind it. -/
def isHex : List Nat → Bool
  | z :: x :: c :: _ => z = 48 ∧ (x = 120 ∨ x = 88) ∧ (digit? c).any (· < 16)
  | _ => false

/-- The base that is meant, and the text that the digits are in. -/
def base (b : Nat) (cs : List Nat) : Nat × List Nat :=
  if (b = 0 ∨ b = 16) ∧ isHex cs then (16, cs.drop 2)
  else if b = 0 then (if cs.head? = some 48 then 8 else 10, cs)
  else (b, cs)

/-- The nearest number of 64 bits. -/
def clamp (n : Int) : Int := max (-2 ^ 63) (min n (2 ^ 63 - 1))

/-- `strtoll(s,·,b)`. -/
def strtoll (b : Nat) (s : List Nat) : Int :=
  let r := sign (s.dropWhile isSpace)
  let p := base b r.2
  let n : Int := value p.1 (digits p.1 p.2)
  clamp (if r.1 then -n else n)

/-- The decimal digits of a number. -/
def decimal (n : Nat) : List Nat := if n = 0 then [0] else (Nat.digits 10 n).reverse

/-- What `%lld` prints. -/
def render (v : Int) : List Nat :=
  (if v < 0 then [45] else []) ++ (decimal v.natAbs).map (· + 48)

example : strtoll 0 [32, 45, 48, 120, 49, 70] = -31 := by decide

section

variable {b n m : Nat} {ds : List Nat} {v : Int}

/-! ## Digits -/

theorem digits_map (hds : ∀ d ∈ ds, d < 10) : digits b (ds.map (· + 48)) = ds.takeWhile (· < b) := by
  induction ds with
  | nil => rfl
  | cons d ds ih =>
    have hd : d < 10 := hds d List.mem_cons_self
    have hdigit : digit? (d + 48) = some d := by
      rw [digit?, if_pos (by omega), Nat.add_sub_cancel]
    rw [List.map_cons, digits, hdigit]
    by_cases hb : d < b
    · simp only [List.takeWhile_cons, hb, decide_true, if_true]
      rw [ih fun e he => hds e (List.mem_cons_of_mem _ he)]
    · simp only [List.takeWhile_cons, hb, decide_false, Bool.false_eq_true, if_false]

theorem value_decimal (n : Nat) : value 10 (decimal n) = n := by
  rw [decimal]
  split
  · rename_i h
    rw [h]
    rfl
  · have hofDigits := Nat.ofDigits_digits 10 n
    rw [Nat.ofDigits_eq_foldr] at hofDigits
    rw [value, List.foldl_reverse]
    refine Eq.trans ?_ hofDigits
    congr 1
    funext x y
    simp only [Nat.cast_id]
    rw [Nat.mul_comm, Nat.add_comm]

theorem decimal_lt : ∀ d ∈ decimal n, d < 10 := by
  intro d hd
  rw [decimal] at hd
  split at hd
  · rw [List.mem_singleton.mp hd]
    decide
  · exact Nat.digits_lt_base (by decide) (List.mem_reverse.mp hd)

theorem decimal_ne_nil : decimal n ≠ [] := by
  rw [decimal]
  split
  · exact List.cons_ne_nil _ _
  · rename_i h
    intro hnil
    exact Nat.digits_ne_nil_iff_ne_zero.mpr h (List.reverse_eq_nil_iff.mp hnil)

/-- Only the number 0 has a zero at its start. -/
theorem decimal_head (h : (decimal n).head? = some 0) : n = 0 := by
  by_contra hn
  rw [decimal, if_neg hn, List.head?_reverse] at h
  have hlast := Nat.getLast_digit_ne_zero 10 hn
  rw [List.getLast?_eq_some_getLast (Nat.digits_ne_nil_iff_ne_zero.mpr hn), Option.some.injEq] at h
  exact hlast h

theorem length_decimal (hn : n < 10 ^ m) (hm : 0 < m) : (decimal n).length ≤ m := by
  rw [decimal]
  split
  · exact hm
  · rename_i h
    rw [List.length_reverse]
    exact (Nat.digits_length_le_iff (by decide) n).mpr hn

/-! ## Octal and decimal -/

theorem le_foldl (m : Nat) : m ≤ ds.foldl (fun n d => n * 10 + d) m := by
  induction ds generalizing m with
  | nil => exact Nat.le_refl m
  | cons d ds ih =>
    rw [List.foldl_cons]
    exact Nat.le_trans (by omega) (ih (m * 10 + d))

/-- A start that is higher by so much makes a number that is higher by as much at least. -/
theorem foldl_add_le (hnm : n ≤ m) : (ds.takeWhile (· < 8)).foldl (fun n d => n * 8 + d) n + m ≤
    ds.foldl (fun n d => n * 10 + d) m + n := by
  induction ds generalizing n m with
  | nil => exact Nat.le_of_eq (Nat.add_comm n m)
  | cons d ds ih =>
    by_cases hd : d < 8
    · simp only [List.takeWhile_cons, hd, decide_true, if_true, List.foldl_cons]
      have hstep := @ih (n * 8 + d) (m * 10 + d) (by omega)
      omega
    · -- the octal number ends here
      simp only [List.takeWhile_cons, hd, decide_false, Bool.false_eq_true, if_false, List.foldl_nil]
      have hup := @le_foldl (d :: ds) m
      omega

/-- **Octal or decimal**: it is the same number below 8 only. -/
theorem octal_eq_iff : value 8 (ds.takeWhile (· < 8)) = value 10 ds ↔ value 10 ds < 8 := by
  rw [value, value]
  induction ds with
  | nil => exact iff_of_true rfl (by decide)
  | cons d ds ih =>
    by_cases hd : d < 8
    · simp only [List.takeWhile_cons, hd, decide_true, if_true, List.foldl_cons, Nat.zero_mul, Nat.zero_add]
      cases d with
      | zero => exact ih
      | succ d =>
        cases ds with
        | nil => exact iff_of_true rfl hd
        | cons e ds =>
          have hup := @le_foldl ds ((d + 1) * 10 + e)
          rw [List.foldl_cons]
          refine iff_of_false (fun h => ?_) (by omega)
          by_cases he : e < 8
          · simp only [List.takeWhile_cons, he, decide_true, if_true, List.foldl_cons] at h
            have hlt := @foldl_add_le ((d + 1) * 8 + e) ((d + 1) * 10 + e) ds (by omega)
            omega
          · simp only [List.takeWhile_cons, he, decide_false, Bool.false_eq_true, if_false,
              List.foldl_nil] at h
            omega
    · have hup := @le_foldl ds d
      simp only [List.takeWhile_cons, hd, decide_false, Bool.false_eq_true, if_false, List.foldl_nil,
        List.foldl_cons, Nat.zero_mul, Nat.zero_add]
      exact iff_of_false (by omega) (by omega)

theorem octal_le : value 8 (ds.takeWhile (· < 8)) ≤ value 10 ds :=
  Nat.le_of_add_le_add_right (foldl_add_le (Nat.le_refl 0))

end

/-! ## Numerals -/

/-- A sign or none, and decimal digits. -/
structure Numeral where
  minus : Option Bool
  digits : List Nat
  digits_lt : ∀ d ∈ digits, d < 10
  digits_ne : digits ≠ []

namespace Numeral

/-- The characters. -/
def text (n : Numeral) : List Nat :=
  (match n.minus with
    | none => []
    | some false => [43]
    | some true => [45]) ++ n.digits.map (· + 48)

/-- The number without its sign. -/
def abs (n : Numeral) : Nat := value 10 n.digits

/-- The number. -/
def int (n : Numeral) : Int := if n.minus = some true then -n.abs else n.abs

/-- It starts with a zero. -/
def Padded (n : Numeral) : Prop := n.digits.head? = some 0

instance (n : Numeral) : Decidable n.Padded := inferInstanceAs (Decidable (_ = _))

/-- It is a number of 64 bits. -/
def Fits (n : Numeral) : Prop := -2 ^ 63 ≤ n.int ∧ n.int < 2 ^ 63

instance (n : Numeral) : Decidable n.Fits := inferInstanceAs (Decidable (_ ∧ _))

variable {n : Numeral}

theorem clamp_eq {v : Int} (h : -2 ^ 63 ≤ v ∧ v < 2 ^ 63) : clamp v = v := by
  rw [clamp]
  omega

/-- What the digits are read as. -/
theorem strtoll_text (b : Nat) (n : Numeral) : strtoll b n.text =
    clamp (if n.minus = some true then -(value (base b (n.digits.map (· + 48))).1
        (Numerals.digits (base b (n.digits.map (· + 48))).1 (base b (n.digits.map (· + 48))).2) : Int)
      else value (base b (n.digits.map (· + 48))).1
        (Numerals.digits (base b (n.digits.map (· + 48))).1 (base b (n.digits.map (· + 48))).2)) := by
  obtain ⟨minus, ds, hlt, hne⟩ := n
  cases ds with
  | nil => exact absurd rfl hne
  | cons d ds =>
    have hd : d < 10 := hlt d List.mem_cons_self
    have hspace : isSpace (d + 48) = false := by
      rw [isSpace]
      exact decide_eq_false (by omega)
    have h45 : d + 48 ≠ 45 := by omega
    have h43 : d + 48 ≠ 43 := by omega
    rw [strtoll, text]
    cases minus with
    | none => simp [hspace, sign, h45, h43]
    | some minus =>
      cases minus with
      | false => simp [isSpace, sign]
      | true => simp [isSpace, sign]

theorem not_hex {ds : List Nat} (hlt : ∀ d ∈ ds, d < 10) : isHex (ds.map (· + 48)) = false := by
  match ds with
  | [] | [_] | [_, _] => rfl
  | d :: e :: f :: ds =>
    have he : e < 10 := hlt e (by simp)
    rw [List.map_cons, List.map_cons, List.map_cons, isHex]
    exact decide_eq_false (by omega)

theorem base_ten (n : Numeral) : base 10 (n.digits.map (· + 48)) = (10, n.digits.map (· + 48)) := by
  rw [base, not_hex n.digits_lt]
  rfl

theorem base_zero (n : Numeral) : base 0 (n.digits.map (· + 48)) =
    (if n.Padded then 8 else 10, n.digits.map (· + 48)) := by
  have hhead : (n.digits.map (· + 48)).head? = some 48 ↔ n.Padded := by
    rw [Padded, List.head?_map, Option.map_eq_some_iff]
    simp
  rw [base, not_hex n.digits_lt]
  simp only [Bool.false_eq_true, and_false, if_false, if_true, hhead]

/-- With base 10 a numeral is read as it stands. -/
theorem strtoll_ten (h : n.Fits) : strtoll 10 n.text = n.int := by
  have hall : n.digits.takeWhile (· < 10) = n.digits :=
    List.takeWhile_eq_self_iff.mpr fun d hd => decide_eq_true (n.digits_lt d hd)
  rw [strtoll_text, base_ten]
  simp only [digits_map n.digits_lt, hall]
  exact clamp_eq h

/-- **With base 0** it is, unless it starts with a zero and is 8 or more. -/
theorem strtoll_zero_iff (h : n.Fits) : strtoll 0 n.text = n.int ↔ ¬ n.Padded ∨ n.abs < 8 := by
  rw [strtoll_text, base_zero]
  by_cases hpad : n.Padded
  · have hle : value 8 (n.digits.takeWhile (· < 8)) ≤ n.abs := octal_le
    have hiff : value 8 (n.digits.takeWhile (· < 8)) = n.abs ↔ n.abs < 8 := octal_eq_iff
    simp only [hpad, if_true, digits_map n.digits_lt, not_true, false_or]
    rw [← hiff]
    rw [Fits, int] at h
    rw [int]
    by_cases hm : n.minus = some true
    · simp only [hm, if_true] at h ⊢
      rw [clamp_eq (by omega)]
      omega
    · simp only [hm, if_false] at h ⊢
      rw [clamp_eq (by omega)]
      omega
  · have hall : n.digits.takeWhile (· < 10) = n.digits :=
      List.takeWhile_eq_self_iff.mpr fun d hd => decide_eq_true (n.digits_lt d hd)
    simp only [hpad, if_false, digits_map n.digits_lt, hall, not_false_iff, true_or, iff_true]
    exact clamp_eq h

/-- What is printed is a numeral. -/
def ofInt (v : Int) : Numeral where
  minus := if v < 0 then some true else none
  digits := decimal v.natAbs
  digits_lt := decimal_lt
  digits_ne := decimal_ne_nil

theorem text_ofInt (v : Int) : (ofInt v).text = render v := by
  rw [text, render, ofInt]
  by_cases h : v < 0
  · simp only [h, if_true]
  · simp only [h, if_false]

theorem int_ofInt (v : Int) : (ofInt v).int = v := by
  rw [int, abs, ofInt]
  simp only [value_decimal]
  by_cases h : v < 0
  · simp only [h, if_true]
    omega
  · simp only [h, if_false, reduceCtorEq]
    omega

end Numeral

/-- **What is printed is read back**, with base 0 and with base 10. -/
theorem strtoll_render {v : Int} (h : -2 ^ 63 ≤ v ∧ v < 2 ^ 63) :
    strtoll 0 (render v) = v ∧ strtoll 10 (render v) = v := by
  have hfits : (Numeral.ofInt v).Fits := by
    rw [Numeral.Fits, Numeral.int_ofInt]
    exact h
  have hten := Numeral.strtoll_ten hfits
  have hzero := (Numeral.strtoll_zero_iff hfits).mpr (by
    by_cases hpad : (Numeral.ofInt v).Padded
    · have h0 : v.natAbs = 0 := decimal_head hpad
      right
      rw [Numeral.abs, Numeral.ofInt]
      simp only [value_decimal, h0]
      decide
    · exact Or.inl hpad)
  rw [Numeral.text_ofInt, Numeral.int_ofInt] at hten hzero
  exact ⟨hzero, hten⟩

/-- A number of 64 bits has a text of 20 characters at most, all of which are in ASCII and none of
    which is zero. -/
theorem length_render {v : Int} (h : -2 ^ 63 ≤ v ∧ v < 2 ^ 63) : (render v).length ≤ 20 := by
  have hdecimal : (decimal v.natAbs).length ≤ 19 := length_decimal (by omega) (by decide)
  rw [render, List.length_append, List.length_map]
  split
  · rw [List.length_singleton]
    omega
  · rw [List.length_nil]
    omega

theorem Numeral.mem_text {n : Numeral} {c : Nat} (hc : c ∈ n.text) : 43 ≤ c ∧ c < 58 := by
  rw [Numeral.text, List.mem_append, List.mem_map] at hc
  rcases hc with hc | ⟨d, hd, rfl⟩
  · split at hc
    · cases hc
    · rw [List.mem_singleton.mp hc]
      decide
    · rw [List.mem_singleton.mp hc]
      decide
  · have hlt := n.digits_lt d hd
    omega

end Numerals
