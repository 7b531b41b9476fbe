import Mathlib.RingTheory.AdjoinRoot
import Mathlib.Algebra.CharP.Two
import Mathlib.Data.ZMod.Basic
import Mathlib.Algebra.Field.ZMod

/-!
# Cyclic redundancy checks

A register of `w` bits is shifted to the right, and a constant `K` is added to it (by `xor`)
whenever a one falls out. Bytes are fed at the right end, eight shifts for each.

Read from the left, a register is a polynomial of degree less than `w` over the field of two
elements, a shift multiplies by `X`, and adding `K` takes away the generator `X ^ w + K`: the
register after some bytes is what is left of them, as a polynomial, when the generator is taken
out (`mk_crc`). So two messages have the same check exactly when the generator divides their
difference (`crc_eq_iff`), and a message in which one byte is changed has another one
(`crc_set_ne`).

A table with the eight shifts of every byte does the same at once (`shifts_eight`).
-/

namespace Crc

open Polynomial

variable {w : Nat}

/-! ## The register -/

/-- One shift. -/
def shift (K r : BitVec w) : BitVec w := if r.getLsbD 0 then (r >>> 1) ^^^ K else r >>> 1

/-- Shifts one after the other. -/
def shifts (K : BitVec w) (n : Nat) (r : BitVec w) : BitVec w := (shift K)^[n] r

/-- A byte is fed. -/
def feed (K r : BitVec w) (b : BitVec 8) : BitVec w := shifts K 8 (r ^^^ b.setWidth w)

/-- The check of some bytes, from a register on. -/
def crc (K r : BitVec w) (bs : List (BitVec 8)) : BitVec w := bs.foldl (feed K) r

section Register

variable {K r s : BitVec w} {n : Nat}

/-- Shifts are linear. -/
theorem shift_xor (K r s : BitVec w) : shift K (r ^^^ s) = shift K r ^^^ shift K s := by
  rw [shift, shift, shift, BitVec.getLsbD_xor, BitVec.ushiftRight_xor_distrib]
  have hcancel : r >>> 1 ^^^ s >>> 1 = r >>> 1 ^^^ K ^^^ (s >>> 1 ^^^ K) := by
    rw [BitVec.xor_comm (s >>> 1) K, BitVec.xor_assoc, ← BitVec.xor_assoc K, BitVec.xor_self,
      BitVec.zero_xor]
  cases r.getLsbD 0 with
  | false =>
    cases s.getLsbD 0 with
    | false => rfl
    | true => exact BitVec.xor_assoc _ _ _
  | true =>
    cases s.getLsbD 0 with
    | false =>
      show r >>> 1 ^^^ s >>> 1 ^^^ K = r >>> 1 ^^^ K ^^^ s >>> 1
      rw [BitVec.xor_assoc, BitVec.xor_comm (s >>> 1), ← BitVec.xor_assoc]
    | true => exact hcancel

theorem shifts_succ (K : BitVec w) (n : Nat) (r : BitVec w) : shifts K (n + 1) r = shifts K n (shift K r) :=
  rfl

theorem shifts_xor (K : BitVec w) (n : Nat) (r s : BitVec w) :
    shifts K n (r ^^^ s) = shifts K n r ^^^ shifts K n s := by
  induction n generalizing r s with
  | zero => rfl
  | succ n ih => rw [shifts_succ, shift_xor, ih, shifts_succ, shifts_succ]

/-- Nothing is added while only zeros fall out. -/
theorem shifts_of_low (h : ∀ i < n, r.getLsbD i = false) : shifts K n r = r >>> n := by
  induction n generalizing r with
  | zero => exact (BitVec.ushiftRight_zero r).symm
  | succ n ih =>
    have h0 : ¬ r.getLsbD 0 = true := by
      rw [h 0 (Nat.succ_pos n)]
      exact Bool.false_ne_true
    rw [shifts_succ, shift, if_neg h0, ih, ← BitVec.shiftRight_add, Nat.add_comm]
    intro i hi
    rw [BitVec.getLsbD_ushiftRight]
    exact h (1 + i) (by omega)

/-- **The table**: shifts of the low bits, and the others moved down. -/
theorem shifts_split (K : BitVec w) (n : Nat) (r : BitVec w) :
    shifts K n r = shifts K n ((r.setWidth n).setWidth w) ^^^ (r >>> n) := by
  have hsplit : r = (r.setWidth n).setWidth w ^^^ (r >>> n <<< n) := by
    refine BitVec.eq_of_getLsbD_eq fun i hi => ?_
    rw [BitVec.getLsbD_xor, BitVec.getLsbD_setWidth, BitVec.getLsbD_setWidth, BitVec.getLsbD_shiftLeft,
      BitVec.getLsbD_ushiftRight]
    by_cases hin : i < n
    · simp [hi, hin]
    · have hsum : n + (i - n) = i := by omega
      simp [hi, hin, hsum]
  have hlow : ∀ i < n, (r >>> n <<< n).getLsbD i = false := by
    intro i hi
    rw [BitVec.getLsbD_shiftLeft]
    simp [hi]
  have hback : r >>> n <<< n >>> n = r >>> n := by
    refine BitVec.eq_of_getLsbD_eq fun i hi => ?_
    rw [BitVec.getLsbD_ushiftRight, BitVec.getLsbD_shiftLeft, BitVec.getLsbD_ushiftRight,
      BitVec.getLsbD_ushiftRight]
    by_cases hin : n + i < w
    · simp [hin]
    · simp [hin, BitVec.getLsbD_of_ge r (n + i) (Nat.le_of_not_lt hin)]
  calc shifts K n r = shifts K n ((r.setWidth n).setWidth w ^^^ (r >>> n <<< n)) := by rw [← hsplit]
    _ = shifts K n ((r.setWidth n).setWidth w) ^^^ shifts K n (r >>> n <<< n) := shifts_xor _ _ _ _
    _ = shifts K n ((r.setWidth n).setWidth w) ^^^ (r >>> n) := by rw [shifts_of_low hlow, hback]

/-- With a one at the left end of `K` nothing is lost. -/
theorem shift_eq_zero (hK : K.getLsbD (w - 1) = true) (h : shift K r = 0) : r = 0 := by
  rw [shift] at h
  split at h
  · -- the left end is `K`'s alone
    have hbit : (r >>> 1).getLsbD (w - 1) = false := by
      rw [BitVec.getLsbD_ushiftRight]
      exact BitVec.getLsbD_of_ge _ _ (by omega)
    have hxor := congrArg (·.getLsbD (w - 1)) h
    simp [hbit, hK] at hxor
  · rename_i h0
    refine BitVec.eq_of_getLsbD_eq fun i hi => ?_
    cases i with
    | zero => simpa using h0
    | succ i =>
      have hbit := congrArg (·.getLsbD i) h
      simpa [Nat.add_comm] using hbit

theorem shifts_eq_zero (hK : K.getLsbD (w - 1) = true) (h : shifts K n r = 0) : r = 0 := by
  induction n generalizing r with
  | zero => exact h
  | succ n ih => exact shift_eq_zero hK (ih h)

theorem shifts_inj (hK : K.getLsbD (w - 1) = true) (h : shifts K n r = shifts K n s) : r = s := by
  refine BitVec.xor_eq_zero_iff.mp (shifts_eq_zero (n := n) hK ?_)
  rw [shifts_xor, h, BitVec.xor_self]
  rfl

/-- Two registers that differ still do after the same bytes. -/
theorem crc_inj (hK : K.getLsbD (w - 1) = true) {bs : List (BitVec 8)} (h : crc K r bs = crc K s bs) :
    r = s := by
  induction bs generalizing r s with
  | nil => exact h
  | cons b bs ih =>
    have hfeed : feed K r b = feed K s b := ih h
    exact (BitVec.xor_left_inj _).mp (shifts_inj hK hfeed)

/-- **Every byte counts.** -/
theorem crc_set_ne (hK : K.getLsbD (w - 1) = true) (hw : 8 ≤ w) {bs : List (BitVec 8)} {i : Nat}
    {b : BitVec 8} (hi : i < bs.length) (hb : bs[i] ≠ b) : crc K r (bs.set i b) ≠ crc K r bs := by
  intro h
  have hset := List.set_eq_take_append_cons_drop (l := bs) (i := i) (a := b)
  have hbs : bs = bs.take i ++ bs[i] :: bs.drop (i + 1) := by
    rw [← List.drop_eq_getElem_cons hi, List.take_append_drop]
  rw [if_pos hi] at hset
  rw [hset] at h
  conv at h => rhs; rw [hbs]
  rw [crc, crc, List.foldl_append, List.foldl_append, List.foldl_cons, List.foldl_cons] at h
  have hfeed : feed K (crc K r (bs.take i)) b = feed K (crc K r (bs.take i)) bs[i] := crc_inj hK h
  have hwide : b.setWidth w = bs[i].setWidth w := (BitVec.xor_right_inj _).mp (shifts_inj hK hfeed)
  refine hb (BitVec.eq_of_getLsbD_eq fun k hk => ?_)
  have hbit := congrArg (·.getLsbD k) hwide
  simp only [BitVec.getLsbD_setWidth] at hbit
  have hkw : k < w := Nat.lt_of_lt_of_le hk hw
  simpa [hkw] using hbit.symm

end Register

/-! ## Polynomials -/

section Polynomials

/-- Bits, read from the left as a polynomial. -/
noncomputable def poly (r : BitVec w) : (ZMod 2)[X] :=
  ∑ i ∈ Finset.range w, if r.getLsbD i then X ^ (w - 1 - i) else 0

/-- The generator. -/
noncomputable def gen (K : BitVec w) : (ZMod 2)[X] := X ^ w + poly K

/-- Bytes as one polynomial. -/
noncomputable def message (bs : List (BitVec 8)) : (ZMod 2)[X] :=
  bs.foldl (fun p b => X ^ 8 * p + poly b) 0

variable {K r s : BitVec w} {n : Nat}

theorem poly_xor (r s : BitVec w) : poly (r ^^^ s) = poly r + poly s := by
  rw [poly, poly, poly, ← Finset.sum_add_distrib]
  refine Finset.sum_congr rfl fun i _ => ?_
  rw [BitVec.getLsbD_xor]
  cases r.getLsbD i with
  | false => cases s.getLsbD i <;> simp
  | true =>
    cases s.getLsbD i with
    | false => simp
    | true => simp [CharTwo.add_self_eq_zero]

theorem coeff_poly {k : Nat} (hk : k < w) :
    (poly r).coeff (w - 1 - k) = if r.getLsbD k then 1 else 0 := by
  rw [poly, finsetSum_coeff, Finset.sum_eq_single k]
  · split <;> simp
  · intro i hi hne
    have hlt := Finset.mem_range.mp hi
    split
    · rw [coeff_X_pow, if_neg (by omega)]
    · exact coeff_zero _
  · intro hmem
    exact absurd (Finset.mem_range.mpr hk) hmem

theorem poly_inj (h : poly r = poly s) : r = s := by
  refine BitVec.eq_of_getLsbD_eq fun i hi => ?_
  have hcoeff := congrArg (·.coeff (w - 1 - i)) h
  simp only [coeff_poly hi] at hcoeff
  cases hr : r.getLsbD i with
  | false =>
    cases hs : s.getLsbD i with
    | false => rfl
    | true => simp [hr, hs] at hcoeff
  | true =>
    cases hs : s.getLsbD i with
    | false => simp [hr, hs] at hcoeff
    | true => rfl

theorem degree_poly_lt (r : BitVec w) : (poly r).degree < w := by
  rw [degree_lt_iff_coeff_zero]
  intro m hm
  rw [poly, finsetSum_coeff]
  refine Finset.sum_eq_zero fun i hi => ?_
  have hlt := Finset.mem_range.mp hi
  split
  · rw [coeff_X_pow, if_neg (by omega)]
  · exact coeff_zero _

/-- A shift multiplies by `X`, with the bit that falls out at the top. -/
theorem X_mul_poly (r : BitVec w) :
    X * poly r = poly (r >>> 1) + if r.getLsbD 0 then X ^ w else 0 := by
  cases w with
  | zero => simp [poly]
  | succ m =>
    rw [poly, poly, Finset.sum_range_succ', Finset.sum_range_succ, mul_add, Finset.mul_sum]
    congr 1
    · have hlast : (r >>> 1).getLsbD m = false := by
        rw [BitVec.getLsbD_ushiftRight]
        exact BitVec.getLsbD_of_ge _ _ (by omega)
      rw [hlast, if_neg Bool.false_ne_true, add_zero]
      refine Finset.sum_congr rfl fun i hi => ?_
      have hlt := Finset.mem_range.mp hi
      rw [BitVec.getLsbD_ushiftRight, Nat.add_comm 1 i]
      split
      · rw [← pow_succ']
        congr 1
        omega
      · exact mul_zero _
    · split
      · rw [← pow_succ']
        rfl
      · exact mul_zero _

theorem poly_shift (K r : BitVec w) :
    poly (shift K r) = X * poly r + if r.getLsbD 0 then gen K else 0 := by
  rw [X_mul_poly, shift]
  split
  · rw [poly_xor, gen, add_assoc, ← add_assoc (X ^ w), CharTwo.add_self_eq_zero, zero_add]
  · rw [add_zero, add_zero]

/-- A wider register has the same bits at its right end. -/
theorem poly_setWidth {v : Nat} (hv : v ≤ w) (b : BitVec v) :
    poly (b.setWidth w) = X ^ (w - v) * poly b := by
  obtain ⟨d, rfl⟩ := Nat.exists_eq_add_of_le hv
  rw [poly, poly, Finset.sum_range_add, Finset.mul_sum]
  have hhigh : ∀ i ∈ Finset.range d, (if (b.setWidth (v + d)).getLsbD (v + i) then
      (X : (ZMod 2)[X]) ^ (v + d - 1 - (v + i)) else 0) = 0 := by
    intro i _
    rw [BitVec.getLsbD_setWidth, BitVec.getLsbD_of_ge b (v + i) (Nat.le_add_right v i), Bool.and_false,
      if_neg Bool.false_ne_true]
  rw [Finset.sum_eq_zero hhigh, add_zero]
  refine Finset.sum_congr rfl fun i hi => ?_
  have hlt := Finset.mem_range.mp hi
  have hwide : i < v + d := by omega
  rw [BitVec.getLsbD_setWidth, decide_eq_true hwide, Bool.true_and]
  split
  · rw [← pow_add]
    congr 1
    omega
  · exact (mul_zero _).symm

/-! ## What is left of a message -/

theorem mk_shifts (K : BitVec w) (n : Nat) (r : BitVec w) :
    AdjoinRoot.mk (gen K) (poly (shifts K n r)) = AdjoinRoot.mk (gen K) (X ^ n * poly r) := by
  induction n generalizing r with
  | zero => rw [pow_zero, one_mul]; rfl
  | succ n ih =>
    have hout : AdjoinRoot.mk (gen K) (if r.getLsbD 0 then gen K else 0) = 0 := by
      split
      · exact AdjoinRoot.mk_self
      · exact map_zero _
    rw [shifts_succ, ih, poly_shift, map_mul, map_add, hout, add_zero, ← map_mul, ← mul_assoc, pow_succ]

/-- **The remainder**: the register is what is left of the message when the generator is taken
    out. -/
theorem mk_crc (K : BitVec w) (hw : 8 ≤ w) (bs : List (BitVec 8)) :
    AdjoinRoot.mk (gen K) (poly (crc K 0 bs)) = AdjoinRoot.mk (gen K) (X ^ w * message bs) := by
  induction bs using List.reverseRecOn with
  | nil => simp [crc, message, poly]
  | append_singleton bs b ih =>
    have hpow : X ^ w = X ^ 8 * (X : (ZMod 2)[X]) ^ (w - 8) := by rw [← pow_add]; congr 1; omega
    rw [crc, message, List.foldl_append, List.foldl_append, List.foldl_cons, List.foldl_cons,
      List.foldl_nil, List.foldl_nil, ← crc, ← message, feed, mk_shifts, poly_xor, poly_setWidth hw]
    rw [mul_add, map_add, map_mul, ih, ← map_mul, ← map_add]
    congr 1
    rw [hpow]
    ring

theorem degree_gen (K : BitVec w) : (gen K).degree = w := by
  rw [gen, add_comm, degree_add_eq_right_of_degree_lt]
  · exact degree_X_pow w
  · rw [degree_X_pow]
    exact degree_poly_lt K

theorem isCoprime_gen (hw : 0 < w) (hK : K.getLsbD (w - 1) = true) : IsCoprime (gen K) X := by
  have hcoeff : (gen K).coeff 0 = 1 := by
    have hlast := coeff_poly (r := K) (k := w - 1) (by omega)
    rw [Nat.sub_self, hK, if_pos rfl] at hlast
    rw [gen, coeff_add, coeff_X_pow, if_neg (by omega), zero_add, hlast]
  have hdiv := divX_mul_X_add (gen K)
  rw [hcoeff, C_1] at hdiv
  refine ⟨1, -divX (gen K), ?_⟩
  rw [one_mul]
  conv => lhs; lhs; rw [← hdiv]
  ring

/-- **When two checks are the same**: when the generator divides the difference of the messages. -/
theorem crc_eq_iff (hw : 8 ≤ w) (hK : K.getLsbD (w - 1) = true) {bs cs : List (BitVec 8)} :
    crc K 0 bs = crc K 0 cs ↔ gen K ∣ message bs - message cs := by
  have hw0 : 0 < w := Nat.lt_of_lt_of_le (by decide) hw
  have hpow : IsCoprime (gen K) (X ^ w) := (isCoprime_gen hw0 hK).pow_right
  constructor
  · intro h
    have hmk := mk_crc K hw bs
    rw [h, mk_crc K hw cs, AdjoinRoot.mk_eq_mk, ← mul_sub] at hmk
    have hdvd := hpow.dvd_of_dvd_mul_left hmk
    rwa [← neg_sub, dvd_neg] at hdvd
  · intro h
    refine poly_inj (sub_eq_zero.mp (eq_zero_of_dvd_of_degree_lt (p := gen K) ?_ ?_))
    · rw [← AdjoinRoot.mk_eq_mk, mk_crc K hw bs, mk_crc K hw cs, AdjoinRoot.mk_eq_mk, ← mul_sub]
      exact Dvd.dvd.mul_left h _
    · rw [degree_gen]
      exact lt_of_le_of_lt (degree_sub_le _ _) (max_lt (degree_poly_lt _) (degree_poly_lt _))

end Polynomials

end Crc
