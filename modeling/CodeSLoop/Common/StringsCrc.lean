import CodeSLoop.Lib.Crc
import CodeSLoop.Common.StringsTerminated
import Mathlib.Data.List.TakeWhile

/-!
# The checks of strings (`common/str.cc`, `common/ustr.cc`)

`crc64` of both classes goes through the bytes of the string with a table, and stops at the first
zero. The table is that of the check with the constant `0xd800000000000000` (`crcStep_eq`). For
`ustr` the first zero is the terminator, if the string has none in it. The wide characters of
`str` have zero bytes themselves, all those below 2^24 have one, so what is checked is rarely more
than the first of them. When it is all of the string that is checked, for both, is `crc64_iff`.
-/

namespace CodeSLoop

open Codec

namespace Strings

/-! ## The table and the loop -/

/-- The body of the loop that makes the table. -/
def partStep (part : UInt64) : UInt64 :=
  if part &&& 1 ≠ 0 then (part >>> 1) ^^^ 0xd800000000000000 else part >>> 1

/-- `CRCTable`. -/
def CRCTable : List UInt64 := (List.range 256).map fun i => partStep^[8] (UInt64.ofNat i)

/-- The body of the loop of `crc64`. -/
def crcStep (crc : UInt64) (c : UInt8) : UInt64 :=
  CRCTable.getD ((crc ^^^ c.toUInt64) &&& 0xff).toNat 0 ^^^ (crc >>> 8)

/-- `while (*seq)`, with nothing when it looks behind the buffer. -/
def crcLoop : UInt64 → List UInt8 → Option UInt64
  | _, [] => none
  | crc, c :: seq => if c = 0 then some crc else crcLoop (crcStep crc c) seq

def Ustr.crc64 (buf : List UInt8) : Option Int64 := (crcLoop 0 buf).map UInt64.toInt64

def Str.crc64 (buf : List UInt8) : Option Int64 := (crcLoop 0 buf).map UInt64.toInt64

/-- The constant. -/
def crcPoly : BitVec 64 := 0xd800000000000000

/-- The check of some bytes by shifting them through the register. -/
def crcOf (bs : List UInt8) : Int64 := (UInt64.ofBitVec (Crc.crc crcPoly 0 (bs.map UInt8.toBitVec))).toInt64

/-! ## What the table does -/

section Table

theorem partStep_eq (part : UInt64) : (partStep part).toBitVec = Crc.shift crcPoly part.toBitVec := by
  have hbit : part &&& 1 ≠ 0 ↔ part.toBitVec.getLsbD 0 = true := by
    rw [Ne, ← UInt64.toBitVec_inj, UInt64.toBitVec_and]
    have hone := BitVec.and_one_eq_setWidth_ofBool_getLsbD (x := part.toBitVec)
    rw [show (1 : UInt64).toBitVec = 1#64 from rfl, hone]
    cases part.toBitVec.getLsbD 0 <;> decide
  rw [partStep, Crc.shift]
  by_cases h : part.toBitVec.getLsbD 0 = true
  · rw [if_pos h, if_pos (hbit.mpr h)]
    rfl
  · rw [if_neg h, if_neg fun hp => h (hbit.mp hp)]
    rfl

theorem partSteps_eq (n : Nat) (part : UInt64) :
    (partStep^[n] part).toBitVec = Crc.shifts crcPoly n part.toBitVec := by
  induction n generalizing part with
  | zero => rfl
  | succ n ih => rw [Function.iterate_succ_apply, ih, partStep_eq, Crc.shifts_succ]

/-- **The table** is eight shifts at once. -/
theorem crcStep_eq (crc : UInt64) (c : UInt8) :
    (crcStep crc c).toBitVec = Crc.feed crcPoly crc.toBitVec c.toBitVec := by
  have hand : (crc ^^^ c.toUInt64) &&& 0xff = UInt64.ofNat ((crc ^^^ c.toUInt64).toNat % 256) := by
    refine UInt64.toNat_inj.mp ?_
    rw [UInt64.toNat_and, UInt64.toNat_ofNat']
    exact Eq.trans (Nat.and_two_pow_sub_one_eq_mod _ 8) (by omega)
  have hlt : ((crc ^^^ c.toUInt64) &&& 0xff).toNat < 256 := by
    rw [hand, UInt64.toNat_ofNat']
    omega
  have hget : CRCTable.getD ((crc ^^^ c.toUInt64) &&& 0xff).toNat 0 =
      partStep^[8] ((crc ^^^ c.toUInt64) &&& 0xff) := by
    rw [CRCTable, List.getD_eq_getElem?_getD, List.getElem?_map, List.getElem?_range hlt, Option.map_some,
      Option.getD_some, UInt64.ofNat_toNat]
  have hxor : (crc ^^^ c.toUInt64).toBitVec = crc.toBitVec ^^^ c.toBitVec.setWidth 64 := by
    rw [UInt64.toBitVec_xor, UInt8.toBitVec_toUInt64]
  have hhigh : (crc >>> 8).toBitVec = (crc ^^^ c.toUInt64).toBitVec >>> 8 := by
    have hbyte : c.toBitVec.setWidth 64 >>> 8 = 0#64 := by
      refine BitVec.eq_of_getLsbD_eq fun i _ => ?_
      rw [BitVec.getLsbD_ushiftRight, BitVec.getLsbD_setWidth, BitVec.getLsbD_of_ge _ _ (by omega)]
      simp
    rw [hxor, BitVec.ushiftRight_xor_distrib, hbyte, BitVec.xor_zero, UInt64.toBitVec_shiftRight]
    rfl
  have hlow : ((crc ^^^ c.toUInt64) &&& 0xff).toBitVec =
      ((crc ^^^ c.toUInt64).toBitVec.setWidth 8).setWidth 64 := by
    refine BitVec.eq_of_getLsbD_eq fun i hi => ?_
    have hff : (0xff : UInt64).toBitVec = BitVec.ofNat 64 (2 ^ 8 - 1) := rfl
    rw [UInt64.toBitVec_and, BitVec.getLsbD_and, hff, BitVec.getLsbD_ofNat, Nat.testBit_two_pow_sub_one,
      BitVec.getLsbD_setWidth, BitVec.getLsbD_setWidth, decide_eq_true hi, Bool.true_and, Bool.true_and,
      Bool.and_comm]
  rw [crcStep, UInt64.toBitVec_xor, hget, partSteps_eq, hlow, hhigh, Crc.feed, ← hxor,
    Crc.shifts_split crcPoly 8 (crc ^^^ c.toUInt64).toBitVec]

/-- The loop checks what is before the first zero. -/
theorem crcLoop_eq {bs seq : List UInt8} (h : 0 ∉ bs) (crc : UInt64) : crcLoop crc (bs ++ 0 :: seq) =
    some (UInt64.ofBitVec (Crc.crc crcPoly crc.toBitVec (bs.map UInt8.toBitVec))) := by
  induction bs generalizing crc with
  | nil => exact if_pos rfl
  | cons c bs ih =>
    have hc : c ≠ 0 := fun hc => h (hc ▸ List.mem_cons_self)
    rw [List.cons_append, crcLoop, if_neg hc, ih fun hb => h (List.mem_cons_of_mem _ hb), crcStep_eq]
    rfl

/-- The bytes before the first zero. -/
def seen (bs : List UInt8) : List UInt8 := bs.takeWhile (· ≠ 0)

theorem crcLoop_seen (bs seq : List UInt8) :
    crcLoop 0 (bs ++ 0 :: seq) = some (UInt64.ofBitVec (Crc.crc crcPoly 0 ((seen bs).map UInt8.toBitVec))) := by
  have hzero : 0 ∉ seen bs := fun h => absurd (List.mem_takeWhile_imp h) (by decide)
  obtain ⟨seq', hseq⟩ : ∃ seq', bs ++ 0 :: seq = seen bs ++ 0 :: seq' := by
    have hsplit : seen bs ++ bs.dropWhile (· ≠ 0) = bs := List.takeWhile_append_dropWhile
    cases hdrop : bs.dropWhile (· ≠ 0) with
    | nil =>
      rw [hdrop, List.append_nil] at hsplit
      rw [hsplit]
      exact ⟨seq, rfl⟩
    | cons c cs =>
      have hne : bs.dropWhile (· ≠ 0) ≠ [] := by
        rw [hdrop]
        exact List.cons_ne_nil c cs
      have hc := List.head_dropWhile_not (fun b : UInt8 => decide (b ≠ 0)) hne
      simp only [hdrop, List.head_cons, decide_eq_false_iff_not, not_not] at hc
      have hc0 : c = 0 := hc
      rw [hdrop, hc0] at hsplit
      refine ⟨cs ++ 0 :: seq, ?_⟩
      conv => lhs; rw [← hsplit]
      rw [List.append_assoc, List.cons_append]
  rw [hseq]
  exact crcLoop_eq hzero 0

end Table

/-! ## What is checked -/

section Results

/-- No byte is zero, so that all of them are checked; or all of them have the check of those that
    are: then the polynomial of those that are not is a multiple of the generator. -/
def Covered (bs : List UInt8) : Prop :=
  0 ∉ bs ∨ Crc.gen crcPoly ∣
    Crc.message ((seen bs).map UInt8.toBitVec) - Crc.message (bs.map UInt8.toBitVec)

theorem crcPoly_top : crcPoly.getLsbD (64 - 1) = true := by decide

theorem seen_eq {bs : List UInt8} (h : 0 ∉ bs) : seen bs = bs :=
  List.takeWhile_eq_self_iff.mpr fun _ hb => decide_eq_true fun hb0 => h (hb0 ▸ hb)

theorem crcOf_inj {bs cs : List UInt8} : crcOf bs = crcOf cs ↔
    Crc.crc crcPoly 0 (bs.map UInt8.toBitVec) = Crc.crc crcPoly 0 (cs.map UInt8.toBitVec) := by
  constructor
  · intro h
    exact congrArg (fun x : Int64 => x.toUInt64.toBitVec) h
  · intro h
    rw [crcOf, crcOf, h]

theorem crc64_seen (bs seq : List UInt8) :
    (crcLoop 0 (bs ++ 0 :: seq)).map UInt64.toInt64 = some (crcOf (seen bs)) := by
  rw [crcLoop_seen]
  rfl

theorem crc64_covered (bs seq : List UInt8) :
    (crcLoop 0 (bs ++ 0 :: seq)).map UInt64.toInt64 = some (crcOf bs) ↔ Covered bs := by
  rw [crc64_seen, Option.some.injEq, crcOf_inj, Covered, ← Crc.crc_eq_iff (by decide) crcPoly_top]
  constructor
  · exact Or.inr
  · rintro (h | h)
    · rw [seen_eq h]
    · exact h

/-- A byte that is changed changes the check. -/
theorem crcOf_set_ne {bs : List UInt8} {i : Nat} {b : UInt8} (hi : i < bs.length) (hb : bs[i] ≠ b) :
    crcOf (bs.set i b) ≠ crcOf bs := by
  rw [Ne, crcOf_inj, List.map_set]
  refine Crc.crc_set_ne crcPoly_top (by decide) (by rwa [List.length_map]) ?_
  rw [List.getElem_map, Ne, UInt8.toBitVec_inj]
  exact hb

/-- **What `crc64` is the check of**: of all bytes exactly if they are covered; and what it is
then depends on every one of them. -/
theorem crc64_iff (s : Ustr) (t : Str) (bs : List UInt8) (i : Nat) (b : UInt8) :
    (Ustr.crc64 s.buf = some (crcOf s.chars) ↔ Covered s.chars) ∧
    (Str.crc64 t.buf = some (crcOf t.chars) ↔ Covered t.chars) ∧
    ∀ hi : i < bs.length, bs[i] ≠ b → crcOf (bs.set i b) ≠ crcOf bs :=
  ⟨crc64_covered s.chars [], crc64_covered t.chars [0, 0, 0], fun hi hb => crcOf_set_ne hi hb⟩

/-- "ab" and "cb". -/
theorem crc64_differs : crcOf ([97, 98].set 0 99) ≠ crcOf [97, 98] :=
  (crc64_iff ⟨⟨[97, 98], by decide⟩, by decide⟩ ⟨⟨[], by decide, by decide⟩, by decide⟩ [97, 98] 0 99).2.2
    (by decide) (by decide)

/-- L"a", of which the zero bytes are left out. -/
theorem crc64_fails : ¬ Str.crc64 (Xdrbuf.Str.buf ⟨[97, 0, 0, 0], by decide, by decide⟩) =
    some (crcOf [97, 0, 0, 0]) := by
  have hseen : Str.crc64 (Xdrbuf.Str.buf ⟨[97, 0, 0, 0], by decide, by decide⟩) = some (crcOf [97]) :=
    crc64_seen [97, 0, 0, 0] [0, 0, 0]
  rw [hseen, Option.some.injEq, crcOf_inj]
  decide +kernel

end Results

end Strings

end CodeSLoop
