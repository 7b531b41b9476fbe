import Mathlib.Algebra.Group.Hom.Defs
import Mathlib.Algebra.Group.Basic
import Mathlib.Algebra.BigOperators.Group.List.Basic
import Mathlib.Data.Fintype.EquivFin

/-!
# Bytes as the field of 256 elements

A byte is a polynomial of degree less than eight over the field of two elements; bytes are added by
`xor`, and multiplied modulo `X ^ 8 + X ^ 4 + X ^ 3 + X + 1`. What is needed of this field is that
multiplication by a constant is additive (`mulHom`), and the inverse of a byte.

The product is computed on natural numbers, by the rule of Horner, so that statements about all bytes
can be decided (`forall_elem`); an additive map is known from eight of them (`hom_ext`).
-/

/-- A byte, as an element of the field. -/
@[ext] structure Gf256 where
  bits : BitVec 8
deriving DecidableEq

namespace Gf256

/-- The byte with this number. -/
def ofNat (n : Nat) : Gf256 := ⟨BitVec.ofNat 8 n⟩

instance : Add Gf256 := ⟨fun a b => ⟨a.bits ^^^ b.bits⟩⟩

instance : Zero Gf256 := ⟨⟨0#8⟩⟩

instance : Neg Gf256 := ⟨id⟩

@[simp] theorem bits_add (a b : Gf256) : (a + b).bits = a.bits ^^^ b.bits := rfl

@[simp] theorem bits_zero : (0 : Gf256).bits = 0#8 := rfl

@[simp] theorem neg_eq (a : Gf256) : -a = a := rfl

instance : AddCommGroup Gf256 where
  add_assoc a b c := Gf256.ext (BitVec.xor_assoc a.bits b.bits c.bits)
  zero_add _ := Gf256.ext BitVec.zero_xor
  add_zero _ := Gf256.ext BitVec.xor_zero
  neg_add_cancel _ := Gf256.ext BitVec.xor_self
  add_comm a b := Gf256.ext (BitVec.xor_comm a.bits b.bits)
  nsmul := nsmulRec
  zsmul := zsmulRec

@[simp] theorem sub_eq (a b : Gf256) : a - b = a + b := rfl

@[simp] theorem ofNat_toNat (a : Gf256) : ofNat a.bits.toNat = a := by
  simp [ofNat]

/-- What holds of 256 numbers holds of every byte. -/
theorem forall_elem {P : Gf256 → Prop} (h : ∀ n < 256, P (ofNat n)) (a : Gf256) : P a :=
  ofNat_toNat a ▸ h _ a.bits.isLt

instance : Finite Gf256 :=
  Finite.of_injective (β := Fin (2 ^ 8)) (fun a => a.bits.toFin) fun _ _ h =>
    Gf256.ext (BitVec.eq_of_toFin_eq h)

/-- The byte as a sum of powers of `X`. -/
theorem sum_bits : ∀ a : Gf256,
    ((List.range 8).map fun i => if a.bits.getLsbD i then ofNat (2 ^ i) else 0).sum = a :=
  forall_elem (by decide +kernel)

/-- An additive map is known from the powers of `X`. -/
theorem hom_ext {f g : Gf256 →+ Gf256} (h : ∀ i < 8, f (ofNat (2 ^ i)) = g (ofNat (2 ^ i))) :
    f = g := by
  refine AddMonoidHom.ext fun a => ?_
  rw [← sum_bits a, map_list_sum, map_list_sum, List.map_map, List.map_map]
  congr 1
  refine List.map_congr_left fun i hi => ?_
  have hi : i < 8 := List.mem_range.mp hi
  simp only [Function.comp_apply]
  split
  · exact h i hi
  · simp

/-! ## Products -/

/-- A polynomial times `X`, reduced. -/
def double (r : Nat) : Nat := (r <<< 1) ^^^ ((r <<< 1) >>> 8) * 0x11b

/-- One step of the rule of Horner, for the factor `b` and a coefficient of the other one. -/
def hornerStep (b r bit : Nat) : Nat := double r ^^^ bit * b

/-- The product of two numbers below 256, as polynomials. -/
def mulNat (a b : Nat) : Nat :=
  [7, 6, 5, 4, 3, 2, 1, 0].foldl (fun r i => hornerStep b r ((a >>> i) &&& 1)) 0

def mul (a b : Gf256) : Gf256 := ofNat (mulNat a.bits.toNat b.bits.toNat)

theorem double_lt : ∀ r < 256, double r < 256 := by decide +kernel

/-- The bit that is reduced is zero or one. -/
theorem top_cases {r : Nat} (hr : r < 256) : (r <<< 1) >>> 8 = 0 ∨ (r <<< 1) >>> 8 = 1 := by
  simp only [Nat.shiftLeft_eq, Nat.shiftRight_eq_div_pow]
  omega

theorem mul_xor_of_bit {x y K : Nat} (hx : x = 0 ∨ x = 1) (hy : y = 0 ∨ y = 1) :
    (x ^^^ y) * K = x * K ^^^ y * K := by
  rcases hx with rfl | rfl <;> rcases hy with rfl | rfl <;> simp

theorem double_xor {r s : Nat} (hr : r < 256) (hs : s < 256) :
    double (r ^^^ s) = double r ^^^ double s := by
  simp only [double, Nat.shiftLeft_xor_distrib, Nat.shiftRight_xor_distrib,
    mul_xor_of_bit (top_cases hr) (top_cases hs)]
  ac_rfl

theorem bit_cases (a i : Nat) : (a >>> i) &&& 1 = 0 ∨ (a >>> i) &&& 1 = 1 := by
  rw [Nat.and_one_is_mod]
  omega

theorem hornerStep_lt {b r bit : Nat} (hb : b < 256) (hr : r < 256) (hbit : bit = 0 ∨ bit = 1) :
    hornerStep b r bit < 256 := by
  have hbb : bit * b < 2 ^ 8 := by
    rcases hbit with rfl | rfl <;> simp [hb]
  exact Nat.xor_lt_two_pow (double_lt r hr) hbb

theorem hornerStep_xor {b b' r s bit : Nat} (hr : r < 256) (hs : s < 256)
    (hbit : bit = 0 ∨ bit = 1) :
    hornerStep (b ^^^ b') (r ^^^ s) bit = hornerStep b r bit ^^^ hornerStep b' s bit := by
  have hmul : bit * (b ^^^ b') = bit * b ^^^ bit * b' := by
    rcases hbit with rfl | rfl <;> simp
  rw [hornerStep, double_xor hr hs, hmul]
  simp only [hornerStep]
  ac_rfl

/-- The three sums run side by side. -/
theorem foldl_hornerStep {a b b' : Nat} (hb : b < 256) (hb' : b' < 256) (l : List Nat) :
    ∀ r s, r < 256 → s < 256 →
      l.foldl (fun r i => hornerStep (b ^^^ b') r ((a >>> i) &&& 1)) (r ^^^ s) =
          l.foldl (fun r i => hornerStep b r ((a >>> i) &&& 1)) r ^^^
            l.foldl (fun r i => hornerStep b' r ((a >>> i) &&& 1)) s ∧
        l.foldl (fun r i => hornerStep b r ((a >>> i) &&& 1)) r < 256 := by
  induction l with
  | nil => exact fun r s hr _ => ⟨rfl, hr⟩
  | cons i l ih =>
    intro r s hr hs
    have hbit := bit_cases a i
    simp only [List.foldl_cons]
    rw [hornerStep_xor hr hs hbit]
    exact ih _ _ (hornerStep_lt hb hr hbit) (hornerStep_lt hb' hs hbit)

theorem mulNat_xor {a b b' : Nat} (hb : b < 256) (hb' : b' < 256) :
    mulNat a (b ^^^ b') = mulNat a b ^^^ mulNat a b' :=
  (foldl_hornerStep hb hb' _ 0 0 (by simp) (by simp)).1

theorem ofNat_xor (m n : Nat) : ofNat (m ^^^ n) = ofNat m + ofNat n :=
  Gf256.ext BitVec.ofNat_xor

/-- **Multiplication by a constant is additive.** -/
theorem mul_add (c a b : Gf256) : mul c (a + b) = mul c a + mul c b := by
  rw [mul, bits_add, BitVec.toNat_xor, mulNat_xor a.bits.isLt b.bits.isLt, ofNat_xor]
  rfl

/-- Multiplication by `c`. -/
def mulHom (c : Gf256) : Gf256 →+ Gf256 :=
  AddMonoidHom.mk' (mul c) (mul_add c)

@[simp] theorem mulHom_apply (c a : Gf256) : mulHom c a = mul c a := rfl

/-- `a ^ 254`. -/
def inv (a : Gf256) : Gf256 :=
  let square := fun x => mul x x
  let a3 := mul a (square a)
  let a15 := mul a3 (square (square a3))
  let a63 := mul a3 (square (square a15))
  square (mul a (square a63))

/-- **Every byte but zero has an inverse.** -/
theorem mul_inv : ∀ a : Gf256, a ≠ 0 → mul a (inv a) = ofNat 1 :=
  forall_elem (by decide +kernel)

end Gf256
