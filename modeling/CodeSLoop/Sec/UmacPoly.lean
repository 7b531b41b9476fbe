import CodeSLoop.Lib.PolyHash
import CodeSLoop.Sec.UmacNh
import Mathlib.Algebra.Field.ZMod
import Mathlib.NumberTheory.LucasPrimality
import Mathlib.Tactic.NormNum.Prime
import Mathlib.Tactic.ReduceModChar

/-!
# The other layers of UMAC: POLY and IP (`sec/umac.c`)

`poly64` works on numbers modulo `p64` that need not be reduced, and does without a division; so does
`ip_reduce_p36` modulo `p36`. With keys from their domains nothing overflows that is not made up for:
`poly64` is a step of the rule of Horner (`poly64_cast`), and `ip` the inner product (`ip_eq`).
-/

namespace CodeSLoop.Umac

/-! ## The moduli -/

def p36 : Nat := 0x0000000FFFFFFFFB

def p64 : Nat := 0xFFFFFFFFFFFFFFC5

/-- A number is prime when something has the order `n - 1` modulo `n`. -/
theorem prime_of_factors {n : Nat} (a : ZMod n) (fs : List Nat) (hfs : ∀ q ∈ fs, Nat.Prime q)
    (hn : n - 1 = fs.prod) (h1 : a ^ fs.prod = 1) (hne : ∀ q ∈ fs, a ^ (fs.prod / q) ≠ 1) :
    Nat.Prime n := by
  refine lucas_primality n a (hn ▸ h1) fun q hq hdvd => ?_
  rw [hn] at hdvd ⊢
  obtain ⟨f, hf, hqf⟩ := (Prime.dvd_prod_iff hq.prime).mp hdvd
  have hqf : q = f := (Nat.prime_dvd_prime_iff_eq hq (hfs f hf)).mp hqf
  exact hqf ▸ hne f hf

theorem prime_5594472617641 : Nat.Prime 5594472617641 := by
  refine prime_of_factors 13 [2, 2, 2, 3, 5, 1427, 2131, 15331] ?_ rfl ?_ ?_
  · norm_num
  · norm_num
    reduce_mod_char
  · norm_num
    reduce_mod_char
    decide

theorem prime_p64 : Nat.Prime p64 := by
  refine prime_of_factors (n := 18446744073709551557) 2 [2, 2, 11, 137, 547, 5594472617641] ?_ rfl ?_ ?_
  · simp only [List.forall_mem_cons, prime_5594472617641]
    norm_num
  · norm_num
    reduce_mod_char
  · norm_num
    reduce_mod_char
    decide

theorem prime_6871947673 : Nat.Prime 6871947673 := by
  refine prime_of_factors 5 [2, 2, 2, 3, 17, 257, 65537] ?_ rfl ?_ ?_
  · norm_num
  · norm_num
    reduce_mod_char
  · norm_num
    reduce_mod_char
    decide

theorem prime_p36 : Nat.Prime p36 := by
  refine prime_of_factors (n := 68719476731) 2 [2, 5, 6871947673] ?_ rfl ?_ ?_
  · simp only [List.forall_mem_cons, prime_6871947673]
    norm_num
  · norm_num
    reduce_mod_char
  · norm_num
    reduce_mod_char
    decide

instance : Fact p64.Prime := ⟨prime_p64⟩

instance : Fact p36.Prime := ⟨prime_p36⟩

/-! ## The code -/

/-- `poly64`: the product and the sum, modulo `p64`. -/
def poly64 (cur key data : U64) : U64 :=
  let keyHi := (key >>> 32).setWidth 32
  let keyLo := key.setWidth 32
  let curHi := (cur >>> 32).setWidth 32
  let curLo := cur.setWidth 32
  let x := mul64 keyHi curLo + mul64 curHi keyLo
  let xLo := x.setWidth 32
  let xHi := (x >>> 32).setWidth 32
  let res := (mul64 keyHi curHi + xHi.setWidth 64) * 59#64 + mul64 keyLo curLo
  let t := xLo.setWidth 64 <<< 32
  let res := res + t
  let res := if res < t then res + 59#64 else res
  let res := res + data
  if res < data then res + 59#64 else res

/-- What `poly_hash` does for one stream: a number that is too big for a word of the polynomial is put
    there as two. -/
def polyHash1 (accum key data : U64) : U64 :=
  if (data >>> 32).setWidth 32 = 0xffffffff#32 then
    poly64 (poly64 accum key (BitVec.ofNat 64 (p64 - 1))) key (data - 59#64)
  else poly64 accum key data

/-- `ip_aux`. -/
def ipAux (t : U64) (ipkp : List U64) (data : U64) : U64 :=
  let t := t + ipkp.getD 0 0 * ((data >>> 48).setWidth 16).setWidth 64
  let t := t + ipkp.getD 1 0 * ((data >>> 32).setWidth 16).setWidth 64
  let t := t + ipkp.getD 2 0 * ((data >>> 16).setWidth 16).setWidth 64
  t + ipkp.getD 3 0 * (data.setWidth 16).setWidth 64

/-- `ip_reduce_p36`. -/
def ipReduceP36 (t : U64) : U32 :=
  let ret := (t &&& 0x0000000FFFFFFFFF#64) + 5#64 * (t >>> 36)
  let ret := if ret ≥ BitVec.ofNat 64 p36 then ret - BitVec.ofNat 64 p36 else ret
  ret.setWidth 32

/-! ## POLY -/

/-- The domain of the keys of `poly64`: either half has 25 bits. -/
def PolyKey (key : U64) : Prop := key &&& 0x01ffffff01ffffff#64 = key

instance (key : U64) : Decidable (PolyKey key) := inferInstanceAs (Decidable (_ = _))

theorem toNat_hi (x : U64) : ((x >>> 32).setWidth 32).toNat = x.toNat / 2 ^ 32 := by
  have hx := x.isLt
  have hlt : x.toNat / 2 ^ 32 < 2 ^ 32 := by omega
  rw [BitVec.toNat_setWidth, BitVec.toNat_ushiftRight, Nat.shiftRight_eq_div_pow, Nat.mod_eq_of_lt hlt]

theorem toNat_lo (x : U64) : (x.setWidth 32).toNat = x.toNat % 2 ^ 32 := BitVec.toNat_setWidth _ _

theorem toNat_mul64 (a b : U32) : (mul64 a b).toNat = a.toNat * b.toNat := by
  have hmul : a.toNat * b.toNat < 2 ^ 32 * 2 ^ 32 := Nat.mul_lt_mul'' a.isLt b.isLt
  have hwide (c : U32) : (c.setWidth 64).toNat = c.toNat := BitVec.toNat_setWidth_of_le (by simp)
  rw [mul64, BitVec.toNat_mul, hwide, hwide, Nat.mod_eq_of_lt (by omega)]

theorem PolyKey.halves {key : U64} (h : PolyKey key) :
    key.toNat / 2 ^ 32 ≤ 0x01ffffff ∧ key.toNat % 2 ^ 32 ≤ 0x01ffffff := by
  have hand : key.toNat &&& 0x01ffffff01ffffff = key.toNat := by
    have hn := congrArg BitVec.toNat h
    rwa [BitVec.toNat_and] at hn
  constructor
  · rw [← hand, ← Nat.shiftRight_eq_div_pow, Nat.shiftRight_and_distrib]
    exact Nat.and_le_right
  · rw [← hand, Nat.and_mod_two_pow]
    exact Nat.and_le_right

/-- A sum that goes around: what is lost is made up for. -/
theorem cast_add59 {r t : U64} (h : r.toNat + t.toNat + 59 < 2 ^ 65) :
    ((if r + t < t then r + t + 59#64 else r + t).toNat : ZMod p64) = r.toNat + t.toNat := by
  have hr := r.isLt
  have ht := t.isLt
  by_cases hlt : r.toNat + t.toNat < 2 ^ 64
  · have hsum : (r + t).toNat = r.toNat + t.toNat := by
      rw [BitVec.toNat_add, Nat.mod_eq_of_lt hlt]
    have hno : ¬ r + t < t := by
      rw [BitVec.lt_def]
      omega
    rw [if_neg hno, hsum, Nat.cast_add]
  · have hsum : (r + t).toNat = r.toNat + t.toNat - 2 ^ 64 := by
      rw [BitVec.toNat_add]
      omega
    have hyes : r + t < t := by
      rw [BitVec.lt_def]
      omega
    have hmade : (r + t + 59#64).toNat + p64 = r.toNat + t.toNat := by
      rw [BitVec.toNat_add, hsum, BitVec.toNat_ofNat, p64]
      omega
    rw [if_pos hyes, ← Nat.cast_add, ← hmade, Nat.cast_add, ZMod.natCast_self, add_zero]

/-- Two products of halves fit into a word together. -/
theorem toNat_cross {a b : U32} (ha : a.toNat ≤ 0x01ffffff) (hb : b.toNat ≤ 0x01ffffff) (c d : U32) :
    (mul64 a c + mul64 d b).toNat = a.toNat * c.toNat + d.toNat * b.toNat ∧
      a.toNat * c.toNat + d.toNat * b.toNat < 2 ^ 58 := by
  have h1 : a.toNat * c.toNat ≤ 0x01ffffff * 2 ^ 32 := Nat.mul_le_mul ha c.isLt.le
  have h2 : d.toNat * b.toNat ≤ 2 ^ 32 * 0x01ffffff := Nat.mul_le_mul d.isLt.le hb
  refine ⟨?_, by omega⟩
  rw [BitVec.toNat_add, toNat_mul64, toNat_mul64, Nat.mod_eq_of_lt (by omega)]

/-- **`poly64` is a step of the rule of Horner**, if the key is from its domain and the number to be
    added is not too big. -/
theorem poly64_cast {cur key data : U64} (hkey : PolyKey key) (hdata : data.toNat < p64) :
    ((poly64 cur key data).toNat : ZMod p64) = cur.toNat * key.toNat + data.toNat := by
  obtain ⟨hkh, hkl⟩ := hkey.halves
  have hcur : 2 ^ 32 * (cur.toNat / 2 ^ 32) + cur.toNat % 2 ^ 32 = cur.toNat := Nat.div_add_mod _ _
  have hkeyEq : 2 ^ 32 * (key.toNat / 2 ^ 32) + key.toNat % 2 ^ 32 = key.toNat := Nat.div_add_mod _ _
  rw [← toNat_hi, ← toNat_lo] at hcur hkeyEq
  rw [← toNat_hi] at hkh
  rw [← toNat_lo] at hkl
  let kh : U32 := (key >>> 32).setWidth 32
  let kl : U32 := key.setWidth 32
  let ch : U32 := (cur >>> 32).setWidth 32
  let cl : U32 := cur.setWidth 32
  let x : U64 := mul64 kh cl + mul64 ch kl
  let xLo : U32 := x.setWidth 32
  let xHi : U32 := (x >>> 32).setWidth 32
  let r : U64 := (mul64 kh ch + xHi.setWidth 64) * 59#64 + mul64 kl cl
  let t : U64 := xLo.setWidth 64 <<< 32
  let s : U64 := if r + t < t then r + t + 59#64 else r + t
  have hpoly : poly64 cur key data = if s + data < data then s + data + 59#64 else s + data := rfl
  obtain ⟨hx, hxlt⟩ : x.toNat = kh.toNat * cl.toNat + ch.toNat * kl.toNat ∧
      kh.toNat * cl.toNat + ch.toNat * kl.toNat < 2 ^ 58 := toNat_cross hkh hkl cl ch
  have hxEq : 2 ^ 32 * xHi.toNat + xLo.toNat = x.toNat := by
    rw [toNat_hi, toNat_lo]
    exact Nat.div_add_mod _ _
  have hwide (c : U32) : (c.setWidth 64).toNat = c.toNat := BitVec.toNat_setWidth_of_le (by simp)
  have hxLo := xLo.isLt
  have hxHi : xHi.toNat < 2 ^ 26 := by omega
  have hhi : kh.toNat * ch.toNat ≤ 0x01ffffff * 2 ^ 32 := Nat.mul_le_mul hkh ch.isLt.le
  have hlo : kl.toNat * cl.toNat ≤ 0x01ffffff * 2 ^ 32 := Nat.mul_le_mul hkl cl.isLt.le
  have hr : r.toNat = (kh.toNat * ch.toNat + xHi.toNat) * 59 + kl.toNat * cl.toNat := by
    simp only [r, BitVec.toNat_add, BitVec.toNat_mul, toNat_mul64, hwide, BitVec.toNat_ofNat]
    omega
  have ht : t.toNat = xLo.toNat * 2 ^ 32 := by
    simp only [t, BitVec.toNat_shiftLeft, hwide, Nat.shiftLeft_eq]
    omega
  have hs : (s.toNat : ZMod p64) = r.toNat + t.toNat := cast_add59 (by omega)
  have hsdata : s.toNat + data.toNat + 59 < 2 ^ 65 := by
    have := s.isLt
    simp only [p64] at hdata
    omega
  -- in the product, `2 ^ 64` is 59
  have h59 : ((2 ^ 64 : ℕ) : ZMod p64) = 59 := by
    have hsplit : 2 ^ 64 = p64 + 59 := rfl
    rw [hsplit, Nat.cast_add, ZMod.natCast_self, zero_add]
    rfl
  have hprod : cur.toNat * key.toNat =
      (kh.toNat * ch.toNat + xHi.toNat) * 2 ^ 64 + xLo.toNat * 2 ^ 32 + kl.toNat * cl.toNat := by
    have hcross : 2 ^ 32 * (2 ^ 32 * xHi.toNat + xLo.toNat) =
        2 ^ 32 * (kh.toNat * cl.toNat + ch.toNat * kl.toNat) := by rw [hxEq, hx]
    rw [← hcur, ← hkeyEq]
    linear_combination -hcross
  rw [hpoly, cast_add59 hsdata, hs, hr, ht, ← Nat.cast_mul, hprod]
  push_cast
  push_cast at h59
  rw [h59]
  ring

/-- The words of the polynomial for a number: those that are not below `2 ^ 64 - 2 ^ 32` have a word
    before them that no other number begins with. -/
def encode (w : U64) : List (ZMod p64) :=
  if 2 ^ 64 - 2 ^ 32 ≤ w.toNat then [((p64 - 1 : Nat) : ZMod p64), ((w.toNat - 59 : Nat) : ZMod p64)]
  else [(w.toNat : ZMod p64)]

/-- The test of `poly_hash`. -/
theorem hi_eq_iff (w : U64) :
    (w >>> 32).setWidth 32 = 0xffffffff#32 ↔ 2 ^ 64 - 2 ^ 32 ≤ w.toNat := by
  rw [← BitVec.toNat_inj, toNat_hi, BitVec.toNat_ofNat]
  have := w.isLt
  omega

open PolyHash in
theorem polyHash1_cast {accum key : U64} (hkey : PolyKey key) (w : U64) :
    ((polyHash1 accum key w).toNat : ZMod p64) = horner (key.toNat : ZMod p64) accum.toNat (encode w) := by
  have hw := w.isLt
  unfold polyHash1 encode
  by_cases hbig : 2 ^ 64 - 2 ^ 32 ≤ w.toNat
  · have hsub : (w - 59#64).toNat = w.toNat - 59 := by
      rw [BitVec.toNat_sub, BitVec.toNat_ofNat]
      omega
    have hmark : (BitVec.ofNat 64 (p64 - 1)).toNat = p64 - 1 := rfl
    have hlt : (w - 59#64).toNat < p64 := by
      rw [hsub, p64]
      omega
    have hmarkLt : (BitVec.ofNat 64 (p64 - 1)).toNat < p64 := by
      rw [hmark, p64]
      omega
    rw [if_pos ((hi_eq_iff w).mpr hbig), if_pos hbig, poly64_cast hkey hlt, poly64_cast hkey hmarkLt, hsub,
      hmark]
    rfl
  · have hlt : w.toNat < p64 := by
      rw [p64]
      omega
    rw [if_neg (mt (hi_eq_iff w).mp hbig), if_neg hbig, poly64_cast hkey hlt]
    rfl

/-- `poly_hash`, for one number after the other, from `accum` on. -/
def polyHashes (accum key : U64) (ws : List U64) : U64 := ws.foldl (fun a w => polyHash1 a key w) accum

open PolyHash in
/-- **`poly_hash` is the polynomial hash** of the words that the numbers are put there as. -/
theorem polyHashes_cast {accum key : U64} (hkey : PolyKey key) (ws : List U64) :
    ((polyHashes accum key ws).toNat : ZMod p64) =
      horner (key.toNat : ZMod p64) accum.toNat (ws.flatMap encode) := by
  induction ws generalizing accum with
  | nil => rfl
  | cons w ws ih =>
    rw [List.flatMap_cons, horner_append, ← polyHash1_cast hkey]
    exact ih

/-- A number that is put there as two words, and a small one. -/
theorem polyHashes_cast_marker :
    ((polyHashes 1 5#64 [0xffffffffffffffff#64, 7#64]).toNat : ZMod p64) =
      PolyHash.horner ((5#64 : U64).toNat : ZMod p64) (1 : U64).toNat
        ([0xffffffffffffffff#64, 7#64].flatMap encode) :=
  polyHashes_cast (by decide) _

/-- Numbers below the modulus are told apart. -/
theorem cast_inj {m n : Nat} (hm : m < p64) (hn : n < p64) :
    (m : ZMod p64) = n ↔ m = n := by
  rw [ZMod.natCast_eq_natCast_iff', Nat.mod_eq_of_lt hm, Nat.mod_eq_of_lt hn]

/-- The words begin with what only this number begins with. -/
theorem encode_append_inj {v w : U64} {xs ys : List (ZMod p64)} (h : encode v ++ xs = encode w ++ ys) :
    v = w ∧ xs = ys := by
  have hv := v.isLt
  have hw := w.isLt
  have hp : p64 = 2 ^ 64 - 59 := rfl
  have hmark : p64 - 1 < p64 := by omega
  unfold encode at h
  split at h <;> split at h
  · obtain ⟨-, h⟩ := List.cons.inj h
    obtain ⟨h, hrest⟩ := List.cons.inj h
    rw [cast_inj (by omega) (by omega)] at h
    exact ⟨BitVec.eq_of_toNat_eq (by omega), hrest⟩
  · have h := (List.cons.inj h).1
    rw [cast_inj hmark (by omega)] at h
    omega
  · have h := (List.cons.inj h).1
    rw [cast_inj (by omega) hmark] at h
    omega
  · obtain ⟨h, hrest⟩ := List.cons.inj h
    rw [cast_inj (by omega) (by omega)] at h
    exact ⟨BitVec.eq_of_toNat_eq h, hrest⟩

theorem encode_injective : Function.Injective fun ws : List U64 => ws.flatMap encode := by
  have hne (w : U64) : encode w ≠ [] := by
    unfold encode
    split <;> simp
  intro ws ws' h
  induction ws generalizing ws' with
  | nil =>
    cases ws' with
    | nil => rfl
    | cons w ws' => exact absurd (List.append_eq_nil_iff.mp h.symm).1 (hne w)
  | cons w ws ih =>
    cases ws' with
    | nil => exact absurd (List.append_eq_nil_iff.mp h).1 (hne w)
    | cons w' ws' =>
      obtain ⟨rfl, hrest⟩ := encode_append_inj h
      rw [ih hrest]

theorem length_encode_le (ws : List U64) : (ws.flatMap encode).length ≤ 2 * ws.length := by
  induction ws with
  | nil => simp
  | cons w ws ih =>
    have hw : (encode w).length ≤ 2 := by
      unfold encode
      split <;> simp
    rw [List.flatMap_cons, List.length_append, List.length_cons]
    omega

/-- What `ip_long` makes of a result of `poly64` that is not reduced. -/
def polyFix (a : U64) : U64 :=
  if a ≥ BitVec.ofNat 64 p64 then a - BitVec.ofNat 64 p64 else a

theorem toNat_polyFix (a : U64) : (polyFix a).toNat = (a.toNat : ZMod p64).val := by
  have ha := a.isLt
  have hp : (BitVec.ofNat 64 p64).toNat = p64 := rfl
  have hp' : p64 = 2 ^ 64 - 59 := rfl
  rw [ZMod.val_natCast, polyFix]
  by_cases hge : p64 ≤ a.toNat
  · have hge' : a ≥ BitVec.ofNat 64 p64 := by
      rwa [ge_iff_le, BitVec.le_def, hp]
    rw [if_pos hge', BitVec.toNat_sub_of_le hge', hp, Nat.mod_eq_sub_mod hge, Nat.mod_eq_of_lt (by omega)]
  · have hge' : ¬ a ≥ BitVec.ofNat 64 p64 := by
      rwa [ge_iff_le, BitVec.le_def, hp]
    rw [if_neg hge', Nat.mod_eq_of_lt (Nat.lt_of_not_le hge)]

/-- **Two sequences that differ have the same polynomial hash with few keys only**: no more than twice
    as many as there are numbers in the longer one. -/
theorem card_polyHashes_le {ws ws' : List U64} (hne : ws ≠ ws') (keys : Finset U64)
    (hkeys : ∀ k ∈ keys, PolyKey k ∧ polyFix (polyHashes 1 k ws) = polyFix (polyHashes 1 k ws')) :
    keys.card ≤ 2 * max ws.length ws'.length := by
  have hinj : Set.InjOn (fun k : U64 => (k.toNat : ZMod p64)) keys := by
    intro k hk k' hk' h
    have hlt {k : U64} (hk : k ∈ keys) : k.toNat < p64 := by
      have := (hkeys k hk).1.halves
      rw [p64]
      omega
    exact BitVec.eq_of_toNat_eq ((cast_inj (hlt hk) (hlt hk')).mp h)
  have hroots := PolyHash.card_collisions_le (encode_injective.ne hne)
    (keys.image fun k : U64 => (k.toNat : ZMod p64)) (by
      intro x hx
      obtain ⟨k, hk, rfl⟩ := Finset.mem_image.mp hx
      obtain ⟨hkey, heq⟩ := hkeys k hk
      have hval := congrArg BitVec.toNat heq
      rw [toNat_polyFix, toNat_polyFix] at hval
      have hcast := ZMod.val_injective p64 hval
      rw [polyHashes_cast hkey, polyHashes_cast hkey] at hcast
      simpa using hcast)
  rw [Finset.card_image_of_injOn hinj] at hroots
  have h1 := length_encode_le ws
  have h2 := length_encode_le ws'
  omega

/-- With the key 0 only the last number counts. -/
theorem card_polyHashes_le_zero : ({0} : Finset U64).card ≤ 2 * max [1#64, 7#64].length [7#64].length := by
  refine card_polyHashes_le (by decide) _ fun k hk => ?_
  obtain rfl := Finset.mem_singleton.mp hk
  decide

/-! ## IP -/

/-- The 16-bit digits of a number, the highest first. -/
def digit (w : U64) (i : Nat) : Nat := w.toNat / 2 ^ (48 - 16 * i) % 2 ^ 16

/-- The inner product of four keys and the digits. -/
def inner (ks : List U64) (w : U64) : Nat := ∑ i ∈ Finset.range 4, (ks.getD i 0).toNat * digit w i

/-- The domain of the keys of `ip_aux`. -/
def IpKeys (ks : List U64) : Prop := ∀ k ∈ ks, k.toNat < p36

theorem IpKeys.getD {ks : List U64} (h : IpKeys ks) (i : Nat) : (ks.getD i 0).toNat < p36 := by
  by_cases hi : i < ks.length
  · rw [List.getD_eq_getElem _ _ hi]
    exact h _ (List.getElem_mem hi)
  · rw [List.getD_eq_default _ _ (Nat.le_of_not_lt hi)]
    simp [p36]

theorem IpKeys.drop {ks : List U64} (h : IpKeys ks) (n : Nat) : IpKeys (ks.drop n) :=
  fun k hk => h k (List.mem_of_mem_drop hk)

theorem toNat_digit (w : U64) (n : Nat) :
    (((w >>> n).setWidth 16).setWidth 64).toNat = w.toNat / 2 ^ n % 2 ^ 16 := by
  rw [BitVec.toNat_setWidth_of_le (by simp), BitVec.toNat_setWidth, BitVec.toNat_ushiftRight,
    Nat.shiftRight_eq_div_pow]

theorem ipAux_toNat {ks : List U64} (hks : IpKeys ks) (w : U64) : (ipAux 0 ks w).toNat = inner ks w := by
  have hterm (i n : Nat) : (ks.getD i 0).toNat * (w.toNat / 2 ^ n % 2 ^ 16) < 2 ^ 52 := by
    have hk : (ks.getD i 0).toNat < 2 ^ 36 := (hks.getD i).trans (by decide)
    have hd : w.toNat / 2 ^ n % 2 ^ 16 < 2 ^ 16 := Nat.mod_lt _ (by simp)
    have hmul : (ks.getD i 0).toNat * (w.toNat / 2 ^ n % 2 ^ 16) < 2 ^ 36 * 2 ^ 16 :=
      Nat.mul_lt_mul'' hk hd
    omega
  have hzero : (0 : U64).toNat = 0 := rfl
  have h0 := hterm 0 48
  have h1 := hterm 1 32
  have h2 := hterm 2 16
  have h3 := hterm 3 0
  have hlast : ((w.setWidth 16).setWidth 64).toNat = w.toNat / 2 ^ 0 % 2 ^ 16 := by
    rw [← toNat_digit, BitVec.ushiftRight_zero]
  have hinner : inner ks w = (ks.getD 0 0).toNat * (w.toNat / 2 ^ 48 % 2 ^ 16) +
      (ks.getD 1 0).toNat * (w.toNat / 2 ^ 32 % 2 ^ 16) +
      (ks.getD 2 0).toNat * (w.toNat / 2 ^ 16 % 2 ^ 16) +
      (ks.getD 3 0).toNat * (w.toNat / 2 ^ 0 % 2 ^ 16) := by
    simp [inner, digit, Finset.sum_range_succ]
  rw [hinner]
  simp only [ipAux, BitVec.toNat_add, BitVec.toNat_mul, toNat_digit, hlast, hzero]
  generalize (ks.getD 0 0).toNat * (w.toNat / 2 ^ 48 % 2 ^ 16) = a at *
  generalize (ks.getD 1 0).toNat * (w.toNat / 2 ^ 32 % 2 ^ 16) = b at *
  generalize (ks.getD 2 0).toNat * (w.toNat / 2 ^ 16 % 2 ^ 16) = c at *
  generalize (ks.getD 3 0).toNat * (w.toNat / 2 ^ 0 % 2 ^ 16) = d at *
  omega

/-- **One subtraction is enough** to reduce any number. -/
theorem ipReduceP36_eq (t : U64) : ipReduceP36 t = BitVec.ofNat 32 (t.toNat % p36) := by
  have ht := t.isLt
  have hp : (BitVec.ofNat 64 p36).toNat = p36 := rfl
  have hp' : p36 = 2 ^ 36 - 5 := rfl
  let ret : U64 := (t &&& 0x0000000FFFFFFFFF#64) + 5#64 * (t >>> 36)
  have hmask : (t &&& 0x0000000FFFFFFFFF#64).toNat = t.toNat % 2 ^ 36 := by
    rw [BitVec.toNat_and]
    exact Nat.and_two_pow_sub_one_eq_mod t.toNat 36
  have hret : ret.toNat = t.toNat % 2 ^ 36 + 5 * (t.toNat / 2 ^ 36) := by
    rw [BitVec.toNat_add, BitVec.toNat_mul, hmask, BitVec.toNat_ushiftRight, BitVec.toNat_ofNat,
      Nat.shiftRight_eq_div_pow]
    omega
  -- the number is `ret` and a multiple of `p36`
  have hsplit : t.toNat = ret.toNat + p36 * (t.toNat / 2 ^ 36) := by
    rw [hret, hp']
    omega
  have hmod : t.toNat % p36 = ret.toNat % p36 := by
    rw [hsplit, Nat.add_mul_mod_self_left]
  have hsmall : ret.toNat < 2 * p36 := by
    rw [hret, hp']
    omega
  have hfix : ipReduceP36 t = (if ret ≥ BitVec.ofNat 64 p36 then ret - BitVec.ofNat 64 p36 else ret).setWidth 32 := rfl
  rw [hfix, hmod]
  apply BitVec.eq_of_toNat_eq
  rw [BitVec.toNat_setWidth, BitVec.toNat_ofNat]
  congr 1
  by_cases hge : p36 ≤ ret.toNat
  · have hge' : ret ≥ BitVec.ofNat 64 p36 := by
      rwa [ge_iff_le, BitVec.le_def, hp]
    rw [if_pos hge', BitVec.toNat_sub_of_le hge', hp, Nat.mod_eq_sub_mod hge, Nat.mod_eq_of_lt (by omega)]
  · have hge' : ¬ ret ≥ BitVec.ofNat 64 p36 := by
      rwa [ge_iff_le, BitVec.le_def, hp]
    rw [if_neg hge', Nat.mod_eq_of_lt (Nat.lt_of_not_le hge)]

/-- IP: the low 32 bits of the inner product modulo `p36`. -/
def ipValue (ks : List U64) (w : U64) : U32 := BitVec.ofNat 32 (inner ks w % p36)

/-- **`ip_aux` and `ip_reduce_p36`** give the inner product. -/
theorem ip_eq {ks : List U64} (hks : IpKeys ks) (w : U64) : ipReduceP36 (ipAux 0 ks w) = ipValue ks w := by
  rw [ipReduceP36_eq, ipAux_toNat hks, ipValue]

end CodeSLoop.Umac
