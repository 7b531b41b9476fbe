import CodeSLoop.Lib.Cfb
import Mathlib.Data.List.OfFn

/-!
# What a register keeps of the ciphertext

After a ciphertext, a register has the bytes since its place was last at the start and, behind
these, what the block function has made of the `w` bytes before them (`late_eq_iff`). What was
changed earlier leaves no trace, then (`absorb_eq_iff`).

And all that is in a register shows in the next `2 * w` bytes that are encrypted with it, when
different registers are different for the block function (`encrypt_eq_iff`).
-/

namespace Cfb

variable {w : Nat} {B : Type} [NeZero w] {C : Cipher w B} {s s' : State w B}
  {bs cs z z' l l' : List B} {b b' : Fin w → B}

theorem absorb_append : absorb C s (cs ++ z) = absorb C (absorb C s cs) z := List.foldl_append

/-! ## Up to the end of the register -/

theorem num_shift (h : s.num.val + 1 < w) {c : B} : (shift C s c).num.val = s.num.val + 1 := by
  rw [shift]
  dsimp only
  rw [Fin.val_add, Fin.val_one', Nat.add_mod_mod, Nat.mod_eq_of_lt h]

theorem filled_shift (h : s.num.val + 1 < w) {c : B} :
    (shift C s c).filled C = Function.update (s.filled C) s.num c := by
  have hne : (shift C s c).num ≠ 0 := by
    intro h0
    have hval := congrArg Fin.val h0
    rw [num_shift h] at hval
    exact Nat.succ_ne_zero _ hval
  exact if_neg hne

/-- Bytes of ciphertext are put one after the other. -/
theorem absorb_within (hne : cs ≠ []) (h : s.num.val + cs.length ≤ w) (i : Fin w) :
    (absorb C s cs).ivec i = if s.num.val ≤ i.val then
      cs[i.val - s.num.val]?.getD (s.filled C i) else s.filled C i := by
  induction cs generalizing s with
  | nil => exact absurd rfl hne
  | cons c cs ih =>
    rw [List.length_cons] at h
    have hupdate : Function.update (s.filled C) s.num c i =
        if i.val = s.num.val then c else s.filled C i := by
      rw [Function.update_apply]
      exact if_congr Fin.ext_iff rfl rfl
    rcases cs with - | ⟨c', cs⟩
    · refine hupdate.trans ?_
      by_cases hi : i.val = s.num.val
      · simp [hi]
      · rw [if_neg hi]
        by_cases hle : s.num.val ≤ i.val
        · rw [if_pos hle, List.getElem?_eq_none (by simp; omega)]
          rfl
        · rw [if_neg hle]
    · rw [List.length_cons] at h
      have hlt : s.num.val + 1 < w := by omega
      have hrest := @ih (shift C s c) (by simp) (by rw [num_shift hlt, List.length_cons]; omega)
      rw [num_shift hlt, filled_shift hlt, hupdate] at hrest
      refine hrest.trans ?_
      by_cases hi : i.val = s.num.val
      · simp [hi]
      · rw [if_neg hi]
        by_cases hle : s.num.val ≤ i.val
        · rw [if_pos hle, if_pos (by omega), show i.val - s.num.val = i.val - (s.num.val + 1) + 1 by
            omega, List.getElem?_cons_succ]
        · rw [if_neg hle, if_neg (by omega)]

theorem num_absorb_congr (hnum : s.num = s'.num) (hlen : cs.length = z.length) :
    (absorb C s cs).num = (absorb C s' z).num := by
  refine Fin.ext ?_
  rw [num_absorb, num_absorb, hnum, hlen]

/-- A whole register of ciphertext is all that is left then. -/
theorem absorb_block (h0 : s.num = 0) : absorb C s (List.ofFn b) = ⟨b, 0⟩ := by
  have hv : s.num.val = 0 := congrArg Fin.val h0
  have hne : List.ofFn b ≠ [] := by
    intro hnil
    have hlen := congrArg List.length hnil
    rw [List.length_ofFn] at hlen
    exact NeZero.ne w hlen
  refine State.ext (funext fun i => ?_) (Fin.ext ?_)
  · rw [absorb_within hne (by rw [hv, List.length_ofFn, Nat.zero_add]), hv,
      if_pos (Nat.zero_le _), Nat.sub_zero]
    simp
  · rw [num_absorb, hv, List.length_ofFn, Nat.zero_add, Nat.mod_self]
    rfl

theorem absorb_late (hlt : l.length < w) (hne : l ≠ []) (i : Fin w) :
    (absorb C ⟨b, 0⟩ l).ivec i = l[i.val]?.getD (C.block b i) := by
  have h := @absorb_within w B _ C ⟨b, 0⟩ l hne (by simp; omega) i
  simpa [State.filled] using h

/-- The bytes since the last whole register, and what the block function has made of that. -/
theorem late_eq_iff (hinj : Function.Injective C.block) (hlen : l.length = l'.length)
    (hlt : l.length < w) : absorb C ⟨b, 0⟩ l = absorb C ⟨b', 0⟩ l' ↔
      l = l' ∧ ∀ i : Fin w, l.length ≤ i.val → C.block b i = C.block b' i := by
  by_cases hnil : l = []
  · have hnil' : l' = [] := List.eq_nil_of_length_eq_zero (by rw [← hlen, hnil]; rfl)
    subst hnil hnil'
    constructor
    · intro h
      have hb : b = b' := congrArg State.ivec h
      exact ⟨rfl, fun i hi => by rw [hb]⟩
    · rintro ⟨-, hblock⟩
      rw [hinj (funext fun i => hblock i (Nat.zero_le _))]
  · have hnil' : l' ≠ [] := by
      rintro rfl
      exact hnil (List.eq_nil_of_length_eq_zero hlen)
    have hl := @absorb_late w B _ C l b hlt hnil
    have hl' := @absorb_late w B _ C l' b' (hlen ▸ hlt) hnil'
    constructor
    · intro h
      have hi : ∀ i : Fin w, l[i.val]?.getD (C.block b i) = l'[i.val]?.getD (C.block b' i) := by
        intro i
        rw [← hl, ← hl', h]
      refine ⟨List.ext_getElem hlen fun n h₁ h₂ => ?_, fun i hle => ?_⟩
      · have hn := hi ⟨n, h₁.trans hlt⟩
        rwa [List.getElem?_eq_getElem h₁, List.getElem?_eq_getElem h₂] at hn
      · have hi := hi i
        rwa [List.getElem?_eq_none hle, List.getElem?_eq_none (hlen ▸ hle)] at hi
    · rintro ⟨rfl, hblock⟩
      refine State.ext (funext fun i => ?_) (num_absorb_congr rfl rfl)
      rw [hl, hl']
      by_cases hi : i.val < l.length
      · rw [List.getElem?_eq_getElem hi]
        rfl
      · rw [List.getElem?_eq_none (Nat.le_of_not_lt hi)]
        exact hblock i (Nat.le_of_not_lt hi)

/-! ## Changes that leave no trace -/

/-- Ciphertexts that are the same in their last `n` bytes, and are before that in a register that
    the block function does not tell apart from `n` on. -/
def Overlooked (C : Cipher w B) (n : Nat) (z z' : List B) : Prop :=
  ∃ (p p' : List B) (b b' : Fin w → B) (l : List B), l.length = n ∧
    z = p ++ (List.ofFn b ++ l) ∧ z' = p' ++ (List.ofFn b' ++ l) ∧
    ∀ i : Fin w, n ≤ i.val → C.block b i = C.block b' i

omit [NeZero w] in
theorem exists_late {n : Nat} (h : w + n ≤ z.length) :
    ∃ (p : List B) (b : Fin w → B) (l : List B), l.length = n ∧ z = p ++ (List.ofFn b ++ l) := by
  have hlen : ((z.drop (z.length - (w + n))).take w).length = w := by
    rw [List.length_take, List.length_drop]
    omega
  refine ⟨z.take (z.length - (w + n)),
    fun i => ((z.drop (z.length - (w + n))).take w).get (i.cast hlen.symm),
    (z.drop (z.length - (w + n))).drop w, ?_, ?_⟩
  · rw [List.length_drop, List.length_drop]
    omega
  · have hofFn : List.ofFn (fun i : Fin w =>
        ((z.drop (z.length - (w + n))).take w).get (i.cast hlen.symm)) =
          (z.drop (z.length - (w + n))).take w := by
      refine List.ext_getElem (by rw [List.length_ofFn, hlen]) fun i h₁ h₂ => ?_
      rw [List.getElem_ofFn]
      rfl
    rw [hofFn, List.take_append_drop, List.take_append_drop]

/-- Behind a whole register, and at the place `n`. -/
theorem absorb_register {p : List B} (h : (absorb C s (p ++ (List.ofFn b ++ l))).num.val = l.length) :
    absorb C s (p ++ (List.ofFn b ++ l)) = absorb C ⟨b, 0⟩ l := by
  have hlt : l.length < w := h ▸ Fin.isLt _
  rw [absorb_append, absorb_append] at h
  have hq := (absorb C s p).num.isLt
  have h0 : (absorb C s p).num.val = 0 := by
    rw [num_absorb, num_absorb, List.length_ofFn, Nat.add_mod_right, Nat.mod_eq_of_lt hq] at h
    by_cases hsum : (absorb C s p).num.val + l.length < w
    · rw [Nat.mod_eq_of_lt hsum] at h
      omega
    · rw [Nat.mod_eq_sub_mod (Nat.le_of_not_lt hsum), Nat.mod_eq_of_lt (by omega)] at h
      omega
  rw [absorb_append, absorb_append, absorb_block (Fin.ext h0)]

/-- **What was changed shows in the register**, unless it is overlooked. The ciphertexts start with
    the same bytes, which fill a register. -/
theorem absorb_eq_iff (hinj : Function.Injective C.block) {h : List B} (hw : w ≤ h.length)
    (hlen : z.length = z'.length) (hne : z ≠ z') :
    absorb C s (h ++ z) = absorb C s (h ++ z') ↔
      Overlooked C ((s.num.val + (h ++ z).length) % w) (h ++ z) (h ++ z') := by
  have hnum : (absorb C s (h ++ z)).num.val = (s.num.val + (h ++ z).length) % w := num_absorb
  have hnum' : (absorb C s (h ++ z')).num.val = (s.num.val + (h ++ z).length) % w := by
    rw [num_absorb, List.length_append, List.length_append, hlen]
  generalize (s.num.val + (h ++ z).length) % w = n at hnum hnum' ⊢
  have hn : n < w := hnum ▸ Fin.isLt _
  constructor
  · intro heq
    by_cases hle : n ≤ z.length
    · obtain ⟨p, b, l, hl, hz⟩ := @exists_late w B (h ++ z) n (by
        rw [List.length_append]
        omega)
      obtain ⟨p', b', l', hl', hz'⟩ := @exists_late w B (h ++ z') n (by
        rw [List.length_append]
        omega)
      rw [hz] at hnum
      rw [hz'] at hnum'
      rw [hz, hz', absorb_register (hnum.trans hl.symm), absorb_register (hnum'.trans hl'.symm),
        late_eq_iff hinj (hl.trans hl'.symm) (hl ▸ hn)] at heq
      obtain ⟨rfl, hblock⟩ := heq
      exact ⟨p, p', b, b', l, hl, hz, hz', hl ▸ hblock⟩
    · -- The whole of both is in the register.
      have hnil : z ≠ [] := by
        rintro rfl
        exact hne (List.eq_nil_of_length_eq_zero hlen.symm).symm
      have hnil' : z' ≠ [] := by
        rintro rfl
        exact hnil (List.eq_nil_of_length_eq_zero hlen)
      have hq := (absorb C s h).num.isLt
      have hwithin : (absorb C s h).num.val + z.length < w := by
        rw [absorb_append, num_absorb] at hnum
        by_contra hge
        rw [Nat.mod_eq_sub_mod (Nat.le_of_not_lt hge), Nat.mod_eq_of_lt (by omega)] at hnum
        omega
      rw [absorb_append, absorb_append] at heq
      refine absurd (List.ext_getElem hlen fun i h₁ h₂ => ?_) hne
      have hi := congrFun (congrArg State.ivec heq)
        ⟨(absorb C s h).num.val + i, by omega⟩
      rw [absorb_within hnil (Nat.le_of_lt hwithin), absorb_within hnil' (by omega)] at hi
      simpa [List.getElem?_eq_getElem h₁, List.getElem?_eq_getElem h₂] using hi
  · rintro ⟨p, p', b, b', l, hl, hz, hz', hblock⟩
    rw [hz] at hnum
    rw [hz'] at hnum'
    rw [hz, hz', absorb_register (hnum.trans hl.symm), absorb_register (hnum'.trans hl.symm)]
    exact (late_eq_iff hinj rfl (hl ▸ hn)).mpr ⟨rfl, hl ▸ hblock⟩

/-! ## What is encrypted with a register -/

/-- The bytes that are encrypted show what was combined with them. -/
theorem filled_eq_of_encrypt (hcomb : ∀ b k k', C.combine b k = C.combine b k' → k = k')
    (hnum : s.num = s'.num) (hout : (encrypt C s bs).2 = (encrypt C s' bs).2) (i : Fin w)
    (hle : s.num.val ≤ i.val) (hlt : i.val < s.num.val + bs.length) :
    s.filled C i = s'.filled C i := by
  induction bs generalizing s s' with
  | nil =>
    rw [List.length_nil] at hlt
    omega
  | cons b bs ih =>
    rw [encrypt, encrypt] at hout
    dsimp only at hout
    obtain ⟨hc, hrest⟩ := List.cons.inj hout
    rw [← hnum] at hc hrest
    rw [← hc] at hrest
    generalize C.combine b (s.filled C s.num) = c at hrest
    have hfirst := hcomb _ _ _ hc
    by_cases hi : i.val = s.num.val
    · rw [Fin.ext hi]
      exact hfirst
    · have hs : s.num.val + 1 < w := by
        have hlt := i.isLt
        omega
      have hs' : s'.num.val + 1 < w := hnum ▸ hs
      rw [List.length_cons] at hlt
      have hfilled := @ih (shift C s c) (shift C s' c)
        (Fin.ext (by rw [num_shift hs, num_shift hs', hnum])) hrest
        (by rw [num_shift hs]; omega) (by rw [num_shift hs]; omega)
      rw [filled_shift hs, filled_shift hs', ← hnum] at hfilled
      have hne : i ≠ s.num := fun he => hi (congrArg Fin.val he)
      rwa [Function.update_of_ne hne, Function.update_of_ne hne] at hfilled

theorem ivec_eq_of_encrypt (hinj : Function.Injective C.block)
    (hcomb : ∀ b k k', C.combine b k = C.combine b k' → k = k') (h0 : s.num = 0) (h0' : s'.num = 0)
    (hlen : w ≤ bs.length) (hout : (encrypt C s bs).2 = (encrypt C s' bs).2) : s.ivec = s'.ivec := by
  have hv : s.num.val = 0 := congrArg Fin.val h0
  have hfilled := filled_eq_of_encrypt hcomb (h0.trans h0'.symm) hout
  rw [State.filled, State.filled, if_pos h0, if_pos h0'] at hfilled
  refine hinj (funext fun i => hfilled i (by omega) ?_)
  have hi := i.isLt
  omega

/-- **Different registers encrypt differently.** -/
theorem encrypt_eq_iff (hinj : Function.Injective C.block)
    (hcomb : ∀ b k k', C.combine b k = C.combine b k' → k = k') (hnum : s.num = s'.num)
    (hlen : 2 * w ≤ bs.length) : (encrypt C s bs).2 = (encrypt C s' bs).2 ↔ s = s' := by
  constructor
  · intro hout
    by_cases h0 : s.num = 0
    · exact State.ext (ivec_eq_of_encrypt hinj hcomb h0 (hnum ▸ h0) (by omega) hout) hnum
    · have h0' : s'.num ≠ 0 := hnum ▸ h0
      have hn := s.num.isLt
      -- The bytes from the place on are combined as they are, and the others when the register
      -- has been filled with the bytes before them.
      have hhigh := filled_eq_of_encrypt hcomb hnum hout
      rw [State.filled, State.filled, if_neg h0, if_neg h0'] at hhigh
      have hsplit : bs = bs.take (w - s.num.val) ++ bs.drop (w - s.num.val) :=
        (List.take_append_drop ..).symm
      have hfirst : (bs.take (w - s.num.val)).length = w - s.num.val :=
        List.length_take_of_le (by omega)
      have hrest : w ≤ (bs.drop (w - s.num.val)).length := by
        rw [List.length_drop]
        omega
      generalize bs.take (w - s.num.val) = b₁ at hsplit hfirst
      generalize bs.drop (w - s.num.val) = b₂ at hsplit hrest
      rw [hsplit, streams_encrypt.append, streams_encrypt.append] at hout
      obtain ⟨hout₁, hout₂⟩ := List.append_inj hout (by rw [length_encrypt, length_encrypt])
      have hlen₁ : (encrypt C s b₁).2.length = w - s.num.val := by rw [length_encrypt, hfirst]
      have hne : (encrypt C s b₁).2 ≠ [] := by
        intro hnil
        rw [hnil, List.length_nil] at hlen₁
        omega
      have hzero : ∀ {t : State w B}, t.num = s.num → (absorb C t (encrypt C s b₁).2).num = 0 := by
        intro t ht
        refine Fin.ext ?_
        rw [num_absorb, ht, hlen₁, Nat.add_sub_cancel' (Nat.le_of_lt hn), Nat.mod_self]
        rfl
      rw [encrypt_fst, encrypt_fst, ← hout₁] at hout₂
      have hivec := ivec_eq_of_encrypt hinj hcomb (hzero rfl) (hzero hnum.symm) hrest hout₂
      refine State.ext (funext fun i => ?_) hnum
      by_cases hi : s.num.val ≤ i.val
      · exact hhigh i hi (by omega)
      · have hlow := congrFun hivec i
        rw [absorb_within hne (by omega), absorb_within hne (by rw [← hnum]; omega), if_neg hi,
          if_neg (hnum ▸ hi), State.filled, State.filled, if_neg h0, if_neg h0'] at hlow
        exact hlow
  · rintro rfl
    rfl

end Cfb
