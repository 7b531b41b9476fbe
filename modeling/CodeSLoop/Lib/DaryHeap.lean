import Mathlib.Logic.Equiv.Basic
import Mathlib.Order.Lattice
import Mathlib.Order.Nat

/-!
# Heaps of any arity, in an array

The root is at `r`, and the children of the place `p` are the `d` places from `d * (p - r) + r + 1` on.
A heap is given by the keys at its places: `Ordered d r n f` says that none of the first `n` is below
that of its parent.

An element is moved by swapping it with its parent or with the least of its children. What is
true on the way is `Up` or `Down`: all is in order, except that the element may be below its
parent, or above one of its children. The rules say how each of these begins, what one step does to
it, and that it ends in a heap.
-/

namespace DaryHeap

universe u v

section Places

variable {d r k p j : Nat}

/-- The place above `k`. -/
def parent (d r k : Nat) : Nat := (k - r - 1) / d + r

theorem le_parent : r ≤ parent d r k := Nat.le_add_left _ _

theorem parent_lt (hk : r < k) : parent d r k < k := by
  have hle : (k - r - 1) / d ≤ k - r - 1 := Nat.div_le_self _ _
  unfold parent
  omega

/-- The children of a place. -/
theorem parent_eq_iff (hd : 0 < d) (hk : r < k) (hp : r ≤ p) :
    parent d r k = p ↔ d * (p - r) + r + 1 ≤ k ∧ k < d * (p - r) + r + 1 + d := by
  have hsub : parent d r k = p ↔ (k - r - 1) / d = p - r := by
    unfold parent
    omega
  rw [hsub, Nat.div_eq_iff hd, Nat.mul_comm (p - r) d]
  omega

end Places

section Swaps

variable {β : Type v}

/-- Two arrays that have the same elements at the places from `r` to `r + n`, and are the same elsewhere. -/
def Rearranged (r n : Nat) (a b : Nat → β) : Prop :=
  ∃ σ : Equiv.Perm Nat, (∀ k, ¬ (r ≤ k ∧ k < r + n) → σ k = k) ∧ b = a ∘ σ

variable {r n : Nat} {a b c : Nat → β}

theorem Rearranged.refl (r n : Nat) (a : Nat → β) : Rearranged r n a a := ⟨Equiv.refl _, fun _ _ => rfl, rfl⟩

theorem Rearranged.swap (a : Nat → β) {i j : Nat} (hi : r ≤ i ∧ i < r + n) (hj : r ≤ j ∧ j < r + n) :
    Rearranged r n a (a ∘ Equiv.swap i j) := by
  refine ⟨Equiv.swap i j, fun k hk => ?_, rfl⟩
  apply Equiv.swap_apply_of_ne_of_ne
  · rintro rfl
    exact hk hi
  · rintro rfl
    exact hk hj

theorem Rearranged.trans (h : Rearranged r n a b) (h' : Rearranged r n b c) : Rearranged r n a c := by
  obtain ⟨σ, hσ, rfl⟩ := h
  obtain ⟨τ, hτ, rfl⟩ := h'
  refine ⟨τ.trans σ, fun k hk => ?_, rfl⟩
  rw [Equiv.trans_apply, hτ k hk, hσ k hk]

theorem Rearranged.mono {m : Nat} (h : Rearranged r n a b) (hle : n ≤ m) : Rearranged r m a b := by
  obtain ⟨σ, hσ, rfl⟩ := h
  exact ⟨σ, fun k hk => hσ k (by omega), rfl⟩

/-- Places that are not concerned. -/
theorem Rearranged.outside (h : Rearranged r n a b) {k : Nat} (hk : ¬ (r ≤ k ∧ k < r + n)) : b k = a k := by
  obtain ⟨σ, hσ, rfl⟩ := h
  rw [Function.comp_apply, hσ k hk]

/-- Nothing comes from outside. -/
theorem Rearranged.exists_from (h : Rearranged r n a b) {k : Nat} (hk : r ≤ k ∧ k < r + n) :
    ∃ j, (r ≤ j ∧ j < r + n) ∧ b k = a j := by
  obtain ⟨σ, hσ, rfl⟩ := h
  refine ⟨σ k, ?_, rfl⟩
  by_contra hout
  have hfix := σ.injective (hσ (σ k) hout)
  exact hout (hfix.symm ▸ hk)

/-- Nothing is lost. -/
theorem Rearranged.exists_to (h : Rearranged r n a b) {j : Nat} (hj : r ≤ j ∧ j < r + n) :
    ∃ k, (r ≤ k ∧ k < r + n) ∧ b k = a j := by
  obtain ⟨σ, hσ, rfl⟩ := h
  refine ⟨σ.symm j, ?_, by simp⟩
  by_contra hout
  have hfix := hσ _ hout
  rw [Equiv.apply_symm_apply] at hfix
  exact hout (hfix ▸ hj)

/-- What tells the elements apart goes on doing so. -/
theorem Rearranged.injective {γ : Type u} {g : β → γ} (h : Rearranged r n a b)
    (ha : ∀ i j, r ≤ i ∧ i < r + n → r ≤ j ∧ j < r + n → g (a i) = g (a j) → i = j) :
    ∀ i j, r ≤ i ∧ i < r + n → r ≤ j ∧ j < r + n → g (b i) = g (b j) → i = j := by
  obtain ⟨σ, hσ, rfl⟩ := h
  have hin {k : Nat} (hk : r ≤ k ∧ k < r + n) : r ≤ σ k ∧ σ k < r + n := by
    by_contra hout
    have hfix := σ.injective (hσ (σ k) hout)
    exact hout (hfix.symm ▸ hk)
  intro i j hi hj heq
  exact σ.injective (ha _ _ (hin hi) (hin hj) heq)

end Swaps

section Order

variable {α : Type u} [LinearOrder α] {d r n m k p : Nat} {f g : Nat → α}

/-- **A heap**: no key is below that of the parent. -/
def Ordered (d r n : Nat) (f : Nat → α) : Prop := ∀ j, r < j → j < r + n → f (parent d r j) ≤ f j

/-- All is in order that the place `k` is not concerned with, and so it would be without it. -/
structure Around (d r n : Nat) (f : Nat → α) (k : Nat) : Prop where
  rest : ∀ j, r < j → j < r + n → j ≠ k → parent d r j ≠ k → f (parent d r j) ≤ f j
  across : r < k → ∀ j, r < j → j < r + n → parent d r j = k → f (parent d r k) ≤ f j

/-- All is in order, except that the element at `k` may be below its parent. -/
structure Up (d r n : Nat) (f : Nat → α) (k : Nat) : Prop extends Around d r n f k where
  below : ∀ j, r < j → j < r + n → parent d r j = k → f k ≤ f j

/-- All is in order, except that the element at `k` may be above a child. -/
structure Down (d r n : Nat) (f : Nat → α) (k : Nat) : Prop extends Around d r n f k where
  above : r < k → f (parent d r k) ≤ f k

theorem Ordered.mono (h : Ordered d r n f) (hle : m ≤ n) : Ordered d r m f :=
  fun j hr hj => h j hr (by omega)

/-- **The root has the least key.** -/
theorem Ordered.root_le (h : Ordered d r n f) (hr : r ≤ k) (hk : k < r + n) : f r ≤ f k := by
  induction k using Nat.strongRecOn with
  | _ k ih =>
    rcases Nat.eq_or_lt_of_le hr with rfl | hlt
    · exact le_rfl
    · have hp : parent d r k < k := parent_lt hlt
      exact (ih _ hp le_parent (by omega)).trans (h k hlt hk)

/-- One key is changed. -/
theorem Ordered.around (h : Ordered d r n f) (hg : ∀ j, j ≠ k → g j = f j) : Around d r n g k where
  rest j hr hj hne hp := by
    rw [hg j hne, hg _ hp]
    exact h j hr hj
  across hk j hr hj hp := by
    have hkj : k < j := hp ▸ parent_lt hr
    have hpk : parent d r k < k := parent_lt hk
    rw [hg j (by omega), hg _ (by omega)]
    have hstep := h j hr hj
    rw [hp] at hstep
    exact (h k hk (by omega)).trans hstep

/-- A place is added. -/
theorem Ordered.push (h : Ordered d r n f) (hg : ∀ j, j < r + n → g j = f j) : Up d r (n + 1) g (r + n) where
  rest j hr hj hne _ := by
    have hp : parent d r j < j := parent_lt hr
    rw [hg j (by omega), hg _ (by omega)]
    exact h j hr (by omega)
  across _ j hr hj hp := by
    have hlt : parent d r j < j := parent_lt hr
    omega
  below j hr hj hp := by
    have hlt : parent d r j < j := parent_lt hr
    omega

/-- An element that is not above its parent is moved up. -/
theorem Around.up (h : Around d r n f k) (hk : r < k) (hle : f k ≤ f (parent d r k)) : Up d r n f k :=
  ⟨h, fun j hr hj hp => hle.trans (h.across hk j hr hj hp)⟩

/-- The root can only be moved down. -/
theorem Around.down_root (h : Around d r n f r) : Down d r n f r := ⟨h, fun hlt => absurd hlt (Nat.lt_irrefl r)⟩

theorem Up.ordered (h : Up d r n f k) (hup : r < k → f (parent d r k) ≤ f k) : Ordered d r n f := by
  intro j hr hj
  by_cases hjk : j = k
  · exact hjk ▸ hup (hjk ▸ hr)
  · by_cases hp : parent d r j = k
    · exact hp ▸ h.below j hr hj hp
    · exact h.rest j hr hj hjk hp

theorem Down.ordered (h : Down d r n f k)
    (hdown : ∀ j, r < j → j < r + n → parent d r j = k → f k ≤ f j) : Ordered d r n f := by
  intro j hr hj
  by_cases hjk : j = k
  · exact hjk ▸ h.above (hjk ▸ hr)
  · by_cases hp : parent d r j = k
    · exact hp ▸ hdown j hr hj hp
    · exact h.rest j hr hj hjk hp

/-- **One step up.** -/
theorem Up.swap (h : Up d r n f k) (hk : r < k) (hkn : k < r + n) (hp : parent d r k = p) (hlt : f k < f p) :
    Up d r n (f ∘ Equiv.swap k p) p := by
  have hpk : p < k := hp ▸ parent_lt hk
  have hother {j : Nat} (hjk : j ≠ k) (hjp : j ≠ p) : (f ∘ Equiv.swap k p) j = f j :=
    congrArg f (Equiv.swap_apply_of_ne_of_ne hjk hjp)
  have hatk : (f ∘ Equiv.swap k p) k = f p := congrArg f (Equiv.swap_apply_left k p)
  have hatp : (f ∘ Equiv.swap k p) p = f k := congrArg f (Equiv.swap_apply_right k p)
  -- the element that came down is not above what is below it now
  have hmoved (j : Nat) (hr : r < j) (hj : j < r + n) (hjk : j ≠ k) (hjp : parent d r j = p) : f p ≤ f j := by
    have hstep := h.rest j hr hj hjk (by omega)
    rwa [hjp] at hstep
  refine ⟨⟨?_, ?_⟩, ?_⟩
  · intro j hr hj hne hpar
    have hjk : j ≠ k := by
      rintro rfl
      exact hpar hp
    rw [hother hjk hne]
    by_cases hjc : parent d r j = k
    · rw [hjc, hatk, ← hp]
      exact h.across hk j hr hj hjc
    · rw [hother hjc hpar]
      exact h.rest j hr hj hjk hjc
  · intro hrp j hr hj hjp
    have hpp : parent d r p < p := parent_lt hrp
    have hup : f (parent d r p) ≤ f p := h.rest p hrp (by omega) (by omega) (by omega)
    rw [hother (by omega) (by omega)]
    by_cases hjk : j = k
    · rw [hjk, hatk]
      exact hup
    · have hlt : parent d r j < j := parent_lt hr
      rw [hother hjk (by omega)]
      exact hup.trans (hmoved j hr hj hjk hjp)
  · intro j hr hj hjp
    rw [hatp]
    by_cases hjk : j = k
    · rw [hjk, hatk]
      exact hlt.le
    · have hlt' : parent d r j < j := parent_lt hr
      rw [hother hjk (by omega)]
      exact hlt.le.trans (hmoved j hr hj hjk hjp)

/-- **One step down**, to the least of the children. -/
theorem Down.swap (h : Down d r n f k) (hm : r < m) (hmn : m < r + n) (hp : parent d r m = k)
    (hleast : ∀ j, r < j → j < r + n → parent d r j = k → f m ≤ f j) (hlt : f m < f k) :
    Down d r n (f ∘ Equiv.swap k m) m := by
  have hkm : k < m := hp ▸ parent_lt hm
  have hother {j : Nat} (hjk : j ≠ k) (hjm : j ≠ m) : (f ∘ Equiv.swap k m) j = f j :=
    congrArg f (Equiv.swap_apply_of_ne_of_ne hjk hjm)
  have hatk : (f ∘ Equiv.swap k m) k = f m := congrArg f (Equiv.swap_apply_left k m)
  have hatm : (f ∘ Equiv.swap k m) m = f k := congrArg f (Equiv.swap_apply_right k m)
  refine ⟨⟨?_, ?_⟩, ?_⟩
  · intro j hr hj hne hpar
    have hlt' : parent d r j < j := parent_lt hr
    by_cases hjc : parent d r j = k
    · rw [hjc, hatk, hother (by omega) hne]
      exact hleast j hr hj hjc
    · rw [hother hjc hpar]
      by_cases hjk : j = k
      · subst hjk
        rw [hatk]
        exact h.across hr m hm hmn hp
      · rw [hother hjk hne]
        exact h.rest j hr hj hjk hjc
  · intro _ j hr hj hjm
    have hlt' : parent d r j < j := parent_lt hr
    rw [hp, hatk, hother (by omega) (by omega)]
    have hstep := h.rest j hr hj (by omega) (by omega)
    rwa [hjm] at hstep
  · intro _
    rw [hp, hatk, hatm]
    exact hlt.le

end Order

end DaryHeap
