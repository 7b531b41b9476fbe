import Mathlib.Algebra.Order.BigOperators.Group.List
import Mathlib.Algebra.Order.Ring.Nat
/-!
# Condition variables

A thread that waits on a condition variable is `blocked` first. A signal, a broadcast or nothing
at all (a spurious wake-up) unblocks it, and it is `woken` until it has its mutex again; when the
time of its wait has passed it is `expired` until then. What happens to a waiter between its two
holds of the mutex is a step of its own (`Moves`), and one of these steps is the one that loses
wake-ups: a wait that times out *may consume a condition signal directed concurrently at the
condition variable*, so a woken thread may still be found expired (`swallow`).

Whoever guards a number of units with a condition variable wants each unit to have a wake-up on
its way as long as somebody is asleep. That is `Covers`, and the second half of this file says
what each operation does to it.
-/

universe u

/-- One call that waits: who made it, and whether it has a timeout. -/
structure Waiter (τ : Type u) where
  thread : τ
  timed : Bool
  deriving DecidableEq

structure CondVar (τ : Type u) where
  blocked : List (Waiter τ)
  woken : List (Waiter τ)
  expired : List (Waiter τ)

namespace CondVar

variable {τ : Type u}

/-- Everybody who waits. -/
def inside (c : CondVar τ) : List (Waiter τ) := c.blocked ++ c.woken ++ c.expired

def empty : CondVar τ := ⟨[], [], []⟩

/-- The threads that wait. -/
def threads (c : CondVar τ) : List τ := c.inside.map Waiter.thread

def sleep (c : CondVar τ) (w : Waiter τ) : CondVar τ := { c with blocked := w :: c.blocked }

def broadcast (c : CondVar τ) : CondVar τ := ⟨[], c.blocked ++ c.woken, c.expired⟩

variable [DecidableEq τ]

def wake (c : CondVar τ) (w : Waiter τ) : CondVar τ :=
  { c with blocked := c.blocked.erase w, woken := w :: c.woken }

def expire (c : CondVar τ) (w : Waiter τ) : CondVar τ :=
  { c with blocked := c.blocked.erase w, expired := w :: c.expired }

def swallow (c : CondVar τ) (w : Waiter τ) : CondVar τ :=
  { c with woken := c.woken.erase w, expired := w :: c.expired }

/-- A woken thread has its mutex again. -/
def back (c : CondVar τ) (w : Waiter τ) : CondVar τ := { c with woken := c.woken.erase w }

/-- An expired one has. -/
def giveUp (c : CondVar τ) (w : Waiter τ) : CondVar τ := { c with expired := c.expired.erase w }

/-- A signal unblocks one thread, whichever, when there is one. -/
inductive Signal : CondVar τ → CondVar τ → Prop
  | nobody {c : CondVar τ} : c.blocked = [] → Signal c c
  | one {c : CondVar τ} (w : Waiter τ) : w ∈ c.blocked → Signal c (c.wake w)

inductive Signals : Nat → CondVar τ → CondVar τ → Prop
  | zero (c : CondVar τ) : Signals 0 c c
  | succ {n : Nat} {c c' c'' : CondVar τ} :
      Signal c c' → Signals n c' c'' → Signals (n + 1) c c''

/-- What happens to a waiter while it does not hold the mutex. -/
inductive Event (τ : Type u)
  | spurious (w : Waiter τ)
  | timeout (w : Waiter τ)
  | swallow (w : Waiter τ)

inductive Moves : CondVar τ → Event τ → CondVar τ → Prop
  | spurious {c : CondVar τ} {w : Waiter τ} : w ∈ c.blocked → Moves c (.spurious w) (c.wake w)
  | timeout {c : CondVar τ} {w : Waiter τ} :
      w ∈ c.blocked → w.timed = true → Moves c (.timeout w) (c.expire w)
  | swallow {c : CondVar τ} {w : Waiter τ} :
      w ∈ c.woken → w.timed = true → Moves c (.swallow w) (c.swallow w)

/-! ## Who waits -/

variable {c c' : CondVar τ} {w : Waiter τ} {n : Nat}

theorem inside_wake (hw : w ∈ c.blocked) : (c.wake w).inside.Perm c.inside := by
  have hmid : (c.blocked.erase w ++ w :: c.woken).Perm (c.blocked ++ c.woken) :=
    List.perm_middle.trans ((List.perm_cons_erase hw).symm.append_right c.woken)
  exact hmid.append_right c.expired

theorem inside_expire (hw : w ∈ c.blocked) : (c.expire w).inside.Perm c.inside := by
  have hmid : (c.blocked.erase w ++ c.woken ++ w :: c.expired).Perm
      (w :: (c.blocked.erase w ++ c.woken ++ c.expired)) := List.perm_middle
  exact hmid.trans (((List.perm_cons_erase hw).symm.append_right c.woken).append_right c.expired)

theorem inside_back (hw : w ∈ c.woken) : c.inside.Perm (w :: (c.back w).inside) := by
  have hmid : (c.blocked ++ c.woken).Perm (w :: (c.blocked ++ c.woken.erase w)) :=
    ((List.perm_cons_erase hw).append_left c.blocked).trans List.perm_middle
  exact hmid.append_right c.expired

theorem inside_swallow (hw : w ∈ c.woken) : (c.swallow w).inside.Perm c.inside := by
  have hmid : (c.swallow w).inside.Perm (w :: (c.back w).inside) := List.perm_middle
  exact hmid.trans (inside_back hw).symm

theorem inside_giveUp (hw : w ∈ c.expired) : c.inside.Perm (w :: (c.giveUp w).inside) :=
  ((List.perm_cons_erase hw).append_left (c.blocked ++ c.woken)).trans List.perm_middle

theorem Signal.inside (h : Signal c c') : c'.inside.Perm c.inside := by
  cases h with
  | nobody hb => exact List.Perm.refl _
  | one w hw => exact inside_wake hw

theorem Signals.inside (h : Signals n c c') : c'.inside.Perm c.inside := by
  induction h with
  | zero c => exact List.Perm.refl _
  | succ hs _ ih => exact ih.trans hs.inside

theorem Moves.inside {e : Event τ} (h : Moves c e c') : c'.inside.Perm c.inside := by
  cases h with
  | spurious hw => exact inside_wake hw
  | timeout hw ht => exact inside_expire hw
  | swallow hw ht => exact inside_swallow hw

omit [DecidableEq τ] in
theorem nodup_perm (hp : c'.inside.Perm c.inside) (h : c.threads.Nodup) : c'.threads.Nodup :=
  (hp.map Waiter.thread).nodup_iff.mpr h

omit [DecidableEq τ] in
theorem nodup_leave (hp : c.inside.Perm (w :: c'.inside)) (h : c.threads.Nodup) :
    c'.threads.Nodup := by
  have h := (hp.map Waiter.thread).nodup_iff.mp h
  exact (List.nodup_cons.mp h).2

omit [DecidableEq τ] in
theorem nodup_sleep (hw : w.thread ∉ c.threads) (h : c.threads.Nodup) :
    (c.sleep w).threads.Nodup := List.nodup_cons.mpr ⟨hw, h⟩

/-! ## A counter of 32 bits -/

theorem toNat_pos {k : UInt32} : 0 < k.toNat ↔ k ≠ 0 := by
  rw [Nat.pos_iff_ne_zero, ne_eq, ← UInt32.toNat_zero, UInt32.toNat_inj]

theorem toNat_pred {k : UInt32} (h : k ≠ 0) : (k - 1).toNat + 1 = k.toNat := by
  have hpos : 1 ≤ k.toNat := toNat_pos.mpr h
  rw [UInt32.toNat_sub_of_le _ _ hpos]
  exact Nat.sub_add_cancel hpos

/-- The sum is exact when it stays below the word size. -/
theorem toNat_add_iff {k l : UInt32} : (k + l).toNat = k.toNat + l.toNat ↔
    k.toNat + l.toNat < 4294967296 := by
  rw [UInt32.toNat_add]
  constructor
  · intro h
    exact h ▸ Nat.mod_lt _ (by decide)
  · exact Nat.mod_eq_of_lt

/-- `k` is the number of those who wait. -/
def Counted (k : UInt32) (c : CondVar τ) : Prop := k.toNat = c.threads.length

variable {k : UInt32}

omit [DecidableEq τ] in
theorem counted_sleep (h : Counted k c) :
    Counted (k + 1) (c.sleep w) ↔ c.threads.length + 1 < 4294967296 := by
  have hk : k.toNat = c.threads.length := h
  rw [← hk]
  refine Iff.trans ?_ (toNat_add_iff (l := 1))
  show (k + 1).toNat = c.threads.length + 1 ↔ _
  rw [← hk]
  rfl

omit [DecidableEq τ] in
theorem Counted.perm (h : Counted k c) (hp : c'.inside.Perm c.inside) : Counted k c' :=
  Eq.trans h (hp.map Waiter.thread).length_eq.symm

omit [DecidableEq τ] in
theorem Counted.leave (h : Counted k c) (hp : c.inside.Perm (w :: c'.inside)) :
    Counted (k - 1) c' := by
  have hlen : k.toNat = c'.threads.length + 1 :=
    Eq.trans h (hp.map Waiter.thread).length_eq
  have hk : k ≠ 0 := toNat_pos.mp (hlen ▸ Nat.succ_pos _)
  exact Nat.succ.inj ((toNat_pred hk).trans hlen)

omit [DecidableEq τ] in
theorem Counted.nobody (h : Counted 0 c) : c.blocked = [] := by
  have hnil : c.inside = [] := List.map_eq_nil_iff.mp (List.length_eq_zero_iff.mp (Eq.symm h))
  exact (List.append_eq_nil_iff.mp (List.append_eq_nil_iff.mp hnil).1).1

/-! ## Wake-ups that are on their way -/

/-- Somebody is asleep only if `n` wake-ups are on their way. -/
def Covers (c : CondVar τ) (n : Nat) : Prop := c.blocked = [] ∨ n ≤ c.woken.length

omit [DecidableEq τ] in
theorem covers_zero : c.Covers 0 := Or.inr (Nat.zero_le _)

omit [DecidableEq τ] in
theorem covers_broadcast : c.broadcast.Covers n := Or.inl rfl

omit [DecidableEq τ] in
theorem Covers.mono {m : Nat} (h : c.Covers n) (hm : m ≤ n) : c.Covers m :=
  h.imp_right hm.trans

omit [DecidableEq τ] in
theorem covers_one : c.Covers 1 ↔ (c.blocked ≠ [] → c.woken ≠ []) := by
  unfold Covers
  rw [Nat.one_le_iff_ne_zero, ne_eq, List.length_eq_zero_iff]
  exact Decidable.or_iff_not_imp_left

/-- Whoever is unblocked only helps. -/
theorem Covers.wake (h : c.Covers n) : (c.wake w).Covers n := by
  rcases h with hb | hn
  · refine Or.inl ?_
    show c.blocked.erase w = []
    rw [hb]
    rfl
  · exact Or.inr (hn.trans (Nat.le_succ _))

theorem Covers.expire (h : c.Covers n) : (c.expire w).Covers n := by
  refine h.imp_left fun hb => ?_
  show c.blocked.erase w = []
  rw [hb]
  rfl

theorem covers_back (hw : w ∈ c.woken) : (c.back w).Covers n ↔ c.Covers (n + 1) := by
  have hpos := List.length_pos_of_mem hw
  refine or_congr_right ?_
  show n ≤ (c.woken.erase w).length ↔ _
  rw [List.length_erase_of_mem hw]
  omega

theorem covers_swallow (hw : w ∈ c.woken) : (c.swallow w).Covers n ↔ c.Covers (n + 1) :=
  covers_back hw

theorem Signal.covers (h : Signal c c') (hc : c.Covers n) : c'.Covers (n + 1) := by
  cases h with
  | nobody hb => exact Or.inl hb
  | one w hw =>
    rcases hc with hb | hn
    · refine Or.inl ?_
      show c.blocked.erase w = []
      rw [hb]
      rfl
    · exact Or.inr (Nat.succ_le_succ hn)

theorem Signals.covers {m : Nat} (h : Signals n c c') (hc : c.Covers m) : c'.Covers (m + n) := by
  induction h generalizing m with
  | zero c => exact hc
  | @succ n c c' c'' hs _ ih =>
    have h := ih (hs.covers hc)
    rwa [Nat.add_right_comm, Nat.add_assoc] at h

end CondVar
