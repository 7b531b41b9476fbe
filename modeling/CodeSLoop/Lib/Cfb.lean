import Mathlib.Algebra.GroupWithZero.Nat
import Mathlib.Data.Fin.Basic
import Mathlib.Algebra.Group.Fin.Basic
import Mathlib.Logic.Function.Basic

/-!
# Cipher feedback, a byte at a time

A cipher in CFB mode keeps a register of `w` bytes and a place in it. A byte of the text is combined
with the one at the place, where the byte of the ciphertext is put then; and when the place is back
at the start, the register goes through the block function first.

What becomes of the register depends on the ciphertext alone (`absorb`). That is why decryption
inverts encryption (`decrypt_encrypt`), and why it does not matter in which pieces either of them
is done (`Streams.pieces`). But both sides have to start at the same place: with a block function
that leaves the register as it is, `w` bytes of ciphertext make up for that, and with others they
need not (`Agree`).
-/

namespace Cfb

variable {w : Nat} {B : Type}

structure Cipher (w : Nat) (B : Type) where
  combine : B → B → B
  cancel : ∀ b k, combine (combine b k) k = b
  block : (Fin w → B) → Fin w → B

@[ext] structure State (w : Nat) (B : Type) where
  ivec : Fin w → B
  num : Fin w

variable [NeZero w] {C : Cipher w B} {s s' : State w B} {bs cs : List B}

/-- The register when the next byte comes. -/
def State.filled (C : Cipher w B) (s : State w B) : Fin w → B :=
  if s.num = 0 then C.block s.ivec else s.ivec

/-- What a byte of ciphertext makes of the register. -/
def shift (C : Cipher w B) (s : State w B) (c : B) : State w B :=
  ⟨Function.update (s.filled C) s.num c, s.num + 1⟩

def absorb (C : Cipher w B) (s : State w B) (cs : List B) : State w B := cs.foldl (shift C) s

def encrypt (C : Cipher w B) : State w B → List B → State w B × List B
  | s, [] => (s, [])
  | s, b :: bs =>
    let c := C.combine b (s.filled C s.num)
    ((encrypt C (shift C s c) bs).1, c :: (encrypt C (shift C s c) bs).2)

def decrypt (C : Cipher w B) : State w B → List B → State w B × List B
  | s, [] => (s, [])
  | s, c :: cs =>
    ((decrypt C (shift C s c) cs).1, C.combine c (s.filled C s.num) :: (decrypt C (shift C s c) cs).2)

/-! ## The two directions -/

theorem encrypt_fst : (encrypt C s bs).1 = absorb C s (encrypt C s bs).2 := by
  induction bs generalizing s with
  | nil => rfl
  | cons b bs ih => exact ih

theorem decrypt_fst : (decrypt C s cs).1 = absorb C s cs := by
  induction cs generalizing s with
  | nil => rfl
  | cons c cs ih => exact ih

@[simp] theorem length_encrypt : (encrypt C s bs).2.length = bs.length := by
  induction bs generalizing s with
  | nil => rfl
  | cons b bs ih => exact congrArg (· + 1) ih

@[simp] theorem length_decrypt : (decrypt C s cs).2.length = cs.length := by
  induction cs generalizing s with
  | nil => rfl
  | cons c cs ih => exact congrArg (· + 1) ih

/-- **Decryption inverts encryption**, and leaves the same register. -/
theorem decrypt_encrypt : decrypt C s (encrypt C s bs).2 = ((encrypt C s bs).1, bs) := by
  induction bs generalizing s with
  | nil => rfl
  | cons b bs ih =>
    rw [encrypt, decrypt]
    dsimp only
    rw [ih, C.cancel]

/-- The place moves on by one for each byte. -/
theorem num_absorb : (absorb C s cs).num.val = (s.num.val + cs.length) % w := by
  induction cs generalizing s with
  | nil => exact (Nat.mod_eq_of_lt s.num.isLt).symm
  | cons c cs ih =>
    rw [absorb, List.foldl_cons, ← absorb, ih, shift]
    dsimp only
    rw [Fin.val_add, Nat.mod_add_mod, Fin.val_one', Nat.add_assoc, List.length_cons,
      Nat.add_left_comm, Nat.mod_add_mod, Nat.add_comm 1, Nat.add_assoc]

/-! ## Pieces -/

variable {σ : Type}

/-- A text given in pieces. -/
def pieces (f : σ → List B → σ × List B) : σ → List (List B) → σ × List (List B)
  | s, [] => (s, [])
  | s, bs :: bss =>
    ((pieces f (f s bs).1 bss).1, (f s bs).2 :: (pieces f (f s bs).1 bss).2)

/-- A function that does the same to a text as to its parts, one after the other. -/
structure Streams (f : σ → List B → σ × List B) : Prop where
  nil : ∀ s, f s [] = (s, [])
  append : ∀ s bs bs', f s (bs ++ bs') = ((f (f s bs).1 bs').1, (f s bs).2 ++ (f (f s bs).1 bs').2)

theorem Streams.pieces {f : σ → List B → σ × List B} (hf : Streams f) {s : σ}
    {bss : List (List B)} :
    ((Cfb.pieces f s bss).1, (Cfb.pieces f s bss).2.flatten) = f s bss.flatten := by
  induction bss generalizing s with
  | nil => exact (hf.nil s).symm
  | cons bs bss ih =>
    have h := @ih (f s bs).1
    rw [List.flatten_cons, hf.append, ← h]
    rfl

theorem streams_encrypt : Streams (encrypt C) := by
  refine ⟨fun s => rfl, fun s bs bs' => ?_⟩
  induction bs generalizing s with
  | nil => rfl
  | cons b bs ih =>
    rw [List.cons_append, encrypt, ih]
    rfl

theorem streams_decrypt : Streams (decrypt C) := by
  refine ⟨fun s => rfl, fun s cs cs' => ?_⟩
  induction cs generalizing s with
  | nil => rfl
  | cons c cs ih =>
    rw [List.cons_append, decrypt, ih]
    rfl

/-! ## Two registers -/

/-- Read from their places on, the registers have the same last `k` bytes. -/
def Agree (k : Nat) (s s' : State w B) : Prop :=
  ∀ t : Fin w, w ≤ t.val + k → s.ivec (s.num + t) = s'.ivec (s'.num + t)

theorem agree_shift (hC : ∀ v, C.block v = v) {k : Nat} (h : Agree k s s') (c : B) :
    Agree (k + 1) (shift C s c) (shift C s' c) := by
  have hfilled : ∀ s : State w B, s.filled C = s.ivec := by
    intro s
    rw [State.filled, hC, ite_self]
  intro t ht
  rw [shift, shift, hfilled, hfilled]
  dsimp only
  rw [add_assoc, add_assoc]
  by_cases h0 : 1 + t = 0
  · rw [h0, add_zero, add_zero, Function.update_self, Function.update_self]
  · have hne : ∀ n : Fin w, n + (1 + t) ≠ n := fun n he => h0 (by simpa using he)
    have hlt : t.val + 1 < w := by
      by_contra hge
      have hlast : t.val + 1 = w := by omega
      refine h0 (Fin.ext ?_)
      rw [Fin.val_add, Fin.val_one', Nat.mod_add_mod, Nat.add_comm, hlast, Nat.mod_self]
      rfl
    have hval : (1 + t).val = t.val + 1 := by
      rw [Fin.val_add, Fin.val_one', Nat.mod_add_mod, Nat.add_comm, Nat.mod_eq_of_lt hlt]
    rw [Function.update_of_ne (hne _), Function.update_of_ne (hne _)]
    exact h (1 + t) (by omega)

theorem Agree.absorb (hC : ∀ v, C.block v = v) {k : Nat} (h : Agree k s s') :
    Agree (k + cs.length) (absorb C s cs) (absorb C s' cs) := by
  induction cs generalizing s s' k with
  | nil => exact h
  | cons c cs ih =>
    have hrest := ih (agree_shift hC h c)
    rw [List.length_cons, Nat.add_comm cs.length, ← Nat.add_assoc]
    exact hrest

end Cfb
