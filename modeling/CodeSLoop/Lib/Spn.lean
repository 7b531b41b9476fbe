import Mathlib.Algebra.Group.Equiv.Basic
import Mathlib.Algebra.Group.Basic

/-!
# Substitution-permutation ciphers

A cipher of this kind works on a state in rounds. Each round permutes the state by `sub`, which
need not respect its addition, then by `mix`, which does, and adds a key of its own; a key is added
before the first round too, and the last round leaves `mix` away.

Since `mix` is additive, the rounds can be undone by rounds of the same shape: `decipher` undoes
`sub` before `mix`, with keys that were unmixed and in the opposite order. `decipher_encipher`
says that this is the inverse.
-/

universe u

/-- The permutations of one round. -/
structure Spn (S : Type u) [AddCommGroup S] where
  sub : Equiv.Perm S
  mix : S ≃+ S

namespace Spn

variable {S : Type u} [AddCommGroup S] (c : Spn S)

/-- A round that is not the last. -/
def round (s k : S) : S := c.mix (c.sub s) + k

/-- A round that is not the last, undone in the other order. -/
def unround (s k : S) : S := c.mix.symm (c.sub.symm s) - k

/-- The cipher, with the keys for before the first round, for the rounds, and for the last one. -/
def encipher (first : S) (ks : List S) (final x : S) : S :=
  c.sub (ks.foldl c.round (x + first)) + final

/-- The same with everything undone. -/
def decipher (first : S) (ks : List S) (final y : S) : S :=
  c.sub.symm (ks.foldl c.unround (y - first)) - final

/-- The keys with which the rounds are undone. -/
def invKeys (ks : List S) : List S := ks.reverse.map c.mix.symm

variable {c}

@[simp] theorem unround_sub (s k : S) :
    c.unround (c.sub (c.round s k)) (c.mix.symm k) = c.sub s := by
  simp [unround, round]

/-- Going back through the rounds: what comes out is what went into the first `sub`. -/
theorem foldl_unround (ks : List S) (s : S) :
    (c.invKeys ks).foldl c.unround (c.sub (ks.foldl c.round s)) = c.sub s := by
  induction ks generalizing s with
  | nil => rfl
  | cons k ks ih =>
    have hkeys : c.invKeys (k :: ks) = c.invKeys ks ++ [c.mix.symm k] := by simp [invKeys]
    rw [hkeys, List.foldl_append]
    show c.unround ((c.invKeys ks).foldl c.unround (c.sub (ks.foldl c.round (c.round s k)))) _ = _
    rw [ih]
    exact unround_sub s k

/-- **Deciphering with the inverse keys gives back what was enciphered.** -/
theorem decipher_encipher (first : S) (ks : List S) (final x : S) :
    c.decipher final (c.invKeys ks) first (c.encipher first ks final x) = x := by
  simp [decipher, encipher, foldl_unround]

end Spn
