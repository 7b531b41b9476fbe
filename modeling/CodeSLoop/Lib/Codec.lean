import Mathlib.Algebra.Order.BigOperators.Group.List
import Mathlib.Algebra.Order.Ring.Nat

/-!
# Readers of encoded data

A reader is a function on the state of some stream, with a result. `At x tail` is to say that
`tail` is what the stream `x` has still to give; then a reader *decodes* `enc` as `r` when from
every state in front of `enc` it ends behind `enc`, with `r`, whatever comes after. Readers
that are made one after the other decode the concatenation (`Decodes.andThen`), and a sequence
of them decodes a sequence of encodings (`Decodes.all`): no reader can run out of step with
the writer when each single one keeps to its own encoding.
-/

namespace Codec

universe u v w

/-- How a reader ends: it returns, throws an exception, or does what is undefined. -/
inductive Res (ε : Type u) (α : Type v)
  | ret (a : α) | thrown (e : ε) | fault
deriving DecidableEq

variable {σ : Type u} {ε : Type u} {α : Type v} {β : Type w}

/-- The rest of a call, after a call that may throw. -/
def andThen (r : σ × Res ε α) (f : σ → α → σ × Res ε β) : σ × Res ε β :=
  match r.2 with
  | .ret a => f r.1 a
  | .thrown e => (r.1, .thrown e)
  | .fault => (r.1, .fault)

@[simp] theorem andThen_ret {x : σ} {a : α} {f : σ → α → σ × Res ε β} :
    andThen (x, .ret a) f = f x a := rfl

@[simp] theorem andThen_thrown {x : σ} {e : ε} {f : σ → α → σ × Res ε β} :
    andThen (x, .thrown e) f = (x, .thrown e) := rfl

/-- Reads of the given kinds, up to the first that does not return. -/
def readAll (read : α → σ → σ × Res ε β) : List α → σ → σ × Res ε (List β)
  | [], x => (x, .ret [])
  | k :: ks, x =>
    andThen (read k x) fun x a => andThen (readAll read ks x) fun x as => (x, .ret (a :: as))

/-- A sequence of reads that all return starts with one that does. -/
theorem readAll_cons {read : α → σ → σ × Res ε β} {k : α} {ks : List α} {x : σ} {a : β}
    {as : List β} (h : (readAll read (k :: ks) x).2 = .ret (a :: as)) :
    (read k x).2 = .ret a ∧ (readAll read ks (read k x).1).2 = .ret as ∧
      (readAll read (k :: ks) x).1 = (readAll read ks (read k x).1).1 := by
  rw [readAll] at h ⊢
  rcases hr : read k x with ⟨y, b | e | _⟩
  · rw [hr, andThen_ret] at h
    rw [andThen_ret]
    dsimp only
    rcases hs : readAll read ks y with ⟨z, bs | e | _⟩
    · rw [hs, andThen_ret] at h
      cases h
      exact ⟨rfl, rfl, rfl⟩
    · rw [hs] at h
      cases h
    · rw [hs] at h
      cases h
  · rw [hr] at h
    cases h
  · rw [hr] at h
    cases h

section Decodes

variable {γ : Type u} {ρ : Type v} {At : σ → List γ → Prop} {enc enc₁ enc₂ : List γ}

/-- The reader decodes `enc` as `r`. -/
def Decodes (At : σ → List γ → Prop) (read : σ → σ × ρ) (enc : List γ) (r : ρ) : Prop :=
  ∀ x tail, At x (enc ++ tail) → ∃ y, read x = (y, r) ∧ At y tail

theorem Decodes.andThen {read : σ → σ × Res ε α} {f : σ → α → σ × Res ε β} {a : α}
    {r : Res ε β} (h₁ : Decodes At read enc₁ (.ret a)) (h₂ : Decodes At (fun x => f x a) enc₂ r) :
    Decodes At (fun x => andThen (read x) f) (enc₁ ++ enc₂) r := by
  intro x tail hx
  rw [List.append_assoc] at hx
  obtain ⟨y, hy, hat⟩ := h₁ x _ hx
  obtain ⟨z, hz, htail⟩ := h₂ y _ hat
  refine ⟨z, ?_, htail⟩
  dsimp only
  rw [hy]
  exact hz

/-- What a reader keeps may be asked of the state as well. -/
theorem Decodes.keep {read : σ → σ × ρ} {r : ρ} {P : σ → Prop} (h : Decodes At read enc r)
    (hkeep : ∀ x tail, At x tail → P x → P (read x).1) :
    Decodes (fun x tail => At x tail ∧ P x) read enc r := by
  intro x tail hx
  obtain ⟨y, hy, hat⟩ := h x tail hx.1
  have hP := hkeep x _ hx.1 hx.2
  rw [hy] at hP
  exact ⟨y, hy, hat, hP⟩

/-- A result that needs no more of the stream. -/
theorem decodes_ret {r : ρ} : Decodes At (fun x => (x, r)) [] r := fun x _ hx => ⟨x, rfl, hx⟩

/-- **Sequences.** -/
theorem Decodes.all {ι : Type w} {read : α → σ → σ × Res ε β} {kind : ι → α}
    {encode : ι → List γ} {value : ι → β} : ∀ {is : List ι},
      (∀ i ∈ is, Decodes At (read (kind i)) (encode i) (.ret (value i))) →
      Decodes At (readAll read (is.map kind)) (is.flatMap encode) (.ret (is.map value))
  | [], _ => decodes_ret
  | i :: is, h => by
    have ih := Decodes.all fun j (hj : j ∈ is) => h j (List.mem_cons_of_mem i hj)
    have htail := ih.andThen (f := fun x as => (x, .ret (value i :: as))) decodes_ret
    rw [List.append_nil] at htail
    exact (h i (List.mem_cons_self ..)).andThen htail

end Decodes

end Codec
