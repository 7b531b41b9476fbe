import Mathlib.Logic.Basic

/-!
# Machines that answer calls

A machine is a function from a state and a call to an answer and the next state; `answers` are those
to a sequence of calls. One machine stands for another one when a relation of their states is kept
by every call that is allowed, and the answers are the same: then they are the same over whole sequences
(`answers_eq`), as long as all calls are allowed by the one that is easier to speak of (`Allowed`).
-/

namespace Refine

universe u v w x

variable {σ : Type u} {τ : Type v} {ω : Type w} {α : Type x}

/-- The answers to a sequence of calls. -/
def answers (f : σ → ω → α × σ) : σ → List ω → List α
  | _, [] => []
  | s, a :: as => (f s a).1 :: answers f (f s a).2 as

/-- The state that a sequence of calls leads to. -/
def after (f : σ → ω → α × σ) : σ → List ω → σ
  | s, [] => s
  | s, a :: as => after f (f s a).2 as

/-- Each call is allowed in the state it is made in. -/
def Allowed (f : σ → ω → α × σ) (G : σ → ω → Prop) : σ → List ω → Prop
  | _, [] => True
  | s, a :: as => G s a ∧ Allowed f G (f s a).2 as

instance decidableAllowed {f : σ → ω → α × σ} {G : σ → ω → Prop} [∀ s a, Decidable (G s a)] :
    ∀ (s : σ) (as : List ω), Decidable (Allowed f G s as)
  | _, [] => isTrue trivial
  | s, a :: as =>
    have := @decidableAllowed f G _ (f s a).2 as
    inferInstanceAs (Decidable (G s a ∧ Allowed f G (f s a).2 as))

variable {f : σ → ω → α × σ} {g : τ → ω → α × τ} {R : σ → τ → Prop} {G : τ → ω → Prop}

@[simp] theorem answers_nil (s : σ) : answers f s [] = [] := rfl

@[simp] theorem answers_cons (s : σ) (a : ω) (as : List ω) :
    answers f s (a :: as) = (f s a).1 :: answers f (f s a).2 as := rfl

@[simp] theorem after_nil (s : σ) : after f s [] = s := rfl

@[simp] theorem after_cons (s : σ) (a : ω) (as : List ω) :
    after f s (a :: as) = after f (f s a).2 as := rfl

@[simp] theorem after_append (s : σ) (as bs : List ω) :
    after f s (as ++ bs) = after f (after f s as) bs := by
  induction as generalizing s with
  | nil => rfl
  | cons a as ih => exact ih _

@[simp] theorem answers_append (s : σ) (as bs : List ω) :
    answers f s (as ++ bs) = answers f s as ++ answers f (after f s as) bs := by
  induction as generalizing s with
  | nil => rfl
  | cons a as ih => exact congrArg ((f s a).1 :: ·) (ih _)

@[simp] theorem allowed_append (s : τ) (as bs : List ω) :
    Allowed g G s (as ++ bs) ↔ Allowed g G s as ∧ Allowed g G (after g s as) bs := by
  induction as generalizing s with
  | nil => simp [Allowed]
  | cons a as ih => simp [Allowed, ih, and_assoc]

/-- **One machine stands for the other**, if every call that is allowed keeps their states related. -/
theorem answers_eq
    (hstep : ∀ s t a, R s t → G t a → (f s a).1 = (g t a).1 ∧ R (f s a).2 (g t a).2) :
    ∀ {s : σ} {t : τ} (as : List ω), R s t → Allowed g G t as →
      answers f s as = answers g t as ∧ R (after f s as) (after g t as)
  | _, _, [], hR, _ => ⟨rfl, hR⟩
  | s, t, a :: as, hR, hG => by
    obtain ⟨hanswer, hnext⟩ := hstep s t a hR hG.1
    obtain ⟨hrest, hlast⟩ := answers_eq hstep as hnext hG.2
    exact ⟨congrArg₂ List.cons hanswer hrest, hlast⟩

end Refine
