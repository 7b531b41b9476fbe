import Mathlib.Algebra.Order.BigOperators.Group.List
import Mathlib.Algebra.Order.Ring.Nat
/-!
# Runs of a labelled step relation

A component is a relation `step s a s'`: *in state `s` the call `a` may end in state
`s'`*. A call that never returns, or whose behaviour is undefined, relates `s` to
nothing. A *trace* is the list of calls made together with the state each one led to, so a
statement about a run can speak of every state on the way and not only of the last one.

Two rules pay for this file. `Run.always_of_guard` is the usual one: an invariant that every
*guarded* step keeps holds in every state of a run whose steps all meet the guard.
`Run.always_iff` is the sharper one: when, from an invariant state, a step is good
**exactly** when its guard holds, then a whole run is good exactly when all of its steps
meet the guard — which is how "under precisely which use is this component correct" is
answered here.
-/

namespace Lts

universe u v

variable {σ : Type u} {ω : Type v} {step : σ → ω → σ → Prop}

/-- `Run step s tr`: from `s`, the calls of `tr` may be made in order, each ending in the
    state that stands next to it. -/
inductive Run (step : σ → ω → σ → Prop) : σ → List (ω × σ) → Prop
  | nil (s : σ) : Run step s []
  | cons {s s' : σ} {a : ω} {tr : List (ω × σ)} :
      step s a s' → Run step s' tr → Run step s ((a, s') :: tr)

/-- Every step of the trace, read as (state before, call, state after), satisfies `P`. -/
def Always (P : σ → ω → σ → Prop) : σ → List (ω × σ) → Prop
  | _, [] => True
  | s, (a, s') :: tr => P s a s' ∧ Always P s' tr

/-- The state a trace from `s` ends in. -/
def last : σ → List (ω × σ) → σ
  | s, [] => s
  | _, (_, s') :: tr => last s' tr

@[simp] theorem always_nil {P : σ → ω → σ → Prop} {s : σ} : Always P s [] := trivial

@[simp] theorem always_cons {P : σ → ω → σ → Prop} {s s' : σ} {a : ω} {tr : List (ω × σ)} :
    Always P s ((a, s') :: tr) ↔ P s a s' ∧ Always P s' tr := Iff.rfl

instance decidableAlways {P : σ → ω → σ → Prop} [∀ s a s', Decidable (P s a s')] :
    ∀ (s : σ) (tr : List (ω × σ)), Decidable (Always P s tr)
  | _, [] => isTrue trivial
  | s, (a, s') :: tr =>
    have := decidableAlways (P := P) s' tr
    inferInstanceAs (Decidable (P s a s' ∧ Always P s' tr))

theorem Always.mono {P Q : σ → ω → σ → Prop} (hPQ : ∀ s a s', P s a s' → Q s a s') :
    ∀ {s : σ} {tr : List (ω × σ)}, Always P s tr → Always Q s tr
  | _, [], _ => trivial
  | _, (_, _) :: _, h => ⟨hPQ _ _ _ h.1, Always.mono hPQ h.2⟩

/-- What holds of every state on the way holds of the last one. -/
theorem Always.last_state {Q : σ → Prop} {s : σ} {tr : List (ω × σ)}
    (h : Always (fun _ _ s' => Q s') s tr) (hs : Q s) : Q (last s tr) := by
  induction tr generalizing s with
  | nil => exact hs
  | cons e tr ih => exact ih h.2 h.1

/-- **Guarded invariants.** What every guarded step from an invariant state gives, every
    step of a guarded run gives. -/
theorem Run.always_of_guard {I : σ → Prop} {G P : σ → ω → σ → Prop}
    (hstep : ∀ s a s', I s → G s a s' → step s a s' → P s a s' ∧ I s')
    {s : σ} {tr : List (ω × σ)} (h : Run step s tr) (hI : I s) (hG : Always G s tr) :
    Always P s tr := by
  induction h with
  | nil => trivial
  | cons hs _ ih =>
    obtain ⟨hg, hrest⟩ := hG
    obtain ⟨hp, hI'⟩ := hstep _ _ _ hI hg hs
    exact ⟨hp, ih hI' hrest⟩

/-- An invariant that every step keeps holds at the end of every run. -/
theorem Run.last_of_inv {I : σ → Prop} (hstep : ∀ s a s', I s → step s a s' → I s')
    {s : σ} {tr : List (ω × σ)} (h : Run step s tr) (hI : I s) : I (last s tr) := by
  induction h with
  | nil => exact hI
  | cons hs _ ih => exact ih (hstep _ _ _ hI hs)

/-- The same for an invariant that needs no guard. -/
theorem Run.always_of_inv {I : σ → Prop} {P : σ → ω → σ → Prop}
    (hstep : ∀ s a s', I s → step s a s' → P s a s' ∧ I s')
    {s : σ} {tr : List (ω × σ)} (h : Run step s tr) (hI : I s) : Always P s tr := by
  induction h with
  | nil => trivial
  | cons hs _ ih =>
    obtain ⟨hp, hI'⟩ := hstep _ _ _ hI hs
    exact ⟨hp, ih hI'⟩

/-- **Exact guards.** Let every step of a run meet `G₀`. If from an invariant state such a step
    is good exactly when it meets the guard `G`, and a good step keeps the invariant, then the run
    is good throughout exactly when every one of its steps meets `G`. -/
theorem Run.always_iff_of_guard {I : σ → Prop} {G₀ G P : σ → ω → σ → Prop}
    (hiff : ∀ s a s', I s → G₀ s a s' → step s a s' → (P s a s' ↔ G s a s'))
    (hkeep : ∀ s a s', I s → G₀ s a s' → step s a s' → P s a s' → I s')
    {s : σ} {tr : List (ω × σ)} (h : Run step s tr) (hI : I s) (hG : Always G₀ s tr) :
    Always P s tr ↔ Always G s tr := by
  induction h with
  | nil => exact Iff.rfl
  | cons hs _ ih =>
    obtain ⟨hg₀, hrest₀⟩ := hG
    rw [always_cons, always_cons]
    constructor
    · intro ⟨hp, hrest⟩
      exact ⟨(hiff _ _ _ hI hg₀ hs).mp hp, (ih (hkeep _ _ _ hI hg₀ hs hp) hrest₀).mp hrest⟩
    · intro ⟨hg, hrest⟩
      have hp := (hiff _ _ _ hI hg₀ hs).mpr hg
      exact ⟨hp, (ih (hkeep _ _ _ hI hg₀ hs hp) hrest₀).mpr hrest⟩

theorem always_of {P : σ → ω → σ → Prop} (hP : ∀ s a s', P s a s') :
    ∀ {s : σ} {tr : List (ω × σ)}, Always P s tr
  | _, [] => trivial
  | _, (_, _) :: _ => ⟨hP _ _ _, always_of hP⟩

/-- The same without `G₀`. -/
theorem Run.always_iff {I : σ → Prop} {G P : σ → ω → σ → Prop}
    (hiff : ∀ s a s', I s → step s a s' → (P s a s' ↔ G s a s'))
    (hkeep : ∀ s a s', I s → step s a s' → P s a s' → I s')
    {s : σ} {tr : List (ω × σ)} (h : Run step s tr) (hI : I s) :
    Always P s tr ↔ Always G s tr :=
  @Run.always_iff_of_guard _ _ _ I (fun _ _ _ => True) G P (fun s a s' hI _ => hiff s a s' hI)
    (fun s a s' hI _ => hkeep s a s' hI) s tr h hI (always_of fun _ _ _ => trivial)

/-- The calls, each with the state that it leads to, where it leads to one. -/
def traceOf (f : σ → ω → σ) : σ → List ω → List (ω × σ)
  | _, [] => []
  | s, a :: as => (a, f s a) :: traceOf f (f s a) as

/-- `s'` can be reached from `s`. -/
def Leads (step : σ → ω → σ → Prop) : σ → σ → Prop :=
  Relation.ReflTransGen fun s s' => ∃ a, step s a s'

theorem Leads.head {s s' s'' : σ} {a : ω} (hs : step s a s') (h : Leads step s' s'') :
    Leads step s s'' := Relation.ReflTransGen.head ⟨a, hs⟩ h

/-- `P` holds here, and wherever steps of `step` lead from here. -/
def Settled (step : σ → ω → σ → Prop) (P : σ → Prop) (s : σ) : Prop :=
  ∀ s', Leads step s s' → P s'

theorem settled_of_inv {I P : σ → Prop} (hstep : ∀ s a s', I s → step s a s' → I s')
    (hP : ∀ s, I s → P s) {s : σ} (hI : I s) : Settled step P s := by
  intro s' hs'
  refine hP s' ?_
  induction hs' with
  | refl => exact hI
  | tail _ hs ih =>
    obtain ⟨a, hs⟩ := hs
    exact hstep _ a _ ih hs

/-! ## Replaying calls -/

/-- The trace of the given calls under a partial function, when every one of them returns. -/
def replay {ι : Type v} (f : σ → ι → Option (ω × σ)) : σ → List ι → Option (List (ω × σ))
  | _, [] => some []
  | s, i :: is => (f s i).bind fun e => (replay f e.2 is).map (e :: ·)

theorem run_of_replay {ι : Type v} {f : σ → ι → Option (ω × σ)}
    (hf : ∀ s i e, f s i = some e → step s e.1 e.2) (is : List ι) :
    ∀ {s : σ} {tr : List (ω × σ)}, replay f s is = some tr → Run step s tr := by
  induction is with
  | nil =>
    intro s tr h
    cases h
    exact .nil s
  | cons i is ih =>
    intro s tr h
    simp only [replay, Option.bind_eq_some_iff, Option.map_eq_some_iff] at h
    obtain ⟨e, he, tr', htr', rfl⟩ := h
    exact .cons (hf s i e he) (ih htr')

end Lts
