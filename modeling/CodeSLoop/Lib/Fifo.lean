import CodeSLoop.Lib.Run

/-!
# Queues, seen from outside

A component is a queue of `α` when some part of its state — the *pending* items — accounts
for everything that went in and has not come out yet. One step may accept items at the back
and deliver items from the front, and it is a step of a queue when

    pending before ++ accepted = delivered ++ pending after.

Nothing is lost, repeated or reordered by a step of this kind, and by `Run.conserved` nothing
is over a whole run: what has been accepted is what has been delivered followed by what is
still pending.
-/

namespace Lts

universe u v w

variable {σ : Type u} {ω : Type v} {α : Type w} {step : σ → ω → σ → Prop}
variable {pending : σ → List α} {accepted delivered : ω → List α}

/-- What a trace accepted (or delivered), in order. -/
def total (f : ω → List α) (tr : List (ω × σ)) : List α := tr.flatMap fun e => f e.1

@[simp] theorem total_nil {f : ω → List α} : total f ([] : List (ω × σ)) = [] := rfl

@[simp] theorem total_cons {f : ω → List α} {a : ω} {s : σ} {tr : List (ω × σ)} :
    total f ((a, s) :: tr) = f a ++ total f tr := rfl

/-- A step of a queue. -/
def Conserves (pending : σ → List α) (accepted delivered : ω → List α) (s : σ) (a : ω)
    (s' : σ) : Prop :=
  pending s ++ accepted a = delivered a ++ pending s'

/-- **Conservation.** A run of queue steps accepts exactly what it delivers, in the same
    order, plus what it leaves pending. -/
theorem Run.conserved {s : σ} {tr : List (ω × σ)} (h : Run step s tr)
    (hq : Always (Conserves pending accepted delivered) s tr) :
    pending s ++ total accepted tr = total delivered tr ++ pending (last s tr) := by
  induction h with
  | nil => simp [last]
  | @cons s s' a tr hs _ ih =>
    obtain ⟨hstep, hrest⟩ := hq
    have hstep : pending s ++ accepted a = delivered a ++ pending s' := hstep
    calc pending s ++ total accepted ((a, s') :: tr)
        = (pending s ++ accepted a) ++ total accepted tr := by simp
      _ = delivered a ++ (pending s' ++ total accepted tr) := by rw [hstep, List.append_assoc]
      _ = delivered a ++ (total delivered tr ++ pending (last s' tr)) := by rw [ih hrest]
      _ = total delivered ((a, s') :: tr) ++ pending (last s ((a, s') :: tr)) := by simp [last]

/-- From an empty queue, what came out is a prefix of what went in. -/
theorem Run.delivered_prefix {s : σ} {tr : List (ω × σ)} (h : Run step s tr)
    (hq : Always (Conserves pending accepted delivered) s tr) (h0 : pending s = []) :
    total delivered tr <+: total accepted tr := by
  have := h.conserved hq
  rw [h0, List.nil_append] at this
  exact ⟨_, this.symm⟩

end Lts
