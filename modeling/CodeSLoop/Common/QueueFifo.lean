import CodeSLoop.Common.QueueSlots

/-!
# A `queue` is first in, first out

`pops_fifo` says so for every run: whatever the order in which items are pushed, popped into any of
the handlers, passed from handler to handler and let go, the items popped are the items pushed,
in order and each once, and what is not yet popped is what is linked in the queue. A pop fails
exactly when `n_items()` is 0, and a handler gives the same item until it is named in a call
again. Slots are reused all the while; a slot that is linked or owned is not free, and that is
all the proof needs.
-/

namespace CodeSLoop

open Lts

universe u

namespace Queue.Sys

variable {T : Type u}

/-- **First in, first out, over every run.** -/
theorem pops_fifo {tr : List (Event T × Sys T)} (h : Run Step init tr) :
    total Event.pushed tr = total Event.popped tr ++ (last init tr).queue.pending ∧
    total Event.popped tr <+: total Event.pushed tr ∧
    (last init tr).queue.nItems = (last init tr).queue.pending.length ∧
    Always Answers init tr ∧
    Always (fun s a s' => ∀ j, ¬ a.op.names j → s'.value j = s.value j) init tr ∧
    ∀ j, ((last init tr).handlers j).isSome → ((last init tr).exec (.pop j)).isSome := by
  have hstep : ∀ (s : Sys T) a s', (∃ ks os ls, s.Slots ks os ls) → Step s a s' →
      Effect s a s' ∧ ∃ ks os ls, s'.Slots ks os ls := by
    intro s a s' ⟨ks, os, ls, hs⟩ hst
    obtain ⟨ks', os', ls', hs', heff, -⟩ := hs.step hst
    exact ⟨heff, ks', os', ls', hs'⟩
  have heff := h.always_of_inv hstep ⟨[], [], [], slots_init⟩
  have hcons := heff.mono fun s a s' he => he.conserves
  have hempty : (init : Sys T).queue.pending = [] := rfl
  have htotal := h.conserved hcons
  rw [hempty, List.nil_append] at htotal
  obtain ⟨ks, os, ls, hs⟩ := h.last_of_inv (fun s a s' hi hst => (hstep s a s' hi hst).2)
    ⟨[], [], [], slots_init⟩
  refine ⟨htotal, h.delivered_prefix hcons hempty, hs.linked.nItems_eq,
    heff.mono fun s a s' he => he.answers, heff.mono fun s a s' he => he.frame, fun j hj => ?_⟩
  -- a pop into a live handler returns
  obtain ⟨hd, hhd⟩ := Option.isSome_iff_exists.mp hj
  cases ks with
  | nil => rw [hs.pop_nil hhd]; rfl
  | cons k ks =>
    obtain ⟨s', os', t, he, -⟩ := hs.pop_cons hhd
    rw [he]; rfl

/-- Three handlers over slots that are freed out of order: the item pushed last stands in the
    slot at position 0. -/
def turns : List (Op Nat) :=
  [.create 0, .create 1, .create 2, .push 10, .push 20, .push 30, .pop 0, .pop 1, .pop 2, .pop 0,
    .reset 0, .push 40, .destroy 2, .push 50, .assign 0 1, .pop 1, .pop 1]

/-- The step of a run that the given call makes. -/
def call {T : Type u} (s : Sys T) (op : Op T) : Option (Event T × Sys T) :=
  (s.exec op).map fun r => (⟨op, r.2⟩, r.1)

theorem step_of_call {s : Sys T} {op : Op T} {e : Event T × Sys T} (h : s.call op = some e) :
    Step s e.1 e.2 := by
  rw [call, Option.map_eq_some_iff] at h
  obtain ⟨r, hr, rfl⟩ := h
  exact hr

theorem pops_fifo_turns :
    ∃ tr, total Event.pushed tr = [10, 20, 30, 40, 50] ∧
      total Event.popped tr = [10, 20, 30, 40, 50] ∧
      total Event.popped tr <+: total Event.pushed tr ∧
      (last init tr).value 1 = some 50 ∧
      total Event.pushed tr = total Event.popped tr ++ (last init tr).queue.pending :=
  have h := run_of_replay (fun _ _ _ => step_of_call) turns
    (Option.some_get (show (replay call init turns).isSome by decide)).symm
  ⟨_, by decide, by decide, (pops_fifo h).2.1, by decide, (pops_fifo h).1⟩

end Queue.Sys

end CodeSLoop
