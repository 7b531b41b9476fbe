import Mathlib.Data.List.Basic
import Mathlib.Data.List.Nodup

/-!
# Chains of nodes

A node is at an address and may have the address of a next one. From an address one comes to the
nodes of a chain, if it ends (`Linked`). `holds a n` says that the node `n` is at the address `a`,
so that a chain may be spoken of before and after a change of the store: what a chain does not
pass may change (`Linked.mono`), and a new node is hung on by changing the last one
(`Linked.hang`).
-/

namespace Chains

universe u v

variable {A : Type u} {N : Type v} {holds holds' : A → N → Prop} {next : N → Option A}
  {a b : A} {m n n' : N} {s : Option A} {l l' : List (A × N)}

/-- From `s` on, the nodes of `l` come one behind another, and there are no more. -/
inductive Linked (holds : A → N → Prop) (next : N → Option A) : Option A → List (A × N) → Prop
  | nil : Linked holds next none []
  | cons {a : A} {n : N} {l : List (A × N)} :
      holds a n → Linked holds next (next n) l → Linked holds next (some a) ((a, n) :: l)

namespace Linked

theorem holds_of_mem (h : Linked holds next s l) : ∀ e ∈ l, holds e.1 e.2 := by
  induction h with
  | nil => exact nofun
  | cons ha _ ih =>
    intro e he
    rcases List.mem_cons.mp he with rfl | he
    · exact ha
    · exact ih e he

/-- What the chain does not pass may change. -/
theorem mono (h : Linked holds next s l) (hkeep : ∀ e ∈ l, holds' e.1 e.2) : Linked holds' next s l := by
  induction h with
  | nil => exact .nil
  | cons _ _ ih =>
    have hrest := List.forall_mem_cons.mp hkeep
    exact .cons hrest.1 (ih hrest.2)

/-- The chain from an address is determined by the store. -/
theorem det (hfun : ∀ a n n', holds a n → holds a n' → n = n') (h : Linked holds next s l) :
    ∀ {l'}, Linked holds next s l' → l = l' := by
  induction h with
  | nil =>
    intro l' h'
    cases h'
    rfl
  | cons ha _ ih =>
    intro l' h'
    cases h' with
    | cons hb hrest =>
      cases hfun _ _ _ ha hb
      rw [ih hrest]

/-- The rest of a chain from one of its nodes on. -/
theorem suffix (h : Linked holds next s l) {e : A × N} (he : e ∈ l) :
    ∃ l', Linked holds next (some e.1) (e :: l') ∧ (e :: l').length ≤ l.length := by
  induction h with
  | nil => cases he
  | cons ha hrest ih =>
    rcases List.mem_cons.mp he with rfl | he
    · exact ⟨_, .cons ha hrest, Nat.le_refl _⟩
    · obtain ⟨l', hl', hlen⟩ := ih he
      exact ⟨l', hl', Nat.le_succ_of_le hlen⟩

/-- A chain that ends does not come to an address twice. -/
theorem nodup (hfun : ∀ a n n', holds a n → holds a n' → n = n') (h : Linked holds next s l) :
    (l.map Prod.fst).Nodup := by
  induction h with
  | nil => exact List.nodup_nil
  | cons ha hrest ih =>
    rename_i a n l
    rw [List.map_cons, List.nodup_cons]
    refine ⟨fun hmem => ?_, ih⟩
    obtain ⟨⟨b, m⟩, he, heq⟩ := List.mem_map.mp hmem
    cases heq
    -- From there on it would have to be as long as from the start.
    obtain ⟨l', hl', hlen⟩ := hrest.suffix he
    have hsame := det hfun (.cons ha hrest) hl'
    rw [← hsame, List.length_cons] at hlen
    exact Nat.not_succ_le_self _ hlen

/-- The start is the first address. -/
theorem head (h : Linked holds next s l) : s = l.head?.map Prod.fst := by
  cases h <;> rfl

/-- **A new node** `m` at `b`, behind the last one. -/
theorem hang (h : Linked holds next s (l ++ [(a, n)])) (hkeep : ∀ e ∈ l, holds' e.1 e.2)
    (ha : holds' a n') (hn : next n' = some b) (hb : holds' b m) (hm : next m = none) :
    Linked holds' next s (l ++ [(a, n'), (b, m)]) := by
  induction l generalizing s with
  | nil =>
    cases h
    refine .cons ha ?_
    rw [hn]
    refine .cons hb ?_
    rw [hm]
    exact .nil
  | cons e l ih =>
    cases h with
    | cons _ hrest =>
      have hkeep := List.forall_mem_cons.mp hkeep
      exact .cons hkeep.1 (ih hrest hkeep.2)

end Linked

end Chains
