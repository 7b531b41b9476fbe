import CodeSLoop.Db.Tran
import Mathlib.Data.List.TakeWhile

/-!
# Nested transactions

`nested_transactions`: in a run that is orderly, all statements succeed, and when every transaction
is gone none is left open on the connection, and the database has the effects that are there for
good by the ledger.

The transactions that have been started are a chain, each made from the one before it. The stack of
snapshots has one for each of them, of the contents before its first query, and between these the
savepoints that were gone back to and are still there (`Saved`).
-/

namespace CodeSLoop

open Savepoints

namespace Slt3

variable {δ : Type} {db d : δ} {l : Ledger δ} {t u p : Nat} {ts : List Nat} {f : δ → δ}

/-! ## Ledgers -/

namespace Ledger

/-- Queries have been made in `t`. -/
def Has (l : Ledger δ) (t : Nat) : Prop := ∃ e ∈ l, e.2 = some t

/-- The ledger from the first query of `t` on. -/
theorem Has.split (h : l.Has t) : ∃ f rest, l = l.before t ++ (f, some t) :: rest := by
  induction l with
  | nil =>
    obtain ⟨e, he, -⟩ := h
    cases he
  | cons a l ih =>
    by_cases ha : a.2 = some t
    · refine ⟨a.1, l, ?_⟩
      rw [before, List.takeWhile_cons_of_neg (by simpa using ha), List.nil_append, ← ha]
    · obtain ⟨e, he, ht⟩ := h
      rcases List.mem_cons.mp he with rfl | he
      · exact absurd ht ha
      · obtain ⟨g, rest, hl⟩ := ih ⟨e, he, ht⟩
        refine ⟨g, rest, ?_⟩
        rw [before, List.takeWhile_cons_of_pos (by simpa using ha), List.cons_append]
        exact congrArg (a :: ·) hl

theorem ne_of_mem_before {e : (δ → δ) × Option Nat} (h : e ∈ l.before t) : e.2 ≠ some t := by
  have := List.mem_takeWhile_imp h
  simpa using this

theorem before_eq {a rest : Ledger δ} (ha : ∀ e ∈ a, e.2 ≠ some t) :
    (a ++ (f, some t) :: rest : Ledger δ).before t = a := by
  rw [before, List.takeWhile_append_of_pos (by simpa using ha)]
  simp

theorem before_append (h : l.Has t) (l' : Ledger δ) :
    (l ++ l' : Ledger δ).before t = l.before t := by
  obtain ⟨g, rest, hl⟩ := h.split
  have hne : ∀ e ∈ l.before t, e.2 ≠ some t := fun e he => ne_of_mem_before he
  generalize l.before t = a at hl hne
  rw [hl, List.append_assoc, List.cons_append, before_eq hne]

theorem before_append_new (h : ¬ l.Has t) : (l ++ [(f, some t)] : Ledger δ).before t = l :=
  before_eq fun e he ht => h ⟨e, he, ht⟩

@[simp] theorem replay_append (l' : Ledger δ) : replay db (l ++ l') = replay (replay db l) l' :=
  List.foldl_append

@[simp] theorem replay_commit (tr : Option Nat) : replay db (l.commit t tr) = replay db l := by
  rw [replay, commit, List.foldl_map, replay]
  congr 1
  funext x e
  split <;> rfl

theorem commit_idle (h : ¬ l.Has t) (tr : Option Nat) : l.commit t tr = l := by
  have hmap : ∀ e ∈ l, (if e.2 = some t then (e.1, tr) else e) = id e :=
    fun e he => if_neg fun ht => h ⟨e, he, ht⟩
  rw [commit, List.map_congr_left hmap, List.map_id]

theorem rollback_idle (h : ¬ l.Has t) : l.rollback t = l :=
  List.filter_eq_self.mpr fun e he => decide_eq_true fun ht => h ⟨e, he, ht⟩

theorem rollback_last (h : l.Last t) : l.rollback t = l.before t := by
  have hpre : (l.before t).filter (fun e => e.2 ≠ some t) = l.before t :=
    List.filter_eq_self.mpr fun e he => decide_eq_true (ne_of_mem_before he)
  have hpost : (l.dropWhile fun e => e.2 ≠ some t).filter (fun e => e.2 ≠ some t) = [] :=
    List.filter_eq_nil_iff.mpr fun e he => by simpa using h e he
  have hl := List.takeWhile_append_dropWhile (p := fun e : (δ → δ) × Option Nat => e.2 ≠ some t)
    (l := l)
  calc l.rollback t
      = (l.before t ++ l.dropWhile fun e => e.2 ≠ some t).filter (fun e => e.2 ≠ some t) := by
        rw [before, hl, rollback]
    _ = l.before t := by rw [List.filter_append, hpre, hpost, List.append_nil]

/-- What was recorded before the first query of `u` is the same when a later `t` is committed. -/
theorem before_commit (hut : u ≠ t) (hu : l.Has u) (h : ∀ e ∈ l.before u, e.2 ≠ some t)
    (tr : Option Nat) : (l.commit t tr).Has u ∧ (l.commit t tr).before u = l.before u := by
  obtain ⟨g, rest, hl⟩ := hu.split
  have hne : ∀ e ∈ l.before u, e.2 ≠ some u := fun e he => ne_of_mem_before he
  have hidle := commit_idle (l := l.before u) (fun ⟨e, he, ht⟩ => h e he ht) tr
  have hcommit : l.commit t tr = l.before u ++ (g, some u) :: commit rest t tr := by
    have hcons : commit ((g, some u) :: rest) t tr = (g, some u) :: commit rest t tr := by
      rw [commit, List.map_cons, if_neg (by simpa using hut), commit]
    conv_lhs => rw [hl]
    rw [commit, List.map_append]
    exact congrArg₂ (· ++ ·) hidle hcons
  rw [hcommit, before_eq hne]
  exact ⟨⟨_, List.mem_append_right _ (List.mem_cons_self ..), rfl⟩, rfl⟩

/-- And when it is rolled back. -/
theorem before_before (hut : u ≠ t) (hu : l.Has u) (h : ∀ e ∈ l.before u, e.2 ≠ some t) :
    (l.before t).Has u ∧ (l.before t).before u = l.before u := by
  obtain ⟨g, rest, hl⟩ := hu.split
  have hne : ∀ e ∈ l.before u, e.2 ≠ some u := fun e he => ne_of_mem_before he
  have hbefore : l.before t = l.before u ++ (g, some u) :: before rest t := by
    conv_lhs => rw [hl]
    rw [before, List.takeWhile_append_of_pos (by simpa using h),
      List.takeWhile_cons_of_pos (by simpa using hut)]
    rfl
  rw [hbefore, before_eq hne]
  exact ⟨⟨_, List.mem_append_right _ (List.mem_cons_self ..), rfl⟩, rfl⟩

end Ledger

/-! ## The ledger and the stack of snapshots -/

/-- Each of the transactions has queries, and what is there before its first one was made in those
    that it is nested in. -/
def Opened (l : Ledger δ) : List Nat → Prop
  | [] => True
  | t :: ts => (l.Has t ∧ ∀ e ∈ l.before t, ∀ u, e.2 = some u → u ∈ ts) ∧ Opened l ts

theorem Opened.of_mem (h : Opened l ts) (ht : t ∈ ts) :
    l.Has t ∧ ∀ e ∈ l.before t, ∀ u, e.2 = some u → u ∈ ts := by
  induction ts with
  | nil => cases ht
  | cons a ts ih =>
    rcases List.mem_cons.mp ht with rfl | ht
    · exact ⟨h.1.1, fun e he u hu => List.mem_cons_of_mem _ (h.1.2 e he u hu)⟩
    · obtain ⟨hhas, hin⟩ := ih h.2 ht
      exact ⟨hhas, fun e he u hu => List.mem_cons_of_mem _ (hin e he u hu)⟩

theorem Opened.congr {l' : Ledger δ} (h : Opened l ts)
    (heq : ∀ u ∈ ts, l'.Has u ∧ l'.before u = l.before u) : Opened l' ts := by
  induction ts with
  | nil => trivial
  | cons t ts ih =>
    obtain ⟨hhas, hbefore⟩ := heq t (List.mem_cons_self ..)
    refine ⟨⟨hhas, ?_⟩, ih h.2 fun u hu => heq u (List.mem_cons_of_mem t hu)⟩
    rw [hbefore]
    exact h.1.2

/-- The stack: a snapshot for each of the transactions, and savepoints of others above them. -/
inductive Saved (db : δ) (l : Ledger δ) : List (Mark Nat × δ) → List Nat → Prop
  | nil : Saved db l [] []
  | main (t : Nat) : Saved db l [(.begin, (l.before t).replay db)] [t]
  | nested {t p : Nat} {ts : List Nat} {saves : List (Mark Nat × δ)} : Saved db l saves (p :: ts) →
      Saved db l ((.savepoint t, (l.before t).replay db) :: saves) (t :: p :: ts)
  | stale {n t : Nat} {ts : List Nat} {d : δ} {saves : List (Mark Nat × δ)} : n ∉ t :: ts →
      Saved db l saves (t :: ts) → Saved db l ((.savepoint n, d) :: saves) (t :: ts)

theorem Saved.congr {l' : Ledger δ} {saves : List (Mark Nat × δ)} (h : Saved db l saves ts)
    (heq : ∀ u ∈ ts, l'.before u = l.before u) : Saved db l' saves ts := by
  induction h with
  | nil => exact .nil
  | main t =>
    rw [← heq t (List.mem_cons_self ..)]
    exact .main t
  | nested h ih =>
    rw [← heq _ (List.mem_cons_self ..)]
    exact .nested (ih fun u hu => heq u (List.mem_cons_of_mem _ hu))
  | stale hn h ih => exact .stale hn (ih heq)

/-- The snapshot of the innermost transaction. -/
theorem Saved.find {saves : List (Mark Nat × δ)} (h : Saved db l saves (t :: p :: ts)) :
    ∃ above rest, saves = above ++ (.savepoint t, (l.before t).replay db) :: rest ∧
      (∀ m ∈ above, m.1 ≠ .savepoint t) ∧ Saved db l rest (p :: ts) := by
  generalize hts : t :: p :: ts = us at h
  induction h with
  | nil => cases hts
  | main u => cases hts
  | nested h ih =>
    cases hts
    exact ⟨[], _, rfl, fun m hm => absurd hm List.not_mem_nil, h⟩
  | @stale n u vs d saves hn h ih =>
    obtain ⟨above, rest, hs, hne, hrest⟩ := ih hts
    refine ⟨(.savepoint n, d) :: above, rest, by rw [hs, List.cons_append], ?_, hrest⟩
    intro m hm
    rcases List.mem_cons.mp hm with rfl | hm
    · intro he
      cases he
      exact hn (hts ▸ List.mem_cons_self ..)
    · exact hne m hm

/-- The one of the outermost. -/
theorem Saved.getLast {saves : List (Mark Nat × δ)} (h : Saved db l saves [t]) :
    ∃ above, saves = above ++ [(.begin, (l.before t).replay db)] := by
  generalize hts : [t] = us at h
  induction h with
  | nil => cases hts
  | main u =>
    cases hts
    exact ⟨[], rfl⟩
  | nested h ih => cases hts
  | @stale n u vs d saves hn h ih =>
    obtain ⟨above, hs⟩ := ih hts
    exact ⟨(.savepoint n, d) :: above, by rw [hs, List.cons_append]⟩

theorem Saved.eq_nil {saves : List (Mark Nat × δ)} (h : Saved db l saves []) : saves = [] := by
  cases h
  rfl

/-- The database and the ledger agree, with these transactions started. -/
structure Books (db : δ) (s : Store Nat δ) (l : Ledger δ) (ts : List Nat) : Prop where
  owners : ∀ e ∈ l, ∀ u, e.2 = some u → u ∈ ts
  opened : Opened l ts
  saved : Saved db l s.saves ts
  contents : s.db = l.replay db

variable {s : Store Nat δ}

theorem Books.not_has (h : Books db s l ts) (ht : t ∉ ts) : ¬ l.Has t :=
  fun ⟨e, he, hu⟩ => ht (h.owners e he t hu)

theorem Books.ne_of_before (h : Books db s l (t :: ts)) (hnd : (t :: ts).Nodup) (hu : u ∈ ts) :
    u ≠ t ∧ l.Has u ∧ ∀ e ∈ l.before u, e.2 ≠ some t := by
  obtain ⟨hhas, hin⟩ := h.opened.2.of_mem hu
  have hnot := (List.nodup_cons.mp hnd).1
  exact ⟨fun he => hnot (he ▸ hu), hhas, fun e he ht => hnot (hin e he t ht)⟩

/-- A query in a transaction that has been started. -/
theorem Books.query (h : Books db s l ts) (ht : t ∈ ts) :
    Books db (s.modify f) (l ++ [(f, some t)]) ts := by
  have hsame := fun u hu => Ledger.before_append (h.opened.of_mem (t := u) hu).1 [(f, some t)]
  refine ⟨?_, h.opened.congr fun u hu => ⟨?_, hsame u hu⟩, h.saved.congr hsame, ?_⟩
  · intro e he u hu
    rcases List.mem_append.mp he with he | he
    · exact h.owners e he u hu
    · rw [List.mem_singleton.mp he] at hu
      cases hu
      exact ht
  · obtain ⟨e, he, hu⟩ := (h.opened.of_mem hu).1
    exact ⟨e, List.mem_append_left _ he, hu⟩
  · rw [Ledger.replay_append, ← h.contents]
    rfl

/-- The first query in a transaction made from the innermost. -/
theorem Books.savepoint (h : Books db s l (p :: ts)) (ht : t ∉ p :: ts) :
    Books db ((s.savepoint t).modify f) (l ++ [(f, some t)]) (t :: p :: ts) := by
  have hnew := Ledger.before_append_new (f := f) (h.not_has ht)
  have hq := fun u hu => Ledger.before_append (h.opened.of_mem (t := u) hu).1 [(f, some t)]
  refine ⟨?_, ⟨⟨⟨_, List.mem_append_right _ (List.mem_singleton_self _), rfl⟩, ?_⟩, ?_⟩, ?_, ?_⟩
  · intro e he u hu
    rcases List.mem_append.mp he with he | he
    · exact List.mem_cons_of_mem t (h.owners e he u hu)
    · rw [List.mem_singleton.mp he] at hu
      cases hu
      exact List.mem_cons_self ..
  · rw [hnew]
    exact h.owners
  · refine h.opened.congr fun u hu => ⟨?_, hq u hu⟩
    obtain ⟨e, he, hu⟩ := (h.opened.of_mem hu).1
    exact ⟨e, List.mem_append_left _ he, hu⟩
  · have hsaved := Saved.nested (t := t) (h.saved.congr hq)
    rw [hnew, ← h.contents] at hsaved
    exact hsaved
  · rw [Ledger.replay_append, ← h.contents]
    rfl

/-- The first query in the main transaction. -/
theorem Books.begin (h : Books db s l []) :
    ∃ s', s.begin = some s' ∧ Books db (s'.modify f) (l ++ [(f, some t)]) [t] := by
  have hsaves := h.saved.eq_nil
  have hnew := Ledger.before_append_new (f := f) (h.not_has (t := t) List.not_mem_nil)
  refine ⟨{ s with saves := [(.begin, s.db)] }, by rw [Store.begin, hsaves], ?_, ?_, ?_, ?_⟩
  · intro e he u hu
    rcases List.mem_append.mp he with he | he
    · exact absurd (h.owners e he u hu) List.not_mem_nil
    · rw [List.mem_singleton.mp he] at hu
      cases hu
      exact List.mem_cons_self ..
  · refine ⟨⟨⟨_, List.mem_append_right _ (List.mem_singleton_self _), rfl⟩, ?_⟩, trivial⟩
    rw [hnew]
    exact h.owners
  · have hsaved : Saved db (l ++ [(f, some t)]) _ [t] := Saved.main t
    rw [hnew, ← h.contents] at hsaved
    exact hsaved
  · rw [Ledger.replay_append, ← h.contents]
    rfl

/-- The owners when a transaction has been committed to `tr`. -/
theorem Books.owners_commit {tr : Option Nat} (h : Books db s l (t :: ts))
    (htr : ∀ p, tr = some p → p ∈ ts) : ∀ e ∈ l.commit t tr, ∀ u, e.2 = some u → u ∈ ts := by
  intro e he u hu
  obtain ⟨e', he', rfl⟩ := List.mem_map.mp he
  split at hu
  · exact htr u hu
  · rename_i hne
    refine (List.mem_cons.mp (h.owners e' he' u hu)).resolve_left fun hut => hne ?_
    rw [hu, hut]

theorem Books.release (h : Books db s l (t :: p :: ts)) (hnd : (t :: p :: ts).Nodup) :
    ∃ s', s.release t = some s' ∧ Books db s' (l.commit t (some p)) (p :: ts) := by
  obtain ⟨above, rest, hs, hne, hrest⟩ := h.saved.find
  have hsame := fun u (hu : u ∈ p :: ts) =>
    let ⟨hut, hhas, hbefore⟩ := h.ne_of_before hnd hu
    Ledger.before_commit hut hhas hbefore (some p)
  refine ⟨_, Store.release_eq hs hne, h.owners_commit ?_, h.opened.2.congr hsame, ?_, ?_⟩
  · intro q hq
    cases hq
    exact List.mem_cons_self ..
  · exact hrest.congr fun u hu => (hsame u hu).2
  · rw [Ledger.replay_commit]
    exact h.contents

theorem Books.commit (h : Books db s l [t]) :
    ∃ s', s.commit = some s' ∧ Books db s' (l.commit t none) [] := by
  obtain ⟨above, hs⟩ := h.saved.getLast
  refine ⟨{ s with saves := [] }, ?_, h.owners_commit (fun q hq => by cases hq), trivial, .nil, ?_⟩
  · cases above with
    | nil => rw [Store.commit, hs, List.nil_append]
    | cons m above => rw [Store.commit, hs, List.cons_append]
  · rw [Ledger.replay_commit]
    exact h.contents

/-- The owners when a transaction has been rolled back. -/
theorem Books.owners_rollback (h : Books db s l (t :: ts)) (hlast : l.Last t) :
    ∀ e ∈ l.rollback t, ∀ u, e.2 = some u → u ∈ ts := by
  rw [Ledger.rollback_last hlast]
  exact h.opened.1.2

theorem Books.rollbackTo (h : Books db s l (t :: p :: ts)) (hnd : (t :: p :: ts).Nodup)
    (hlast : l.Last t) :
    ∃ s', s.rollbackTo t = some s' ∧ Books db s' (l.rollback t) (p :: ts) := by
  obtain ⟨above, rest, hs, hne, hrest⟩ := h.saved.find
  have howners := h.owners_rollback hlast
  rw [Ledger.rollback_last hlast] at howners ⊢
  have hsame := fun u (hu : u ∈ p :: ts) =>
    let ⟨hut, hhas, hbefore⟩ := h.ne_of_before hnd hu
    Ledger.before_before hut hhas hbefore
  refine ⟨_, Store.rollbackTo_eq hs hne, howners, h.opened.2.congr hsame, ?_, rfl⟩
  -- the savepoint stays
  exact .stale (List.nodup_cons.mp hnd).1 (hrest.congr fun u hu => (hsame u hu).2)

theorem Books.rollback (h : Books db s l [t]) (hlast : l.Last t) :
    ∃ s', s.rollback = some s' ∧ Books db s' (l.rollback t) [] := by
  obtain ⟨above, hs⟩ := h.saved.getLast
  have howners := h.owners_rollback hlast
  rw [Ledger.rollback_last hlast] at howners ⊢
  refine ⟨⟨(l.before t).replay db, []⟩, ?_, howners, trivial, .nil, rfl⟩
  rw [Store.rollback, hs, List.getLast?_concat]
  rfl

/-! ## The tree -/

/-- What the transactions have been made from. -/
def Conn.parents (c : Conn δ) (u : Nat) : Option (Option Nat) := (c.trans u).map Tran.tr

/-- Each transaction is made from the next one, and the last one from the connection. -/
def Chain (parents : Nat → Option (Option Nat)) : List Nat → Prop
  | [] => True
  | [t] => parents t = some none
  | t :: p :: ts => parents t = some (some p) ∧ Chain parents (p :: ts)

/-- One is made from each transaction but the first. -/
theorem Chain.made {parents : Nat → Option (Option Nat)} (h : Chain parents ts) (ht : t ∈ ts) :
    (∃ ts', ts = t :: ts') ∨ ∃ u ∈ ts, parents u = some (some t) := by
  induction ts with
  | nil => cases ht
  | cons a ts ih =>
    rcases List.mem_cons.mp ht with rfl | ht
    · exact .inl ⟨ts, rfl⟩
    · right
      cases ts with
      | nil => cases ht
      | cons b ts =>
        rcases ih h.2 ht with ⟨ts', he⟩ | ⟨u, hu, hp⟩
        · cases he
          exact ⟨a, List.mem_cons_self .., h.1⟩
        · exact ⟨u, List.mem_cons_of_mem a hu, hp⟩

theorem Chain.congr {par par' : Nat → Option (Option Nat)} (h : Chain par ts)
    (heq : ∀ u ∈ ts, par' u = par u) : Chain par' ts := by
  induction ts with
  | nil => trivial
  | cons a ts ih =>
    cases ts with
    | nil => exact (heq a (List.mem_cons_self ..)).trans h
    | cons b ts =>
      exact ⟨(heq a (List.mem_cons_self ..)).trans h.1,
        ih h.2 fun u hu => heq u (List.mem_cons_of_mem a hu)⟩

/-- The transactions are a tree, of which these have been started. -/
structure Tree (c : Conn δ) (ts : List Nat) : Prop where
  ids : ∀ u, (c.parents u).isSome → u ≤ c.tranId
  parent : ∀ u q, c.parents u = some (some q) → (c.parents q).isSome
  main : ∀ u v, c.parents u = some none → c.parents v = some none → u = v
  started : ∀ u, u ∈ ts ↔ ∃ x, c.trans u = some x ∧ x.started = true
  chain : Chain c.parents ts
  nodup : ts.Nodup

variable {c : Conn δ} {x : Tran}

theorem parents_eq (hx : c.trans t = some x) : c.parents t = some x.tr := by
  rw [Conn.parents, hx, Option.map_some]

theorem parents_put (hx : c.trans t = some x) (x' : Tran) (htr : x'.tr = x.tr) (s : Store Nat δ) :
    (Conn.put { c with sqlite := s } t (some x')).parents = c.parents := by
  funext u
  by_cases hu : u = t
  · rw [hu, parents_eq hx, ← htr]
    exact parents_eq (Conn.put_self ..)
  · rw [Conn.parents, Conn.put_of_ne _ _ hu, Conn.parents]

theorem Tree.started_iff (h : Tree c ts) (hx : c.trans t = some x) : t ∈ ts ↔ x.started = true := by
  rw [h.started]
  constructor
  · rintro ⟨y, hy, hs⟩
    rw [hx] at hy
    cases hy
    exact hs
  · exact fun hs => ⟨x, hx, hs⟩

theorem Tree.put {ts' : List Nat} (h : Tree c ts) (hx : c.trans t = some x) (x' : Tran)
    (htr : x'.tr = x.tr) (s : Store Nat δ) (hnd : ts'.Nodup) (hchain : Chain c.parents ts')
    (ht : t ∈ ts' ↔ x'.started = true) (hts : ∀ u, u ≠ t → (u ∈ ts' ↔ u ∈ ts)) :
    Tree (Conn.put { c with sqlite := s } t (some x')) ts' := by
  have hpar := parents_put hx x' htr s
  refine ⟨?_, ?_, ?_, fun u => ?_, by rw [hpar]; exact hchain, hnd⟩
  · rw [hpar]
    exact h.ids
  · rw [hpar]
    exact h.parent
  · rw [hpar]
    exact h.main
  · by_cases hu : u = t
    · rw [hu, ht]
      constructor
      · exact fun hs => ⟨x', Conn.put_self .., hs⟩
      · rintro ⟨y, hy, hs⟩
        rw [Conn.put_self] at hy
        cases hy
        exact hs
    · rw [hts u hu, h.started, Conn.put_of_ne _ _ hu]

/-- A transaction without a part in it goes. -/
theorem Tree.remove (h : Tree c ts) (ht : t ∉ ts) (hno : ∀ u, c.parents u ≠ some (some t)) :
    Tree (c.put t none) ts := by
  have hpar : ∀ u, u ≠ t → (c.put t none).parents u = c.parents u :=
    fun u hu => congrArg (Option.map Tran.tr) (Conn.put_of_ne c none hu)
  have hself : (c.put t none).parents t = none :=
    congrArg (Option.map Tran.tr) (Conn.put_self c t none)
  have hne : ∀ u q, (c.put t none).parents u = some q → u ≠ t := by
    rintro u q hq rfl
    rw [hself] at hq
    cases hq
  refine ⟨?_, ?_, ?_, fun u => ?_, h.chain.congr fun u hu => hpar u fun he => ht (he ▸ hu), h.nodup⟩
  · intro u hu
    obtain ⟨q, hq⟩ := Option.isSome_iff_exists.mp hu
    rw [hpar u (hne u q hq)] at hu
    exact h.ids u hu
  · intro u q hq
    rw [hpar u (hne u _ hq)] at hq
    have hqt : q ≠ t := fun he => hno u (he ▸ hq)
    rw [hpar q hqt]
    exact h.parent u q hq
  · intro u v hu hv
    rw [hpar u (hne u _ hu)] at hu
    rw [hpar v (hne v _ hv)] at hv
    exact h.main u v hu hv
  · by_cases hu : u = t
    · rw [hu, Conn.put_self]
      exact ⟨fun hmem => absurd hmem ht, fun ⟨y, hy, _⟩ => by cases hy⟩
    · rw [h.started, Conn.put_of_ne _ _ hu]

/-- A transaction comes. -/
theorem Tree.new {tr : Option Nat} (h : Tree c ts)
    (htr : (tr = none ∧ c.Idle) ∨ ∃ p, tr = some p ∧ (c.trans p).isSome) :
    Tree (c.new tr) ts := by
  -- its number has not been used, so nothing that was there is changed
  have hfresh : c.parents (c.tranId + 1) = none := by
    by_contra hsome
    have := h.ids _ (Option.isSome_iff_ne_none.mpr hsome)
    omega
  have hpar : ∀ u, u ≠ c.tranId + 1 → (c.new tr).parents u = c.parents u :=
    fun u hu => congrArg (Option.map Tran.tr) (Conn.new_of_ne c tr hu)
  have hself : (c.new tr).parents (c.tranId + 1) = some tr :=
    congrArg (Option.map Tran.tr) (Conn.new_self c tr)
  have hlt : ∀ u, (c.parents u).isSome → u ≠ c.tranId + 1 := by
    rintro u hu rfl
    rw [hfresh] at hu
    cases hu
  have hts : ∀ u ∈ ts, u ≠ c.tranId + 1 := by
    intro u hu
    obtain ⟨y, hy, -⟩ := (h.started u).mp hu
    exact hlt u (by rw [parents_eq hy]; rfl)
  refine ⟨?_, ?_, ?_, fun u => ?_, h.chain.congr fun u hu => hpar u (hts u hu), h.nodup⟩
  · intro u hu
    by_cases he : u = c.tranId + 1
    · exact Nat.le_of_eq he
    · rw [hpar u he] at hu
      exact Nat.le_succ_of_le (h.ids u hu)
  · intro u q hq
    have hsome : (c.parents q).isSome := by
      by_cases he : u = c.tranId + 1
      · rw [he, hself] at hq
        rcases htr with ⟨rfl, -⟩ | ⟨p, rfl, hp⟩
        · cases hq
        · cases hq
          rw [Conn.parents, Option.isSome_map]
          exact hp
      · rw [hpar u he] at hq
        exact h.parent u q hq
    rw [hpar q (hlt q hsome)]
    exact hsome
  · -- there is at most one that is made from the connection
    have hnone : ∀ u, (c.new tr).parents u = some none → u ≠ c.tranId + 1 → tr ≠ none := by
      rintro u hu he rfl
      rw [hpar u he] at hu
      rcases htr with ⟨-, hall⟩ | ⟨p, hp, -⟩
      · have hle := h.ids u (by rw [hu]; rfl)
        rw [Conn.parents, hall u hle] at hu
        cases hu
      · cases hp
    intro u v hu hv
    by_cases heu : u = c.tranId + 1
    · by_cases hev : v = c.tranId + 1
      · rw [heu, hev]
      · rw [heu, hself] at hu
        exact absurd (Option.some.inj hu) (hnone v hv hev)
    · by_cases hev : v = c.tranId + 1
      · rw [hev, hself] at hv
        exact absurd (Option.some.inj hv) (hnone u hu heu)
      · rw [hpar u heu] at hu
        rw [hpar v hev] at hv
        exact h.main u v hu hv
  · by_cases he : u = c.tranId + 1
    · refine ⟨fun hmem => absurd he (hts u hmem), ?_⟩
      rintro ⟨y, hy, hs⟩
      rw [he, Conn.new_self] at hy
      cases hy
      cases hs
    · rw [h.started, Conn.new_of_ne _ _ he]

/-- What has nothing running below it is the last one started. -/
theorem Tree.head (h : Tree c ts) (hin : c.Innermost t) (ht : t ∈ ts) : ∃ ts', ts = t :: ts' := by
  rcases h.chain.made ht with hhead | ⟨u, hu, hp⟩
  · exact hhead
  · obtain ⟨y, hy, hs⟩ := (h.started u).mp hu
    rw [parents_eq hy] at hp
    have hle := h.ids u (by rw [parents_eq hy]; rfl)
    have := hin u hle y hy (Option.some.inj hp)
    rw [hs] at this
    cases this

/-! ## Steps -/

/-- The last one started is finished. -/
theorem Tree.finish (h : Tree c (t :: ts)) (hx : c.trans t = some x) (s : Store Nat δ) :
    Tree (Conn.put { c with sqlite := s } t (some { x with started := false })) ts := by
  have hnd := List.nodup_cons.mp h.nodup
  have hchain : Chain c.parents ts := by
    cases ts with
    | nil => trivial
    | cons p ts => exact h.chain.2
  refine h.put hx { x with started := false } rfl s hnd.2 hchain ?_ fun u hu => ?_
  · simp [hnd.1]
  · simp [hu]

/-- What it was made from. -/
theorem Tree.made (h : Tree c (t :: ts)) (hx : c.trans t = some x) :
    (ts = [] ∧ x.tr = none) ∨ ∃ p ts', ts = p :: ts' ∧ x.tr = some p := by
  have hpar := parents_eq hx
  cases ts with
  | nil => exact .inl ⟨rfl, Option.some.inj (hpar.symm.trans h.chain)⟩
  | cons p ts => exact .inr ⟨p, ts, rfl, Option.some.inj (hpar.symm.trans h.chain.1)⟩

theorem commit_spec (h : Tree c ts) (hb : Books db c.sqlite l ts) (hx : c.trans t = some x)
    (hin : c.Innermost t) : ∃ c' ts', c.commit t x = some c' ∧ Tree c' ts' ∧
      Books db c'.sqlite (l.commit t x.tr) ts' ∧ t ∉ ts' ∧ c'.parents = c.parents := by
  have hmem := h.started_iff hx
  by_cases hs : x.started = true
  · obtain ⟨ts', rfl⟩ := h.head hin (hmem.mpr hs)
    have hnot := (List.nodup_cons.mp h.nodup).1
    obtain ⟨s', hs', hb'⟩ : ∃ s', Conn.sendCommit c.sqlite t x.tr = some s' ∧
        Books db s' (l.commit t x.tr) ts' := by
      rcases h.made hx with ⟨rfl, htr⟩ | ⟨p, ts'', rfl, htr⟩
      · rw [htr]
        exact hb.commit
      · rw [htr]
        exact hb.release h.nodup
    refine ⟨_, ts', ?_, h.finish hx s', hb', hnot,
      parents_put hx { x with started := false } rfl s'⟩
    rw [Conn.commit, if_neg (not_not.mpr hs), hs', Option.map_some]
  · have ht : t ∉ ts := fun hmem' => hs (hmem.mp hmem')
    refine ⟨c, ts, by rw [Conn.commit, if_pos hs], h, ?_, ht, rfl⟩
    rw [Ledger.commit_idle (hb.not_has ht)]
    exact hb

theorem rollback_spec (h : Tree c ts) (hb : Books db c.sqlite l ts) (hx : c.trans t = some x)
    (hin : c.Innermost t) (hlast : l.Last t) : ∃ c' ts', c.rollback t x = some c' ∧ Tree c' ts' ∧
      Books db c'.sqlite (l.rollback t) ts' ∧ t ∉ ts' ∧ c'.parents = c.parents := by
  have hmem := h.started_iff hx
  by_cases hs : x.started = true
  · obtain ⟨ts', rfl⟩ := h.head hin (hmem.mpr hs)
    have hnot := (List.nodup_cons.mp h.nodup).1
    obtain ⟨s', hs', hb'⟩ : ∃ s', Conn.sendRollback c.sqlite t x.tr = some s' ∧
        Books db s' (l.rollback t) ts' := by
      rcases h.made hx with ⟨rfl, htr⟩ | ⟨p, ts'', rfl, htr⟩
      · rw [htr]
        exact hb.rollback hlast
      · rw [htr]
        exact hb.rollbackTo h.nodup hlast
    refine ⟨_, ts', ?_, h.finish hx s', hb', hnot,
      parents_put hx { x with started := false } rfl s'⟩
    rw [Conn.rollback, if_neg (not_not.mpr hs), hs', Option.map_some]
  · have ht : t ∉ ts := fun hmem' => hs (hmem.mp hmem')
    refine ⟨c, ts, by rw [Conn.rollback, if_pos hs], h, ?_, ht, rfl⟩
    rw [Ledger.rollback_idle (hb.not_has ht)]
    exact hb

theorem destroy_spec (h : Tree c ts) (hb : Books db c.sqlite l ts) (hx : c.trans t = some x)
    (hflags : x.doRollback ∨ x.doCommit) (hno : ∀ u ≤ c.tranId, ∀ y ∈ c.trans u, y.tr ≠ some t)
    (hlast : x.doRollback → l.Last t) : ∃ c' ts', c.destroy t x = some c' ∧ Tree c' ts' ∧
      Books db c'.sqlite
        (if x.doRollback then l.rollback t else if x.doCommit then l.commit t x.tr else l) ts' := by
  have hin : c.Innermost t := fun u hu y hy htr => absurd htr (hno u hu y hy)
  have hpar : ∀ u, c.parents u ≠ some (some t) := by
    intro u hu
    have hle := h.ids u (by rw [hu]; rfl)
    obtain ⟨y, hy, htr⟩ := Option.map_eq_some_iff.mp hu
    exact hno u hle y hy htr
  -- what the destructor calls
  obtain ⟨c₁, ts₁, hc₁, ht₁, hb₁, hnot, hp₁⟩ : ∃ c' ts', (if ¬ x.started then some c
      else if x.doRollback then c.rollback t x
      else if x.doCommit then c.commit t x
      else some c) = some c' ∧ Tree c' ts' ∧ Books db c'.sqlite
        (if x.doRollback then l.rollback t else if x.doCommit then l.commit t x.tr else l) ts' ∧
      t ∉ ts' ∧ c'.parents = c.parents := by
    by_cases hr : x.doRollback = true
    · obtain ⟨c', ts', hc', hrest⟩ := rollback_spec h hb hx hin (hlast hr)
      refine ⟨c', ts', ?_, by rw [if_pos hr]; exact hrest⟩
      rw [if_pos hr, hc']
      split
      · rename_i hs
        rw [Conn.rollback, if_pos hs] at hc'
        exact hc'
      · rfl
    · have hcm := hflags.resolve_left hr
      obtain ⟨c', ts', hc', hrest⟩ := commit_spec h hb hx hin
      refine ⟨c', ts', ?_, by rw [if_neg hr, if_pos hcm]; exact hrest⟩
      rw [if_neg hr, if_pos hcm, hc']
      split
      · rename_i hs
        rw [Conn.commit, if_pos hs] at hc'
        exact hc'
      · rfl
  refine ⟨c₁.put t none, ts₁, by rw [Conn.destroy, hc₁, Option.map_some], ?_, hb₁⟩
  exact ht₁.remove hnot fun u => by rw [hp₁]; exact hpar u

theorem query_spec (h : Tree c ts) (hb : Books db c.sqlite l ts) (hx : c.trans t = some x)
    (hstart : x.started = false → ∀ p ∈ x.tr, (∃ y ∈ c.trans p, y.started) ∧ c.Innermost p) :
    ∃ c' ts', c.query t x f = some c' ∧ Tree c' ts' ∧
      Books db c'.sqlite (l ++ [(f, some t)]) ts' := by
  have hmem := h.started_iff hx
  by_cases hs : x.started = true
  · refine ⟨{ c with sqlite := c.sqlite.modify f }, ts, ?_, ?_, hb.query (hmem.mpr hs)⟩
    · rw [Conn.query, Conn.start, if_pos hs, Option.map_some]
    · exact ⟨h.ids, h.parent, h.main, h.started, h.chain, h.nodup⟩
  · have hnot : t ∉ ts := fun hmem' => hs (hmem.mp hmem')
    -- the new chain, and the store when the statement has been sent
    obtain ⟨s', hs', hb', hchain⟩ : ∃ s', Conn.sendStart c.sqlite t x.tr = some s' ∧
        Books db (s'.modify f) (l ++ [(f, some t)]) (t :: ts) ∧ Chain c.parents (t :: ts) := by
      cases htr : x.tr with
      | none =>
        have hpar : c.parents t = some none := by rw [parents_eq hx, htr]
        cases ts with
        | nil =>
          obtain ⟨s', hs', hb'⟩ := hb.begin (f := f) (t := t)
          exact ⟨s', hs', hb', hpar⟩
        | cons a ts =>
          -- the last one of a chain is made from the connection, too
          have hlast : ∀ us : List Nat, us ≠ [] → Chain c.parents us → t ∈ us := by
            intro us
            induction us with
            | nil => exact fun hne => absurd rfl hne
            | cons b us ih =>
              intro _ hc
              cases us with
              | nil => exact List.mem_singleton.mpr (h.main t b hpar hc)
              | cons b' us => exact List.mem_cons_of_mem b (ih (List.cons_ne_nil _ _) hc.2)
          exact absurd (hlast _ (List.cons_ne_nil _ _) h.chain) hnot
      | some p =>
        obtain ⟨⟨y, hy, hys⟩, hin⟩ := hstart (by simpa using hs) p htr
        obtain ⟨ts', rfl⟩ := h.head hin ((h.started_iff hy).mpr hys)
        exact ⟨c.sqlite.savepoint t, rfl, hb.savepoint hnot, by rw [parents_eq hx, htr], h.chain⟩
    have htree := h.put hx { x with started := true } rfl (s'.modify f)
      (List.nodup_cons.mpr ⟨hnot, h.nodup⟩) hchain (by simp) fun u hu => by simp [hu]
    refine ⟨_, t :: ts, ?_, htree, hb'⟩
    rw [Conn.query, Conn.start, if_neg hs, hs', Option.map_some, Option.map_some]
    rfl

/-- **One step.** -/
theorem step_spec {a : Act δ} (h : Tree c ts) (hb : Books db c.sqlite l ts) (hn : Nested c a)
    (ho : Orderly c l a) :
    ∃ c' ts', step c a = some c' ∧ Tree c' ts' ∧ Books db c'.sqlite (record c l a) ts' := by
  cases a with
  | newMain => exact ⟨c.new none, ts, rfl, h.new (.inl ⟨rfl, hn⟩), hb⟩
  | newNested p =>
    obtain ⟨x, hx⟩ := Option.isSome_iff_exists.mp hn
    exact ⟨c.new (some p), ts, by rw [step, hx, Option.map_some], h.new (.inr ⟨p, rfl, hn⟩), hb⟩
  | commitOnDestruct t yesno =>
    obtain ⟨x, hx⟩ := Option.isSome_iff_exists.mp hn
    have hst := h.started_iff hx
    exact ⟨c.put t (some { x with doCommit := yesno }), ts, by rw [step, hx, Option.map_some],
      h.put hx { x with doCommit := yesno } rfl c.sqlite h.nodup h.chain hst fun _ _ => Iff.rfl, hb⟩
  | rollbackOnDestruct t yesno =>
    obtain ⟨x, hx⟩ := Option.isSome_iff_exists.mp hn
    have hst := h.started_iff hx
    exact ⟨c.put t (some { x with doRollback := yesno }), ts, by rw [step, hx, Option.map_some],
      h.put hx { x with doRollback := yesno } rfl c.sqlite h.nodup h.chain hst fun _ _ => Iff.rfl,
      hb⟩
  | query t f =>
    obtain ⟨x, hx⟩ := Option.isSome_iff_exists.mp hn
    rw [step, hx, Option.bind_some]
    exact query_spec h hb hx (ho x hx)
  | commit t =>
    obtain ⟨x, hx⟩ := Option.isSome_iff_exists.mp hn.1
    obtain ⟨c', ts', hc', ht', hb', -⟩ := commit_spec h hb hx hn.2
    refine ⟨c', ts', by rw [step, hx, Option.bind_some, hc'], ht', ?_⟩
    rw [record, hx]
    exact hb'
  | rollback t =>
    obtain ⟨x, hx⟩ := Option.isSome_iff_exists.mp hn.1
    obtain ⟨c', ts', hc', ht', hb', -⟩ := rollback_spec h hb hx hn.2 ho
    exact ⟨c', ts', by rw [step, hx, Option.bind_some, hc'], ht', hb'⟩
  | destroy t =>
    obtain ⟨⟨x, hx, hflags⟩, hno⟩ := hn
    rw [step, record, show c.trans t = some x from hx, Option.bind_some]
    exact destroy_spec h hb hx hflags hno (ho x hx)

/-- A run. -/
theorem run_spec {acts : List (Act δ)} : ∀ {c : Conn δ} {l : Ledger δ} {ts : List Nat}, Tree c ts →
    Books db c.sqlite l ts → Along (fun c l a => Nested c a ∧ Orderly c l a) c l acts →
    ∃ c' l' ts', run c l acts = some (c', l') ∧ Tree c' ts' ∧ Books db c'.sqlite l' ts' := by
  induction acts with
  | nil =>
    intro c l ts h hb _
    exact ⟨c, l, ts, rfl, h, hb⟩
  | cons a acts ih =>
    intro c l ts h hb hall
    obtain ⟨⟨hn, ho⟩, hrest⟩ := hall
    obtain ⟨c₁, ts₁, hc₁, ht₁, hb₁⟩ := step_spec h hb hn ho
    rw [run, hc₁, Option.bind_some]
    exact ih ht₁ hb₁ (hrest c₁ hc₁)

theorem tree_init (db : δ) : Tree (Conn.init db) [] := by
  have hnone : ∀ u, (Conn.init db).parents u = none := fun _ => rfl
  refine ⟨fun u hu => ?_, fun u q hq => ?_, fun u v hu _ => ?_, fun u => ?_, trivial,
    List.nodup_nil⟩
  · rw [hnone] at hu
    cases hu
  · rw [hnone] at hq
    cases hq
  · rw [hnone] at hu
    cases hu
  · exact ⟨fun hmem => absurd hmem List.not_mem_nil, fun ⟨x, hx, _⟩ => by cases hx⟩

/-- **Nested transactions.** -/
theorem nested_transactions (db : δ) (acts : List (Act δ))
    (h : Along (fun c l a => Nested c a ∧ Orderly c l a) (.init db) [] acts) :
    ∃ c l, run (.init db) [] acts = some (c, l) ∧ Settled db c l := by
  have hbooks : Books db (Conn.init db).sqlite [] [] :=
    ⟨fun e he => absurd he List.not_mem_nil, trivial, .nil, rfl⟩
  obtain ⟨c, l, ts, hrun, ht, hb⟩ := run_spec (tree_init db) hbooks h
  refine ⟨c, l, hrun, fun hgone => ?_⟩
  have hnil : ts = [] := by
    refine List.eq_nil_iff_forall_not_mem.mpr fun u hu => ?_
    obtain ⟨x, hx, -⟩ := (ht.started u).mp hu
    rw [hgone u (ht.ids u (by rw [parents_eq hx]; rfl))] at hx
    cases hx
  subst hnil
  have hkept : l.kept = l := by
    refine List.filter_eq_self.mpr fun e he => decide_eq_true ?_
    by_contra hne
    obtain ⟨u, hu⟩ := Option.ne_none_iff_exists'.mp hne
    exact absurd (hb.owners e he u hu) List.not_mem_nil
  rw [hkept]
  exact ⟨hb.saved.eq_nil, hb.contents⟩

/-! ## Some runs -/

def insert (n : Nat) (db : List Nat) : List Nat := db ++ [n]

/-- One nested transaction is rolled back, and used again. -/
def orderlyActs : List (Act (List Nat)) :=
  [.newMain, .newNested 1, .query 1 (insert 1), .query 2 (insert 2), .rollback 2,
    .query 1 (insert 3), .query 2 (insert 4), .destroy 2, .destroy 1]

theorem nested_transactions_orderly :
    ∃ c l, run (.init []) [] orderlyActs = some (c, l) ∧ Settled [] c l :=
  nested_transactions [] orderlyActs (by decide +kernel)

/-- The transactions are nested, and when they are gone things are not settled. -/
def Breaks (acts : List (Act (List Nat))) : Prop :=
  Along (fun c _ a => Nested c a) (.init []) [] acts ∧
    ∃ r ∈ run (.init []) [] acts, ¬ Settled [] r.1 r.2

instance (acts : List (Act (List Nat))) : Decidable (Breaks acts) := by
  unfold Breaks; infer_instance

/-- The main transaction has made no query when the nested one does: what is rolled back stays
    open, and what was committed to a transaction that is rolled back is there for good. And what
    the main transaction does while a nested one runs is rolled back with that. -/
theorem nested_transactions_fails :
    Breaks [.newMain, .newNested 1, .query 2 (insert 1), .rollback 2, .destroy 2, .destroy 1] ∧
    Breaks [.newMain, .newNested 1, .rollbackOnDestruct 1 true, .query 2 (insert 1), .destroy 2,
      .destroy 1] ∧
    Breaks [.newMain, .newNested 1, .query 1 (insert 1), .query 2 (insert 2), .query 1 (insert 3),
      .rollback 2, .destroy 2, .destroy 1] := by
  decide +kernel

end Slt3

end CodeSLoop
