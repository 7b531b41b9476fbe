import CodeSLoop.Lib.Pages

/-!
# `pvlist` — lists of pointers (`common/pvlist.hh`)

Pointers are kept in items of `block_size` places; the first item is part of the list itself, so
it is there also when nothing was stored. An iterator has an item and a place in it, and leaves
the item behind its last used place. That works for any number of pointers because a new item is
linked only when the last one is full (`ensure_item`), and gets a pointer at once.

What is stored is what the pointers point to.
-/

namespace CodeSLoop

open Pages

universe u

/-- The members of `pvlist<I,T>`: `head_` with the items linked behind it, and `n_items_`. -/
structure Pvlist (I : Nat) (α : Type u) where
  items : List (List α)
  nItems : Nat
  block_pos : 0 < I
  paged : items = [[]] ∨ items ≠ [] ∧ Paged I items
  nItems_eq : nItems = items.flatten.length

namespace Pvlist

variable {I : Nat} {α : Type u}

/-- `pvlist()`, and what `free_all` leaves. -/
def init (h : 0 < I) : Pvlist I α := ⟨[[]], 0, h, Or.inl rfl, List.length_nil.symm⟩

/-- What is stored, in its order. -/
def toList (l : Pvlist I α) : List α := l.items.flatten

/-- The items after a pointer was stored in the last one, or in the one that `ensure_item` links. -/
def pushItems (I : Nat) (items : List (List α)) (p : α) : List (List α) :=
  match items.getLast? with
  | none => [[p]]
  | some t => if t.length = I then items ++ [[p]] else items.dropLast ++ [t ++ [p]]

theorem pushItems_spec (hI : 0 < I) {items : List (List α)} (h : items = [[]] ∨ items ≠ [] ∧ Paged I items)
    (p : α) : (pushItems I items p ≠ [] ∧ Paged I (pushItems I items p)) ∧
      (pushItems I items p).flatten = items.flatten ++ [p] := by
  rcases List.eq_nil_or_concat' items with rfl | ⟨is, t, rfl⟩
  · rcases h with h | ⟨h, -⟩
    · cases h
    · exact absurd rfl h
  · rw [pushItems, List.getLast?_concat]
    simp only [List.dropLast_concat]
    have hle : (∀ q ∈ is, q.length = I) ∧ t.length ≤ I := by
      rcases h with h | ⟨-, h⟩
      · have h : is ++ [t] = [] ++ [[]] := h
        obtain ⟨rfl, ht⟩ := List.append_inj' h rfl
        cases ht
        exact ⟨fun q hq => (by cases hq), Nat.zero_le _⟩
      · obtain ⟨hfull, -, hle⟩ := paged_concat.mp h
        exact ⟨hfull, hle⟩
    by_cases hfull : t.length = I
    · rw [if_pos hfull]
      refine ⟨⟨by simp, paged_concat.mpr ⟨fun q hq => ?_, List.cons_ne_nil _ _, hI⟩⟩, by simp⟩
      rcases List.mem_append.mp hq with hq | hq
      · exact hle.1 q hq
      · rw [List.mem_singleton.mp hq, hfull]
    · rw [if_neg hfull]
      refine ⟨⟨by simp, paged_concat.mpr ⟨hle.1, by simp, ?_⟩⟩, by simp⟩
      rw [List.length_append, List.length_singleton]
      omega

/-- `push_back`. -/
def pushBack (l : Pvlist I α) (p : α) : Pvlist I α where
  items := pushItems I l.items p
  nItems := l.nItems + 1
  block_pos := l.block_pos
  paged := Or.inr (pushItems_spec l.block_pos l.paged p).1
  nItems_eq := by
    rw [(pushItems_spec l.block_pos l.paged p).2, List.length_append, l.nItems_eq]
    rfl

theorem toList_pushBack (l : Pvlist I α) (p : α) : (l.pushBack p).toList = l.toList ++ [p] :=
  (pushItems_spec l.block_pos l.paged p).2

/-- The items after the last pointer was given something else to point to. -/
def setLastItems (items : List (List α)) (p : α) : List (List α) :=
  match items.getLast? with
  | none => items
  | some t => if t = [] then items else items.dropLast ++ [t.dropLast ++ [p]]

theorem setLastItems_spec {items : List (List α)} (h : items = [[]] ∨ items ≠ [] ∧ Paged I items)
    (p : α) : (setLastItems items p = [[]] ∨ setLastItems items p ≠ [] ∧ Paged I (setLastItems items p)) ∧
      (setLastItems items p).flatten.length = items.flatten.length ∧
      (items.flatten ≠ [] → (setLastItems items p).flatten = items.flatten.dropLast ++ [p]) := by
  rcases List.eq_nil_or_concat' items with rfl | ⟨is, t, rfl⟩
  · exact ⟨h, rfl, fun hne => absurd rfl hne⟩
  · rw [setLastItems, List.getLast?_concat]
    simp only [List.dropLast_concat]
    by_cases ht : t = []
    · rw [if_pos ht]
      refine ⟨h, rfl, fun hne => absurd ?_ hne⟩
      rcases h with h | ⟨-, h⟩
      · rw [h]
        rfl
      · exact absurd ht (paged_concat.mp h).2.1
    · have hlen : (t.dropLast ++ [p]).length = t.length := by
        have hpos := List.length_pos_of_ne_nil ht
        rw [List.length_append, List.length_dropLast, List.length_singleton]
        omega
      rw [if_neg ht]
      refine ⟨Or.inr ⟨by simp, ?_⟩, ?_, fun _ => ?_⟩
      · rcases h with h | ⟨-, h⟩
        · have h : is ++ [t] = [] ++ [[]] := h
          exact absurd (List.append_inj' h rfl).2 (by simpa using ht)
        · obtain ⟨hfull, -, hle⟩ := paged_concat.mp h
          exact paged_concat.mpr ⟨hfull, by simp, by rw [hlen]; exact hle⟩
      · simp only [List.flatten_append, List.flatten_singleton, List.length_append] at hlen ⊢
        rw [hlen]
      · rw [List.flatten_append, List.flatten_append, List.flatten_singleton, List.flatten_singleton,
          List.dropLast_append_of_ne_nil ht, List.append_assoc]

/-- A write through the last pointer. -/
def setLast (l : Pvlist I α) (p : α) : Pvlist I α where
  items := setLastItems l.items p
  nItems := l.nItems
  block_pos := l.block_pos
  paged := (setLastItems_spec l.paged p).1
  nItems_eq := l.nItems_eq.trans (setLastItems_spec l.paged p).2.1.symm

theorem toList_setLast (l : Pvlist I α) (p : α) (h : l.toList ≠ []) :
    (l.setLast p).toList = l.toList.dropLast ++ [p] := (setLastItems_spec l.paged p).2.2 h

theorem nItems_eq_length (l : Pvlist I α) : l.nItems = l.toList.length := l.nItems_eq

/-! ## Iterators -/

/-- An iterator: the item, with those behind it, or no item; and the place. -/
structure Iter (α : Type u) where
  item : List (List α)
  pos : Nat
deriving DecidableEq

/-- `end()`. -/
def Iter.stop : Iter α := ⟨[], 0⟩

/-- `operator*`, where nothing is the null pointer. -/
def Iter.deref (it : Iter α) : Option α := it.item.head?.bind (·[it.pos]?)

/-- `operator++`. -/
def Iter.next (it : Iter α) : Iter α :=
  match it.item with
  | [] => stop
  | i :: is => if it.pos + 1 = i.length then ⟨is, 0⟩ else ⟨i :: is, it.pos + 1⟩

/-- What is from the iterator on. -/
def Iter.toList (it : Iter α) : List α := it.item.flatten.drop it.pos

/-- It is at a used place, or at the end. -/
inductive Iter.Valid : Iter α → Prop
  | ended : Valid stop
  | used {i : List α} {is : List (List α)} {pos : Nat} :
      pos < i.length → (∀ j ∈ is, j ≠ []) → Valid ⟨i :: is, pos⟩

/-- `begin()`. -/
def start (l : Pvlist I α) : Iter α := ⟨if l.nItems = 0 then [] else l.items, 0⟩

/-- `last()`. -/
def last (l : Pvlist I α) : Iter α :=
  match l.items.getLast? with
  | none => Iter.stop
  | some t => if l.nItems = 0 ∨ t.length = 0 then Iter.stop else ⟨[t], t.length - 1⟩

/-- At the start of items none of which is empty. -/
theorem Iter.valid_start {is : List (List α)} (h : ∀ j ∈ is, j ≠ []) : Valid ⟨is, 0⟩ := by
  cases is with
  | nil => exact .ended
  | cons i is =>
    exact .used (List.length_pos_of_ne_nil (h i List.mem_cons_self)) fun j hj =>
      h j (List.mem_cons_of_mem _ hj)

/-- **One step of an iterator**: at the end there is nothing; else it is at the first of what is
    left. -/
theorem Iter.Valid.cases {it : Iter α} (h : it.Valid) :
    (it = stop ∧ it.toList = []) ∨
      ∃ x, it ≠ stop ∧ it.deref = some x ∧ it.toList = x :: it.next.toList ∧ it.next.Valid := by
  cases h with
  | ended => exact Or.inl ⟨rfl, rfl⟩
  | @used i is pos hpos his =>
    have hdrop : i.drop pos = i[pos] :: i.drop (pos + 1) := List.drop_eq_getElem_cons hpos
    have htail : toList ⟨i :: is, pos⟩ = i.drop pos ++ is.flatten := by
      rw [toList, List.flatten_cons, List.drop_append_of_le_length (Nat.le_of_lt hpos)]
    refine Or.inr ⟨i[pos], (fun h => by cases h), List.getElem?_eq_getElem hpos, ?_, ?_⟩
    · rw [htail, hdrop, next]
      simp only
      split
      · rename_i hlast
        rw [List.drop_of_length_le (Nat.le_of_eq hlast.symm)]
        rfl
      · rename_i hlast
        have hle : pos + 1 ≤ i.length := by omega
        rw [toList, List.flatten_cons]
        exact congrArg (i[pos] :: ·) (List.drop_append_of_le_length hle).symm
    · rw [next]
      simp only
      split
      · exact valid_start his
      · exact .used (by omega) his

variable (l : Pvlist I α)

theorem items_ne_nil (h : l.toList ≠ []) : ∀ i ∈ l.items, i ≠ [] := by
  rcases l.paged with hnil | ⟨-, hpaged⟩
  · rw [toList, hnil] at h
    exact absurd rfl h
  · intro i hi
    obtain ⟨is, is', he⟩ := List.append_of_mem hi
    have hdrop := hpaged.drop is.length
    rw [he, List.drop_left] at hdrop
    exact hdrop.ne_nil l.block_pos

theorem start_spec : l.start.Valid ∧ l.start.toList = l.toList := by
  by_cases h : l.toList = []
  · have h0 : l.nItems = 0 := by rw [l.nItems_eq_length, h, List.length_nil]
    rw [start, if_pos h0, h]
    exact ⟨.ended, rfl⟩
  · have h0 : l.nItems ≠ 0 := by
      rw [l.nItems_eq_length]
      exact fun h0 => h (List.length_eq_zero_iff.mp h0)
    rw [start, if_neg h0]
    exact ⟨Iter.valid_start (l.items_ne_nil h), rfl⟩

theorem deref_last : l.last.deref = l.toList.getLast? := by
  rcases List.eq_nil_or_concat' l.items with hnil | ⟨is, t, he⟩
  · rw [last, toList, hnil]
    rfl
  · rw [last, he, List.getLast?_concat]
    simp only
    by_cases h : l.toList = []
    · have h0 : l.nItems = 0 := by rw [l.nItems_eq_length, h, List.length_nil]
      rw [if_pos (Or.inl h0), h]
      rfl
    · have h0 : l.nItems ≠ 0 := by
        rw [l.nItems_eq_length]
        exact fun h0 => h (List.length_eq_zero_iff.mp h0)
      have ht : t ≠ [] := l.items_ne_nil h t (by rw [he]; simp)
      have ht0 : t.length ≠ 0 := fun h0 => ht (List.length_eq_zero_iff.mp h0)
      rw [if_neg (by rintro (h | h); exacts [h0 h, ht0 h])]
      rw [toList, he, List.flatten_append, List.flatten_singleton, List.getLast?_append,
        List.getLast?_eq_getElem?]
      have hsome : t[t.length - 1]? = some (t.getLast ht) := by
        rw [← List.getLast?_eq_getElem?, List.getLast?_eq_some_getLast ht]
      simp [Iter.deref, hsome]

end Pvlist

end CodeSLoop
