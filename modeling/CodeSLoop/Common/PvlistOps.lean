import CodeSLoop.Common.Pvlist

/-!
# Pointers by their number, and pointers given back (`common/pvlist.hh`)

What is stored are pointers, and a null pointer may be one of them: `free` and `free_one` leave
one where the pointer was that they destroy. No operation but `push_back` and `free_all` changes
how many pointers an item has, so a number is the number of an item and a place in it all the
time, and a list of pointers in items is a plain list (`run_agrees`). An iterator that is not at
the end is on an item with a used place, so `used_-1` does not wrap.
-/

namespace CodeSLoop

open Pages

universe u

namespace Pvlist

/-! ## The operations -/

section Model

variable {I : Nat} {P : Type u}

/-- `while( pt->next_ && pn > 0 )`: the items from the one on that it comes to, and what is left
    of `pn`. -/
def walk {α : Type u} : Nat → List (List α) → Nat × List (List α)
  | pn + 1, _ :: j :: is => walk pn (j :: is)
  | pn, is => (pn, is)

/-- `get_at`. -/
def getAt (l : Pvlist I (Option P)) (which : Nat) : Option P :=
  if which ≥ l.nItems then none
  else if which / I = 0 then
    let head := l.items.headD []
    if which < head.length then head.getD which none else none
  else
    match walk (which / I) l.items with
    | (0, pt :: _) => if which % I < pt.length then pt.getD (which % I) none else none
    | _ => none

/-- The items after the place `rm` of the item number `pn` was set, when there is such a place. -/
def setItem (rm : Nat) (ptr : Option P) : Nat → List (List (Option P)) → Option (List (List (Option P)))
  | 0, pt :: is => if rm < pt.length then some (pt.set rm ptr :: is) else none
  | pn + 1, i :: j :: is => (setItem rm ptr pn (j :: is)).map (i :: ·)
  | _, _ => none

/-- The items that `set_at` leaves when it returns true. -/
def setItems (l : Pvlist I (Option P)) (which : Nat) (ptr : Option P) : Option (List (List (Option P))) :=
  if which ≥ l.nItems then none
  else if which / I = 0 then setItem which ptr 0 l.items
  else setItem (which % I) ptr (which / I) l.items

variable [DecidableEq P]

/-- What `free` makes of pointers: whether it found one, what it gave to the destructor, and what it
    left. The destructor does nothing with a null pointer. -/
structure Freed (P : Type u) (β : Type u) where
  freed : Bool
  destructed : List P
  left : β
deriving DecidableEq

/-- The inner loop of `free`. -/
def freeItem (p : Option P) : Bool → List (Option P) → Freed P (List (Option P))
  | freed, [] => ⟨freed, [], []⟩
  | freed, q :: qs =>
    if q = p then
      let r := freeItem p true qs
      ⟨r.freed, (if freed then [] else q.toList) ++ r.destructed, none :: r.left⟩
    else
      let r := freeItem p freed qs
      ⟨r.freed, r.destructed, q :: r.left⟩

/-- The outer one. -/
def freeItems (p : Option P) : Bool → List (List (Option P)) → Freed P (List (List (Option P)))
  | freed, [] => ⟨freed, [], []⟩
  | freed, i :: is =>
    let r := freeItem p freed i
    let rs := freeItems p r.freed is
    ⟨rs.freed, r.destructed ++ rs.destructed, r.left :: rs.left⟩

/-- The inner loop of `free_one`, when it returns true. -/
def freeOneItem (p : Option P) : List (Option P) → Option (List (Option P))
  | [] => none
  | q :: qs => if q = p then some (none :: qs) else (freeOneItem p qs).map (q :: ·)

/-- The outer one. -/
def freeOneItems (p : Option P) : List (List (Option P)) → Option (List (List (Option P)))
  | [] => none
  | i :: is =>
    match freeOneItem p i with
    | some i' => some (i' :: is)
    | none => (freeOneItems p is).map (i :: ·)

end Model

/-! ## Null pointers -/

section Nulled

variable {P : Type u} [DecidableEq P] {p : Option P}

/-- All occurrences of `p` set to null. -/
def nulled (p : Option P) (qs : List (Option P)) : List (Option P) :=
  qs.map fun q => if q = p then none else q

theorem freeItem_eq {freed : Bool} {qs : List (Option P)} : freeItem p freed qs =
    ⟨freed || decide (p ∈ qs), if freed = false ∧ p ∈ qs then p.toList else [], nulled p qs⟩ := by
  induction qs generalizing freed with
  | nil => simp [freeItem, nulled]
  | cons q qs ih =>
    rw [freeItem, ih, ih]
    by_cases hq : q = p
    · cases freed <;> simp [hq, nulled]
    · have hp : ¬ p = q := fun h => hq h.symm
      simp [hq, hp, nulled]

theorem freeItems_eq {freed : Bool} {items : List (List (Option P))} : freeItems p freed items =
    ⟨freed || decide (p ∈ items.flatten), if freed = false ∧ p ∈ items.flatten then p.toList else [],
      items.map (nulled p)⟩ := by
  induction items generalizing freed with
  | nil => simp [freeItems]
  | cons i is ih =>
    rw [freeItems, freeItem_eq, ih]
    by_cases hi : p ∈ i
    · cases freed <;> simp [hi]
    · cases freed <;> simp [hi]

theorem freeOneItem_eq {qs : List (Option P)} :
    freeOneItem p qs = if p ∈ qs then some (qs.replace p none) else none := by
  induction qs with
  | nil => rfl
  | cons q qs ih =>
    rw [freeOneItem, ih]
    by_cases hq : q = p
    · simp [hq]
    · have hp : ¬ p = q := fun h => hq h.symm
      have hbeq : (p == q) = false := beq_eq_false_iff_ne.mpr hp
      by_cases hqs : p ∈ qs
      · simp [hq, hqs, List.replace_cons, hbeq]
      · simp [hq, hp, hqs]

/-- It does not matter how the pointers are put into items. -/
theorem freeOneItems_flatten {items : List (List (Option P))} :
    (freeOneItems p items).map List.flatten = freeOneItem p items.flatten := by
  induction items with
  | nil => rfl
  | cons i is ih =>
    rw [freeOneItems, freeOneItem_eq, List.flatten_cons, freeOneItem_eq]
    by_cases hi : p ∈ i
    · simp [hi, List.replace_append_left]
    · rw [if_neg hi, Option.map_map]
      rw [freeOneItem_eq] at ih
      by_cases his : p ∈ is.flatten
      · rw [if_pos his] at ih
        obtain ⟨is', his', hflat⟩ := Option.map_eq_some_iff.mp ih
        rw [if_pos (List.mem_append_right _ his), List.replace_append_right hi, his']
        simp [hflat]
      · rw [if_neg his] at ih
        rw [if_neg (by simp [hi, his]), Option.map_eq_none_iff.mp ih]
        rfl

theorem freeOneItems_lengths {items items' : List (List (Option P))} (h : freeOneItems p items = some items') :
    items'.map List.length = items.map List.length := by
  induction items generalizing items' with
  | nil => cases h
  | cons i is ih =>
    rw [freeOneItems, freeOneItem_eq] at h
    by_cases hi : p ∈ i
    · rw [if_pos hi] at h
      cases h
      simp
    · rw [if_neg hi] at h
      obtain ⟨is', his', rfl⟩ := Option.map_eq_some_iff.mp h
      rw [List.map_cons, List.map_cons, ih his']

end Nulled

/-! ## Numbers -/

section Numbers

variable {I : Nat} {P : Type u}

theorem walk_eq {α : Type u} : ∀ {pn : Nat} {items : List (List α)}, pn < items.length →
    walk pn items = (0, items.drop pn)
  | 0, _ :: _, _ => rfl
  | pn + 1, [_], h => absurd h (by simp)
  | pn + 1, _ :: j :: is, h => by
    rw [walk, walk_eq (Nat.lt_of_succ_lt_succ h), List.drop_succ_cons]

theorem setItem_eq {rm : Nat} {ptr : Option P} : ∀ {pn : Nat} {items : List (List (Option P))}
    {pt : List (Option P)}, items[pn]? = some pt → rm < pt.length →
      setItem rm ptr pn items = some (items.modify pn (·.set rm ptr))
  | 0, i :: is, pt, hpt, hrm => by
    cases hpt
    rw [setItem, if_pos hrm]
    rfl
  | pn + 1, [i], pt, hpt, _ => by cases hpt
  | pn + 1, i :: j :: is, pt, hpt, hrm => by
    have hrest : (j :: is)[pn]? = some pt := hpt
    rw [setItem, setItem_eq hrest hrm, List.modify_succ_cons]
    rfl

/-- **The place of a number**: there is an item of that number, and it has the place. -/
theorem exists_place {α : Type u} (l : Pvlist I α) {k : Nat} (h : k < l.nItems) : ∃ pt,
    l.items[k / I]? = some pt ∧ k % I < pt.length ∧ l.toList[k]? = pt[k % I]? ∧ Paged I l.items := by
  rw [l.nItems_eq] at h
  rcases l.paged with hnil | ⟨-, hpaged⟩
  · rw [hnil] at h
    exact absurd h (Nat.not_lt_zero _)
  · have hplace := hpaged.getElem?_flatten l.block_pos k
    rw [List.getElem?_eq_getElem h] at hplace
    obtain ⟨pt, hpt, hk⟩ := Option.bind_eq_some_iff.mp hplace.symm
    refine ⟨pt, hpt, (List.getElem?_eq_some_iff.mp hk).1, ?_, hpaged⟩
    rw [hk, toList, List.getElem?_eq_getElem h]

/-- `get_at(k)` is the pointer of that number, and null when there is none. -/
theorem getAt_eq (l : Pvlist I (Option P)) (k : Nat) : l.getAt k = l.toList.getD k none := by
  rw [getAt, List.getD_eq_getElem?_getD]
  by_cases hk : k < l.nItems
  · obtain ⟨pt, hpt, hrm, hget, -⟩ := l.exists_place hk
    have hlen : k / I < l.items.length := (List.getElem?_eq_some_iff.mp hpt).1
    rw [if_neg (Nat.not_le_of_lt hk), hget]
    by_cases h0 : k / I = 0
    · have hmod : k % I = k := Nat.mod_eq_of_lt ((Nat.div_eq_zero_iff_lt l.block_pos).mp h0)
      have hhead : l.items.headD [] = pt := by
        rw [h0] at hpt
        rw [List.headD_eq_head?_getD, List.head?_eq_getElem?, hpt, Option.getD_some]
      rw [hmod] at hrm ⊢
      simp only [h0, if_true, hhead, hrm, List.getD_eq_getElem?_getD]
    · have hdrop : l.items.drop (k / I) = pt :: l.items.drop (k / I + 1) := by
        rw [List.drop_eq_getElem_cons hlen, (List.getElem?_eq_some_iff.mp hpt).2]
      rw [if_neg h0, walk_eq hlen, hdrop]
      simp only [hrm, if_true, List.getD_eq_getElem?_getD]
  · have hle : l.toList.length ≤ k := l.nItems_eq_length ▸ Nat.le_of_not_lt hk
    rw [if_pos (Nat.le_of_not_lt hk), List.getElem?_eq_none hle]
    rfl

/-- `set_at(k)` sets the pointer of that number. -/
theorem setItems_eq (l : Pvlist I (Option P)) (k : Nat) (ptr : Option P) : l.setItems k ptr =
    if k < l.nItems then some (l.items.modify (k / I) (·.set (k % I) ptr)) else none := by
  rw [setItems]
  by_cases hk : k < l.nItems
  · obtain ⟨pt, hpt, hrm, -⟩ := l.exists_place hk
    rw [if_neg (Nat.not_le_of_lt hk), if_pos hk, setItem_eq hpt hrm]
    by_cases h0 : k / I = 0
    · have hmod : k % I = k := Nat.mod_eq_of_lt ((Nat.div_eq_zero_iff_lt l.block_pos).mp h0)
      rw [h0] at hpt
      rw [hmod] at hrm ⊢
      rw [if_pos h0, setItem_eq hpt hrm, h0]
    · rw [if_neg h0]
  · rw [if_pos (Nat.le_of_not_lt hk), if_neg hk]

end Numbers

/-! ## Runs -/

section Runs

variable {I : Nat} {P : Type u}

/-- Other pointers in the same places. -/
def withItems {α : Type u} (l : Pvlist I α) (items : List (List α))
    (h : items.map List.length = l.items.map List.length) : Pvlist I α where
  items := items
  nItems := l.nItems
  block_pos := l.block_pos
  paged := by
    rcases l.paged with hnil | ⟨hne, hpaged⟩
    · rw [hnil] at h
      obtain ⟨i, rfl, hi⟩ := List.map_eq_singleton_iff.mp h
      exact Or.inl (congrArg (fun i => [i]) (List.length_eq_zero_iff.mp hi))
    · refine Or.inr ⟨fun hnil => hne ?_, hpaged.of_lengths h⟩
      rw [hnil] at h
      exact List.map_eq_nil_iff.mp h.symm
  nItems_eq := by rw [l.nItems_eq, List.length_flatten, List.length_flatten, h]

theorem toList_withItems {α : Type u} (l : Pvlist I α) {items : List (List α)}
    (h : items.map List.length = l.items.map List.length) : (l.withItems items h).toList = items.flatten :=
  rfl

theorem modify_lengths {α : Type u} (items : List (List α)) (pn rm : Nat) (x : α) :
    (items.modify pn (·.set rm x)).map List.length = items.map List.length := by
  refine List.ext_getElem? fun i => ?_
  rw [List.getElem?_map, List.getElem?_map, List.getElem?_modify]
  cases items[i]? with
  | none => rfl
  | some pt => by_cases hi : pn = i <;> simp [hi]

theorem setItems_lengths {l : Pvlist I (Option P)} {which : Nat} {ptr : Option P}
    {items : List (List (Option P))} (h : l.setItems which ptr = some items) :
    items.map List.length = l.items.map List.length := by
  rw [setItems_eq] at h
  by_cases hk : which < l.nItems
  · rw [if_pos hk] at h
    cases h
    exact modify_lengths _ _ _ _
  · rw [if_neg hk] at h
    cases h

inductive Op (P : Type u)
  | pushBack (p : Option P)
  | setAt (which : Nat) (ptr : Option P)
  | free (p : Option P)
  | freeOne (p : Option P)
  | freeAll
deriving DecidableEq

/-- What a call returns. -/
inductive Answer (P : Type u)
  | ptr (p : Option P)
  | bool (b : Bool)
  | nothing
deriving DecidableEq

variable [DecidableEq P]

theorem freeItems_lengths {p : Option P} {items : List (List (Option P))} :
    (freeItems p false items).left.map List.length = items.map List.length := by
  rw [freeItems_eq, List.map_map]
  refine List.map_congr_left fun i _ => ?_
  exact List.length_map _

/-- A call, with what it returns and what it gives to the destructor. -/
def step (l : Pvlist I (Option P)) : Op P → Pvlist I (Option P) × Answer P × List P
  | .pushBack p => (l.pushBack p, .ptr p, [])
  | .setAt which ptr =>
    match h : l.setItems which ptr with
    | some items => (l.withItems items (setItems_lengths h), .bool true, [])
    | none => (l, .bool false, [])
  | .free p =>
    let r := freeItems p false l.items
    (l.withItems r.left freeItems_lengths, .bool r.freed, r.destructed)
  | .freeOne p =>
    match h : freeOneItems p l.items with
    | some items => (l.withItems items (freeOneItems_lengths h), .bool true, p.toList)
    | none => (l, .bool false, [])
  | .freeAll => (init l.block_pos, .nothing, l.items.flatMap (List.filterMap id))

/-- The calls one after the other, with what each of them returns and destroys. -/
def run (l : Pvlist I (Option P)) : List (Op P) → Pvlist I (Option P) × List (Answer P × List P)
  | [] => (l, [])
  | op :: ops =>
    let r := l.step op
    let rs := run r.1 ops
    (rs.1, r.2 :: rs.2)

/-- The loop `for( it=begin();it!=end();++it )`, cut off after so many turns: the iterators it
    has. -/
def visit : Nat → Iter (Option P) → Option (List (Iter (Option P)))
  | 0, _ => none
  | fuel + 1, it => if it = Iter.stop then some [] else (visit fuel it.next).map (it :: ·)

end Runs

/-! ## A plain list of pointers -/

section Plain

variable {P : Type u} [DecidableEq P]

/-- What the calls are on a plain list: it grows at its end, and what is freed becomes null. -/
def plainStep (xs : List (Option P)) : Op P → List (Option P) × Answer P × List P
  | .pushBack p => (xs ++ [p], .ptr p, [])
  | .setAt which ptr => (xs.set which ptr, .bool (decide (which < xs.length)), [])
  | .free p => (nulled p xs, .bool (decide (p ∈ xs)), if p ∈ xs then p.toList else [])
  | .freeOne p => (xs.replace p none, .bool (decide (p ∈ xs)), if p ∈ xs then p.toList else [])
  | .freeAll => ([], .nothing, xs.filterMap id)

def plainRun (xs : List (Option P)) : List (Op P) → List (Option P) × List (Answer P × List P)
  | [] => (xs, [])
  | op :: ops =>
    let r := plainStep xs op
    let rs := plainRun r.1 ops
    (rs.1, r.2 :: rs.2)

end Plain

section Results

variable {I : Nat} {P : Type u} [DecidableEq P]

/-- **One call** is the call on the plain list. -/
theorem step_refines (l : Pvlist I (Option P)) (op : Op P) :
    ((l.step op).1.toList, (l.step op).2) = plainStep l.toList op := by
  cases op with
  | pushBack p => rw [step, plainStep, toList_pushBack]
  | setAt which ptr =>
    rw [step, plainStep, ← nItems_eq_length]
    have hset := l.setItems_eq which ptr
    split
    · rename_i items h
      rw [h] at hset
      by_cases hk : which < l.nItems
      · obtain ⟨-, -, -, -, hpaged⟩ := l.exists_place hk
        rw [if_pos hk, Option.some.injEq] at hset
        have hflat : items.flatten = l.toList.set which ptr := by
          rw [hset, hpaged.set_flatten l.block_pos]
          rfl
        rw [toList_withItems, hflat, decide_eq_true hk]
      · rw [if_neg hk] at hset
        cases hset
    · rename_i h
      rw [h] at hset
      have hk : ¬ which < l.nItems := by
        intro hk
        rw [if_pos hk] at hset
        cases hset
      rw [decide_eq_false hk, List.set_eq_of_length_le]
      rw [← nItems_eq_length]
      exact Nat.le_of_not_lt hk
  | free p =>
    rw [step, plainStep]
    simp only [toList_withItems, freeItems_eq, Bool.false_or, true_and]
    rw [toList, nulled, List.map_flatten]
    rfl
  | freeOne p =>
    rw [step, plainStep]
    have hflat : (freeOneItems p l.items).map List.flatten = freeOneItem p l.toList := freeOneItems_flatten
    rw [freeOneItem_eq] at hflat
    split
    · rename_i items h
      rw [h, Option.map_some] at hflat
      by_cases hp : p ∈ l.toList
      · rw [if_pos hp, Option.some.injEq] at hflat
        rw [toList_withItems, hflat, decide_eq_true hp, if_pos hp]
      · rw [if_neg hp] at hflat
        cases hflat
    · rename_i h
      rw [h, Option.map_none] at hflat
      have hp : p ∉ l.toList := by
        intro hp
        rw [if_pos hp] at hflat
        cases hflat
      rw [decide_eq_false hp, if_neg hp, List.replace_of_not_mem hp]
  | freeAll =>
    have hall : l.items.flatMap (List.filterMap id) = l.toList.filterMap id := by
      rw [toList, List.filterMap_flatten, List.flatMap_def]
    rw [step, plainStep, hall]
    rfl

/-- **A run** is the run on the plain list. -/
theorem run_refines (l : Pvlist I (Option P)) (ops : List (Op P)) :
    ((l.run ops).1.toList, (l.run ops).2) = plainRun l.toList ops := by
  induction ops generalizing l with
  | nil => rfl
  | cons op ops ih =>
    have hstep := l.step_refines op
    have hrest := ih (l.step op).1
    rw [run, plainRun, ← hstep, ← hrest]

end Results

/-! ## Going through all of them -/

section Visit

variable {I : Nat} {P : Type u}

/-- The last place of the items that the iterator has before it. -/
def Iter.final {α : Type u} (it : Iter α) : Iter α :=
  match it.item.getLast? with
  | none => stop
  | some t => ⟨[t], t.length - 1⟩

/-- From the last place an iterator goes to the end, and from no other. -/
theorem Iter.Valid.final_cases {α : Type u} {it : Iter α} (h : it.Valid) (hne : it ≠ stop) :
    (it.next = stop ∧ it.final = it) ∨ (it.next ≠ stop ∧ it.next.final = it.final) := by
  cases h with
  | ended => exact absurd rfl hne
  | @used i is pos hpos his =>
    rw [next]
    simp only
    split
    · rename_i hlast
      cases is with
      | nil =>
        refine Or.inl ⟨rfl, ?_⟩
        have hlen : i.length - 1 = pos := by omega
        rw [final, List.getLast?_singleton]
        exact congrArg (Iter.mk [i]) hlen
      | cons j is =>
        refine Or.inr ⟨fun hstop => (by cases hstop), ?_⟩
        rw [final, final, List.getLast?_cons_cons]
    · exact Or.inr ⟨fun hstop => (by cases hstop), rfl⟩

theorem last_eq {α : Type u} (l : Pvlist I α) : l.last = l.start.final := by
  rw [last, start]
  by_cases h0 : l.nItems = 0
  · rw [if_pos h0]
    cases l.items.getLast? with
    | none => rfl
    | some t => exact if_pos (Or.inl h0)
  · have hne : l.toList ≠ [] := by
      rw [← List.length_pos_iff, ← nItems_eq_length]
      exact Nat.pos_of_ne_zero h0
    rw [if_neg h0, Iter.final]
    cases hlast : l.items.getLast? with
    | none => rfl
    | some t =>
      have ht : t ≠ [] := l.items_ne_nil hne t (List.mem_of_getLast? hlast)
      have hlen : t.length ≠ 0 := fun h => ht (List.length_eq_zero_iff.mp h)
      exact if_neg fun h => h.elim h0 hlen

variable [DecidableEq P]

/-- **The loop** has an iterator for each of what is left, the last of which is the last place. -/
theorem visit_spec {it : Iter (Option P)} (h : it.Valid) : ∃ its : List (Iter (Option P)),
    (∀ fuel, it.toList.length < fuel → visit fuel it = some its) ∧
      its.map Iter.deref = it.toList.map some ∧ its.getLast?.getD Iter.stop = it.final := by
  generalize hxs : it.toList = xs
  induction xs generalizing it with
  | nil =>
    rcases h.cases with ⟨rfl, -⟩ | ⟨x, -, -, hlist, -⟩
    · refine ⟨[], fun fuel hfuel => ?_, rfl, rfl⟩
      obtain ⟨fuel, rfl⟩ := Nat.exists_eq_add_one_of_ne_zero (Nat.ne_of_gt hfuel)
      exact if_pos rfl
    · rw [hxs] at hlist
      cases hlist
  | cons x xs ih =>
    rcases h.cases with ⟨-, hlist⟩ | ⟨y, hne, hderef, hlist, hnext⟩
    · rw [hxs] at hlist
      cases hlist
    · rw [hxs, List.cons.injEq] at hlist
      obtain ⟨rfl, hlist⟩ := hlist
      obtain ⟨its, hits, hmap, hlast⟩ := ih hnext hlist.symm
      refine ⟨it :: its, fun fuel hfuel => ?_, ?_, ?_⟩
      · obtain ⟨fuel, rfl⟩ := Nat.exists_eq_add_one_of_ne_zero (Nat.ne_of_gt (Nat.zero_lt_of_lt hfuel))
        rw [visit, if_neg hne, hits fuel (Nat.lt_of_succ_lt_succ hfuel)]
        rfl
      · rw [List.map_cons, List.map_cons, hderef, hmap]
      · rcases h.final_cases hne with ⟨hstop, hfinal⟩ | ⟨hgo, hfinal⟩
        · -- nothing is visited from the end on
          have hnil : its.map Iter.deref = [] := by
            rw [hmap, hlist, hstop]
            rfl
          rw [List.map_eq_nil_iff.mp hnil, hfinal]
          rfl
        · rcases hnext.cases with ⟨hstop, -⟩ | ⟨z, -, -, hz, -⟩
          · exact absurd hstop hgo
          · have hsome : its ≠ [] := by
              rintro rfl
              rw [hlist, hz] at hmap
              cases hmap
            rw [List.getLast?_cons_of_ne_nil hsome, hlast, hfinal]

/-- The list answers all that can be asked of it as the plain list does. -/
structure Agrees (l : Pvlist I (Option P)) (xs : List (Option P)) : Prop where
  nItems : l.nItems = xs.length
  getAt : ∀ k, l.getAt k = xs.getD k none
  setAt : ∀ k p, ((l.step (.setAt k p)).2.1 = .bool true ↔ k < xs.length) ∧
    (l.step (.setAt k p)).1.toList = xs.set k p
  visits : ∃ its, (∀ fuel, xs.length < fuel → visit fuel l.start = some its) ∧
    its.map Iter.deref = xs.map some ∧ l.last = its.getLast?.getD Iter.stop
  last : l.last.deref = xs.getLast?

theorem agrees_toList (l : Pvlist I (Option P)) : Agrees l l.toList where
  nItems := l.nItems_eq_length
  getAt := l.getAt_eq
  setAt k p := by
    have hstep := l.step_refines (.setAt k p)
    rw [plainStep, Prod.mk.injEq] at hstep
    refine ⟨?_, hstep.1⟩
    rw [hstep.2, Answer.bool.injEq, decide_eq_true_iff]
  visits := by
    obtain ⟨hvalid, hlist⟩ := l.start_spec
    obtain ⟨its, hits, hmap, hlast⟩ := visit_spec hvalid
    rw [hlist] at hits hmap
    exact ⟨its, hits, hmap, l.last_eq.trans hlast.symm⟩
  last := l.deref_last

/-- **The whole**: after any calls the list is as the plain list is after them, and each call has
returned the same and has given the same to the destructor. -/
theorem run_agrees (h : 0 < I) (ops : List (Op P)) :
    Agrees ((init h : Pvlist I (Option P)).run ops).1 (plainRun [] ops).1 ∧
      ((init h : Pvlist I (Option P)).run ops).2 = (plainRun [] ops).2 := by
  have hrun := (init h : Pvlist I (Option P)).run_refines ops
  have hplain : plainRun (init h : Pvlist I (Option P)).toList ops = plainRun [] ops := rfl
  rw [hplain] at hrun
  rw [← hrun]
  exact ⟨agrees_toList _, rfl⟩

/-- Three pointers in items of two, of which the first is freed. -/
theorem run_agrees_three : 0 < 2 ∧
    Agrees ((init (by decide) : Pvlist 2 (Option Nat)).run
      [.pushBack (some 7), .pushBack (some 8), .pushBack (some 7), .free (some 7)]).1
      [none, some 8, none] :=
  ⟨by decide, (run_agrees (by decide) _).1⟩

end Visit

end Pvlist

end CodeSLoop
