import CodeSLoop.Lib.Run

/-!
# `circbuf` — the circular message buffer (`common/circbuf.hh`)

`circbuf<T,MaxSize>` keeps its nodes on three doubly linked lists closed by a sentinel: the
*active* list (`head_`), the *free* list and the list of items *under preparation*. A list
is modelled as the nodes from the sentinel's `next_` round to its `prev_`: `link_after` on
the sentinel puts a node in front, `unlink_before` on the sentinel takes the last one away
and answers `NULL` on an empty list. Nothing in the class walks a list backwards or splices
one into another, so nothing more of the links can be seen.

A node's payload is the address of its `T`; `new item()` leaves a null pointer there, and
only the two sites that also call `new T()` fill it. A `T &` returned to the caller is the
payload the code dereferences, so `ref none` is a reference made from a null pointer.

The four upcalls are virtual and do nothing here; which of them a call makes, and in which
order, is part of its answer.
-/

namespace CodeSLoop

/-- A list node: `item_` is the address of the payload object, `none` when it is null. -/
structure Item where
  item : Option Nat
deriving DecidableEq, Repr

namespace Circbuf

/-- The event upcalls a subclass may override. -/
inductive Upcall
  | newItem | delItem | full | empty
deriving DecidableEq, Repr

/-- How a call ends: with a reference to the payload it dereferenced, with nothing, with
    `exc::rs_empty`, or inside `link_after(0)`. -/
inductive Outcome
  | ref (item : Option Nat)
  | unit
  | rsEmpty
  | nullNode
deriving DecidableEq, Repr

end Circbuf

/-- The members of `circbuf`. `heap` is the model's supply of addresses for `new T()`:
    nothing is freed before the destructor, so a counter never hands one out twice. -/
structure Circbuf where
  nItems : Nat
  size : Nat
  max : Nat
  head : List Item
  freelist : List Item
  preplist : List Item
  useExc : Bool
  heap : Nat
deriving DecidableEq, Repr

namespace Circbuf

/-- `circbuf()`. A `MaxSize` of zero stands for the largest count the class will hold. -/
def init (maxSize : Nat) (useExc : Bool) : Circbuf where
  nItems := 0
  size := 0
  max := if maxSize = 0 then 1023 * 4095 * 1023 * 0xFFFFFFFF else maxSize
  head := []
  freelist := []
  preplist := []
  useExc := useExc
  heap := 0

/-- `item::link_after`, on a sentinel. -/
def linkAfter (l : List Item) (it : Item) : List Item := it :: l

/-- `item::unlink_before`, on a sentinel: the node unlinked and the list without it, or
    `NULL` when the sentinel is alone. -/
def unlinkBefore (l : List Item) : Option (Item × List Item) :=
  match l.getLast? with
  | none => none
  | some it => some (it, l.dropLast)

/-- What a call answers, the upcalls it made and the buffer it leaves. -/
structure Res where
  out : Outcome
  calls : List Upcall
  buf : Circbuf
deriving DecidableEq, Repr

/-- The first half of a two-phase push. -/
def prepare (b : Circbuf) : Res :=
  match unlinkBefore b.freelist with
  | some (ret, fl) =>
    ⟨.ref ret.item, [], { b with freelist := fl, preplist := linkAfter b.preplist ret }⟩
  | none =>
    if b.nItems < b.max then
      let ret : Item := ⟨some b.heap⟩
      ⟨.ref ret.item, [],
        { b with size := b.size + 1, heap := b.heap + 1, preplist := linkAfter b.preplist ret }⟩
    else
      match unlinkBefore b.head with
      | some (ret, hd) =>
        ⟨.ref ret.item, [], { b with head := hd, preplist := linkAfter b.preplist ret }⟩
      | none => ⟨.nullNode, [], b⟩

/-- The loop of `commit`, standing on the `it`-th node of the prepared list (its length is
    the sentinel). The body has no `it = it->next_`: a node that is not the one looked for
    is looked at again. -/
def commitLoop (b : Circbuf) (t it : Nat) : Nat → Option Res
  | 0 => none
  | fuel + 1 =>
    match b.preplist[it]? with
    | none => some ⟨.unit, [], b⟩
    | some i =>
      if i.item = some t then
        let b' := { b with
          preplist := b.preplist.eraseIdx it
          head := linkAfter b.head i
          nItems := b.nItems + 1 }
        if b'.nItems > b.max then
          some ⟨.unit, [.full, .newItem], { b' with nItems := b.max }⟩
        else
          some ⟨.unit, [.newItem], b'⟩
      else commitLoop b t it fuel

/-- The second half: the item moves to the active list. -/
def commit (b : Circbuf) (t : Nat) (fuel : Nat) : Option Res := commitLoop b t 0 fuel

/-- The loop of `rollback`, which does not advance either. -/
def rollbackLoop (b : Circbuf) (t it : Nat) : Nat → Option Res
  | 0 => none
  | fuel + 1 =>
    match b.preplist[it]? with
    | none => some ⟨.unit, [], b⟩
    | some i =>
      if i.item = some t then
        some ⟨.unit, [], { b with
          preplist := b.preplist.eraseIdx it
          freelist := linkAfter b.freelist i }⟩
      else rollbackLoop b t it fuel

/-- The second half, undone: the item moves to the free list. -/
def rollback (b : Circbuf) (t : Nat) (fuel : Nat) : Option Res := rollbackLoop b t 0 fuel

/-- The one-step push. A full buffer recycles its oldest node. -/
def push (b : Circbuf) : Res :=
  if b.nItems + 1 > b.max then
    match unlinkBefore b.head with
    | some (ret, hd) =>
      ⟨.ref ret.item, [.full, .newItem], { b with nItems := b.max, head := linkAfter hd ret }⟩
    | none => ⟨.nullNode, [], { b with nItems := b.max }⟩
  else
    match unlinkBefore b.freelist with
    | some (ret, fl) =>
      ⟨.ref ret.item, [.newItem],
        { b with nItems := b.nItems + 1, freelist := fl, head := linkAfter b.head ret }⟩
    | none =>
      let ret : Item := ⟨some b.heap⟩
      ⟨.ref ret.item, [.newItem],
        { b with
          nItems := b.nItems + 1
          size := b.size + 1
          heap := b.heap + 1
          head := linkAfter b.head ret }⟩

/-- What `pop`, `newest` and `oldest` do when there is nothing to return: a node without a
    payload goes to the free list, and `THR(rs_empty, *(x->item_))` ends the call. -/
def placeholder (b : Circbuf) (calls : List Upcall) : Res :=
  ⟨if b.useExc then .rsEmpty else .ref none, calls,
    { b with size := b.size + 1, freelist := linkAfter b.freelist ⟨none⟩ }⟩

/-- Removes the oldest node. The node is unlinked before the count is looked at. -/
def pop (b : Circbuf) : Res :=
  let (ret, hd) := match unlinkBefore b.head with
    | some (it, hd) => (some it, hd)
    | none => (none, b.head)
  let b := { b with head := hd }
  if b.nItems = 0 then b.placeholder []
  else
    let calls := if b.nItems = 1 then [Upcall.empty] else []
    let b := { b with nItems := b.nItems - 1 }
    match ret with
    | some it =>
      ⟨.ref it.item, calls ++ [.delItem], { b with freelist := linkAfter b.freelist it }⟩
    | none => b.placeholder calls

/-- `*(head_.next_->item_)`; the sentinel itself carries no payload. -/
def newest (b : Circbuf) : Res :=
  if b.nItems = 0 then b.placeholder []
  else ⟨.ref (b.head.head?.bind Item.item), [], b⟩

/-- `*(head_.prev_->item_)`. -/
def oldest (b : Circbuf) : Res :=
  if b.nItems = 0 then b.placeholder []
  else ⟨.ref (b.head.getLast?.bind Item.item), [], b⟩

/-! ## Calls and runs -/

/-- The calls a user makes; `commit` and `rollback` name an item by its address. -/
inductive Op
  | prepare | commit (t : Nat) | rollback (t : Nat) | push | pop | newest | oldest
deriving DecidableEq, Repr

/-- One call, its loop cut off after `fuel` turns. -/
def exec (b : Circbuf) (fuel : Nat) : Op → Option Res
  | .prepare => some b.prepare
  | .commit t => b.commit t fuel
  | .rollback t => b.rollback t fuel
  | .push => some b.push
  | .pop => some b.pop
  | .newest => some b.newest
  | .oldest => some b.oldest

/-- The discipline of the two-phase push: what is committed or rolled back is under
    preparation. -/
def Legal (b : Circbuf) : Op → Prop
  | .commit t | .rollback t => ⟨some t⟩ ∈ b.preplist
  | _ => True

/-- A legal call that returns. -/
def Step (b : Circbuf) (a : Op × Outcome) (b' : Circbuf) : Prop :=
  b.Legal a.1 ∧ ∃ fuel r, b.exec fuel a.1 = some r ∧ r.out = a.2 ∧ r.buf = b'

instance (b : Circbuf) (a : Op) : Decidable (b.Legal a) := by
  cases a <;> unfold Legal <;> infer_instance

/-- The run that makes the given calls, when all of them are legal and return. -/
def replay (b : Circbuf) : List Op → Option (List ((Op × Outcome) × Circbuf))
  | [] => some []
  | a :: as =>
    if b.Legal a then
      match b.exec 1 a with
      | some r => (replay r.buf as).map (((a, r.out), r.buf) :: ·)
      | none => none
    else none

theorem run_of_replay (as : List Op) : ∀ {b : Circbuf} {tr : List ((Op × Outcome) × Circbuf)},
    b.replay as = some tr → Lts.Run Step b tr := by
  induction as with
  | nil =>
    intro b tr h
    simp only [replay, Option.some.injEq] at h
    exact h ▸ .nil b
  | cons a as ih =>
    intro b tr h
    unfold replay at h
    by_cases hl : b.Legal a
    · rw [if_pos hl] at h
      cases hr : b.exec 1 a with
      | none => rw [hr] at h; simp at h
      | some r =>
        rw [hr] at h
        simp only [Option.map_eq_some_iff] at h
        obtain ⟨tr', htr, rfl⟩ := h
        exact .cons ⟨hl, 1, r, hr, rfl, rfl⟩ (ih htr)
    · rw [if_neg hl] at h; simp at h

/-! ## The list operations -/

@[simp] theorem unlinkBefore_nil : unlinkBefore [] = none := rfl

@[simp] theorem unlinkBefore_append {hd : List Item} {it : Item} :
    unlinkBefore (hd ++ [it]) = some (it, hd) := by
  simp [unlinkBefore]

/-! ## What `prepare`, `push` and `pop` can do -/

section Cases

variable {b : Circbuf} {fl hd : List Item} {it : Item}

theorem prepare_reuse (h : b.freelist = fl ++ [it]) :
    b.prepare = ⟨.ref it.item, [], { b with freelist := fl, preplist := it :: b.preplist }⟩ := by
  rw [prepare, h, unlinkBefore_append]
  rfl

theorem prepare_new (h : b.freelist = []) (hlt : b.nItems < b.max) :
    b.prepare = ⟨.ref (some b.heap), [], { b with
      size := b.size + 1
      heap := b.heap + 1
      preplist := ⟨some b.heap⟩ :: b.preplist }⟩ := by
  rw [prepare, h, unlinkBefore_nil]
  dsimp only
  rw [if_pos hlt, linkAfter]

theorem prepare_steal (h : b.freelist = []) (hfull : b.max ≤ b.nItems) (hh : b.head = hd ++ [it]) :
    b.prepare = ⟨.ref it.item, [], { b with head := hd, preplist := it :: b.preplist }⟩ := by
  rw [prepare, h, unlinkBefore_nil]
  dsimp only
  rw [if_neg (Nat.not_lt.mpr hfull), hh, unlinkBefore_append]
  dsimp only
  rw [linkAfter]

theorem prepare_nullNode (h : b.freelist = []) (hfull : b.max ≤ b.nItems) (hh : b.head = []) :
    b.prepare = ⟨.nullNode, [], b⟩ := by
  rw [prepare, h, unlinkBefore_nil]
  dsimp only
  rw [if_neg (Nat.not_lt.mpr hfull), hh, unlinkBefore_nil]

/-- `prepare` takes a free node, makes one while the buffer counts itself not full, and else takes
    the oldest active one, if there is one. -/
theorem prepare_cases (b : Circbuf) :
    (∃ fl it, b.freelist = fl ++ [it] ∧
      b.prepare = ⟨.ref it.item, [], { b with freelist := fl, preplist := it :: b.preplist }⟩) ∨
    (b.freelist = [] ∧ b.nItems < b.max ∧
      b.prepare = ⟨.ref (some b.heap), [], { b with
        size := b.size + 1
        heap := b.heap + 1
        preplist := ⟨some b.heap⟩ :: b.preplist }⟩) ∨
    (∃ hd it, b.freelist = [] ∧ b.max ≤ b.nItems ∧ b.head = hd ++ [it] ∧
      b.prepare = ⟨.ref it.item, [], { b with head := hd, preplist := it :: b.preplist }⟩) ∨
    (b.freelist = [] ∧ b.max ≤ b.nItems ∧ b.head = [] ∧ b.prepare = ⟨.nullNode, [], b⟩) := by
  rcases List.eq_nil_or_concat' b.freelist with hf | ⟨fl, it, hf⟩
  · rcases Nat.lt_or_ge b.nItems b.max with hlt | hfull
    · exact .inr (.inl ⟨hf, hlt, prepare_new hf hlt⟩)
    · rcases List.eq_nil_or_concat' b.head with hh | ⟨hd, it, hh⟩
      · exact .inr (.inr (.inr ⟨hf, hfull, hh, prepare_nullNode hf hfull hh⟩))
      · exact .inr (.inr (.inl ⟨hd, it, hf, hfull, hh, prepare_steal hf hfull hh⟩))
  · exact .inl ⟨fl, it, hf, prepare_reuse hf⟩

theorem push_recycle (hfull : b.max ≤ b.nItems) (hh : b.head = hd ++ [it]) :
    b.push = ⟨.ref it.item, [.full, .newItem], { b with nItems := b.max, head := it :: hd }⟩ := by
  rw [push, if_pos (Nat.lt_succ_of_le hfull), hh, unlinkBefore_append]
  rfl

theorem push_nullNode (hfull : b.max ≤ b.nItems) (hh : b.head = []) :
    b.push = ⟨.nullNode, [], { b with nItems := b.max }⟩ := by
  rw [push, if_pos (Nat.lt_succ_of_le hfull), hh, unlinkBefore_nil]

theorem push_reuse (hlt : b.nItems < b.max) (h : b.freelist = fl ++ [it]) :
    b.push = ⟨.ref it.item, [.newItem],
      { b with nItems := b.nItems + 1, freelist := fl, head := it :: b.head }⟩ := by
  rw [push, if_neg (Nat.not_lt.mpr hlt), h, unlinkBefore_append]
  rfl

theorem push_new (hlt : b.nItems < b.max) (h : b.freelist = []) :
    b.push = ⟨.ref (some b.heap), [.newItem], { b with
      nItems := b.nItems + 1
      size := b.size + 1
      heap := b.heap + 1
      head := ⟨some b.heap⟩ :: b.head }⟩ := by
  rw [push, if_neg (Nat.not_lt.mpr hlt), h, unlinkBefore_nil]
  dsimp only
  rw [linkAfter]

/-- `push` on a buffer that counts itself full moves the oldest active node to the front, if there
    is one, and else takes a free node or makes one. -/
theorem push_cases (b : Circbuf) :
    (∃ hd it, b.max ≤ b.nItems ∧ b.head = hd ++ [it] ∧
      b.push = ⟨.ref it.item, [.full, .newItem], { b with nItems := b.max, head := it :: hd }⟩) ∨
    (b.max ≤ b.nItems ∧ b.head = [] ∧ b.push = ⟨.nullNode, [], { b with nItems := b.max }⟩) ∨
    (∃ fl it, b.nItems < b.max ∧ b.freelist = fl ++ [it] ∧
      b.push = ⟨.ref it.item, [.newItem],
        { b with nItems := b.nItems + 1, freelist := fl, head := it :: b.head }⟩) ∨
    (b.nItems < b.max ∧ b.freelist = [] ∧
      b.push = ⟨.ref (some b.heap), [.newItem], { b with
        nItems := b.nItems + 1
        size := b.size + 1
        heap := b.heap + 1
        head := ⟨some b.heap⟩ :: b.head }⟩) := by
  rcases Nat.lt_or_ge b.nItems b.max with hlt | hfull
  · rcases List.eq_nil_or_concat' b.freelist with hf | ⟨fl, it, hf⟩
    · exact .inr (.inr (.inr ⟨hlt, hf, push_new hlt hf⟩))
    · exact .inr (.inr (.inl ⟨fl, it, hlt, hf, push_reuse hlt hf⟩))
  · rcases List.eq_nil_or_concat' b.head with hh | ⟨hd, it, hh⟩
    · exact .inr (.inl ⟨hfull, hh, push_nullNode hfull hh⟩)
    · exact .inl ⟨hd, it, hfull, hh, push_recycle hfull hh⟩

theorem pop_item (hn : b.nItems ≠ 0) (hh : b.head = hd ++ [it]) :
    b.pop = ⟨.ref it.item, (if b.nItems = 1 then [Upcall.empty] else []) ++ [.delItem],
      { b with nItems := b.nItems - 1, head := hd, freelist := it :: b.freelist }⟩ := by
  rw [pop, hh, unlinkBefore_append]
  dsimp only
  rw [if_neg hn]
  rfl

/-- `pop` takes the oldest active node; when nothing is counted or nothing is there, it ends on a
    placeholder, of a buffer whose active list may have lost a node. -/
theorem pop_cases (b : Circbuf) :
    (∃ hd it, b.nItems ≠ 0 ∧ b.head = hd ++ [it] ∧
      b.pop = ⟨.ref it.item, (if b.nItems = 1 then [Upcall.empty] else []) ++ [.delItem],
        { b with nItems := b.nItems - 1, head := hd, freelist := it :: b.freelist }⟩) ∨
    (∃ calls hd n, (b.nItems = 0 ∨ b.head = []) ∧ (∀ it ∈ hd, it ∈ b.head) ∧ n ≤ b.nItems ∧
      b.pop = placeholder { b with nItems := n, head := hd } calls) := by
  rcases List.eq_nil_or_concat' b.head with hh | ⟨hd, it, hh⟩
  · refine .inr ?_
    rw [pop, hh, unlinkBefore_nil]
    dsimp only
    by_cases hn : b.nItems = 0
    · rw [if_pos hn]
      exact ⟨[], [], b.nItems, .inl hn, by simp, Nat.le_refl _, rfl⟩
    · rw [if_neg hn]
      exact ⟨_, [], b.nItems - 1, .inr rfl, by simp, Nat.sub_le _ _, rfl⟩
  · by_cases hn : b.nItems = 0
    · refine .inr ⟨[], hd, b.nItems, .inl hn, fun x hx => ?_, Nat.le_refl _, ?_⟩
      · rw [hh]
        exact List.mem_append_left _ hx
      · rw [pop, hh, unlinkBefore_append]
        dsimp only
        rw [if_pos hn]
    · exact .inl ⟨hd, it, hn, hh, pop_item hn hh⟩

end Cases

/-! ## What the two loops can do -/

/-- Looking at a node that is not the one sought, the loop of `commit` never ends. -/
theorem commitLoop_spins {b : Circbuf} {t it : Nat} {i : Item} (hi : b.preplist[it]? = some i)
    (hne : i.item ≠ some t) : ∀ fuel, commitLoop b t it fuel = none := by
  intro fuel
  induction fuel with
  | zero => rfl
  | succ n ih => simp only [commitLoop, hi, if_neg hne, ih]

theorem rollbackLoop_spins {b : Circbuf} {t it : Nat} {i : Item} (hi : b.preplist[it]? = some i)
    (hne : i.item ≠ some t) : ∀ fuel, rollbackLoop b t it fuel = none := by
  intro fuel
  induction fuel with
  | zero => rfl
  | succ n ih => simp only [rollbackLoop, hi, if_neg hne, ih]

/-- A `commit` of a prepared item that returns found it at the front of the prepared list. -/
theorem commit_cases {b : Circbuf} {t fuel : Nat} {r : Res} (hm : ⟨some t⟩ ∈ b.preplist)
    (h : b.commit t fuel = some r) :
    ∃ rest, b.preplist = ⟨some t⟩ :: rest ∧ r.out = .unit ∧
      r.buf = { b with
        preplist := rest
        head := ⟨some t⟩ :: b.head
        nItems := min (b.nItems + 1) b.max } := by
  cases hp : b.preplist with
  | nil => rw [hp] at hm; exact absurd hm (by simp)
  | cons i rest =>
    by_cases hi : i.item = some t
    · have hit : i = ⟨some t⟩ := by cases i; simpa using hi
      subst hit
      cases fuel with
      | zero => simp [commit, commitLoop] at h
      | succ n =>
        simp only [commit, commitLoop, hp, List.getElem?_cons_zero, if_true,
          List.eraseIdx_zero, List.tail_cons, linkAfter] at h
        refine ⟨rest, rfl, ?_⟩
        split at h
        · rename_i hgt
          cases h
          exact ⟨rfl, by simp [Nat.min_eq_right (Nat.le_of_lt hgt)]⟩
        · rename_i hle
          cases h
          exact ⟨rfl, by simp [Nat.min_eq_left (Nat.le_of_not_lt hle)]⟩
    · have := commitLoop_spins (show b.preplist[0]? = some i by rw [hp]; rfl) hi fuel
      rw [commit, this] at h
      exact absurd h (by simp)

theorem rollback_cases {b : Circbuf} {t fuel : Nat} {r : Res} (hm : ⟨some t⟩ ∈ b.preplist)
    (h : b.rollback t fuel = some r) :
    ∃ rest, b.preplist = ⟨some t⟩ :: rest ∧ r.out = .unit ∧
      r.buf = { b with preplist := rest, freelist := ⟨some t⟩ :: b.freelist } := by
  cases hp : b.preplist with
  | nil => rw [hp] at hm; exact absurd hm (by simp)
  | cons i rest =>
    by_cases hi : i.item = some t
    · have hit : i = ⟨some t⟩ := by cases i; simpa using hi
      subst hit
      cases fuel with
      | zero => simp [rollback, rollbackLoop] at h
      | succ n =>
        simp only [rollback, rollbackLoop, hp, List.getElem?_cons_zero, if_true,
          List.eraseIdx_zero, List.tail_cons, linkAfter, Option.some.injEq] at h
        subst h
        exact ⟨rest, rfl, rfl, rfl⟩
    · have := rollbackLoop_spins (show b.preplist[0]? = some i by rw [hp]; rfl) hi fuel
      rw [rollback, this] at h
      exact absurd h (by simp)

/-! ## When the two loops end -/

/-- What is asked of `commit` and `rollback`: they return, and a prepared item goes where it
    belongs, all others staying as they stand. -/
structure Completes (b : Circbuf) (t : Nat) : Prop where
  commit : ∃ fuel r, b.commit t fuel = some r ∧ (⟨some t⟩ ∈ b.preplist →
    r.buf.head = ⟨some t⟩ :: b.head ∧ r.buf.preplist = b.preplist.erase ⟨some t⟩ ∧
      r.buf.freelist = b.freelist)
  rollback : ∃ fuel r, b.rollback t fuel = some r ∧ (⟨some t⟩ ∈ b.preplist →
    r.buf.freelist = ⟨some t⟩ :: b.freelist ∧ r.buf.preplist = b.preplist.erase ⟨some t⟩ ∧
      r.buf.head = b.head)

variable {b : Circbuf} {t : Nat} {rest : List Item}

/-- With nothing to look at the loops return at once. -/
theorem completes_nil (h : b.preplist = []) : b.Completes t := by
  have hnot : (⟨some t⟩ : Item) ∉ b.preplist := by
    rw [h]
    exact List.not_mem_nil
  have hget : b.preplist[0]? = none := by
    rw [h]
    rfl
  constructor
  · refine ⟨1, ⟨.unit, [], b⟩, ?_, fun hm => absurd hm hnot⟩
    rw [commit, commitLoop, hget]
  · refine ⟨1, ⟨.unit, [], b⟩, ?_, fun hm => absurd hm hnot⟩
    rw [rollback, rollbackLoop, hget]

/-- The newest item is found in the first turn. -/
theorem completes_cons (h : b.preplist = ⟨some t⟩ :: rest) : b.Completes t := by
  have hget : b.preplist[0]? = some ⟨some t⟩ := by
    rw [h]
    rfl
  have herase : b.preplist.erase ⟨some t⟩ = rest := by
    rw [h]
    exact List.erase_cons_head ..
  have hcommit : ∃ r, b.commit t 1 = some r := by
    rw [commit, commitLoop, hget]
    dsimp only
    rw [if_pos rfl]
    split
    · exact ⟨_, rfl⟩
    · exact ⟨_, rfl⟩
  constructor
  · obtain ⟨r, hr⟩ := hcommit
    refine ⟨1, r, hr, fun hm => ?_⟩
    obtain ⟨rest', hp, -, hbuf⟩ := commit_cases hm hr
    rw [hbuf, herase]
    exact ⟨rfl, (List.cons.inj (hp.symm.trans h)).2, rfl⟩
  · refine ⟨1, ⟨.unit, [], { b with
      preplist := b.preplist.eraseIdx 0
      freelist := linkAfter b.freelist ⟨some t⟩ }⟩, ?_, fun _ => ?_⟩
    · rw [rollback, rollbackLoop, hget]
      exact if_pos rfl
    · dsimp only
      rw [herase, h]
      exact ⟨rfl, rfl, rfl⟩

/-- **Which calls return.** `commit` and `rollback` do what they are asked for if and only if
    nothing is under preparation, or the item is the one that was prepared last. -/
theorem completes_iff (b : Circbuf) (t : Nat) :
    b.Completes t ↔ b.preplist = [] ∨ b.preplist.head? = some ⟨some t⟩ := by
  constructor
  · rintro ⟨⟨fuel, r, hr, -⟩, -⟩
    cases hp : b.preplist with
    | nil => exact .inl rfl
    | cons i rest =>
      refine .inr ?_
      by_contra hne
      -- The loop stands on another item for ever.
      have hi : i.item ≠ some t := by
        intro hi
        rw [← hi] at hne
        exact hne rfl
      have hspins := commitLoop_spins (show b.preplist[0]? = some i by rw [hp]; rfl) hi fuel
      rw [commit, hspins] at hr
      cases hr
  · rintro (hnil | hhead)
    · exact completes_nil hnil
    · obtain ⟨rest, hrest⟩ := List.head?_eq_some_iff.mp hhead
      exact completes_cons hrest

/-- Of two prepared items the older one. -/
theorem completes_fails : ¬ (init 2 true).prepare.buf.prepare.buf.Completes 0 := by
  rintro ⟨⟨fuel, r, hr, -⟩, -⟩
  have hspins := @commitLoop_spins (init 2 true).prepare.buf.prepare.buf 0 0 ⟨some 1⟩ rfl
    (by decide) fuel
  rw [commit, hspins] at hr
  cases hr

end Circbuf

end CodeSLoop
