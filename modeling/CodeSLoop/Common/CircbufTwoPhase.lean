import CodeSLoop.Common.Circbuf
import CodeSLoop.Lib.Fifo
import CodeSLoop.Lib.Ring
import Mathlib.Data.List.Nodup
import Mathlib.Logic.Function.Basic

/-!
# What is in a `circbuf`

A user writes to the items it gets from `push` and `prepare`, and names the ones under preparation.
As long as it does not prepare an item that the full buffer would have to give up an active one for,
does not commit to a full buffer, finishes with the last prepared item first and does not pop from
an empty buffer, the buffer is a queue with a push in two phases (`Inv.step`): what is prepared and
rolled back leaves no trace, and items leave the oldest first (`two_phase_push`).
-/

namespace CodeSLoop

namespace Circbuf

open Ring (Event)
open Lts

variable {K V : Type}

/-- The buffer, what is in the objects, and the items under preparation, by the names they have. -/
structure Client (K V : Type) where
  buf : Circbuf
  mem : Nat → V
  held : List (K × Nat)

namespace Client

def start (maxSize : Nat) (useExc : Bool) (v₀ : V) : Client K V :=
  ⟨.init maxSize useExc, fun _ => v₀, []⟩

/-- What is in the active items, newest first. -/
def contents (c : Client K V) : List V := c.buf.head.filterMap fun it => it.item.map c.mem

section Calls

variable [DecidableEq K]

/-- A call, with what the user writes to its item; `pop` gives what is in its one. There is no
    result when the call does not come back, or with no object. -/
def exec (fuel : Nat) (c : Client K V) : Event K V → Option (Client K V × Option V)
  | .prepare k =>
    match c.buf.prepare.out with
    | .ref (some t) => some (⟨c.buf.prepare.buf, c.mem, (k, t) :: c.held⟩, none)
    | _ => none
  | .commit k v =>
    match c.held.lookup k with
    | some t => (c.buf.commit t fuel).map fun r =>
      (⟨r.buf, Function.update c.mem t v, c.held.filter fun p => p.1 ≠ k⟩, none)
    | none => none
  | .rollback k =>
    match c.held.lookup k with
    | some t => (c.buf.rollback t fuel).map fun r =>
      (⟨r.buf, c.mem, c.held.filter fun p => p.1 ≠ k⟩, none)
    | none => none
  | .push v =>
    match c.buf.push.out with
    | .ref (some t) => some (⟨c.buf.push.buf, Function.update c.mem t v, c.held⟩, none)
    | _ => none
  | .pop =>
    match c.buf.pop.out with
    | .ref (some t) => some (⟨c.buf.pop.buf, c.mem, c.held⟩, some (c.mem t))
    | _ => none

/-- A call that comes back. -/
def Step (c : Client K V) (a : Event K V × Option V) (c' : Client K V) : Prop :=
  ∃ fuel, c.exec fuel a.1 = some (c', a.2)

/-- The states in which a call does what it should: `prepare` when there is a free item or the
    buffer is not full, `commit` when it is not full, `pop` when it is not empty, and `commit` and
    `rollback` for the first item of the list. -/
def Ok (c : Client K V) : Event K V → Prop
  | .prepare k => k ∉ c.held.map (·.1) ∧ (c.buf.freelist ≠ [] ∨ c.buf.nItems < c.buf.max)
  | .commit k _ => (∃ t, (k, t) ∈ c.held ∧ c.buf.preplist.head? = some ⟨some t⟩) ∧
      c.buf.nItems < c.buf.max
  | .rollback k => ∃ t, (k, t) ∈ c.held ∧ c.buf.preplist.head? = some ⟨some t⟩
  | .push _ => True
  | .pop => c.buf.nItems ≠ 0

/-- Every call is made in such a state. -/
def OkAll : Client K V → List (Event K V) → Prop
  | _, [] => True
  | c, e :: es => c.Ok e ∧ ∀ out c', c.Step (e, out) c' → c'.OkAll es

end Calls

/-- What a call does to the contents. An item leaves when it is popped, or as the oldest one when
    another one enters the full buffer. -/
def Moves (maxSize : Nat) (c : Client K V) (a : Event K V × Option V) (c' : Client K V) : Prop :=
  match a.1 with
  | .prepare _ | .rollback _ => a.2 = none ∧ c'.contents = c.contents
  | .commit _ v | .push v => a.2 = none ∧
      (c.contents.length < maxSize ∧ c'.contents = v :: c.contents ∨
        c.contents.length = maxSize ∧ ∃ vs x, c.contents = vs ++ [x] ∧ c'.contents = v :: vs)
  | .pop => ∃ x, a.2 = some x ∧ c.contents = c'.contents ++ [x]

end Client

/-! ## One call -/

def node (t : Nat) : Item := ⟨some t⟩

/-- Objects that are all different and all there. -/
structure Apart (heap : Nat) (l : List Nat) : Prop where
  nodup : l.Nodup
  lt : ∀ t ∈ l, t < heap

theorem Apart.perm {heap : Nat} {l l' : List Nat} (h : Apart heap l) (hp : l'.Perm l) :
    Apart heap l' :=
  ⟨hp.nodup_iff.mpr h.nodup, fun t ht => h.lt t (hp.mem_iff.mp ht)⟩

/-- A new object. -/
theorem Apart.new {heap : Nat} {l l' : List Nat} (h : Apart heap l) (hp : l'.Perm (heap :: l)) :
    Apart (heap + 1) l' := by
  refine ⟨hp.nodup_iff.mpr (List.nodup_cons.mpr ⟨fun hm => Nat.lt_irrefl _ (h.lt _ hm), h.nodup⟩),
    fun t ht => ?_⟩
  rcases List.mem_cons.mp (hp.mem_iff.mp ht) with rfl | ht
  · exact Nat.lt_succ_self _
  · exact Nat.lt_succ_of_lt (h.lt t ht)

/-- The objects of the active and the free items are `hs` and `fs`; no object belongs to two items,
    and the count is right. -/
structure Inv (maxSize : Nat) (c : Client K V) (hs fs : List Nat) : Prop where
  head : c.buf.head = hs.map node
  free : c.buf.freelist = fs.map node
  prep : c.buf.preplist = c.held.map fun p => node p.2
  apart : Apart c.buf.heap (hs ++ fs ++ c.held.map (·.2))
  names : (c.held.map (·.1)).Nodup
  nItems : c.buf.nItems = hs.length
  le : hs.length ≤ maxSize
  max : c.buf.max = maxSize

variable {maxSize : Nat} {c c' : Client K V} {hs fs : List Nat} {k : K} {v : V}

theorem max_pos (maxSize : Nat) (useExc : Bool) : 0 < (init maxSize useExc).max := by
  rw [init]
  dsimp only
  split
  · simp
  · omega

theorem inv_start (maxSize : Nat) (useExc : Bool) (v₀ : V) :
    Inv (init maxSize useExc).max (Client.start maxSize useExc v₀ : Client K V) [] [] :=
  ⟨rfl, rfl, rfl, ⟨List.nodup_nil, by simp [Client.start]⟩, List.nodup_nil, rfl, Nat.zero_le _,
    rfl⟩

theorem Inv.contents (h : Inv maxSize c hs fs) : c.contents = hs.map c.mem := by
  rw [Client.contents, h.head, List.filterMap_map]
  exact congrFun List.filterMap_eq_map hs

/-- The newest item has been written to, which no other one is changed by. -/
theorem Inv.contents_cons {b : Circbuf} {mem : Nat → V} {held : List (K × Nat)} {t : Nat}
    (h : Inv maxSize ⟨b, Function.update mem t v, held⟩ (t :: hs) fs) :
    (⟨b, Function.update mem t v, held⟩ : Client K V).contents = v :: hs.map mem := by
  have hnd := h.apart.nodup
  rw [List.append_assoc, List.cons_append, List.nodup_cons] at hnd
  have ht : t ∉ hs := fun hm => hnd.1 (List.mem_append_left _ hm)
  rw [h.contents, List.map_cons]
  dsimp only
  rw [Function.update_self]
  exact congrArg (v :: ·) (List.map_congr_left fun s hs' =>
    Function.update_of_ne (show s ≠ t from fun he => ht (he ▸ hs')) v mem)

theorem Inv.prepare (h : Inv maxSize c hs fs) (hk : k ∉ c.held.map (·.1))
    (hok : c.buf.freelist ≠ [] ∨ c.buf.nItems < c.buf.max) :
    ∃ t fs', c.buf.prepare.out = .ref (some t) ∧ fs'.length = fs.length - 1 ∧
      Inv maxSize ⟨c.buf.prepare.buf, c.mem, (k, t) :: c.held⟩ hs fs' := by
  have hprep : ∀ t, node t :: c.buf.preplist = ((k, t) :: c.held).map fun p => node p.2 := fun t => by
    rw [h.prep, List.map_cons]
  have hnames := List.nodup_cons.mpr ⟨hk, h.names⟩
  rcases List.eq_nil_or_concat' fs with rfl | ⟨fs', t, rfl⟩
  · have hnil : c.buf.freelist = [] := h.free
    have hlt : c.buf.nItems < c.buf.max := hok.resolve_left (not_not.mpr hnil)
    refine ⟨c.buf.heap, [], by rw [prepare_new hnil hlt], rfl, ?_⟩
    rw [prepare_new hnil hlt]
    refine ⟨h.head, hnil, hprep _, h.apart.new ?_, hnames, h.nItems, h.le, h.max⟩
    rw [List.map_cons]
    exact List.perm_middle
  · have hfree : c.buf.freelist = fs'.map node ++ [node t] := by
      rw [h.free, List.map_append]
      rfl
    refine ⟨t, fs', by rw [prepare_reuse hfree, node], by simp, ?_⟩
    rw [prepare_reuse hfree]
    refine ⟨h.head, rfl, hprep _, h.apart.perm ?_, hnames, h.nItems, h.le, h.max⟩
    simp

/-- What is at the front of the list is the item prepared last. -/
theorem Inv.front (h : Inv maxSize c hs fs) {t : Nat} (hk : (k, t) ∈ c.held)
    (ht : c.buf.preplist.head? = some ⟨some t⟩) : ∃ rest, c.held = (k, t) :: rest := by
  have hnd := h.apart.nodup.of_append_right
  rw [h.prep] at ht
  cases hh : c.held with
  | nil =>
    rw [hh] at hk
    cases hk
  | cons p rest =>
    rw [hh] at hk ht hnd
    rw [List.map_cons, List.head?_cons, Option.some.injEq] at ht
    have hp : p.2 = t := by
      injection ht with ht
      injection ht
    rcases List.mem_cons.mp hk with rfl | hk
    · exact ⟨rest, rfl⟩
    · rw [List.map_cons, List.nodup_cons] at hnd
      exact absurd (List.mem_map.mpr ⟨(k, t), hk, hp.symm⟩) hnd.1

/-- A call for the first item of the list comes back at once. -/
theorem commit_front {b : Circbuf} {t : Nat} {rest : List Item} (hp : b.preplist = node t :: rest)
    (hlt : b.nItems < b.max) : ∃ r, b.commit t 1 = some r ∧ r.buf = { b with
      preplist := rest, head := node t :: b.head, nItems := b.nItems + 1 } := by
  refine ⟨⟨.unit, [.newItem], _⟩, ?_, rfl⟩
  rw [commit, commitLoop, hp]
  dsimp only [List.getElem?_cons_zero, node]
  rw [if_pos rfl, if_neg (by omega)]
  rfl

theorem rollback_front {b : Circbuf} {t : Nat} {rest : List Item}
    (hp : b.preplist = node t :: rest) : ∃ r, b.rollback t 1 = some r ∧ r.buf = { b with
      preplist := rest, freelist := node t :: b.freelist } := by
  refine ⟨⟨.unit, [], _⟩, ?_, rfl⟩
  rw [rollback, rollbackLoop, hp]
  dsimp only [List.getElem?_cons_zero, node]
  rw [if_pos rfl]
  rfl

theorem Inv.commit (h : Inv maxSize c hs fs) {t : Nat} {rest : List (K × Nat)}
    (hk : c.held = (k, t) :: rest) (hlt : c.buf.nItems < c.buf.max) (v : V) :
    ∃ r, c.buf.commit t 1 = some r ∧
      Inv maxSize ⟨r.buf, Function.update c.mem t v, rest⟩ (t :: hs) fs := by
  have hprep := h.prep
  have hnames := h.names
  have hapart := h.apart
  rw [hk] at hprep hnames hapart
  obtain ⟨r, hr, hb⟩ := commit_front hprep hlt
  refine ⟨r, hr, ?_⟩
  rw [hb]
  have hn := h.nItems
  have hmax := h.max
  refine ⟨?_, h.free, rfl, hapart.perm ?_, hnames.of_cons, ?_, ?_, h.max⟩
  · rw [h.head]
    rfl
  · rw [List.cons_append, List.cons_append]
    exact List.perm_middle.symm
  · rw [List.length_cons, ← hn]
  · rw [List.length_cons]
    omega

theorem Inv.rollback (h : Inv maxSize c hs fs) {t : Nat} {rest : List (K × Nat)}
    (hk : c.held = (k, t) :: rest) :
    ∃ r, c.buf.rollback t 1 = some r ∧ Inv maxSize ⟨r.buf, c.mem, rest⟩ hs (t :: fs) := by
  have hprep := h.prep
  have hnames := h.names
  have hapart := h.apart
  rw [hk] at hprep hnames hapart
  obtain ⟨r, hr, hb⟩ := rollback_front hprep
  refine ⟨r, hr, ?_⟩
  rw [hb]
  refine ⟨h.head, ?_, rfl, hapart.perm ?_, hnames.of_cons, h.nItems, h.le, h.max⟩
  · rw [h.free]
    rfl
  · rw [List.append_assoc, List.append_assoc, List.cons_append]
    exact (List.perm_middle.symm).append_left hs

theorem Inv.pop (h : Inv maxSize c hs fs) (hne : c.buf.nItems ≠ 0) :
    ∃ hs' t, hs = hs' ++ [t] ∧ c.buf.pop.out = .ref (some t) ∧
      Inv maxSize ⟨c.buf.pop.buf, c.mem, c.held⟩ hs' (t :: fs) := by
  have hn := h.nItems
  have hle := h.le
  rcases List.eq_nil_or_concat' hs with rfl | ⟨hs', t, rfl⟩
  · exact absurd hn hne
  · rw [List.length_append, List.length_singleton] at hn hle
    have hhead : c.buf.head = hs'.map node ++ [node t] := by
      rw [h.head, List.map_append]
      rfl
    refine ⟨hs', t, rfl, by rw [pop_item hne hhead, node], ?_⟩
    rw [pop_item hne hhead]
    refine ⟨rfl, ?_, h.prep, h.apart.perm ?_, h.names, ?_, ?_, h.max⟩
    · rw [h.free]
      rfl
    · simp
    · simp only [hn, Nat.add_sub_cancel]
    · omega

theorem Inv.push (h : Inv maxSize c hs fs) (hpos : 0 < maxSize) (v : V) :
    ∃ t hs' fs', c.buf.push.out = .ref (some t) ∧
      Inv maxSize ⟨c.buf.push.buf, Function.update c.mem t v, c.held⟩ (t :: hs') fs' ∧
      (hs.length < maxSize ∧ hs' = hs ∧ fs'.length = fs.length - 1 ∨
        hs.length = maxSize ∧ hs = hs' ++ [t] ∧ fs' = fs) := by
  have hn := h.nItems
  have hle := h.le
  have hmax := h.max
  -- a free node, or a new one; in the full buffer the oldest node is used again
  rcases Nat.lt_or_ge c.buf.nItems c.buf.max with hlt | hfull
  · rcases List.eq_nil_or_concat' fs with rfl | ⟨fs', t, rfl⟩
    · have hnil : c.buf.freelist = [] := h.free
      have hapart : Apart (c.buf.heap + 1) (c.buf.heap :: hs ++ [] ++ c.held.map (·.2)) :=
        h.apart.new (List.Perm.refl _)
      refine ⟨c.buf.heap, hs, [], by rw [push_new hlt hnil], ?_, .inl ⟨by omega, rfl, rfl⟩⟩
      rw [push_new hlt hnil]
      refine ⟨?_, h.free, h.prep, hapart, h.names, ?_, ?_, h.max⟩
      · exact congrArg (node c.buf.heap :: ·) h.head
      · rw [List.length_cons, ← hn]
      · rw [List.length_cons]
        omega
    · have hfree : c.buf.freelist = fs'.map node ++ [node t] := by
        rw [h.free, List.map_append]
        rfl
      have hapart : Apart c.buf.heap (t :: hs ++ fs' ++ c.held.map (·.2)) := by
        refine h.apart.perm ?_
        rw [List.append_assoc, List.append_assoc, List.append_assoc, List.singleton_append,
          List.cons_append, ← List.append_assoc hs, ← List.append_assoc hs]
        exact List.perm_middle.symm
      refine ⟨t, hs, fs', by rw [push_reuse hlt hfree, node], ?_, .inl ⟨by omega, rfl, by simp⟩⟩
      rw [push_reuse hlt hfree]
      refine ⟨?_, rfl, h.prep, hapart, h.names, ?_, ?_, h.max⟩
      · exact congrArg (node t :: ·) h.head
      · rw [List.length_cons, ← hn]
      · rw [List.length_cons]
        omega
  · rcases List.eq_nil_or_concat' hs with rfl | ⟨hs', t, rfl⟩
    · rw [List.length_nil] at hn
      omega
    · have hhead : c.buf.head = hs'.map node ++ [node t] := by
        rw [h.head, List.map_append]
        rfl
      have hapart : Apart c.buf.heap (t :: hs' ++ fs ++ c.held.map (·.2)) := by
        refine h.apart.perm ?_
        rw [List.append_assoc, List.append_assoc, List.append_assoc, List.singleton_append,
          List.cons_append]
        exact List.perm_middle.symm
      rw [List.length_append, List.length_singleton] at hn hle
      refine ⟨t, hs', fs, by rw [push_recycle hfull hhead, node], ?_, .inr ⟨?_, rfl, rfl⟩⟩
      · rw [push_recycle hfull hhead]
        refine ⟨rfl, h.free, h.prep, hapart, h.names, ?_, ?_, h.max⟩
        · rw [List.length_cons]
          dsimp only
          omega
        · rw [List.length_cons]
          omega
      · rw [List.length_append, List.length_singleton]
        omega

/-! ## The queue -/

/-- What the queue knows of the state. -/
def Client.queue (c : Client K V) : Ring.State K V :=
  ⟨c.contents, c.buf.freelist.length, c.held.map (·.1)⟩

theorem Inv.queue_eq (h : Inv maxSize c hs fs) :
    c.queue = ⟨hs.map c.mem, fs.length, c.held.map (·.1)⟩ := by
  rw [Client.queue, h.contents, h.free, List.length_map]

/-- The states in which a call does what it should, in the words of the queue. -/
theorem Inv.ok_iff (h : Inv maxSize c hs fs) {e : Event K V} :
    c.Ok e ↔ c.queue.Ok maxSize e := by
  have hn := h.nItems
  have hmax := h.max
  have hfront : ∀ k, (∃ t, (k, t) ∈ c.held ∧ c.buf.preplist.head? = some ⟨some t⟩) ↔
      (c.held.map (·.1)).head? = some k := by
    intro k
    constructor
    · rintro ⟨t, hk, ht⟩
      obtain ⟨rest, hh⟩ := h.front hk ht
      rw [hh]
      rfl
    · intro hh
      cases hc : c.held with
      | nil =>
        rw [hc] at hh
        cases hh
      | cons p rest =>
        rw [hc] at hh
        cases hh
        refine ⟨p.2, List.mem_cons_self .., ?_⟩
        rw [h.prep, hc]
        rfl
  rw [h.queue_eq]
  cases e with
  | prepare k =>
    simp only [Client.Ok, Ring.State.Ok, hn, hmax, h.free, List.length_map]
    simp [List.length_pos_iff]
  | commit k v => simp only [Client.Ok, Ring.State.Ok, hfront, hn, hmax, List.length_map]
  | rollback k => exact hfront k
  | push v => exact Iff.rfl
  | pop => simp [Client.Ok, Ring.State.Ok, hn]

/-- What enters joins the newest end, and what leaves is the oldest, popped or not. -/
theorem moves_left {a : Event K V × Option V} (h : c.Moves maxSize a c') :
    ∃ left : List (V × Bool),
      c.contents.reverse ++ a.1.enters = left.map (·.1) ++ c'.contents.reverse ∧
        a.2.toList = (left.filter (·.2)).map (·.1) := by
  obtain ⟨e, out⟩ := a
  cases e with
  | prepare | rollback =>
    obtain ⟨rfl, hc⟩ := h
    refine ⟨[], ?_, rfl⟩
    rw [hc]
    exact List.append_nil _
  | commit | push =>
    obtain ⟨rfl, ⟨-, hc⟩ | ⟨-, vs, x, hx, hc⟩⟩ := h
    · refine ⟨[], ?_, rfl⟩
      rw [hc, List.reverse_cons]
      rfl
    · refine ⟨[(x, false)], ?_, rfl⟩
      rw [hc, hx, List.reverse_cons, List.reverse_append]
      simp [Event.enters]
  | pop =>
    obtain ⟨x, rfl, hx⟩ := h
    refine ⟨[(x, true)], ?_, rfl⟩
    rw [hx, List.reverse_append]
    simp [Event.enters]

theorem always_left {tr : List ((Event K V × Option V) × Client K V)}
    (h : Always (Client.Moves maxSize) c tr) :
    ∃ left : List (V × Bool), c.contents.reverse ++ total (fun a => a.1.enters) tr =
        left.map (·.1) ++ (last c tr).contents.reverse ∧
      total (fun a => a.2.toList) tr = (left.filter (·.2)).map (·.1) := by
  induction tr generalizing c with
  | nil => exact ⟨[], by simp [last], rfl⟩
  | cons a tr ih =>
    obtain ⟨hstep, hrest⟩ := h
    obtain ⟨l₁, he₁, hd₁⟩ := moves_left hstep
    obtain ⟨l₂, he₂, hd₂⟩ := ih hrest
    refine ⟨l₁ ++ l₂, ?_, ?_⟩
    · have htotal : total (fun a => a.1.enters) (a :: tr) =
          a.1.1.enters ++ total (fun a => a.1.enters) tr := total_cons
      rw [htotal, ← List.append_assoc, he₁, List.append_assoc, he₂, List.map_append,
        List.append_assoc]
      rfl
    · have htotal : total (fun a => a.2.toList) (a :: tr) =
          a.1.2.toList ++ total (fun a => a.2.toList) tr := total_cons
      rw [htotal, hd₁, hd₂, List.filter_append, List.map_append]

variable [DecidableEq K]

/-- The names of the others stay. -/
theorem filter_held {t : Nat} {rest : List (K × Nat)} (h : (((k, t) :: rest).map (·.1)).Nodup) :
    (((k, t) :: rest).filter fun p => p.1 ≠ k) = rest := by
  rw [List.map_cons, List.nodup_cons] at h
  rw [List.filter_cons_of_neg (by simp), List.filter_eq_self]
  intro p hp
  have hne : p.1 ≠ k := fun he => h.1 (List.mem_map.mpr ⟨p, hp, he⟩)
  simpa using hne

/-- Who holds the item at the front finds it by its name, and the others are left. -/
theorem Inv.held_front (h : Inv maxSize c hs fs) {t : Nat} (hk : (k, t) ∈ c.held)
    (ht : c.buf.preplist.head? = some ⟨some t⟩) :
    ∃ rest, c.held = (k, t) :: rest ∧ c.held.lookup k = some t ∧
      (c.held.filter fun p => p.1 ≠ k) = rest := by
  obtain ⟨rest, hh⟩ := h.front hk ht
  have hnames := h.names
  rw [hh] at hnames ⊢
  exact ⟨rest, rfl, List.lookup_cons_self, filter_held hnames⟩

/-- **One call.** In a state where it does what it should it comes back, and is a step of the
    queue. -/
theorem Inv.step (h : Inv maxSize c hs fs) (hpos : 0 < maxSize) {e : Event K V} (hok : c.Ok e) :
    ∃ out c' hs' fs', c.Step (e, out) c' ∧ Inv maxSize c' hs' fs' ∧
      c.Moves maxSize (e, out) c' ∧ c'.queue = c.queue.step maxSize e := by
  have hc := h.contents
  have hq := h.queue_eq
  have hn := h.nItems
  have hmax := h.max
  -- of each call: that it comes back, what it does to the lists, what the queue makes of it
  cases e with
  | prepare k =>
    obtain ⟨t, fs', hout, hlen, hinv⟩ := h.prepare hok.1 hok.2
    refine ⟨none, _, hs, fs', ⟨0, by rw [Client.exec, hout]⟩, hinv, ⟨rfl, ?_⟩, ?_⟩
    · rw [hinv.contents, hc]
    · rw [hinv.queue_eq, hq, hlen]
      rfl
  | commit k v =>
    obtain ⟨⟨t, hk, ht⟩, hlt⟩ := hok
    obtain ⟨rest, hh, hlookup, hfilter⟩ := h.held_front hk ht
    obtain ⟨r, hr, hinv⟩ := h.commit hh hlt v
    refine ⟨none, _, t :: hs, fs, ⟨1, ?_⟩, hinv, ⟨rfl, .inl ⟨?_, ?_⟩⟩, ?_⟩
    · rw [Client.exec, hlookup]
      dsimp only
      rw [hr, hfilter]
      rfl
    · rw [hc, List.length_map]
      omega
    · rw [hinv.contents_cons, hc]
    · rw [hq, hh, Ring.State.step, Ring.enter, List.length_map, if_pos (by omega), Client.queue,
        hinv.contents_cons, hinv.free, List.length_map]
      rfl
  | rollback k =>
    obtain ⟨t, hk, ht⟩ := hok
    obtain ⟨rest, hh, hlookup, hfilter⟩ := h.held_front hk ht
    obtain ⟨r, hr, hinv⟩ := h.rollback hh
    refine ⟨none, _, hs, t :: fs, ⟨1, ?_⟩, hinv, ⟨rfl, ?_⟩, ?_⟩
    · rw [Client.exec, hlookup]
      dsimp only
      rw [hr, hfilter]
      rfl
    · rw [hinv.contents, hc]
    · rw [hinv.queue_eq, hq, hh]
      rfl
  | push v =>
    obtain ⟨t, hs', fs', hout, hinv, hcase⟩ := h.push hpos v
    refine ⟨none, _, t :: hs', fs', ⟨0, by rw [Client.exec, hout]⟩, hinv, ⟨rfl, ?_⟩, ?_⟩
    · rw [hinv.contents_cons, hc, List.length_map]
      rcases hcase with ⟨hlt, rfl, -⟩ | ⟨heq, rfl, -⟩
      · exact .inl ⟨hlt, rfl⟩
      · exact .inr ⟨heq, hs'.map c.mem, c.mem t, List.map_append, rfl⟩
    · rw [hq, Ring.State.step, Ring.enter, List.length_map, Client.queue, hinv.contents_cons,
        hinv.free, List.length_map]
      rcases hcase with ⟨hlt, rfl, hlen⟩ | ⟨heq, rfl, rfl⟩
      · rw [if_pos hlt, if_pos hlt, hlen]
      · rw [if_neg (by omega), if_neg (by omega), List.map_append]
        simp
  | pop =>
    obtain ⟨hs', t, rfl, hout, hinv⟩ := h.pop hok
    refine ⟨some (c.mem t), _, hs', t :: fs, ⟨0, by rw [Client.exec, hout]⟩, hinv,
      ⟨c.mem t, rfl, ?_⟩, ?_⟩
    · rw [hinv.contents, hc, List.map_append]
      rfl
    · rw [hinv.queue_eq, hq, Ring.State.step, List.map_append]
      simp

/-! ## Runs -/

/-- However long one waits for it, a call that comes back does the same. -/
theorem commit_unique {b : Circbuf} {t fuel fuel' : Nat} {r r' : Res}
    (h : b.commit t fuel = some r) (h' : b.commit t fuel' = some r') : r' = r := by
  cases fuel with
  | zero => cases h
  | succ fuel =>
    cases fuel' with
    | zero => cases h'
    | succ fuel' =>
      cases hp : b.preplist with
      | nil =>
        simp only [commit, commitLoop, hp, List.getElem?_nil] at h h'
        rw [h] at h'
        exact (Option.some.inj h').symm
      | cons i rest =>
        by_cases hi : i.item = some t
        · simp only [commit, commitLoop, hp, List.getElem?_cons_zero, if_pos hi] at h h'
          rw [h] at h'
          exact (Option.some.inj h').symm
        · have hspin := commitLoop_spins (show b.preplist[0]? = some i by rw [hp]; rfl) hi
          rw [commit, hspin] at h
          cases h

theorem rollback_unique {b : Circbuf} {t fuel fuel' : Nat} {r r' : Res}
    (h : b.rollback t fuel = some r) (h' : b.rollback t fuel' = some r') : r' = r := by
  cases fuel with
  | zero => cases h
  | succ fuel =>
    cases fuel' with
    | zero => cases h'
    | succ fuel' =>
      cases hp : b.preplist with
      | nil =>
        simp only [rollback, rollbackLoop, hp, List.getElem?_nil] at h h'
        rw [h] at h'
        exact (Option.some.inj h').symm
      | cons i rest =>
        by_cases hi : i.item = some t
        · simp only [rollback, rollbackLoop, hp, List.getElem?_cons_zero, if_pos hi] at h h'
          rw [h] at h'
          exact (Option.some.inj h').symm
        · have hspin := rollbackLoop_spins (show b.preplist[0]? = some i by rw [hp]; rfl) hi
          rw [rollback, hspin] at h
          cases h

theorem step_unique {e : Event K V} {out out' : Option V} {c₁ c₂ : Client K V}
    (h : c.Step (e, out) c₁) (h' : c.Step (e, out') c₂) : out' = out ∧ c₂ = c₁ := by
  obtain ⟨fuel, h⟩ := h
  obtain ⟨fuel', h'⟩ := h'
  cases e with
  | prepare | push | pop =>
    rw [Client.exec] at h h'
    rw [h] at h'
    cases h'
    exact ⟨rfl, rfl⟩
  | commit k v =>
    rw [Client.exec] at h h'
    cases hk : c.held.lookup k with
    | none =>
      rw [hk] at h
      cases h
    | some t =>
      rw [hk] at h h'
      obtain ⟨r, hr, he⟩ := Option.map_eq_some_iff.mp h
      obtain ⟨r', hr', he'⟩ := Option.map_eq_some_iff.mp h'
      cases commit_unique hr hr'
      rw [he] at he'
      cases he'
      exact ⟨rfl, rfl⟩
  | rollback k =>
    rw [Client.exec] at h h'
    cases hk : c.held.lookup k with
    | none =>
      rw [hk] at h
      cases h
    | some t =>
      rw [hk] at h h'
      obtain ⟨r, hr, he⟩ := Option.map_eq_some_iff.mp h
      obtain ⟨r', hr', he'⟩ := Option.map_eq_some_iff.mp h'
      cases rollback_unique hr hr'
      rw [he] at he'
      cases he'
      exact ⟨rfl, rfl⟩

/-- The calls of a run are made in the right states if they are for the queue. -/
theorem Inv.okAll_iff (h : Inv maxSize c hs fs) (hpos : 0 < maxSize) {es : List (Event K V)} :
    c.OkAll es ↔ c.queue.OkAll maxSize es := by
  induction es generalizing c hs fs with
  | nil => exact Iff.rfl
  | cons e es ih =>
    rw [Client.OkAll, Ring.State.OkAll, ← h.ok_iff]
    refine and_congr_right fun hok => ?_
    obtain ⟨out, c', hs', fs', hstep, hinv, -, hq⟩ := h.step hpos hok
    rw [← hq, ← ih hinv]
    constructor
    · exact fun hall => hall out c' hstep
    · intro hrest out' c'' hstep'
      obtain ⟨-, rfl⟩ := step_unique hstep hstep'
      exact hrest

/-- Then all of them come back. -/
theorem Inv.run (h : Inv maxSize c hs fs) (hpos : 0 < maxSize) {es : List (Event K V)}
    (hok : c.queue.OkAll maxSize es) :
    ∃ tr, Run Client.Step c tr ∧ tr.map (·.1.1) = es ∧ Always (Client.Moves maxSize) c tr ∧
      (last c tr).queue = c.queue.run maxSize es := by
  induction es generalizing c hs fs with
  | nil => exact ⟨[], .nil c, rfl, trivial, rfl⟩
  | cons e es ih =>
    obtain ⟨out, c', hs', fs', hstep, hinv, hmoves, hq⟩ := h.step hpos (h.ok_iff.mpr hok.1)
    obtain ⟨tr, hrun, hes, hall, hlast⟩ := ih hinv (hq ▸ hok.2)
    refine ⟨((e, out), c') :: tr, .cons hstep hrun, ?_, ⟨hmoves, hall⟩, ?_⟩
    · rw [List.map_cons, hes]
    · rw [Ring.run_cons, ← hq]
      exact hlast

/-- **The push in two phases.** When every call of a user is made in a state where it does what it
    should, all of them come back. Items leave the oldest first, each once: popped, or dropped when
    another one enters the full buffer. And what is prepared and rolled back leaves the active items
    as they are without it, whatever is done to others in between. -/
theorem two_phase_push (maxSize : Nat) (useExc : Bool) (v₀ : V) {es : List (Event K V)}
    (hok : (Client.start maxSize useExc v₀).OkAll es) :
    ∃ tr, Run Client.Step (Client.start maxSize useExc v₀) tr ∧ tr.map (·.1.1) = es ∧
      Always (Client.Moves (init maxSize useExc).max) (Client.start maxSize useExc v₀) tr ∧
      (∃ left : List (V × Bool), total (fun a => a.1.enters) tr =
          left.map (·.1) ++ (last (Client.start maxSize useExc v₀) tr).contents.reverse ∧
        total (fun a => a.2.toList) tr = (left.filter (·.2)).map (·.1)) ∧
      ∀ es₁ k es₂, es = es₁ ++ .prepare k :: (es₂ ++ [.rollback k]) →
        (∀ e ∈ es₂, e.key ≠ some k) →
        ∃ tr', Run Client.Step (Client.start maxSize useExc v₀) tr' ∧
          tr'.map (·.1.1) = es₁ ++ es₂ ∧
          (last (Client.start maxSize useExc v₀) tr').contents =
            (last (Client.start maxSize useExc v₀) tr).contents := by
  have hinv := @inv_start K V maxSize useExc v₀
  have hpos := max_pos maxSize useExc
  rw [hinv.okAll_iff hpos] at hok
  obtain ⟨tr, hrun, hes, hall, hlast⟩ := hinv.run hpos hok
  refine ⟨tr, hrun, hes, hall, always_left hall, ?_⟩
  rintro es₁ k es₂ rfl hk
  rw [Ring.okAll_append] at hok
  obtain ⟨hok₂, hactive⟩ := Ring.restores hk hok.2
  obtain ⟨tr', hrun', hes', -, hlast'⟩ := hinv.run hpos (Ring.okAll_append.mpr ⟨hok.1, hok₂⟩)
  refine ⟨tr', hrun', hes', ?_⟩
  have h₁ := congrArg Ring.State.active hlast
  have h₂ := congrArg Ring.State.active hlast'
  rw [Ring.run_append] at h₁ h₂
  rw [hactive] at h₁
  exact h₂.trans h₁.symm

/-- One item is pushed and one popped while another one is prepared and given up. -/
theorem two_phase_push_turn :
    ∃ tr tr' : List ((Event Nat Nat × Option Nat) × Client Nat Nat),
      tr.map (·.1.1) = [.push 5, .prepare 0, .push 6, .pop, .rollback 0] ∧
      tr'.map (·.1.1) = [.push 5, .push 6, .pop] ∧
      (last (.start 2 true 0) tr').contents = (last (.start 2 true 0) tr).contents := by
  have hok : (Client.start 2 true 0 : Client Nat Nat).OkAll
      [.push 5, .prepare 0, .push 6, .pop, .rollback 0] := by
    rw [(inv_start 2 true 0).okAll_iff (max_pos 2 true)]
    decide
  obtain ⟨tr, -, hes, -, -, hall⟩ := two_phase_push 2 true 0 hok
  obtain ⟨tr', -, hes', hc⟩ := hall [.push 5] 0 [.push 6, .pop] rfl (by simp [Event.key])
  exact ⟨tr, tr', hes, hes', hc⟩

/-- Preparing an item takes the only one out of a full buffer, and giving it up does not bring that
    back. And when another item was prepared before, committing it never ends. -/
theorem two_phase_push_fails :
    (∃ tr tr' : List ((Event Nat Nat × Option Nat) × Client Nat Nat),
      Run Client.Step (.start 1 true 0) tr ∧
      tr.map (·.1.1) = [.push 5, .prepare 0, .rollback 0] ∧
      Run Client.Step (.start 1 true 0) tr' ∧ tr'.map (·.1.1) = [.push 5] ∧
      (last (.start 1 true 0) tr).contents = [] ∧
      (last (.start 1 true 0) tr').contents = [5]) ∧
    ∃ tr : List ((Event Nat Nat × Option Nat) × Client Nat Nat),
      Run Client.Step (.start 2 true 0) tr ∧ tr.map (·.1.1) = [.prepare 0, .prepare 1] ∧
      ∀ out c', ¬ (last (.start 2 true 0) tr).Step (.commit 0 7, out) c' := by
  refine ⟨⟨[((.push 5, none), _), ((.prepare 0, none), _), ((.rollback 0, none), _)],
    [((.push 5, none), _)], .cons ⟨1, rfl⟩ (.cons ⟨1, rfl⟩ (.cons ⟨1, rfl⟩ (.nil _))), rfl,
    .cons ⟨1, rfl⟩ (.nil _), rfl, rfl, rfl⟩, [((.prepare 0, none), _), ((.prepare 1, none), _)],
    .cons ⟨1, rfl⟩ (.cons ⟨1, rfl⟩ (.nil _)), rfl, ?_⟩
  rintro out c' ⟨fuel, h⟩
  obtain ⟨r, hr, -⟩ := Option.map_eq_some_iff.mp h
  have hspin := fun b (h : b.preplist[0]? = some ⟨some 1⟩) =>
    @commitLoop_spins b 0 0 ⟨some 1⟩ h (by simp) fuel
  exact absurd ((hspin _ rfl).symm.trans hr) (by simp)

end Circbuf

end CodeSLoop
