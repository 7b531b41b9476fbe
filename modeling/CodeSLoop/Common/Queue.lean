import CodeSLoop.Common.Inpvec

/-!
# `queue` — the queue on an in-place vector (`common/queue.hh`, `common/queue_impl.hh`)

The items of a `queue<T>` stand in the slots of an `inpvec`, linked from `head_` to `tail_` by
positions: an item knows its own position (`pos_`) and that of the next one (`next_`, which
the last item has as 0, like any item before the one at position 0). `pop` hands the first
item to a *handler*, which keeps the slot until it lets go of it; only then is the slot free.

Handlers are the user's objects, so the state of the whole is the queue with the handlers that
are alive, by name. Every pointer the code follows without looking is followed here too: a
call that follows a pointer to no item has no result.
-/

namespace CodeSLoop

open Inpvec

universe u

/-- `queue::item`. -/
structure QItem (T : Type u) where
  item : T
  pos : Nat
  next : Nat

/-- The constructor of an item from a value. -/
def QItem.mk' {T : Type u} (t : T) : QItem T := ⟨t, 0xBadBeafFeedBacc, 0xFeedBadBeefBacc⟩

/-- The members of `queue`. -/
structure Queue (T : Type u) where
  items : Inpvec (QItem T)
  head : Option Ptr
  tail : Option Ptr
  nItems : Nat

/-- The members of `queue::handler`; `q` says whether `q_` is set. -/
structure Handler where
  q : Bool
  i : Option Ptr
deriving DecidableEq, Repr

namespace Queue

variable {T : Type u}

/-- `queue()`. -/
def init : Queue T := ⟨Inpvec.init, none, none, 0⟩

/-- `size()`, the number of slots in use. -/
def size (q : Queue T) : Nat := q.items.nItems

/-- `free_item(i)`. -/
def freeItem (q : Queue T) (i : Ptr) : Option (Queue T) :=
  (q.items.deref i).map fun it => { q with items := (q.items.freeAt it.pos).1 }

/-- `append_item(i,it)`. -/
def appendItem (q : Queue T) (i : Option Ptr) (it : Iter) : Queue T × Option Ptr :=
  match i with
  | none => (q, none)
  | some i =>
    let v := q.items.poke i fun x => { x with pos := it.gpos, next := 0 }
    match q.tail with
    | none => ({ items := v, head := some i, tail := some i, nItems := q.nItems + 1 }, some i)
    | some tl =>
      let v := v.poke tl fun x => { x with next := it.gpos }
      let v := v.poke i fun x => { x with next := 0 }
      ({ items := v, head := q.head, tail := some i, nItems := q.nItems + 1 }, some i)

/-- `push(t)`. -/
def push (q : Queue T) (t : T) : Option (Queue T × Option Ptr) :=
  q.items.firstFree.map fun r =>
    let s := r.1.iterSet r.2 (QItem.mk' t)
    appendItem { q with items := s.1 } s.2 r.2

/-- `handler::reset()`. -/
def release (q : Queue T) (h : Handler) : Option (Queue T × Handler) :=
  match h.i, h.q with
  | some i, true => (q.freeItem i).map fun q => (q, ⟨false, none⟩)
  | _, _ => some (q, h)

/-- `handler::set(q,i)`. -/
def setHandler (q : Queue T) (h : Handler) (i : Ptr) : Option (Queue T × Handler) :=
  (q.release h).map fun r => (r.1, ⟨true, some i⟩)

/-- How `pop` ends: with an item, with nothing to pop, or with `exc::rs_invalid_state`. -/
inductive Popped
  | done | empty | invalidState
deriving DecidableEq, Repr

/-- `pop(h)`. -/
def pop (q : Queue T) (h : Handler) : Option (Queue T × Handler × Popped) :=
  match q.head with
  | none => some (q, h, .empty)
  | some i =>
    let finish (q : Queue T) :=
      (setHandler { q with nItems := q.nItems - 1 } h i).map fun r => (r.1, r.2, Popped.done)
    if q.head = q.tail then finish { q with head := none, tail := none }
    else
      match q.items.deref i with
      | none => none
      | some it =>
        match q.items.getPtr it.next with
        | none => some ({ q with head := none }, h, .invalidState)
        | some inext => finish { q with head := some inext }

/-! ## A queue and its handlers -/

/-- A queue and the live handlers. -/
structure Sys (T : Type u) where
  queue : Queue T
  handlers : Nat → Option Handler

namespace Sys

/-- An empty queue, and no handlers. -/
def init : Sys T := ⟨Queue.init, fun _ => none⟩

/-- What the user does: construct a handler, push, pop into a handler, assign one handler to
    another, make a handler let go of its item, destroy a handler. -/
inductive Op (T : Type u)
  | create (h : Nat) | push (t : T) | pop (h : Nat) | assign (h other : Nat) | reset (h : Nat)
  | destroy (h : Nat)
deriving DecidableEq

/-- What a call answers: for a `pop`, how it ended and the value its handler then gives. -/
inductive Out (T : Type u)
  | unit | popped (p : Popped) (value : Option T)

/-- `handler::get()` and the value there. -/
def value (s : Sys T) (h : Nat) : Option T :=
  (s.handlers h).bind fun hd => hd.i.bind fun i => (s.queue.items.deref i).map QItem.item

/-- One call. It has no result when a handler it names is not alive (or, for `create`, is). -/
def exec (s : Sys T) : Op T → Option (Sys T × Out T)
  | .create h =>
    match s.handlers h with
    | none => some ({ s with handlers := Function.update s.handlers h (some ⟨false, none⟩) }, .unit)
    | some _ => none
  | .push t => (s.queue.push t).map fun r => ({ s with queue := r.1 }, .unit)
  | .pop h =>
    (s.handlers h).bind fun hd =>
      (s.queue.pop hd).map fun r =>
        let s' : Sys T := ⟨r.1, Function.update s.handlers h (some r.2.1)⟩
        (s', .popped r.2.2 (s'.value h))
  | .assign h other =>
    match s.handlers h, s.handlers other with
    | some _, some o =>
      -- `q_ = other.q_; i_ = other.i_; other.i_ = 0;`, also when the two are one
      let hs := Function.update s.handlers h (some ⟨o.q, o.i⟩)
      some ({ s with
        handlers := Function.update hs other ((hs other).map fun o => { o with i := none }) }, .unit)
    | _, _ => none
  | .reset h =>
    (s.handlers h).bind fun hd =>
      (s.queue.release hd).map fun r =>
        (⟨r.1, Function.update s.handlers h (some r.2)⟩, .unit)
  | .destroy h =>
    (s.handlers h).bind fun hd =>
      (s.queue.release hd).map fun r => (⟨r.1, Function.update s.handlers h none⟩, .unit)

/-- What a trace records of a call. -/
structure Event (T : Type u) where
  op : Op T
  out : Out T

def Step (s : Sys T) (a : Event T) (s' : Sys T) : Prop := s.exec a.op = some (s', a.out)

end Sys

end Queue

end CodeSLoop
