import CodeSLoop.Lib.Run
import CodeSLoop.Lib.Tokens
import Mathlib.Logic.Function.Basic

/-!
# The tcp listener (`comm/tcp_lstnr.cc`)

One thread runs the event loop and its callbacks (`accept_cb`, `new_data_cb`, `wakeup_cb`), any
number of workers run `process_data_cb`, and a thread that calls `stop()` may come to run
`remove_all_connections` as well as the loop. A connection is a slot of `ev_pool_`; it is handed
around as a pointer to that slot, through `new_data_queue_` and `idle_data_queue_` and as the
watcher that libev keeps. A step is what one thread does up to the next place where another may
come in between: the call of a function of the handler, or what is done under a mutex.

A slot is used again for later connections, so a pointer is modelled with the number of the
connection that it was taken for (`Ref`), and connections are numbered as they are accepted. The
queues are FIFO lists. A step that would follow a pointer to a slot that is not (or no longer)
that of its connection is undefined, and is no step; the state before it already has the
pointer.

`ev_loop_destroy`, which ends the run, is left out, and so are the thread pool and the events
that wake the workers and the loop: a worker may run at any time.
-/

namespace CodeSLoop

namespace Tcp

open Lts

/-- A pointer into `ev_pool_`: the position, which is also `id_`, and the connection. -/
structure Ref where
  pos : Nat
  conn : Nat
deriving DecidableEq, Repr

/-- What is in a used slot: the connection, and whether the state of its `bfd_` is `ok_`. -/
structure Slot where
  conn : Nat
  ok : Bool
deriving DecidableEq, Repr

/-- The functions of `comm::handler`. -/
inductive Callback
  | connected | data | disconnected
deriving DecidableEq, Repr

/-- Where a run of `remove_all_connections` is: at the loop over `idle_data_queue_`, with a
    connection popped there, or at the loop over the pool, which is under `mtx_`. -/
inductive Sweep
  | emptying | popped (r : Ref) | scanning
deriving DecidableEq, Repr

/-- Where the loop thread is. -/
inductive Loop
  /-- In libev. -/
  | idle
  /-- `accept_cb`: in `on_connected`; then about to free the slot, or to start the watcher. -/
  | connecting (r : Ref) | refusing (r : Ref) | accepting (r : Ref)
  /-- `new_data_cb`: in `recv_some`; then about to push, or in `on_disconnected`. -/
  | reading (r : Ref) | received (r : Ref) | closing (r : Ref)
  /-- `wakeup_cb`: at the loop over `idle_data_queue_`, and with a connection popped there. -/
  | waking | rewatching (r : Ref)
  /-- `wakeup_cb` after `stop()`. -/
  | sweep (w : Sweep)
  /-- After `ev_unloop`. -/
  | ended
deriving DecidableEq, Repr

/-- Where a worker is in `process_data_cb`. -/
inductive Stage
  | popped | handling | returned (hres : Bool)
deriving DecidableEq, Repr

/-- A run of `data_handler::operator()()` that has popped a connection. -/
structure Worker where
  ref : Ref
  stage : Stage
deriving DecidableEq, Repr

/-- Who may run `remove_all_connections`. -/
inductive Who
  | loop | stopper
deriving DecidableEq, Repr

structure State where
  /-- `ev_pool_`. -/
  pool : Nat → Option Slot
  /-- The connections accepted so far. -/
  next : Nat
  loop : Loop
  /-- The connections whose watchers libev has. -/
  watched : List Ref
  /-- `new_data_queue_`. -/
  newData : List Ref
  workers : List Worker
  /-- `idle_data_queue_`. -/
  idle : List Ref
  stopMe : Bool
  /-- The run of `remove_all_connections` that `stop()` makes. -/
  stopper : Option Sweep
  /-- The calls of the handler, in order. -/
  log : List (Ref × Callback)

namespace State

def init : State := ⟨fun _ => none, 0, .idle, [], [], [], [], false, none, []⟩

variable (s : State)

/-- The slot is that of the connection, and `bfd_.state() == bfd::ok_` is `ok`. -/
def Holds (r : Ref) (ok : Bool) : Prop := s.pool r.pos = some ⟨r.conn, ok⟩

/-- The pointer is to the slot of its connection. -/
def Live (r : Ref) : Prop := ∃ ok, s.Holds r ok

/-- Nobody has `mtx_` for longer than a step. -/
def MtxFree : Prop := s.loop ≠ .sweep .scanning ∧ s.stopper ≠ some .scanning

/-- The `mtx_` of the slot is taken: a function of the handler is called under it. -/
def Busy (pos : Nat) : Prop :=
  (∃ r, s.loop = .connecting r ∧ r.pos = pos) ∨
    ∃ w ∈ s.workers, w.stage = .handling ∧ w.ref.pos = pos

/-- What a handler function leaves of the descriptor: it may come to see that it is closed. -/
def setOk (r : Ref) (ok : Bool) : State :=
  { s with pool := Function.update s.pool r.pos (some ⟨r.conn, ok⟩) }

/-- `ev_pool_.free_at`. -/
def freeAt (pos : Nat) : State := { s with pool := Function.update s.pool pos none }

/-- A function of the handler is called. -/
def call (r : Ref) (c : Callback) : State := { s with log := s.log ++ [(r, c)] }

/-- The run of `remove_all_connections` of a thread. -/
def sweeping : Who → Option Sweep
  | .loop => match s.loop with
    | .sweep w => some w
    | _ => none
  | .stopper => s.stopper

def setSweep (w : Sweep) : Who → State
  | .loop => { s with loop := .sweep w }
  | .stopper => { s with stopper := some w }

def endSweep : Who → State
  | .loop => { s with loop := .ended }
  | .stopper => { s with stopper := none }

end State

/-- The steps. -/
inductive Act
  /-- `accept_cb`, up to `on_connected`; its return; `evit_ptr->free()`; `ev_io_start`. -/
  | accept | connected (cres ok : Bool) | refuse (found : Nat) | watch
  /-- `new_data_cb`: `ev_io_stop`; `recv_some`; `push`; `remove_connection`. -/
  | ready (r : Ref) | recvSome (ok : Bool) | handOver | removeClosed
  /-- `wakeup_cb`: its start, `pop`, `ev_io_start`, and its end. -/
  | wake | requeue | rewatch | wakeDone
  /-- A worker: `pop`; the call and the return of `on_data_arrival`; `remove_connection`, or
      `push`. -/
  | pop | arrive (r : Ref) | handled (r : Ref) (hres ok : Bool) | remove (r : Ref) | giveBack (r : Ref)
  /-- `stop_me(true)`; the start of `remove_all_connections`. -/
  | stop | sweep (who : Who)
  /-- `remove_all_connections`: `pop` and `remove_connection` of idle connections; the start of
      the loop over the pool, a `remove_connection` in it, and its end. -/
  | sweepPop (who : Who) | sweepRemove (who : Who) | scan (who : Who)
  | scanRemove (who : Who) (pos : Nat) | sweepDone (who : Who)
deriving DecidableEq, Repr

inductive Step : State → Act → State → Prop
  /-- `first_free` gives a position that is free. -/
  | accept {s} (pos : Nat) (hl : s.loop = .idle) (hm : s.MtxFree) (hfree : s.pool pos = none) :
    Step s .accept
      (({ s with next := s.next + 1, loop := .connecting ⟨pos, s.next⟩ }.setOk
        ⟨pos, s.next⟩ true).call ⟨pos, s.next⟩ .connected)
  | connected {s r} (cres ok ok₀ : Bool) (hl : s.loop = .connecting r) (h : s.Holds r ok₀)
      (hok : ok = true → ok₀ = true) :
    Step s (.connected cres ok)
      ({ s with loop := if cres then .accepting r else .refusing r }.setOk r ok)
  /-- The block of `ev_it`, to which `evit_ptr` points, has ended: `found` is the position that
      is found where it was. -/
  | refuse {s r} (found : Nat) (hl : s.loop = .refusing r) (hm : s.MtxFree) :
    Step s (.refuse found) ({ s with loop := .idle }.freeAt found)
  | watch {s r} (hl : s.loop = .accepting r) (hm : s.MtxFree) (h : s.Live r) :
    Step s .watch { s with loop := .idle, watched := r :: s.watched }
  | ready {s r w₁ w₂} (hl : s.loop = .idle) (hw : s.watched = w₁ ++ r :: w₂)
      (h : s.Live r) :
    Step s (.ready r) { s with loop := .reading r, watched := w₁ ++ w₂ }
  | received {s r} (hl : s.loop = .reading r) (h : s.Holds r true) :
    Step s (.recvSome true) { s with loop := .received r }
  | closed {s r} (ok₀ : Bool) (hl : s.loop = .reading r) (h : s.Holds r ok₀) :
    Step s (.recvSome false) (({ s with loop := .closing r }.setOk r false).call r .disconnected)
  | handOver {s r} (hl : s.loop = .received r) :
    Step s .handOver { s with loop := .idle, newData := s.newData ++ [r] }
  | removeClosed {s r} (hl : s.loop = .closing r) (hm : s.MtxFree) (hb : ¬ s.Busy r.pos)
      (h : s.Live r) :
    Step s .removeClosed ({ s with loop := .idle }.freeAt r.pos)
  | wake {s} (hl : s.loop = .idle) (hm : s.MtxFree) (hs : s.stopMe = false) :
    Step s .wake { s with loop := .waking }
  | requeue {s r q} (hl : s.loop = .waking) (hq : s.idle = r :: q) :
    Step s .requeue { s with loop := .rewatching r, idle := q }
  | rewatch {s r} (hl : s.loop = .rewatching r) (h : s.Live r) :
    Step s .rewatch { s with loop := .waking, watched := r :: s.watched }
  | wakeDone {s} (hl : s.loop = .waking) (hq : s.idle = []) :
    Step s .wakeDone { s with loop := .idle }
  | pop {s r q} (hq : s.newData = r :: q) :
    Step s .pop { s with newData := q, workers := ⟨r, .popped⟩ :: s.workers }
  | arrive {s r w₁ w₂} (hw : s.workers = w₁ ++ ⟨r, .popped⟩ :: w₂)
      (hb : ¬ s.Busy r.pos) (h : s.Live r) :
    Step s (.arrive r) ({ s with workers := w₁ ++ Worker.mk r .handling :: w₂ }.call r .data)
  | handled {s r w₁ w₂} (hres ok ok₀ : Bool)
      (hw : s.workers = w₁ ++ ⟨r, .handling⟩ :: w₂) (h : s.Holds r ok₀)
      (hok : ok = true → ok₀ = true) :
    Step s (.handled r hres ok)
      ({ s with workers := w₁ ++ Worker.mk r (.returned hres) :: w₂ }.setOk r ok)
  | remove {s r w₁ w₂} (hres ok : Bool)
      (hw : s.workers = w₁ ++ ⟨r, .returned hres⟩ :: w₂) (h : s.Holds r ok)
      (hbad : hres = false ∨ ok = false) (hm : s.MtxFree) (hb : ¬ s.Busy r.pos) :
    Step s (.remove r) ({ s with workers := w₁ ++ w₂ }.freeAt r.pos)
  | giveBack {s r w₁ w₂} (hw : s.workers = w₁ ++ ⟨r, .returned true⟩ :: w₂)
      (h : s.Holds r true) :
    Step s (.giveBack r) { s with workers := w₁ ++ w₂, idle := s.idle ++ [r] }
  | stop {s} (hm : s.MtxFree) : Step s .stop { s with stopMe := true }
  | loopSweep {s} (hl : s.loop = .idle) (hm : s.MtxFree) (hs : s.stopMe = true) :
    Step s (.sweep .loop) (s.setSweep .emptying .loop)
  | stopperSweep {s} (hn : s.stopper = none) (hs : s.stopMe = true) :
    Step s (.sweep .stopper) (s.setSweep .emptying .stopper)
  | sweepPop {s r q} (who : Who) (hw : s.sweeping who = some .emptying)
      (hq : s.idle = r :: q) :
    Step s (.sweepPop who) ({ s with idle := q }.setSweep (.popped r) who)
  | sweepRemove {s r} (who : Who) (hw : s.sweeping who = some (.popped r)) (hm : s.MtxFree)
      (hb : ¬ s.Busy r.pos) (h : s.Live r) :
    Step s (.sweepRemove who) ((s.setSweep .emptying who).freeAt r.pos)
  | scan {s} (who : Who) (hw : s.sweeping who = some .emptying) (hq : s.idle = []) (hm : s.MtxFree) :
    Step s (.scan who) (s.setSweep .scanning who)
  /-- `next_used` gives a used position that is not the first. -/
  | scanRemove {s} (who : Who) (pos : Nat) (c : Slot) (hw : s.sweeping who = some .scanning)
      (hpos : 0 < pos) (hused : s.pool pos = some c) (hb : ¬ s.Busy pos) :
    Step s (.scanRemove who pos) (s.freeAt pos)
  /-- It may have passed over some. -/
  | sweepDone {s} (who : Who) (hw : s.sweeping who = some .scanning) :
    Step s (.sweepDone who) (s.endSweep who)

end Tcp

end CodeSLoop
