import CodeSLoop.Nthread.Thread
import CodeSLoop.Nthread.ThrpoolBounds

/-!
# Stopping a `nthread::thrpool`

The workers of `Thrpool` once more, now with the flag that `graceful_stop` sets, with the objects
of the threads that `cleanup` and `unpolite_stop` delete, and in threads that start and exit by
steps of their own (`Thread.Phase`). What `mtx_` guards is one step each; `unpolite_stop` has it
from its first step to its last, and the workers that need it wait, where they can be cancelled
(`mutex::impl::lock` waits in `pthread_cond_wait`).

One thread, the owner, calls `start_one` (`init` does), `graceful_stop` and `unpolite_stop`, in
any order; the destructor calls the last two. What `ev_` and `exit_event_` let through is left
open: a call of `wait` may find something, or time out. Left out is what `start_one` does with the
thread behind `mtx_`: it waits for the start event of an object that somebody may have deleted by
then.
-/

namespace CodeSLoop

namespace ThrpoolStop

open Lts
open Thrpool (Params)
open Thread (Phase)

/-- What a `cleanup` has taken off `threads_` and has still to delete: first all the threads, and
    then the entries. -/
structure Taken where
  thrs : List Nat
  cbs : List Nat

def Taken.all (k : Taken) : List Nat := k.thrs ++ k.cbs

/-- Where a worker goes on after a `cleanup`. -/
inductive After
  | starting
  | handling
  | testing (n : UInt32)

/-- Where a worker is in `entry::operator()`; `n` is `n_attempts`. -/
inductive Work
  | entering
  | testing (n : UInt32)
  | waiting (n : UInt32)
  | timedOut (n : UInt32)
  | notified
  | helping
  | asking
  | cleaning
  | starting
  | awaiting
  | handling
  | ended (n : UInt32)
  | deleting (k : Taken) (next : After)
  | leaving
  | exiting

def After.work : After → Work
  | starting => .starting
  | handling => .handling
  | testing n => .testing n

namespace Work

/-- There is a cancellation point: the waits, the handler, and the `pthread_join` of a deletion. -/
def point : Work → Bool
  | waiting _ | awaiting | handling | deleting ⟨_ :: _, _⟩ _ => true
  | _ => false

/-- It locks `mtx_` next; when somebody has that, it waits in a cancellation point. -/
def locks : Work → Bool
  | entering | timedOut _ | asking | cleaning | starting | ended _ | leaving => true
  | _ => false

/-- Between `on_entry` and `on_exit`. -/
def counted : Work → Bool
  | entering | exiting => false
  | _ => true

def taken : Work → List Nat
  | deleting k _ => k.all
  | _ => []

end Work

/-- Counted by `count_`, unless it was cancelled. -/
def counted : Phase Work → Bool
  | .running r => r.counted
  | _ => false

def taken : Phase Work → List Nat
  | .running r => r.taken
  | _ => []

/-- Not yet at `on_entry`. -/
def pending : Phase Work → Bool
  | .created | .started | .running .entering => true
  | _ => false

/-- A thread with its entry. -/
structure Worker where
  phase : Phase Work
  cancel : Bool
  stopMe : Bool

/-- Where the owner is. In `unpolite_stop`, `i` is the thread it is about, `rest` are those behind
    it on the list, and `ret` is what it will return. -/
inductive Owner
  | idle
  | awaiting
  | waiting (left failed : Nat)
  | deleting (failed : Nat) (k : Taken)
  | counting (failed : Nat)
  | waitingMore (left : Nat)
  | reading
  | stopping (rest : List Nat) (ret : Bool)
  | exitWaiting (i : Nat) (rest : List Nat) (ret : Bool)
  | exitSleeping (i : Nat) (rest : List Nat) (ret : Bool)
  | deletingOne (i : Nat) (rest : List Nat) (ret : Bool)
  | joining (i : Nat) (rest : List Nat) (ret : Bool)

namespace Owner

/-- While `unpolite_stop` has `mtx_`, the threads that it has still to delete. -/
def rest : Owner → Option (List Nat)
  | stopping rest _ => some rest
  | exitWaiting i rest _ | exitSleeping i rest _ | deletingOne i rest _ | joining i rest _ =>
    some (i :: rest)
  | _ => none

def taken : Owner → List Nat
  | deleting _ k => k.all
  | _ => []

end Owner

/-- `threads` is `threads_`, where a thread is known by its number. -/
structure State where
  count : Nat
  workers : List Worker
  threads : List Nat
  owner : Owner

def init : State := ⟨0, [], [], .idle⟩

namespace State

def phases (s : State) : List (Phase Work) := s.workers.map Worker.phase

/-- Nobody has `mtx_`. -/
def Free (s : State) : Prop := s.owner.rest = none

/-- The thread has set its `exit_evt_`. -/
def Done (s : State) (j : Nat) : Prop := ∃ x, s.phases[j]? = some x ∧ x.uses = false

/-- A worker goes on. -/
def set (s : State) (i : Nat) (w : Worker) (x : Phase Work) : State :=
  { s with workers := s.workers.set i { w with phase := x } }

/-- `start_one` makes a thread and an entry, starts the thread, and registers both. -/
def create (s : State) : State :=
  { s with
    workers := s.workers ++ [⟨.created, false, false⟩]
    threads := s.threads ++ [s.workers.length] }

/-- `stop_me( true )` for all that are registered. -/
def flag (s : State) : List Worker :=
  s.workers.mapIdx fun i w => if i ∈ s.threads then { w with stopMe := true } else w

/-- `thread::stop`, which cancels a thread that has started and not exited. -/
def stop (s : State) (i : Nat) : List Worker :=
  s.workers.modify i fun w =>
    { w with cancel := w.cancel || w.phase.hasStarted && w.phase.uses }

end State

/-- What a thread does outside `operator()`. -/
inductive Turns : Phase Work → Phase Work → Prop
  | flagStart : Turns .created .started
  | enter : Turns .started (.running .entering)
  | returned : Turns (.running .exiting) .leaving
  | flagExit : Turns .leaving .exited
  | finish : Turns .exited .ended

/-- The moves of a worker that change nothing but its own place. `free` says that it can have
    `mtx_`, and `count` is `count()` then. -/
inductive Moves (p : Params) (count : Nat) (free : Prop) (stopMe : Bool) : Work → Work → Prop
  | stop {n : UInt32} : stopMe = true → Moves p count free stopMe (.testing n) .leaving
  | wait {n : UInt32} : stopMe = false → Moves p count free stopMe (.testing n) (.waiting n)
  | timeout {n : UInt32} :
      ¬ p.attempts < n + 1 → Moves p count free stopMe (.waiting n) (.ended (n + 1))
  | outOfTime {n : UInt32} :
      p.attempts < n + 1 → Moves p count free stopMe (.waiting n) (.timedOut (n + 1))
  | needed {n : UInt32} :
      free → ¬ p.min < count → Moves p count free stopMe (.timedOut n) (.ended n)
  | leave {n : UInt32} : free → p.min < count → Moves p count free stopMe (.timedOut n) .leaving
  | notified {n : UInt32} : Moves p count free stopMe (.waiting n) .notified
  | stopNotified : stopMe = true → Moves p count free stopMe .notified .leaving
  | work : stopMe = false → Moves p count free stopMe .notified .helping
  -- `ev_->available_count()` is whatever the event says.
  | noHelp : Moves p count free stopMe .helping .handling
  | help : Moves p count free stopMe .helping .asking
  | full : free → ¬ count < p.max → Moves p count free stopMe .asking .handling
  | room : free → count < p.max → Moves p count free stopMe .asking .cleaning
  | startFull : free → p.max < count → Moves p count free stopMe .starting .handling
  -- `pthread_create` has failed.
  | startFail : free → ¬ p.max < count → Moves p count free stopMe .starting .handling
  -- The new thread has started, or has not done so in ten seconds.
  | started : Moves p count free stopMe .awaiting .handling
  | handled : Moves p count free stopMe .handling (.ended 0)

/-- `cleanup` walks through the list, and takes what has exited; what exits behind its back may
    stay. -/
inductive Cleans (s : State) : List Nat → List Nat → List Nat → Prop
  | nil : Cleans s [] [] []
  | keep {i : Nat} {l kept gone : List Nat} :
      Cleans s l kept gone → Cleans s (i :: l) (i :: kept) gone
  | take {i : Nat} {l kept gone : List Nat} :
      s.Done i → Cleans s l kept gone → Cleans s (i :: l) kept (i :: gone)

/-- One deletion of a `cleanup`. That of a thread waits until the thread has ended. -/
inductive Deletes (s : State) : Taken → Nat → Taken → Prop
  | thread {j : Nat} {thrs cbs : List Nat} :
      s.phases[j]? = some .ended → Deletes s ⟨j :: thrs, cbs⟩ j ⟨thrs, cbs⟩
  | entry {j : Nat} {cbs : List Nat} : Deletes s ⟨[], j :: cbs⟩ j ⟨[], cbs⟩

inductive Act
  | turn (i : Nat)
  | worker (i : Nat)
  | onEntry (i : Nat)
  | onExit (i : Nat)
  | cleanup (i : Nat)
  | cleaned (i : Nat)
  | startOne (i : Nat)
  | cancelled (i : Nat)
  | deleted (j : Nat)
  | ownerStart (ret : Bool)
  | gracefulStop
  | unpoliteStop
  | owner
  | gracefulReturn (ret : Bool)
  | unpoliteReturn (ret : Bool)

/-- The steps of `graceful_stop` that change nothing but the owner's place. -/
inductive Graceful (count : Nat) : Owner → Owner → Prop
  | exited {left failed : Nat} :
      Graceful count (.waiting (left + 1) failed) (.waiting left failed)
  | timeout {left failed : Nat} :
      Graceful count (.waiting (left + 1) failed) (.waiting left (failed + 1))
  | deleted {failed : Nat} : Graceful count (.deleting failed ⟨[], []⟩) (.counting failed)
  | more {failed : Nat} :
      0 < count → 0 < failed → Graceful count (.counting failed) (.waitingMore failed)
  | noMore {failed : Nat} :
      ¬ (0 < count ∧ 0 < failed) → Graceful count (.counting failed) .reading
  | waited {left : Nat} : Graceful count (.waitingMore (left + 1)) (.waitingMore left)
  | allWaited : Graceful count (.waitingMore 0) .reading

/-- And those of `unpolite_stop`; `done` says of a thread that it has set its `exit_evt_`. -/
inductive Unpolite (done : Nat → Prop) : Owner → Owner → Prop
  | permanent {i : Nat} {rest : List Nat} {ret : Bool} :
      done i → Unpolite done (.exitWaiting i rest ret) (.deletingOne i rest ret)
  | sleep {i : Nat} {rest : List Nat} {ret : Bool} :
      ¬ done i → Unpolite done (.exitWaiting i rest ret) (.exitSleeping i rest ret)
  | woken {i : Nat} {rest : List Nat} {ret : Bool} :
      done i → Unpolite done (.exitSleeping i rest ret) (.deletingOne i rest ret)
  | timeout {i : Nat} {rest : List Nat} {ret : Bool} :
      Unpolite done (.exitSleeping i rest ret) (.deletingOne i rest false)

inductive Step (p : Params) : State → Act → State → Prop
  | turn {s : State} {i : Nat} {w : Worker} {x : Phase Work} :
      s.workers[i]? = some w → Turns w.phase x → Step p s (.turn i) (s.set i w x)
  | worker {s : State} {i : Nat} {w : Worker} {r r' : Work} :
      s.workers[i]? = some w → w.phase = .running r → Moves p s.count s.Free w.stopMe r r' →
      Step p s (.worker i) (s.set i w (.running r'))
  | onEntry {s : State} {i : Nat} {w : Worker} :
      s.workers[i]? = some w → w.phase = .running .entering → s.Free →
      Step p s (.onEntry i) { s.set i w (.running (.testing 0)) with count := s.count + 1 }
  | onExit {s : State} {i : Nat} {w : Worker} :
      s.workers[i]? = some w → w.phase = .running .leaving → s.Free →
      Step p s (.onExit i) { s.set i w (.running .exiting) with count := s.count - 1 }
  | cleanHelp {s : State} {i : Nat} {w : Worker} {kept gone : List Nat} :
      s.workers[i]? = some w → w.phase = .running .cleaning → s.Free →
      Cleans s s.threads kept gone →
      Step p s (.cleanup i)
        { s.set i w (.running (.deleting ⟨gone, gone⟩
            (if kept.length < p.max then .starting else .handling))) with threads := kept }
  | cleanLoop {s : State} {i : Nat} {w : Worker} {n : UInt32} {kept gone : List Nat} :
      s.workers[i]? = some w → w.phase = .running (.ended n) → s.Free →
      Cleans s s.threads kept gone →
      Step p s (.cleanup i)
        { s.set i w (.running (.deleting ⟨gone, gone⟩ (.testing n))) with threads := kept }
  | delete {s : State} {i j : Nat} {w : Worker} {k k' : Taken} {next : After} :
      s.workers[i]? = some w → w.phase = .running (.deleting k next) → Deletes s k j k' →
      Step p s (.deleted j) (s.set i w (.running (.deleting k' next)))
  | cleaned {s : State} {i : Nat} {w : Worker} {next : After} :
      s.workers[i]? = some w → w.phase = .running (.deleting ⟨[], []⟩ next) →
      Step p s (.cleaned i) (s.set i w (.running next.work))
  | startOne {s : State} {i : Nat} {w : Worker} :
      s.workers[i]? = some w → w.phase = .running .starting → s.Free → ¬ p.max < s.count →
      Step p s (.startOne i) (s.set i w (.running .awaiting)).create
  | cancelled {s : State} {i : Nat} {w : Worker} {r : Work} :
      s.workers[i]? = some w → w.phase = .running r →
      r.point = true ∨ r.locks = true ∧ ¬ s.Free → w.cancel = true →
      Step p s (.cancelled i) (s.set i w .leaving)
  | ownerStart {s : State} :
      s.owner = .idle → ¬ p.max < s.count →
      Step p s (.ownerStart true) { s.create with owner := .awaiting }
  -- There are too many, or `pthread_create` has failed.
  | ownerRefused {s : State} : s.owner = .idle → Step p s (.ownerStart false) s
  | ownerStarted {s : State} : s.owner = .awaiting → Step p s .owner { s with owner := .idle }
  | gracefulStop {s : State} :
      s.owner = .idle →
      Step p s .gracefulStop
        { s with workers := s.flag, owner := .waiting s.threads.length 0 }
  | graceful {s : State} {o : Owner} :
      Graceful s.count s.owner o → Step p s .owner { s with owner := o }
  | gracefulClean {s : State} {failed : Nat} {kept gone : List Nat} :
      s.owner = .waiting 0 failed → Cleans s s.threads kept gone →
      Step p s .owner { s with threads := kept, owner := .deleting failed ⟨gone, gone⟩ }
  | gracefulDelete {s : State} {failed j : Nat} {k k' : Taken} :
      s.owner = .deleting failed k → Deletes s k j k' →
      Step p s (.deleted j) { s with owner := .deleting failed k' }
  | gracefulReturn {s : State} :
      s.owner = .reading →
      Step p s (.gracefulReturn (s.count == 0)) { s with owner := .idle }
  | unpoliteStop {s : State} :
      s.owner = .idle →
      Step p s .unpoliteStop { s with owner := .stopping s.threads true }
  | unpoliteCancel {s : State} {i : Nat} {rest : List Nat} {ret : Bool} :
      s.owner = .stopping (i :: rest) ret →
      Step p s .owner { s with workers := s.stop i, owner := .exitWaiting i rest ret }
  | unpolite {s : State} {o : Owner} :
      Unpolite s.Done s.owner o → Step p s .owner { s with owner := o }
  -- The destructor of the thread calls `stop` too, and then waits for a thread that has started.
  | unpoliteDelete {s : State} {i : Nat} {rest : List Nat} {ret : Bool} :
      s.owner = .deletingOne i rest ret →
      Step p s .owner { s with workers := s.stop i, owner := .joining i rest ret }
  | unpoliteUnstarted {s : State} {i : Nat} {rest : List Nat} {ret : Bool} :
      s.owner = .joining i rest ret → s.phases[i]? = some .created →
      Step p s (.deleted i) { s with owner := .stopping rest ret }
  | unpoliteJoined {s : State} {i : Nat} {rest : List Nat} {ret : Bool} :
      s.owner = .joining i rest ret → s.phases[i]? = some .ended →
      Step p s (.deleted i) { s with owner := .stopping rest ret }
  | unpoliteReturn {s : State} {ret : Bool} :
      s.owner = .stopping [] ret →
      Step p s (.unpoliteReturn ret) { s with threads := [], owner := .idle }

namespace State

/-- No worker is in the handler. -/
def Quiet (s : State) : Prop := ∀ w ∈ s.workers, w.phase ≠ .running .handling

/-- All steps but those with which the owner starts threads again. -/
def Later (p : Params) (s : State) (a : Act) (s' : State) : Prop :=
  Step p s a s' ∧ a ≠ .ownerStart true

/-- What a stop promises: when it returns true no worker runs the handler any more; and what is
    deleted is not used by its thread. -/
def Safe (p : Params) (s : State) (a : Act) (s' : State) : Prop :=
  match a with
  | .deleted j => s.Done j
  | .gracefulReturn true | .unpoliteReturn true => Settled (Later p) Quiet s'
  | _ => True

/-- A thread has started when its object is deleted; and when `graceful_stop` reads `count()` for
    the last time, the threads that have not run `on_entry` yet are told to stop. -/
def Spares (s : State) : Act → Prop
  | .deleted j => ∀ x, s.phases[j]? = some x → x.hasStarted = true
  | .gracefulReturn true => ∀ w ∈ s.workers, pending w.phase = true → w.stopMe = true
  | _ => True

end State

end ThrpoolStop

end CodeSLoop
