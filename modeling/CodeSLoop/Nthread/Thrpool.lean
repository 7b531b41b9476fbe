import CodeSLoop.Lib.Run
/-!
# `nthread::thrpool`

A pool of worker threads between `min_` and `max_`. A worker that has waited in vain more than
`attempts_` times reads `count()` and leaves when it is above `min_`; a worker that finds more
work than it can do reads `count()` and `cleanup()` and starts another one when both are below
`max_`. Reading and acting are different critical sections of `mtx_`, so each is a step of its
own here, and a worker is wherever it is between two of them (`Phase`).

`count_` counts the threads that have run `on_entry` and not yet `on_exit`. `threads_` has every
thread from its creation on until some `cleanup()` after its exit, so the list of the workers'
phases stands for it. No stop is requested, so `stop_me()` is false; the number of threads stays
far below 2^32 (`init` takes at most 2000), so it is a natural number.
-/

namespace CodeSLoop

namespace Thrpool

/-- The arguments of `init`. -/
structure Params where
  min : Nat
  max : Nat
  timeout : UInt32
  attempts : UInt32

/-- What `init` lets through. -/
structure Params.Accepted (p : Params) : Prop where
  min_pos : 1 ≤ p.min
  min_le : p.min ≤ p.max
  max_le : p.max ≤ 2000
  attempts_pos : p.attempts ≠ 0
  timeout_pos : p.timeout ≠ 0

/-- Where a worker is; the argument is `n_attempts`. -/
inductive Phase
  | created
  | waiting (n : UInt32)
  | timedOut (n : UInt32)
  | notified
  | asking
  | cleaning
  | starting
  | handling
  | ended (n : UInt32)
  | leaving
  | exiting
  | exited
  deriving DecidableEq

namespace Phase

/-- The thread has not flagged its exit. -/
def alive : Phase → Bool
  | exited => false
  | _ => true

/-- Counted by `count_`. -/
def entered : Phase → Bool
  | created | exiting | exited => false
  | _ => true

/-- On the way to `start_one`. -/
def isStarting : Phase → Bool
  | starting => true
  | _ => false

/-- On the way out. -/
def isLeaving : Phase → Bool
  | leaving | exiting => true
  | _ => false

end Phase

/-- Where `init` is, with the number of calls of `start_one` that it still has to make. -/
inductive Init
  | starting (left : Nat)
  | waiting (left : Nat)
  | returned
  | failed
  deriving DecidableEq

def Init.left : Init → Nat
  | .starting k | .waiting k => k
  | .returned | .failed => 0

structure State where
  count : Nat
  threads : List Phase
  init : Init

/-- After `init` has checked and stored its arguments. -/
def initial (p : Params) : State := ⟨0, [], .starting p.min⟩

/-- The moves of a worker that change nothing but its own place. -/
inductive Move
  | timeout
  | outOfTime
  | needed
  | leave
  | notified
  | noHelp
  | help
  | full
  | room
  | startFull
  | startFail
  | handled

/-- `entry::operator()`, from one critical section to the next, with `count()` as it is read. -/
inductive Moves (p : Params) (count : Nat) : Phase → Move → Phase → Prop
  | timeout {n : UInt32} : ¬ p.attempts < n + 1 → Moves p count (.waiting n) .timeout (.ended (n + 1))
  | outOfTime {n : UInt32} :
      p.attempts < n + 1 → Moves p count (.waiting n) .outOfTime (.timedOut (n + 1))
  | needed {n : UInt32} : ¬ p.min < count → Moves p count (.timedOut n) .needed (.ended n)
  | leave {n : UInt32} : p.min < count → Moves p count (.timedOut n) .leave .leaving
  | notified {n : UInt32} : Moves p count (.waiting n) .notified .notified
  -- `ev_->available_count()` is whatever the event says.
  | noHelp : Moves p count .notified .noHelp .handling
  | help : Moves p count .notified .help .asking
  | full : ¬ count < p.max → Moves p count .asking .full .handling
  | room : count < p.max → Moves p count .asking .room .cleaning
  | startFull : p.max < count → Moves p count .starting .startFull .handling
  -- `pthread_create` has failed.
  | startFail : ¬ p.max < count → Moves p count .starting .startFail .handling
  | handled : Moves p count .handling .handled (.ended 0)

/-- `cleanup()`: threads that have exited are taken off the list; one that exits while the list is
    being walked may stay. -/
structure Cleaned (l l' : List Phase) : Prop where
  sublist : l'.Sublist l
  alive : l'.filter Phase.alive = l.filter Phase.alive

inductive Act
  | worker (i : Nat) (m : Move)
  | onEntry (i : Nat)
  | onExit (i : Nat)
  | exit (i : Nat)
  | cleanRoom (i : Nat)
  | cleanFull (i : Nat)
  | cleanup (i : Nat)
  | startOne (i : Nat)
  | initStart
  | initStarted
  | initReturn
  | initFail

inductive Step (p : Params) : State → Act → State → Prop
  | worker {s : State} {i : Nat} {x y : Phase} {m : Move} :
      s.threads[i]? = some x → Moves p s.count x m y →
      Step p s (.worker i m) { s with threads := s.threads.set i y }
  | onEntry {s : State} {i : Nat} :
      s.threads[i]? = some .created →
      Step p s (.onEntry i)
        { s with count := s.count + 1, threads := s.threads.set i (.waiting 0) }
  | onExit {s : State} {i : Nat} :
      s.threads[i]? = some .leaving →
      Step p s (.onExit i) { s with count := s.count - 1, threads := s.threads.set i .exiting }
  | exit {s : State} {i : Nat} :
      s.threads[i]? = some .exiting →
      Step p s (.exit i) { s with threads := s.threads.set i .exited }
  | cleanRoom {s : State} {i : Nat} {l : List Phase} :
      s.threads[i]? = some .cleaning → Cleaned (s.threads.set i .starting) l → l.length < p.max →
      Step p s (.cleanRoom i) { s with threads := l }
  | cleanFull {s : State} {i : Nat} {l : List Phase} :
      s.threads[i]? = some .cleaning → Cleaned (s.threads.set i .handling) l →
      ¬ l.length < p.max → Step p s (.cleanFull i) { s with threads := l }
  | cleanup {s : State} {i : Nat} {n : UInt32} {l : List Phase} :
      s.threads[i]? = some (.ended n) → Cleaned (s.threads.set i (.waiting n)) l →
      Step p s (.cleanup i) { s with threads := l }
  -- The check is `count() > max()`; then the thread is created and registered.
  | startOne {s : State} {i : Nat} :
      s.threads[i]? = some .starting → ¬ p.max < s.count →
      Step p s (.startOne i) { s with threads := s.threads.set i .handling ++ [.created] }
  | initStart {s : State} {k : Nat} :
      s.init = .starting (k + 1) → ¬ p.max < s.count →
      Step p s .initStart { s with threads := s.threads ++ [.created], init := .waiting k }
  | initStarted {s : State} {k : Nat} :
      s.init = .waiting k → Step p s .initStarted { s with init := .starting k }
  | initReturn {s : State} :
      s.init = .starting 0 → Step p s .initReturn { s with init := .returned }
  -- `start_one` has refused, could not create the thread, or waited 10 seconds for its start.
  | initFail {s : State} {k : Nat} :
      s.init = .starting (k + 1) ∨ s.init = .waiting k →
      Step p s .initFail { s with init := .failed }

namespace State

/-- The threads that are created and have not exited. -/
def alive (s : State) : Nat := s.threads.countP Phase.alive

def starters (s : State) : Nat := s.threads.countP Phase.isStarting

def leavers (s : State) : Nat := s.threads.countP Phase.isLeaving

/-- Never more than `max_`, and never less than `min_` after `init` has returned true. -/
def Bounds (p : Params) (s : State) : Prop :=
  s.alive ≤ p.max ∧ (s.init = .returned → p.min ≤ s.alive)

instance (p : Params) (s : State) : Decidable (s.Bounds p) :=
  inferInstanceAs (Decidable (s.alive ≤ p.max ∧ (s.init = .returned → p.min ≤ s.alive)))

/-- What those who have decided will do without looking again: workers on their way to
    `start_one`, `init`, and workers on their way out. -/
def Commits (p : Params) (s : State) (a : Act) (s' : State) : Prop :=
  Step p s a s' ∧ match a with
    | .startOne _ | .initStart | .initStarted | .initReturn | .onExit _ | .exit _ => True
    | _ => False

/-- A worker decides to start another one only if there is room for it beside those that others
    have already decided to start, and to leave only if enough are left without those that have
    already decided to leave. -/
def Spares (p : Params) (s : State) : Act → Prop
  | .cleanRoom _ => s.alive + s.starters + s.init.left < p.max
  | .worker _ .leave => s.init ≠ .failed → p.min + s.leavers < s.alive + s.init.left
  | _ => True

end State

end Thrpool

end CodeSLoop
