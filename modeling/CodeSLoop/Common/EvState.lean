import CodeSLoop.Common.EvHeap
import CodeSLoop.Common.EvQueue

/-!
# The state of an event loop (`common/libev/ev.c`)

`struct ev_loop` together with the watchers, in parts that the calls concern one at a time: the queue of
pending events, the timers, the descriptors, and the watchers in plain arrays. The members `active` of the
watchers are with the part that they are a place in.
-/

namespace CodeSLoop.Ev

universe v

/-- The timers: `ev_at` and `repeat` of the watchers, and the heap. -/
structure Timers (T : Type v) where
  at_ : Nat → T
  repeat_ : Nat → T
  heap : AnHeap Nat T
  timercnt : Nat
  timermax : Nat
  mnNow : T

/-- `ANFD`: what is known of a descriptor. -/
structure Anfd where
  head : List Nat
  events : BitVec 8
  reify : BitVec 8

/-- The descriptors, and the watchers that are for them; `told` is what the backend was told last of each. -/
structure Fds where
  fd : Nat → Int
  events : Nat → Events
  active : Nat → Nat
  anfds : Int → Anfd
  anfdmax : Nat
  fdchanges : List Int
  fdchangemax : Nat
  told : Int → BitVec 8

/-- The watchers in plain arrays. -/
structure Lists where
  active : Listed → Nat → Nat
  arrays : Listed → List Nat
  arraymax : Listed → Nat

/-- `struct ev_loop`, and the watchers. -/
structure Loop (T : Type v) where
  queue : Queue
  timers : Timers T
  fds : Fds
  lists : Lists
  activecnt : Int

variable {T : Type v}

/-- The member `active` of a watcher. -/
def Loop.active (l : Loop T) : W → Nat
  | .io a => l.fds.active a
  | .timer a => l.timers.heap.active a
  | .listed k a => l.lists.active k a

@[simp] theorem active_io (l : Loop T) (a : Nat) : l.active (.io a) = l.fds.active a := rfl

@[simp] theorem active_timer (l : Loop T) (a : Nat) : l.active (.timer a) = l.timers.heap.active a := rfl

@[simp] theorem active_listed (l : Loop T) (k : Listed) (a : Nat) :
    l.active (.listed k a) = l.lists.active k a := rfl

/-- `w->active = active`. -/
def setActive (l : Loop T) (w : W) (active : Nat) : Loop T :=
  match w with
  | .io a => { l with fds.active := Function.update l.fds.active a active }
  | .timer a => { l with timers.heap.active := Function.update l.timers.heap.active a active }
  | .listed k a =>
    { l with lists.active := Function.update l.lists.active k (Function.update (l.lists.active k) a active) }

def evRef (l : Loop T) : Loop T := { l with activecnt := l.activecnt + 1 }

def evUnref (l : Loop T) : Loop T := { l with activecnt := l.activecnt - 1 }

def evStart (l : Loop T) (w : W) (active : Nat) : Loop T :=
  evRef (setActive { l with queue := priAdjust l.queue w } w active)

def evStop (l : Loop T) (w : W) : Loop T := setActive (evUnref l) w 0

end CodeSLoop.Ev
