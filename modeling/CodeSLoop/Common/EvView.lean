import CodeSLoop.Common.EvBackend
import CodeSLoop.Common.EvExpiry
import CodeSLoop.Common.EvLists

/-!
# What an event loop is for (`common/libev/ev.c`)

A program sees of a loop which watchers are running, and what each of them is still to be called with. This is a
machine of its own: nothing in it is an array, a heap or a place. A call of the program changes one or the other
(`View.after`), and `View.Contract` says what a program has to keep to: a watcher that is running is not given
another descriptor, a timer does not repeat after a negative time, a watcher for a descriptor that was closed is set
again before it is started.
-/

namespace CodeSLoop.Ev

universe v

/-- What is done with a loop: by a program between two waits or in a callback, by the kernel, or by the loop itself. -/
inductive Call (T : Type v)
  | setPriority (w : W) (pri : Int)
  | ioSet (a : Nat) (fd : Int) (events : Events)
  | ioStart (a : Nat)
  | ioStop (a : Nat)
  | timerSet (a : Nat) (after repeat_ : T)
  | timerRepeat (a : Nat) (repeat_ : T)
  | timerStart (a : Nat)
  | timerStop (a : Nat)
  | timerAgain (a : Nat)
  | listStart (k : Listed) (a : Nat)
  | listStop (k : Listed) (a : Nat)
  | feed (w : W) (revents : Events)
  | feedFd (fd : Int) (revents : Events)
  | clear (w : W)
  | ref
  | unref
  /-- A descriptor is closed, and is not the kernel's any more. -/
  | closed (fd : Int)
  | fork
  | fdReify
  /-- The backend has something to say of a descriptor. -/
  | fdEvent (fd : Int) (revents : Events)
  | fdKill (fd : Int)
  /-- `mn_now` is set. -/
  | now (t : T)
  | timersReify
  | reschedule (adjust : T)
  | queueListed (k : Listed)
  /-- A turn of `ev_invoke_pending`, for a priority. -/
  | invoke (pri : Int)

/-- What comes of it. -/
inductive Answer
  | done
  | events (events : Events)
  | called (w : Option W) (events : Events)
deriving DecidableEq

/-- **What a program sees of a loop**, and what was done to its descriptors. -/
@[ext]
structure View (T : Type v) where
  running : W → Prop
  owed : W → Option Events
  priority : W → Int
  at_ : Nat → T
  repeat_ : Nat → T
  now : T
  fd : Nat → Int
  events : Nat → Events
  /-- The watchers of the descriptor were changed since the loop waited last. -/
  changed : Int → Prop
  /-- The descriptor was closed since the watcher was set. -/
  stale : Nat → Bool

namespace View

variable {T : Type v}

section After

/-- A priority that there is an array for. -/
def clamp (pri : Int) : Int := min EV_MAXPRI (max EV_MINPRI pri)

/-- There is an array for the priority of a watcher. -/
def Ranked (s : View T) (w : W) : Prop := EV_MINPRI ≤ s.priority w ∧ s.priority w ≤ EV_MAXPRI

open scoped Classical in
/-- A watcher is started. -/
noncomputable def start (s : View T) (w : W) : View T :=
  if s.running w then s
  else
    { s with
      running := fun w' => w' = w ∨ s.running w'
      priority := Function.update s.priority w (clamp (s.priority w)) }

/-- A watcher is stopped: it is not called any more. -/
def stop (s : View T) (w : W) : View T :=
  { s with
    running := fun w' => w' ≠ w ∧ s.running w'
    owed := Function.update s.owed w none }

/-- A watcher is given events. -/
def give (s : View T) (w : W) (revents : Events) : View T :=
  { s with owed := Function.update s.owed w (Queue.merged (s.owed w) revents) }

/-- The watchers of a descriptor change. -/
def change (s : View T) (p : Int → Prop) : View T := { s with changed := fun fd => p fd ∨ s.changed fd }

/-- A watcher is for the descriptor, and running. -/
def Watches (s : View T) (fd : Int) (a : Nat) : Prop := s.running (.io a) ∧ s.fd a = fd

open scoped Classical in
/-- The watchers of a descriptor that are for some of the events are given these. -/
noncomputable def giveFd (s : View T) (fd : Int) (revents : Events) : View T :=
  { s with
    owed := fun w =>
      match w with
      | .io a =>
        if s.Watches fd a ∧ s.events a &&& revents ≠ 0 then
          Queue.merged (s.owed (.io a)) (s.events a &&& revents)
        else s.owed (.io a)
      | w => s.owed w }

open scoped Classical in
/-- The watchers of a descriptor are stopped, and told that something is wrong. -/
noncomputable def kill (s : View T) (fd : Int) : View T :=
  { s with
    running := fun w => s.running w ∧ ∀ a, w = .io a → s.fd a ≠ fd
    owed := fun w =>
      match w with
      | .io a => if s.Watches fd a then some (EV_ERROR ||| EV_READ ||| EV_WRITE) else s.owed (.io a)
      | w => s.owed w
    changed := fun fd' => (fd' = fd ∧ ∃ a, s.Watches fd a) ∨ s.changed fd' }

variable [LinearOrder T] [Zero T] [Add T] [Sub T]

/-- A timer is running, and its time is over. -/
def Due (s : View T) (a : Nat) : Prop := s.running (.timer a) ∧ s.at_ a < s.now

open scoped Classical in
/-- A timer is stopped; `ev_at` is what was left. -/
noncomputable def stopTimer (s : View T) (a : Nat) : View T :=
  if s.running (.timer a) then
    { s.stop (.timer a) with at_ := Function.update s.at_ a (s.at_ a - s.now) }
  else s.stop (.timer a)

open scoped Classical in
/-- A timer is started; `ev_at` is what is left. -/
noncomputable def startTimer (s : View T) (a : Nat) : View T :=
  if s.running (.timer a) then s
  else { s.start (.timer a) with at_ := Function.update s.at_ a (s.at_ a + s.now) }

open scoped Classical in
/-- `ev_timer_again`. -/
noncomputable def again (s : View T) (a : Nat) : View T :=
  if s.running (.timer a) then
    if s.repeat_ a ≠ 0 then { s with at_ := Function.update s.at_ a (s.now + s.repeat_ a) }
    else s.stopTimer a
  else if s.repeat_ a ≠ 0 then { s with at_ := Function.update s.at_ a (s.repeat_ a) }.startTimer a
  else s

open scoped Classical in
/-- The timers whose time is over are given `EV_TIMEOUT`; each of them is stopped, or starts again. -/
noncomputable def expire (s : View T) : View T :=
  { s with
    running := fun w => s.running w ∧ ∀ a, w = .timer a → s.Due a → s.repeat_ a ≠ 0
    owed := fun w =>
      match w with
      | .timer a =>
        if s.Due a then
          Queue.merged (if s.repeat_ a = 0 then none else s.owed (.timer a)) EV_TIMEOUT
        else s.owed (.timer a)
      | w => s.owed w
    at_ := fun a =>
      if s.Due a then if s.repeat_ a ≠ 0 then max s.now (s.at_ a + s.repeat_ a) else s.at_ a - s.now
      else s.at_ a }

open scoped Classical in
/-- **What comes of a call.** -/
noncomputable def after (s : View T) : Call T → Answer → View T
  | .setPriority w pri, _ => { s with priority := Function.update s.priority w pri }
  | .ioSet a fd events, _ =>
    { s with
      fd := Function.update s.fd a fd
      events := Function.update s.events a (mask events)
      stale := Function.update s.stale a false }
  | .ioStart a, _ => if s.running (.io a) then s else (s.start (.io a)).change (· = s.fd a)
  | .ioStop a, _ => if s.running (.io a) then (s.stop (.io a)).change (· = s.fd a) else s.stop (.io a)
  | .timerSet a at_ repeat_, _ =>
    { s with at_ := Function.update s.at_ a at_, repeat_ := Function.update s.repeat_ a repeat_ }
  | .timerRepeat a repeat_, _ => { s with repeat_ := Function.update s.repeat_ a repeat_ }
  | .timerStart a, _ => s.startTimer a
  | .timerStop a, _ => s.stopTimer a
  | .timerAgain a, _ => s.again a
  | .listStart k a, _ => s.start (.listed k a)
  | .listStop k a, _ => s.stop (.listed k a)
  | .feed w revents, _ => s.give w revents
  | .feedFd fd revents, _ => s.giveFd fd revents
  | .clear w, _ => { s with owed := Function.update s.owed w none }
  | .ref, _ => s
  | .unref, _ => s
  | .closed fd, _ => { s with stale := fun a => s.stale a || decide (s.fd a = fd) }
  | .fork, _ => s.change fun fd => ∃ a, s.Watches fd a ∧ s.events a ≠ 0
  | .fdReify, _ => { s with changed := fun _ => False }
  -- what the kernel says of a descriptor whose watchers have changed is too old
  | .fdEvent fd revents, _ => if s.changed fd then s else s.giveFd fd revents
  | .fdKill fd, _ => s.kill fd
  | .now t, _ => { s with now := t }
  | .timersReify, _ => s.expire
  | .reschedule adjust, _ =>
    { s with at_ := fun a => if s.running (.timer a) then s.at_ a + adjust else s.at_ a }
  | .queueListed k, _ =>
    { s with
      owed := fun w =>
        match w with
        | .listed k' a =>
          if k' = k ∧ s.running (.listed k a) then Queue.merged (s.owed (.listed k' a)) k.type
          else s.owed (.listed k' a)
        | w => s.owed w }
  | .invoke _, .called (some w) _ => { s with owed := Function.update s.owed w none }
  | .invoke _, _ => s

/-- **The answers that there may be.** -/
def Answers (s : View T) : Call T → Answer → Prop
  | .clear w, .events events => events = (s.owed w).getD 0
  | .invoke pri, .called (some w) events => s.owed w = some events ∧ s.priority w - EV_MINPRI = pri
  | .invoke _, .called none _ => True
  | .invoke pri, .done => ∀ w, s.priority w - EV_MINPRI = pri → s.owed w = none
  | .invoke _, _ => False
  | .clear _, _ => False
  | _, .done => True
  | _, _ => False

/-- **What a program has to keep to.** -/
def Contract (s : View T) : Call T → Prop
  | .setPriority w _ => ¬ s.running w ∧ s.owed w = none
  | .ioSet a _ _ => ¬ s.running (.io a)
  | .ioStart a =>
    ¬ s.running (.io a) → 0 ≤ s.fd a ∧ s.events a &&& ~~~(EV_READ ||| EV_WRITE) = 0 ∧ s.stale a = false
  | .timerSet a _ _ => ¬ s.running (.timer a)
  | .timerRepeat a repeat_ => s.running (.timer a) → 0 ≤ repeat_
  | .timerStart a => ¬ s.running (.timer a) → 0 ≤ s.repeat_ a
  | .timerAgain a => ¬ s.running (.timer a) → 0 ≤ s.repeat_ a
  | .feed w _ => s.Ranked w
  | .closed fd => ∀ a, ¬ s.Watches fd a
  | _ => True

end After

end View

end CodeSLoop.Ev
