import CodeSLoop.Lib.Run
import Mathlib.Logic.Function.Basic

/-!
# Waking a loop up (`common/libev/ev.c`)

A signal handler, or another thread with `ev_async_send`, marks a watcher and then rings (`evpipe_write`): unless the
flag of its kind is up already, it raises the flag and writes to the pipe. The loop (`pipecb`) reads from the pipe,
lowers each flag that is up, and only then looks for the watchers that are marked.

Any number of senders are on their way at the same time, and each reads or writes one word at a time; what they do
is seen by all in one order. Nothing is lost (`nobody_forgotten`): as long as a watcher that was marked was not
fed, the pipe is not empty, or a sender is on its way, or the loop is looking. This is so after a fork, too, where
the senders and the pipe are gone: `loop_fork` raises the flags and then looks. And from wherever they are, the
senders and the loop can go on so that the watcher is fed (`fed_in_the_end`).
-/

namespace CodeSLoop.Ev

universe u

/-- `sig_pending`, and `async_pending`. -/
inductive Ring
  | sig
  | async
deriving DecidableEq, Repr

/-- Where a sender is. -/
inductive Sender
  | idle
  /-- The watcher is marked; the flag is read next. -/
  | marked (k : Ring) (i : Nat)
  /-- The flag was down; it is raised next. -/
  | raising (k : Ring) (i : Nat)
  /-- The flag is up; the pipe is written to next. -/
  | writing (k : Ring) (i : Nat)
deriving DecidableEq, Repr

/-- Where the loop is: in `pipecb` when it has read from the pipe, or in `loop_fork`. -/
inductive Receiver
  | away
  /-- The flags that are still to be read. -/
  | check (ks : List Ring)
  | lower (k : Ring) (ks : List Ring)
  /-- The watchers that are still to be looked at, and the flags after them. -/
  | scan (k : Ring) (is : List Nat) (ks : List Ring)
  | take (k : Ring) (i : Nat) (is : List Nat) (ks : List Ring)
  | feed (k : Ring) (i : Nat) (is : List Nat) (ks : List Ring)
  /-- The flags that `loop_fork` still has to raise. -/
  | lock (ks : List Ring)
deriving DecidableEq, Repr

/-- What the senders `ι` and the loop share. `asked` says who was marked and not fed since. -/
structure Bell (ι : Type u) where
  flag : Ring → Bool
  sent : Ring → Nat → Bool
  asked : Ring → Nat → Bool
  pipe : Nat
  sender : ι → Sender
  receiver : Receiver

/-- One access to what is shared. -/
inductive Access (ι : Type u)
  /-- `w->sent = 1`, or `signals [signum].pending = 1`. -/
  | mark (s : ι) (k : Ring) (i : Nat)
  /-- The next one of `evpipe_write`; `full` says that there is no room in the pipe. -/
  | ring (s : ι) (full : Bool)
  /-- `pipecb` is called, and reads from the pipe, or all that an eventfd has. -/
  | read (all : Bool)
  /-- The next one of the loop. -/
  | go
  /-- `loop_fork` is called, in a process that has one thread. -/
  | fork

namespace Bell

variable {ι : Type u} [DecidableEq ι]

/-- A value of one of a family is set. -/
def set (f : Ring → Nat → Bool) (k : Ring) (i : Nat) (b : Bool) : Ring → Nat → Bool :=
  Function.update f k (Function.update (f k) i b)

/-- The order in which `pipecb` and `loop_fork` deal with the flags. -/
def rings : List Ring := [.sig, .async]

/-- A step of a sender in `evpipe_write`. -/
def ring (b : Bell ι) (s : ι) (full : Bool) : Option (Bell ι) :=
  match b.sender s with
  | .idle => none
  | .marked k i =>
    some { b with sender := Function.update b.sender s (if b.flag k then .idle else .raising k i) }
  | .raising k i =>
    some { b with
      flag := Function.update b.flag k true
      sender := Function.update b.sender s (.writing k i) }
  | .writing _ _ =>
    -- a pipe that is full is not empty
    if full ∧ b.pipe = 0 then none
    else
      some { b with
        pipe := if full then b.pipe else b.pipe + 1
        sender := Function.update b.sender s .idle }

/-- A step of the loop; `watched` are the signals, and the watchers in `asyncs`. -/
def go (watched : Ring → List Nat) (b : Bell ι) : Option (Bell ι) :=
  match b.receiver with
  | .away => none
  | .check [] => some { b with receiver := .away }
  | .check (k :: ks) => some { b with receiver := if b.flag k then .lower k ks else .check ks }
  | .lower k ks => some { b with flag := Function.update b.flag k false, receiver := .scan k (watched k) ks }
  | .scan _ [] ks => some { b with receiver := .check ks }
  | .scan k (i :: is) ks => some { b with receiver := if b.sent k i then .take k i is ks else .scan k is ks }
  | .take k i is ks => some { b with sent := set b.sent k i false, receiver := .feed k i is ks }
  | .feed k i is ks => some { b with asked := set b.asked k i false, receiver := .scan k is ks }
  -- there is a new pipe, and `pipecb` is called
  | .lock [] => some { b with pipe := 0, receiver := .check rings }
  | .lock (k :: ks) => some { b with flag := Function.update b.flag k true, receiver := .lock ks }

/-- **The state after an access.** -/
def step (watched : Ring → List Nat) (b : Bell ι) : Access ι → Option (Bell ι)
  | .mark s k i =>
    if b.sender s = .idle then
      some { b with
        sent := set b.sent k i true
        asked := set b.asked k i true
        sender := Function.update b.sender s (.marked k i) }
    else none
  | .ring s full => b.ring s full
  | .read all =>
    if b.receiver = .away then
      some { b with
        pipe := if all then 0 else b.pipe - 1
        receiver := .check rings }
    else none
  | .go => b.go watched
  | .fork =>
    if b.receiver = .away then
      some { b with
        sender := fun _ => .idle
        receiver := .lock rings }
    else none

end Bell

/-! ## Nothing is lost -/

/-- The sender is going to raise the flag, unless it finds it up. -/
def Sender.Rings (k : Ring) : Sender → Prop
  | .marked k' _ => k' = k
  | .raising k' _ => k' = k
  | _ => False

/-- The sender is going to write to the pipe. -/
def Sender.Writes (k : Ring) : Sender → Prop
  | .writing k' _ => k' = k
  | _ => False

/-- The loop is going to read the flag. -/
def Receiver.Reads (k : Ring) : Receiver → Prop
  | .away => False
  | .check ks => k ∈ ks
  | .lower k' ks => k' = k ∨ k ∈ ks
  | .scan _ _ ks => k ∈ ks
  | .take _ _ _ ks => k ∈ ks
  | .feed _ _ _ ks => k ∈ ks
  | .lock _ => True

/-- The loop is going to look at the watcher, or to raise its flag. -/
def Receiver.Looks (k : Ring) (i : Nat) : Receiver → Prop
  | .scan k' is _ => k' = k ∧ i ∈ is
  | .take k' j is _ => k' = k ∧ (j = i ∨ i ∈ is)
  | .feed k' _ is _ => k' = k ∧ i ∈ is
  | .lock ks => k ∈ ks
  | _ => False

/-- The loop has found the watcher, and is going to feed it. -/
def Receiver.Feeds (k : Ring) (i : Nat) : Receiver → Prop
  | .feed k' j _ _ => k' = k ∧ j = i
  | _ => False

namespace Bell

variable {ι : Type u} {b b' : Bell ι} {watched : Ring → List Nat} {k : Ring} {i : Nat} {s : ι}

/-- **Somebody knows**: of a flag that is up, of a watcher that is marked, and of one that was not fed. -/
structure Ok (watched : Ring → List Nat) (b : Bell ι) : Prop where
  rung : ∀ k, b.flag k = true → 0 < b.pipe ∨ (∃ s, (b.sender s).Writes k) ∨ b.receiver.Reads k
  found : ∀ k, ∀ i ∈ watched k, b.sent k i = true →
    b.flag k = true ∨ (∃ s, (b.sender s).Rings k) ∨ b.receiver.Looks k i
  fed : ∀ k i, b.asked k i = true → b.sent k i = true ∨ b.receiver.Feeds k i

/-- Nothing has happened yet. -/
def quiet : Bell ι where
  flag := fun _ => false
  sent := fun _ _ => false
  asked := fun _ _ => false
  pipe := 0
  sender := fun _ => .idle
  receiver := .away

theorem ok_quiet (watched : Ring → List Nat) : (quiet : Bell ι).Ok watched := by
  refine ⟨fun k h => ?_, fun k i _ h => ?_, fun k i h => ?_⟩
  all_goals simp [quiet] at h

theorem set_self (f : Ring → Nat → Bool) (k : Ring) (i : Nat) (v : Bool) : set f k i v k i = v := by
  simp [set]

theorem set_of_ne (f : Ring → Nat → Bool) {k k' : Ring} {i i' : Nat} (v : Bool) (h : ¬ (k' = k ∧ i' = i)) :
    set f k i v k' i' = f k' i' := by
  by_cases hk : k' = k
  · subst hk
    have hi : i' ≠ i := fun heq => h ⟨rfl, heq⟩
    simp [set, hi]
  · simp [set, hk]

/-- What is up still was not taken down. -/
theorem up_of_update {f : Ring → Bool} {k k' : Ring} (h : Function.update f k false k' = true) :
    k' ≠ k ∧ f k' = true := by
  by_cases hk : k' = k
  · simp [hk] at h
  · exact ⟨hk, (Function.update_of_ne hk _ _).symm.trans h⟩

theorem up_of_set {f : Ring → Nat → Bool} {k k' : Ring} {i i' : Nat} (h : set f k i false k' i' = true) :
    ¬ (k' = k ∧ i' = i) ∧ f k' i' = true := by
  by_cases hsame : k' = k ∧ i' = i
  · obtain ⟨rfl, rfl⟩ := hsame
    rw [set_self] at h
    cases h
  · exact ⟨hsame, (set_of_ne _ _ hsame).symm.trans h⟩

theorem mem_rings (k : Ring) : k ∈ rings := by
  cases k <;> simp [rings]

/-! ### The loop -/

/-- The loop is somewhere else, and nothing else is changed. -/
theorem Ok.moves (h : b.Ok watched) {r : Receiver}
    (hreads : ∀ k, b.flag k = true → b.receiver.Reads k → r.Reads k)
    (hlooks : ∀ k i, b.sent k i = true → b.receiver.Looks k i → b.flag k = true ∨ r.Looks k i)
    (hfeeds : ∀ k i, b.receiver.Feeds k i → r.Feeds k i) : Ok watched { b with receiver := r } := by
  refine ⟨fun k hflag => ?_, fun k i hi hsent => ?_, fun k i hasked => ?_⟩
  · exact (h.rung k hflag).imp id (Or.imp id (hreads k hflag))
  · rcases h.found k i hi hsent with hup | hring | hlook
    · exact Or.inl hup
    · exact Or.inr (Or.inl hring)
    · exact (hlooks k i hsent hlook).imp id Or.inr
  · exact (h.fed k i hasked).imp id (hfeeds k i)

/-- The flag is read: if it is down, there is nothing to look for. -/
theorem Ok.check {ks : List Ring} (h : b.Ok watched) (hr : b.receiver = .check (k :: ks)) :
    Ok watched { b with receiver := if b.flag k then .lower k ks else .check ks } := by
  refine h.moves (fun k' hflag hreads => ?_) (fun k' i' _ hlook => ?_) (fun k' i' hfeed => ?_)
  · rw [hr] at hreads
    rcases List.mem_cons.mp hreads with rfl | hmem
    · rw [if_pos hflag]
      exact Or.inl rfl
    · split
      · exact Or.inr hmem
      · exact hmem
  · rw [hr] at hlook
    exact hlook.elim
  · rw [hr] at hfeed
    exact hfeed.elim

/-- **The flag is lowered**: all watchers are going to be looked at. -/
theorem Ok.lower {ks : List Ring} (h : b.Ok watched) (hr : b.receiver = .lower k ks) :
    Ok watched { b with flag := Function.update b.flag k false, receiver := .scan k (watched k) ks } := by
  refine ⟨fun k' hflag => ?_, fun k' i' hi' hsent => ?_, fun k' i' hasked => ?_⟩
  · obtain ⟨hne, hflag'⟩ := up_of_update hflag
    refine (h.rung k' hflag').imp id (Or.imp id fun hreads => ?_)
    rw [hr] at hreads
    exact hreads.resolve_left (Ne.symm hne)
  · by_cases hk : k' = k
    · subst hk
      exact Or.inr (Or.inr ⟨rfl, hi'⟩)
    · rcases h.found k' i' hi' hsent with hup | hring | hlook
      · exact Or.inl ((Function.update_of_ne hk _ _).trans hup)
      · exact Or.inr (Or.inl hring)
      · rw [hr] at hlook
        exact hlook.elim
  · refine (h.fed k' i' hasked).imp id fun hfeed => ?_
    rw [hr] at hfeed
    exact hfeed.elim

/-- A watcher is looked at. -/
theorem Ok.scan {is : List Nat} {ks : List Ring} (h : b.Ok watched) (hr : b.receiver = .scan k (i :: is) ks) :
    Ok watched { b with receiver := if b.sent k i then .take k i is ks else .scan k is ks } := by
  refine h.moves (fun k' _ hreads => ?_) (fun k' i' hsent hlook => Or.inr ?_) (fun k' i' hfeed => ?_)
  · rw [hr] at hreads
    split <;> exact hreads
  · rw [hr] at hlook
    obtain ⟨rfl, hmem⟩ := hlook
    rcases List.mem_cons.mp hmem with rfl | hmem'
    · rw [if_pos hsent]
      exact ⟨rfl, Or.inl rfl⟩
    · split
      · exact ⟨rfl, Or.inr hmem'⟩
      · exact ⟨rfl, hmem'⟩
  · rw [hr] at hfeed
    exact hfeed.elim

/-- The mark is taken, and the watcher is going to be fed. -/
theorem Ok.take {is : List Nat} {ks : List Ring} (h : b.Ok watched) (hr : b.receiver = .take k i is ks) :
    Ok watched { b with sent := set b.sent k i false, receiver := .feed k i is ks } := by
  refine ⟨fun k' hflag => ?_, fun k' i' hi' hsent => ?_, fun k' i' hasked => ?_⟩
  · refine (h.rung k' hflag).imp id (Or.imp id fun hreads => ?_)
    rwa [hr] at hreads
  · obtain ⟨hother, hsent'⟩ := up_of_set hsent
    refine (h.found k' i' hi' hsent').imp id (Or.imp id fun hlook => ?_)
    rw [hr] at hlook
    obtain ⟨rfl, hmem⟩ := hlook
    exact ⟨rfl, hmem.resolve_left fun heq => hother ⟨rfl, heq.symm⟩⟩
  · by_cases hsame : k' = k ∧ i' = i
    · exact Or.inr ⟨hsame.1.symm, hsame.2.symm⟩
    · refine (h.fed k' i' hasked).imp (fun hsent => ?_) fun hfeed => ?_
      · exact (set_of_ne _ _ hsame).trans hsent
      · rw [hr] at hfeed
        exact hfeed.elim

/-- The watcher is fed. -/
theorem Ok.feed {is : List Nat} {ks : List Ring} (h : b.Ok watched) (hr : b.receiver = .feed k i is ks) :
    Ok watched { b with asked := set b.asked k i false, receiver := .scan k is ks } := by
  refine ⟨fun k' hflag => ?_, fun k' i' hi' hsent => ?_, fun k' i' hasked => Or.inl ?_⟩
  · refine (h.rung k' hflag).imp id (Or.imp id fun hreads => ?_)
    rwa [hr] at hreads
  · refine (h.found k' i' hi' hsent).imp id (Or.imp id fun hlook => ?_)
    rwa [hr] at hlook
  · obtain ⟨hother, hasked'⟩ := up_of_set hasked
    refine (h.fed k' i' hasked').resolve_right fun hfeed => hother ?_
    rw [hr] at hfeed
    exact ⟨hfeed.1.symm, hfeed.2.symm⟩

/-- The flag is raised, so that nobody writes to the pipe. -/
theorem Ok.lock {ks : List Ring} (h : b.Ok watched) (hr : b.receiver = .lock (k :: ks)) :
    Ok watched { b with flag := Function.update b.flag k true, receiver := .lock ks } := by
  refine ⟨fun _ _ => Or.inr (Or.inr trivial), fun k' i' hi' hsent => ?_, fun k' i' hasked => ?_⟩
  · by_cases hk : k' = k
    · exact Or.inl (by rw [hk]; exact Function.update_self _ _ _)
    · rcases h.found k' i' hi' hsent with hup | hring | hlook
      · exact Or.inl ((Function.update_of_ne hk _ _).trans hup)
      · exact Or.inr (Or.inl hring)
      · rw [hr] at hlook
        exact Or.inr (Or.inr ((List.mem_cons.mp hlook).resolve_left hk))
  · refine (h.fed k' i' hasked).imp id fun hfeed => ?_
    rw [hr] at hfeed
    exact hfeed.elim

/-- **The loop goes on.** -/
theorem Ok.go (h : b.Ok watched) (heq : b.go watched = some b') : b'.Ok watched := by
  unfold Bell.go at heq
  split at heq
  all_goals rename_i hr
  · cases heq
  · obtain rfl := Option.some.inj heq
    refine h.moves (fun k _ hreads => ?_) (fun k i _ hlook => ?_) (fun k i hfeed => ?_)
    · rw [hr] at hreads
      cases hreads
    · rw [hr] at hlook
      exact hlook.elim
    · rw [hr] at hfeed
      exact hfeed.elim
  · obtain rfl := Option.some.inj heq
    exact h.check hr
  · obtain rfl := Option.some.inj heq
    exact h.lower hr
  · obtain rfl := Option.some.inj heq
    refine h.moves (fun k _ hreads => ?_) (fun k i _ hlook => ?_) (fun k i hfeed => ?_)
    · rwa [hr] at hreads
    · rw [hr] at hlook
      cases hlook.2
    · rw [hr] at hfeed
      exact hfeed.elim
  · obtain rfl := Option.some.inj heq
    exact h.scan hr
  · obtain rfl := Option.some.inj heq
    exact h.take hr
  · obtain rfl := Option.some.inj heq
    exact h.feed hr
  · -- the pipe is new, but every flag is going to be read
    obtain rfl := Option.some.inj heq
    refine ⟨fun k _ => Or.inr (Or.inr (mem_rings k)), fun k i hi hsent => ?_, fun k i hasked => ?_⟩
    · refine (h.found k i hi hsent).imp id (Or.imp id fun hlook => ?_)
      rw [hr] at hlook
      cases hlook
    · refine (h.fed k i hasked).imp id fun hfeed => ?_
      rw [hr] at hfeed
      exact hfeed.elim
  · obtain rfl := Option.some.inj heq
    exact h.lock hr

/-! ### The senders -/

variable [DecidableEq ι]

/-- What another sender is going to do is not changed. -/
theorem exists_other {p : Sender → Prop} {f : ι → Sender} {x : Sender} (hs : ¬ p (f s)) (h : ∃ s', p (f s')) :
    ∃ s', p (Function.update f s x s') := by
  obtain ⟨s', hs'⟩ := h
  have hne : s' ≠ s := by
    rintro rfl
    exact hs hs'
  exact ⟨s', by rwa [Function.update_of_ne hne]⟩

theorem exists_self {p : Sender → Prop} {f : ι → Sender} {x : Sender} (hx : p x) :
    ∃ s', p (Function.update f s x s') :=
  ⟨s, by rwa [Function.update_self]⟩

/-- **A watcher is marked.** -/
theorem Ok.mark (h : b.Ok watched) (hs : b.sender s = .idle) (k : Ring) (i : Nat) :
    Ok watched { b with
      sent := set b.sent k i true
      asked := set b.asked k i true
      sender := Function.update b.sender s (.marked k i) } := by
  refine ⟨fun k' hflag => ?_, fun k' i' hi' hsent => ?_, fun k' i' hasked => ?_⟩
  · exact (h.rung k' hflag).imp id (Or.imp (exists_other (by rw [hs]; exact id)) id)
  · by_cases hsame : k' = k ∧ i' = i
    · exact Or.inr (Or.inl (exists_self hsame.1.symm))
    · have hsent' : b.sent k' i' = true := (set_of_ne _ _ hsame).symm.trans hsent
      exact (h.found k' i' hi' hsent').imp id (Or.imp (exists_other (by rw [hs]; exact id)) id)
  · by_cases hsame : k' = k ∧ i' = i
    · obtain ⟨rfl, rfl⟩ := hsame
      exact Or.inl (set_self _ _ _ _)
    · have hasked' : b.asked k' i' = true := (set_of_ne _ _ hsame).symm.trans hasked
      exact (h.fed k' i' hasked').imp (fun hsent => (set_of_ne _ _ hsame).trans hsent) id

/-- **A sender goes on.** -/
theorem Ok.ring (h : b.Ok watched) {full : Bool} (heq : b.ring s full = some b') : b'.Ok watched := by
  unfold Bell.ring at heq
  split at heq
  · cases heq
  · -- the flag is read
    rename_i k i hs
    obtain rfl := Option.some.inj heq
    refine ⟨fun k' hflag => ?_, fun k' i' hi' hsent => ?_, h.fed⟩
    · exact (h.rung k' hflag).imp id (Or.imp (exists_other (by rw [hs]; exact id)) id)
    · rcases h.found k' i' hi' hsent with hup | hring | hlook
      · exact Or.inl hup
      · by_cases hflag : b.flag k' = true
        · exact Or.inl hflag
        · by_cases hk : k = k'
          · subst hk
            refine Or.inr (Or.inl (exists_self ?_))
            rw [if_neg hflag]
            exact rfl
          · exact Or.inr (Or.inl (exists_other (by rw [hs]; exact hk) hring))
      · exact Or.inr (Or.inr hlook)
  · -- the flag is raised
    rename_i k i hs
    obtain rfl := Option.some.inj heq
    refine ⟨fun k' hflag => ?_, fun k' i' hi' hsent => ?_, h.fed⟩
    · by_cases hk : k' = k
      · exact Or.inr (Or.inl (exists_self hk.symm))
      · have hflag' : b.flag k' = true := by simpa [hk] using hflag
        exact (h.rung k' hflag').imp id (Or.imp (exists_other (by rw [hs]; exact id)) id)
    · by_cases hk : k' = k
      · exact Or.inl (by rw [hk]; exact Function.update_self _ _ _)
      · rcases h.found k' i' hi' hsent with hup | hring | hlook
        · exact Or.inl ((Function.update_of_ne hk _ _).trans hup)
        · exact Or.inr (Or.inl (exists_other (by rw [hs]; exact Ne.symm hk) hring))
        · exact Or.inr (Or.inr hlook)
  · -- the pipe is written to
    rename_i k i hs
    split at heq
    · cases heq
    · rename_i hroom
      obtain rfl := Option.some.inj heq
      refine ⟨fun k' _ => Or.inl ?_, fun k' i' hi' hsent => ?_, h.fed⟩
      · cases full with
        | true =>
          have hne : b.pipe ≠ 0 := fun hzero => hroom ⟨rfl, hzero⟩
          exact Nat.pos_of_ne_zero hne
        | false => exact Nat.succ_pos _
      · exact (h.found k' i' hi' hsent).imp id (Or.imp (exists_other (by rw [hs]; exact id)) id)

/-! ### Runs -/

/-- **Nothing is lost** by a step. -/
theorem Ok.step (h : b.Ok watched) {x : Access ι} (heq : b.step watched x = some b') : b'.Ok watched := by
  cases x with
  | mark s k i =>
    rw [Bell.step] at heq
    split at heq
    · obtain rfl := Option.some.inj heq
      exact h.mark ‹_› k i
    · cases heq
  | ring s full => exact h.ring heq
  | go => exact h.go heq
  | read all =>
    rw [Bell.step] at heq
    split at heq
    · rename_i hr
      obtain rfl := Option.some.inj heq
      refine ⟨fun k _ => Or.inr (Or.inr (mem_rings k)), fun k i hi hsent => ?_, fun k i hasked => ?_⟩
      · refine (h.found k i hi hsent).imp id (Or.imp id fun hlook => ?_)
        rw [hr] at hlook
        exact hlook.elim
      · refine (h.fed k i hasked).imp id fun hfeed => ?_
        rw [hr] at hfeed
        exact hfeed.elim
    · cases heq
  | fork =>
    rw [Bell.step] at heq
    split at heq
    · rename_i hr
      obtain rfl := Option.some.inj heq
      refine ⟨fun k _ => Or.inr (Or.inr trivial), fun k i _ _ => Or.inr (Or.inr (mem_rings k)), fun k i hasked => ?_⟩
      refine (h.fed k i hasked).imp id fun hfeed => ?_
      rw [hr] at hfeed
      exact hfeed.elim
    · cases heq

theorem ok_last {tr : List (Access ι × Bell ι)}
    (h : Lts.Run (fun b x b' => b.step watched x = some b') (quiet : Bell ι) tr) : (Lts.last quiet tr).Ok watched :=
  h.last_of_inv (I := Ok watched) (fun _ _ _ hb heq => hb.step heq) (ok_quiet watched)

/-- **Nobody is forgotten**: while a watcher that was marked was not fed, there is something in the pipe, or a sender
    is on its way, or the loop is looking. -/
theorem nobody_forgotten {tr : List (Access ι × Bell ι)}
    (h : Lts.Run (fun b x b' => b.step watched x = some b') (quiet : Bell ι) tr) {k : Ring} {i : Nat}
    (hi : i ∈ watched k) (hasked : (Lts.last quiet tr).asked k i = true) :
    0 < (Lts.last quiet tr).pipe ∨ (∃ s, (Lts.last quiet tr).sender s ≠ .idle) ∨
      (Lts.last quiet tr).receiver ≠ .away := by
  have hok := ok_last h
  generalize Lts.last quiet tr = b at hok hasked
  by_contra hno
  push Not at hno
  obtain ⟨hpipe, hidle, haway⟩ := hno
  have hsent : b.sent k i = true := by
    refine (hok.fed k i hasked).resolve_right fun hfeed => ?_
    rw [haway] at hfeed
    exact hfeed
  have hflag : b.flag k = true := by
    refine (hok.found k i hi hsent).resolve_right ?_
    rintro (⟨s, hs⟩ | hlook)
    · rw [hidle s] at hs
      exact hs
    · rw [haway] at hlook
      exact hlook
  rcases hok.rung k hflag with hpos | ⟨s, hs⟩ | hread
  · omega
  · rw [hidle s] at hs
    exact hs
  · rw [haway] at hread
    exact hread

/-- A sender that finds the flag up does not write, and the one that raised it has not written yet. -/
theorem nobody_forgotten_two :
    ∃ tr, Lts.Run (fun b x b' => b.step (fun _ => [0]) x = some b') (quiet : Bell Bool) tr ∧
      tr.map Prod.fst = [.mark false .async 0, .ring false false, .ring false false, .mark true .async 0,
        .ring true false] ∧
      (Lts.last quiet tr).pipe = 0 ∧ ∃ s, (Lts.last quiet tr).sender s ≠ .idle := by
  have hrun : Lts.Run (fun b x b' => b.step (fun _ => [0]) x = some b') (quiet : Bell Bool)
      [(.mark false .async 0, _), (.ring false false, _), (.ring false false, _), (.mark true .async 0, _),
        (.ring true false, _)] :=
    .cons rfl (.cons rfl (.cons rfl (.cons rfl (.cons rfl (.nil _)))))
  refine ⟨_, hrun, rfl, rfl, ?_⟩
  rcases nobody_forgotten (k := .async) hrun (List.mem_singleton_self 0) rfl with hpipe | hsender | hreceiver
  · exact absurd hpipe (Nat.lt_irrefl 0)
  · exact hsender
  · exact absurd rfl hreceiver

end Bell

/-! ## Nobody waits for ever -/

/-- What the loop still has to do, for the flags that it is going to read. -/
def Receiver.cost (watched : Ring → List Nat) : List Ring → Nat
  | [] => 1
  | k :: ks => 3 + 3 * (watched k).length + cost watched ks

/-- What the loop still has to do until it is away. -/
def Receiver.left (watched : Ring → List Nat) : Receiver → Nat
  | .away => 0
  | .check ks => cost watched ks
  | .lower k ks => 2 + 3 * (watched k).length + cost watched ks
  | .scan _ is ks => 1 + 3 * is.length + cost watched ks
  | .take _ _ is ks => 3 + 3 * is.length + cost watched ks
  | .feed _ _ is ks => 2 + 3 * is.length + cost watched ks
  | .lock ks => 1 + ks.length + cost watched Bell.rings

namespace Bell

variable {ι : Type u} {b b' : Bell ι} {watched : Ring → List Nat} {k : Ring} {i : Nat} {s : ι}

/-- The loop comes nearer to its end with every step. -/
theorem exists_go (watched : Ring → List Nat) (h : b.receiver ≠ .away) :
    ∃ b', b.go watched = some b' ∧ b'.receiver.left watched < b.receiver.left watched := by
  unfold Bell.go
  split
  all_goals rename_i hr
  · exact absurd hr h
  all_goals refine ⟨_, rfl, ?_⟩
  all_goals rw [hr]
  case h_2 => exact Nat.one_pos
  case h_3 k ks =>
    dsimp only
    split
    all_goals simp only [Receiver.left, Receiver.cost]
    all_goals omega
  case h_6 k i is ks =>
    dsimp only
    split
    all_goals simp only [Receiver.left, List.length_cons]
    all_goals omega
  all_goals simp only [Receiver.left, List.length_cons, List.length_nil]
  all_goals omega

/-- The loop is going to feed the watcher, if it was not fed since it was marked. -/
def Will (k : Ring) (i : Nat) (b : Bell ι) : Prop :=
  b.asked k i = true → b.flag k = true ∧ b.receiver.Reads k ∨ b.receiver.Looks k i ∨ b.receiver.Feeds k i

theorem Ok.will_go (h : b.Ok watched) (hi : i ∈ watched k) (hw : b.Will k i) (heq : b.go watched = some b') :
    b'.Will k i := by
  have hfed := h.fed k i
  unfold Will at hw ⊢
  unfold Bell.go at heq
  split at heq
  all_goals rename_i hr
  all_goals rw [hr] at hw hfed
  case h_1 => cases heq
  all_goals obtain rfl := Option.some.inj heq
  all_goals intro hasked
  case h_2 =>
    rcases hw hasked with ⟨-, hreads⟩ | hlook | hfeed
    · cases hreads
    · exact hlook.elim
    · exact hfeed.elim
  case h_3 k' ks =>
    rcases hw hasked with ⟨hflag, hreads⟩ | hlook | hfeed
    · refine Or.inl ⟨hflag, ?_⟩
      rcases List.mem_cons.mp hreads with rfl | hmem
      · rw [if_pos hflag]
        exact Or.inl rfl
      · split
        · exact Or.inr hmem
        · exact hmem
    · exact hlook.elim
    · exact hfeed.elim
  case h_4 k' ks =>
    rcases hw hasked with ⟨hflag, hreads⟩ | hlook | hfeed
    · by_cases hk : k' = k
      · subst hk
        exact Or.inr (Or.inl ⟨rfl, hi⟩)
      · exact Or.inl ⟨(Function.update_of_ne (Ne.symm hk) _ _).trans hflag, hreads.resolve_left hk⟩
    · exact hlook.elim
    · exact hfeed.elim
  case h_5 k' ks =>
    rcases hw hasked with hreads | hlook | hfeed
    · exact Or.inl hreads
    · cases hlook.2
    · exact hfeed.elim
  case h_6 k' j is ks =>
    rcases hw hasked with ⟨hflag, hreads⟩ | ⟨rfl, hmem⟩ | hfeed
    · refine Or.inl ⟨hflag, ?_⟩
      split <;> exact hreads
    · refine Or.inr (Or.inl ?_)
      rcases List.mem_cons.mp hmem with rfl | hmem'
      · -- the mark is still there
        rw [if_pos ((hfed hasked).resolve_right id)]
        exact ⟨rfl, Or.inl rfl⟩
      · split
        · exact ⟨rfl, Or.inr hmem'⟩
        · exact ⟨rfl, hmem'⟩
    · exact hfeed.elim
  case h_7 k' j is ks =>
    rcases hw hasked with hreads | ⟨hk, hsame | hmem⟩ | hfeed
    · exact Or.inl hreads
    · exact Or.inr (Or.inr ⟨hk, hsame⟩)
    · exact Or.inr (Or.inl ⟨hk, hmem⟩)
    · exact hfeed.elim
  case h_8 k' j is ks =>
    obtain ⟨hother, hasked'⟩ := up_of_set hasked
    rcases hw hasked' with hreads | hlook | hfeed
    · exact Or.inl hreads
    · exact Or.inr (Or.inl hlook)
    · exact absurd ⟨hfeed.1.symm, hfeed.2.symm⟩ hother
  case h_9 =>
    rcases hw hasked with ⟨hflag, -⟩ | hlook | hfeed
    · exact Or.inl ⟨hflag, mem_rings k⟩
    · cases hlook
    · exact hfeed.elim
  case h_10 k' ks =>
    rcases hw hasked with ⟨hflag, -⟩ | hlook | hfeed
    · refine Or.inl ⟨?_, trivial⟩
      by_cases hk : k = k'
      · rw [hk]
        exact Function.update_self _ _ _
      · exact (Function.update_of_ne hk _ _).trans hflag
    · rcases List.mem_cons.mp hlook with rfl | hmem
      · exact Or.inl ⟨Function.update_self _ _ _, trivial⟩
      · exact Or.inr (Or.inl hmem)
    · exact hfeed.elim

/-- At the end it has fed the watcher. -/
theorem Will.done (hw : b.Will k i) (hr : b.receiver = .away) : b.asked k i = false := by
  by_contra hasked
  rcases hw (Bool.not_eq_false _ ▸ hasked) with ⟨-, hreads⟩ | hlook | hfeed
  · rw [hr] at hreads
    exact hreads
  · rw [hr] at hlook
    exact hlook
  · rw [hr] at hfeed
    exact hfeed

variable [DecidableEq ι]

/-- A step that the loop and the senders take by themselves: nobody is marked, and the loop reads from the pipe when
    there is something in it. -/
def Proceeds (watched : Ring → List Nat) (b : Bell ι) (x : Access ι) (b' : Bell ι) : Prop :=
  (match x with
    | .mark _ _ _ => False
    | .ring _ _ => True
    | .read _ => 0 < b.pipe
    | .go => True
    | .fork => False) ∧ b.step watched x = some b'

/-- **The loop comes to its end**, whatever is kept until then. -/
theorem leads_away {P : Bell ι → Prop} (hP : ∀ b b', P b → b.go watched = some b' → P b') (b : Bell ι) (hb : P b) :
    ∃ b', Lts.Leads (Proceeds watched) b b' ∧ P b' ∧ b'.receiver = .away := by
  induction hn : b.receiver.left watched using Nat.strongRecOn generalizing b with
  | _ n ih =>
    by_cases hr : b.receiver = .away
    · exact ⟨b, Relation.ReflTransGen.refl, hb, hr⟩
    · obtain ⟨b1, hgo, hlt⟩ := exists_go watched hr
      obtain ⟨b', hleads, hb', hr'⟩ := ih _ (hn ▸ hlt) b1 (hP b b1 hb hgo) rfl
      exact ⟨b', .head (a := .go) ⟨trivial, hgo⟩ hleads, hb', hr'⟩

theorem Proceeds.ring (watched : Ring → List Nat) {full : Bool} (h : b.ring s full = some b') :
    Proceeds watched b (.ring s full) b' := ⟨trivial, h⟩

/-- A sender that is going to raise the flag can do so. -/
theorem Ok.leads_flag (h : b.Ok watched) (hring : ∃ s, (b.sender s).Rings k) :
    ∃ b', Lts.Leads (Proceeds watched) b b' ∧ b'.Ok watched ∧ b'.receiver = b.receiver ∧ b'.flag k = true := by
  have hraise {b1 : Bell ι} {s : ι} {j : Nat} (h1 : b1.Ok watched) (hs : b1.sender s = .raising k j) :
      ∃ b', Lts.Leads (Proceeds watched) b1 b' ∧ b'.Ok watched ∧ b'.receiver = b1.receiver ∧ b'.flag k = true := by
    have heq : b1.ring s false = some { b1 with
        flag := Function.update b1.flag k true
        sender := Function.update b1.sender s (.writing k j) } := by
      simp only [Bell.ring, hs]
    exact ⟨_, .head (.ring watched heq) Relation.ReflTransGen.refl, h1.ring heq, rfl, Function.update_self _ _ _⟩
  obtain ⟨s, hs⟩ := hring
  by_cases hflag : b.flag k = true
  · exact ⟨b, Relation.ReflTransGen.refl, h, rfl, hflag⟩
  · cases hsender : b.sender s with
    | idle =>
      rw [hsender] at hs
      exact hs.elim
    | marked k' j =>
      rw [hsender] at hs
      obtain rfl : k' = k := hs
      have heq : b.ring s false = some { b with sender := Function.update b.sender s (.raising k' j) } := by
        simp only [Bell.ring, hsender, if_neg hflag]
      obtain ⟨b', hleads, hok, hr, hup⟩ := hraise (h.ring heq) (Function.update_self _ _ _)
      exact ⟨b', .head (.ring watched heq) hleads, hok, hr, hup⟩
    | raising k' j =>
      rw [hsender] at hs
      obtain rfl : k' = k := hs
      exact hraise h hsender
    | writing k' j =>
      rw [hsender] at hs
      exact hs.elim

/-- When the flag is up and the loop is away, there is something in the pipe, or the sender can put it there. -/
theorem Ok.leads_pipe (h : b.Ok watched) (hr : b.receiver = .away) (hflag : b.flag k = true) :
    ∃ b', Lts.Leads (Proceeds watched) b b' ∧ b'.Ok watched ∧ b'.receiver = .away ∧ b'.flag k = true ∧ 0 < b'.pipe := by
  rcases h.rung k hflag with hpos | ⟨s, hs⟩ | hreads
  · exact ⟨b, Relation.ReflTransGen.refl, h, hr, hflag, hpos⟩
  · cases hsender : b.sender s with
    | writing k' j =>
      have heq : b.ring s false = some { b with
          pipe := b.pipe + 1
          sender := Function.update b.sender s .idle } := by
        simp [Bell.ring, hsender]
      exact ⟨_, .head (.ring watched heq) Relation.ReflTransGen.refl, h.ring heq, hr, hflag, Nat.succ_pos _⟩
    | idle =>
      rw [hsender] at hs
      exact hs.elim
    | marked k' j =>
      rw [hsender] at hs
      exact hs.elim
    | raising k' j =>
      rw [hsender] at hs
      exact hs.elim
  · rw [hr] at hreads
    exact hreads.elim

/-- **The loop and the senders can always go on so that a watcher that was marked is fed**: nobody has to be marked
    again for that, and the loop has to wake up only when there is something in the pipe. -/
theorem fed_in_the_end {tr : List (Access ι × Bell ι)}
    (h : Lts.Run (fun b x b' => b.step watched x = some b') (quiet : Bell ι) tr) (hi : i ∈ watched k) :
    ∃ b', Lts.Leads (Proceeds watched) (Lts.last quiet tr) b' ∧ b'.asked k i = false := by
  have hok := ok_last h
  generalize Lts.last quiet tr = b at hok
  obtain ⟨b1, hleads1, hok1, hr1⟩ := leads_away (P := Ok watched) (fun _ _ hb heq => hb.go heq) b hok
  cases hasked : b1.asked k i with
  | false => exact ⟨b1, hleads1, hasked⟩
  | true =>
    have hsent : b1.sent k i = true := by
      refine (hok1.fed k i hasked).resolve_right fun hfeed => ?_
      rw [hr1] at hfeed
      exact hfeed
    have hflag : ∃ b2, Lts.Leads (Proceeds watched) b1 b2 ∧ b2.Ok watched ∧ b2.receiver = .away ∧ b2.flag k = true := by
      rcases hok1.found k i hi hsent with hup | hring | hlook
      · exact ⟨b1, Relation.ReflTransGen.refl, hok1, hr1, hup⟩
      · obtain ⟨b2, hleads2, hok2, hr2, hup⟩ := hok1.leads_flag hring
        exact ⟨b2, hleads2, hok2, hr2.trans hr1, hup⟩
      · rw [hr1] at hlook
        exact hlook.elim
    obtain ⟨b2, hleads2, hok2, hr2, hup2⟩ := hflag
    obtain ⟨b3, hleads3, hok3, hr3, hup3, hpos⟩ := hok2.leads_pipe hr2 hup2
    -- the loop wakes up
    have heq : b3.step watched (.read false) = some { b3 with pipe := b3.pipe - 1, receiver := .check rings } := by
      simp [Bell.step, hr3]
    have hok4 := hok3.step heq
    have hwill : Will k i { b3 with pipe := b3.pipe - 1, receiver := .check rings } :=
      fun _ => Or.inl ⟨hup3, mem_rings k⟩
    obtain ⟨b5, hleads5, ⟨-, hwill5⟩, hr5⟩ := leads_away (P := fun b => b.Ok watched ∧ b.Will k i)
      (fun b b' hb hgo => ⟨hb.1.go hgo, hb.1.will_go hi hb.2 hgo⟩) _ ⟨hok4, hwill⟩
    have hread : Proceeds watched b3 (.read false) _ := ⟨hpos, heq⟩
    exact ⟨b5, ((hleads1.trans hleads2).trans hleads3).trans (Lts.Leads.head hread hleads5), hwill5.done hr5⟩

/-- A sender has raised the flag and has not written to the pipe yet; another one marks a watcher, finds the flag up
    and goes. -/
def twoSenders : List (Access Bool) :=
  [.mark true .async 0, .ring true false, .ring true false, .mark false .async 1, .ring false false]

theorem fed_in_the_end_marked :
    ∃ b b' : Bell Bool, twoSenders.foldlM (step fun _ => [0, 1]) quiet = some b ∧
      b.flag .async = true ∧ b.pipe = 0 ∧ b.sender false = .idle ∧ b.asked .async 1 = true ∧
      Lts.Leads (Proceeds fun _ => [0, 1]) b b' ∧ b'.asked .async 1 = false := by
  have h1 : (quiet : Bell Bool).step (fun _ => [0, 1]) (.mark true .async 0) = some _ := rfl
  have hrun : Lts.Run (fun b x b' => b.step (fun _ => [0, 1]) x = some b') (quiet : Bell Bool) _ :=
    .cons h1 (.cons (a := .ring true false) rfl (.cons (a := .ring true false) rfl
      (.cons (a := .mark false .async 1) rfl (.cons (a := .ring false false) rfl (.nil _)))))
  obtain ⟨b', hleads, hfed⟩ := fed_in_the_end (k := .async) hrun (show 1 ∈ [0, 1] by decide)
  exact ⟨_, b', rfl, rfl, rfl, rfl, rfl, hleads, hfed⟩

end Bell

end CodeSLoop.Ev
