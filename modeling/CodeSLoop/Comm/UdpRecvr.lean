import CodeSLoop.Comm.UdpHandlers
import CodeSLoop.Comm.UdpPackets
import CodeSLoop.Common.CircbufTwoPhase
import CodeSLoop.Nthread.Event

/-!
# The way of a datagram to its handler (`comm/udp_recvr.cc`)

The receiver prepares an entry of `msgs_`, fills it with what it receives, and commits it, which
notifies the event that the workers of the pool wait for; an entry for an empty datagram is rolled
back. A worker that the event has let through pops one entry and copies it, or returns when there is
none. What is done under `msgs_.mtx_` is one step; the filling is another one, because the mutex is
not held then.

As long as no entry is prepared while thirty are waiting, every datagram is handled in its turn
(`delivered_in_order`). Otherwise `prepare` takes the oldest entry for one that may never come, and
leaves it counted.
-/

namespace CodeSLoop

namespace Udp

namespace Recvr

open Lts
open Circbuf (Client)

variable {τ Addr : Type}

/-- An entry of `msgs_`: the message and its `sender_`. -/
abbrev Entry (Addr : Type) := Msg × Addr

/-- What a handler gets of an entry. -/
abbrev Datagram (Addr : Type) := List UInt8 × Addr

def Entry.datagram (e : Entry Addr) : Datagram Addr := (e.1.bytes, e.2)

/-- Where the receiver is; `received` has what the prepared entry was filled with. -/
inductive Phase (Addr : Type)
  | idle
  | receiving
  | received (e : Entry Addr)
  | stopped

/-- `msgs_` and its event, the receiver, and the workers that the event has let through and that
    have not looked at `msgs_` since. What was committed and what was handled is kept; it is
    `faulty` when a call on `msgs_` did not come back, threw, or came back with no object. -/
structure State (τ Addr : Type) where
  msgs : Client Unit (Entry Addr)
  ev : Event.State τ
  recvr : Phase Addr
  hand : List τ
  committed : List (Datagram Addr)
  handled : List (Datagram Addr)
  faulty : Bool

/-- `recvr()`; an entry has no contents before it is filled, so any will do. -/
def init (useExc : Bool) (e₀ : Entry Addr) : State τ Addr :=
  ⟨.start 30 useExc e₀, Event.init, .idle, [], [], [], false⟩

/-- `recvfrom`, into an entry. -/
def fill (m : Msg) (d : List UInt8) : Msg :=
  m.put (d.take maxLen) (List.length_take ▸ Nat.min_le_left ..)

/-- The steps, with what is received. -/
inductive Act (τ Addr : Type)
  | prepare
  | recvfrom (d : List UInt8) (sender : Addr)
  | recvFailed
  | stop
  | commit
  | rollback
  | event (a : Event.Act τ)
  | handler (w : τ)

/-- A call on `msgs_` fails. -/
def Fails (c : Client Unit (Entry Addr)) (e : Ring.Event Unit (Entry Addr)) : Prop :=
  ∀ fuel, c.exec fuel e = none

section Steps

variable [DecidableEq τ]

/-- What a worker may do with the event, and whether it is let through then. -/
inductive Waits (hand : List τ) : Event.Act τ → List τ → Prop
  | wait {w : Waiter τ} : w.thread ∉ hand → Waits hand (.wait w (some true)) (w.thread :: hand)
  | sleep {w : Waiter τ} : w.thread ∉ hand → Waits hand (.wait w none) hand
  | resume {w : Waiter τ} : Waits hand (.resume w (some true)) (w.thread :: hand)
  | sleepOn {w : Waiter τ} : Waits hand (.resume w none) hand
  | giveUp {w : Waiter τ} : Waits hand (.giveUp w) hand
  | moves {e : CondVar.Event τ} : Waits hand (.moves e) hand

inductive Step : State τ Addr → Act τ Addr → State τ Addr → Prop
  | prepare {s : State τ Addr} {c : Client Unit (Entry Addr)} :
      s.faulty = false → s.recvr = .idle → s.msgs.Step (.prepare (), none) c →
      Step s .prepare { s with msgs := c, recvr := .receiving }
  | prepareFails {s : State τ Addr} :
      s.faulty = false → s.recvr = .idle → Fails s.msgs (.prepare ()) →
      Step s .prepare { s with faulty := true }
  | recvfrom {s : State τ Addr} {d : List UInt8} {sender : Addr} {t : Nat} :
      s.faulty = false → s.recvr = .receiving → ((), t) ∈ s.msgs.held →
      Step s (.recvfrom d sender) { s with recvr := .received (fill (s.msgs.mem t).1 d, sender) }
  | recvFailed {s : State τ Addr} :
      s.faulty = false → s.recvr = .receiving → Step s .recvFailed { s with recvr := .stopped }
  | stop {s : State τ Addr} :
      s.faulty = false → s.recvr = .idle → Step s .stop { s with recvr := .stopped }
  -- `on_new_item()` is called under the mutex of `msgs_`.
  | commit {s : State τ Addr} {e : Entry Addr} {c : Client Unit (Entry Addr)} {ev : Event.State τ} :
      s.faulty = false → s.recvr = .received e → e.1.size ≠ 0 →
      s.msgs.Step (.commit () e, none) c → Event.Step s.ev (.notify 1 true) ev →
      Step s .commit { s with
        msgs := c, ev := ev, recvr := .idle, committed := s.committed ++ [e.datagram] }
  | commitFails {s : State τ Addr} {e : Entry Addr} :
      s.faulty = false → s.recvr = .received e → e.1.size ≠ 0 → Fails s.msgs (.commit () e) →
      Step s .commit { s with faulty := true }
  | rollback {s : State τ Addr} {e : Entry Addr} {c : Client Unit (Entry Addr)} :
      s.faulty = false → s.recvr = .received e → e.1.size = 0 →
      s.msgs.Step (.rollback (), none) c →
      Step s .rollback { s with msgs := c, recvr := .idle }
  | rollbackFails {s : State τ Addr} {e : Entry Addr} :
      s.faulty = false → s.recvr = .received e → e.1.size = 0 → Fails s.msgs (.rollback ()) →
      Step s .rollback { s with faulty := true }
  | event {s : State τ Addr} {a : Event.Act τ} {hand : List τ} {ev : Event.State τ} :
      s.faulty = false → Waits s.hand a hand → Event.Step s.ev a ev →
      Step s (.event a) { s with ev := ev, hand := hand }
  -- `n_items()` is zero.
  | handlerNone {s : State τ Addr} {w : τ} :
      s.faulty = false → w ∈ s.hand → s.msgs.buf.nItems = 0 →
      Step s (.handler w) { s with hand := s.hand.erase w }
  | handler {s : State τ Addr} {w : τ} {e : Entry Addr} {c : Client Unit (Entry Addr)} {ms : Msg} :
      s.faulty = false → w ∈ s.hand → s.msgs.buf.nItems ≠ 0 →
      s.msgs.Step (.pop, some e) c →
      Step s (.handler w) { s with
        msgs := c, hand := s.hand.erase w
        handled := if e.1.size = 0 then s.handled
          else s.handled ++ [Entry.datagram (e.1.copyTo ms, e.2)] }
  | handlerFails {s : State τ Addr} {w : τ} :
      s.faulty = false → w ∈ s.hand → s.msgs.buf.nItems ≠ 0 → Fails s.msgs .pop →
      Step s (.handler w) { s with faulty := true }

end Steps

/-- The datagrams that wait, the oldest first. -/
def State.waiting (s : State τ Addr) : List (Datagram Addr) :=
  s.msgs.contents.reverse.map Entry.datagram

/-- What was committed is handled in its turn, or waits and is not forgotten; no call has failed. -/
structure State.Good (s : State τ Addr) : Prop where
  delivered : s.committed = s.handled ++ s.waiting
  fine : s.faulty = false
  remembered : s.waiting ≠ [] → s.ev.available ≠ 0 ∨ s.hand ≠ []

/-- No entry is prepared while thirty are waiting. -/
def State.Ok (s : State τ Addr) : Act τ Addr → Prop
  | .prepare => s.msgs.buf.nItems < 30
  | _ => True

/-! ## One step -/

section Calls

variable {c c' : Client Unit (Entry Addr)} {hs fs : List Nat} {e : Ring.Event Unit (Entry Addr)}
  {out : Option (Entry Addr)}

/-- A call in a state where it does what it should. -/
theorem call_spec (h : Circbuf.Inv 30 c hs fs) (hok : c.queue.Ok 30 e)
    (hs' : c.Step (e, out) c') :
    (∃ hs' fs', Circbuf.Inv 30 c' hs' fs') ∧ c.Moves 30 (e, out) c' ∧
      c'.queue = c.queue.step 30 e := by
  obtain ⟨out', c'', hs₁, fs₁, hstep, hinv, hmoves, hq⟩ :=
    h.step (by decide) (h.ok_iff.mpr hok)
  obtain ⟨rfl, rfl⟩ := Circbuf.step_unique hs' hstep
  exact ⟨⟨hs₁, fs₁, hinv⟩, hmoves, hq⟩

theorem not_fails (h : Circbuf.Inv 30 c hs fs) (hok : c.queue.Ok 30 e) : ¬ Fails c e := by
  obtain ⟨out, c', -, -, ⟨fuel, hstep⟩, -⟩ := h.step (by decide) (h.ok_iff.mpr hok)
  intro hf
  rw [hf fuel] at hstep
  cases hstep

end Calls

/-- The entries under preparation. -/
def Phase.Holds (q : Ring.State Unit (Entry Addr)) : Phase Addr → Prop
  | .idle => q.prep = []
  | .receiving | .received _ => q.prep = [()] ∧ q.active.length < 30
  | .stopped => True

/-- Entries that wait may be taken. -/
theorem Phase.Holds.of_le {q q' : Ring.State Unit (Entry Addr)} {ph : Phase Addr}
    (h : ph.Holds q) (hp : q'.prep = q.prep) (hl : q'.active.length ≤ q.active.length) :
    ph.Holds q' := by
  cases ph with
  | idle => exact hp.trans h
  | receiving | received => exact ⟨hp.trans h.1, hl.trans_lt h.2⟩
  | stopped => trivial

section Queue

variable {q : Ring.State Unit (Entry Addr)} {e : Entry Addr}

theorem ok_prepare (hp : q.prep = []) (hlt : q.active.length < 30) : q.Ok 30 (.prepare ()) := by
  refine ⟨?_, .inr hlt⟩
  rw [hp]
  exact List.not_mem_nil

theorem ok_commit (hp : q.prep = [()]) (hlt : q.active.length < 30) : q.Ok 30 (.commit () e) :=
  ⟨by rw [hp]; rfl, hlt⟩

theorem ok_rollback (hp : q.prep = [()]) : q.Ok 30 (.rollback ()) := by
  rw [Ring.State.Ok, hp]
  rfl

end Queue

/-- What holds all the time: there are as many units, in the event or in hand, as datagrams that
    wait, and none of these is empty. -/
structure State.Inv (s : State τ Addr) : Prop where
  msgs : ∃ hs fs, Circbuf.Inv 30 s.msgs hs fs
  holds : s.recvr.Holds s.msgs.queue
  filled : ∀ e ∈ s.msgs.contents, e.1.size ≠ 0
  units : s.ev.available.toNat + s.hand.length = s.msgs.contents.length
  delivered : s.committed = s.handled ++ s.waiting
  fine : s.faulty = false

variable {s s' : State τ Addr} {a : Act τ Addr}

theorem State.Inv.good (h : s.Inv) : s.Good := by
  refine ⟨h.delivered, h.fine, fun hne => ?_⟩
  by_contra hno
  obtain ⟨hav, hhand⟩ := not_or.mp hno
  have hunits := h.units
  rw [not_not.mp hav, not_not.mp hhand] at hunits
  have hnil : s.msgs.contents = [] := List.eq_nil_of_length_eq_zero hunits.symm
  exact hne (by rw [State.waiting, hnil]; rfl)

theorem inv_init (useExc : Bool) (e₀ : Entry Addr) : (init useExc e₀ : State τ Addr).Inv where
  msgs := ⟨[], [], Circbuf.inv_start 30 useExc e₀⟩
  holds := rfl
  filled := fun e he => by cases he
  units := rfl
  delivered := rfl
  fine := rfl

/-- The count is right. -/
theorem State.Inv.nItems (h : s.Inv) : s.msgs.buf.nItems = s.msgs.contents.length := by
  obtain ⟨hs, fs, hinv⟩ := h.msgs
  rw [hinv.contents, List.length_map, hinv.nItems]

theorem State.Inv.ok_pop (h : s.Inv) (h0 : s.msgs.buf.nItems ≠ 0) : s.msgs.queue.Ok 30 .pop := by
  intro hnil
  have hn := h.nItems
  rw [show s.msgs.contents = [] from hnil] at hn
  exact h0 hn

theorem State.Inv.ok_idle (h : s.Inv) (hok : s.Ok .prepare) (hr : s.recvr = .idle) :
    s.msgs.queue.prep = [] ∧ s.msgs.queue.active.length < 30 := by
  have hholds := h.holds
  rw [hr] at hholds
  exact ⟨hholds, h.nItems ▸ hok⟩

theorem State.Inv.ok_received (h : s.Inv) {e : Entry Addr} (hr : s.recvr = .received e) :
    s.msgs.queue.prep = [()] ∧ s.msgs.queue.active.length < 30 := by
  have hholds := h.holds
  rw [hr] at hholds
  exact hholds

variable {c : Client Unit (Entry Addr)} {e : Entry Addr}

theorem State.Inv.prepare (h : s.Inv) (hok : s.Ok .prepare) (hr : s.recvr = .idle)
    (hstep : s.msgs.Step (.prepare (), none) c) :
    State.Inv { s with msgs := c, recvr := .receiving } := by
  obtain ⟨hs, fs, hinv⟩ := h.msgs
  obtain ⟨hprep, hlt⟩ := h.ok_idle hok hr
  obtain ⟨hinv', ⟨-, hc⟩, hq⟩ := call_spec hinv (ok_prepare hprep hlt) hstep
  refine ⟨hinv', ?_, by rw [hc]; exact h.filled, by rw [hc]; exact h.units, ?_, h.fine⟩
  · rw [Phase.Holds, hq, Ring.State.step, hprep]
    exact ⟨rfl, hlt⟩
  · rw [State.waiting, hc]
    exact h.delivered

theorem State.Inv.rollback (h : s.Inv) (hr : s.recvr = .received e)
    (hstep : s.msgs.Step (.rollback (), none) c) :
    State.Inv { s with msgs := c, recvr := .idle } := by
  obtain ⟨hs, fs, hinv⟩ := h.msgs
  obtain ⟨hprep, -⟩ := h.ok_received hr
  obtain ⟨hinv', ⟨-, hc⟩, hq⟩ := call_spec hinv (ok_rollback hprep) hstep
  refine ⟨hinv', ?_, by rw [hc]; exact h.filled, by rw [hc]; exact h.units, ?_, h.fine⟩
  · rw [Phase.Holds, hq, Ring.State.step, hprep]
    rfl
  · rw [State.waiting, hc]
    exact h.delivered

variable [DecidableEq τ]

/-- `wait` lets a thread through for a unit, and nothing else changes the units. -/
theorem units_event {ev ev' : Event.State τ} {hand hand' : List τ} {b : Event.Act τ}
    (hw : Waits hand b hand') (hs : Event.Step ev b ev') :
    ev'.available.toNat + hand'.length = ev.available.toNat + hand.length := by
  cases hw with
  | wait =>
    cases hs with
    | waitTake _ ha =>
      have hpred := CondVar.toNat_pred ha
      rw [List.length_cons]
      dsimp only
      omega
  | resume =>
    cases hs with
    | resumeTake _ ha =>
      have hpred := CondVar.toNat_pred ha
      rw [List.length_cons]
      dsimp only
      omega
  | sleep | sleepOn | giveUp | moves =>
    cases hs
    rfl

theorem units_notify {ev ev' : Event.State τ} (hs : Event.Step ev (.notify 1 true) ev')
    (hlt : ev.available.toNat < 30) : ev'.available.toNat = ev.available.toNat + 1 := by
  cases hs with
  | notify =>
    have hone : (1 : UInt32).toNat = 1 := rfl
    exact CondVar.toNat_add_iff.mpr (by omega)

/-- The entry joins the ones that wait, and `on_new_item()` gives a unit for it. -/
theorem State.Inv.commit (h : s.Inv) (hr : s.recvr = .received e) (he : e.1.size ≠ 0)
    (hstep : s.msgs.Step (.commit () e, none) c) {ev : Event.State τ}
    (hev : Event.Step s.ev (.notify 1 true) ev) :
    State.Inv { s with
      msgs := c, ev := ev, recvr := .idle, committed := s.committed ++ [e.datagram] } := by
  obtain ⟨hs, fs, hinv⟩ := h.msgs
  obtain ⟨hprep, hlt⟩ := h.ok_received hr
  obtain ⟨hinv', ⟨-, hc⟩, hq⟩ := call_spec hinv (ok_commit hprep hlt) hstep
  have hactive : s.msgs.queue.active = s.msgs.contents := rfl
  rw [hactive] at hlt
  have hc' : c.contents = e :: s.msgs.contents := by
    rcases hc with ⟨-, hc⟩ | ⟨heq, -⟩
    · exact hc
    · omega
  have hunits := h.units
  refine ⟨hinv', ?_, ?_, ?_, ?_, h.fine⟩
  · rw [Phase.Holds, hq, Ring.State.step, hprep]
    rfl
  · intro e' he'
    rw [hc'] at he'
    rcases List.mem_cons.mp he' with rfl | he'
    · exact he
    · exact h.filled e' he'
  · dsimp only
    rw [hc', List.length_cons, units_notify hev (by omega)]
    omega
  · rw [State.waiting, hc', List.reverse_cons, List.map_append, ← List.append_assoc]
    dsimp only
    rw [h.delivered]
    rfl

/-- The oldest entry is handled. -/
theorem State.Inv.handler (h : s.Inv) {w : τ} (hw : w ∈ s.hand) (h0 : s.msgs.buf.nItems ≠ 0)
    (hstep : s.msgs.Step (.pop, some e) c) (ms : Msg) :
    State.Inv { s with
      msgs := c, hand := s.hand.erase w
      handled := if e.1.size = 0 then s.handled
        else s.handled ++ [Entry.datagram (e.1.copyTo ms, e.2)] } := by
  obtain ⟨hs, fs, hinv⟩ := h.msgs
  obtain ⟨hinv', ⟨e', he', hc⟩, hq⟩ := call_spec hinv (h.ok_pop h0) hstep
  cases he'
  have hsize : e.1.size ≠ 0 :=
    h.filled e (hc ▸ List.mem_append_right _ (List.mem_singleton_self e))
  have hlen := congrArg List.length hc
  rw [List.length_append, List.length_singleton] at hlen
  refine ⟨hinv', ?_, fun x hx => h.filled x (hc ▸ List.mem_append_left _ hx), ?_, ?_, h.fine⟩
  · refine h.holds.of_le (by rw [hq]; rfl) ?_
    rw [hq, Ring.State.step, List.length_dropLast]
    exact Nat.sub_le ..
  · have hunits := h.units
    have herase := List.length_erase_of_mem hw
    have hpos := List.length_pos_of_mem hw
    dsimp only
    omega
  · have hd : Entry.datagram (e.1.copyTo ms, e.2) = Entry.datagram e := by
      rw [Entry.datagram, Msg.bytes_copyTo]
      rfl
    rw [if_neg hsize, hd, State.waiting]
    dsimp only
    rw [h.delivered, State.waiting, hc, List.reverse_append, List.append_assoc]
    rfl

theorem State.Inv.step (h : s.Inv) (hok : s.Ok a) (hs : Step s a s') : s'.Inv := by
  obtain ⟨hs', fs, hinv⟩ := h.msgs
  have hholds := h.holds
  cases hs with
  | prepare hf hr hstep => exact h.prepare hok hr hstep
  | prepareFails hf hr hfail =>
    obtain ⟨hprep, hlt⟩ := h.ok_idle hok hr
    exact absurd hfail (not_fails hinv (ok_prepare hprep hlt))
  | recvfrom hf hr ht =>
    rw [hr] at hholds
    exact ⟨h.msgs, hholds, h.filled, h.units, h.delivered, h.fine⟩
  | recvFailed hf hr => exact ⟨h.msgs, trivial, h.filled, h.units, h.delivered, h.fine⟩
  | stop hf hr => exact ⟨h.msgs, trivial, h.filled, h.units, h.delivered, h.fine⟩
  | commit hf hr he hstep hev => exact h.commit hr he hstep hev
  | commitFails hf hr he hfail =>
    obtain ⟨hprep, hlt⟩ := h.ok_received hr
    exact absurd hfail (not_fails hinv (ok_commit hprep hlt))
  | rollback hf hr he hstep => exact h.rollback hr hstep
  | rollbackFails hf hr he hfail =>
    obtain ⟨hprep, -⟩ := h.ok_received hr
    exact absurd hfail (not_fails hinv (ok_rollback hprep))
  | event hf hw hev =>
    exact ⟨h.msgs, hholds, h.filled, (units_event hw hev).trans h.units, h.delivered, h.fine⟩
  | handlerNone hf hw h0 =>
    -- There is a unit in hand, so something waits.
    have hunits := h.units
    have hn := h.nItems
    have hpos := List.length_pos_of_mem hw
    omega
  | handler hf hw h0 hstep => exact h.handler hw h0 hstep _
  | handlerFails hf hw h0 hfail => exact absurd hfail (not_fails hinv (h.ok_pop h0))

/-! ## Thirty messages -/

/-- Nothing was popped yet, and the receiver is idle. -/
structure State.Quiet (s : State τ Addr) (n : Nat) : Prop where
  inv : s.Inv
  idle : s.recvr = .idle
  length : s.msgs.contents.length = n
  noFree : s.msgs.buf.freelist = []
  committed : s.committed.length = n
  handled : s.handled = []
  nobody : s.ev.waiting = 0

/-- One more datagram is received. -/
theorem State.Quiet.receive {n : Nat} (h : s.Quiet n) (hlt : n < 30) (d : List UInt8)
    (hd : d ≠ []) (sender : Addr) : ∃ s', Leads Step s s' ∧ s'.Quiet (n + 1) := by
  obtain ⟨hs, fs, hinv⟩ := h.inv.msgs
  have hholds := h.inv.holds
  have hn := h.inv.nItems
  have hactive : s.msgs.queue.active.length < 30 := h.length.trans_lt hlt
  have hfree : s.msgs.queue.free = 0 := congrArg List.length h.noFree
  rw [h.idle] at hholds
  obtain ⟨out, c₁, hs₁, fs₁, hstep₁, hinv₁, ⟨rfl, hc₁⟩, hq₁⟩ :=
    hinv.step (by simp) (hinv.ok_iff.mpr (ok_prepare hholds hactive))
  have hprep₁ : c₁.queue.prep = [()] := by
    rw [hq₁, Ring.State.step, show s.msgs.queue.prep = [] from hholds]
  have hactive₁ : c₁.queue.active.length < 30 := by
    rw [show c₁.queue.active = s.msgs.queue.active from hc₁]
    exact hactive
  obtain ⟨⟨⟨⟩, t⟩, ht⟩ : ∃ p, p ∈ c₁.held :=
    List.exists_mem_of_length_pos (by
      rw [← List.length_map (·.1), show c₁.held.map (·.1) = [()] from hprep₁]
      exact Nat.zero_lt_one)
  obtain ⟨out, c₂, hs₂, fs₂, hstep₂, hinv₂, ⟨rfl, hc₂⟩, hq₂⟩ :=
    hinv₁.step (by simp) (hinv₁.ok_iff.mpr
      (ok_commit (e := (fill (c₁.mem t).1 d, sender)) hprep₁ hactive₁))
  have hsize : (fill (c₁.mem t).1 d).size ≠ 0 := by
    rw [fill, Msg.size_put, List.length_take]
    have hpos := List.length_pos_of_ne_nil hd
    rw [maxLen]
    omega
  have hp := Step.prepare h.inv.fine h.idle hstep₁
  have hr := @Step.recvfrom τ Addr _ { s with msgs := c₁, recvr := .receiving } d sender t
    h.inv.fine rfl ht
  have hcm := @Step.commit τ Addr _
    { s with msgs := c₁, recvr := .received (fill (c₁.mem t).1 d, sender) } _ c₂ _
    h.inv.fine rfl hsize hstep₂ (.notify (by simp) (.nobody h.nobody))
  have hok : s.Ok .prepare := hn.trans_lt (h.length.trans_lt hlt)
  have hinv₁ := h.inv.step hok hp
  have hinv₂ := hinv₁.step (a := .recvfrom d sender) trivial hr
  have hinv' := hinv₂.step (a := .commit) trivial hcm
  refine ⟨_, .head hp (.head hr (.head hcm .refl)), hinv', rfl, ?_, ?_, ?_, h.handled, h.nobody⟩
  · rcases hc₂ with ⟨-, hc⟩ | ⟨heq, -⟩
    · dsimp only
      rw [hc, List.length_cons, hc₁, h.length]
    · rw [show c₁.contents.length = c₁.queue.active.length from rfl] at heq
      omega
  · refine List.eq_nil_of_length_eq_zero ?_
    have hf : c₂.queue.free = 0 := by rw [hq₂, Ring.State.step, hq₁, Ring.State.step, hfree]
    exact hf
  · dsimp only
    rw [List.length_append, h.committed]
    rfl

theorem exists_quiet (e₀ : Entry Addr) (sender : Addr) : ∀ {n : Nat}, n ≤ 30 →
    ∃ s : State τ Addr, Leads Step (init true e₀) s ∧ s.Quiet n := by
  intro n
  induction n with
  | zero =>
    intro hn
    exact ⟨_, .refl, inv_init true e₀, rfl, rfl, rfl, rfl, rfl, rfl⟩
  | succ n ih =>
    intro hn
    obtain ⟨s, hs, hquiet⟩ := ih (Nat.le_of_succ_le hn)
    obtain ⟨s', hs', hquiet'⟩ := hquiet.receive hn [7] (by simp) sender
    exact ⟨s', hs.trans hs', hquiet'⟩

omit [DecidableEq τ] in
/-- A full buffer gives up its oldest entry for one that is rolled back. -/
theorem steals {c : Client Unit (Entry Addr)} {hs : List Nat} (h : Circbuf.Inv 30 c hs [])
    (hlen : hs.length = 30) (hheld : c.held = []) : ∃ c₁ c₂ : Client Unit (Entry Addr),
      c.Step (.prepare (), none) c₁ ∧ (∃ t, ((), t) ∈ c₁.held) ∧
      c₁.Step (.rollback (), none) c₂ ∧ c₂.contents.length = 29 := by
  rcases List.eq_nil_or_concat' hs with rfl | ⟨hs', t, rfl⟩
  · cases hlen
  have hhead : c.buf.head = hs'.map Circbuf.node ++ [Circbuf.node t] := by
    rw [h.head, List.map_append]
    rfl
  have hfull : c.buf.max ≤ c.buf.nItems := by
    rw [h.nItems, h.max, hlen]
  have hprep : c.buf.prepare = ⟨.ref (some t), [],
      { c.buf with head := hs'.map Circbuf.node, preplist := [Circbuf.node t] }⟩ := by
    rw [Circbuf.prepare_steal h.free hfull hhead, h.prep, hheld]
    rfl
  obtain ⟨r, hr, hb⟩ := @Circbuf.rollback_front c.buf.prepare.buf t [] (by rw [hprep])
  refine ⟨⟨c.buf.prepare.buf, c.mem, [((), t)]⟩, ⟨r.buf, c.mem, []⟩, ⟨1, ?_⟩,
    ⟨t, List.mem_singleton_self _⟩, ⟨1, ?_⟩, ?_⟩
  · rw [Client.exec, hprep, hheld]
  · rw [Client.exec]
    simp only [List.lookup_cons, beq_self_eq_true, hr]
    rfl
  · rw [Client.contents, hb, hprep]
    simp only [List.filterMap_map]
    rw [List.length_append, List.length_singleton] at hlen
    have hmap : hs'.filterMap ((fun it : Item => it.item.map c.mem) ∘ Circbuf.node) =
        hs'.map c.mem := congrFun List.filterMap_eq_map hs'
    rw [hmap, List.length_map]
    omega

/-- **Every datagram in its turn.** In every run in which no entry is prepared while thirty are
    waiting, every state is good. -/
theorem delivered_in_order (useExc : Bool) (e₀ : Entry Addr)
    {tr : List (Act τ Addr × State τ Addr)} (h : Run Step (init useExc e₀) tr)
    (hok : Always (fun s a _ => s.Ok a) (init useExc e₀) tr) :
    Always (fun _ _ s' => s'.Good) (init useExc e₀) tr :=
  h.always_of_guard (fun _ _ _ hinv hok hs => ⟨(hinv.step hok hs).good, hinv.step hok hs⟩)
    (inv_init useExc e₀) hok

/-- One datagram is received, and handled by a worker. -/
theorem delivered_in_order_one : ∃ tr : List (Act Nat Nat × State Nat Nat),
    tr.map (·.1) = [.prepare, .recvfrom [7] 5, .commit, .event (.wait ⟨0, true⟩ (some true)),
      .handler 0] ∧
    Always (fun _ _ s' => s'.Good) (init true (Packet.blank, 0)) tr := by
  refine ⟨_, rfl, delivered_in_order true (Packet.blank, 0)
    (.cons (.prepare rfl rfl ⟨1, rfl⟩) <|
    .cons (.recvfrom (t := 0) rfl rfl (List.mem_singleton_self _)) <|
    .cons (.commit rfl rfl (by exact Nat.succ_ne_zero 0) ⟨1, rfl⟩
      (.notify (by simp) (.nobody rfl))) <|
    .cons (.event rfl (.wait List.not_mem_nil)
      (.waitTake List.not_mem_nil (show (0 + 1 : UInt32) ≠ 0 by simp))) <|
    .cons (@Step.handler _ _ _ _ _ _ _ Packet.blank rfl (List.mem_singleton_self _)
      (by exact Nat.succ_ne_zero 0) ⟨1, rfl⟩) <| .nil _)
    ⟨Nat.zero_lt_succ 29, trivial, trivial, trivial, trivial, trivial⟩⟩

/-- Thirty datagrams wait. An empty one is received, and one of the thirty is gone, though none was
    handled and no other one was committed. -/
theorem delivered_in_order_fails : ∃ s s' : State Nat Nat,
    Leads Step (init true (Packet.blank, 0)) s ∧ s.committed.length = 30 ∧ s.waiting.length = 30 ∧
    (∃ s₁ s₂, Step s .prepare s₁ ∧ Step s₁ (.recvfrom [] 5) s₂ ∧ Step s₂ .rollback s') ∧
    s'.committed.length = 30 ∧ s'.handled = [] ∧ s'.waiting.length = 29 := by
  obtain ⟨s, hs, h⟩ := @exists_quiet Nat Nat _ (Packet.blank, 0) 5 30 (Nat.le_refl 30)
  obtain ⟨hs', fs, hinv⟩ := h.inv.msgs
  have hholds := h.inv.holds
  rw [h.idle] at hholds
  have hfs : fs = [] := by
    have hfree := hinv.free
    rw [h.noFree] at hfree
    exact List.map_eq_nil_iff.mp hfree.symm
  subst hfs
  have hlen : hs'.length = 30 := by
    rw [← List.length_map s.msgs.mem, ← hinv.contents]
    exact h.length
  have hheld : s.msgs.held = [] := List.map_eq_nil_iff.mp hholds
  obtain ⟨c₁, c₂, hstep₁, ⟨t, ht⟩, hstep₂, hc₂⟩ := steals hinv hlen hheld
  refine ⟨s, { s with msgs := c₂, recvr := .idle }, hs, h.committed, ?_,
    ⟨_, _, .prepare h.inv.fine h.idle hstep₁, .recvfrom h.inv.fine rfl ht,
      .rollback h.inv.fine rfl rfl hstep₂⟩, h.committed, h.handled, ?_⟩
  · rw [State.waiting, List.length_map, List.length_reverse, h.length]
  · rw [State.waiting, List.length_map, List.length_reverse, hc₂]

end Recvr

end Udp

end CodeSLoop
