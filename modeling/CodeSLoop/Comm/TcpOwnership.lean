import CodeSLoop.Comm.TcpLstnr
import Mathlib.Data.List.Nodup

/-!
# Who has a connection

At each moment a connection of `ev_pool_` is watched, in one of the queues, or in the hands of
one thread, as long as two things do not happen (`placed_iff`): that the slot of a connection
refused by `on_connected` is freed through what is left of an iterator of a block that has ended
(when that is not the same position any more), and that `remove_all_connections` finds a used
slot. What it finds there is still watched, in a queue, or in the hands of a worker: all idle
connections have been removed before.

So a request to stop makes the listener free connections under the hands of others, unless there
are none but idle ones and such that it does not find (`TcpSweep`).
-/

namespace CodeSLoop

namespace Tcp

open Lts Tokens

def Sweep.refs : Sweep → List Ref
  | .popped r => [r]
  | .emptying | .scanning => []

/-- What the loop thread has in its hands. -/
def Loop.refs : Loop → List Ref
  | .connecting r | .refusing r | .accepting r | .reading r | .received r | .closing r
  | .rewatching r => [r]
  | .sweep w => w.refs
  | .idle | .waking | .ended => []

namespace State

variable {s s' : State} {r x : Ref} {ok ok₀ : Bool}

/-- All pointers that anybody has: the loop thread, libev, the queues, the workers, and the
    thread in `stop()`. -/
def refs (s : State) : List Ref :=
  s.loop.refs ++ s.watched ++ s.newData ++ s.workers.map Worker.ref ++ s.idle ++
    (s.stopper.map Sweep.refs).getD []

/-- Every connection of the pool is in one place, and every pointer is to a connection of the
    pool. -/
def Placed (s : State) : Prop := Accounted s.refs s.Live

/-- The connections for which a function of the handler is being called. -/
def calling (s : State) : List Ref :=
  (match s.loop with
    | .connecting r | .closing r => [r]
    | _ => []) ++ (s.workers.filter (·.stage = .handling)).map Worker.ref

/-- No two calls of the handler are for one connection, nor for one id. -/
def Apart (s : State) : Prop := (s.calling.map Ref.pos).Nodup

/-! ## The slots -/

theorem pool_setOk : (s.setOk r ok).pool = Function.update s.pool r.pos (some ⟨r.conn, ok⟩) := rfl

theorem pool_freeAt {pos : Nat} : (s.freeAt pos).pool = Function.update s.pool pos none := rfl

theorem Holds.live (h : s.Holds r ok) : s.Live r := ⟨ok, h⟩

theorem Live.conn_eq (h : s.Live r) (hx : s.Live x) (hpos : r.pos = x.pos) : r = x := by
  obtain ⟨ok, hr⟩ := h
  obtain ⟨ok', hx⟩ := hx
  rw [Holds, hpos] at hr
  have heq := Option.some.inj (hr.symm.trans hx)
  cases r with
  | mk pos conn =>
    cases x with
    | mk pos' conn' => rw [Ref.mk.injEq]; exact ⟨hpos, congrArg Slot.conn heq⟩

theorem live_setOk (h : s.Live r) : (s.setOk r ok).Live x ↔ s.Live x := by
  by_cases hpos : x.pos = r.pos
  · constructor
    · rintro ⟨ok', hx⟩
      rw [Holds, pool_setOk, hpos, Function.update_self, Option.some.injEq, Slot.mk.injEq] at hx
      obtain ⟨ok₁, hr⟩ := h
      refine ⟨ok₁, ?_⟩
      rw [Holds, hpos, ← hx.1]
      exact hr
    · intro hx
      have heq := hx.conn_eq h hpos
      refine ⟨ok, ?_⟩
      rw [Holds, pool_setOk, heq, Function.update_self]
  · refine exists_congr fun ok' => ?_
    rw [Holds, pool_setOk, Function.update_of_ne hpos]
    rfl

theorem live_freeAt (h : s.Live r) : (s.freeAt r.pos).Live x ↔ x ≠ r ∧ s.Live x := by
  by_cases hpos : x.pos = r.pos
  · refine iff_of_false ?_ ?_
    · rintro ⟨ok, hx⟩
      rw [Holds, pool_freeAt, hpos, Function.update_self] at hx
      cases hx
    · rintro ⟨hne, hx⟩
      exact hne (hx.conn_eq h hpos)
  · have hne : x ≠ r := fun heq => hpos (congrArg Ref.pos heq)
    rw [and_iff_right hne]
    refine exists_congr fun ok' => ?_
    rw [Holds, pool_freeAt, Function.update_of_ne hpos]
    rfl

theorem live_freeAt_of_ne {pos : Nat} (hpos : r.pos ≠ pos) : (s.freeAt pos).Live r ↔ s.Live r := by
  refine exists_congr fun ok' => ?_
  rw [Holds, pool_freeAt, Function.update_of_ne hpos]
  rfl

/-- A connection in a slot that was free. -/
theorem live_new {pos conn : Nat} (hfree : s.pool pos = none) :
    (s.setOk ⟨pos, conn⟩ ok).Live x ↔ x = ⟨pos, conn⟩ ∨ s.Live x := by
  by_cases hpos : x.pos = pos
  · have hdead : ¬ s.Live x := by
      rintro ⟨ok', hx⟩
      rw [Holds, hpos, hfree] at hx
      cases hx
    rw [or_iff_left hdead]
    constructor
    · rintro ⟨ok', hx⟩
      rw [Holds, pool_setOk, hpos, Function.update_self, Option.some.injEq, Slot.mk.injEq] at hx
      cases x with
      | mk pos' conn' => rw [Ref.mk.injEq]; exact ⟨hpos, hx.1.symm⟩
    · intro heq
      refine ⟨ok, ?_⟩
      rw [Holds, pool_setOk, heq, Function.update_self]
  · have hne : x ≠ ⟨pos, conn⟩ := fun heq => hpos (congrArg Ref.pos heq)
    rw [or_iff_right hne]
    refine exists_congr fun ok' => ?_
    rw [Holds, pool_setOk, Function.update_of_ne hpos]
    rfl

/-! ## The pointers -/

theorem count_refs : s.refs.count x = s.loop.refs.count x + s.watched.count x +
    s.newData.count x + (s.workers.map Worker.ref).count x + s.idle.count x +
    ((s.stopper.map Sweep.refs).getD []).count x := by
  simp only [refs, List.count_append]

/-- Of the pointers, a step of `remove_all_connections` changes the one it is about. -/
theorem count_setSweep {who : Who} {w w' : Sweep} (hw : s.sweeping who = some w) :
    (s.setSweep w' who).refs.count x + w.refs.count x = s.refs.count x + w'.refs.count x := by
  cases who with
  | loop =>
    cases hl : s.loop with
    | sweep w₀ =>
      simp only [sweeping, hl, Option.some.injEq] at hw
      simp only [count_refs, setSweep, hl, hw, Loop.refs]
      omega
    | _ => simp [sweeping, hl] at hw
  | stopper =>
    have hst : s.stopper = some w := hw
    simp only [count_refs, setSweep, hst, Option.map_some, Option.getD_some]
    omega

theorem count_endSweep {who : Who} {w : Sweep} (hw : s.sweeping who = some w) :
    (s.endSweep who).refs.count x + w.refs.count x = s.refs.count x := by
  cases who with
  | loop =>
    cases hl : s.loop with
    | sweep w₀ =>
      simp only [sweeping, hl, Option.some.injEq] at hw
      simp only [count_refs, endSweep, hl, hw, Loop.refs, List.count_nil]
      omega
    | _ => simp [sweeping, hl] at hw
  | stopper =>
    have hst : s.stopper = some w := hw
    simp only [count_refs, endSweep, hst, Option.map_some, Option.map_none, Option.getD_some,
      Option.getD_none, List.count_nil]
    omega

theorem live_setSweep {who : Who} {w : Sweep} : (s.setSweep w who).Live x ↔ s.Live x := by
  cases who with
  | loop => rfl
  | stopper => rfl

theorem live_endSweep {who : Who} : (s.endSweep who).Live x ↔ s.Live x := by
  cases who with
  | loop => rfl
  | stopper => rfl

theorem Placed.moved (h : s.Placed) (hc : ∀ x, s'.refs.count x = s.refs.count x)
    (hl : ∀ x, s'.Live x ↔ s.Live x) : s'.Placed :=
  h.move (List.perm_iff_count.mpr hc) hl

/-- A connection is freed by who has it in hand. -/
theorem Placed.freed (h : s.Placed) (hr : s.Live r)
    (hc : ∀ x, s.refs.count x = (r :: s'.refs).count x)
    (hl : ∀ x, s'.Live x ↔ (s.freeAt r.pos).Live x) : s'.Placed :=
  h.remove (List.perm_iff_count.mpr hc) fun x => (hl x).trans (live_freeAt hr)

/-- What must be seen to: in the state before a step, the position at which the slot of a refused
    connection is freed is its own, and the loop of `remove_all_connections` over the pool finds
    nothing. -/
def Sound (s : State) : Act → Prop
  | .refuse found => ∀ r, s.loop = .refusing r → found = r.pos
  | .scanRemove _ _ => False
  | _ => True

/-- **One step.** -/
theorem placed_iff {a : Act} (h : s.Placed) (hstep : Step s a s') : s'.Placed ↔ s.Sound a := by
  -- a step hands a pointer on, brings a connection, or frees one: if not the one in hand, it is not sound
  cases hstep with
  | accept pos hl hm hfree =>
    refine iff_of_true ?_ trivial
    refine h.add (r := ⟨pos, s.next⟩) ?_ ?_ fun x => live_new hfree
    · rintro ⟨ok, hx⟩
      cases hfree.symm.trans hx
    · refine List.perm_iff_count.mpr fun x => ?_
      simp only [count_refs, setOk, call, hl, Loop.refs, List.count_cons, List.count_nil]
      omega
  | connected cres ok ok₀ hl hr hok =>
    refine iff_of_true (h.moved (fun x => ?_) fun x => live_setOk hr.live) trivial
    cases cres <;> simp [count_refs, setOk, hl, Loop.refs]
  | refuse found hl hm =>
    rename_i r
    -- who refuses a connection has it in hand, and then has nothing
    have hr : s.Live r := (h.mem_iff r).mp (by simp [refs, hl, Loop.refs])
    have hc : ∀ x, s.refs.count x = (r :: { s with loop := .idle }.refs).count x := fun x => by
      simp only [count_refs, hl, Loop.refs, List.count_cons, List.count_nil]
      omega
    by_cases hpos : found = r.pos
    · rw [hpos]
      refine iff_of_true (h.freed hr hc fun x => Iff.rfl) fun x hx => ?_
      cases hl.symm.trans hx
      rfl
    · refine iff_of_false ?_ fun hs => hpos (hs r hl)
      exact h.not_lost (List.perm_iff_count.mpr hc)
        ((live_freeAt_of_ne fun heq => hpos heq.symm).mpr hr)
  | watch hl hm hr =>
    refine iff_of_true (h.moved (fun x => ?_) fun x => Iff.rfl) trivial
    simp only [count_refs, hl, Loop.refs, List.count_cons, List.count_nil]
    omega
  | ready hl hw hr =>
    refine iff_of_true (h.moved (fun x => ?_) fun x => Iff.rfl) trivial
    simp only [count_refs, hl, hw, Loop.refs, List.count_append, List.count_cons, List.count_nil]
    omega
  | received hl hr =>
    refine iff_of_true (h.moved (fun x => ?_) fun x => Iff.rfl) trivial
    simp only [count_refs, hl, Loop.refs]
  | closed ok₀ hl hr =>
    refine iff_of_true (h.moved (fun x => ?_) fun x => live_setOk hr.live) trivial
    simp only [count_refs, setOk, call, hl, Loop.refs]
  | handOver hl =>
    refine iff_of_true (h.moved (fun x => ?_) fun x => Iff.rfl) trivial
    simp only [count_refs, hl, Loop.refs, List.count_append, List.count_nil]
    omega
  | removeClosed hl hm hb hr =>
    refine iff_of_true (h.freed hr (fun x => ?_) fun x => Iff.rfl) trivial
    simp only [count_refs, freeAt, hl, Loop.refs, List.count_cons, List.count_nil]
    omega
  | wake hl hm hs =>
    refine iff_of_true (h.moved (fun x => ?_) fun x => Iff.rfl) trivial
    simp only [count_refs, hl, Loop.refs]
  | requeue hl hq =>
    refine iff_of_true (h.moved (fun x => ?_) fun x => Iff.rfl) trivial
    simp only [count_refs, hl, hq, Loop.refs, List.count_cons, List.count_nil]
    omega
  | rewatch hl hr =>
    refine iff_of_true (h.moved (fun x => ?_) fun x => Iff.rfl) trivial
    simp only [count_refs, hl, Loop.refs, List.count_cons, List.count_nil]
    omega
  | wakeDone hl hq =>
    refine iff_of_true (h.moved (fun x => ?_) fun x => Iff.rfl) trivial
    simp only [count_refs, hl, Loop.refs]
  | pop hq =>
    refine iff_of_true (h.moved (fun x => ?_) fun x => Iff.rfl) trivial
    simp only [count_refs, hq, List.map_cons, List.count_cons]
    omega
  | arrive hw hb hr =>
    refine iff_of_true (h.moved (fun x => ?_) fun x => Iff.rfl) trivial
    simp only [count_refs, call, hw, List.map_append, List.map_cons]
  | handled hres ok ok₀ hw hr hok =>
    refine iff_of_true (h.moved (fun x => ?_) fun x => live_setOk hr.live) trivial
    simp only [count_refs, setOk, hw, List.map_append, List.map_cons]
  | remove hres ok hw hr hbad hm hb =>
    refine iff_of_true (h.freed hr.live (fun x => ?_) fun x => Iff.rfl) trivial
    simp only [count_refs, freeAt, hw, List.map_append, List.map_cons, List.count_append,
      List.count_cons]
    omega
  | giveBack hw hr =>
    refine iff_of_true (h.moved (fun x => ?_) fun x => Iff.rfl) trivial
    simp only [count_refs, hw, List.map_append, List.map_cons, List.count_append,
      List.count_cons, List.count_nil]
    omega
  | stop hm => exact iff_of_true (h.moved (fun x => rfl) fun x => Iff.rfl) trivial
  | loopSweep hl hm hs =>
    refine iff_of_true (h.moved (fun x => ?_) fun x => Iff.rfl) trivial
    simp only [count_refs, setSweep, hl, Loop.refs, Sweep.refs]
  | stopperSweep hn hs =>
    refine iff_of_true (h.moved (fun x => ?_) fun x => Iff.rfl) trivial
    simp [count_refs, setSweep, hn, Sweep.refs]
  | sweepPop who hw hq =>
    rename_i r q
    refine iff_of_true (h.moved (fun x => ?_) fun x => live_setSweep) trivial
    -- from the queue of the idle ones to who sweeps
    have hw' : State.sweeping { s with idle := q } who = some .emptying := by
      cases who with
      | loop => exact hw
      | stopper => exact hw
    have hc := @count_setSweep { s with idle := q } x who .emptying (.popped r) hw'
    have hidle : s.refs.count x = { s with idle := q }.refs.count x + [r].count x := by
      simp only [count_refs, hq, List.count_cons, List.count_nil]
      omega
    rw [hidle]
    exact hc
  | sweepRemove who hw hm hb hr =>
    rename_i r
    refine iff_of_true (h.remove (r := r) (List.perm_iff_count.mpr fun x => ?_) fun x => ?_) trivial
    · have hc := @count_setSweep s x who (.popped r) .emptying hw
      simp only [Sweep.refs, List.count_cons, List.count_nil, Nat.add_zero, Nat.zero_add] at hc
      rw [List.count_cons]
      exact hc.symm
    · have hr' : (s.setSweep .emptying who).Live r := live_setSweep.mpr hr
      rw [live_freeAt hr', live_setSweep]
  | scan who hw hq hm =>
    refine iff_of_true (h.moved (fun x => ?_) fun x => live_setSweep) trivial
    exact @count_setSweep s x who .emptying .scanning hw
  | scanRemove who pos c hw hpos hused hb =>
    refine iff_of_false ?_ id
    -- what the loop over the pool finds is in somebody's hands still
    have hr : s.Live ⟨pos, c.conn⟩ := ⟨c.ok, hused⟩
    refine Accounted.not_kept (r := ⟨pos, c.conn⟩) ((h.mem_iff _).mpr hr) ?_
    exact fun hlive => ((live_freeAt hr).mp hlive).1 rfl
  | sweepDone who hw =>
    refine iff_of_true (h.moved (fun x => ?_) fun x => live_endSweep) trivial
    exact @count_endSweep s x who .scanning hw

/-! ## Runs -/

theorem placed_init : init.Placed := accounted_nil fun _ ⟨_, hx⟩ => by cases hx

/-- Who has a connection in hand is the only one to call the handler for it. -/
theorem Placed.apart (h : s.Placed) : s.Apart := by
  have hloop : (match s.loop with
      | .connecting r | .closing r => [r]
      | _ => []).Sublist s.loop.refs := by
    cases s.loop <;> simp [Loop.refs]
  have hworkers : ((s.workers.filter (·.stage = .handling)).map Worker.ref).Sublist
      (s.workers.map Worker.ref) := List.filter_sublist.map _
  have hsub : s.calling.Sublist s.refs := by
    have hfront := (hloop.trans (List.sublist_append_left _ s.watched)).trans
      (List.sublist_append_left _ s.newData)
    exact ((hfront.append hworkers).trans (List.sublist_append_left _ s.idle)).trans
      (List.sublist_append_left _ _)
  refine (h.nodup.sublist hsub).map_on fun x hx y hy hpos => ?_
  exact ((h.mem_iff x).mp (hsub.subset hx)).conn_eq ((h.mem_iff y).mp (hsub.subset hy)) hpos

/-- **All runs.** Every state of a run has its connections placed, and the calls of its handler
    apart, exactly when all that must be seen to is. -/
theorem always_placed_iff {tr : List (Act × State)} (h : Run Step init tr) :
    Always (fun _ _ s' => s'.Placed ∧ s'.Apart) init tr ↔ Always (fun s a _ => s.Sound a) init tr := by
  refine h.always_iff (I := Placed) ?_ (fun _ _ _ _ _ hp => hp.1) placed_init
  intro s a s' hs hstep
  rw [← placed_iff hs hstep]
  exact ⟨And.left, fun hp => ⟨hp, hp.apart⟩⟩

/-! ## A connection on its way, and a request to stop that comes across it -/

theorem mtxFree_of {l : Loop} (hl : s.loop = l) (hne : l ≠ .sweep .scanning)
    (hst : s.stopper = none) : s.MtxFree :=
  ⟨hl ▸ hne, by rw [hst]; exact fun h => by cases h⟩

theorem not_busy_of {l : Loop} {ws : List Worker} (hl : s.loop = l)
    (hne : ∀ r, l ≠ .connecting r) (hw : s.workers = ws) (hst : ∀ w ∈ ws, w.stage ≠ .handling)
    (pos : Nat) : ¬ s.Busy pos := by
  rintro (⟨r, hr, -⟩ | ⟨w, hmem, hstage, -⟩)
  · exact hne r (hl.symm.trans hr)
  · exact hst w (hw ▸ hmem) hstage

/-- A connection that is accepted, has data, is handled and is watched again. -/
theorem always_placed_iff_cycle : ∃ tr : List (Act × State), tr.map Prod.fst = [.accept, .connected true true, .watch,
      .ready ⟨0, 0⟩, .recvSome true, .handOver, .pop, .arrive ⟨0, 0⟩, .handled ⟨0, 0⟩ true true,
      .giveBack ⟨0, 0⟩, .wake, .requeue, .rewatch, .wakeDone] ∧
    Always (fun _ _ s' => s'.Placed ∧ s'.Apart) init tr := by
  refine ⟨_, rfl, (always_placed_iff
    (.cons (.accept 0 rfl (mtxFree_of rfl nofun rfl) rfl) <|
    .cons (.connected true true true rfl rfl id) <|
    .cons (.watch rfl (mtxFree_of rfl nofun rfl) ⟨true, rfl⟩) <|
    .cons (@Step.ready _ ⟨0, 0⟩ [] [] rfl rfl ⟨true, rfl⟩) <| .cons (.received rfl rfl) <|
    .cons (.handOver rfl) <| .cons (.pop rfl) <|
    .cons (@Step.arrive _ ⟨0, 0⟩ [] [] rfl
      (@not_busy_of _ .idle [⟨⟨0, 0⟩, .popped⟩] rfl nofun rfl (by simp) 0) ⟨true, rfl⟩) <|
    .cons (@Step.handled _ ⟨0, 0⟩ [] [] true true true rfl rfl id) <|
    .cons (@Step.giveBack _ ⟨0, 0⟩ [] [] rfl rfl) <|
    .cons (.wake rfl (mtxFree_of rfl nofun rfl) rfl) <| .cons (.requeue rfl rfl) <|
    .cons (.rewatch rfl ⟨true, rfl⟩) <| .cons (.wakeDone rfl rfl) <| .nil _)).mpr ?_⟩
  exact ⟨trivial, trivial, trivial, trivial, trivial, trivial, trivial, trivial, trivial, trivial,
    trivial, trivial, trivial, trivial, trivial⟩

/-- Stop is requested while a worker has the second connection, which it has not looked at yet, and
    its slot is freed; and the slot of a connection that is refused is not, when the iterator is not
    found again. -/
theorem always_placed_fails :
    (∃ tr, Run Step init tr ∧ tr.map Prod.fst = [.accept, .connected true true, .watch,
        .accept, .connected true true, .watch, .ready ⟨1, 1⟩, .recvSome true, .handOver, .pop,
        .stop, .sweep .loop, .scan .loop, .scanRemove .loop 1] ∧
      ⟨⟨1, 1⟩, .popped⟩ ∈ (last init tr).workers ∧ (last init tr).pool 1 = none ∧
      ¬ Always (fun _ _ s' => s'.Placed ∧ s'.Apart) init tr) ∧
    ∃ tr, Run Step init tr ∧ tr.map Prod.fst = [.accept, .connected false true, .refuse 1] ∧
      ¬ Always (fun _ _ s' => s'.Placed ∧ s'.Apart) init tr := by
  refine ⟨⟨_, .cons (.accept 0 rfl (mtxFree_of rfl nofun rfl) rfl) <|
    .cons (.connected true true true rfl rfl id) <|
    .cons (.watch rfl (mtxFree_of rfl nofun rfl) ⟨true, rfl⟩) <|
    .cons (.accept 1 rfl (mtxFree_of rfl nofun rfl) rfl) <|
    .cons (.connected true true true rfl rfl id) <|
    .cons (.watch rfl (mtxFree_of rfl nofun rfl) ⟨true, rfl⟩) <|
    .cons (@Step.ready _ ⟨1, 1⟩ [] [⟨0, 0⟩] rfl rfl ⟨true, rfl⟩) <| .cons (.received rfl rfl) <|
    .cons (.handOver rfl) <| .cons (.pop rfl) <| .cons (.stop (mtxFree_of rfl nofun rfl)) <|
    .cons (.loopSweep rfl (mtxFree_of rfl nofun rfl) rfl) <|
    .cons (.scan .loop rfl rfl (mtxFree_of rfl nofun rfl)) <|
    .cons (.scanRemove .loop 1 ⟨1, true⟩ rfl Nat.one_pos rfl
      (@not_busy_of _ (.sweep .scanning) [⟨⟨1, 1⟩, .popped⟩] rfl nofun rfl (by simp) 1)) <|
    .nil _, rfl, List.mem_singleton.mpr rfl, rfl, ?_⟩, ⟨_,
    .cons (.accept 0 rfl (mtxFree_of rfl nofun rfl) rfl) <|
    .cons (.connected false true true rfl rfl id) <|
    .cons (.refuse 1 rfl (mtxFree_of rfl nofun rfl)) <| .nil _, rfl, ?_⟩⟩
  · intro hall
    obtain ⟨-, -, -, -, -, -, -, -, -, -, -, -, -, ⟨hp, -⟩, -⟩ := hall
    have hmem := (hp.mem_iff ⟨1, 1⟩).mp (List.mem_append_left _ (List.mem_append_left _
      (List.mem_append_right _ (List.mem_singleton.mpr rfl))))
    obtain ⟨ok, hx⟩ := hmem
    have hnone : (none : Option Slot) = some ⟨1, ok⟩ := hx
    cases hnone
  · intro hall
    obtain ⟨-, -, ⟨hp, -⟩, -⟩ := hall
    have hlive := (hp.mem_iff ⟨0, 0⟩).mpr ⟨true, rfl⟩
    simp [refs, Loop.refs, State.freeAt, State.setOk, State.call, init] at hlive

end State

end Tcp

end CodeSLoop
