import CodeSLoop.Comm.TcpOwnership

/-!
# The calls of the handler for a connection

For one id the handler is to be called with `on_connected`, then `on_data_arrival` any number of times, then
`on_disconnected`; the id may be given again after that (`Calls`).

When the peer has closed a connection, or its descriptor has failed, `new_data_cb` calls `on_disconnected` before
it frees the slot. A worker frees it without: when a read in `on_data_arrival` has noticed it first,
`process_data_cb` takes what the handler returns for the reason of the removal, or finds the state bad, and calls
nobody. A connection that is refused, or that a worker removes because the handler asks for it, is not told either,
and its id may be given again then. And `evit_ptr` may free the slot of another connection than the one that is
refused. `always_told_iff` says that this is all there is to it.
-/

namespace CodeSLoop

namespace Tcp

open Lts Tokens

/-- The calls for an id: `connected, data*, disconnected`, any number of times. The last argument is the connection
    that may have more. -/
inductive Calls (pos : Nat) : List (Ref × Callback) → Option Nat → Prop
  | nil : Calls pos [] none
  | connected {log : List (Ref × Callback)} (conn : Nat) :
      Calls pos log none → Calls pos (log ++ [(⟨pos, conn⟩, .connected)]) (some conn)
  | data {log : List (Ref × Callback)} {conn : Nat} :
      Calls pos log (some conn) → Calls pos (log ++ [(⟨pos, conn⟩, .data)]) (some conn)
  | disconnected {log : List (Ref × Callback)} {conn : Nat} :
      Calls pos log (some conn) → Calls pos (log ++ [(⟨pos, conn⟩, .disconnected)]) none
  | other {log : List (Ref × Callback)} {c : Option Nat} {r : Ref} (k : Callback) :
      r.pos ≠ pos → Calls pos log c → Calls pos (log ++ [(r, k)]) c

/-- The last call for an id. -/
def lastCall (log : List (Ref × Callback)) (pos : Nat) : Option Callback :=
  (log.reverse.find? (·.1.pos = pos)).map Prod.snd

theorem lastCall_append {log : List (Ref × Callback)} {r : Ref} {k : Callback} {pos : Nat} :
    lastCall (log ++ [(r, k)]) pos = if r.pos = pos then some k else lastCall log pos := by
  rw [lastCall, List.reverse_append, List.reverse_singleton, List.singleton_append, List.find?_cons]
  by_cases hpos : r.pos = pos
  · simp [hpos]
  · simp [hpos, lastCall]

/-- Nobody may have more calls: there were none, or the last one was `on_disconnected`. -/
theorem Calls.none_iff {log : List (Ref × Callback)} {c : Option Nat} {pos : Nat} (h : Calls pos log c) :
    c = none ↔ ∀ k, lastCall log pos = some k → k = .disconnected := by
  induction h with
  | nil => exact iff_of_true rfl nofun
  | connected conn => simp [lastCall_append]
  | data => simp [lastCall_append]
  | disconnected => simp [lastCall_append]
  | other k hne _ ih => rwa [lastCall_append, if_neg hne]

/-- Before an `on_connected` nobody may have more calls. -/
theorem Calls.before_connected {log : List (Ref × Callback)} {c : Option Nat} {pos conn : Nat}
    (h : Calls pos (log ++ [(⟨pos, conn⟩, .connected)]) c) : Calls pos log none := by
  generalize hl : log ++ [(⟨pos, conn⟩, .connected)] = l at h
  cases h with
  | nil => exact absurd hl (by simp)
  | connected conn' h => exact (List.append_inj' hl rfl).1 ▸ h
  | data h => cases (List.append_inj' hl rfl).2
  | disconnected h => cases (List.append_inj' hl rfl).2
  | other k hne h =>
    obtain ⟨-, heq⟩ := List.append_inj' hl rfl
    cases heq
    exact absurd rfl hne

/-- The loop thread neither calls `on_disconnected` nor removes all connections. -/
def Loop.quiet : Loop → Bool
  | .closing _ | .sweep _ => false
  | _ => true

theorem Loop.ne_closing {l : Loop} (h : l.quiet = true) (r : Ref) : l ≠ .closing r := by
  intro heq
  rw [heq] at h
  cases h

theorem Loop.ne_sweep {l : Loop} (h : l.quiet = true) (w : Sweep) : l ≠ .sweep w := by
  intro heq
  rw [heq] at h
  cases h

namespace State

variable {s s' : State} {r x : Ref} {a : Act}

/-- How often `on_disconnected` has been called for a connection. -/
def told (s : State) (r : Ref) : Nat := s.log.count (r, .disconnected)

/-- A connection that is freed with a bad descriptor, and that was not refused, has had one call
    of `on_disconnected`. -/
def TellsClosed (s s' : State) : Prop :=
  ∀ r, s.Holds r false → ¬ s'.Live r → s.loop ≠ .refusing r → s.told r = 1

/-- The calls for each id are in order. -/
def Ordered (s : State) : Prop := ∀ pos, ∃ c, Calls pos s.log c

/-- A connection gets an id that is new, or whose last connection was told; with a connection that is refused no
    other one goes whose descriptor is bad; and a worker removes a connection only while its descriptor is good. -/
def Heard (s : State) (a : Act) (s' : State) : Prop :=
  match a with
  | .accept => ∀ r, s'.loop = .connecting r → ∀ k, lastCall s.log r.pos = some k → k = .disconnected
  | .refuse found => ∀ c, s.pool found = some c → c.ok = false → s.loop = .refusing ⟨found, c.conn⟩
  | .remove r => s.Holds r true
  | _ => True

/-- No pointer is in two hands, whatever it points to. -/
structure Owned (s : State) : Prop where
  nodup : s.refs.Nodup
  fresh : ∀ r ∈ s.refs, r.conn < s.next

/-- What holds of the calls so far, as long as no stop is requested. -/
structure Logged (s : State) : Prop where
  stopMe : s.stopMe = false
  stopper : s.stopper = none
  no_sweep : ∀ w, s.loop ≠ .sweep w
  fresh : ∀ e ∈ s.log, e.1.conn < s.next
  current : ∀ r, s.Live r → s.loop ≠ .closing r →
    Calls r.pos s.log (some r.conn) ∧ s.told r = 0
  closing : ∀ r, s.loop = .closing r → s.told r = 1
  ordered : s.Ordered

theorem logged_init : init.Logged where
  stopMe := rfl
  stopper := rfl
  no_sweep := nofun
  fresh := by simp [init]
  current := fun _ ⟨_, hx⟩ => by cases hx
  closing := nofun
  ordered := fun _ => ⟨none, .nil⟩

theorem owned_init : init.Owned := ⟨List.nodup_nil, nofun⟩

/-- **Pointers are only handed on**, or dropped; a new one is for a connection that is new. -/
theorem count_step (hstep : Step s a s') :
    (s'.next = s.next ∧ ∀ x, s'.refs.count x ≤ s.refs.count x) ∨
      ∃ pos, s'.next = s.next + 1 ∧ ∀ x, s'.refs.count x = (⟨pos, s.next⟩ :: s.refs).count x := by
  have hsweep {who : Who} {w w' : Sweep} (hw : s.sweeping who = some w)
      (hsub : ∀ x, w'.refs.count x ≤ w.refs.count x) :
      (s.setSweep w' who).next = s.next ∧ ∀ x, (s.setSweep w' who).refs.count x ≤ s.refs.count x := by
    refine ⟨by cases who <;> rfl, fun x => ?_⟩
    have hc := @count_setSweep s x who w w' hw
    have hle := hsub x
    omega
  cases hstep with
  | accept pos hl hm hfree =>
    refine Or.inr ⟨pos, rfl, fun x => ?_⟩
    simp only [count_refs, setOk, call, hl, Loop.refs, List.count_cons, List.count_nil]
    omega
  | connected cres ok ok₀ hl hr hok =>
    refine Or.inl ⟨rfl, fun x => ?_⟩
    cases cres <;> simp [count_refs, setOk, hl, Loop.refs]
  | refuse found hl hm =>
    refine Or.inl ⟨rfl, fun x => ?_⟩
    simp only [count_refs, freeAt, hl, Loop.refs, List.count_nil]
    omega
  | watch hl hm hr =>
    refine Or.inl ⟨rfl, fun x => ?_⟩
    simp only [count_refs, hl, Loop.refs, List.count_cons, List.count_nil]
    omega
  | ready hl hw hr =>
    refine Or.inl ⟨rfl, fun x => ?_⟩
    simp only [count_refs, hl, hw, Loop.refs, List.count_append, List.count_cons, List.count_nil]
    omega
  | received hl hr =>
    refine Or.inl ⟨rfl, fun x => ?_⟩
    simp only [count_refs, hl, Loop.refs, le_refl]
  | closed ok₀ hl hr =>
    refine Or.inl ⟨rfl, fun x => ?_⟩
    simp only [count_refs, setOk, call, hl, Loop.refs, le_refl]
  | handOver hl =>
    refine Or.inl ⟨rfl, fun x => ?_⟩
    simp only [count_refs, hl, Loop.refs, List.count_append, List.count_nil]
    omega
  | removeClosed hl hm hb hr =>
    refine Or.inl ⟨rfl, fun x => ?_⟩
    simp only [count_refs, freeAt, hl, Loop.refs, List.count_nil]
    omega
  | wake hl hm hs =>
    refine Or.inl ⟨rfl, fun x => ?_⟩
    simp only [count_refs, hl, Loop.refs, le_refl]
  | requeue hl hq =>
    refine Or.inl ⟨rfl, fun x => ?_⟩
    simp only [count_refs, hl, hq, Loop.refs, List.count_cons, List.count_nil]
    omega
  | rewatch hl hr =>
    refine Or.inl ⟨rfl, fun x => ?_⟩
    simp only [count_refs, hl, Loop.refs, List.count_cons, List.count_nil]
    omega
  | wakeDone hl hq =>
    refine Or.inl ⟨rfl, fun x => ?_⟩
    simp only [count_refs, hl, Loop.refs, le_refl]
  | pop hq =>
    refine Or.inl ⟨rfl, fun x => ?_⟩
    simp only [count_refs, hq, List.map_cons, List.count_cons]
    omega
  | arrive hw hb hr =>
    refine Or.inl ⟨rfl, fun x => ?_⟩
    simp only [count_refs, call, hw, List.map_append, List.map_cons, le_refl]
  | handled hres ok ok₀ hw hr hok =>
    refine Or.inl ⟨rfl, fun x => ?_⟩
    simp only [count_refs, setOk, hw, List.map_append, List.map_cons, le_refl]
  | remove hres ok hw hr hbad hm hb =>
    refine Or.inl ⟨rfl, fun x => ?_⟩
    simp only [count_refs, freeAt, hw, List.map_append, List.map_cons, List.count_append, List.count_cons]
    omega
  | giveBack hw hr =>
    refine Or.inl ⟨rfl, fun x => ?_⟩
    simp only [count_refs, hw, List.map_append, List.map_cons, List.count_append, List.count_cons, List.count_nil]
    omega
  | stop hm => exact Or.inl ⟨rfl, fun x => le_rfl⟩
  | loopSweep hl hm hs =>
    refine Or.inl ⟨rfl, fun x => ?_⟩
    simp only [count_refs, setSweep, hl, Loop.refs, Sweep.refs, le_refl]
  | stopperSweep hn hs =>
    refine Or.inl ⟨rfl, fun x => ?_⟩
    simp [count_refs, setSweep, hn, Sweep.refs]
  | sweepPop who hw hq =>
    rename_i r q
    have hw' : State.sweeping { s with idle := q } who = some .emptying := by
      cases who with
      | loop => exact hw
      | stopper => exact hw
    refine Or.inl ⟨by cases who <;> rfl, fun x => ?_⟩
    have hc := @count_setSweep { s with idle := q } x who .emptying (.popped r) hw'
    have hidle : s.refs.count x = { s with idle := q }.refs.count x + [r].count x := by
      simp only [count_refs, hq, List.count_cons, List.count_nil]
      omega
    rw [hidle]
    exact hc.le
  | sweepRemove who hw hm hb hr => exact Or.inl (hsweep hw fun x => Nat.zero_le _)
  | scan who hw hq hm => exact Or.inl (hsweep hw fun x => le_rfl)
  | scanRemove who pos c hw hpos hused hb => exact Or.inl ⟨rfl, fun x => le_rfl⟩
  | sweepDone who hw =>
    refine Or.inl ⟨by cases who <;> rfl, fun x => ?_⟩
    have hc := @count_endSweep s x who .scanning hw
    omega

theorem Owned.step (h : s.Owned) (hstep : Step s a s') : s'.Owned := by
  rcases count_step hstep with ⟨hnext, hle⟩ | ⟨pos, hnext, heq⟩
  · refine ⟨List.nodup_iff_count_le_one.mpr fun x => ?_, fun r hr => ?_⟩
    · exact (hle x).trans (List.nodup_iff_count_le_one.mp h.nodup x)
    · rw [hnext]
      exact h.fresh r (List.count_pos_iff.mp ((List.count_pos_iff.mpr hr).trans_le (hle r)))
  · have hperm : s'.refs.Perm (⟨pos, s.next⟩ :: s.refs) := List.perm_iff_count.mpr heq
    refine ⟨hperm.nodup_iff.mpr (List.nodup_cons.mpr ⟨fun hmem => ?_, h.nodup⟩), fun r hr => ?_⟩
    · exact Nat.lt_irrefl _ (h.fresh _ hmem)
    · rw [hnext]
      rcases List.mem_cons.mp (hperm.mem_iff.mp hr) with rfl | hmem
      · exact Nat.lt_succ_self _
      · exact Nat.lt_succ_of_lt (h.fresh r hmem)

/-- A connection that a worker has is not in the hands of the loop thread. -/
theorem Owned.not_mem_loop (h : s.Owned) (hr : r ∈ s.workers.map Worker.ref) :
    r ∉ s.loop.refs := by
  intro hl
  have hle := List.nodup_iff_count_le_one.mp h.nodup r
  have hpos := List.count_pos_iff.mpr hr
  have hpos' := List.count_pos_iff.mpr hl
  rw [count_refs] at hle
  omega

theorem Owned.not_closing (h : s.Owned) (hr : r ∈ s.workers.map Worker.ref) :
    s.loop ≠ .closing r := by
  intro hl
  have hmem := h.not_mem_loop hr
  rw [hl] at hmem
  exact hmem (List.mem_singleton.mpr rfl)

theorem Owned.not_refusing (h : s.Owned) (hr : r ∈ s.workers.map Worker.ref) :
    s.loop ≠ .refusing r := by
  intro hl
  have hmem := h.not_mem_loop hr
  rw [hl] at hmem
  exact hmem (List.mem_singleton.mpr rfl)

/-- A slot is freed, whatever is in it. -/
theorem live_freeAt_iff {pos : Nat} : (s.freeAt pos).Live x ↔ x.pos ≠ pos ∧ s.Live x := by
  by_cases hpos : x.pos = pos
  · refine iff_of_false ?_ fun hx => hx.1 hpos
    rintro ⟨ok, hx⟩
    rw [Holds, pool_freeAt, hpos, Function.update_self] at hx
    cases hx
  · rw [live_freeAt_of_ne hpos, and_iff_right hpos]

/-- A connection that may have more calls has had its first. -/
theorem calls_mem {log : List (Ref × Callback)} {c : Option Nat} {pos : Nat}
    (h : Calls pos log c) : ∀ conn, c = some conn → (⟨pos, conn⟩, .connected) ∈ log := by
  induction h with
  | nil => nofun
  | connected conn h ih =>
    intro conn' hc
    cases hc
    exact List.mem_append_right _ (List.mem_singleton.mpr rfl)
  | data h ih => exact fun conn' hc => List.mem_append_left _ (ih conn' hc)
  | disconnected h ih => nofun
  | other k hne h ih => exact fun conn' hc => List.mem_append_left _ (ih conn' hc)

theorem Logged.conn_lt (h : s.Logged) (hr : s.Live r) (hne : s.loop ≠ .closing r) :
    r.conn < s.next := h.fresh _ (calls_mem (h.current r hr hne).1 r.conn rfl)

/-- Steps without calls. -/
theorem Logged.keep (h : s.Logged) (hlog : s'.log = s.log) (hnext : s'.next = s.next)
    (hstop : s'.stopMe = false) (hstopper : s'.stopper = none) (hsweep : ∀ w, s'.loop ≠ .sweep w)
    (hlive : ∀ x, s'.Live x → s'.loop ≠ .closing x → s.Live x ∧ s.loop ≠ .closing x)
    (hclosing : ∀ x, s'.loop = .closing x → s.loop = .closing x) : s'.Logged where
  stopMe := hstop
  stopper := hstopper
  no_sweep := hsweep
  fresh := by
    rw [hlog, hnext]
    exact h.fresh
  current := by
    intro x hx hne
    obtain ⟨hx', hne'⟩ := hlive x hx hne
    rw [told, hlog]
    exact h.current x hx' hne'
  closing := by
    intro x hx
    rw [told, hlog]
    exact h.closing x (hclosing x hx)
  ordered := by
    rw [Ordered, hlog]
    exact h.ordered

theorem not_live_of_none {pos conn : Nat} (h : s.pool pos = none) : ¬ s.Live ⟨pos, conn⟩ := by
  rintro ⟨ok, hx⟩
  cases h.symm.trans hx

/-- A call for a connection, which may then have more. -/
theorem Logged.call (h : s.Logged) {k : Callback} {next : Nat} (hlog : s'.log = s.log ++ [(r, k)])
    (hk : k ≠ .disconnected) (hnext : s'.next = next) (hle : s.next ≤ next) (hr : r.conn < next)
    (hcalls : Calls r.pos s'.log (some r.conn)) (hstop : s'.stopMe = false)
    (hstopper : s'.stopper = none) (hsweep : ∀ w, s'.loop ≠ .sweep w)
    (htold : s.told r = 0)
    (hlive : ∀ x, s'.Live x → s'.loop ≠ .closing x → x = r ∨ x.pos ≠ r.pos ∧ s.Live x ∧
      s.loop ≠ .closing x)
    (hclosing : ∀ x, s'.loop = .closing x → s.loop = .closing x) : s'.Logged := by
  have htold' : ∀ x, s'.told x = s.told x := fun x => by
    have hne : ((r, k) == (x, Callback.disconnected)) = false := by
      rw [beq_eq_false_iff_ne]
      exact fun heq => hk (congrArg Prod.snd heq)
    rw [told, hlog, List.count_append, List.count_cons, hne]
    rfl
  refine ⟨hstop, hstopper, hsweep, fun e he => ?_, fun x hx hne => ?_, fun x hx => ?_,
    fun pos => ?_⟩
  · rw [hlog] at he
    rw [hnext]
    rcases List.mem_append.mp he with he | he
    · exact Nat.lt_of_lt_of_le (h.fresh e he) hle
    · rw [List.mem_singleton.mp he]
      exact hr
  · rw [htold']
    rcases hlive x hx hne with rfl | ⟨hpos, hx', hne'⟩
    · exact ⟨hcalls, htold⟩
    · obtain ⟨hc, ht⟩ := h.current x hx' hne'
      rw [hlog]
      exact ⟨.other k (fun heq => hpos heq.symm) hc, ht⟩
  · rw [htold']
    exact h.closing x (hclosing x hx)
  · by_cases hpos : r.pos = pos
    · rw [← hpos]
      exact ⟨_, hcalls⟩
    · obtain ⟨c, hc⟩ := h.ordered pos
      rw [hlog]
      exact ⟨c, .other k hpos hc⟩

theorem Logged.sweeping_eq (h : s.Logged) (who : Who) : s.sweeping who = none := by
  cases who with
  | loop =>
    unfold sweeping
    cases hl : s.loop with
    | sweep w => exact absurd hl (h.no_sweep w)
    | _ => rfl
  | stopper => exact h.stopper

/-- Steps that free no slot. -/
theorem tells_of_live (hlive : ∀ x, s.Live x → s'.Live x) : s.TellsClosed s' :=
  fun x hx hdead _ => absurd (hlive x hx.live) hdead

/-- Steps that free one. -/
theorem tells_freeAt (hr : s.Live r) (hlive : ∀ x, s'.Live x ↔ (s.freeAt r.pos).Live x) :
    s.TellsClosed s' ↔ (s.Holds r false → s.loop ≠ .refusing r → s.told r = 1) := by
  constructor
  · intro h hbad hne
    refine h r hbad (fun hx => ?_) hne
    exact ((live_freeAt hr).mp ((hlive r).mp hx)).1 rfl
  · intro h x hbad hdead hne
    have heq : x = r := by
      by_contra hx
      exact hdead ((hlive x).mpr ((live_freeAt hr).mpr ⟨hx, hbad.live⟩))
    rw [heq] at hbad hne ⊢
    exact h hbad hne

/-- Steps between places where `on_disconnected` is not being called. -/
theorem Logged.moved (h : s.Logged) (hlog : s'.log = s.log) (hnext : s'.next = s.next)
    (hstop : s'.stopMe = false) (hstopper : s'.stopper = none) (hl : s.loop.quiet = true)
    (hl' : s'.loop.quiet = true) (hlive : ∀ x, s'.Live x ↔ s.Live x) (hn : s.Heard a s') :
    s'.Logged ∧ (s.TellsClosed s' ↔ s.Heard a s') :=
  ⟨h.keep hlog hnext hstop hstopper (Loop.ne_sweep hl')
    (fun x hx _ => ⟨(hlive x).mp hx, Loop.ne_closing hl x⟩)
    fun x hx => absurd hx (Loop.ne_closing hl' x),
    iff_of_true (tells_of_live fun x hx => (hlive x).mpr hx) hn⟩

/-- Steps beside the loop, which call nothing and free no slot. -/
theorem Logged.beside (h : s.Logged) (hlog : s'.log = s.log) (hnext : s'.next = s.next)
    (hstop : s'.stopMe = false) (hstopper : s'.stopper = none) (hl : s'.loop = s.loop)
    (hlive : ∀ x, s'.Live x ↔ s.Live x) (hn : s.Heard a s') :
    s'.Logged ∧ (s.TellsClosed s' ↔ s.Heard a s') := by
  refine ⟨h.keep hlog hnext hstop hstopper ?_ ?_ ?_, ?_⟩
  · intro w
    rw [hl]
    exact h.no_sweep w
  · intro x hx hne
    rw [hl] at hne
    exact ⟨(hlive x).mp hx, hne⟩
  · intro x hx
    rwa [hl] at hx
  · exact iff_of_true (tells_of_live fun x hx => (hlive x).mpr hx) hn

/-- `on_disconnected` is called. -/
theorem Logged.tell (h : s.Logged) (hr : s.Live r) (hl : s.loop = .reading r)
    (hlog : s'.log = s.log ++ [(r, .disconnected)]) (hnext : s'.next = s.next)
    (hstop : s'.stopMe = false) (hstopper : s'.stopper = none) (hl' : s'.loop = .closing r)
    (hlive : ∀ x, s'.Live x ↔ s.Live x) : s'.Logged := by
  -- the loop was reading it, so nobody has been told before
  have hne : ∀ x, s.loop ≠ .closing x := by
    rw [hl]
    nofun
  obtain ⟨hc, ht⟩ := h.current r hr (hne r)
  refine ⟨hstop, hstopper, by rw [hl']; nofun, fun e he => ?_, fun x hx hx' => ?_, fun x hx => ?_,
    fun pos => ?_⟩
  · rw [hlog] at he
    rw [hnext]
    rcases List.mem_append.mp he with he | he
    · exact h.fresh e he
    · rw [List.mem_singleton.mp he]
      exact h.conn_lt hr (hne r)
  · rw [hl'] at hx'
    have hxr : x ≠ r := fun heq => hx' (by rw [heq])
    have hlx := (hlive x).mp hx
    have hpos : r.pos ≠ x.pos := fun heq => hxr (hr.conn_eq hlx heq).symm
    obtain ⟨hcx, htx⟩ := h.current x hlx (hne x)
    have hbeq : ((r, Callback.disconnected) == (x, Callback.disconnected)) = false := by
      rw [beq_eq_false_iff_ne]
      exact fun heq => hxr (congrArg Prod.fst heq).symm
    rw [told, hlog, List.count_append, List.count_cons, hbeq]
    exact ⟨.other _ hpos hcx, htx⟩
  · rw [hl', Loop.closing.injEq] at hx
    rw [← hx, told, hlog, List.count_append, List.count_singleton_self]
    exact congrArg (· + 1) ht
  · rw [hlog]
    by_cases hpos : r.pos = pos
    · rw [← hpos]
      exact ⟨none, .disconnected hc⟩
    · obtain ⟨c, hcp⟩ := h.ordered pos
      exact ⟨c, .other _ hpos hcp⟩

/-- A connection is accepted: its id may have more calls exactly if nobody of that id has. -/
theorem Logged.accept (h : s.Logged) {pos : Nat} (hl : s.loop = .idle) (hfree : s.pool pos = none)
    (hs' : s' = ({ s with next := s.next + 1, loop := .connecting ⟨pos, s.next⟩ }.setOk ⟨pos, s.next⟩ true).call
      ⟨pos, s.next⟩ .connected) :
    (s.TellsClosed s' ∧ s'.Ordered ↔ s.Heard .accept s') ∧ (s.Heard .accept s' → s'.Logged) := by
  -- a number that has not been given yet has no calls
  have htold : s.told ⟨pos, s.next⟩ = 0 := by
    refine List.count_eq_zero.mpr fun hmem => ?_
    exact Nat.lt_irrefl _ (h.fresh _ hmem)
  have hlog : s'.log = s.log ++ [(⟨pos, s.next⟩, .connected)] := by rw [hs']; rfl
  have hloop : s'.loop = .connecting ⟨pos, s.next⟩ := by rw [hs']; rfl
  have hlive (x : Ref) : s'.Live x ↔ x = ⟨pos, s.next⟩ ∨ s.Live x := by
    rw [hs']
    exact live_new hfree
  obtain ⟨c, hc⟩ := h.ordered pos
  have hheard : s.Heard .accept s' → c = none := by
    intro hheard
    exact hc.none_iff.mpr (hheard ⟨pos, s.next⟩ hloop)
  have hlogged (hheard' : s.Heard .accept s') : s'.Logged := by
    have hnone := hheard hheard'
    subst hnone
    refine h.call (r := ⟨pos, s.next⟩) hlog (by decide) (by rw [hs']; rfl) (Nat.le_succ _) (Nat.lt_succ_self _)
      (hlog ▸ .connected _ hc) (by rw [hs']; exact h.stopMe) (by rw [hs']; exact h.stopper)
      (Loop.ne_sweep (by rw [hloop]; rfl)) htold (fun x hx _ => ?_)
      (fun x hx => by rw [hloop] at hx; cases hx)
    refine ((hlive x).mp hx).imp_right fun hx => ⟨fun hpos => ?_, hx, ?_⟩
    · have hpos : x.pos = pos := hpos
      cases x with
      | mk p c =>
        rw [← hpos] at hfree
        exact not_live_of_none hfree hx
    · rw [hl]
      exact Loop.noConfusion
  refine ⟨⟨fun hall r hr k hk => ?_, fun hheard' => ⟨?_, (hlogged hheard').ordered⟩⟩, hlogged⟩
  · rw [hloop, Loop.connecting.injEq] at hr
    subst hr
    obtain ⟨c', hc'⟩ := hall.2 pos
    rw [hlog] at hc'
    exact hc'.before_connected.none_iff.mp rfl k hk
  · exact tells_of_live fun x hx => (hlive x).mpr (Or.inr hx)

/-- **One step.** -/
theorem heard_iff (hp : s.Owned) (h : s.Logged) (hne : a ≠ .stop) (hstep : Step s a s') :
    (s.TellsClosed s' ∧ s'.Ordered ↔ s.Heard a s') ∧ (s.Heard a s' → s'.Logged) := by
  have hstop := h.stopMe
  have hstopper := h.stopper
  -- but for `accept`, the order is kept
  have hkept (hall : s'.Logged ∧ (s.TellsClosed s' ↔ s.Heard a s')) :
      (s.TellsClosed s' ∧ s'.Ordered ↔ s.Heard a s') ∧ (s.Heard a s' → s'.Logged) :=
    ⟨(and_iff_left hall.1.ordered).trans hall.2, fun _ => hall.1⟩
  cases hstep with
  | accept pos hl hm hfree => exact h.accept hl hfree rfl
  | connected cres ok ok₀ hl hr hok =>
    exact hkept <| h.moved rfl rfl hstop hstopper (by rw [hl]; rfl)
      (by cases cres <;> rfl) (fun x => live_setOk hr.live) trivial
  | refuse found hl hm =>
    rename_i r
    refine hkept ⟨h.keep rfl rfl hstop hstopper (Loop.ne_sweep rfl)
      (fun x hx _ => ⟨(live_freeAt_iff.mp hx).2, ?_⟩) (fun _ => Loop.noConfusion), ?_⟩
    · rw [hl]
      exact Loop.noConfusion
    · constructor
      · intro htells c hc hbad
        by_contra hother
        have hholds : s.Holds ⟨found, c.conn⟩ false := hbad ▸ hc
        have hdead : ¬ ({ s with loop := .idle }.freeAt found).Live ⟨found, c.conn⟩ :=
          fun hlive => (live_freeAt_iff.mp hlive).1 rfl
        have hone := htells _ hholds hdead hother
        have hzero := (h.current _ hholds.live (by rw [hl]; exact Loop.noConfusion)).2
        omega
      · intro hheard x hbad hdead hother
        have hpos : x.pos = found := by
          by_contra hpos
          exact hdead (live_freeAt_iff.mpr ⟨hpos, hbad.live⟩)
        subst hpos
        exact absurd (hheard ⟨x.conn, false⟩ hbad rfl) hother
  | watch hl hm hr =>
    exact hkept <| h.moved rfl rfl hstop hstopper (by rw [hl]; rfl) rfl (fun x => Iff.rfl) trivial
  | ready hl hw hr =>
    exact hkept <| h.moved rfl rfl hstop hstopper (by rw [hl]; rfl) rfl (fun x => Iff.rfl) trivial
  | received hl hr =>
    exact hkept <| h.moved rfl rfl hstop hstopper (by rw [hl]; rfl) rfl (fun x => Iff.rfl) trivial
  | closed ok₀ hl hr =>
    have hlive : ∀ x, _ ↔ s.Live x := fun x => @live_setOk s _ x false hr.live
    exact hkept ⟨h.tell hr.live hl rfl rfl hstop hstopper rfl hlive,
      iff_of_true (tells_of_live fun x hx => (hlive x).mpr hx) trivial⟩
  | handOver hl =>
    exact hkept <| h.moved rfl rfl hstop hstopper (by rw [hl]; rfl) rfl (fun x => Iff.rfl) trivial
  | removeClosed hl hm hb hr =>
    refine hkept ⟨h.keep rfl rfl hstop hstopper (Loop.ne_sweep rfl)
      (fun x hx _ => ⟨((live_freeAt hr).mp hx).2, ?_⟩) (fun _ => Loop.noConfusion), ?_⟩
    · rw [hl]
      intro heq
      cases heq
      exact ((live_freeAt hr).mp hx).1 rfl
    · exact iff_of_true ((tells_freeAt hr fun x => Iff.rfl).mpr fun _ _ => h.closing _ hl) trivial
  | wake hl hm hs =>
    exact hkept <| h.moved rfl rfl hstop hstopper (by rw [hl]; rfl) rfl (fun x => Iff.rfl) trivial
  | requeue hl hq =>
    exact hkept <| h.moved rfl rfl hstop hstopper (by rw [hl]; rfl) rfl (fun x => Iff.rfl) trivial
  | rewatch hl hr =>
    exact hkept <| h.moved rfl rfl hstop hstopper (by rw [hl]; rfl) rfl (fun x => Iff.rfl) trivial
  | wakeDone hl hq =>
    exact hkept <| h.moved rfl rfl hstop hstopper (by rw [hl]; rfl) rfl (fun x => Iff.rfl) trivial
  | pop hq => exact hkept <| h.beside rfl rfl hstop hstopper rfl (fun x => Iff.rfl) trivial
  | arrive hw hb hr =>
    rename_i r _ _
    have hmem : r ∈ s.workers.map Worker.ref := by
      rw [hw, List.map_append]
      simp
    -- a worker has it, so the loop is not closing it
    have hcl := hp.not_closing hmem
    obtain ⟨hc, ht⟩ := h.current _ hr hcl
    refine hkept ⟨h.call rfl (by decide) rfl (Nat.le_refl _) (h.conn_lt hr hcl) (.data hc) hstop hstopper
      h.no_sweep ht (fun x hx hne => ?_) fun _ => id,
      iff_of_true (tells_of_live fun x hx => hx) trivial⟩
    by_cases hpos : x.pos = r.pos
    · exact Or.inl (Live.conn_eq hx hr hpos)
    · exact Or.inr ⟨hpos, hx, hne⟩
  | handled hres ok ok₀ hw hr hok =>
    exact hkept <| h.beside rfl rfl hstop hstopper rfl (fun x => live_setOk hr.live) trivial
  | remove hres ok hw hr hbad hm hb =>
    rename_i r _ _
    have hmem : r ∈ s.workers.map Worker.ref := by
      rw [hw, List.map_append]
      simp
    refine hkept ⟨h.keep rfl rfl hstop hstopper h.no_sweep
      (fun x hx hne => ⟨((live_freeAt hr.live).mp hx).2, hne⟩) fun _ => id, ?_⟩
    refine (tells_freeAt hr.live fun x => Iff.rfl).trans ?_
    cases ok with
    -- a worker removes it without a call of `on_disconnected`: with a bad descriptor nobody was told
    | true => exact iff_of_true (fun hf _ => by cases hr.symm.trans hf) hr
    | false =>
      refine iff_of_false (fun htell => ?_) fun ht => by cases hr.symm.trans ht
      have h0 := (h.current r hr.live (hp.not_closing hmem)).2
      have h1 := htell hr (hp.not_refusing hmem)
      omega
  | giveBack hw hr => exact hkept <| h.beside rfl rfl hstop hstopper rfl (fun x => Iff.rfl) trivial
  | stop hm => exact absurd rfl hne
  | loopSweep hl hm hs => cases hs.symm.trans hstop
  | stopperSweep hn hs => cases hs.symm.trans hstop
  | sweepPop who hw hq => cases hw.symm.trans (h.sweeping_eq who)
  | sweepRemove who hw hm hb hr => cases hw.symm.trans (h.sweeping_eq who)
  | scan who hw hq hm => cases hw.symm.trans (h.sweeping_eq who)
  | scanRemove who pos c hw hpos hused hb => cases hw.symm.trans (h.sweeping_eq who)
  | sweepDone who hw => cases hw.symm.trans (h.sweeping_eq who)

/-- **All runs before a stop**: the calls for each id are `connected, data*, disconnected`, over and over, and of a
    connection that is removed with a bad descriptor the handler has been told, once, exactly when ids are given
    again only behind `on_disconnected`, refusing a connection takes no other one with a bad descriptor away, and
    workers remove none with a bad descriptor. -/
theorem always_told_iff {tr : List (Act × State)} (h : Run Step init tr)
    (hbefore : Always (fun _ a _ => a ≠ .stop) init tr) :
    Always (fun s _ s' => s.TellsClosed s' ∧ s'.Ordered) init tr ↔ Always Heard init tr := by
  refine h.always_iff_of_guard (I := fun s => s.Owned ∧ s.Logged) ?_ ?_ ⟨owned_init, logged_init⟩ hbefore
  · rintro s a s' ⟨hp, hlog⟩ hne hstep
    exact (heard_iff hp hlog hne hstep).1
  · rintro s a s' ⟨hp, hlog⟩ hne hstep htold
    obtain ⟨hiff, hlogged⟩ := heard_iff hp hlog hne hstep
    exact ⟨hp.step hstep, hlogged (hiff.mp htold)⟩

/-- A connection has data, is watched again and is found closed by the loop; its id is given again, to a connection
    that is refused. -/
theorem always_told_iff_loop : ∃ tr : List (Act × State), tr.map Prod.fst =
      [.accept, .connected true true, .watch, .ready ⟨0, 0⟩, .recvSome true, .handOver, .pop, .arrive ⟨0, 0⟩,
        .handled ⟨0, 0⟩ true true, .giveBack ⟨0, 0⟩, .wake, .requeue, .rewatch, .wakeDone, .ready ⟨0, 0⟩,
        .recvSome false, .removeClosed, .accept, .connected false true, .refuse 0] ∧
    Always (fun s _ s' => s.TellsClosed s' ∧ s'.Ordered) init tr := by
  refine ⟨_, rfl, (always_told_iff
    (.cons (.accept 0 rfl (mtxFree_of rfl nofun rfl) rfl) <|
    .cons (.connected true true true rfl rfl id) <|
    .cons (.watch rfl (mtxFree_of rfl nofun rfl) ⟨true, rfl⟩) <|
    .cons (@Step.ready _ ⟨0, 0⟩ [] [] rfl rfl ⟨true, rfl⟩) <| .cons (.received rfl rfl) <|
    .cons (.handOver rfl) <| .cons (.pop rfl) <|
    .cons (@Step.arrive _ ⟨0, 0⟩ [] [] rfl
      (@not_busy_of _ .idle [⟨⟨0, 0⟩, .popped⟩] rfl nofun rfl (by simp) 0) ⟨true, rfl⟩) <|
    .cons (@Step.handled _ ⟨0, 0⟩ [] [] true true true rfl rfl id) <|
    .cons (@Step.giveBack _ ⟨0, 0⟩ [] [] rfl rfl) <|
    .cons (.wake rfl (mtxFree_of rfl nofun rfl) rfl) <| .cons (.requeue rfl rfl) <|
    .cons (.rewatch rfl ⟨true, rfl⟩) <| .cons (.wakeDone rfl rfl) <|
    .cons (@Step.ready _ ⟨0, 0⟩ [] [] rfl rfl ⟨true, rfl⟩) <| .cons (.closed true rfl rfl) <|
    .cons (.removeClosed rfl (mtxFree_of rfl nofun rfl)
      (@not_busy_of _ (.closing ⟨0, 0⟩) [] rfl nofun rfl nofun 0) ⟨false, rfl⟩) <|
    .cons (.accept 0 rfl (mtxFree_of rfl nofun rfl) rfl) <|
    .cons (.connected false true true rfl rfl id) <|
    .cons (.refuse 0 rfl (mtxFree_of rfl nofun rfl)) <| .nil _) ?_).mpr ?_⟩
  · exact ⟨nofun, nofun, nofun, nofun, nofun, nofun, nofun, nofun, nofun, nofun, nofun, nofun, nofun, nofun, nofun,
      nofun, nofun, nofun, nofun, nofun, trivial⟩
  · refine ⟨fun r hr k hk => ?_, trivial, trivial, trivial, trivial, trivial, trivial, trivial, trivial, trivial,
      trivial, trivial, trivial, trivial, trivial, trivial, trivial, fun r hr k hk => ?_, trivial,
      fun c hc hbad => ?_, trivial⟩
    · cases hk
    · cases hr
      exact Option.some.inj (hk.symm.trans rfl)
    · cases hc
      cases hbad

/-- A connection that is found closed by the handler, which returns `true`; and one that the handler asks to remove,
    whose id is given again. -/
theorem always_told_fails :
    (∃ tr, Run Step init tr ∧ tr.map Prod.fst =
        [.accept, .connected true true, .watch, .ready ⟨0, 0⟩, .recvSome true, .handOver, .pop,
          .arrive ⟨0, 0⟩, .handled ⟨0, 0⟩ true false, .remove ⟨0, 0⟩] ∧
      ¬ Always (fun s _ s' => s.TellsClosed s' ∧ s'.Ordered) init tr) ∧
    ∃ tr, Run Step init tr ∧ tr.map Prod.fst =
        [.accept, .connected true true, .watch, .ready ⟨0, 0⟩, .recvSome true, .handOver, .pop,
          .arrive ⟨0, 0⟩, .handled ⟨0, 0⟩ false true, .remove ⟨0, 0⟩, .accept] ∧
      ¬ Always (fun s _ s' => s.TellsClosed s' ∧ s'.Ordered) init tr := by
  refine ⟨⟨_, .cons (.accept 0 rfl (mtxFree_of rfl nofun rfl) rfl) <|
    .cons (.connected true true true rfl rfl id) <|
    .cons (.watch rfl (mtxFree_of rfl nofun rfl) ⟨true, rfl⟩) <|
    .cons (@Step.ready _ ⟨0, 0⟩ [] [] rfl rfl ⟨true, rfl⟩) <| .cons (.received rfl rfl) <|
    .cons (.handOver rfl) <| .cons (.pop rfl) <|
    .cons (@Step.arrive _ ⟨0, 0⟩ [] [] rfl
      (@not_busy_of _ .idle [⟨⟨0, 0⟩, .popped⟩] rfl nofun rfl (by simp) 0) ⟨true, rfl⟩) <|
    .cons (@Step.handled _ ⟨0, 0⟩ [] [] true false true rfl rfl nofun) <|
    .cons (@Step.remove _ ⟨0, 0⟩ [] [] true false rfl rfl (Or.inr rfl) (mtxFree_of rfl nofun rfl)
      (@not_busy_of _ .idle [⟨⟨0, 0⟩, .returned true⟩] rfl nofun rfl (by simp) 0)) <| .nil _,
    rfl, ?_⟩, ⟨_, .cons (.accept 0 rfl (mtxFree_of rfl nofun rfl) rfl) <|
    .cons (.connected true true true rfl rfl id) <|
    .cons (.watch rfl (mtxFree_of rfl nofun rfl) ⟨true, rfl⟩) <|
    .cons (@Step.ready _ ⟨0, 0⟩ [] [] rfl rfl ⟨true, rfl⟩) <| .cons (.received rfl rfl) <|
    .cons (.handOver rfl) <| .cons (.pop rfl) <|
    .cons (@Step.arrive _ ⟨0, 0⟩ [] [] rfl
      (@not_busy_of _ .idle [⟨⟨0, 0⟩, .popped⟩] rfl nofun rfl (by simp) 0) ⟨true, rfl⟩) <|
    .cons (@Step.handled _ ⟨0, 0⟩ [] [] false true true rfl rfl id) <|
    .cons (@Step.remove _ ⟨0, 0⟩ [] [] false true rfl rfl (Or.inl rfl) (mtxFree_of rfl nofun rfl)
      (@not_busy_of _ .idle [⟨⟨0, 0⟩, .returned false⟩] rfl nofun rfl (by simp) 0)) <|
    .cons (.accept 0 rfl (mtxFree_of rfl nofun rfl) rfl) <| .nil _, rfl, ?_⟩⟩
  · intro hall
    obtain ⟨-, -, -, -, -, -, -, -, -, ⟨htold, -⟩, -⟩ := hall
    have h1 := htold ⟨0, 0⟩ rfl (not_live_of_none rfl) nofun
    exact absurd h1 (by decide)
  · intro hall
    obtain ⟨-, -, -, -, -, -, -, -, -, -, ⟨-, hordered⟩, -⟩ := hall
    obtain ⟨c, hc⟩ := hordered 0
    have hlast : lastCall [(⟨0, 0⟩, .connected), (⟨0, 0⟩, .data)] 0 = some .data := rfl
    have hbefore := @Calls.before_connected [(⟨0, 0⟩, .connected), (⟨0, 0⟩, .data)] c 0 1 hc
    exact absurd (hbefore.none_iff.mp rfl _ hlast) (by decide)

end State

end Tcp

end CodeSLoop
