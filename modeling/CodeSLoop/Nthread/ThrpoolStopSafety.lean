import CodeSLoop.Nthread.ThrpoolStop

/-!
# When the stop of a `nthread::thrpool` is safe

Every thread that may still use its objects is registered, and what has been taken off the list
has exited (`Inv`). So `cleanup` deletes nothing too early, and `unpolite_stop` nothing that has
started, for it waits then. `graceful_stop` sees by `count()` who is between `on_entry` and
`on_exit`, but not who is before that; and `always_safe_iff` says that these are the two things
that matter. The threads that have started are no reason for `unpolite_stop` not to return
(`unpolite_returns`): a worker that needs `mtx_` meanwhile is cancelled where it waits for it.
-/

namespace CodeSLoop

namespace ThrpoolStop

open Lts
open Thrpool (Params)
open Thread (Phase)

namespace State

variable {p : Params} {s s' : State} {a : Act} {i j : Nat} {w : Worker} {x : Phase Work}
  {kept gone l : List Nat} {k k' : Taken} {o : Owner}

/-! ## Places -/

theorem phases_set : (s.set i w x).phases = s.phases.set i x := List.map_set

theorem phases_flag : s.flag.map Worker.phase = s.phases := by
  refine List.ext_getElem (by simp [flag, phases]) fun n h₁ h₂ => ?_
  simp only [flag, phases, List.getElem_map, List.getElem_mapIdx]
  split <;> rfl

theorem phases_stop : (s.stop i).map Worker.phase = s.phases := by
  refine List.ext_getElem (by simp [stop, phases]) fun n h₁ h₂ => ?_
  simp only [stop, phases, List.getElem_map, List.getElem_modify]
  split <;> rfl

theorem phase_of (hi : s.workers[i]? = some w) : s.phases[i]? = some w.phase := by
  rw [phases, List.getElem?_map, hi]
  rfl

theorem Done.phase (h : s.Done i) (hi : s.workers[i]? = some w) : w.phase.uses = false := by
  obtain ⟨x, hx, huses⟩ := h
  rw [phase_of hi] at hx
  rwa [Option.some.inj hx]

theorem Done.set (h : s.Done j) (hi : s.workers[i]? = some w)
    (huses : w.phase.uses = false → x.uses = false) : (s.set i w x).Done j := by
  by_cases hij : i = j
  · subst hij
    refine ⟨x, ?_, huses (h.phase hi)⟩
    rw [phases_set, List.getElem?_set_self (List.getElem?_eq_some_iff.mp (phase_of hi)).1]
  · obtain ⟨y, hy, hdone⟩ := h
    refine ⟨y, ?_, hdone⟩
    rwa [phases_set, List.getElem?_set_ne hij]

theorem Done.create (h : s.Done j) : s.create.Done j := by
  obtain ⟨y, hy, hdone⟩ := h
  refine ⟨y, ?_, hdone⟩
  rw [State.create, phases, List.map_append]
  exact (List.getElem?_append_left (List.getElem?_eq_some_iff.mp hy).1).trans hy

theorem cleans_spec (h : Cleans s l kept gone) : (∀ j ∈ gone, s.Done j) ∧ kept.Sublist l ∧
    ∀ j ∈ l, j ∈ kept ∨ s.Done j := by
  induction h with
  | nil => exact ⟨nofun, List.Sublist.refl _, nofun⟩
  | keep _ ih =>
    obtain ⟨hgone, hkept, hall⟩ := ih
    refine ⟨hgone, hkept.cons_cons _, fun j hj => ?_⟩
    rcases List.mem_cons.mp hj with rfl | hj
    · exact Or.inl List.mem_cons_self
    · exact (hall j hj).imp_left (List.mem_cons_of_mem _)
  | take hdone _ ih =>
    obtain ⟨hgone, hkept, hall⟩ := ih
    refine ⟨fun j hj => ?_, hkept.cons _, fun j hj => ?_⟩
    · rcases List.mem_cons.mp hj with rfl | hj
      · exact hdone
      · exact hgone j hj
    · rcases List.mem_cons.mp hj with rfl | hj
      · exact Or.inr hdone
      · exact hall j hj

theorem deletes_mem (h : Deletes s k j k') : j ∈ k.all ∧ ∀ j ∈ k'.all, j ∈ k.all := by
  cases h with
  | thread hended => exact ⟨List.mem_cons_self, fun j hj => List.mem_cons_of_mem _ hj⟩
  | entry => exact ⟨List.mem_cons_self, fun j hj => List.mem_cons_of_mem _ hj⟩

/-! ## The invariant -/

structure Inv (s : State) : Prop where
  counted : s.phases.countP counted ≤ s.count
  registered : ∀ i x, s.phases[i]? = some x → x.uses = true → i ∈ s.threads
  taken : ∀ x ∈ s.phases, ∀ j ∈ taken x, s.Done j
  owner : ∀ j ∈ s.owner.taken, s.Done j
  rest : ∀ rest, s.owner.rest = some rest → ∀ j ∈ s.threads, j ∈ rest ∨ s.Done j

theorem inv_init : Inv init := ⟨Nat.le_refl 0, nofun, nofun, nofun, nofun⟩

/-- **A worker goes on.** -/
theorem Inv.set (h : s.Inv) (hi : s.workers[i]? = some w) {count : Nat}
    (huses : w.phase.uses = false → x.uses = false) (htaken : ∀ j ∈ ThrpoolStop.taken x, s.Done j)
    (hcount : s.count + (ThrpoolStop.counted x).toNat ≤
      count + (ThrpoolStop.counted w.phase).toNat) : Inv { s.set i w x with count := count } := by
  have hdone : ∀ {j : Nat}, s.Done j → (s.set i w x).Done j := fun hj => hj.set hi huses
  refine ⟨?_, ?_, ?_, fun j hj => hdone (h.owner j hj), ?_⟩
  · have hset := Thrpool.countP_set_add (phase_of hi) (y := x) ThrpoolStop.counted
    have hle := h.counted
    have hphases := congrArg (List.countP ThrpoolStop.counted) (@phases_set s i w x)
    change (s.set i w x).phases.countP ThrpoolStop.counted ≤ count
    omega
  · intro n y hy hyuses
    change (s.set i w x).phases[n]? = some y at hy
    rw [phases_set] at hy
    by_cases hin : i = n
    · subst hin
      rw [List.getElem?_set_self (List.getElem?_eq_some_iff.mp (phase_of hi)).1] at hy
      refine h.registered i w.phase (phase_of hi) ?_
      by_contra hnot
      rw [Option.some.inj hy] at huses
      rw [huses (Bool.eq_false_iff.mpr hnot)] at hyuses
      cases hyuses
    · rw [List.getElem?_set_ne hin] at hy
      exact h.registered n y hy hyuses
  · intro y hy j hj
    change y ∈ (s.set i w x).phases at hy
    rw [phases_set] at hy
    rcases List.mem_or_eq_of_mem_set hy with hy | rfl
    · exact hdone (h.taken y hy j hj)
    · exact hdone (htaken j hj)
  · intro rest hrest j hj
    exact (h.rest rest hrest j hj).imp_right hdone

/-- It is between `on_entry` and `on_exit` before and after that. -/
theorem Inv.go (h : s.Inv) (hi : s.workers[i]? = some w) {r r' : Work} (hw : w.phase = .running r)
    (hr : r.counted = true) (htaken : ∀ j ∈ r'.taken, s.Done j) :
    Inv (s.set i w (.running r')) := by
  refine h.set hi (fun huses => ?_) htaken ?_
  · rw [hw] at huses
    cases huses
  · rw [hw, ThrpoolStop.counted, ThrpoolStop.counted, hr]
    have hle := Bool.toNat_le r'.counted
    exact Nat.add_le_add_left hle _

/-- Flags do not matter. -/
theorem Inv.flags (h : s.Inv) {workers : List Worker} (hp : workers.map Worker.phase = s.phases)
    (howner : ∀ j ∈ o.taken, s.Done j)
    (hrest : ∀ rest, o.rest = some rest → ∀ j ∈ s.threads, j ∈ rest ∨ s.Done j) :
    Inv { s with workers := workers, owner := o } := by
  have hphases : State.phases { s with workers := workers, owner := o } = s.phases := hp
  have hdone : ∀ {j : Nat}, s.Done j → State.Done { s with workers := workers, owner := o } j := by
    intro j hj
    rw [Done, hphases]
    exact hj
  refine ⟨?_, ?_, ?_, fun j hj => hdone (howner j hj), ?_⟩
  · rw [hphases]
    exact h.counted
  · rw [hphases]
    exact h.registered
  · rw [hphases]
    exact fun x hx j hj => hdone (h.taken x hx j hj)
  · exact fun rest hr j hj => (hrest rest hr j hj).imp_right hdone

theorem Inv.own (h : s.Inv) (howner : ∀ j ∈ o.taken, s.Done j)
    (hrest : ∀ rest, o.rest = some rest → ∀ j ∈ s.threads, j ∈ rest ∨ s.Done j) :
    Inv { s with owner := o } := h.flags rfl howner hrest

/-- What has exited goes off the list. -/
theorem Inv.clean (h : s.Inv) (hc : Cleans s s.threads kept gone) : Inv { s with threads := kept } := by
  obtain ⟨-, hkept, hall⟩ := cleans_spec hc
  refine ⟨h.counted, fun n y hy huses => ?_, h.taken, h.owner, fun rest hrest j hj => ?_⟩
  · refine (hall n (h.registered n y hy huses)).resolve_right ?_
    rintro ⟨z, hz, hdone⟩
    rw [Option.some.inj (hy.symm.trans hz), hdone] at huses
    cases huses
  · exact h.rest rest hrest j (hkept.subset hj)

/-- A thread more, when nobody has `mtx_`. -/
theorem Inv.create (h : s.Inv) (hfree : s.Free) : s.create.Inv := by
  have hphases : s.create.phases = s.phases ++ [.created] := List.map_append
  have hlen : s.phases.length = s.workers.length := List.length_map _
  refine ⟨?_, ?_, ?_, fun j hj => (h.owner j hj).create, ?_⟩
  · rw [hphases, List.countP_append]
    exact h.counted
  · intro n y hy huses
    rw [hphases] at hy
    change n ∈ s.threads ++ [s.workers.length]
    by_cases hn : n < s.phases.length
    · rw [List.getElem?_append_left hn] at hy
      exact List.mem_append_left _ (h.registered n y hy huses)
    · have hlt := (List.getElem?_eq_some_iff.mp hy).1
      rw [List.length_append, List.length_singleton] at hlt
      refine List.mem_append_right _ (List.mem_singleton.mpr ?_)
      omega
  · intro y hy j hj
    rw [hphases] at hy
    rcases List.mem_append.mp hy with hy | hy
    · exact (h.taken y hy j hj).create
    · rw [List.mem_singleton.mp hy] at hj
      cases hj
  · intro rest hrest
    have hnone : s.owner.rest = none := hfree
    have hsome : s.owner.rest = some rest := hrest
    rw [hnone] at hsome
    cases hsome

theorem moves_counted {count : Nat} {free : Prop} {stopMe : Bool} {r r' : Work}
    (h : Moves p count free stopMe r r') : r.counted = true ∧ r'.taken = [] := by
  cases h <;> exact ⟨rfl, rfl⟩

/-- What a thread does outside of `operator()`. -/
theorem turns_spec {y : Phase Work} (h : Turns y x) : (y.uses = false → x.uses = false) ∧
    taken x = [] ∧ ThrpoolStop.counted x = false ∧ ThrpoolStop.counted y = false := by
  cases h with
  | flagStart => exact ⟨nofun, rfl, rfl, rfl⟩
  | enter => exact ⟨nofun, rfl, rfl, rfl⟩
  | returned => exact ⟨nofun, rfl, rfl, rfl⟩
  | flagExit => exact ⟨nofun, rfl, rfl, rfl⟩
  | finish => exact ⟨fun _ => rfl, rfl, rfl, rfl⟩

theorem rest_of_graceful {count : Nat} (h : Graceful count s.owner o) : o.rest = none ∧ o.taken = [] := by
  generalize s.owner = o' at h
  cases h <;> exact ⟨rfl, rfl⟩

theorem unpolite_spec {done : Nat → Prop} {o' : Owner} (h : Unpolite done o' o) :
    o.rest = o'.rest ∧ o.taken = [] := by
  cases h <;> exact ⟨rfl, rfl⟩

theorem free_of {o' : Owner} (h : s.owner = o') (hrest : o'.rest = none) : s.Free := by
  rw [Free, h, hrest]

/-- Nothing has been taken off the list. -/
theorem done_of_nil {l : List Nat} (h : l = []) : ∀ j ∈ l, s.Done j := by
  intro j hj
  rw [h] at hj
  cases hj

/-- A worker that has called `cleanup`. -/
theorem Inv.cleaning (h : s.Inv) (hi : s.workers[i]? = some w) {r : Work} (hw : w.phase = .running r)
    (hr : r.counted = true) (hc : Cleans s s.threads kept gone) {next : After} :
    Inv { s.set i w (.running (.deleting ⟨gone, gone⟩ next)) with threads := kept } := by
  obtain ⟨hgone, -⟩ := cleans_spec hc
  refine @Inv.go _ i w (h.clean hc) hi r (.deleting ⟨gone, gone⟩ next) hw hr fun j hj => ?_
  exact (List.mem_append.mp hj).elim (hgone j) (hgone j)

/-- `unpolite_stop` is done with a thread. -/
theorem Inv.deleted (h : s.Inv) {rest : List Nat} {ret : Bool} (howner : s.owner = .joining i rest ret)
    (hi : s.Done i) : Inv { s with owner := .stopping rest ret } := by
  refine h.own nofun fun rest' hrest j hj => ?_
  cases hrest
  rcases h.rest (i :: rest) (by rw [howner]; rfl) j hj with hj | hj
  · rcases List.mem_cons.mp hj with rfl | hj
    · exact Or.inr hi
    · exact Or.inl hj
  · exact Or.inr hj

/-- A step keeps the invariant, if it deletes nothing that is used still. -/
theorem inv_step (h : s.Inv) (hs : Step p s a s') (hsafe : s.Safe p a s') : s'.Inv := by
  have hnone : ∀ {o' : Owner}, o'.rest = none → ∀ rest, o'.rest = some rest →
      ∀ j ∈ s.threads, j ∈ rest ∨ s.Done j := by
    intro o' h0 rest hrest
    rw [h0] at hrest
    cases hrest
  -- threads move by `set` and `go`, the owner by `own`; what a step takes off the list is done
  cases hs with
  | turn hi hturns =>
    obtain ⟨huses, htaken, hcx, hcy⟩ := turns_spec hturns
    refine h.set hi huses (done_of_nil htaken) ?_
    rw [hcx, hcy]
  | worker hi hw hmoves =>
    obtain ⟨hcounted, htaken⟩ := moves_counted hmoves
    exact h.go hi hw hcounted (done_of_nil htaken)
  | onEntry hi hw hfree =>
    refine h.set hi (fun huses => ?_) nofun ?_
    · rw [hw] at huses
      cases huses
    · rw [hw]
      exact Nat.le_refl _
  | onExit hi hw hfree =>
    refine h.set hi (fun huses => ?_) nofun ?_
    · rw [hw] at huses
      cases huses
    · rw [hw]
      exact Nat.sub_le_iff_le_add.mp (Nat.le_refl _)
  | cleanHelp hi hw hfree hc => exact h.cleaning hi hw rfl hc
  | cleanLoop hi hw hfree hc => exact h.cleaning hi hw rfl hc
  | delete hi hw hdel =>
    obtain ⟨-, hsub⟩ := deletes_mem hdel
    refine h.go hi hw rfl fun j hj => h.taken _ (List.mem_of_getElem? (phase_of hi)) j ?_
    rw [hw]
    exact hsub j hj
  | @cleaned i w next hi hw =>
    refine h.go hi hw rfl fun j hj => ?_
    cases next <;> cases hj
  | startOne hi hw hfree hmax =>
    have hgo := @Inv.go _ _ _ h hi _ .awaiting hw rfl nofun
    exact hgo.create hfree
  | cancelled hi hw hpoint hcancel =>
    refine h.set hi (fun huses => ?_) nofun (Nat.add_le_add_left (Nat.zero_le _) _)
    rw [hw] at huses
    cases huses
  | ownerStart howner hmax => exact (h.create (free_of howner rfl)).own nofun nofun
  | ownerRefused howner => exact h
  | ownerStarted howner => exact h.own nofun nofun
  | gracefulStop howner => exact h.flags phases_flag nofun nofun
  | graceful hgraceful =>
    obtain ⟨hrest, htaken⟩ := rest_of_graceful hgraceful
    exact h.own (done_of_nil htaken) (hnone hrest)
  | gracefulClean howner hc =>
    obtain ⟨hgone, -⟩ := cleans_spec hc
    refine (h.clean hc).own (fun j hj => ?_) nofun
    exact (List.mem_append.mp hj).elim (hgone j) (hgone j)
  | gracefulDelete howner hdel =>
    obtain ⟨-, hsub⟩ := deletes_mem hdel
    refine h.own (fun j hj => h.owner j ?_) nofun
    rw [howner]
    exact hsub j hj
  | gracefulReturn howner => exact h.own nofun nofun
  | unpoliteStop howner =>
    refine h.own nofun fun rest hrest j hj => Or.inl ?_
    rw [← Option.some.inj hrest]
    exact hj
  | unpoliteCancel howner =>
    refine h.flags phases_stop nofun fun rest hrest => h.rest rest ?_
    rw [howner]
    exact hrest
  | unpolite hunpolite =>
    obtain ⟨hrest, htaken⟩ := unpolite_spec hunpolite
    exact h.own (done_of_nil htaken) fun rest hr => h.rest rest (hrest ▸ hr)
  | unpoliteDelete howner =>
    refine h.flags phases_stop nofun fun rest hrest => h.rest rest ?_
    rw [howner]
    exact hrest
  | unpoliteUnstarted howner hx => exact h.deleted howner hsafe
  | unpoliteJoined howner hx => exact h.deleted howner hsafe
  | unpoliteReturn howner =>
    refine ⟨h.counted, fun n y hy huses => ?_, h.taken, nofun, nofun⟩
    -- nothing is left on the list, so every thread that was on it is done
    have hdone := (h.rest [] (by rw [howner]; rfl) n (h.registered n y hy huses)).resolve_left
      List.not_mem_nil
    obtain ⟨z, hz, hz'⟩ := hdone
    rw [Option.some.inj (hy.symm.trans hz), hz'] at huses
    cases huses

/-! ## Who will not come to the handler -/

/-- A worker that is on its way out, or will be when it asks whether to stop. -/
def Settling (w : Worker) : Prop :=
  match w.phase with
  | .created | .started | .running .entering | .running (.testing _) => w.stopMe = true
  | .running .leaving | .running .exiting | .leaving | .exited | .ended => True
  | .running _ => False

def Still (s : State) : Prop := ∀ w ∈ s.workers, Settling w

theorem Still.quiet (h : s.Still) : s.Quiet := by
  intro w hw hphase
  have hsettling := h w hw
  rw [Settling, hphase] at hsettling
  exact hsettling

theorem settling_of (hcounted : ThrpoolStop.counted w.phase = false)
    (hpending : pending w.phase = true → w.stopMe = true) : Settling w := by
  rw [Settling]
  generalize w.phase = x at hcounted hpending
  cases x with
  | created => exact hpending rfl
  | started => exact hpending rfl
  | leaving => trivial
  | exited => trivial
  | ended => trivial
  | running r =>
    cases r with
    | entering => exact hpending rfl
    | exiting => trivial
    | _ => cases hcounted

theorem Still.set (h : s.Still) (hw : Settling { w with phase := x }) : Still (s.set i w x) := by
  intro w' hw'
  rcases List.mem_or_eq_of_mem_set hw' with hw' | rfl
  · exact h w' hw'
  · exact hw

theorem Still.stop (h : s.Still) : ∀ w ∈ s.stop i, Settling w := by
  intro w hw
  obtain ⟨n, hn⟩ := List.mem_iff_getElem?.mp hw
  rw [State.stop, List.getElem?_modify] at hn
  obtain ⟨w', hw', heq⟩ := Option.map_eq_some_iff.mp hn
  have hsettling := h w' (List.mem_of_getElem? hw')
  rw [← heq]
  split <;> exact hsettling

theorem Settling.turn (h : Settling w) (ht : Turns w.phase x) : Settling { w with phase := x } := by
  rw [Settling] at h ⊢
  generalize w.phase = y at h ht
  cases ht with
  | flagStart => exact h
  | enter => exact h
  | returned => trivial
  | flagExit => trivial
  | finish => trivial

theorem Settling.move (h : Settling w) {count : Nat} {free : Prop} {r r' : Work}
    (hw : w.phase = .running r) (hm : Moves p count free w.stopMe r r') :
    Settling { w with phase := .running r' } := by
  rw [Settling] at h ⊢
  rw [hw] at h
  cases hm with
  | stop hstop => trivial
  | wait hstop => exact Bool.noConfusion (h.symm.trans hstop)
  | _ => cases h

theorem Still.step (h : s.Still) (hs : Later p s a s') : s'.Still := by
  obtain ⟨hs, hlater⟩ := hs
  -- A worker that works still cannot be there.
  have hbusy : ∀ {i : Nat} {w : Worker} {r : Work}, s.workers[i]? = some w → w.phase = .running r →
      ¬ Settling ⟨.running r, w.cancel, w.stopMe⟩ → s'.Still := by
    intro i w r hi hw hnot
    have hsettling := h w (List.mem_of_getElem? hi)
    rw [Settling, hw] at hsettling
    exact absurd hsettling hnot
  cases hs with
  | turn hi hturns => exact h.set ((h _ (List.mem_of_getElem? hi)).turn hturns)
  | worker hi hw hmoves => exact h.set ((h _ (List.mem_of_getElem? hi)).move hw hmoves)
  | onEntry hi hw hfree =>
    have hsettling := h _ (List.mem_of_getElem? hi)
    rw [Settling, hw] at hsettling
    exact h.set (x := .running (.testing 0)) hsettling
  | onExit hi hw hfree => exact h.set (x := .running .exiting) trivial
  | cleanHelp hi hw hfree hc => exact hbusy hi hw id
  | cleanLoop hi hw hfree hc => exact hbusy hi hw id
  | delete hi hw hdel => exact hbusy hi hw id
  | cleaned hi hw => exact hbusy hi hw id
  | startOne hi hw hfree hmax => exact hbusy hi hw id
  | cancelled hi hw hpoint hcancel => exact h.set (x := .leaving) trivial
  | ownerStart howner hmax => exact absurd rfl hlater
  | gracefulStop howner =>
    intro w hw
    obtain ⟨n, hn, rfl⟩ := List.mem_mapIdx.mp hw
    have hsettling := h _ (List.getElem_mem hn)
    split
    · rw [Settling] at hsettling ⊢
      dsimp only
      generalize s.workers[n].phase = y at hsettling
      cases y with
      | running r => cases r <;> first | rfl | trivial
      | _ => first | rfl | trivial
    · exact hsettling
  | unpoliteCancel howner => exact h.stop
  | unpoliteDelete howner => exact h.stop
  | _ => exact h

/-! ## Who will -/

/-- A worker at `x` that has not been told to stop, while nobody has `mtx_`. -/
def At (i : Nat) (x : Phase Work) (s : State) : Prop :=
  ∃ w, s.workers[i]? = some w ∧ w.phase = x ∧ w.stopMe = false ∧ s.Free

/-- The handler may still be called. -/
def Reaches (p : Params) (s : State) : Prop := ∃ s', Leads (Later p) s s' ∧ ¬ s'.Quiet

theorem reaches_head {y : Phase Work} (hy : ∀ s, At i y s → Reaches p s)
    (hstep : ∀ s w, s.workers[i]? = some w → w.phase = x → w.stopMe = false → s.Free →
      ∃ a count, Later p s a { s.set i w y with count := count }) :
    ∀ s, At i x s → Reaches p s := by
  rintro s ⟨w, hi, hx, hstop, hfree⟩
  obtain ⟨a, count, hs⟩ := hstep s w hi hx hstop hfree
  have hlt := (List.getElem?_eq_some_iff.mp hi).1
  obtain ⟨s', hlead, hquiet⟩ := hy { s.set i w y with count := count }
    ⟨{ w with phase := y }, List.getElem?_set_self hlt, rfl, hstop, hfree⟩
  exact ⟨s', .head hs hlead, hquiet⟩

theorem reaches_handling : ∀ s, At i (.running .handling) s → Reaches p s := by
  rintro s ⟨w, hi, hx, -, -⟩
  exact ⟨s, .refl, fun hquiet => hquiet w (List.mem_of_getElem? hi) hx⟩

/-- A thread that comes to `on_entry` now may get to the handler. -/
theorem reaches_entering : ∀ s, At i (.running .entering) s → Reaches p s := by
  have hhelping : ∀ s, At i (.running .helping) s → Reaches p s := by
    refine reaches_head reaches_handling ?_
    intro s w hi hx hstop hfree
    exact ⟨.worker i, s.count, .worker hi hx .noHelp, nofun⟩
  have hnotified : ∀ s, At i (.running .notified) s → Reaches p s := by
    refine reaches_head hhelping ?_
    intro s w hi hx hstop hfree
    exact ⟨.worker i, s.count, .worker hi hx (.work hstop), nofun⟩
  have hwaiting : ∀ s, At i (.running (.waiting 0)) s → Reaches p s := by
    refine reaches_head hnotified ?_
    intro s w hi hx hstop hfree
    exact ⟨.worker i, s.count, .worker hi hx .notified, nofun⟩
  have htesting : ∀ s, At i (.running (.testing 0)) s → Reaches p s := by
    refine reaches_head hwaiting ?_
    intro s w hi hx hstop hfree
    exact ⟨.worker i, s.count, .worker hi hx (.wait hstop), nofun⟩
  refine reaches_head htesting ?_
  intro s w hi hx hstop hfree
  exact ⟨.onEntry i, s.count + 1, .onEntry hi hx hfree, nofun⟩

theorem reaches_pending (hx : pending x = true) : ∀ s, At i x s → Reaches p s := by
  have hstarted : ∀ s, At i .started s → Reaches p s := by
    refine reaches_head reaches_entering ?_
    intro s w hi hx hstop hfree
    exact ⟨.turn i, s.count, .turn hi (hx ▸ .enter), nofun⟩
  cases x with
  | created =>
    refine reaches_head hstarted ?_
    intro s w hi hx hstop hfree
    exact ⟨.turn i, s.count, .turn hi (hx ▸ .flagStart), nofun⟩
  | started => exact hstarted
  | running r =>
    cases r with
    | entering => exact reaches_entering
    | _ => cases hx
  | _ => cases hx

/-- **Behind a stop** that has counted nobody, all that matters is who has not been counted yet. -/
theorem settled_iff (hcount : s.phases.countP ThrpoolStop.counted = 0) (hfree : s.Free) :
    Settled (Later p) Quiet s ↔ ∀ w ∈ s.workers, pending w.phase = true → w.stopMe = true := by
  constructor
  · intro hsettled w hw hpending
    by_contra hstop
    obtain ⟨i, hi⟩ := List.mem_iff_getElem?.mp hw
    obtain ⟨s', hlead, hquiet⟩ := @reaches_pending p i w.phase hpending s
      ⟨w, hi, rfl, Bool.eq_false_iff.mpr hstop, hfree⟩
    exact hquiet (hsettled s' hlead)
  · intro hall
    refine settled_of_inv (I := Still) (fun s a s' h hs => h.step hs) (fun s h => h.quiet) ?_
    intro w hw
    refine settling_of ?_ (hall w hw)
    have hnot := List.countP_eq_zero.mp hcount w.phase (List.mem_map_of_mem hw)
    exact Bool.eq_false_iff.mpr hnot

theorem Done.started (h : s.Done j) : ∀ x, s.phases[j]? = some x → x.hasStarted = true := by
  obtain ⟨y, hy, huses⟩ := h
  intro x hx
  rw [Option.some.inj (hx.symm.trans hy)]
  cases y with
  | created => cases huses
  | _ => rfl

/-- **One step.** -/
theorem safe_iff (h : s.Inv) (hs : Step p s a s') : s.Safe p a s' ↔ s.Spares a := by
  -- What has been taken off the list has exited.
  have htaken : ∀ {j : Nat}, s.Done j → (s.Safe p (.deleted j) s' ↔ s.Spares (.deleted j)) :=
    fun hj => iff_of_true hj hj.started
  cases hs with
  | delete hi hw hdel =>
    refine htaken (h.taken _ (List.mem_of_getElem? (phase_of hi)) _ ?_)
    rw [hw]
    exact (deletes_mem hdel).1
  | gracefulDelete howner hdel =>
    refine htaken (h.owner _ ?_)
    rw [howner]
    exact (deletes_mem hdel).1
  | unpoliteUnstarted howner hx =>
    refine iff_of_false ?_ fun hstarted => Bool.noConfusion (hstarted _ hx)
    rintro ⟨y, hy, huses⟩
    rw [Option.some.inj (hy.symm.trans hx)] at huses
    cases huses
  | unpoliteJoined howner hx => exact htaken ⟨.ended, hx, rfl⟩
  | gracefulReturn howner =>
    have hcounted := h.counted
    cases hcount : s.count == 0 with
    | false => exact iff_of_true trivial trivial
    | true =>
      rw [beq_iff_eq.mp hcount] at hcounted
      exact settled_iff (Nat.le_zero.mp hcounted) rfl
  | @unpoliteReturn ret howner =>
    have hdone : ∀ w ∈ s.workers, w.phase.uses = false := by
      intro w hw
      obtain ⟨i, hi⟩ := List.mem_iff_getElem?.mp hw
      by_contra huses
      have hmem := h.registered i w.phase (phase_of hi) (Bool.not_eq_false _ ▸ huses)
      have hdone := (h.rest [] (by rw [howner]; rfl) i hmem).resolve_left List.not_mem_nil
      exact huses (hdone.phase hi)
    cases ret with
    | false => exact iff_of_true trivial trivial
    | true =>
      refine iff_of_true (settled_of_inv (I := Still) (fun s a s' h hs => h.step hs)
        (fun s h => h.quiet) fun w hw => ?_) trivial
      have huses := hdone w hw
      rw [Settling]
      generalize w.phase = x at huses
      cases x with
      | exited => trivial
      | ended => trivial
      | _ => cases huses
  | _ => exact iff_of_true trivial trivial

/-- **All runs** of a pool and its owner. -/
theorem always_safe_iff {tr : List (Act × State)} (h : Run (Step p) init tr) :
    Always (Safe p) init tr ↔ Always (fun s a _ => s.Spares a) init tr :=
  h.always_iff (I := Inv) (fun _ _ _ hI hs => safe_iff hI hs)
    (fun _ _ _ hI hs hsafe => inv_step hI hs hsafe) inv_init

/-! ## What `unpolite_stop` waits for -/

/-- Thread `i` can come to its end by steps of its own. -/
def Ends (p : Params) (i : Nat) (s : State) : Prop :=
  ∃ s', Leads (Step p) s s' ∧ s'.owner = s.owner ∧ s'.phases[i]? = some .ended ∧
    ∀ j, j ≠ i → s'.phases[j]? = s.phases[j]?

theorem Ends.head (hs : Step p s a (s.set i w x)) (h : Ends p i (s.set i w x)) : Ends p i s := by
  obtain ⟨s', hlead, howner, hended, hrest⟩ := h
  refine ⟨s', .head hs hlead, howner, hended, fun j hj => (hrest j hj).trans ?_⟩
  rw [phases_set, List.getElem?_set_ne (Ne.symm hj)]

theorem ends_ended (hi : s.workers[i]? = some w) (hx : w.phase = .ended) : Ends p i s :=
  ⟨s, .refl, rfl, hx ▸ phase_of hi, fun _ _ => rfl⟩

theorem ends_exited (hi : s.workers[i]? = some w) (hx : w.phase = .exited) : Ends p i s := by
  have hlt := (List.getElem?_eq_some_iff.mp hi).1
  have hs : Step p s (.turn i) (s.set i w .ended) := .turn hi (hx ▸ .finish)
  exact Ends.head hs (ends_ended (List.getElem?_set_self hlt) rfl)

/-- A cancelled worker at `x`, while somebody has `mtx_`. -/
def Cancelled (i : Nat) (x : Phase Work) (s : State) : Prop :=
  ∃ w, s.workers[i]? = some w ∧ w.phase = x ∧ w.cancel = true ∧ ¬ s.Free

/-- It ends where the next place does. -/
theorem ends_of (hstep : ∀ s w, s.workers[i]? = some w → w.phase = x → w.cancel = true → ¬ s.Free →
      ∃ a y, Step p s a (s.set i w y) ∧ ∀ s, Cancelled i y s → Ends p i s) :
    ∀ s, Cancelled i x s → Ends p i s := by
  rintro s ⟨w, hi, hx, hcancel, hfree⟩
  obtain ⟨a, y, hs, hy⟩ := hstep s w hi hx hcancel hfree
  have hlt := (List.getElem?_eq_some_iff.mp hi).1
  exact Ends.head hs (hy _ ⟨{ w with phase := y }, List.getElem?_set_self hlt, rfl, hcancel, hfree⟩)

theorem ends_leaving : ∀ s, Cancelled i .leaving s → Ends p i s :=
  ends_of fun _ _ hi hx _ _ => ⟨_, .exited, .turn hi (hx ▸ .flagExit), fun _ ⟨_, hi, hx, _⟩ =>
    ends_exited hi hx⟩

/-- Where it waits it is cancelled: in `pthread_cond_wait` for `mtx_` too. -/
theorem ends_open {r : Work} (hr : r.point = true ∨ r.locks = true) :
    ∀ s, Cancelled i (.running r) s → Ends p i s :=
  ends_of fun _ _ hi hx hcancel hfree =>
    ⟨_, .leaving, .cancelled hi hx (hr.imp_right fun hl => ⟨hl, hfree⟩) hcancel, ends_leaving⟩

theorem ends_testing {n : UInt32} : ∀ s, Cancelled i (.running (.testing n)) s → Ends p i s := by
  refine ends_of fun s w hi hx hcancel hfree => ?_
  cases hstop : w.stopMe with
  | true => exact ⟨_, _, .worker hi hx (.stop hstop), ends_open (.inr rfl)⟩
  | false => exact ⟨_, _, .worker hi hx (.wait hstop), ends_open (.inl rfl)⟩

theorem ends_after : ∀ next : After, ∀ s, Cancelled i (.running next.work) s → Ends p i s
  | .starting => ends_open (.inr rfl)
  | .handling => ends_open (.inl rfl)
  | .testing _ => ends_testing

/-- It deletes the entries that it has still to delete. -/
theorem ends_deleting {next : After} : ∀ cbs : List Nat, ∀ s,
    Cancelled i (.running (.deleting ⟨[], cbs⟩ next)) s → Ends p i s
  | [] => ends_of fun _ _ hi hx _ _ => ⟨_, _, .cleaned hi hx, ends_after next⟩
  | _ :: cbs => ends_of fun _ _ hi hx _ _ => ⟨_, _, .delete hi hx .entry, ends_deleting cbs⟩

theorem ends_running (r : Work) : ∀ s, Cancelled i (.running r) s → Ends p i s := by
  have hhelping : ∀ s, Cancelled i (.running .helping) s → Ends p i s :=
    ends_of fun _ _ hi hx _ _ => ⟨_, _, .worker hi hx .noHelp, ends_open (.inl rfl)⟩
  cases r with
  | testing n => exact ends_testing
  | notified =>
    refine ends_of fun s w hi hx hcancel hfree => ?_
    cases hstop : w.stopMe with
    | true => exact ⟨_, _, .worker hi hx (.stopNotified hstop), ends_open (.inr rfl)⟩
    | false => exact ⟨_, _, .worker hi hx (.work hstop), hhelping⟩
  | helping => exact hhelping
  | deleting k next =>
    obtain ⟨thrs, cbs⟩ := k
    cases thrs with
    | nil => exact ends_deleting cbs
    | cons j thrs => exact ends_open (.inl rfl)
  | exiting => exact ends_of fun _ _ hi hx _ _ => ⟨_, _, .turn hi (hx ▸ .returned), ends_leaving⟩
  | waiting | awaiting | handling => exact ends_open (.inl rfl)
  | entering | timedOut | asking | cleaning | starting | ended | leaving => exact ends_open (.inr rfl)

/-- **A thread that has started ends**, when it is cancelled or has exited. -/
theorem ends_started (hi : s.workers[i]? = some w) (hstart : w.phase.hasStarted = true)
    (hcancel : w.phase.uses = true → w.cancel = true) (hfree : ¬ s.Free) : Ends p i s := by
  have hat : w.phase.uses = true → Cancelled i w.phase s := fun huses =>
    ⟨w, hi, rfl, hcancel huses, hfree⟩
  cases hx : w.phase with
  | created =>
    rw [hx] at hstart
    cases hstart
  | started =>
    rw [hx] at hat
    exact ends_of (fun _ _ hi hx _ _ => ⟨_, _, .turn hi (hx ▸ .enter), ends_running .entering⟩) s
      (hat rfl)
  | running r =>
    rw [hx] at hat
    exact ends_running r s (hat rfl)
  | leaving =>
    rw [hx] at hat
    exact ends_leaving s (hat rfl)
  | exited => exact ends_exited hi hx
  | ended => exact ends_ended hi hx

/-- The thread has set its `start_evt_`. -/
def Started (s : State) (j : Nat) : Prop := ∃ x, s.phases[j]? = some x ∧ x.hasStarted = true

theorem unpolite_goes {ret : Bool} : ∀ (rest : List Nat) (s : State), s.owner = .stopping rest ret →
    (∀ j ∈ rest, s.Started j) → ∃ s', Leads (Step p) s s' ∧ s'.owner = .stopping [] ret := by
  intro rest
  induction rest with
  | nil => exact fun s howner _ => ⟨s, .refl, howner⟩
  | cons i rest ih =>
    intro s howner hall
    -- the thread is cancelled, unless it has exited
    obtain ⟨s₁, hs₁⟩ : ∃ s₁ : State, s₁ =
      { s with workers := s.stop i, owner := .exitWaiting i rest ret } := ⟨_, rfl⟩
    have hphases : s₁.phases = s.phases := by
      rw [hs₁]
      exact phases_stop
    have howner₁ : s₁.owner = .exitWaiting i rest ret := by rw [hs₁]
    have hends : Ends p i s₁ := by
      obtain ⟨x, hx, hstart⟩ := hall i List.mem_cons_self
      rw [phases, List.getElem?_map, Option.map_eq_some_iff] at hx
      obtain ⟨w, hi, rfl⟩ := hx
      have hi₁ : s₁.workers[i]? =
          some { w with cancel := w.cancel || w.phase.hasStarted && w.phase.uses } := by
        rw [hs₁]
        exact (List.getElem?_modify_eq ..).trans (by rw [hi]; rfl)
      refine ends_started hi₁ hstart (fun huses => ?_) ?_
      · dsimp only at huses ⊢
        rw [hstart, huses, Bool.and_true, Bool.or_true]
      · rw [Free, howner₁]
        exact nofun
    -- it ends, and is joined
    obtain ⟨s₂, hlead, howner₂, hended, hrest⟩ := hends
    rw [howner₁] at howner₂
    have hdone : Unpolite s₂.Done s₂.owner (.deletingOne i rest ret) :=
      howner₂ ▸ .permanent ⟨_, hended, rfl⟩
    obtain ⟨s₅, hs₅⟩ : ∃ s₅ : State, s₅ =
      { s₂ with workers := s₂.stop i, owner := .stopping rest ret } := ⟨_, rfl⟩
    have hphases₅ : s₅.phases = s₂.phases := by
      rw [hs₅]
      exact phases_stop
    have hjoin : Leads (Step p) s₂ s₅ := by
      refine .head (.unpolite hdone) (.head (.unpoliteDelete rfl) (.head (.unpoliteJoined rfl ?_) ?_))
      · exact (congrArg (·[i]?) phases_stop).trans hended
      · rw [hs₅]
        exact .refl
    obtain ⟨s', hlead', howner'⟩ := ih s₅ (by rw [hs₅]) fun j hj => by
      by_cases hji : j = i
      · exact ⟨.ended, by rw [hphases₅, hji, hended], rfl⟩
      · obtain ⟨x, hx, hstart⟩ := hall j (List.mem_cons_of_mem i hj)
        exact ⟨x, by rw [hphases₅, hrest j hji, hphases, hx], hstart⟩
    refine ⟨s', .head (.unpoliteCancel howner) ?_, howner'⟩
    rw [← hs₁]
    exact (hlead.trans hjoin).trans hlead'

/-- **`unpolite_stop` can return true** when the threads on the list have started, wherever the
    workers are: those that wait for `mtx_` are cancelled there, and joined. -/
theorem unpolite_returns (hidle : s.owner = .idle) (hall : ∀ j ∈ s.threads, s.Started j) :
    ∃ s₁ s₂, Leads (Step p) s s₁ ∧ Step p s₁ (.unpoliteReturn true) s₂ := by
  obtain ⟨s', hlead, howner⟩ := @unpolite_goes p true s.threads
    { s with owner := .stopping s.threads true } rfl hall
  exact ⟨s', _, .head (.unpoliteStop hidle) hlead, .unpoliteReturn howner⟩

/-- The only worker is told to stop, and exits; or it is cancelled where it waits for `mtx_`. -/
theorem always_safe_iff_one :
    (∃ tr : List (Act × State),
      tr.map Prod.fst = [.ownerStart true, .turn 0, .owner, .turn 0, .onEntry 0, .worker 0,
        .gracefulStop, .worker 0, .worker 0, .onExit 0, .turn 0, .turn 0, .owner, .turn 0, .owner,
        .deleted 0, .deleted 0, .owner, .owner, .gracefulReturn true] ∧
      Always (Safe ⟨1, 2, 1000, 20⟩) init tr) ∧
    ∃ tr : List (Act × State),
      tr.map Prod.fst = [.ownerStart true, .turn 0, .owner, .turn 0, .unpoliteStop, .owner, .owner,
        .cancelled 0, .turn 0, .owner, .owner, .turn 0, .deleted 0, .unpoliteReturn true] ∧
      Always (Safe ⟨1, 2, 1000, 20⟩) init tr := by
  have hended : ∀ x : Phase Work, some Phase.ended = some x → x.hasStarted = true := by
    rintro x ⟨⟩
    rfl
  constructor
  · refine ⟨_, rfl, (always_safe_iff (p := ⟨1, 2, 1000, 20⟩)
      (.cons (.ownerStart rfl (by decide)) <| .cons (.turn (i := 0) rfl .flagStart) <|
      .cons (.ownerStarted rfl) <| .cons (.turn (i := 0) rfl .enter) <|
      .cons (.onEntry (i := 0) rfl rfl rfl) <| .cons (.worker (i := 0) rfl rfl (.wait rfl)) <|
      .cons (.gracefulStop rfl) <| .cons (.worker (i := 0) rfl rfl .notified) <|
      .cons (.worker (i := 0) rfl rfl (.stopNotified rfl)) <|
      .cons (.onExit (i := 0) rfl rfl rfl) <|
      .cons (.turn (i := 0) rfl .returned) <| .cons (.turn (i := 0) rfl .flagExit) <|
      .cons (.graceful .exited) <| .cons (.turn (i := 0) rfl .finish) <|
      .cons (.gracefulClean rfl (.take ⟨_, rfl, rfl⟩ .nil)) <|
      .cons (.gracefulDelete rfl (.thread rfl)) <| .cons (.gracefulDelete rfl .entry) <|
      .cons (.graceful .deleted) <| .cons (.graceful (.noMore (by decide))) <|
      .cons (.gracefulReturn rfl) <| .nil _)).mpr ?_⟩
    refine ⟨trivial, trivial, trivial, trivial, trivial, trivial, trivial, trivial, trivial, trivial,
      trivial, trivial, trivial, trivial, trivial, hended, hended, trivial, trivial, ?_, trivial⟩
    intro w hw hpending
    rw [List.mem_singleton.mp hw] at hpending
    cases hpending
  · refine ⟨_, rfl, (always_safe_iff (p := ⟨1, 2, 1000, 20⟩)
      (.cons (.ownerStart rfl (by decide)) <| .cons (.turn (i := 0) rfl .flagStart) <|
      .cons (.ownerStarted rfl) <| .cons (.turn (i := 0) rfl .enter) <|
      .cons (.unpoliteStop rfl) <| .cons (.unpoliteCancel rfl) <|
      .cons (.unpolite (.sleep (by rintro ⟨_, ⟨⟩, ⟨⟩⟩))) <|
      .cons (.cancelled (i := 0) rfl rfl (.inr ⟨rfl, nofun⟩) rfl) <|
      .cons (.turn (i := 0) rfl .flagExit) <| .cons (.unpolite (.woken ⟨_, rfl, rfl⟩)) <|
      .cons (.unpoliteDelete rfl) <| .cons (.turn (i := 0) rfl .finish) <|
      .cons (.unpoliteJoined rfl rfl) <| .cons (.unpoliteReturn rfl) <| .nil _)).mpr ?_⟩
    exact ⟨trivial, trivial, trivial, trivial, trivial, trivial, trivial, trivial, trivial, trivial,
      trivial, trivial, hended, trivial, trivial⟩

/-- A worker starts another one when it has been told to stop; and a thread that does not start in
    time is deleted. -/
theorem always_safe_fails :
    (∃ tr : List (Act × State), Run (Step ⟨1, 2, 1000, 20⟩) init tr ∧
      tr.map Prod.fst = [.ownerStart true, .turn 0, .owner, .turn 0, .onEntry 0, .worker 0, .worker 0,
        .worker 0, .worker 0, .worker 0, .cleanup 0, .cleaned 0, .gracefulStop, .startOne 0,
        .worker 0, .worker 0, .cleanup 0, .cleaned 0, .worker 0, .onExit 0, .owner, .owner, .owner,
        .owner, .gracefulReturn true] ∧
      ¬ Always (Safe ⟨1, 2, 1000, 20⟩) init tr) ∧
    ∃ tr : List (Act × State), Run (Step ⟨2, 2, 1000, 20⟩) init tr ∧
      tr.map Prod.fst = [.ownerStart true, .turn 0, .owner, .turn 0, .onEntry 0, .worker 0,
        .ownerStart true, .owner, .gracefulStop, .owner, .owner, .owner, .owner, .owner, .owner,
        .owner, .owner, .gracefulReturn false, .unpoliteStop, .owner, .owner, .cancelled 0, .turn 0,
        .owner, .owner, .turn 0, .deleted 0, .owner, .owner, .owner, .owner, .deleted 1] ∧
      ¬ Always (Safe ⟨2, 2, 1000, 20⟩) init tr := by
  constructor
  · refine ⟨_, .cons (.ownerStart rfl (by decide)) <| .cons (.turn (i := 0) rfl .flagStart) <|
      .cons (.ownerStarted rfl) <| .cons (.turn (i := 0) rfl .enter) <|
      .cons (.onEntry (i := 0) rfl rfl rfl) <| .cons (.worker (i := 0) rfl rfl (.wait rfl)) <|
      .cons (.worker (i := 0) rfl rfl .notified) <|
      .cons (.worker (i := 0) rfl rfl (.work rfl)) <| .cons (.worker (i := 0) rfl rfl .help) <|
      .cons (.worker (i := 0) rfl rfl (.room rfl (by decide))) <|
      .cons (.cleanHelp (i := 0) rfl rfl rfl (.keep .nil)) <|
      .cons (.cleaned (i := 0) rfl rfl) <| .cons (.gracefulStop rfl) <|
      .cons (.startOne (i := 0) rfl rfl rfl (by decide)) <|
      .cons (.worker (i := 0) rfl rfl .started) <| .cons (.worker (i := 0) rfl rfl .handled) <|
      .cons (.cleanLoop (i := 0) rfl rfl rfl (.keep (.keep .nil))) <|
      .cons (.cleaned (i := 0) rfl rfl) <| .cons (.worker (i := 0) rfl rfl (.stop rfl)) <|
      .cons (.onExit (i := 0) rfl rfl rfl) <| .cons (.graceful .exited) <|
      .cons (.gracefulClean rfl (.keep (.keep .nil))) <| .cons (.graceful .deleted) <|
      .cons (.graceful (.noMore (by decide))) <| .cons (.gracefulReturn rfl) <| .nil _, rfl, ?_⟩
    rintro ⟨-, -, -, -, -, -, -, -, -, -, -, -, -, -, -, -, -, -, -, -, -, -, -, -, hsafe, -⟩
    have hall := Iff.mp (settled_iff (by rfl) (by rfl)) hsafe
    exact Bool.noConfusion (hall ⟨.created, false, false⟩ (List.mem_of_getElem? (i := 1) rfl) rfl)
  · refine ⟨_, .cons (.ownerStart rfl (by decide)) <| .cons (.turn (i := 0) rfl .flagStart) <|
      .cons (.ownerStarted rfl) <| .cons (.turn (i := 0) rfl .enter) <|
      .cons (.onEntry (i := 0) rfl rfl rfl) <| .cons (.worker (i := 0) rfl rfl (.wait rfl)) <|
      .cons (.ownerStart rfl (by decide)) <| .cons (.ownerStarted rfl) <|
      .cons (.gracefulStop rfl) <| .cons (.graceful .timeout) <| .cons (.graceful .timeout) <|
      .cons (.gracefulClean rfl (.keep (.keep .nil))) <| .cons (.graceful .deleted) <|
      .cons (.graceful (.more (by decide) (by decide))) <| .cons (.graceful .waited) <|
      .cons (.graceful .waited) <| .cons (.graceful .allWaited) <| .cons (.gracefulReturn rfl) <|
      .cons (.unpoliteStop rfl) <| .cons (.unpoliteCancel rfl) <|
      .cons (.unpolite (.sleep (by rintro ⟨_, ⟨⟩, ⟨⟩⟩))) <|
      .cons (.cancelled (i := 0) rfl rfl (.inl rfl) rfl) <| .cons (.turn (i := 0) rfl .flagExit) <|
      .cons (.unpolite (.woken ⟨_, rfl, rfl⟩)) <| .cons (.unpoliteDelete rfl) <|
      .cons (.turn (i := 0) rfl .finish) <| .cons (.unpoliteJoined rfl rfl) <|
      .cons (.unpoliteCancel rfl) <| .cons (.unpolite (.sleep (by rintro ⟨_, ⟨⟩, ⟨⟩⟩))) <|
      .cons (.unpolite .timeout) <| .cons (.unpoliteDelete rfl) <|
      .cons (.unpoliteUnstarted rfl rfl) <| .nil _, rfl, ?_⟩
    rintro ⟨-, -, -, -, -, -, -, -, -, -, -, -, -, -, -, -, -, -, -, -, -, -, -, -, -, -, -, -, -, -, -,
      ⟨_, ⟨⟩, ⟨⟩⟩, -⟩

end State

end ThrpoolStop

end CodeSLoop
