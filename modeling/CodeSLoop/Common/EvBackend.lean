import CodeSLoop.Common.EvFds

/-!
# What the backend knows (`common/libev/ev.c`)

The backend (`epoll`, `kqueue` ...) is told by `fd_reify` what is wanted of a descriptor, and only then. After
`fd_reify`, so when the loop waits, it knows what is wanted of each descriptor (`Synced.fdReify`), whatever
was done since it waited last: watchers that were started and stopped, descriptors that were closed and whose
numbers were used again, a fork. This needs that a watcher for a descriptor that was closed is set again before
it is started again; `stale` says for which watchers it was not yet done.

Then: what `ev_io_start`, `ev_io_stop`, `fd_event` and `fd_kill` do to all of the loop.
-/

namespace CodeSLoop.Ev

universe v

namespace Fds

variable {f f' : Fds} {a : Nat} {fd fd0 : Int} {flags : BitVec 8}

/-! ## What the backend was told -/

/-- Whoever may be started for a descriptor brings the flag of `ev_io_set`. -/
def Flagged (f : Fds) (stale : Nat → Bool) (fd : Int) : Prop :=
  ∀ a, f.fd a = fd → stale a = false → f.active a = 0 ∧ f.events a &&& EV_IOFDSET ≠ 0

/-- **What the backend was told is what is known**, or the descriptor was closed and it will be told again if
    anything is wanted. -/
structure Synced (f : Fds) (stale : Nat → Bool) : Prop where
  told : ∀ fd, f.told fd = (f.anfds fd).events ∨ f.told fd = 0 ∧ (f.anfds fd).reify ≠ 0 ∧
    ((f.anfds fd).reify &&& EV_IOFDSET.setWidth 8 ≠ 0 ∨ f.Flagged stale fd)
  fresh : ∀ a, f.active a ≠ 0 → stale a = false

variable {stale : Nat → Bool}

/-- **After `fd_reify`** the backend knows what is wanted. -/
theorem Synced.fdReify (h : f.Synced stale) (hok : f.Ok) :
    (fdReify f).Synced stale ∧ (Ev.fdReify f).told = wanted f := by
  have htold : (Ev.fdReify f).told = wanted f := by
    obtain ⟨f', hf', heq⟩ := hok.through
    rw [heq]
    funext fd
    change f'.told fd = _
    by_cases hfd : fd ∈ f.fdchanges
    · rcases (hf'.done fd hfd).2 with hnow | ⟨hsame, hevents, hflag⟩
      · exact hnow
      · rw [hsame]
        rcases h.told fd with hold | ⟨hzero, -, hset | hnone⟩
        · exact hold.trans hevents
        · exact absurd hflag hset
        · -- nobody watches the descriptor: a watcher that does is not stale
          rw [hzero, wanted_nil]
          refine List.eq_nil_iff_forall_not_mem.mpr fun a ha => ?_
          obtain ⟨hactive, hfda⟩ := (hok.listed fd a).mp ha
          exact hactive (hnone a hfda (h.fresh a hactive)).1
    · have hreify : (f.anfds fd).reify = 0 := not_not.mp (mt (hok.changes fd).mpr hfd)
      rw [(hf'.others fd hfd).2, ← hok.as_wanted fd hreify]
      exact (h.told fd).resolve_right fun hno => hno.2.1 hreify
  refine ⟨⟨fun fd => Or.inl ?_, ?_⟩, htold⟩
  · rw [htold, (hok.fdReify).2]
  · obtain ⟨f', -, heq⟩ := hok.through
    rw [heq]
    exact h.fresh

theorem flagged_evIoSet (events : Events) : (events ||| EV_IOFDSET) &&& EV_IOFDSET ≠ 0 := by
  intro h
  have hbit := congrArg (BitVec.getLsbD · 7) h
  simp [EV_IOFDSET] at hbit

theorem Synced.evIoSet (h : f.Synced stale) (ha : f.active a = 0) (fd : Int) (events : Events) :
    (evIoSet f a fd events).Synced (Function.update stale a false) := by
  refine ⟨fun fd' => ?_, fun b hb => ?_⟩
  · refine (h.told fd').imp id fun ⟨hzero, hreify, hor⟩ => ⟨hzero, hreify, hor.imp id fun hall b hb hstale => ?_⟩
    by_cases hba : b = a
    · subst hba
      refine ⟨ha, ?_⟩
      simpa [Ev.evIoSet] using flagged_evIoSet events
    · have hb' : f.fd b = fd' := by simpa [Ev.evIoSet, hba] using hb
      have hfresh := hall b hb' (by simpa [hba] using hstale)
      simpa [Ev.evIoSet, hba] using hfresh
  · have hba : b ≠ a := by
      rintro rfl
      exact hb ha
    rw [Function.update_of_ne hba]
    exact h.fresh b hb

theorem and_or_ne_zero {x y z : BitVec 8} (h : x &&& z ≠ 0 ∨ y &&& z ≠ 0) : (x ||| y) &&& z ≠ 0 := by
  intro hzero
  rw [BitVec.and_or_distrib_right] at hzero
  obtain ⟨hx, hy⟩ := BitVec.or_eq_zero_iff.mp hzero
  exact h.elim (absurd hx) (absurd hy)

/-- `fd_change` tells the backend nothing, so only the flags count. -/
theorem Synced.change (h : f.Synced stale) (htold : f'.told = f.told)
    (hsame : ∀ fd, (f'.anfds fd).events = (f.anfds fd).events ∧ (f'.anfds fd).reify = (f.anfds fd).reify)
    (hfresh : ∀ a, f'.active a ≠ 0 → stale a = false)
    (hflagged : ∀ fd, f.Flagged stale fd →
      fd = fd0 ∧ flags &&& EV_IOFDSET.setWidth 8 ≠ 0 ∨ f'.Flagged stale fd) :
    (fdChange f' fd0 flags).Synced stale := by
  rw [fdChange_eq]
  refine ⟨fun fd => ?_, hfresh⟩
  change f'.told fd = (Function.update f'.anfds fd0 _ fd).events ∨ f'.told fd = 0 ∧
    (Function.update f'.anfds fd0 _ fd).reify ≠ 0 ∧
      ((Function.update f'.anfds fd0 _ fd).reify &&& EV_IOFDSET.setWidth 8 ≠ 0 ∨ f'.Flagged stale fd)
  obtain ⟨hevents, hreify⟩ := hsame fd
  rw [htold]
  by_cases hfd : fd = fd0
  · subst hfd
    rw [Function.update_self, hevents, hreify]
    refine (h.told fd).imp id fun ⟨hzero, hne, hor⟩ => ⟨hzero, ?_, ?_⟩
    · intro hz
      exact hne (BitVec.or_eq_zero_iff.mp hz).1
    · rcases hor with hset | hall
      · exact Or.inl (and_or_ne_zero (Or.inl hset))
      · exact (hflagged fd hall).imp (fun hflag => and_or_ne_zero (Or.inr hflag.2)) id
  · rw [Function.update_of_ne hfd, hevents, hreify]
    exact (h.told fd).imp id fun ⟨hzero, hne, hor⟩ =>
      ⟨hzero, hne, hor.imp id fun hall => (hflagged fd hall).resolve_left fun hno => hfd hno.1⟩

/-- The flag is there or it is not. -/
theorem flag_eq (events : Events) : events &&& EV_IOFDSET = 0 ∨ events &&& EV_IOFDSET = EV_IOFDSET := by
  have hpow : EV_IOFDSET = BitVec.twoPow 32 7 := by decide
  rw [hpow, BitVec.and_twoPow]
  split
  · exact Or.inr rfl
  · exact Or.inl rfl

theorem Synced.started (h : f.Synced stale) (ha : f.active a = 0) (hstale : stale a = false) :
    (f.started a).Synced stale := by
  rw [started_eq]
  refine h.change rfl (fun fd => ?_) (fun b hb => ?_) fun fd hall => ?_
  · by_cases hfd : fd = f.fd a
    · subst hfd
      simp [listedNow]
    · simp [listedNow, hfd]
  · by_cases hba : b = a
    · exact hba ▸ hstale
    · exact h.fresh b (by simpa [listedNow, hba] using hb)
  · by_cases hfd : fd = f.fd a
    · refine Or.inl ⟨hfd, and_or_ne_zero (Or.inl ?_)⟩
      rw [(flag_eq (f.events a)).resolve_left (hall a hfd.symm hstale).2]
      decide
    · refine Or.inr fun b hb hfresh => ?_
      have hba : b ≠ a := by
        rintro rfl
        exact hfd hb.symm
      have hflag := hall b hb hfresh
      simpa [listedNow, hba] using hflag

theorem Synced.stopped (h : f.Synced stale) (ha : f.active a ≠ 0) : (f.stopped a).Synced stale := by
  refine h.change rfl (fun fd => ?_) (fun b hb => ?_) fun fd hall => Or.inr fun b hb hfresh => ?_
  · by_cases hfd : fd = f.fd a
    · subst hfd
      simp [wlistDel]
    · simp [wlistDel, hfd]
  · have hba : b ≠ a := by
      rintro rfl
      simp at hb
    exact h.fresh b (by simpa [hba] using hb)
  · have hflag := hall b hb hfresh
    by_cases hba : b = a
    · exact absurd hflag.1 (hba ▸ ha)
    · simpa [wlistDel, hba] using hflag

/-- A descriptor that nobody watches is closed: the kernel forgets it. -/
def closed (f : Fds) (fd : Int) : Fds := { f with told := Function.update f.told fd 0 }

theorem Synced.closed (h : f.Synced stale) (hok : f.Ok) (hfd : ∀ a, f.active a ≠ 0 → f.fd a ≠ fd) :
    (f.closed fd).Synced fun a => stale a || decide (f.fd a = fd) := by
  refine ⟨fun fd' => ?_, fun a ha => ?_⟩
  · by_cases hsame : fd' = fd
    · subst hsame
      have hzero : (f.closed fd').told fd' = 0 := Function.update_self _ _ _
      by_cases hreify : (f.anfds fd').reify = 0
      · refine Or.inl (hzero.trans ?_)
        change _ = (f.anfds fd').events
        rw [hok.as_wanted fd' hreify, wanted_nil]
        refine List.eq_nil_iff_forall_not_mem.mpr fun a ha => ?_
        obtain ⟨hactive, hfda⟩ := (hok.listed fd' a).mp ha
        exact hfd a hactive hfda
      · refine Or.inr ⟨hzero, hreify, Or.inr fun a ha hstale => ?_⟩
        have hfda : f.fd a = fd' := ha
        simp [hfda] at hstale
    · have htold : (f.closed fd).told fd' = f.told fd' := Function.update_of_ne hsame _ _
      rw [htold]
      refine (h.told fd').imp id fun ⟨hzero, hreify, hor⟩ => ⟨hzero, hreify, hor.imp id fun hall a ha hstale => ?_⟩
      exact hall a ha (Bool.or_eq_false_iff.mp hstale).1
  · simp [h.fresh a ha, hfd a ha]

/-- The kernel has forgotten everything, and `fd_rearm_all` is called. -/
def forked (f : Fds) : Fds := fdRearmAll { f with told := fun _ => 0 }

theorem Ok.of_told (h : f.Ok) (told : Int → BitVec 8) : Ok { f with told := told } :=
  ⟨⟨h.listed, h.active, h.nodup, h.inside, h.plain⟩,
    ⟨h.changes, h.changes_nodup, h.changes_inside, h.as_wanted, h.empty, h.room⟩⟩

theorem Synced.forked (h : f.Synced stale) (hok : f.Ok) : f.forked.Synced stale := by
  obtain ⟨hall, hzero⟩ := (hok.of_told fun _ => 0).fdRearmAll
  refine ⟨fun fd => Or.inl ?_, fun a ha => h.fresh a ?_⟩
  · rw [Fds.forked, (hzero fd).1, hall.told]
  · rwa [Fds.forked, hall.active] at ha

end Fds

/-! ## The calls for watchers -/

section Calls

variable {T : Type v} {l : Loop T} {a : Nat}

theorem evIoStart_active (ha : l.fds.active a ≠ 0) : evIoStart l a = some l := if_pos ha

/-- **`ev_io_start`**, when the assertions hold. -/
theorem evIoStart_spec (ha : l.fds.active a = 0) (hfd : 0 ≤ l.fds.fd a)
    (hevents : l.fds.events a &&& ~~~(EV_IOFDSET ||| EV_READ ||| EV_WRITE) = 0) :
    evIoStart l a = some
      { l with
        queue := priAdjust l.queue (.io a)
        fds := l.fds.started a
        activecnt := l.activecnt + 1 } := by
  rw [evIoStart, if_neg (not_not_intro ha), if_neg (not_not_intro hfd), if_neg (not_not_intro hevents)]
  rfl

theorem evIoStop_idle (ha : l.fds.active a = 0) :
    evIoStop l a = some { l with queue := clearPending l.queue (.io a) } := if_pos ha

/-- **`ev_io_stop`**: the assertion on the descriptor does not fail. -/
theorem evIoStop_spec (hl : l.fds.Ok) (ha : l.fds.active a ≠ 0) :
    evIoStop l a = some
      { l with
        queue := clearPending l.queue (.io a)
        fds := l.fds.stopped a
        activecnt := l.activecnt - 1 } := by
  rw [evIoStop]
  dsimp only
  rw [if_neg ha, if_neg (not_not_intro (hl.inside a ha))]
  rfl

/-- What is owed when those of the watchers `p` that are for one of the events were fed. -/
def ioOwed (f : Fds) (revents : Events) (p : Nat → Prop) [DecidablePred p] (owed : W → Option Events) :
    W → Option Events
  | .io a =>
    if p a ∧ f.events a &&& revents ≠ 0 then Queue.merged (owed (.io a)) (f.events a &&& revents)
    else owed (.io a)
  | w => owed w

theorem feedIo_spec {f : Fds} {q : Queue} {as : List Nat} (hnodup : as.Nodup) (hq : q.Ok)
    (hvalid : ∀ a ∈ as, q.Valid (.io a)) (revents : Events) :
    q.To (as.foldl (fun q a =>
        if f.events a &&& revents ≠ 0 then evFeedEvent q (.io a) (f.events a &&& revents) else q) q)
      (ioOwed f revents (· ∈ as) q.owed) := by
  induction as generalizing q with
  | nil =>
    refine ⟨hq, rfl, rfl, funext fun w => ?_⟩
    cases w <;> simp [ioOwed]
  | cons a as ih =>
    obtain ⟨ha, hnodup⟩ := List.nodup_cons.mp hnodup
    have hrest : ∀ b ∈ as, q.Valid (.io b) := fun b hb => hvalid b (List.mem_cons_of_mem _ hb)
    rw [List.foldl_cons]
    by_cases hev : f.events a &&& revents = 0
    · rw [if_neg (not_not_intro hev)]
      have hto := ih hnodup hq hrest
      refine ⟨hto.ok, hto.priority, hto.rfeeds, hto.owed.trans (funext fun w => ?_)⟩
      cases w with
      | io b =>
        by_cases hb : b = a
        · subst hb
          simp only [ioOwed, hev, ne_eq, not_true_eq_false, and_false, if_false]
        · simp [ioOwed, hb]
      | _ => rfl
    · rw [if_pos hev]
      have hone := hq.to_feed (hvalid a List.mem_cons_self) (f.events a &&& revents)
      have hto := hone.trans (ih hnodup hone.ok fun b hb => (hone.valid _).mpr (hrest b hb))
      refine ⟨hto.ok, hto.priority, hto.rfeeds, hto.owed.trans (funext fun w => ?_)⟩
      rw [hone.owed]
      cases w with
      | io b =>
        by_cases hb : b = a
        · subst hb
          simp only [ioOwed, ha, hev, Function.update_self, List.mem_cons, true_or, ne_eq, not_false_eq_true,
            and_self, if_true, false_and, if_false]
        · simp [ioOwed, hb]
      | _ => simp [ioOwed]

/-- **`fd_event_nc`** feeds the active watchers of the descriptor that are for one of the events. -/
theorem fdEventNc_spec {f : Fds} {q : Queue} (hf : f.Ok) (hq : q.Ok)
    (hvalid : ∀ a, f.active a ≠ 0 → q.Valid (.io a)) (fd : Int) (revents : Events) :
    q.To (fdEventNc f q fd revents)
      (ioOwed f revents (fun a => f.active a ≠ 0 ∧ f.fd a = fd) q.owed) := by
  have hto := @feedIo_spec f q _ (hf.nodup fd) hq (fun a ha => hvalid a ((hf.listed fd a).mp ha).1) revents
  refine ⟨hto.ok, hto.priority, hto.rfeeds, hto.owed.trans (funext fun w => ?_)⟩
  cases w with
  | io a => simp [ioOwed, hf.listed]
  | _ => rfl

theorem head_stopped (f : Fds) (a : Nat) :
    ((f.stopped a).anfds (f.fd a)).head = (f.anfds (f.fd a)).head.erase a := by
  rw [Fds.stopped, Fds.fdChange_eq]
  simp [wlistDel]

theorem fields_started (f : Fds) (a : Nat) :
    (f.started a).fd = f.fd ∧ (f.started a).events = Function.update f.events a (mask (f.events a)) ∧
      (f.started a).active = Function.update f.active a 1 := by
  rw [Fds.started_eq, Fds.fdChange_eq]
  exact ⟨rfl, rfl, rfl⟩

theorem fields_stopped (f : Fds) (a : Nat) :
    (f.stopped a).fd = f.fd ∧ (f.stopped a).events = f.events ∧
      (f.stopped a).active = Function.update f.active a 0 := by
  rw [Fds.stopped, Fds.fdChange_eq]
  exact ⟨rfl, rfl, rfl⟩

theorem reify_started (f : Fds) (a : Nat) (fd : Int) :
    ((f.started a).anfds fd).reify ≠ 0 ↔ fd = f.fd a ∨ (f.anfds fd).reify ≠ 0 := by
  rw [Fds.started_eq, Fds.reify_fdChange (Fds.or_ne_zero (by decide))]
  by_cases hfd : fd = f.fd a
  · simp [hfd]
  · simp [Fds.listedNow, hfd]

theorem reify_stopped (f : Fds) (a : Nat) (fd : Int) :
    ((f.stopped a).anfds fd).reify ≠ 0 ↔ fd = f.fd a ∨ (f.anfds fd).reify ≠ 0 := by
  rw [Fds.stopped, Fds.reify_fdChange (by decide)]
  by_cases hfd : fd = f.fd a
  · simp [hfd]
  · simp [wlistDel, hfd]

/-- What is owed when the watchers of a descriptor were stopped because something is wrong with it. -/
def killOwed (f : Fds) (fd : Int) (owed : W → Option Events) : W → Option Events
  | .io a =>
    if f.active a ≠ 0 ∧ f.fd a = fd then some (EV_ERROR ||| EV_READ ||| EV_WRITE) else owed (.io a)
  | w => owed w

/-- **What `fd_kill` does**: the watchers of the descriptor are stopped, and told that something is wrong. -/
structure Killed (descr : Int) (stale : Nat → Bool) (l l' : Loop T) : Prop where
  rest : l' = { l with queue := l'.queue, fds := l'.fds, activecnt := l'.activecnt }
  queue : l.queue.To l'.queue (killOwed l.fds descr l.queue.owed)
  ok : l'.fds.Ok
  synced : l'.fds.Synced stale
  fd : l'.fds.fd = l.fds.fd
  events : l'.fds.events = l.fds.events
  active : ∀ a, l'.fds.active a = if l.fds.fd a = descr then 0 else l.fds.active a
  reify : ∀ fd, (l'.fds.anfds fd).reify ≠ 0 ↔
    fd = descr ∧ (l.fds.anfds descr).head ≠ [] ∨ (l.fds.anfds fd).reify ≠ 0
  activecnt : l'.activecnt = l.activecnt - (l.fds.anfds descr).head.length

theorem killed_none {descr : Int} {stale : Nat → Bool} (hf : l.fds.Ok) (hs : l.fds.Synced stale)
    (hq : l.queue.Ok) (hhead : (l.fds.anfds descr).head = []) : Killed descr stale l l := by
  have hno (a : Nat) (ha : l.fds.fd a = descr) : l.fds.active a = 0 := by
    by_contra hactive
    have hin := (hf.listed descr a).mpr ⟨hactive, ha⟩
    rw [hhead] at hin
    exact absurd hin List.not_mem_nil
  refine ⟨rfl, ⟨hq, rfl, rfl, funext fun w => ?_⟩, hf, hs, rfl, rfl, fun a => ?_, by simp [hhead], by simp [hhead]⟩
  · cases w with
    | io a =>
      refine (if_neg ?_).symm
      rintro ⟨hactive, ha⟩
      exact hactive (hno a ha)
    | _ => rfl
  · by_cases ha : l.fds.fd a = descr
    · rw [if_pos ha, hno a ha]
    · rw [if_neg ha]

theorem killLoop_spec {descr : Int} {stale : Nat → Bool} (n : Nat) (hn : (l.fds.anfds descr).head.length ≤ n)
    (hf : l.fds.Ok) (hs : l.fds.Synced stale) (hq : l.queue.Ok)
    (hvalid : ∀ a, l.fds.active a ≠ 0 → l.queue.Valid (.io a)) :
    ∃ l', killLoop n l descr = some l' ∧ Killed descr stale l l' := by
  induction n generalizing l with
  | zero =>
    have hhead : (l.fds.anfds descr).head = [] := List.length_eq_zero_iff.mp (Nat.le_zero.mp hn)
    exact ⟨l, if_pos hhead, killed_none hf hs hq hhead⟩
  | succ n ih =>
    rw [killLoop]
    cases hhead : (l.fds.anfds descr).head with
    | nil => exact ⟨l, rfl, killed_none hf hs hq hhead⟩
    | cons a as =>
      obtain ⟨ha, hfda⟩ := (hf.listed descr a).mp (hhead ▸ List.mem_cons_self)
      subst hfda
      obtain ⟨hfd1, hevents1, hactive1⟩ := fields_stopped l.fds a
      have hhead1 : ((l.fds.stopped a).anfds (l.fds.fd a)).head = as := by
        rw [head_stopped, hhead]
        simp
      have hclear := hq.to_clear (.io a)
      have hfeed := hclear.trans (hclear.ok.to_feed ((hclear.valid _).mpr (hvalid a ha))
        (EV_ERROR ||| EV_READ ||| EV_WRITE))
      simp only [evIoStop_spec hf ha, Option.bind_eq_bind, Option.bind_some]
      obtain ⟨l', heq, hl'⟩ := @ih
        { l with
          queue := evFeedEvent (clearPending l.queue (.io a)) (.io a) (EV_ERROR ||| EV_READ ||| EV_WRITE)
          fds := l.fds.stopped a
          activecnt := l.activecnt - 1 }
        (by simpa [hhead1, hhead] using hn) (hf.stopped ha) (hs.stopped ha) hfeed.ok (fun b hb => by
          refine (hfeed.valid _).mpr (hvalid b fun hzero => hb ?_)
          change (l.fds.stopped a).active b = 0
          by_cases hba : b = a
          · rw [hactive1, hba, Function.update_self]
          · rwa [hactive1, Function.update_of_ne hba])
      refine ⟨l', heq, ⟨hl'.rest, ?_, hl'.ok, hl'.synced, hl'.fd.trans hfd1, hl'.events.trans hevents1,
        fun b => ?_, fun fd => ?_, ?_⟩⟩
      · have hto := hfeed.trans hl'.queue
        refine ⟨hto.ok, hto.priority, hto.rfeeds, hto.owed.trans (funext fun w => ?_)⟩
        have howed1 := hfeed.owed
        rw [hclear.owed, Function.update_self, Function.update_idem] at howed1
        cases w with
        | io b =>
          simp only [killOwed, hfd1, hactive1, howed1]
          by_cases hba : b = a
          · subst hba
            simp [ha, Queue.merged]
          · simp [hba]
        | _ => simp [killOwed, howed1]
      · rw [hl'.active b]
        simp only [hfd1, hactive1]
        by_cases hba : b = a
        · simp [hba]
        · rw [Function.update_of_ne hba]
      · rw [hl'.reify fd]
        simp only [reify_stopped]
        by_cases hfd : fd = l.fds.fd a
        · simp [hfd, hhead]
        · simp [hfd]
      · rw [hl'.activecnt]
        simp only [hhead1, hhead, List.length_cons]
        omega

/-- **`fd_kill`.** -/
theorem fdKill_spec (hf : l.fds.Ok) {stale : Nat → Bool} (hs : l.fds.Synced stale) (hq : l.queue.Ok)
    (hvalid : ∀ a, l.fds.active a ≠ 0 → l.queue.Valid (.io a)) (descr : Int) :
    ∃ l', fdKill l descr = some l' ∧ Killed descr stale l l' := killLoop_spec _ le_rfl hf hs hq hvalid

end Calls

end CodeSLoop.Ev
