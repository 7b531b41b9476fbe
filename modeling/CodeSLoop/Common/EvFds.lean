import CodeSLoop.Common.EvState

/-!
# Descriptors (`common/libev/ev.c`)

The watchers of a descriptor are in a list. When one is added or taken away, the descriptor goes to
`fdchanges`; `fd_reify` tells the backend what is wanted now of each of these, before it waits again. What the
backend says of a descriptor that is in `fdchanges` is not for the watchers that there are now, and is dropped.

A descriptor that is closed is forgotten by the kernel, and its number may be used again for another one. Before the
next `fd_reify` what is wanted of it may then be what it was before; that it is told nevertheless is the reason
for `EV__IOFDSET`, which `ev_io_set` sets.
-/

namespace CodeSLoop.Ev

universe v

/-! ## The code -/

def EV_READ : Events := 0x01

def EV_WRITE : Events := 0x02

/-- `EV__IOFDSET`. -/
def EV_IOFDSET : Events := 0x80

def EV_ERROR : Events := 0x80000000

def EV_ANFD_REIFY : BitVec 8 := 1

def fdChange (f : Fds) (fd : Int) (flags : BitVec 8) : Fds :=
  let reify := (f.anfds fd).reify
  let anfds := Function.update f.anfds fd { f.anfds fd with reify := reify ||| flags }
  if reify = 0 then
    { f with
      anfds := anfds
      fdchangemax := needsize 4 f.fdchangemax (f.fdchanges.length + 1)
      fdchanges := f.fdchanges ++ [fd] }
  else { f with anfds := anfds }

/-- `wlist_add`. -/
def wlistAdd (f : Fds) (fd : Int) (a : Nat) : Fds :=
  { f with anfds := Function.update f.anfds fd { f.anfds fd with head := a :: (f.anfds fd).head } }

/-- `wlist_del`. -/
def wlistDel (f : Fds) (fd : Int) (a : Nat) : Fds :=
  { f with anfds := Function.update f.anfds fd { f.anfds fd with head := (f.anfds fd).head.erase a } }

/-- `ev_io_set`. -/
def evIoSet (f : Fds) (a : Nat) (fd : Int) (events : Events) : Fds :=
  { f with
    fd := Function.update f.fd a fd
    events := Function.update f.events a (events ||| EV_IOFDSET) }

/-- The events of a watcher, without the flag of `ev_io_set`. -/
def mask (events : Events) : Events := events &&& ~~~EV_IOFDSET

/-- What `ev_io_start` does for the descriptor. -/
def watch (f : Fds) (a : Nat) : Fds :=
  let fd := f.fd a
  let f := { f with anfdmax := needsize 16 f.anfdmax (fd + 1).toNat }
  let f := wlistAdd f fd a
  let f := fdChange f fd ((f.events a &&& EV_IOFDSET).setWidth 8 ||| EV_ANFD_REIFY)
  { f with events := Function.update f.events a (mask (f.events a)) }

/-- What `fd_reify` wants of the backend for a descriptor. -/
def wanted (f : Fds) (fd : Int) : BitVec 8 :=
  (f.anfds fd).head.foldl (fun events a => events ||| (f.events a).setWidth 8) 0

/-- `fd_reify`, for a descriptor; `backend_modify` is told. -/
def reifyFd (f : Fds) (fd : Int) : Fds :=
  let events := wanted f fd
  let oEvents := (f.anfds fd).events
  let oReify := (f.anfds fd).reify
  let f := { f with anfds := Function.update f.anfds fd { f.anfds fd with reify := 0, events := events } }
  if oEvents ≠ events ∨ oReify &&& EV_IOFDSET.setWidth 8 ≠ 0 then
    { f with told := Function.update f.told fd events }
  else f

def fdReify (f : Fds) : Fds := { f.fdchanges.foldl reifyFd f with fdchanges := [] }

/-- `fd_rearm_all`, for a descriptor. -/
def rearmFd (f : Fds) (fd : Int) : Fds :=
  if (f.anfds fd).events ≠ 0 then
    let f := { f with anfds := Function.update f.anfds fd { f.anfds fd with events := 0 } }
    fdChange f fd (EV_IOFDSET.setWidth 8 ||| EV_ANFD_REIFY)
  else f

def fdRearmAll (f : Fds) : Fds := (List.range f.anfdmax).foldl (fun f (i : Nat) => rearmFd f (i : Int)) f

/-- `fd_event_nc`. -/
def fdEventNc (f : Fds) (q : Queue) (fd : Int) (revents : Events) : Queue :=
  (f.anfds fd).head.foldl
    (fun q a => if f.events a &&& revents ≠ 0 then evFeedEvent q (.io a) (f.events a &&& revents) else q) q

/-- `fd_event`, which the backend calls. -/
def fdEvent (f : Fds) (q : Queue) (fd : Int) (revents : Events) : Queue :=
  if (f.anfds fd).reify = 0 then fdEventNc f q fd revents else q

def evFeedFdEvent (f : Fds) (q : Queue) (fd : Int) (revents : Events) : Queue :=
  if 0 ≤ fd ∧ fd < f.anfdmax then fdEventNc f q fd revents else q

section Code

variable {T : Type v}

def evIoStart (l : Loop T) (a : Nat) : Option (Loop T) :=
  if l.fds.active a ≠ 0 then some l
  -- the assertions on the descriptor and on the events
  else if ¬ 0 ≤ l.fds.fd a then none
  else if l.fds.events a &&& ~~~(EV_IOFDSET ||| EV_READ ||| EV_WRITE) ≠ 0 then none
  else
    let l := evStart l (.io a) 1
    some { l with fds := watch l.fds a }

def evIoStop (l : Loop T) (a : Nat) : Option (Loop T) :=
  let l := { l with queue := clearPending l.queue (.io a) }
  if l.fds.active a = 0 then some l
  -- "libev: ev_io_stop called with illegal fd"
  else if ¬ (0 ≤ l.fds.fd a ∧ l.fds.fd a < l.fds.anfdmax) then none
  else
    let l := evStop { l with fds := wlistDel l.fds (l.fds.fd a) a } (.io a)
    some { l with fds := fdChange l.fds (l.fds.fd a) 1 }

/-- The loop of `fd_kill`, with so many turns at most. -/
def killLoop : Nat → Loop T → Int → Option (Loop T)
  | 0, l, fd => if (l.fds.anfds fd).head = [] then some l else none
  | n + 1, l, fd =>
    match (l.fds.anfds fd).head with
    | [] => some l
    | a :: _ => do
      let l ← evIoStop l a
      killLoop n { l with queue := evFeedEvent l.queue (.io a) (EV_ERROR ||| EV_READ ||| EV_WRITE) } fd

/-- `fd_kill`; a turn for each watcher is enough. -/
def fdKill (l : Loop T) (fd : Int) : Option (Loop T) := killLoop (l.fds.anfds fd).head.length l fd

end Code

/-! ## The events of a watcher -/

theorem mask_flag (events : Events) : mask (events ||| EV_IOFDSET) = mask events := by
  refine BitVec.eq_of_getLsbD_eq fun i hi => ?_
  simp only [mask, BitVec.getLsbD_and, BitVec.getLsbD_or, BitVec.getLsbD_not]
  cases EV_IOFDSET.getLsbD i <;> simp

theorem mask_mask (events : Events) : mask (mask events) = mask events := by
  rw [mask, mask, BitVec.and_assoc, BitVec.and_self]

/-- What a watcher may be for. -/
theorem plain_iff (events : Events) :
    mask events &&& ~~~(EV_READ ||| EV_WRITE) = 0 ↔ events &&& ~~~(EV_IOFDSET ||| EV_READ ||| EV_WRITE) = 0 := by
  rw [mask, BitVec.and_assoc, ← BitVec.not_or, BitVec.or_assoc]

theorem and_of_and_not {x y : Events} (h : x &&& ~~~y = 0) : x &&& y = x := by
  refine BitVec.eq_of_getLsbD_eq fun i hi => ?_
  have hbit := congrArg (BitVec.getLsbD · i) h
  simp only [BitVec.getLsbD_and, BitVec.getLsbD_not, hi] at hbit
  rw [BitVec.getLsbD_and]
  cases hx : x.getLsbD i <;> simp_all

/-- A watcher that is for nothing else has no flag. -/
theorem mask_of_plain {events : Events} (h : events &&& ~~~(EV_READ ||| EV_WRITE) = 0) : mask events = events := by
  have hflag : (EV_READ ||| EV_WRITE) &&& ~~~EV_IOFDSET = EV_READ ||| EV_WRITE := by decide
  rw [← and_of_and_not h, mask, BitVec.and_assoc, hflag]

/-! ## What is true of the descriptors -/

namespace Fds

/-- **The lists are those of the active watchers.** -/
structure Watched (f : Fds) : Prop where
  listed : ∀ fd a, a ∈ (f.anfds fd).head ↔ f.active a ≠ 0 ∧ f.fd a = fd
  active : ∀ a, f.active a ≤ 1
  nodup : ∀ fd, (f.anfds fd).head.Nodup
  inside : ∀ a, f.active a ≠ 0 → 0 ≤ f.fd a ∧ f.fd a < f.anfdmax
  plain : ∀ a, f.active a ≠ 0 → f.events a &&& ~~~(EV_READ ||| EV_WRITE) = 0

/-- **What is not in `fdchanges`** is as it is wanted. -/
structure Reified (f : Fds) : Prop where
  changes : ∀ fd, fd ∈ f.fdchanges ↔ (f.anfds fd).reify ≠ 0
  changes_nodup : f.fdchanges.Nodup
  changes_inside : ∀ fd ∈ f.fdchanges, 0 ≤ fd ∧ fd < f.anfdmax
  as_wanted : ∀ fd, (f.anfds fd).reify = 0 → (f.anfds fd).events = wanted f fd
  empty : ∀ fd : Int, ¬ (0 ≤ fd ∧ fd < f.anfdmax) → (f.anfds fd).events = 0
  room : f.fdchanges.length ≤ f.fdchangemax

structure Ok (f : Fds) : Prop extends f.Watched, f.Reified

variable {f f' : Fds} {a : Nat} {fd fd0 : Int} {fds : List Int} {flags : BitVec 8}

/-- **What is wanted**: what any of the watchers is for. -/
theorem getLsbD_wanted (f : Fds) (fd : Int) {i : Nat} (hi : i < 8) :
    (wanted f fd).getLsbD i = true ↔ ∃ a ∈ (f.anfds fd).head, (f.events a).getLsbD i = true := by
  have hfold (as : List Nat) (e : BitVec 8) :
      (as.foldl (fun events a => events ||| (f.events a).setWidth 8) e).getLsbD i = true ↔
        e.getLsbD i = true ∨ ∃ a ∈ as, (f.events a).getLsbD i = true := by
    induction as generalizing e with
    | nil => simp
    | cons a as ih =>
      rw [List.foldl_cons, ih, BitVec.getLsbD_or, BitVec.getLsbD_setWidth]
      simp [hi, or_assoc]
  rw [wanted, hfold]
  simp

theorem wanted_congr (hhead : (f'.anfds fd).head = (f.anfds fd).head)
    (hevents : ∀ a ∈ (f.anfds fd).head, f'.events a = f.events a) : wanted f' fd = wanted f fd := by
  have hfold (as : List Nat) (has : ∀ a ∈ as, f'.events a = f.events a) (e : BitVec 8) :
      as.foldl (fun events a => events ||| (f'.events a).setWidth 8) e =
        as.foldl (fun events a => events ||| (f.events a).setWidth 8) e := by
    induction as generalizing e with
    | nil => rfl
    | cons a as ih =>
      rw [List.foldl_cons, List.foldl_cons, has a List.mem_cons_self]
      exact ih (fun b hb => has b (List.mem_cons_of_mem _ hb)) _
  rw [wanted, wanted, hhead]
  exact hfold _ hevents 0

/-- Something is wanted, if there is a watcher that is for something. -/
theorem Watched.wanted_ne_zero (h : f.Watched) (fd : Int) :
    wanted f fd ≠ 0 ↔ ∃ a, f.active a ≠ 0 ∧ f.fd a = fd ∧ f.events a ≠ 0 := by
  constructor
  · intro hne
    obtain ⟨i, hi⟩ : ∃ i, (wanted f fd).getLsbD i = true := by
      by_contra hno
      push Not at hno
      exact hne (BitVec.eq_of_getLsbD_eq fun i _ => by simpa using hno i)
    obtain ⟨a, ha, hbit⟩ := (getLsbD_wanted f fd (BitVec.lt_of_getLsbD hi)).mp hi
    obtain ⟨hactive, hfd⟩ := (h.listed fd a).mp ha
    refine ⟨a, hactive, hfd, fun hzero => ?_⟩
    rw [hzero] at hbit
    simp at hbit
  · rintro ⟨a, hactive, hfd, hevents⟩ hzero
    refine hevents (BitVec.eq_of_getLsbD_eq fun i hi => ?_)
    have hsmall : ∀ i : Fin 32, (EV_READ ||| EV_WRITE).getLsbD i = true → (i : Nat) < 8 := by decide
    rw [← and_of_and_not (h.plain a hactive), BitVec.getLsbD_and]
    refine (Bool.and_eq_false_iff.mpr ?_).trans BitVec.getLsbD_zero.symm
    by_cases hbit : (EV_READ ||| EV_WRITE).getLsbD i = true
    · refine Or.inl (Bool.eq_false_iff.mpr fun hset => ?_)
      have hwanted := (getLsbD_wanted f fd (hsmall ⟨i, hi⟩ hbit)).mpr ⟨a, (h.listed fd a).mpr ⟨hactive, hfd⟩, hset⟩
      rw [hzero] at hwanted
      simp at hwanted
    · exact Or.inr (Bool.eq_false_iff.mpr hbit)

theorem wanted_nil (h : (f.anfds fd).head = []) : wanted f fd = 0 := by
  rw [wanted, h]
  rfl

theorem or_ne_zero {x y : BitVec 8} (hy : y ≠ 0) : x ||| y ≠ 0 := by
  intro h
  exact hy (BitVec.or_eq_zero_iff.mp h).2

theorem fdChange_eq (f : Fds) (fd : Int) (flags : BitVec 8) :
    fdChange f fd flags =
      { f with
        anfds := Function.update f.anfds fd { f.anfds fd with reify := (f.anfds fd).reify ||| flags }
        fdchangemax := if (f.anfds fd).reify = 0 then needsize 4 f.fdchangemax (f.fdchanges.length + 1)
          else f.fdchangemax
        fdchanges := if (f.anfds fd).reify = 0 then f.fdchanges ++ [fd] else f.fdchanges } := by
  unfold fdChange
  dsimp only
  split <;> rfl

theorem reify_fdChange (hflags : flags ≠ 0) (fd : Int) :
    ((fdChange f fd0 flags).anfds fd).reify ≠ 0 ↔ fd = fd0 ∨ (f.anfds fd).reify ≠ 0 := by
  rw [fdChange_eq]
  by_cases hfd : fd = fd0
  · subst hfd
    simpa using or_ne_zero hflags
  · simp [hfd]

/-- **`fd_change`**, for a descriptor that is the only one where something was changed. -/
theorem Reified.change (h : f.Reified) (hflags : flags ≠ 0) (hfd0 : 0 ≤ fd0 ∧ fd0 < f'.anfdmax)
    (hmax : f.anfdmax ≤ f'.anfdmax) (hchanges : f'.fdchanges = f.fdchanges)
    (hchangemax : f'.fdchangemax = f.fdchangemax) (hreify : (f'.anfds fd0).reify = (f.anfds fd0).reify)
    (hother : ∀ fd, fd ≠ fd0 → f'.anfds fd = f.anfds fd ∧ wanted f' fd = wanted f fd) :
    (fdChange f' fd0 flags).Reified := by
  have hreify' (fd : Int) : ((fdChange f' fd0 flags).anfds fd).reify =
      if fd = fd0 then (f.anfds fd0).reify ||| flags else (f.anfds fd).reify := by
    rw [fdChange_eq]
    by_cases hfd : fd = fd0
    · subst hfd
      rw [if_pos rfl, ← hreify]
      simp
    · rw [if_neg hfd, ← (hother fd hfd).1]
      exact congrArg Anfd.reify (Function.update_of_ne hfd _ _)
  have hold (fd : Int) (hfd : fd ≠ fd0) : (fdChange f' fd0 flags).anfds fd = f.anfds fd := by
    rw [fdChange_eq]
    exact (Function.update_of_ne hfd _ _).trans (hother fd hfd).1
  have hlist : (fdChange f' fd0 flags).fdchanges =
      if (f.anfds fd0).reify = 0 then f.fdchanges ++ [fd0] else f.fdchanges := by
    rw [fdChange_eq, hreify, hchanges]
  have hanfdmax : (fdChange f' fd0 flags).anfdmax = f'.anfdmax := by rw [fdChange_eq]
  have hmem (fd : Int) : fd ∈ (fdChange f' fd0 flags).fdchanges ↔ fd = fd0 ∨ fd ∈ f.fdchanges := by
    rw [hlist]
    split
    · simp [or_comm]
    · refine ⟨Or.inr, fun hor => hor.elim (fun heq => ?_) id⟩
      exact heq ▸ (h.changes fd0).mpr ‹_›
  refine ⟨fun fd => ?_, ?_, fun fd hfd => ?_, fun fd hfd => ?_, fun fd hfd => ?_, ?_⟩
  · rw [hmem, hreify']
    by_cases hfd : fd = fd0
    · rw [if_pos hfd]
      exact iff_of_true (Or.inl hfd) (or_ne_zero hflags)
    · simp [hfd, h.changes]
  · rw [hlist]
    split
    · refine List.nodup_append.mpr ⟨h.changes_nodup, by simp, fun x hx y hy => ?_⟩
      rintro rfl
      exact (h.changes _).mp hx (List.mem_singleton.mp hy ▸ ‹_›)
    · exact h.changes_nodup
  · rw [hanfdmax]
    rcases (hmem fd).mp hfd with rfl | hin
    · exact hfd0
    · have hinside := h.changes_inside fd hin
      exact ⟨hinside.1, by omega⟩
  · have hne : fd ≠ fd0 := by
      rintro rfl
      rw [hreify', if_pos rfl] at hfd
      exact or_ne_zero hflags hfd
    rw [hreify', if_neg hne] at hfd
    rw [hold fd hne, h.as_wanted fd hfd, ← (hother fd hne).2]
    refine (wanted_congr ?_ fun a _ => ?_).symm
    · rw [hold fd hne, (hother fd hne).1]
    · rw [fdChange_eq]
  · rw [hanfdmax] at hfd
    have hne : fd ≠ fd0 := by
      rintro rfl
      exact hfd hfd0
    rw [hold fd hne]
    exact h.empty fd fun hin => hfd ⟨hin.1, by omega⟩
  · have hroom := h.room
    rw [fdChange_eq]
    simp only [hreify, hchanges, hchangemax]
    split
    · rw [List.length_append]
      exact le_needsize (by simp) _ _
    · exact hroom

/-! ## The calls keep it -/

theorem Ok.wanted_events (h : f.Ok) (ha : f.active a = 0) (fd : Int) {events : Events}
    (hf' : f'.anfds fd = f.anfds fd) (hevents : f'.events = Function.update f.events a events) :
    wanted f' fd = wanted f fd := by
  refine wanted_congr (by rw [hf']) fun b hb => ?_
  rw [hevents]
  refine Function.update_of_ne ?_ _ _
  rintro rfl
  exact ((h.listed fd b).mp hb).1 ha

/-- `ev_io_set`, for a watcher that is not active. -/
theorem Ok.evIoSet (h : f.Ok) (ha : f.active a = 0) (fd : Int) (events : Events) : (evIoSet f a fd events).Ok := by
  have hne {b : Nat} (hb : f.active b ≠ 0) : b ≠ a := by
    rintro rfl
    exact hb ha
  have hfd {b : Nat} (hb : f.active b ≠ 0) : (Ev.evIoSet f a fd events).fd b = f.fd b :=
    Function.update_of_ne (hne hb) _ _
  have hevents {b : Nat} (hb : f.active b ≠ 0) : (Ev.evIoSet f a fd events).events b = f.events b :=
    Function.update_of_ne (hne hb) _ _
  refine ⟨⟨fun fd' b => ?_, h.active, h.nodup, fun b hb => ?_, fun b hb => ?_⟩,
    ⟨h.changes, h.changes_nodup, h.changes_inside, fun fd' hfd' => ?_, h.empty, h.room⟩⟩
  · refine (h.listed fd' b).trans (and_congr_right fun hb => ?_)
    rw [hfd hb]
  · rw [hfd hb]
    exact h.inside b hb
  · rw [hevents hb]
    exact h.plain b hb
  · have hwanted : wanted (Ev.evIoSet f a fd events) fd' = wanted f fd' := h.wanted_events ha fd' rfl rfl
    exact (h.as_wanted fd' hfd').trans hwanted.symm

/-- A watcher that becomes active. -/
def started (f : Fds) (a : Nat) : Fds := watch { f with active := Function.update f.active a 1 } a

/-- A watcher that is not active any more. -/
def stopped (f : Fds) (a : Nat) : Fds :=
  fdChange { wlistDel f (f.fd a) a with active := Function.update f.active a 0 } (f.fd a) 1

/-- The lists when a watcher is active, and the flag of `ev_io_set` is taken away from it. -/
def listedNow (f : Fds) (a : Nat) : Fds :=
  { f with
    active := Function.update f.active a 1
    events := Function.update f.events a (mask (f.events a))
    anfdmax := needsize 16 f.anfdmax (f.fd a + 1).toNat
    anfds := Function.update f.anfds (f.fd a) { f.anfds (f.fd a) with head := a :: (f.anfds (f.fd a)).head } }

theorem started_eq (f : Fds) (a : Nat) :
    f.started a = fdChange (f.listedNow a) (f.fd a) ((f.events a &&& EV_IOFDSET).setWidth 8 ||| EV_ANFD_REIFY) := by
  rw [started, watch, fdChange_eq, fdChange_eq]
  rfl

theorem le_anfdmax (f : Fds) (a : Nat) : f.anfdmax ≤ (f.listedNow a).anfdmax := by
  change f.anfdmax ≤ needsize 16 f.anfdmax (f.fd a + 1).toNat
  rw [needsize]
  split
  · exact (Nat.le_of_lt ‹_›).trans (le_arrayNextsize (by simp) _ _)
  · exact le_rfl

theorem inside_anfdmax (h : 0 ≤ f.fd a) : f.fd a < (f.listedNow a).anfdmax := by
  have hle := le_needsize (show 0 < 16 by simp) f.anfdmax (f.fd a + 1).toNat
  change f.fd a < (needsize 16 f.anfdmax (f.fd a + 1).toNat : Nat)
  omega

theorem Watched.listedNow (h : f.Watched) (ha : f.active a = 0) (hfd : 0 ≤ f.fd a)
    (hevents : f.events a &&& ~~~(EV_IOFDSET ||| EV_READ ||| EV_WRITE) = 0) : (f.listedNow a).Watched := by
  have hnot (fd : Int) : a ∉ (f.anfds fd).head := fun hin => ((h.listed fd a).mp hin).1 ha
  refine ⟨fun fd b => ?_, fun b => ?_, fun fd => ?_, fun b hb => ?_, fun b hb => ?_⟩
  · have hlisted := h.listed fd b
    by_cases hfda : fd = f.fd a
    · subst hfda
      by_cases hb : b = a
      · subst hb
        simp [Fds.listedNow]
      · simpa [Fds.listedNow, hb] using hlisted
    · by_cases hb : b = a
      · subst hb
        simpa [Fds.listedNow, hfda, Ne.symm hfda] using hnot fd
      · simpa [Fds.listedNow, hfda, hb] using hlisted
  · by_cases hb : b = a
    · simp [Fds.listedNow, hb]
    · simpa [Fds.listedNow, hb] using h.active b
  · by_cases hfda : fd = f.fd a
    · subst hfda
      simpa [Fds.listedNow] using ⟨hnot _, h.nodup _⟩
    · simpa [Fds.listedNow, hfda] using h.nodup fd
  · by_cases hba : b = a
    · subst hba
      exact ⟨hfd, inside_anfdmax hfd⟩
    · have hb' : f.active b ≠ 0 := by simpa [Fds.listedNow, hba] using hb
      have hinside := h.inside b hb'
      have hle := le_anfdmax f a
      exact ⟨hinside.1, by change f.fd b < _; omega⟩
  · by_cases hba : b = a
    · subst hba
      simpa [Fds.listedNow] using (plain_iff _).mpr hevents
    · have hb' : f.active b ≠ 0 := by simpa [Fds.listedNow, hba] using hb
      simpa [Fds.listedNow, hba] using h.plain b hb'

theorem Watched.of_fdChange (h : f.Watched) : (fdChange f fd flags).Watched := by
  rw [fdChange_eq]
  have hhead (fd' : Int) : (Function.update f.anfds fd
      { f.anfds fd with reify := (f.anfds fd).reify ||| flags } fd').head = (f.anfds fd').head := by
    by_cases hfd : fd' = fd
    · subst hfd
      simp
    · rw [Function.update_of_ne hfd]
  refine ⟨fun fd' b => ?_, h.active, fun fd' => ?_, h.inside, h.plain⟩
  · exact (iff_of_eq (congrArg (b ∈ ·) (hhead fd'))).trans (h.listed fd' b)
  · exact (congrArg List.Nodup (hhead fd')).mpr (h.nodup fd')

theorem Ok.started (h : f.Ok) (ha : f.active a = 0) (hfd : 0 ≤ f.fd a)
    (hevents : f.events a &&& ~~~(EV_IOFDSET ||| EV_READ ||| EV_WRITE) = 0) : (f.started a).Ok := by
  rw [started_eq]
  refine ⟨(h.toWatched.listedNow ha hfd hevents).of_fdChange, ?_⟩
  refine h.toReified.change (or_ne_zero (by decide)) ⟨hfd, inside_anfdmax hfd⟩ (le_anfdmax f a) rfl rfl
    (by simp [listedNow]) fun fd hfd => ?_
  have hsame : (f.listedNow a).anfds fd = f.anfds fd := Function.update_of_ne hfd _ _
  exact ⟨hsame, h.wanted_events ha fd hsame rfl⟩

theorem Ok.stopped (h : f.Ok) (ha : f.active a ≠ 0) : (f.stopped a).Ok := by
  have hother (fd : Int) (hfd : fd ≠ f.fd a) : (wlistDel f (f.fd a) a).anfds fd = f.anfds fd :=
    Function.update_of_ne hfd _ _
  have hself : ((wlistDel f (f.fd a) a).anfds (f.fd a)).head = (f.anfds (f.fd a)).head.erase a := by
    simp [wlistDel]
  refine ⟨Watched.of_fdChange ⟨fun fd b => ?_, fun b => ?_, fun fd => ?_, fun b hb => ?_, fun b hb => ?_⟩, ?_⟩
  · change b ∈ ((wlistDel f (f.fd a) a).anfds fd).head ↔ _
    have hlisted := h.listed fd b
    by_cases hfda : fd = f.fd a
    · subst hfda
      rw [hself, (h.nodup _).mem_erase_iff, hlisted]
      by_cases hb : b = a
      · simp [hb]
      · simp [wlistDel, hb]
    · rw [hother fd hfda]
      by_cases hb : b = a
      · subst hb
        simpa [wlistDel, Ne.symm hfda] using hlisted
      · simpa [wlistDel, hb] using hlisted
  · by_cases hb : b = a
    · simp [hb]
    · simpa [hb] using h.active b
  · change ((wlistDel f (f.fd a) a).anfds fd).head.Nodup
    by_cases hfda : fd = f.fd a
    · subst hfda
      rw [hself]
      exact (h.nodup _).erase a
    · rw [hother fd hfda]
      exact h.nodup fd
  · have hba : b ≠ a := by
      rintro rfl
      simp at hb
    exact h.inside b (by simpa [hba] using hb)
  · have hba : b ≠ a := by
      rintro rfl
      simp at hb
    exact h.plain b (by simpa [hba] using hb)
  · refine h.toReified.change (by decide) (h.inside a ha) le_rfl rfl rfl (by simp [wlistDel]) fun fd hfd => ?_
    exact ⟨hother fd hfd, wanted_congr (congrArg Anfd.head (hother fd hfd)) fun _ _ => rfl⟩

/-! ## `fd_reify` -/

theorem reifyFd_eq (f : Fds) (fd : Int) :
    reifyFd f fd =
      { f with
        anfds := Function.update f.anfds fd { f.anfds fd with reify := 0, events := wanted f fd }
        told :=
          if (f.anfds fd).events ≠ wanted f fd ∨ (f.anfds fd).reify &&& EV_IOFDSET.setWidth 8 ≠ 0 then
            Function.update f.told fd (wanted f fd)
          else f.told } := by
  unfold reifyFd
  dsimp only
  split <;> rfl

/-- The loop of `fd_reify` has come behind the descriptors `fds`. -/
structure Through (f f' : Fds) (fds : List Int) : Prop where
  rest : f' = { f with anfds := f'.anfds, told := f'.told }
  done : ∀ fd ∈ fds, f'.anfds fd = { f.anfds fd with reify := 0, events := wanted f fd } ∧
    (f'.told fd = wanted f fd ∨
      f'.told fd = f.told fd ∧ (f.anfds fd).events = wanted f fd ∧
        (f.anfds fd).reify &&& EV_IOFDSET.setWidth 8 = 0)
  others : ∀ fd, fd ∉ fds → f'.anfds fd = f.anfds fd ∧ f'.told fd = f.told fd

theorem Through.wanted (h : f.Through f' fds) (fd : Int) : Ev.wanted f' fd = Ev.wanted f fd := by
  refine wanted_congr ?_ fun a _ => by rw [h.rest]
  by_cases hfd : fd ∈ fds
  · rw [(h.done fd hfd).1]
  · rw [(h.others fd hfd).1]

theorem Through.reifyFd (h : f.Through f' fds) (hfd : fd ∉ fds) : f.Through (reifyFd f' fd) (fds ++ [fd]) := by
  obtain ⟨hanfd, htold⟩ := h.others fd hfd
  rw [reifyFd_eq, h.wanted, hanfd]
  refine ⟨?_, fun fd' hfd' => ?_, fun fd' hfd' => ?_⟩
  · conv_lhs => rw [h.rest]
  · by_cases hsame : fd' = fd
    · subst hsame
      refine ⟨Function.update_self _ _ _, ?_⟩
      dsimp only
      split
      · exact Or.inl (Function.update_self _ _ _)
      · rename_i hno
        rw [not_or, not_not, not_not] at hno
        exact Or.inr ⟨htold, hno⟩
    · have hin : fd' ∈ fds := by simpa [hsame] using hfd'
      obtain ⟨hanfd', htold'⟩ := h.done fd' hin
      refine ⟨(Function.update_of_ne hsame _ _).trans hanfd', ?_⟩
      dsimp only
      split
      · rwa [Function.update_of_ne hsame]
      · exact htold'
  · rw [List.mem_append, List.mem_singleton, not_or] at hfd'
    obtain ⟨hanfd', htold'⟩ := h.others fd' hfd'.1
    refine ⟨(Function.update_of_ne hfd'.2 _ _).trans hanfd', ?_⟩
    dsimp only
    split
    · rw [Function.update_of_ne hfd'.2]
      exact htold'
    · exact htold'

theorem through_foldl {rest : List Int} (h : f.Through f' fds) (hnodup : (fds ++ rest).Nodup) :
    f.Through (rest.foldl Ev.reifyFd f') (fds ++ rest) := by
  induction rest generalizing f' fds with
  | nil => rwa [List.append_nil]
  | cons fd rest ih =>
    have hfd : fd ∉ fds := by
      intro hin
      exact (List.nodup_append.mp hnodup).2.2 fd hin fd List.mem_cons_self rfl
    have hstep := ih (h.reifyFd hfd) (by simpa using hnodup)
    rwa [List.append_assoc] at hstep

theorem Reified.through (h : f.Reified) :
    ∃ f', f.Through f' f.fdchanges ∧ fdReify f = { f with anfds := f'.anfds, told := f'.told, fdchanges := [] } := by
  have hstart : f.Through f [] := ⟨rfl, fun fd hfd => absurd hfd List.not_mem_nil, fun _ _ => ⟨rfl, rfl⟩⟩
  have hall := through_foldl hstart h.changes_nodup
  refine ⟨_, hall, ?_⟩
  rw [fdReify, hall.rest]

/-- **After `fd_reify`** what is known of each descriptor is what is wanted. -/
theorem Ok.fdReify (h : f.Ok) :
    (fdReify f).Ok ∧ ∀ fd, (Ev.fdReify f).anfds fd = ⟨(f.anfds fd).head, wanted f fd, 0⟩ := by
  obtain ⟨f', hf', heq⟩ := h.through
  have hanfds (fd : Int) : f'.anfds fd = ⟨(f.anfds fd).head, wanted f fd, 0⟩ := by
    by_cases hfd : fd ∈ f.fdchanges
    · exact (hf'.done fd hfd).1
    · have hreify : (f.anfds fd).reify = 0 := not_not.mp (mt (h.changes fd).mpr hfd)
      rw [(hf'.others fd hfd).1, ← h.as_wanted fd hreify, ← hreify]
  rw [heq]
  have hhead (fd : Int) : (f'.anfds fd).head = (f.anfds fd).head := by rw [hanfds]
  refine ⟨⟨⟨fun fd a => ?_, h.active, fun fd => ?_, h.inside, h.plain⟩,
    ⟨fun fd => ?_, List.nodup_nil, fun fd hfd => absurd hfd List.not_mem_nil, fun fd _ => ?_, fun fd hfd => ?_,
      Nat.zero_le _⟩⟩, hanfds⟩
  · exact (iff_of_eq (congrArg (a ∈ ·) (hhead fd))).trans (h.listed fd a)
  · exact (congrArg List.Nodup (hhead fd)).mpr (h.nodup fd)
  · change fd ∈ [] ↔ (f'.anfds fd).reify ≠ 0
    simp [hanfds]
  · change (f'.anfds fd).events = _
    rw [hanfds]
    refine (wanted_congr ?_ fun _ _ => ?_).symm
    · exact hhead fd
    · rfl
  · change (f'.anfds fd).events = 0
    rw [hanfds]
    refine wanted_nil (List.eq_nil_iff_forall_not_mem.mpr fun a ha => hfd ?_)
    obtain ⟨hactive, rfl⟩ := (h.listed fd a).mp ha
    exact h.inside a hactive

/-! ## `fd_rearm_all` -/

/-- The loop of `fd_rearm_all` has come to the descriptor `n`. -/
structure Rearmed (f f' : Fds) (n : Nat) : Prop where
  ok : f'.Ok
  fd : f'.fd = f.fd
  events : f'.events = f.events
  active : f'.active = f.active
  told : f'.told = f.told
  anfdmax : f'.anfdmax = f.anfdmax
  zero : ∀ i : Nat, i < n → (f'.anfds i).events = 0
  later : ∀ fd : Int, n ≤ fd → f'.anfds fd = f.anfds fd
  reify : ∀ fd : Int, fd < n → ((f'.anfds fd).reify ≠ 0 ↔ (f.anfds fd).events ≠ 0 ∨ (f.anfds fd).reify ≠ 0)

theorem Rearmed.step {n : Nat} (h : f.Rearmed f' n) (hn : n < f.anfdmax) : f.Rearmed (rearmFd f' n) (n + 1) := by
  have hlater := h.later n (Int.le_refl n)
  have hlt {fd : Int} (hfd : fd < (n + 1 : Nat)) (hne : fd ≠ n) : fd < n := by omega
  by_cases hzero : (f'.anfds n).events = 0
  · rw [rearmFd, if_neg (not_not_intro hzero)]
    refine { h with zero := fun i hi => ?_, later := fun fd hfd => h.later fd (by omega), reify := fun fd hfd => ?_ }
    · rcases Nat.lt_succ_iff_lt_or_eq.mp hi with hlt | rfl
      · exact h.zero i hlt
      · exact hzero
    · by_cases hne : fd = n
      · rw [hne, ← hlater, hzero]
        simp
      · exact h.reify fd (hlt hfd hne)
  · let f1 := { f' with anfds := Function.update f'.anfds n { f'.anfds n with events := 0 } }
    have heq : rearmFd f' n = fdChange f1 n (EV_IOFDSET.setWidth 8 ||| EV_ANFD_REIFY) := if_pos hzero
    have hother (fd : Int) (hfd : fd ≠ n) : f1.anfds fd = f'.anfds fd := Function.update_of_ne hfd _ _
    have hhead (fd : Int) : (f1.anfds fd).head = (f'.anfds fd).head := by
      by_cases hfd : fd = n
      · subst hfd
        simp [f1]
      · rw [hother fd hfd]
    have hwatched : f1.Watched := by
      refine ⟨fun fd a => ?_, h.ok.active, fun fd => ?_, h.ok.inside, h.ok.plain⟩
      · rw [hhead]
        exact h.ok.listed fd a
      · rw [hhead]
        exact h.ok.nodup fd
    have hreified : (fdChange f1 n (EV_IOFDSET.setWidth 8 ||| EV_ANFD_REIFY)).Reified := by
      refine h.ok.toReified.change (by decide) ⟨Int.natCast_nonneg n, ?_⟩ le_rfl rfl rfl ?_ fun fd hfd => ?_
      · change (n : Int) < (f'.anfdmax : Nat)
        rw [h.anfdmax]
        exact Int.ofNat_lt.mpr hn
      · simp [f1]
      · exact ⟨hother fd hfd, wanted_congr (hhead fd) fun _ _ => rfl⟩
    have hold {fd : Int} (hfd : fd ≠ n) :
        (fdChange f1 n (EV_IOFDSET.setWidth 8 ||| EV_ANFD_REIFY)).anfds fd = f'.anfds fd := by
      rw [fdChange_eq]
      exact (Function.update_of_ne hfd _ _).trans (hother fd hfd)
    rw [heq]
    refine ⟨⟨hwatched.of_fdChange, hreified⟩, ?_, ?_, ?_, ?_, ?_, fun i hi => ?_, fun fd hfd => ?_,
      fun fd hfd => ?_⟩
    · rw [fdChange_eq]
      exact h.fd
    · rw [fdChange_eq]
      exact h.events
    · rw [fdChange_eq]
      exact h.active
    · rw [fdChange_eq]
      exact h.told
    · rw [fdChange_eq]
      exact h.anfdmax
    · by_cases hin : (i : Int) = n
      · rw [fdChange_eq]
        simp [hin, f1]
      · rw [hold hin]
        exact h.zero i (by omega)
    · rw [hold (by omega)]
      exact h.later fd (by omega)
    · rw [reify_fdChange (by decide)]
      by_cases hne : fd = n
      · rw [hne, ← hlater]
        exact iff_of_true (Or.inl rfl) (Or.inl hzero)
      · rw [hother fd hne, h.reify fd (hlt hfd hne)]
        exact or_iff_right hne

/-- **After `fd_rearm_all`** nothing is taken for known. -/
theorem Ok.fdRearmAll (h : f.Ok) :
    f.Rearmed (fdRearmAll f) f.anfdmax ∧
      ∀ fd, ((Ev.fdRearmAll f).anfds fd).events = 0 ∧
        (((Ev.fdRearmAll f).anfds fd).reify ≠ 0 ↔ (f.anfds fd).events ≠ 0 ∨ (f.anfds fd).reify ≠ 0) := by
  have hloop (n : Nat) (hn : n ≤ f.anfdmax) :
      f.Rearmed ((List.range n).foldl (fun f (i : Nat) => rearmFd f (i : Int)) f) n := by
    induction n with
    | zero =>
      refine ⟨h, rfl, rfl, rfl, rfl, rfl, fun i hi => absurd hi (Nat.not_lt_zero i), fun _ _ => rfl,
        fun fd hfd => ?_⟩
      rw [h.empty fd (by omega)]
      simp
    | succ n ih =>
      rw [List.range_succ, List.foldl_append]
      exact (ih (Nat.le_of_succ_le hn)).step hn
  have hall : f.Rearmed (Ev.fdRearmAll f) f.anfdmax := hloop _ le_rfl
  refine ⟨hall, fun fd => ?_⟩
  have hempty := h.empty fd
  by_cases hlt : fd < f.anfdmax
  · refine ⟨?_, hall.reify fd hlt⟩
    by_cases hpos : 0 ≤ fd
    · have hzero := hall.zero fd.toNat (by omega)
      rwa [Int.toNat_of_nonneg hpos] at hzero
    · refine hall.ok.empty fd fun hin => hpos hin.1
  · have hzero := hempty fun hin => hlt hin.2
    rw [hall.later fd (by omega), hzero]
    simp

end Fds

end CodeSLoop.Ev
