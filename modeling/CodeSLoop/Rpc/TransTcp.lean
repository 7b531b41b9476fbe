import CodeSLoop.Comm.BfdReads
import CodeSLoop.Common.Pbuf

/-!
# The tcp transport (`rpc/srv_trans_tcp.cc`, `rpc/cli_trans_tcp.cc`)

A connection carries a stream of bytes, and neither side of the transport says or looks where a
message ends. The server takes for a request what is in the buffer when `on_data_arrival` is
called; the client takes for a reply what one call of `read` gives, 1024 bytes at most.

`transport_iff`: the requests are despatched as they were sent, with a reply each, exactly when
each of them is an arrival of its own; and the replies are handed over complete exactly when each
of them is what one `read` has, and has no more than 1024 bytes.
-/

namespace CodeSLoop

open Memory

namespace Rpc

/-- The classes of the exceptions that may come out of `despatch`. -/
inductive Thrown
  | rpc | common | other
deriving DecidableEq

/-- What a call of `despatch` leaves: the state of the server, and `*archiver.get_pbuf()`. -/
structure Despatched (σ : Type) where
  app : σ
  thrown : Option Thrown
  pbuf : Pbuf

/-- The generated function, called with an archive that holds the request. -/
abbrev Despatch (σ : Type) := σ → Pbuf → Despatched σ

/-- `pb.append( data, bytes )`. -/
def toPbuf (bs : List UInt8) : Pbuf := (Pbuf.init.append bs).1

@[simp] theorem bytes_toPbuf (bs : List UInt8) : (toPbuf bs).bytes = bs := by simp [toPbuf]

variable {σ : Type}

namespace SrvTransTcp

/-- What `on_data_arrival` leaves: the exception that leaves it, what was despatched, and what
    was sent. -/
structure Arrival (σ : Type) where
  bfd : Bfd
  app : σ
  thrown : Option Thrown
  request : Option (List UInt8)
  sent : List UInt8

/-- The loop that sends back the results; `errs` are what `::send` returns for the pages. -/
def sendPages (b : Bfd) (errs : Nat → Int) : List Page8 → Bfd × List UInt8
  | [] => (b, [])
  | p :: ps =>
    let (b, out) := b.send p (errs 0)
    let r := sendPages b (fun n => errs (n + 1)) ps
    (r.1, out ++ r.2)

/-- `on_data_arrival`. -/
def onDataArrival (despatch : Despatch σ) (app : σ) (b : Bfd) (errs : Nat → Int) :
    Option (Arrival σ) :=
  if 0 < b.size then
    match b.readBuf b.size with
    | none => none
    | some (b, res) =>
      let pb := toPbuf res
      let d := despatch app pb
      match d.thrown with
      | none | some .rpc =>
        let r := sendPages b errs d.pbuf.pages
        some ⟨r.1, d.app, none, some pb.bytes, r.2⟩
      | some e => some ⟨b, d.app, some e, some pb.bytes, []⟩
  else some ⟨b, app, none, none, []⟩

/-- A connection, with what has happened on it so far: the arrivals (what was in the buffer, and
    what `::send` returned after that), what was despatched, and what was sent each time. -/
structure Conn (σ : Type) where
  bfd : Bfd
  app : σ
  gone : Bool
  arrivals : List (List UInt8 × (Nat → Int))
  despatched : List (List UInt8)
  sent : List (List UInt8)

/-- A connection when it is accepted. -/
def Conn.init (b : Bfd) (app : σ) : Conn σ := ⟨b, app, false, [], [], []⟩

/-- What a turn of the listener meets. -/
structure Round where
  turns : List Bfd.Turn
  errs : Nat → Int

/-- One turn of the listener: `recv_some` in `new_data_cb`, then `process_data_cb`. A connection
    that is removed is gone, and so is one whose worker has ended with an exception. -/
def round (despatch : Despatch σ) (c : Conn σ) (r : Round) : Option (Conn σ) :=
  if c.gone then some c
  else
    match c.bfd.internalRead r.turns with
    | none => none
    | some (b, _) =>
      if b.state ≠ Bfd.ok_ then some { c with bfd := b, gone := true }
      else
        match onDataArrival despatch c.app b r.errs with
        | none => none
        | some a => some
          { bfd := a.bfd
            app := a.app
            gone := a.thrown.isSome || a.bfd.state != Bfd.ok_
            arrivals := c.arrivals ++ a.request.toList.map fun q => (q, r.errs)
            despatched := c.despatched ++ a.request.toList
            sent := c.sent ++ a.request.toList.map fun _ => a.sent }

def serve (despatch : Despatch σ) (c : Conn σ) : List Round → Option (Conn σ)
  | [] => some c
  | r :: rs => (round despatch c r).bind fun c => serve despatch c rs

/-! ## What it should do -/

/-- Requests that the server answers, one after the other. -/
def Requests (despatch : Despatch σ) : σ → List (List UInt8) → Prop
  | _, [] => True
  | app, q :: qs =>
    let d := despatch app (toPbuf q)
    (q ≠ [] ∧ d.thrown = none ∧ d.pbuf.bytes ≠ []) ∧ Requests despatch d.app qs

/-- The replies to them. -/
def replies (despatch : Despatch σ) : σ → List (List UInt8) → List (List UInt8)
  | _, [] => []
  | app, q :: qs =>
    let d := despatch app (toPbuf q)
    d.pbuf.bytes :: replies despatch d.app qs

/-- Every `::send` takes all of its page. -/
def Sends (errs : Nat → Int) : List Page8 → Prop
  | [] => True
  | p :: ps => p.length ≤ errs 0 ∧ Sends (fun n => errs (n + 1)) ps

/-- Every arrival is a request, and every reply is sent. -/
def OneByOne (despatch : Despatch σ) :
    σ → List (List UInt8) → List (List UInt8 × (Nat → Int)) → Prop
  | _, [], [] => True
  | app, q :: qs, a :: as =>
    let d := despatch app (toPbuf q)
    a.1 = q ∧ Sends a.2 d.pbuf.pages ∧ OneByOne despatch d.app qs as
  | _, _, _ => False

/-! ## The loop over the pages -/

/-- What goes out of the pages, as long as the descriptor is good. -/
def taken (errs : Nat → Int) : List Page8 → List UInt8
  | [] => []
  | p :: ps => if errs 0 ≤ 0 then [] else p.take (errs 0).toNat ++ taken (fun n => errs (n + 1)) ps

theorem sendPages_closed {ps : List Page8} : ∀ {b : Bfd} {errs : Nat → Int}, b.fd ≤ 0 →
    sendPages b errs ps = (b, []) := by
  induction ps with
  | nil => intros; rfl
  | cons p ps ih =>
    intro b errs hb
    have hsend : b.send p (errs 0) = (b, []) := if_pos (.inr hb)
    simp only [sendPages, hsend, ih hb, List.append_nil]

theorem sendPages_buf {ps : List Page8} : ∀ {b : Bfd} {errs : Nat → Int},
    (sendPages b errs ps).1.buf = b.buf := by
  induction ps with
  | nil => intros; rfl
  | cons p ps ih =>
    intro b errs
    have hsend : (b.send p (errs 0)).1.buf = b.buf := by
      unfold Bfd.send
      repeat' split
      all_goals rfl
    simp only [sendPages, ih, hsend]

theorem sendPages_out {ps : List Page8} (hne : ∀ p ∈ ps, p ≠ []) : ∀ {b : Bfd} {errs : Nat → Int},
    0 < b.fd → (sendPages b errs ps).2 = taken errs ps := by
  induction ps with
  | nil => intros; rfl
  | cons p ps ih =>
    intro b errs hb
    have hp := hne p (List.mem_cons_self ..)
    have htail := fun {b : Bfd} {errs : Nat → Int} =>
      @ih (fun q hq => hne q (List.mem_cons_of_mem p hq)) b errs
    have hopen : ¬ (p = [] ∨ b.fd ≤ 0) := by
      rintro (h | h)
      · exact hp h
      · omega
    by_cases hneg : errs 0 < 0
    · have hsend : b.send p (errs 0) = (⟨Bfd.fdError_, b.buf⟩, []) := by
        rw [Bfd.send, if_neg hopen, if_pos hneg]
      have hclosed := fun errs => @sendPages_closed ps ⟨Bfd.fdError_, b.buf⟩ errs
        (show Bfd.fdError_ ≤ 0 by decide)
      simp [sendPages, taken, hsend, hclosed, Int.le_of_lt hneg]
    · by_cases hz : errs 0 = 0
      · have hsend : b.send p (errs 0) = (⟨Bfd.closed_, b.buf⟩, []) := by
          rw [Bfd.send, if_neg hopen, if_neg hneg, if_pos hz]
        have hclosed := fun errs => @sendPages_closed ps ⟨Bfd.closed_, b.buf⟩ errs
          (show Bfd.closed_ ≤ 0 by decide)
        simp only [sendPages, taken, hsend, hclosed, List.append_nil]
        rw [if_pos (Int.le_of_eq hz)]
      · have hsend : b.send p (errs 0) = (b, p.take (errs 0).toNat) := by
          rw [Bfd.send, if_neg hopen, if_neg hneg, if_neg hz]
        simp only [sendPages, taken, hsend, htail hb]
        rw [if_neg (by omega)]

theorem length_taken_le {ps : List Page8} : ∀ {errs : Nat → Int},
    (taken errs ps).length ≤ ps.flatten.length := by
  induction ps with
  | nil => intros; exact Nat.le_refl _
  | cons p ps ih =>
    intro errs
    unfold taken
    split
    · exact Nat.zero_le _
    · have := @ih fun n => errs (n + 1)
      simp only [List.length_append, List.length_take, List.flatten_cons]
      omega

/-- All of the pages go out exactly when each `::send` takes its page. -/
theorem taken_eq_iff {ps : List Page8} (hne : ∀ p ∈ ps, p ≠ []) : ∀ {errs : Nat → Int},
    taken errs ps = ps.flatten ↔ Sends errs ps := by
  induction ps with
  | nil => intro errs; exact ⟨fun _ => trivial, fun _ => rfl⟩
  | cons p ps ih =>
    intro errs
    have hp : 0 < p.length := List.length_pos_iff.mpr (hne p (List.mem_cons_self ..))
    have htail := @ih (fun q hq => hne q (List.mem_cons_of_mem p hq)) fun n => errs (n + 1)
    have hle := @length_taken_le ps fun n => errs (n + 1)
    constructor
    · intro h
      have hlen := congrArg List.length h
      unfold taken at h hlen
      by_cases h0 : errs 0 ≤ 0
      · simp only [if_pos h0, List.length_nil, List.flatten_cons, List.length_append] at hlen
        omega
      · simp only [if_neg h0, List.length_append, List.length_take, List.flatten_cons] at hlen
        have hall : p.length ≤ (errs 0).toNat := by omega
        rw [if_neg h0, List.take_of_length_le hall, List.flatten_cons] at h
        exact ⟨by omega, htail.mp (List.append_cancel_left h)⟩
    · intro h
      obtain ⟨hall, hrest⟩ := h
      unfold taken
      rw [if_neg (by omega), List.take_of_length_le (by omega), htail.mpr hrest, List.flatten_cons]

theorem sendPages_fd {ps : List Page8} : ∀ {b : Bfd} {errs : Nat → Int},
    (sendPages b errs ps).1.fd = b.fd ∨ (sendPages b errs ps).1.fd < 0 := by
  induction ps with
  | nil => intros; exact .inl rfl
  | cons p ps ih =>
    intro b errs
    have hsend : (b.send p (errs 0)).1.fd = b.fd ∨ (b.send p (errs 0)).1.fd < 0 := by
      unfold Bfd.send
      split
      · exact .inl rfl
      · split
        · exact .inr (show Bfd.fdError_ < 0 by decide)
        · split
          · exact .inr (show Bfd.closed_ < 0 by decide)
          · exact .inl rfl
    simp only [sendPages]
    rcases @ih (b.send p (errs 0)).1 fun n => errs (n + 1) with he | hneg
    · rw [he]
      exact hsend
    · exact .inr hneg

/-! ## Runs of the server -/

section Runs

variable {despatch : Despatch σ} {c c' : Conn σ} {app : σ} {b : Bfd} {errs : Nat → Int}

/-- The exceptions that `on_data_arrival` catches. -/
def Caught (t : Option Thrown) : Prop := t = none ∨ t = some .rpc

instance (t : Option Thrown) : Decidable (Caught t) := by unfold Caught; infer_instance

/-- What is sent for the arrivals, when the server starts from `app`. -/
def transcript (despatch : Despatch σ) : σ → List (List UInt8 × (Nat → Int)) → List (List UInt8)
  | _, [] => []
  | app, a :: as =>
    let d := despatch app (toPbuf a.1)
    (if Caught d.thrown then taken a.2 d.pbuf.pages else []) :: transcript despatch d.app as

theorem onDataArrival_nil (h : Bfd.Tidy b.buf) (hnil : b.buf.unread = []) :
    onDataArrival despatch app b errs = some ⟨b, app, none, none, []⟩ := by
  have hz : b.size = 0 := (Bfd.unread_eq_nil h).mp hnil
  rw [onDataArrival, if_neg (by rw [hz]; decide)]

/-- **`on_data_arrival`** despatches all that is in the buffer, as one request. -/
theorem onDataArrival_eq (despatch : Despatch σ) (app : σ) (errs : Nat → Int)
    (h : Bfd.Tidy b.buf) (hfd : 0 < b.fd) (hne : b.buf.unread ≠ []) :
    ∃ b₁ : Bfd, b₁.fd = b.fd ∧ Bfd.Tidy b₁.buf ∧ b₁.buf.unread = [] ∧
      onDataArrival despatch app b errs =
        some (let d := despatch app (toPbuf b.buf.unread)
          if Caught d.thrown then
            ⟨(sendPages b₁ errs d.pbuf.pages).1, d.app, none, some b.buf.unread,
              taken errs d.pbuf.pages⟩
          else ⟨b₁, d.app, d.thrown, some b.buf.unread, []⟩) := by
  have hpos : 0 < b.size := by
    by_contra hz
    exact hne ((Bfd.unread_eq_nil h).mpr (UInt64.le_zero_iff.mp (UInt64.not_lt.mp hz)))
  obtain ⟨b₁, hb, hfd₁, ht, hun⟩ := Bfd.readBuf_spec h b.size
  have hlen : b.buf.unread.length ≤ b.size.toNat := by
    rw [WorkBuffer.length_unread h.held, Bfd.size]
  rw [List.take_of_length_le hlen] at hb
  rw [List.drop_of_length_le hlen] at hun
  refine ⟨b₁, hfd₁, ht, hun, ?_⟩
  rw [onDataArrival, if_pos hpos, hb]
  dsimp only
  rw [bytes_toPbuf]
  generalize despatch app (toPbuf b.buf.unread) = d
  have hout := @sendPages_out _ d.pbuf.pages_ne_nil b₁ errs (by rw [hfd₁]; exact hfd)
  obtain ⟨app', thrown, pbuf⟩ := d
  cases thrown with
  | none => simp [Caught, hout]
  | some e => cases e <;> simp [Caught, hout]

theorem onDataArrival_spec (h : Bfd.Tidy b.buf) (hfd : 0 < b.fd)
    {a : Arrival σ} (ha : onDataArrival despatch app b errs = some a) :
    Bfd.Tidy a.bfd.buf ∧ a.bfd.buf.unread = [] ∧ (a.bfd.fd = b.fd ∨ a.bfd.fd < 0) ∧
      ((b.buf.unread = [] ∧ a.request = none ∧ a.app = app) ∨
        a.request = some b.buf.unread ∧ [a.sent] = transcript despatch app [(b.buf.unread, errs)] ∧
          a.app = (despatch app (toPbuf b.buf.unread)).app) := by
  by_cases hnil : b.buf.unread = []
  · rw [onDataArrival_nil h hnil] at ha
    cases ha
    exact ⟨h, hnil, .inl rfl, .inl ⟨hnil, rfl, rfl⟩⟩
  · obtain ⟨b₁, hfd₁, ht, hun, heq⟩ := onDataArrival_eq despatch app errs h hfd hnil
    rw [heq] at ha
    dsimp only at ha
    by_cases hcaught : Caught (despatch app (toPbuf b.buf.unread)).thrown
    · rw [if_pos hcaught] at ha
      cases ha
      rw [← hfd₁]
      refine ⟨by rw [sendPages_buf]; exact ht, by rw [sendPages_buf]; exact hun, sendPages_fd, ?_⟩
      exact .inr ⟨rfl, by rw [transcript, if_pos hcaught, transcript], rfl⟩
    · rw [if_neg hcaught] at ha
      cases ha
      exact ⟨ht, hun, .inl hfd₁, .inr ⟨rfl, by rw [transcript, if_neg hcaught, transcript], rfl⟩⟩

/-- A connection that is there is open, and nothing is left in its buffer. -/
def Idle (c : Conn σ) : Prop :=
  c.gone = false → Bfd.Tidy c.bfd.buf ∧ c.bfd.buf.unread = [] ∧ 0 < c.bfd.fd

/-- One turn of the listener: at most one arrival. -/
theorem round_spec (h : Idle c) {r : Round} (hr : round despatch c r = some c') :
    Idle c' ∧ ∃ as, c'.arrivals = c.arrivals ++ as ∧
      c'.despatched = c.despatched ++ as.map Prod.fst ∧
      c'.sent = c.sent ++ transcript despatch c.app as ∧
      ∀ as', transcript despatch c.app (as ++ as') =
        transcript despatch c.app as ++ transcript despatch c'.app as' := by
  unfold round at hr
  cases hgone : c.gone with
  | true =>
    rw [hgone, if_pos rfl] at hr
    cases hr
    exact ⟨h, [], by simp [transcript]⟩
  | false =>
    obtain ⟨ht, hun, hfd⟩ := h hgone
    rw [hgone, if_neg (by decide)] at hr
    cases hread : c.bfd.internalRead r.turns with
    | none =>
      rw [hread] at hr
      cases hr
    | some x =>
      obtain ⟨b, got⟩ := x
      -- what has come in is all there is in the buffer, as it was empty before
      obtain ⟨hw, -⟩ := Bfd.internalRead_spec (ht.whole hun) hread
      have hne : b.fd ≠ 0 := by
        rcases Bfd.internalRead_fd hread with he | hneg <;> omega
      rw [hread] at hr
      dsimp only at hr
      by_cases hok : b.state = Bfd.ok_
      · rw [if_neg (not_not_intro hok)] at hr
        -- open: what is in the buffer arrives
        have hopen := (Bfd.state_eq_ok hne).mp hok
        cases ha : onDataArrival despatch c.app b r.errs with
        | none =>
          rw [ha] at hr
          cases hr
        | some a =>
          rw [ha] at hr
          cases hr
          obtain ⟨ht', hun', hfd', hcase⟩ := onDataArrival_spec hw.tidy hopen ha
          have hne' : a.bfd.fd ≠ 0 := by rcases hfd' with he | hneg <;> omega
          refine ⟨fun hg => ⟨ht', hun', ?_⟩, ?_⟩
          · simp only [Bool.or_eq_false_iff, bne_eq_false_iff_eq] at hg
            exact (Bfd.state_eq_ok hne').mp hg.2
          · rcases hcase with ⟨-, hreq, happ⟩ | ⟨hreq, hsent, happ⟩
            · exact ⟨[], by simp [hreq, transcript, happ]⟩
            · refine ⟨[(b.buf.unread, r.errs)], ?_⟩
              refine ⟨by simp [hreq], by simp [hreq], by simp [hreq, hsent], fun as' => ?_⟩
              dsimp only
              rw [happ, List.singleton_append, transcript, transcript]
              rfl
      · rw [if_pos hok] at hr
        cases hr
        refine ⟨?_, [], by simp [transcript]⟩
        intro hg
        cases hg

/-- A run of the listener. -/
theorem serve_spec {rs : List Round} : ∀ {c : Conn σ}, Idle c → serve despatch c rs = some c' →
    ∃ as, c'.arrivals = c.arrivals ++ as ∧ c'.despatched = c.despatched ++ as.map Prod.fst ∧
      c'.sent = c.sent ++ transcript despatch c.app as := by
  induction rs with
  | nil =>
    intro c _ h
    cases h
    exact ⟨[], by simp [transcript]⟩
  | cons r rs ih =>
    intro c hc h
    simp only [serve, Option.bind_eq_some_iff] at h
    obtain ⟨c₁, hr, hrest⟩ := h
    obtain ⟨hc₁, as, harr, hdes, hsent, happ⟩ := round_spec hc hr
    obtain ⟨as', harr', hdes', hsent'⟩ := ih hc₁ hrest
    refine ⟨as ++ as', ?_, ?_, ?_⟩
    · rw [harr', harr, List.append_assoc]
    · rw [hdes', hdes, List.map_append, List.append_assoc]
    · rw [hsent', hsent, happ, List.append_assoc]

/-- A turn of the listener comes to an end, and does not get another descriptor. -/
theorem round_returns (h : Idle c) (hmax : c.bfd.fd < Bfd.fdSetsize) {r : Round}
    (hend : Bfd.Ends r.turns) :
    ∃ c', round despatch c r = some c' ∧ c'.bfd.fd < Bfd.fdSetsize := by
  have hclosed : (0 : Int) < Bfd.fdSetsize := by decide
  unfold round
  cases hgone : c.gone with
  | true => exact ⟨c, if_pos rfl, hmax⟩
  | false =>
    obtain ⟨ht, hun, hfd⟩ := h hgone
    have hw := ht.whole hun
    obtain ⟨⟨b, got⟩, hread⟩ := Option.isSome_iff_exists.mp
      (Bfd.internalRead_ends hw.kept ⟨.inl hmax, .inr (.inl hw.start)⟩ hend)
    obtain ⟨hw', -⟩ := Bfd.internalRead_spec hw hread
    have hfd' := Bfd.internalRead_fd hread
    have hmax' : b.fd < Bfd.fdSetsize := by omega
    rw [if_neg (by decide), hread]
    dsimp only
    by_cases hok : b.state = Bfd.ok_
    · rw [if_neg (not_not_intro hok)]
      have hopen := (Bfd.state_eq_ok (by omega)).mp hok
      obtain ⟨a, ha, hfda⟩ : ∃ a, onDataArrival despatch c.app b r.errs = some a ∧
          (a.bfd.fd = b.fd ∨ a.bfd.fd < 0) := by
        by_cases hnil : b.buf.unread = []
        · exact ⟨_, onDataArrival_nil hw'.tidy hnil, .inl rfl⟩
        · obtain ⟨b₁, -, -, -, heq⟩ := onDataArrival_eq despatch c.app r.errs hw'.tidy hopen hnil
          exact ⟨_, heq, (onDataArrival_spec hw'.tidy hopen heq).2.2.1⟩
      rw [ha]
      refine ⟨_, rfl, ?_⟩
      dsimp only
      omega
    · rw [if_pos hok]
      exact ⟨_, rfl, hmax'⟩

theorem serve_returns {rs : List Round} : ∀ {c : Conn σ}, Idle c → c.bfd.fd < Bfd.fdSetsize →
    (∀ r ∈ rs, Bfd.Ends r.turns) → (serve despatch c rs).isSome := by
  induction rs with
  | nil =>
    intro c _ _ _
    rfl
  | cons r rs ih =>
    intro c hc hmax hends
    obtain ⟨c₁, hr, hmax₁⟩ := @round_returns σ despatch c hc hmax r (hends r (List.mem_cons_self ..))
    rw [serve, hr, Option.bind_some]
    exact ih (round_spec hc hr).1 hmax₁ fun r' hr' => hends r' (List.mem_cons_of_mem r hr')

/-- Requests and replies agree with what happened exactly when they came one by one. -/
theorem transcript_eq_iff {qs : List (List UInt8)} :
    ∀ {app : σ} {as : List (List UInt8 × (Nat → Int))}, Requests despatch app qs →
      (as.map Prod.fst = qs ∧ transcript despatch app as = replies despatch app qs ↔
        OneByOne despatch app qs as) := by
  induction qs with
  | nil =>
    intro app as _
    cases as with
    | nil => simp [transcript, replies, OneByOne]
    | cons a as => simp [OneByOne]
  | cons q qs ih =>
    intro app as hq
    obtain ⟨⟨-, hth, -⟩, hrest⟩ := hq
    cases as with
    | nil => simp [OneByOne]
    | cons a as =>
      have hsend := @taken_eq_iff _ (despatch app (toPbuf q)).pbuf.pages_ne_nil a.2
      have htail := @ih (despatch app (toPbuf q)).app as hrest
      simp only [List.map_cons, List.cons.injEq, transcript, replies, OneByOne]
      constructor
      · rintro ⟨⟨rfl, hmap⟩, hhead, hsent⟩
        rw [if_pos (.inl hth)] at hhead
        exact ⟨rfl, hsend.mp hhead, htail.mp ⟨hmap, hsent⟩⟩
      · rintro ⟨rfl, hhead, hone⟩
        obtain ⟨hmap, hsent⟩ := htail.mpr hone
        rw [if_pos (.inl hth)]
        exact ⟨⟨rfl, hmap⟩, hsend.mpr hhead, hsent⟩

end Runs

end SrvTransTcp

namespace CliTransTcp

/-- `wait`, with a handle that is known, up to the call of `decode_response`: what that gets. -/
def wait (b : Bfd) (ts : List Bfd.Turn) : Option (Bfd × List UInt8) :=
  (b.recv 1024 ts).map fun r => (r.1, (toPbuf r.2).bytes)

/-- Calls of `wait`: what each of them got from the descriptor, and what it handed over. -/
def waits (b : Bfd) : List (List Bfd.Turn) → Option (List (List UInt8) × List (List UInt8))
  | [] => some ([], [])
  | ts :: tss =>
    match wait b ts with
    | none => none
    | some (b', bs) => (waits b' tss).map fun r => (b.fresh ts :: r.1, bs :: r.2)

/-- Each reply is all there is when its `wait` reads, what is left in the buffer (`left`) and what
    is got from the descriptor, or the first 1024 bytes of that. -/
def OneByOne : List UInt8 → List (List UInt8) → List (List UInt8) → Prop
  | _, [], [] => True
  | left, r :: rs, got :: gots =>
    (r.length ≤ 1024 ∧ (left ++ got = r ∨ r.length = 1024 ∧ r <+: left ++ got)) ∧
      OneByOne ((left ++ got).drop 1024) rs gots
  | _, _, _ => False

theorem take_eq_iff {n : Nat} {l r : List UInt8} :
    l.take n = r ↔ r.length ≤ n ∧ (l = r ∨ r.length = n ∧ r <+: l) := by
  constructor
  · rintro rfl
    refine ⟨List.length_take_le _ _, ?_⟩
    by_cases hle : l.length ≤ n
    · exact .inl (List.take_of_length_le hle).symm
    · exact .inr ⟨by rw [List.length_take]; omega, List.take_prefix ..⟩
  · rintro ⟨hle, rfl | ⟨hlen, hpre⟩⟩
    · exact List.take_of_length_le hle
    · rw [← hlen]
      exact (List.prefix_iff_eq_take.mp hpre).symm

theorem waits_eq_iff {tss : List (List Bfd.Turn)} :
    ∀ {b : Bfd} {gots handed rs : List (List UInt8)}, Bfd.Tidy b.buf →
      waits b tss = some (gots, handed) → (handed = rs ↔ OneByOne b.buf.unread rs gots) := by
  induction tss with
  | nil =>
    intro b gots handed rs _ h
    cases h
    cases rs with
    | nil => simp [OneByOne]
    | cons r rs => simp [OneByOne]
  | cons ts tss ih =>
    intro b gots handed rs hb h
    unfold waits at h
    cases hw : wait b ts with
    | none =>
      rw [hw] at h
      cases h
    | some x =>
      obtain ⟨b', bs⟩ := x
      rw [hw] at h
      simp only [Option.map_eq_some_iff] at h
      obtain ⟨⟨gots', handed'⟩, hrest, he⟩ := h
      cases he
      simp only [wait, Option.map_eq_some_iff, bytes_toPbuf] at hw
      obtain ⟨⟨b₁, bs₁⟩, hrecv, he⟩ := hw
      cases he
      obtain ⟨ht, hbs, hun⟩ := Bfd.recv_spec hb hrecv
      have hn : (1024 : UInt64).toNat = 1024 := rfl
      rw [hn] at hbs hun
      cases rs with
      | nil => simp [OneByOne]
      | cons r rs =>
        rw [List.cons.injEq, OneByOne, ← take_eq_iff, ← hbs, ih ht hrest, hun]

theorem waits_returns {tss : List (List Bfd.Turn)} : ∀ {b : Bfd}, Bfd.Kept b.buf →
    b.fd < Bfd.fdSetsize → (∀ ts ∈ tss, Bfd.Ends ts) → (waits b tss).isSome := by
  induction tss with
  | nil =>
    intro b _ _ _
    rfl
  | cons ts tss ih =>
    intro b hb hmax hends
    have hret : (b.recv 1024 ts).isSome :=
      Bfd.recv_returns hb (.inr hmax) (hends ts (List.mem_cons_self ..))
    obtain ⟨⟨b', bs⟩, hr⟩ := Option.isSome_iff_exists.mp hret
    have hfd := Bfd.recv_fd hr
    have hclosed : (0 : Int) < Bfd.fdSetsize := by decide
    have hrest := ih (Bfd.recv_kept hb (.inr hmax) hr) (by omega)
      fun ts' hts => hends ts' (List.mem_cons_of_mem ts hts)
    rw [waits, wait, hr, Option.map_some]
    dsimp only
    rw [Option.isSome_map]
    exact hrest

end CliTransTcp

/-- **Messages on a connection**, whose descriptor `select` can be asked about. For requests that
    the server answers: they are despatched, in order and each with its bytes, and each reply is
    sent, exactly when each request is an arrival of its own and `::send` takes all of the replies.
    The client is handed the replies complete exactly when each of them is all that its `wait`
    finds, or the first 1024 bytes. And both sides come to an end with what they read. -/
theorem transport_iff (despatch : Despatch σ) (app : σ) (fd : Int)
    (hfd : 0 < fd ∧ fd < Bfd.fdSetsize) (area : Block) (harea : area.bytes.length = 512) :
    (∀ qs rounds c, SrvTransTcp.Requests despatch app qs →
      SrvTransTcp.serve despatch (.init (.init fd area harea) app) rounds = some c →
      (c.despatched = qs ∧ c.sent = SrvTransTcp.replies despatch app qs ↔
        SrvTransTcp.OneByOne despatch app qs c.arrivals)) ∧
    (∀ rs tss gots handed, CliTransTcp.waits (.init fd area harea) tss = some (gots, handed) →
      (handed = rs ↔ CliTransTcp.OneByOne [] rs gots)) ∧
    (∀ rounds, (∀ r ∈ rounds, Bfd.Ends r.turns) →
      (SrvTransTcp.serve despatch (.init (.init fd area harea) app) rounds).isSome) ∧
    ∀ tss, (∀ ts ∈ tss, Bfd.Ends ts) → (CliTransTcp.waits (.init fd area harea) tss).isSome := by
  have htidy := Bfd.tidy_init fd harea
  have hun := Bfd.unread_init fd harea
  have hidle : SrvTransTcp.Idle (.init (.init fd area harea) app : SrvTransTcp.Conn σ) :=
    fun _ => ⟨htidy, hun, hfd.1⟩
  refine ⟨fun qs rounds c hq hc => ?_, fun rs tss gots handed h => ?_,
    fun rounds => SrvTransTcp.serve_returns hidle hfd.2,
    fun tss => CliTransTcp.waits_returns (Bfd.kept_init fd harea) hfd.2⟩
  · obtain ⟨as, harr, hdes, hsent⟩ := SrvTransTcp.serve_spec hidle hc
    simp only [SrvTransTcp.Conn.init, List.nil_append] at harr hdes hsent
    rw [harr, hdes, hsent]
    exact SrvTransTcp.transcript_eq_iff hq
  · rw [CliTransTcp.waits_eq_iff htidy h, hun]

/-! ## Some connections -/

/-- A server that answers with what it was asked. -/
def echo : Despatch Unit := fun app pb => ⟨app, none, pb⟩

theorem sampleArea_fits : (4096 : UInt64).toNat + (List.replicate 512 (0 : UInt8)).length < 2 ^ 64 := by
  rw [List.length_replicate]
  decide

theorem sampleArea_ne : (4096 : UInt64) ≠ 0 := by decide

def sampleArea : Block := ⟨4096, List.replicate 512 0, sampleArea_ne, sampleArea_fits⟩

def sampleBfd : Bfd := .init 5 sampleArea (List.length_replicate ..)

theorem sampleHeap_ne : (8192 : UInt64) ≠ 0 := by decide

theorem sampleHeap_fits : (8192 : UInt64).toNat + 262144 < 2 ^ 64 := by decide

def sampleHeap : Malloc := .within 8192 262144 0 sampleHeap_ne sampleHeap_fits

theorem sampleHeap_ample (n : UInt64) (hn : n ≤ 262144) : (sampleHeap.answer n).isSome := by
  simp only [sampleHeap, Malloc.within]
  rw [dif_pos (show n.toNat ≤ 262144 from UInt64.le_iff_toNat_le.mp hn)]
  rfl

/-- A turn with plenty of memory. -/
def turn (o : Bfd.Offer) : Bfd.Turn := ⟨sampleHeap, sampleHeap_ample, o⟩

/-- A turn of the listener in which these bytes come, and everything that is sent goes out. -/
def comes (b : UInt8) (bs : List UInt8) : SrvTransTcp.Round :=
  ⟨[turn (.data b bs), turn .unready], fun _ => 2048⟩

/-- The connection after the turns. -/
def served (rounds : List SrvTransTcp.Round) : Option (SrvTransTcp.Conn Unit) :=
  SrvTransTcp.serve echo (.init sampleBfd ()) rounds

theorem transport_iff_echo :
    (∃ c, served [comes 1 [], comes 2 [3]] = some c ∧
      SrvTransTcp.OneByOne echo () [[1], [2, 3]] c.arrivals) ∧
    CliTransTcp.OneByOne [] [[7, 8]] [[7, 8]] := by
  have h := transport_iff echo () 5 ⟨by decide, by decide⟩ sampleArea (List.length_replicate ..)
  have hrun : (served [comes 1 [], comes 2 [3]]).map (fun c => (c.despatched, c.sent)) =
      some ([[1], [2, 3]], [[1], [2, 3]]) := by decide +kernel
  have hreq : SrvTransTcp.Requests echo () [[1], [2, 3]] :=
    ⟨⟨by decide, rfl, by decide⟩, ⟨by decide, rfl, by decide⟩, trivial⟩
  obtain ⟨c, hc, he⟩ := Option.map_eq_some_iff.mp hrun
  obtain ⟨hdes, hsent⟩ := Prod.mk.inj he
  refine ⟨⟨c, hc, (h.1 _ _ c hreq hc).mp ⟨hdes, hsent⟩⟩, ?_⟩
  exact (h.2.1 _ [[turn (.data 7 [8]), turn .unready]] [[7, 8]] [[7, 8]] (by decide +kernel)).mp rfl

/-- Two requests that come together are despatched as one, one that comes in two parts is
    despatched as two; and of a reply of 1025 bytes the last one is left for the next `wait`. -/
theorem transport_fails :
    ((served [comes 1 [2]]).map fun c => (c.arrivals.map Prod.fst, c.despatched)) =
      some ([[1, 2]], [[1, 2]]) ∧ [[1, 2]].flatten = [[1], [2]].flatten ∧
    ((served [comes 1 [], comes 2 []]).map fun c => (c.arrivals.map Prod.fst, c.despatched)) =
      some ([[1], [2]], [[1], [2]]) ∧ [[1], [2]].flatten = [[1, 2]].flatten ∧
    CliTransTcp.waits sampleBfd [[turn (.data 7 (.replicate 1024 7)),
        turn (.data 7 (.replicate 512 7)), turn .unready]] =
      some ([.replicate 1025 7], [.replicate 1024 7]) := by
  decide +kernel

end Rpc

end CodeSLoop
