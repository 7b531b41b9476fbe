import CodeSLoop.Comm.UdpPackets

/-!
# One run of a handler (`auth_handler::operator()()`, `data_handler::operator()()`)

A worker takes one message from the queue and calls the callbacks of the application with what
it finds in it. Both handlers catch the exceptions of `common` and of `comm`; what `crypt_pkt`
throws goes through them, and through the thread pool. What a run takes from the message is kept
as a list (`Touch`), with the subtractions of lengths that come before it.

`dataHandler_iff` and `authHandler_iff` say which messages a run gets over: it returns, and takes
nothing that was not received. In short, `get_salt` takes a header of eight bytes when only the
type is there; `init_data` subtracts header and footer from what may be less; with exceptions in
use everything that `decrypt` refuses ends the worker, a wrong tag among it; and `init_auth`
never comes to its subtractions, as it never gets a key (`EcdhKey.fromXdr_ne_some`), but writes a
zero behind `tmp` when the name of the key has 64 bytes.
-/

namespace CodeSLoop

namespace Udp

open Bytes Codec Calls Xdrbuf

/-- How a run ends: it returns, an exception leaves it, or it does what is undefined. -/
inductive Ended
  | returned | escaped (e : UdpExc) | fault
deriving DecidableEq, Repr

/-- The two `catch` clauses. -/
def caught : Fail UdpExc → Ended
  | .no | .thrown (.common _) | .thrown (.comm _) => .returned
  | .thrown (.sec e) => .escaped (.sec e)
  | .fault => .fault

/-- The end of the `try` block, in which `return` stands for a failure. -/
def ended : Outcome UdpExc PUnit → Ended
  | .ok _ => .returned
  | .error f => caught f

/-- A range of bytes that is taken from the message, and a length subtracted from another. -/
inductive Touch
  | taken (off len : UInt64)
  | subtracted (a b : UInt64)

/-- The range is one of received bytes; the difference is not below zero. -/
def Touch.Sound (m : Msg) : Touch → Prop
  | .taken off len => off.toNat + len.toNat ≤ m.size
  | .subtracted a b => b ≤ a

/-- A run of a handler on a message goes well. -/
def Clean (m : Msg) (r : List Touch × Ended) : Prop :=
  r.2 = .returned ∧ ∀ t ∈ r.1, t.Sound m

/-- `msg::copy_to` of a message that is not empty: behind its bytes, `other` keeps what it has. -/
def Msg.copyTo (m other : Msg) : Msg where
  data := m.bytes ++ other.data.drop m.size
  size := m.size
  length_data := by
    have := m.size_le
    rw [List.length_append, m.length_bytes, List.length_drop, other.length_data]
    omega
  size_le := m.size_le

/-- What the callbacks of a handler say; no callback is as good as one that agrees. -/
def allowed (r : Option Bool) : Outcome UdpExc PUnit :=
  match r with
  | some false => .error .no
  | _ => .ok ⟨⟩

/-- What `decompilePacket` takes. -/
def parts (m : Msg) (pos : Nat) : List Touch :=
  let ptrp := UInt64.ofNat pos
  let lenp := UInt64.ofNat m.size - UInt64.ofNat pos
  [.subtracted (UInt64.ofNat m.size) ptrp, .taken ptrp 8, .subtracted lenp 8,
    .taken (ptrp + (lenp - 8)) 8, .subtracted (lenp - 8) 8, .taken (ptrp + 8) (lenp - 8 - 8)]

/-! ## The data handler -/

variable {Addr : Type}

/-- The members of `data_handler`, callbacks as what they return: `lookup_session_cb` also the
    session key. -/
structure DataHandler (Addr : Type) where
  useExc : Bool
  socket : Int
  lookupSessionCb : Option (List UInt8 → Addr → Bool × Ustr)
  handleDataCb : Option (List UInt8 → List UInt8 → Addr → Ustr → Int → List UInt8 → Bool)
  updateSessionCb : Option (List UInt8 → List UInt8 → Addr → Ustr → Bool)

/-- What `get_salt` takes. -/
def getSaltTouches (useExc : Bool) (m : Msg) : List Touch :=
  if m.size < 4 then []
  else .taken 0 4 :: match readType useExc (m.data.take 4) .data with
    | .ok xbo => [.taken (UInt64.ofNat xbo.position) 8]
    | .error _ => []

/-- What `init_data` takes. -/
def initDataTouches (useExc : Bool) (sesskey : Ustr) (m : Msg) : List Touch :=
  if m.size < 4 ∨ sesskey.chars.length = 0 then []
  else .taken 0 4 :: match readType useExc (m.data.take 4) .data with
    | .ok xbo => parts m xbo.position
    | .error _ => []

namespace DataHandler

/-- The session key, empty when there is no callback to look it up. -/
def session (h : DataHandler Addr) (oldSalt : List UInt8) (sender : Addr) : Outcome UdpExc Ustr :=
  match h.lookupSessionCb with
  | none => .ok ⟨[], by decide⟩
  | some cb => if (cb oldSalt sender).1 then .ok (cb oldSalt sender).2 else .error .no

/-- The `try` block. -/
def process (h : DataHandler Addr) (env : CryptEnv) (ms : Msg) (sender : Addr) :
    Outcome UdpExc PUnit := do
  let oldSalt ← getSalt h.useExc ms
  let sesskey ← h.session oldSalt sender
  let r ← initData h.useExc env sesskey ms
  allowed (h.handleDataCb.map fun cb => cb oldSalt r.1 sender sesskey h.socket r.2)
  allowed (h.updateSessionCb.map fun cb => cb oldSalt r.1 sender sesskey)

/-- What it takes from the message. -/
def touches (h : DataHandler Addr) (ms : Msg) (sender : Addr) : List Touch :=
  getSaltTouches h.useExc ms ++
    match getSalt h.useExc ms >>= fun oldSalt => h.session oldSalt sender with
    | .ok sesskey => initDataTouches h.useExc sesskey ms
    | .error _ => []

/-- `operator()()`, on the message that `pop` gives, if there is one; `ms` is what the local
    variable of this name holds at first. -/
def run (h : DataHandler Addr) (env : CryptEnv) (ms : Msg) (popped : Option (Msg × Addr)) :
    List Touch × Ended :=
  match popped with
  | none => ([], .returned)
  | some (m, sender) =>
    if m.size = 0 then ([], .returned)
    else (h.touches (m.copyTo ms) sender, ended (h.process env (m.copyTo ms) sender))

end DataHandler

/-! ## The auth handler -/

/-- The members of `auth_handler`; `register_auth_cb` also returns the salt, which it may
    change. -/
structure AuthHandler (Addr : Type) where
  useExc : Bool
  privateKey : Bignum
  validKeyCb : Option (EcdhKey → Bool)
  validCredsCb : Option (EcdhKey → Addr → List UInt8 → List UInt8 → Bool)
  registerAuthCb : Option (Addr → List UInt8 → List UInt8 → List UInt8 → List UInt8 →
    List UInt8 → Bool × List UInt8)

/-- What `init_auth` takes. -/
def initAuthTouches (useExc : Bool) (shared : EcdhKey → Bignum → Option Ustr)
    (privateKey : Bignum) (m : Msg) : List Touch :=
  .taken 0 (UInt64.ofNat m.size) :: match readType useExc m.bytes .unicastAuth with
    | .ok xbo =>
      match common useExc (EcdhKey.fromXdr xbo) with
      | .ok (x, some peerPublicKey) =>
        match shared peerPublicKey privateKey with
        | some _ => parts m x.position
        | none => []
      | _ => []
    | .error _ => []

/-- What the other calls of a run meet: `gen_sha1hex_shared_key`, the salts of
    `csl_sec_gen_rand`, and what `crypt_pkt` meets while the answer is prepared. -/
structure AuthEnv where
  shared : EcdhKey → Bignum → Option Ustr
  pktSalt : List UInt8
  mySalt : List UInt8
  crypt : CryptEnv

namespace AuthHandler

/-- The `try` block. The answer is sent at its end, and it returns whether it was or not. -/
def process (h : AuthHandler Addr) (env : CryptEnv) (aenv : AuthEnv) (ms : Msg) (sender : Addr) :
    Outcome UdpExc PUnit := do
  let a ← initAuth h.useExc env aenv.shared h.privateKey ms
  allowed (h.validKeyCb.map fun cb => cb a.peerPublicKey)
  allowed (h.validCredsCb.map fun cb => cb a.peerPublicKey sender a.login a.pass)
  let r := h.registerAuthCb.map fun cb => cb sender a.login a.pass a.sesskey a.slt aenv.mySalt
  allowed (r.map Prod.fst)
  let mySalt := (r.map Prod.snd).getD aenv.mySalt
  -- a string that came in a message is far shorter
  if hfits : a.sesskey.length < 2 ^ 64 - 1 then
    let sesskey : Ustr := ⟨a.sesskey.dropLast, by rw [List.length_dropLast]; omega⟩
    let _ ← prepareHtua h.useExc aenv.crypt aenv.pktSalt mySalt sesskey ms
    .ok ⟨⟩
  else .error .fault

/-- `operator()()`. -/
def run (h : AuthHandler Addr) (env : CryptEnv) (aenv : AuthEnv) (ms : Msg)
    (popped : Option (Msg × Addr)) : List Touch × Ended :=
  match popped with
  | none => ([], .returned)
  | some (m, sender) =>
    if m.size = 0 then ([], .returned)
    else (initAuthTouches h.useExc aenv.shared h.privateKey (m.copyTo ms),
      ended (h.process env aenv (m.copyTo ms) sender))

end AuthHandler

/-! ## What a run gets over -/

variable {useExc : Bool} {env : CryptEnv} {m ms : Msg} {sesskey : Ustr}

@[simp] theorem Msg.bytes_copyTo : (m.copyTo ms).bytes = m.bytes :=
  List.take_left' m.length_bytes

@[simp] theorem Msg.size_copyTo : (m.copyTo ms).size = m.size := rfl

/-- What is sound for a message is so for its copy. -/
theorem clean_copyTo {r : List Touch × Ended} : Clean (m.copyTo ms) r ↔ Clean m r := Iff.rfl

/-- Refusals of the handlers' own are caught. -/
theorem ended_thr (e : CommExc) : ended (thr useExc (.comm e)) = .returned := by
  cases useExc with
  | true => rfl
  | false => rfl

theorem ended_thr_bind {α : Type} {x : Outcome UdpExc α} {e : CommExc}
    (h : x = thr useExc (.comm e)) (f : α → Outcome UdpExc PUnit) : ended (x >>= f) = .returned := by
  rw [h, ← @ended_thr useExc e]
  rfl

/-- Those of `crypt_pkt` are not, when they are thrown. -/
theorem ended_crypted {α β : Type} (e : SecExc) (g : α → Outcome UdpExc β)
    (f : β → Outcome UdpExc PUnit) :
    ended ((crypted useExc (thr useExc e) >>= g) >>= f) = .returned ↔ useExc = false := by
  cases useExc with
  | true => exact iff_of_false (fun h => by cases h) (fun h => by cases h)
  | false => exact iff_of_true rfl rfl

/-- The ranges of `decompilePacket` behind the type are received bytes when these are enough for
    header and footer. -/
theorem parts_sound_iff : (∀ t ∈ parts m 4, t.Sound m) ↔ 20 ≤ m.size := by
  have hmax : m.size ≤ 65536 := m.size_le
  have h4 : (UInt64.ofNat 4).toNat = 4 := rfl
  have h8 : (8 : UInt64).toNat = 8 := rfl
  have hsize : (UInt64.ofNat m.size).toNat = m.size := by
    rw [UInt64.toNat_ofNat']
    omega
  have hlenp := UInt64.toNat_sub (UInt64.ofNat m.size) (UInt64.ofNat 4)
  have hfoot := UInt64.toNat_sub (UInt64.ofNat m.size - UInt64.ofNat 4) 8
  have hdata := UInt64.toNat_sub (UInt64.ofNat m.size - UInt64.ofNat 4 - 8) 8
  have hoff := UInt64.toNat_add (UInt64.ofNat 4) (UInt64.ofNat m.size - UInt64.ofNat 4 - 8)
  have hoff' := UInt64.toNat_add (UInt64.ofNat 4) 8
  simp only [parts, List.forall_mem_cons, Touch.Sound, UInt64.le_iff_toNat_le]
  constructor
  · intro ⟨h₁, h₂, h₃, _, h₅, _⟩
    omega
  · intro h
    exact ⟨by omega, by omega, by omega, by omega, by omega, by omega, by simp⟩

/-- Header, text and footer of a message long enough for them. -/
theorem Msg.split_parts (h : 20 ≤ m.size) : m.bytes = m.bytes.take 4 ++ (m.bytes.drop 4).take 8 ++
    (m.bytes.drop 12).take (m.size - 20) ++ m.bytes.drop (m.size - 8) := by
  have hfoot : (m.bytes.drop 12).drop (m.size - 20) = m.bytes.drop (m.size - 8) := by
    rw [List.drop_drop]
    congr 1
    omega
  have htext : (m.bytes.drop 4).drop 8 = m.bytes.drop 12 := List.drop_drop
  rw [List.append_assoc, List.append_assoc, ← hfoot, List.take_append_drop, ← htext,
    List.take_append_drop, List.take_append_drop]

/-- What is behind the type is accepted by `decrypt`. -/
def Msg.Accepted (env : CryptEnv) (sesskey : Ustr) (m : Msg) : Prop :=
  CryptPkt.Accepts env sesskey.buf ((m.bytes.drop 4).take 8) ((m.bytes.drop 12).take (m.size - 20))
    (m.bytes.drop (m.size - 8))

/-- How `init_data` ends on a message long enough for header and footer. -/
theorem ended_initData (hstart : m.bytes.take 4 = (first .data).bytes) (h20 : 20 ≤ m.size)
    (hkey : sesskey.chars.length ≠ 0) (f : List UInt8 × List UInt8 → Outcome UdpExc PUnit) :
    ended (initData useExc env sesskey m >>= f) = .returned ↔
      (useExc = true → m.Accepted env sesskey) := by
  have hb := Msg.split_parts h20
  have hlen := m.length_bytes
  have h4 : (first .data).bytes.length = 4 := by
    rw [← Pbuf.size_eq_bytes]
    exact size_first .data
  have hhead : ((m.bytes.drop 4).take 8).length = 8 :=
    List.length_take_of_le (by rw [List.length_drop]; omega)
  have hfoot : (m.bytes.drop (m.size - 8)).length = 8 := by
    rw [List.length_drop]
    omega
  have hbuf : ¬ sesskey.buf.length = 0 := by simp [Ustr.buf]
  rw [hstart] at hb
  have hdec := @decompilePacket_eq useExc env sesskey.buf m _ _ _ _ hb hhead hfoot
  rw [h4] at hdec
  rw [List.append_assoc, List.append_assoc] at hb
  rw [initData_eq hb hkey, hdec]
  rcases @CryptPkt.decrypt_ends useExc env sesskey.buf ((m.bytes.drop 12).take (m.size - 20))
    ((m.bytes.drop 4).take 8) (m.bytes.drop (m.size - 8)) hhead hfoot hbuf with
    ⟨⟨e, he⟩, hacc⟩ | ⟨hret, hacc⟩
  · rw [he]
    refine (ended_crypted e _ f).trans ⟨fun h h' => ?_, fun h => ?_⟩
    · exact absurd (h.symm.trans h') (by decide)
    · exact Bool.eq_false_of_not_eq_true fun h' => hacc (h h')
  · refine iff_of_true ?_ fun _ => hacc
    rcases hret with hno | ⟨d, hd⟩
    · rw [hno]
      exact ended_thr_bind rfl f
    · obtain ⟨e, he⟩ := @readSalt_thr useExc (Xdrbuf.new (Pbuf.init.append d).1) (ok_new _) rfl
      rw [hd]
      exact ended_thr_bind (bind_error he _) f

theorem ne_first {t : PacketType} (h : m.size < 4) : m.bytes.take 4 ≠ (first t).bytes := by
  intro hstart
  have hlen := congrArg List.length hstart
  rw [← Pbuf.size_eq_bytes, size_first, List.length_take, m.length_bytes] at hlen
  omega

section Starts

variable {tail : List UInt8}

theorem four_le (hb : m.bytes = (first .data).bytes ++ tail) : 4 ≤ m.size := by
  have hlen := m.length_bytes
  rw [hb, List.length_append, ← Pbuf.size_eq_bytes, size_first] at hlen
  omega

theorem getSaltTouches_eq (hb : m.bytes = (first .data).bytes ++ tail) :
    getSaltTouches useExc m = [.taken 0 4, .taken 4 8] := by
  have h4 := four_le hb
  obtain ⟨x, hat, hx⟩ := readType_eq useExc .data []
  rw [getSaltTouches, if_neg (by omega), Msg.take_first hb, hx]
  dsimp only
  rw [position_first hat]
  rfl

theorem initDataTouches_eq (hb : m.bytes = (first .data).bytes ++ tail)
    (hkey : sesskey.chars.length ≠ 0) :
    initDataTouches useExc sesskey m = .taken 0 4 :: parts m 4 := by
  have h4 := four_le hb
  obtain ⟨x, hat, hx⟩ := readType_eq useExc .data []
  rw [initDataTouches, if_neg (by omega), Msg.take_first hb, hx]
  dsimp only
  rw [position_first hat]

end Starts

namespace DataHandler

variable {h : DataHandler Addr} {sender : Addr}

theorem session_error {oldSalt : List UInt8} {f : Fail UdpExc}
    (hs : h.session oldSalt sender = .error f) : f = .no := by
  unfold session at hs
  cases hcb : h.lookupSessionCb with
  | none =>
    rw [hcb] at hs
    cases hs
  | some cb =>
    rw [hcb] at hs
    dsimp only at hs
    split at hs
    · cases hs
    · cases hs
      rfl

/-- The messages a run gets over: of another type; or with a whole header, and with header and
    footer, accepted where exceptions are in use, unless there is no session key. -/
def GetsOver (h : DataHandler Addr) (env : CryptEnv) (m : Msg) (sender : Addr) : Prop :=
  m.bytes.take 4 = (first .data).bytes → 12 ≤ m.size ∧
    ∀ key, h.session ((m.bytes.drop 4).take 8) sender = .ok key → key.chars.length ≠ 0 →
      20 ≤ m.size ∧ (h.useExc = true → m.Accepted env key)

/-- A message that does not start as a data packet is left alone. -/
theorem clean_of_ne (hne : m.bytes.take 4 ≠ (first .data).bytes) :
    Clean m (h.touches m sender, ended (h.process env m sender)) := by
  obtain ⟨e, he⟩ := @getSalt_thr h.useExc m hne
  refine ⟨ended_thr_bind he _, ?_⟩
  have hsession : (getSalt h.useExc m >>= fun oldSalt => h.session oldSalt sender) =
      thr h.useExc (.comm e) := bind_error he _
  dsimp only
  rw [touches, hsession, getSaltTouches]
  by_cases h4 : m.size < 4
  · rw [if_pos h4]
    intro t ht
    cases ht
  · rw [if_neg h4]
    rw [← Msg.take_data (Nat.le_of_not_lt h4)] at hne
    obtain ⟨e', he'⟩ := @readType_thr h.useExc (m.data.take 4) .data
      (by rwa [List.take_take])
    rw [he']
    intro t ht
    rcases List.mem_cons.mp ht with rfl | ht
    · exact Nat.le_of_not_lt h4
    · cases ht

/-- A run on a data packet, one callback after the other. -/
theorem clean_iff_of_eq (hstart : m.bytes.take 4 = (first .data).bytes) :
    Clean m (h.touches m sender, ended (h.process env m sender)) ↔ h.GetsOver env m sender := by
  have hb : m.bytes = (first .data).bytes ++ m.bytes.drop 4 := by
    rw [← hstart, List.take_append_drop]
  have h4 := four_le hb
  have hsalt := @getSalt_eq h.useExc m _ hb
  have hsound : Touch.Sound m (.taken 0 4) := h4
  rw [Clean, touches, process, getSaltTouches_eq hb, bind_ok hsalt, bind_ok hsalt]
  dsimp only
  rw [List.forall_mem_append, List.forall_mem_cons, List.forall_mem_singleton]
  by_cases h12 : 12 ≤ m.size
  · have hdata : (m.data.drop 4).take 8 = (m.bytes.drop 4).take 8 := by
      rw [List.take_drop, Msg.take_data (show 4 + 8 ≤ m.size from h12), ← List.take_drop]
    have hhead : Touch.Sound m (.taken 4 8) := h12
    rw [hdata]
    unfold GetsOver
    cases hs : h.session ((m.bytes.drop 4).take 8) sender with
    | error f =>
      rw [session_error hs]
      refine iff_of_true ⟨rfl, ⟨hsound, hhead⟩, fun t ht => by cases ht⟩ fun _ => ⟨h12, ?_⟩
      intro key hkey
      cases hkey
    | ok key =>
      dsimp only
      by_cases hempty : key.chars.length = 0
      · have hinit : initData h.useExc env key m = thr h.useExc (.comm .rsSesskeyEmpty) := by
          rw [initData, bind_ok (refuse_ok (by omega)), refuse_error hempty]
          rfl
        have hnone : initDataTouches h.useExc key m = [] := if_pos (Or.inr hempty)
        refine iff_of_true ⟨ended_thr_bind hinit _, ⟨hsound, hhead⟩, ?_⟩ fun _ => ⟨h12, ?_⟩
        · rw [hnone]
          intro t ht
          cases ht
        · intro key' hkey'
          cases hkey'
          exact fun hne => absurd hempty hne
      · rw [initDataTouches_eq hb hempty, List.forall_mem_cons, parts_sound_iff]
        constructor
        · rintro ⟨hret, -, -, h20⟩ -
          refine ⟨h12, fun key' hkey' _ => ?_⟩
          cases hkey'
          exact ⟨h20, (ended_initData hstart h20 hempty _).mp hret⟩
        · intro hover
          obtain ⟨h20, hacc⟩ := (hover hstart).2 key rfl hempty
          exact ⟨(ended_initData hstart h20 hempty _).mpr hacc, ⟨hsound, hhead⟩, hsound, h20⟩
  · exact iff_of_false (fun hc => h12 hc.2.1.2) fun hover => h12 (hover hstart).1

/-- **A run of the data handler.** -/
theorem run_clean_iff (h : DataHandler Addr) (env : CryptEnv) (ms m : Msg) (sender : Addr) :
    Clean m (h.run env ms (some (m, sender))) ↔ h.GetsOver env m sender := by
  unfold run
  dsimp only
  by_cases h0 : m.size = 0
  · rw [if_pos h0]
    refine iff_of_true ⟨rfl, fun t ht => by cases ht⟩ fun hstart => ?_
    exact absurd hstart (ne_first (by omega))
  · rw [if_neg h0]
    have hover : h.GetsOver env (m.copyTo ms) sender ↔ h.GetsOver env m sender := by
      simp only [GetsOver, Msg.Accepted, Msg.bytes_copyTo, Msg.size_copyTo]
    rw [← hover, ← @clean_copyTo m ms]
    by_cases hstart : (m.copyTo ms).bytes.take 4 = (first .data).bytes
    · exact clean_iff_of_eq hstart
    · exact iff_of_true (clean_of_ne hstart) fun h => absurd h hstart

end DataHandler

/-- An auth packet with a key whose name has just 64 bytes. -/
def Msg.FillsName (m : Msg) : Prop :=
  m.bytes.take 4 = (first .unicastAuth).bytes ∧ ofBe ((m.bytes.drop 4).take 8) = 64 ∧ 76 ≤ m.size

/-- `init_auth` ends at the key of the peer, or before it. -/
theorem initAuth_ends (useExc : Bool) (env : CryptEnv) (shared : EcdhKey → Bignum → Option Ustr)
    (privateKey : Bignum) (m : Msg) :
    initAuthTouches useExc shared privateKey m = [.taken 0 (UInt64.ofNat m.size)] ∧
      ((∃ e, initAuth useExc env shared privateKey m = thr useExc (.comm e)) ∧ ¬ m.FillsName ∨
        initAuth useExc env shared privateKey m = .error .fault ∧ m.FillsName) := by
  unfold initAuth initAuthTouches
  by_cases hstart : m.bytes.take 4 = (first .unicastAuth).bytes
  · have hb : m.bytes = (first .unicastAuth).bytes ++ m.bytes.drop 4 := by
      rw [← hstart, List.take_append_drop]
    obtain ⟨x, hat, hx⟩ := readType_eq useExc .unicastAuth (m.bytes.drop 4)
    rw [← hb] at hx
    obtain ⟨hok, hexc⟩ := readType_keeps hx
    have hfills : x.FillsName ↔ m.FillsName := by
      have hlt := ofBe_lt ((m.bytes.drop 4).take 8)
      have hle : 256 ^ ((m.bytes.drop 4).take 8).length ≤ 256 ^ 8 :=
        Nat.pow_le_pow_right (by decide) (by rw [List.length_take]; omega)
      have hlen : 72 ≤ m.size - 4 ↔ 76 ≤ m.size := by omega
      have h64 : (64 : UInt64).toNat = 64 := rfl
      rw [Xdrbuf.FillsName, ← UInt64.toNat_inj, toNat_announced, hat.rest, List.length_drop,
        m.length_bytes, hlen, h64]
      exact (and_iff_right hstart).symm
    rw [hx, bind_ok rfl, ← hfills]
    dsimp only
    rcases EcdhKey.fromXdr_ends hok hexc with ⟨⟨y, hy⟩, hno⟩ | ⟨⟨y, hy⟩, hyes⟩
    · rw [hy]
      exact ⟨rfl, Or.inl ⟨⟨_, rfl⟩, hno⟩⟩
    · rw [hy]
      exact ⟨rfl, Or.inr ⟨rfl, hyes⟩⟩
  · obtain ⟨e, he⟩ := @readType_thr useExc m.bytes .unicastAuth hstart
    rw [he]
    exact ⟨rfl, Or.inl ⟨⟨e, rfl⟩, fun h => hstart h.1⟩⟩

/-- **A run of the auth handler.** -/
theorem AuthHandler.run_clean_iff (h : AuthHandler Addr) (env : CryptEnv) (aenv : AuthEnv)
    (ms m : Msg) (sender : Addr) :
    Clean m (h.run env aenv ms (some (m, sender))) ↔ ¬ m.FillsName := by
  unfold run
  dsimp only
  by_cases h0 : m.size = 0
  · rw [if_pos h0]
    refine iff_of_true ⟨rfl, fun t ht => by cases ht⟩ fun hf => ?_
    exact absurd hf.1 (ne_first (by omega))
  · rw [if_neg h0]
    have hfills : (m.copyTo ms).FillsName ↔ m.FillsName := by
      simp only [Msg.FillsName, Msg.bytes_copyTo, Msg.size_copyTo]
    have hmax : m.size ≤ 65536 := m.size_le
    obtain ⟨htouch, hends⟩ := initAuth_ends h.useExc env aenv.shared h.privateKey (m.copyTo ms)
    rw [← hfills, Clean, htouch, List.forall_mem_singleton]
    rcases hends with ⟨⟨e, he⟩, hno⟩ | ⟨hf, hyes⟩
    · refine iff_of_true ⟨ended_thr_bind he _, ?_⟩ hno
      have h0 : (0 : UInt64).toNat = 0 := rfl
      rw [Touch.Sound, UInt64.toNat_ofNat', Msg.size_copyTo, h0]
      omega
    · refine iff_of_false (fun hc => ?_) (not_not_intro hyes)
      have hend : ended (h.process env aenv (m.copyTo ms) sender) = .fault := by
        rw [process, bind_error hf]
        rfl
      cases hend.symm.trans hc.1

/-- **One run of a handler** returns, having taken received bytes only, on just the messages that
    it gets over. -/
theorem handlers_clean_iff (d : DataHandler Addr) (a : AuthHandler Addr) (env : CryptEnv)
    (aenv : AuthEnv) (ms m : Msg) (sender : Addr) :
    (Clean m (d.run env ms (some (m, sender))) ↔ d.GetsOver env m sender) ∧
      (Clean m (a.run env aenv ms (some (m, sender))) ↔ ¬ m.FillsName) :=
  ⟨d.run_clean_iff env ms m sender, a.run_clean_iff env aenv ms m sender⟩

/-! ## Messages that it does not get over -/

/-- A data handler for which every salt is that of a session, with the key of one letter. -/
def keeper (useExc : Bool) : DataHandler Unit :=
  ⟨useExc, 0, some fun _ _ => (true, Packet.letter), none, none⟩

/-- An auth handler without callbacks. -/
def greeter (useExc : Bool) : AuthHandler Unit := ⟨useExc, ⟨[1], false⟩, none, none, none⟩

/-- The type of a data packet alone, then with a header, and then with all parts but a wrong tag,
    with exceptions; and the type of an auth packet with a name of 64 bytes. -/
theorem handlers_clean_fails :
    (∀ useExc h, ¬ Clean (Packet.blank.put [0, 0, 0, 8] h) ((keeper useExc).run Packet.plain
      Packet.blank (some (Packet.blank.put [0, 0, 0, 8] h, ())))) ∧
    (∀ useExc h, ¬ Clean (Packet.blank.put ([0, 0, 0, 8] ++ List.replicate 8 1) h)
      ((keeper useExc).run Packet.plain Packet.blank
        (some (Packet.blank.put ([0, 0, 0, 8] ++ List.replicate 8 1) h, ())))) ∧
    (∀ h, ¬ Clean (Packet.blank.put ([0, 0, 0, 8] ++ List.replicate 20 1) h)
      ((keeper true).run Packet.plain Packet.blank
        (some (Packet.blank.put ([0, 0, 0, 8] ++ List.replicate 20 1) h, ())))) ∧
    ∀ useExc aenv h,
      ¬ Clean (Packet.blank.put ([0, 0, 0, 4] ++ ([0, 0, 0, 0, 0, 0, 0, 64] ++
          List.replicate 64 65)) h)
        ((greeter useExc).run Packet.plain aenv Packet.blank
          (some (Packet.blank.put ([0, 0, 0, 4] ++ ([0, 0, 0, 0, 0, 0, 0, 64] ++
            List.replicate 64 65)) h, ()))) := by
  have hfirst : (first .data).bytes = [0, 0, 0, 8] := bytes_first _
  have hfirst' : (first .unicastAuth).bytes = [0, 0, 0, 4] := bytes_first _
  refine ⟨fun useExc h => ?_, fun useExc h => ?_, fun h => ?_, fun useExc aenv h => ?_⟩
  · rw [DataHandler.run_clean_iff, DataHandler.GetsOver, hfirst, Msg.bytes_put, Msg.size_put]
    intro hover
    exact absurd (hover rfl).1 (by decide)
  · rw [DataHandler.run_clean_iff, DataHandler.GetsOver, hfirst, Msg.bytes_put, Msg.size_put]
    intro hover
    exact absurd ((hover rfl).2 Packet.letter rfl (by decide)).1 (by decide)
  · rw [DataHandler.run_clean_iff, DataHandler.GetsOver, hfirst, Msg.bytes_put]
    intro hover
    have hacc := ((hover rfl).2 Packet.letter rfl (by decide)).2 rfl
    rw [Msg.Accepted, Msg.bytes_put, Msg.size_put] at hacc
    exact absurd (hacc.2.2 rfl) (by decide)
  · rw [AuthHandler.run_clean_iff, not_not, Msg.FillsName, Msg.bytes_put, hfirst', Msg.size_put]
    exact ⟨rfl, by decide, by decide⟩

end Udp

end CodeSLoop
