import CodeSLoop.Comm.UdpPackets

/-!
# Hello and olleh packets (`comm/udp_hello.cc`)

The client sends its public key. The server answers with its own one and, encrypted with a key that
both sides derive, with whether it wants a login and a password. As for the auth packets, deriving
the key is a parameter, `shared`.

No public key is ever read (`EcdhKey.fromXdr_ne_some`), so no packet of either kind is accepted.
What is behind the key is not the reason: from there on, an olleh packet gives back what was put in
(`openOlleh_prepareOlleh`). And `prepare_hello`, other than `prepare_olleh`, does not look whether
the packet has room.
-/

namespace CodeSLoop

namespace Udp

open Bytes Codec Calls Xdrbuf

/-- A `msg` of which `size_` may be more than `data_` has. -/
structure LooseMsg where
  data : List UInt8
  size : UInt32
  length_data : data.length = maxLen

/-- `copy_to` into `data_`, and the number of all bytes to `size_`. -/
def LooseMsg.put (m : Msg) (bs : List UInt8) : LooseMsg where
  data := bs.take maxLen ++ m.data.drop (bs.take maxLen).length
  size := UInt32.ofNat bs.length
  length_data := by
    rw [List.length_append, List.length_drop, List.length_take, m.length_data]
    omega

/-- What the server tells the client. -/
structure Olleh where
  serverPublicKey : EcdhKey
  needLogin : Bool
  needPass : Bool

/-- `static_cast<int32_t>` of a truth value. -/
def boolInt (b : Bool) : Int32 := if b then 1 else 0

/-- `hello_cli::prepare_hello`. -/
def prepareHello (useExc : Bool) (publicKey : EcdhKey) (m : Msg) : Outcome UdpExc LooseMsg := do
  let xb ← written useExc ((Xdrbuf.new Pbuf.init).writeInt32 PacketType.hello.code)
  let key := publicKey.toXdr xb
  refuse useExc (key.2 = false) (.comm .rsXdrError)
  .ok (.put m key.1.b.bytes)

/-- `hello_handler::init_hello`: the key of the peer. -/
def initHello (useExc : Bool) (m : LooseMsg) : Outcome UdpExc EcdhKey :=
  if m.size.toNat > maxLen then .error .fault
  else do
    let xb ← readType useExc (m.data.take m.size.toNat) .hello
    let key ← common useExc (EcdhKey.fromXdr xb)
    match key.2 with
    | none => thr useExc (.comm .rsXdrError)
    | some peerPublicKey => .ok peerPublicKey

/-- `hello_handler::prepare_olleh`, with the random salt of the packet. -/
def prepareOlleh (useExc : Bool) (env : CryptEnv) (shared : EcdhKey → Bignum → Option Ustr)
    (o : Olleh) (myPrivateKey : Bignum) (peerPublicKey : EcdhKey) (salt : List UInt8) (m : Msg) :
    Outcome UdpExc Msg := do
  let xbo ← written useExc ((Xdrbuf.new Pbuf.init).writeInt32 PacketType.olleh.code)
  let key := o.serverPublicKey.toXdr xbo
  refuse useExc (key.2 = false) (.comm .rsXdrError)
  refuse useExc (key.1.b.size > maxLen) (.comm .rsTooBig)
  let xbi ← written useExc ((Xdrbuf.new Pbuf.init).writeInt32 (boolInt o.needLogin))
  let xbi ← written useExc (xbi.writeInt32 (boolInt o.needPass))
  match shared peerPublicKey myPrivateKey with
  | none => thr useExc (.comm .rsSecError)
  | some sessionKey => compilePacket useExc env salt sessionKey.buf key.1.b xbi.b m

/-- What `init_olleh` does behind the key of the server, which ends at `pos`. -/
def openOlleh (useExc : Bool) (env : CryptEnv) (sessionKey : Option Ustr) (m : Msg) (pos : Nat) :
    Outcome UdpExc (Bool × Bool) :=
  match sessionKey with
  | none => thr useExc (.comm .rsSecError)
  | some sessionKey => do
    let data ← decompilePacket useExc env sessionKey.buf m pos
    let login ← common useExc (Xdrbuf.new (Pbuf.init.append data).1).readInt32
    let pass ← common useExc login.1.readInt32
    .ok (login.2.getD 0 = 1, pass.2.getD 0 = 1)

/-- `hello_cli::init_olleh`. -/
def initOlleh (useExc : Bool) (env : CryptEnv) (shared : EcdhKey → Bignum → Option Ustr)
    (privateKey : Bignum) (m : Msg) : Outcome UdpExc Olleh := do
  let xbo ← readType useExc m.bytes .olleh
  let key ← common useExc (EcdhKey.fromXdr xbo)
  match key.2 with
  | none => thr useExc (.comm .rsXdrError)
  | some serverPublicKey => do
    let need ← openOlleh useExc env (shared serverPublicKey privateKey) m key.1.position
    .ok ⟨serverPublicKey, need.1, need.2⟩

/-! ## Reading -/

variable {useExc useExc' : Bool} {env env' : CryptEnv}
  {shared shared' : EcdhKey → Bignum → Option Ustr} {k : EcdhKey} {o : Olleh}
  {myPrivateKey privateKey : Bignum} {peerPublicKey : EcdhKey} {salt : List UInt8} {m m' : Msg}

/-- **`init_hello`** accepts nothing. -/
theorem initHello_ne_ok {l : LooseMsg} : initHello useExc l ≠ .ok k := by
  intro h
  unfold initHello at h
  split at h
  · cases h
  · obtain ⟨xb, htype, h⟩ := bind_eq_ok.mp h
    obtain ⟨⟨y, key⟩, hkey, h⟩ := bind_eq_ok.mp h
    cases key_eq_none htype hkey
    exact thr_ne_ok h

/-- **`init_olleh`** neither. -/
theorem initOlleh_ne_ok : initOlleh useExc env shared privateKey m ≠ .ok o := by
  intro h
  obtain ⟨xbo, htype, h⟩ := bind_eq_ok.mp h
  obtain ⟨⟨y, key⟩, hkey, h⟩ := bind_eq_ok.mp h
  cases key_eq_none htype hkey
  exact thr_ne_ok h

/-- How reading a key that was written behind a type ends. -/
theorem readKey_encode (useExc : Bool) (h : k.Fits) (t : PacketType) (tail : List UInt8) :
    ∃ x y, readType useExc ((first t).bytes ++ (k.encode ++ tail)) t = .ok x ∧
      EcdhKey.fromXdr x = (y, if k.algname.buf.length = 64 then .fault else .ret none) := by
  obtain ⟨x, hat, hx⟩ := readType_eq useExc t (k.encode ++ tail)
  obtain ⟨y, hy⟩ := EcdhKey.fromXdr_encode h hat
  exact ⟨x, y, hx, hy⟩

/-! ## Writing -/

/-- The sizes of the numbers of a key are 64-bit numbers. -/
def Sized (k : EcdhKey) : Prop := k.x.buf.length < 2 ^ 64 ∧ k.y.buf.length < 2 ^ 64

theorem length_bignum (n : Bignum) : n.encode.length = 12 + round4 n.buf.length := by
  rw [Bignum.encode, List.length_append, length_be, length_counted, ← Nat.add_assoc]

theorem length_encode (k : EcdhKey) : k.encode.length = 8 + round4 k.algname.buf.length +
    (12 + round4 k.x.buf.length + (12 + round4 k.y.buf.length)) := by
  rw [EcdhKey.encode, List.length_append, List.length_append, length_counted, length_bignum,
    length_bignum]

theorem toXdr_first (h : Sized k) (t : PacketType) : ∃ c : Pbuf,
    k.toXdr (Xdrbuf.new (first t)) = (Xdrbuf.new c, true) ∧
      c.bytes = (first t).bytes ++ k.encode ∧ c.size = 4 + k.encode.length := by
  obtain ⟨c, hc, hb⟩ := k.toXdr_eq (first t) h.1 h.2
  refine ⟨c, hc, hb, ?_⟩
  rw [c.size_eq_bytes, hb, List.length_append, ← Pbuf.size_eq_bytes, size_first]

/-- **`prepare_hello`** always succeeds. -/
theorem prepareHello_eq (h : Sized k) :
    prepareHello useExc k m = .ok (.put m ((first .hello).bytes ++ k.encode)) := by
  obtain ⟨c, hc, hb, -⟩ := toXdr_first h .hello
  rw [prepareHello, bind_ok (written_type useExc _)]
  dsimp only
  rw [hc, bind_ok (refuse_ok Bool.true_eq_false.mp)]
  dsimp only
  rw [show (Xdrbuf.new c).b.bytes = _ from hb]

theorem written_int32 (useExc : Bool) (b : Pbuf) (v : Int32) :
    ∃ c, written useExc ((Xdrbuf.new b).writeInt32 v) = .ok (Xdrbuf.new c) ∧
      c.bytes = b.bytes ++ be 4 v.toUInt32.toNat := by
  refine ⟨_, ?_, Pbuf.bytes_append _ _⟩
  rw [writeInt32, put_eq]
  rfl

/-- The encrypted part of an olleh packet. -/
def Olleh.inner (o : Olleh) : List UInt8 :=
  be 4 (boolInt o.needLogin).toUInt32.toNat ++ be 4 (boolInt o.needPass).toUInt32.toNat

theorem length_inner (o : Olleh) : o.inner.length = 8 := by
  rw [Olleh.inner, List.length_append, length_be, length_be]

/-- `prepare_olleh` in two parts. -/
theorem prepareOlleh_eq (h : Sized o.serverPublicKey) : ∃ outer inner : Pbuf,
    outer.bytes = (first .olleh).bytes ++ o.serverPublicKey.encode ∧
    outer.size = 4 + o.serverPublicKey.encode.length ∧ inner.bytes = o.inner ∧
    prepareOlleh useExc env shared o myPrivateKey peerPublicKey salt m =
      if outer.size > maxLen then thr useExc (.comm .rsTooBig)
      else match shared peerPublicKey myPrivateKey with
        | none => thr useExc (.comm .rsSecError)
        | some key => compilePacket useExc env salt key.buf outer inner m := by
  obtain ⟨outer, hout, hob, hosize⟩ := toXdr_first h .olleh
  obtain ⟨c, hc, hcb⟩ := written_int32 useExc Pbuf.init (boolInt o.needLogin)
  obtain ⟨inner, hin, hib⟩ := written_int32 useExc c (boolInt o.needPass)
  rw [hcb, Pbuf.bytes_init, List.nil_append] at hib
  refine ⟨outer, inner, hob, hosize, hib, ?_⟩
  rw [prepareOlleh, bind_ok (written_type useExc _)]
  dsimp only
  rw [hout, bind_ok (refuse_ok Bool.true_eq_false.mp)]
  dsimp only
  rw [show (Xdrbuf.new outer).b.size = outer.size from rfl]
  by_cases hbig : outer.size > maxLen
  · rw [if_pos hbig, refuse_error hbig]
    rfl
  · rw [if_neg hbig, bind_ok (refuse_ok hbig), bind_ok hc, bind_ok hin]
    rfl

theorem prepareOlleh_eq_ok (h : Sized o.serverPublicKey)
    (hm : prepareOlleh useExc env shared o myPrivateKey peerPublicKey salt m = .ok m') :
    ∃ (key : Ustr) (outer inner : Pbuf), shared peerPublicKey myPrivateKey = some key ∧
      outer.bytes = (first .olleh).bytes ++ o.serverPublicKey.encode ∧
      outer.size = 4 + o.serverPublicKey.encode.length ∧ inner.bytes = o.inner ∧
      compilePacket useExc env salt key.buf outer inner m = .ok m' := by
  obtain ⟨outer, inner, hob, hosize, hib, heq⟩ := @prepareOlleh_eq useExc env shared o myPrivateKey
    peerPublicKey salt m h
  rw [heq] at hm
  split at hm
  · exact absurd hm thr_ne_ok
  · cases hkey : shared peerPublicKey myPrivateKey with
    | none =>
      rw [hkey] at hm
      exact absurd hm thr_ne_ok
    | some key =>
      rw [hkey] at hm
      exact ⟨key, outer, inner, rfl, hob, hosize, hib, hm⟩

/-- What an olleh packet needs: a key that is derived, and that nothing fails in `crypt_pkt`; and
    header, text and footer have 28 bytes. -/
structure Ready (env : CryptEnv) (shared : EcdhKey → Bignum → Option Ustr) (o : Olleh)
    (myPrivateKey : Bignum) (peerPublicKey : EcdhKey) : Prop where
  key : (shared peerPublicKey myPrivateKey).isSome
  ctx : env.ctx = true
  rand : env.rand.isSome
  room : 4 + o.serverPublicKey.encode.length + 28 ≤ maxLen

theorem prepareOlleh_ok_iff (h : Sized o.serverPublicKey) (hsalt : salt.length = 8) :
    (∃ m', prepareOlleh useExc env shared o myPrivateKey peerPublicKey salt m = .ok m') ↔
      Ready env shared o myPrivateKey peerPublicKey := by
  constructor
  · rintro ⟨m', hm⟩
    obtain ⟨key, outer, inner, hkey, -, hosize, hib, hc⟩ := prepareOlleh_eq_ok h hm
    obtain ⟨head, text, foot, he, hb⟩ := compilePacket_eq_ok hc
    obtain ⟨hhead, htext, hfoot⟩ := CryptPkt.length_encrypt he
    obtain ⟨-, -, -, hctx, r, hr, -⟩ := CryptPkt.encrypt_eq_ok.mp he
    have hlen := congrArg List.length hb
    rw [Msg.length_bytes, List.length_append, List.length_append, List.length_append, hhead,
      htext, hfoot, hib, length_inner, ← Pbuf.size_eq_bytes, hosize, CryptPkt.headerLen,
      CryptPkt.footerLen] at hlen
    have hle := m'.size_le
    exact ⟨by rw [hkey]; rfl, hctx, by rw [hr]; rfl, by omega⟩
  · intro hready
    obtain ⟨outer, inner, -, hosize, hib, heq⟩ := @prepareOlleh_eq useExc env shared o myPrivateKey
      peerPublicKey salt m h
    have hisize : inner.size = 8 := by rw [inner.size_eq_bytes, hib, length_inner]
    obtain ⟨key, hkey⟩ := Option.isSome_iff_exists.mp hready.key
    obtain ⟨r, hr⟩ := Option.isSome_iff_exists.mp hready.rand
    have hroom := hready.room
    rw [heq, if_neg (by omega), hkey]
    exact compilePacket_ok hsalt (by simp [Ustr.buf]) (by omega) hready.ctx hr (by omega)

/-- **Behind its key, an olleh packet gives back what was put in**, when both sides derive the same
    key and have the same cipher. -/
theorem openOlleh_prepareOlleh (h : Sized o.serverPublicKey)
    (hm : prepareOlleh useExc env shared o myPrivateKey peerPublicKey salt m = .ok m')
    (hkey : shared' o.serverPublicKey privateKey = shared peerPublicKey myPrivateKey)
    (hu : env'.umac = env.umac)
    (hk : ∀ key, CryptPkt.umacKey env' key = CryptPkt.umacKey env key) (hctx : env'.ctx = true) :
    openOlleh useExc' env' (shared' o.serverPublicKey privateKey) m'
      (4 + o.serverPublicKey.encode.length) = .ok (o.needLogin, o.needPass) := by
  obtain ⟨key, outer, inner, hs, -, hosize, hib, hc⟩ := prepareOlleh_eq_ok h hm
  have hisize : inner.size = 8 := by rw [inner.size_eq_bytes, hib, length_inner]
  have hdec := @decompilePacket_compilePacket useExc useExc' env env' salt key.buf outer inner m
    m' hc hu (hk _) hctx (by omega)
  rw [hosize, hib] at hdec
  have hat := at_append o.inner
  rw [Olleh.inner, ← List.append_nil (be 4 (boolInt o.needPass).toUInt32.toNat)] at hat
  obtain ⟨x, hx, hat⟩ := decodes_readInt32 _ _ _ hat
  obtain ⟨y, hy, -⟩ := decodes_readInt32 _ _ _ hat
  rw [List.append_nil] at hx
  rw [hkey, hs, openOlleh, bind_ok hdec, Olleh.inner, bind_ok (common_ok hx),
    bind_ok (common_ok hy)]
  have hval : ∀ b : Bool, decide ((some (boolInt b)).getD 0 = 1) = b := by
    intro b
    cases b <;> rfl
  rw [hval, hval]

/-! ## The exchange -/

/-- What the client puts in a hello packet comes out at the server. -/
def HelloReturned (useExc useExc' : Bool) (k : EcdhKey) (m : Msg) : Prop :=
  ∀ l, prepareHello useExc k m = .ok l → initHello useExc' l = .ok k

/-- A hello packet that has no room is not made. -/
def HelloBounded (useExc : Bool) (k : EcdhKey) (m : Msg) : Prop :=
  maxLen < 4 + k.encode.length → ∀ l, prepareHello useExc k m ≠ .ok l

/-- What the server puts in an olleh packet comes out at the client. -/
def OllehReturned (useExc useExc' : Bool) (env env' : CryptEnv)
    (shared shared' : EcdhKey → Bignum → Option Ustr) (o : Olleh) (myPrivateKey privateKey : Bignum)
    (peerPublicKey : EcdhKey) (salt : List UInt8) (m : Msg) : Prop :=
  ∀ m', prepareOlleh useExc env shared o myPrivateKey peerPublicKey salt m = .ok m' →
    initOlleh useExc' env' shared' privateKey m' = .ok o

/-- An olleh packet that has no room is not made. -/
def OllehBounded (useExc : Bool) (env : CryptEnv) (shared : EcdhKey → Bignum → Option Ustr)
    (o : Olleh) (myPrivateKey : Bignum) (peerPublicKey : EcdhKey) (salt : List UInt8) (m : Msg) :
    Prop :=
  maxLen < 4 + o.serverPublicKey.encode.length + 28 →
    ∀ m', prepareOlleh useExc env shared o myPrivateKey peerPublicKey salt m ≠ .ok m'

/-- **The exchange.** No hello packet is accepted, and no olleh packet that was made. A hello packet
    is made whether it has room or not, and an olleh packet only when it has. -/
theorem hello_exchange (hcli : Sized k) (hsrv : Sized o.serverPublicKey) (hsalt : salt.length = 8) :
    ¬ HelloReturned useExc useExc' k m ∧
    (HelloBounded useExc k m ↔ 4 + k.encode.length ≤ maxLen) ∧
    (OllehReturned useExc useExc' env env' shared shared' o myPrivateKey privateKey peerPublicKey
        salt m ↔ ¬ Ready env shared o myPrivateKey peerPublicKey) ∧
    OllehBounded useExc env shared o myPrivateKey peerPublicKey salt m := by
  have hiff := @prepareOlleh_ok_iff useExc env shared o myPrivateKey peerPublicKey salt m hsrv hsalt
  refine ⟨?_, ?_, ?_, ?_⟩
  · intro h
    exact initHello_ne_ok (h _ (prepareHello_eq hcli))
  · constructor
    · intro h
      by_contra hbig
      exact h (Nat.lt_of_not_le hbig) _ (prepareHello_eq hcli)
    · intro h hbig
      exact absurd h (Nat.not_le_of_lt hbig)
  · rw [← hiff]
    constructor
    · intro h hex
      obtain ⟨m', hm⟩ := hex
      exact initOlleh_ne_ok (h m' hm)
    · intro h m' hm
      exact absurd ⟨m', hm⟩ h
  · intro hbig m' hm
    exact Nat.not_le_of_lt hbig (hiff.mp ⟨m', hm⟩).room

/-! ## Packets that are made, and refused -/

theorem LooseMsg.size_put {bs : List UInt8} (h : bs.length ≤ maxLen) :
    (LooseMsg.put m bs).size.toNat = bs.length := by
  rw [maxLen] at h
  rw [LooseMsg.put, UInt32.toNat_ofNat', Nat.mod_eq_of_lt (by omega)]

theorem LooseMsg.take_put {bs : List UInt8} (h : bs.length ≤ maxLen) :
    (LooseMsg.put m bs).data.take (LooseMsg.put m bs).size.toNat = bs := by
  rw [size_put h, LooseMsg.put]
  dsimp only
  rw [List.take_of_length_le h]
  exact List.take_left' rfl

/-- A packet with a key of an ordinary size. -/
theorem initHello_put (h : k.Fits) (hname : k.algname.buf.length ≠ 64)
    (hroom : 4 + k.encode.length ≤ maxLen) :
    initHello useExc (.put m ((first .hello).bytes ++ k.encode)) =
      Calls.thr useExc (.comm .rsXdrError) := by
  have hlen : ((first .hello).bytes ++ k.encode).length ≤ maxLen := by
    rw [List.length_append, ← Pbuf.size_eq_bytes, size_first]
    exact hroom
  obtain ⟨x, y, hx, hy⟩ := readKey_encode useExc h .hello []
  rw [if_neg hname] at hy
  rw [List.append_nil] at hx
  rw [initHello, if_neg (by rw [LooseMsg.size_put hlen]; exact Nat.not_lt_of_le hlen),
    LooseMsg.take_put hlen, bind_ok hx, bind_ok (common_ok hy)]

theorem initOlleh_prepareOlleh (h : o.serverPublicKey.Fits)
    (hname : o.serverPublicKey.algname.buf.length ≠ 64)
    (hm : prepareOlleh useExc env shared o myPrivateKey peerPublicKey salt m = .ok m') :
    initOlleh useExc' env' shared' privateKey m' = Calls.thr useExc' (.comm .rsXdrError) := by
  have hsized : Sized o.serverPublicKey :=
    ⟨Nat.lt_of_le_of_lt h.x.2 (by simp), Nat.lt_of_le_of_lt h.y.2 (by simp)⟩
  obtain ⟨key, outer, inner, -, hob, -, -, hc⟩ := prepareOlleh_eq_ok hsized hm
  obtain ⟨head, text, foot, -, hb⟩ := compilePacket_eq_ok hc
  obtain ⟨x, y, hx, hy⟩ := readKey_encode useExc' h .olleh (head ++ (text ++ foot))
  rw [if_neg hname] at hy
  rw [hob, List.append_assoc, List.append_assoc, List.append_assoc] at hb
  rw [initOlleh, hb, bind_ok hx, bind_ok (common_ok hy)]

namespace Packet

/-- The server that `client` knows. -/
def answer : Olleh := ⟨client.serverPublicKey, true, false⟩

theorem answer_ready : Ready plain (fun _ _ => some letter) answer ⟨[1], false⟩ client.publicKey :=
  ⟨rfl, rfl, rfl, by decide⟩

theorem hello_exchange_client :
    ¬ HelloReturned true true client.publicKey blank ∧ HelloBounded true client.publicKey blank ∧
    ¬ OllehReturned true true plain plain (fun _ _ => some letter) (fun _ _ => some letter) answer
      ⟨[1], false⟩ client.privateKey client.publicKey (List.replicate 8 1) blank := by
  obtain ⟨h₁, h₂, h₃, -⟩ := @hello_exchange true true plain plain (fun _ _ => some letter)
    (fun _ _ => some letter) client.publicKey answer ⟨[1], false⟩ client.privateKey client.publicKey
    (List.replicate 8 1) blank ⟨by simp [client], by simp [client]⟩
    ⟨by simp [answer, client], by simp [answer, client]⟩ rfl
  exact ⟨h₁, h₂.mpr (by decide), fun h => h₃.mp h answer_ready⟩

/-- A key with a number that is as long as a message. -/
def broad : EcdhKey := ⟨letter, ⟨List.replicate maxLen 1, false⟩, ⟨[3], false⟩⟩

theorem length_broad : broad.x.buf.length = 65536 := List.length_replicate

/-- A hello packet and an olleh packet that are made, and refused at the other end with the same
    keys; and a hello packet that is longer than a message. -/
theorem hello_exchange_fails :
    (∃ l, prepareHello true client.publicKey blank = .ok l ∧
      initHello true l = thr true (.comm .rsXdrError)) ∧
    (∃ m', prepareOlleh true plain (fun _ _ => some letter) answer ⟨[1], false⟩ client.publicKey
        (List.replicate 8 1) blank = .ok m' ∧
      initOlleh true plain (fun _ _ => some letter) client.privateKey m' =
        thr true (.comm .rsXdrError)) ∧
    ∃ l, prepareHello true broad blank = .ok l ∧ maxLen < l.size.toNat := by
  have hclient : client.publicKey.Fits := ⟨by decide, by decide, by decide⟩
  have hserver : answer.serverPublicKey.Fits := ⟨by decide, by decide, by decide⟩
  have hlen : broad.encode.length = 65576 := by
    rw [length_encode, length_broad]
    rfl
  refine ⟨⟨_, prepareHello_eq ⟨by simp [client], by simp [client]⟩,
    initHello_put hclient (by decide) (by decide)⟩, ?_, ⟨_, prepareHello_eq ⟨?_, ?_⟩, ?_⟩⟩
  · obtain ⟨m', hm⟩ := (@prepareOlleh_ok_iff true plain (fun _ _ => some letter) answer ⟨[1], false⟩
      client.publicKey (List.replicate 8 1) blank ⟨by simp [answer, client],
        by simp [answer, client]⟩ rfl).mpr answer_ready
    exact ⟨m', hm, initOlleh_prepareOlleh hserver (by decide) hm⟩
  · rw [length_broad]
    simp
  · simp [broad]
  · rw [LooseMsg.put, UInt32.toNat_ofNat', List.length_append, hlen, ← Pbuf.size_eq_bytes,
      size_first, maxLen]
    simp

end Packet

end Udp

end CodeSLoop
