import CodeSLoop.Comm.UdpData
import CodeSLoop.Sec.EcdhKey

/-!
# Auth and htua packets (`comm/udp_auth.cc`)

The client sends its public key, and, encrypted with a key that both sides derive, a salt, its
login, its password and the session key; the server answers with a salt of its own, encrypted
with the session key. Deriving the key (`gen_sha1hex_shared_key`) is a parameter, `shared`.
-/

namespace CodeSLoop

namespace Udp

open Bytes Codec Calls Xdrbuf

/-- The members of `auth_cli` that go into a packet. -/
structure AuthCli where
  privateKey : Bignum
  publicKey : EcdhKey
  serverPublicKey : EcdhKey
  mySalt : List UInt8
  login : Ustr
  pass : Ustr
  sessionKey : Ustr
  length_mySalt : mySalt.length = saltSize

/-- What the server takes from an auth packet; strings with their buffers. -/
structure Auth where
  peerPublicKey : EcdhKey
  login : List UInt8
  pass : List UInt8
  sesskey : List UInt8
  slt : List UInt8

/-- `auth_cli::prepare_auth`, with the random salt of the packet. -/
def prepareAuth (useExc : Bool) (env : CryptEnv) (shared : EcdhKey → Bignum → Option Ustr)
    (cli : AuthCli) (salt : List UInt8) (m : Msg) : Outcome UdpExc Msg := do
  let xbo ← written useExc ((Xdrbuf.new Pbuf.init).writeInt32 PacketType.unicastAuth.code)
  let key := cli.publicKey.toXdr xbo
  refuse useExc (key.2 = false) (.comm .rsXdrError)
  refuse useExc (key.1.b.size > maxLen) (.comm .rsTooBig)
  let xbi ← written useExc
    ((Xdrbuf.new Pbuf.init).writeBindata (some cli.mySalt) (UInt64.ofNat saltSize))
  let xbi ← written useExc (xbi.writeUstr cli.login.buf)
  let xbi ← written useExc (xbi.writeUstr cli.pass.buf)
  let xbi ← written useExc (xbi.writeUstr cli.sessionKey.buf)
  refuse useExc (cli.serverPublicKey.isEmpty = true) (.comm .rsPubkeyEmpty)
  match shared cli.serverPublicKey cli.privateKey with
  | none => thr useExc (.comm .rsSecError)
  | some sessionKey => compilePacket useExc env salt sessionKey.buf key.1.b xbi.b m

/-- `auth_handler::init_auth`. -/
def initAuth (useExc : Bool) (env : CryptEnv) (shared : EcdhKey → Bignum → Option Ustr)
    (privateKey : Bignum) (m : Msg) : Outcome UdpExc Auth := do
  let xbo ← readType useExc m.bytes .unicastAuth
  let key ← common useExc (EcdhKey.fromXdr xbo)
  match key.2 with
  | none => thr useExc (.comm .rsXdrError)
  | some peerPublicKey =>
    match shared peerPublicKey privateKey with
    | none => thr useExc (.comm .rsSecError)
    | some sessionKey =>
      let data ← decompilePacket useExc env sessionKey.buf m key.1.position
      let slt ← readSalt useExc (Xdrbuf.new (Pbuf.init.append data).1)
      let login ← common useExc (slt.1.readUstr fun _ => true)
      let pass ← common useExc (login.1.readUstr fun _ => true)
      let sesskey ← common useExc (pass.1.readUstr fun _ => true)
      .ok ⟨peerPublicKey, login.2.getD [0], pass.2.getD [0], sesskey.2.getD [0], slt.2⟩

/-- `auth_handler::prepare_htua`. -/
def prepareHtua (useExc : Bool) (env : CryptEnv) (pktSalt commSalt : List UInt8) (sesskey : Ustr)
    (m : Msg) : Outcome UdpExc Msg := do
  refuse useExc (pktSalt.length ≠ saltSize) (.comm .rsSaltSize)
  refuse useExc (commSalt.length ≠ saltSize) (.comm .rsSaltSize)
  refuse useExc (sesskey.chars.length = 0) (.comm .rsSesskeyEmpty)
  let xbo ← written useExc ((Xdrbuf.new Pbuf.init).writeInt32 PacketType.unicastHtua.code)
  refuse useExc (xbo.b.size > maxLen) (.comm .rsTooBig)
  let xbi ← written useExc
    ((Xdrbuf.new Pbuf.init).writeBindata (some commSalt) (UInt64.ofNat commSalt.length))
  compilePacket useExc env pktSalt sesskey.buf xbo.b xbi.b m

/-- `auth_cli::init_htua`: the salt of the server. -/
def initHtua (useExc : Bool) (env : CryptEnv) (sessionKey : Ustr) (m : Msg) :
    Outcome UdpExc (List UInt8) := do
  let xbo ← readType useExc m.bytes .unicastHtua
  let data ← decompilePacket useExc env sessionKey.buf m xbo.position
  let salt ← readSalt useExc (Xdrbuf.new (Pbuf.init.append data).1)
  .ok salt.2

/-! ## What becomes of the packets -/

variable {useExc useExc' : Bool} {env env' : CryptEnv} {shared : EcdhKey → Bignum → Option Ustr}
  {cli : AuthCli} {salt pktSalt commSalt : List UInt8} {sesskey : Ustr} {m m' : Msg}

/-- **`init_htua`** never gives a salt. -/
theorem initHtua_ne_ok {slt : List UInt8} : initHtua useExc env sesskey m ≠ .ok slt := by
  intro h
  obtain ⟨xbo, -, h⟩ := bind_eq_ok.mp h
  obtain ⟨data, -, h⟩ := bind_eq_ok.mp h
  obtain ⟨p, hsalt, -⟩ := bind_eq_ok.mp h
  exact readSalt_ne_ok (ok_new _) rfl hsalt

/-- There is no key behind the type of a packet. -/
theorem key_eq_none {bs : List UInt8} {t : PacketType} {x y : Xdrbuf} {key : Option EcdhKey}
    (htype : readType useExc bs t = .ok x)
    (hkey : common useExc' (EcdhKey.fromXdr x) = .ok (y, key)) : key = none := by
  obtain ⟨hok, hexc⟩ := readType_keeps htype
  cases key with
  | none => rfl
  | some k => exact absurd (common_eq_ok.mp hkey) (EcdhKey.fromXdr_ne_some hok hexc)

/-- **`init_auth`** never gets past the key of the peer. -/
theorem initAuth_ne_ok {privateKey : Bignum} {a : Auth} :
    initAuth useExc env shared privateKey m ≠ .ok a := by
  intro h
  obtain ⟨xbo, htype, h⟩ := bind_eq_ok.mp h
  obtain ⟨⟨y, key⟩, hkey, h⟩ := bind_eq_ok.mp h
  cases key_eq_none htype hkey
  exact thr_ne_ok h

theorem prepareHtua_ok (hpkt : pktSalt.length = saltSize) (hcomm : commSalt.length = saltSize)
    (hkey : sesskey.chars.length ≠ 0) (hctx : env.ctx = true) {r : List UInt8}
    (hr : env.rand = some r) : ∃ m', prepareHtua useExc env pktSalt commSalt sesskey m = .ok m' := by
  have h8 : saltSize = 8 := rfl
  have hround : round4 saltSize = 8 := rfl
  obtain ⟨c, hc, hcb⟩ := @written_bindata commSalt useExc Pbuf.init (by omega)
  have hsize : c.size = 16 := by
    rw [c.size_eq_bytes, hcb, Pbuf.bytes_init, List.nil_append, length_counted, hcomm, hround]
  have hsz : (Xdrbuf.new (first .unicastHtua)).b.size = 4 := size_first _
  have hfirst : (first .unicastHtua).size = 4 := size_first _
  obtain ⟨m', hm⟩ := @compilePacket_ok useExc env pktSalt sesskey.buf (first .unicastHtua) c m hpkt
    (by simp [Ustr.buf]) (by omega) hctx r hr (by rw [maxLen]; omega)
  refine ⟨m', ?_⟩
  rw [prepareHtua, bind_ok (refuse_ok (not_not_intro hpkt)),
    bind_ok (refuse_ok (not_not_intro hcomm)), bind_ok (refuse_ok hkey),
    bind_ok (written_type useExc _), bind_ok (refuse_ok (by rw [maxLen]; omega)), bind_ok hc]
  exact hm

theorem prepareHtua_eq_ok (h : prepareHtua useExc env pktSalt commSalt sesskey m = .ok m') :
    commSalt.length = saltSize ∧ ∃ inner, inner.bytes = counted commSalt ∧
      compilePacket useExc env pktSalt sesskey.buf (first .unicastHtua) inner m = .ok m' := by
  obtain ⟨_, -, h⟩ := bind_eq_ok.mp h
  obtain ⟨_, hcomm, h⟩ := bind_eq_ok.mp h
  obtain ⟨_, -, h⟩ := bind_eq_ok.mp h
  obtain ⟨xbo, htype, h⟩ := bind_eq_ok.mp h
  obtain ⟨_, -, h⟩ := bind_eq_ok.mp h
  obtain ⟨xbi, hsalt, h⟩ := bind_eq_ok.mp h
  rw [written_type] at htype
  cases htype
  have hcomm : commSalt.length = saltSize := Decidable.not_not.mp (not_of_refuse hcomm)
  have h8 : saltSize = 8 := rfl
  obtain ⟨c, hc, hcb⟩ := @written_bindata commSalt useExc Pbuf.init (by omega)
  rw [hc] at hsalt
  cases hsalt
  exact ⟨hcomm, c, hcb, h⟩

/-- **`init_htua`**, on a packet with the same cipher and key, fails at the salt. -/
theorem initHtua_prepareHtua (h : prepareHtua useExc env pktSalt commSalt sesskey m = .ok m')
    (hu : env'.umac = env.umac)
    (hk : CryptPkt.umacKey env' sesskey.buf = CryptPkt.umacKey env sesskey.buf)
    (hctx : env'.ctx = true) :
    initHtua useExc' env' sesskey m' = Calls.thr useExc' (.comm .rsXdrError) := by
  obtain ⟨hcomm, inner, hin, hc⟩ := prepareHtua_eq_ok h
  have h8 : saltSize = 8 := rfl
  have hround : round4 saltSize = 8 := rfl
  have hsize : inner.size = 16 := by rw [inner.size_eq_bytes, hin, length_counted, hcomm, hround]
  obtain ⟨head, text, foot, he, hb⟩ := compilePacket_eq_ok hc
  rw [List.append_assoc, List.append_assoc] at hb
  obtain ⟨x, hat, hx⟩ := readType_eq useExc' .unicastHtua (head ++ (text ++ foot))
  have hdec := @decompilePacket_compilePacket useExc useExc' env env' pktSalt sesskey.buf
    (first .unicastHtua) inner m m' hc hu hk hctx (by omega)
  have h4 := size_first .unicastHtua
  unfold initHtua
  rw [hb, bind_ok hx, position_first hat, ← h4, bind_ok hdec]
  have hat : At (Pbuf.init.append inner.bytes).1 (Xdrbuf.new (Pbuf.init.append inner.bytes).1)
      (counted commSalt ++ []) := by
    rw [List.append_nil, ← hin]
    exact at_append inner.bytes
  exact bind_error (readSalt_counted hat (by omega)) _

/-- The client's packet is prepared when there is a key of the server and everything fits. -/
theorem prepareAuth_ok (hx : cli.publicKey.x.buf.length < 2 ^ 64)
    (hy : cli.publicKey.y.buf.length < 2 ^ 64) (hempty : cli.serverPublicKey.isEmpty = false)
    {key : Ustr} (hkey : shared cli.serverPublicKey cli.privateKey = some key)
    (hsalt : salt.length = 8) (hctx : env.ctx = true) {r : List UInt8} (hr : env.rand = some r)
    {len : Nat} (hlen : len = 16 + (counted cli.login.buf ++ counted cli.pass.buf ++
      counted cli.sessionKey.buf).length) (hin : len ≤ 65200)
    (hout : 4 + cli.publicKey.encode.length + len + 20 ≤ maxLen) :
    ∃ m', prepareAuth useExc env shared cli salt m = .ok m' := by
  have h8 : saltSize = 8 := rfl
  have hround : round4 saltSize = 8 := rfl
  obtain ⟨b, hb, hbb⟩ := cli.publicKey.toXdr_eq (first .unicastAuth) hx hy
  obtain ⟨c₁, hc₁, hb₁⟩ := @written_bindata cli.mySalt useExc Pbuf.init
    (by rw [cli.length_mySalt]; omega)
  obtain ⟨c₂, hc₂, hb₂⟩ := written_ustr useExc c₁ cli.login
  obtain ⟨c₃, hc₃, hb₃⟩ := written_ustr useExc c₂ cli.pass
  obtain ⟨c₄, hc₄, hb₄⟩ := written_ustr useExc c₃ cli.sessionKey
  have hbsize : b.size = 4 + cli.publicKey.encode.length := by
    rw [b.size_eq_bytes, hbb, List.length_append, ← Pbuf.size_eq_bytes, size_first]
  have hcsize : c₄.size = len := by
    rw [c₄.size_eq_bytes, hb₄, hb₃, hb₂, hb₁, Pbuf.bytes_init, List.nil_append, hlen]
    simp only [List.length_append]
    rw [length_counted cli.mySalt, cli.length_mySalt, hround]
    omega
  obtain ⟨m', hm⟩ := @compilePacket_ok useExc env salt key.buf b c₄ m hsalt (by simp [Ustr.buf])
    (by omega) hctx r hr (by omega)
  rw [cli.length_mySalt] at hc₁
  refine ⟨m', ?_⟩
  rw [prepareAuth, bind_ok (written_type useExc _)]
  dsimp only
  rw [hb, bind_ok (refuse_ok Bool.true_eq_false.mp)]
  dsimp only
  rw [bind_ok (refuse_ok (show ¬ (Xdrbuf.new b).b.size > maxLen from Nat.not_lt_of_le
      (show b.size ≤ maxLen by omega))), bind_ok hc₁, bind_ok hc₂, bind_ok hc₃, bind_ok hc₄,
    bind_ok (refuse_ok (Bool.eq_false_iff.mp hempty)), hkey]
  exact hm

end Udp

end CodeSLoop
