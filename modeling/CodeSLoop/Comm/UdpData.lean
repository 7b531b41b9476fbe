import CodeSLoop.Comm.UdpMsg

/-!
# Data packets (`comm/udp_data.cc`)

`prepare_data` sends the old salt as the header and the new one in the encrypted part, before the
payload. `get_salt` gives the old salt back (`getSalt_prepareData`); `init_data` takes the packet
apart as it was put together, and then does not get the new salt, which it reads through
`get_data<T>` (`initData_prepareData`).
-/

namespace CodeSLoop

namespace Udp

open Bytes Codec Calls Xdrbuf

/-- `data_handler::get_salt`; the exceptions of the stream are not caught here. -/
def getSalt (useExc : Bool) (m : Msg) : Outcome UdpExc (List UInt8) := do
  refuse useExc (m.size < 4) (.comm .rsNullParam)
  let r := (Xdrbuf.new (Pbuf.init.append (m.data.take 4)).1).readInt32
  match r.2 with
  | .thrown e => .error (.thrown (.common e))
  | .fault => .error .fault
  | .ret packetType =>
    refuse useExc (packetType.getD 0 ≠ PacketType.data.code) (.comm .rsInvalidPacketType)
    match m.range (UInt64.ofNat r.1.position) CryptPkt.headerLen with
    | some oldSalt => .ok oldSalt
    | none => .error .fault

/-- `data_handler::init_data`: the new salt and the data. -/
def initData (useExc : Bool) (env : CryptEnv) (sesskey : Ustr) (m : Msg) :
    Outcome UdpExc (List UInt8 × List UInt8) := do
  refuse useExc (m.size < 4) (.comm .rsNullParam)
  refuse useExc (sesskey.chars.length = 0) (.comm .rsSesskeyEmpty)
  let xbo ← readType useExc (m.data.take 4) .data
  let data ← decompilePacket useExc env sesskey.buf m xbo.position
  let salt ← readSalt useExc (Xdrbuf.new (Pbuf.init.append data).1)
  let recvdta ← common useExc (salt.1.getDataT (fun _ => true) 8 65536)
  refuse useExc (recvdta.2.1 = false) (.comm .rsXdrError)
  .ok (salt.2, recvdta.2.2.2)

/-- `data_handler::prepare_data`. -/
def prepareData (useExc : Bool) (env : CryptEnv) (oldSalt newSalt : List UInt8) (sesskey : Ustr)
    (senddta : List UInt8) (m : Msg) : Outcome UdpExc Msg := do
  refuse useExc (senddta.length = 0) (.comm .rsNullParam)
  refuse useExc (oldSalt.length ≠ saltSize) (.comm .rsSaltSize)
  refuse useExc (newSalt.length ≠ saltSize) (.comm .rsSaltSize)
  refuse useExc (sesskey.chars.length = 0) (.comm .rsSesskeyEmpty)
  let xbo ← written useExc ((Xdrbuf.new Pbuf.init).writeInt32 PacketType.data.code)
  refuse useExc (xbo.b.size > maxLen) (.comm .rsTooBig)
  let xbi ← written useExc
    ((Xdrbuf.new Pbuf.init).writeBindata (some newSalt) (UInt64.ofNat newSalt.length))
  let xbi ← written useExc (xbi.writeBindata (some senddta) (UInt64.ofNat senddta.length))
  compilePacket useExc env oldSalt sesskey.buf xbo.b xbi.b m

/-! ## What becomes of a data packet -/

variable {useExc useExc' : Bool} {env env' : CryptEnv} {oldSalt newSalt senddta : List UInt8}
  {sesskey : Ustr} {m m' : Msg}

theorem initData_ne_ok {p : List UInt8 × List UInt8} : initData useExc env sesskey m ≠ .ok p := by
  intro h
  obtain ⟨_, -, h⟩ := bind_eq_ok.mp h
  obtain ⟨_, -, h⟩ := bind_eq_ok.mp h
  obtain ⟨xbo, -, h⟩ := bind_eq_ok.mp h
  obtain ⟨data, -, h⟩ := bind_eq_ok.mp h
  obtain ⟨salt, hsalt, -⟩ := bind_eq_ok.mp h
  exact readSalt_ne_ok (ok_new _) rfl hsalt

/-- A packet that was prepared: the salts have their size, and behind the type is what was
    compiled of the new salt and the payload. -/
theorem prepareData_eq_ok (h : prepareData useExc env oldSalt newSalt sesskey senddta m = .ok m') :
    oldSalt.length = saltSize ∧ newSalt.length = saltSize ∧ sesskey.chars.length ≠ 0 ∧ ∃ inner,
      compilePacket useExc env oldSalt sesskey.buf (first .data) inner m = .ok m' ∧
        (senddta.length < 2 ^ 64 → inner.bytes = counted newSalt ++ counted senddta) := by
  obtain ⟨_, -, h⟩ := bind_eq_ok.mp h
  obtain ⟨_, h₁, h⟩ := bind_eq_ok.mp h
  obtain ⟨_, h₂, h⟩ := bind_eq_ok.mp h
  obtain ⟨_, h₃, h⟩ := bind_eq_ok.mp h
  obtain ⟨xbo, htype, h⟩ := bind_eq_ok.mp h
  obtain ⟨_, -, h⟩ := bind_eq_ok.mp h
  obtain ⟨xbi, hsalt, h⟩ := bind_eq_ok.mp h
  obtain ⟨xbi', hdta, h⟩ := bind_eq_ok.mp h
  rw [written_type] at htype
  cases htype
  have h8 : saltSize = 8 := rfl
  have hnew : newSalt.length = saltSize := Decidable.not_not.mp (not_of_refuse h₂)
  refine ⟨Decidable.not_not.mp (not_of_refuse h₁), hnew, not_of_refuse h₃, xbi'.b, h,
    fun hlen => ?_⟩
  obtain ⟨c, hc, hcb⟩ := @written_bindata newSalt useExc Pbuf.init (by omega)
  rw [hc] at hsalt
  cases hsalt
  obtain ⟨d, hd, hdb⟩ := written_bindata useExc c hlen
  rw [hd] at hdta
  cases hdta
  exact hdb.trans (by rw [hcb, Pbuf.bytes_init, List.nil_append])

theorem length_salt_data (hnew : newSalt.length = saltSize) :
    (counted newSalt ++ counted senddta).length = 24 + round4 senddta.length := by
  have h8 : round4 saltSize = 8 := rfl
  rw [List.length_append, length_counted, length_counted, hnew, h8]
  omega

theorem prepareData_ok (hold : oldSalt.length = saltSize) (hnew : newSalt.length = saltSize)
    (hkey : sesskey.chars.length ≠ 0) (hdta : senddta.length ≠ 0)
    (hlen : 24 + round4 senddta.length ≤ 65200) (hctx : env.ctx = true) {r : List UInt8}
    (hr : env.rand = some r) :
    ∃ m', prepareData useExc env oldSalt newSalt sesskey senddta m = .ok m' := by
  have hle := le_round4 senddta.length
  have h8 : saltSize = 8 := rfl
  obtain ⟨c, hc, hcb⟩ := @written_bindata newSalt useExc Pbuf.init (by omega)
  obtain ⟨d, hd, hdb⟩ := @written_bindata senddta useExc c (by omega)
  have hsize : d.size = 24 + round4 senddta.length := by
    rw [d.size_eq_bytes, hdb, hcb, Pbuf.bytes_init, List.nil_append, length_salt_data hnew]
  have hsz : (Xdrbuf.new (first .data)).b.size = 4 := size_first .data
  have hfirst : (first .data).size = 4 := size_first .data
  obtain ⟨m', hm⟩ := @compilePacket_ok useExc env oldSalt sesskey.buf (first .data) d m hold
    (by simp [Ustr.buf]) (by omega) hctx r hr (by rw [maxLen]; omega)
  refine ⟨m', ?_⟩
  rw [prepareData, bind_ok (refuse_ok hdta), bind_ok (refuse_ok (not_not_intro hold)),
    bind_ok (refuse_ok (not_not_intro hnew)), bind_ok (refuse_ok hkey),
    bind_ok (written_type useExc .data), bind_ok (refuse_ok (by rw [maxLen]; omega)), bind_ok hc,
    bind_ok hd]
  exact hm

/-- `get_salt` on a message that starts as a data packet takes the eight bytes that follow,
    received or not. -/
theorem getSalt_eq {tail : List UInt8} (hb : m.bytes = (first .data).bytes ++ tail) :
    getSalt useExc m = .ok ((m.data.drop 4).take 8) := by
  have h4 := size_first .data
  rw [Pbuf.size_eq_bytes] at h4
  have hlen := m.length_bytes
  rw [hb, List.length_append, h4] at hlen
  obtain ⟨x, hat, hx⟩ := readInt32_first .data []
  have hrange : m.range (UInt64.ofNat 4) CryptPkt.headerLen = some ((m.data.drop 4).take 8) :=
    if_pos (by decide)
  unfold getSalt
  rw [bind_ok (refuse_ok (by omega)), Msg.take_first hb]
  dsimp only
  rw [hx]
  dsimp only
  rw [bind_ok (refuse_ok (by simp)), position_first hat, hrange]

theorem getSalt_thr (h : m.bytes.take 4 ≠ (first .data).bytes) :
    ∃ e, getSalt useExc m = thr useExc (.comm e) := by
  by_cases h4 : m.size < 4
  · refine ⟨.rsNullParam, ?_⟩
    rw [getSalt, refuse_error h4]
    rfl
  · have hlen := List.length_take_of_le (show 4 ≤ m.bytes.length by rw [m.length_bytes]; omega)
    obtain ⟨x, v, -, hx, hv⟩ := readInt32_start (Nat.le_of_eq hlen.symm)
    rw [List.take_take] at hv
    have hne : (some v).getD 0 ≠ PacketType.data.code := fun heq => h (hv _ heq)
    refine ⟨.rsInvalidPacketType, ?_⟩
    unfold getSalt
    rw [bind_ok (refuse_ok h4), Msg.take_data (by omega)]
    dsimp only
    rw [hx]
    dsimp only
    rw [refuse_error hne]
    rfl

/-- `init_data` on a message that starts as a data packet. -/
theorem initData_eq {tail : List UInt8} (hb : m.bytes = (first .data).bytes ++ tail)
    (hkey : sesskey.chars.length ≠ 0) : initData useExc env sesskey m = (do
      let data ← decompilePacket useExc env sesskey.buf m 4
      let salt ← readSalt useExc (Xdrbuf.new (Pbuf.init.append data).1)
      let recvdta ← common useExc (salt.1.getDataT (fun _ => true) 8 65536)
      refuse useExc (recvdta.2.1 = false) (.comm .rsXdrError)
      .ok (salt.2, recvdta.2.2.2)) := by
  have h4 := size_first .data
  rw [Pbuf.size_eq_bytes] at h4
  have hlen := m.length_bytes
  rw [hb, List.length_append, h4] at hlen
  obtain ⟨x, hat, hx⟩ := readType_eq useExc .data []
  unfold initData
  rw [bind_ok (refuse_ok (by omega)), bind_ok (refuse_ok hkey), Msg.take_first hb, bind_ok hx,
    position_first hat]

/-- **`get_salt`** gives the old salt back. -/
theorem getSalt_prepareData
    (h : prepareData useExc env oldSalt newSalt sesskey senddta m = .ok m') :
    getSalt useExc' m' = .ok oldSalt := by
  obtain ⟨-, -, -, inner, hc, -⟩ := prepareData_eq_ok h
  obtain ⟨head, text, foot, he, hb⟩ := compilePacket_eq_ok hc
  obtain ⟨(hold : oldSalt.length = CryptPkt.headerLen), -, -, -, r, -, rfl, -, -⟩ :=
    CryptPkt.encrypt_eq_ok.mp he
  rw [List.append_assoc, List.append_assoc] at hb
  have h4 := size_first .data
  rw [Pbuf.size_eq_bytes] at h4
  have hlen := m'.length_bytes
  rw [hb, List.length_append, List.length_append, h4, hold] at hlen
  have h8 : CryptPkt.headerLen = 8 := rfl
  have hdata : (m'.data.drop 4).take 8 = (m'.bytes.drop 4).take 8 := by
    rw [List.take_drop, Msg.take_data (show 4 + 8 ≤ m'.size by omega), ← List.take_drop]
  rw [getSalt_eq hb, hdata, hb, List.drop_left' h4, List.take_left' (hold.trans h8)]

/-- **`init_data`**, on a packet with the same cipher and key, of a payload that is not too big,
    fails at the new salt. -/
theorem initData_prepareData
    (h : prepareData useExc env oldSalt newSalt sesskey senddta m = .ok m')
    (hu : env'.umac = env.umac)
    (hk : CryptPkt.umacKey env' sesskey.buf = CryptPkt.umacKey env sesskey.buf)
    (hctx : env'.ctx = true) (hlen : 24 + round4 senddta.length + 4 ≤ 65200) :
    initData useExc' env' sesskey m' = thr useExc' (.comm .rsXdrError) := by
  obtain ⟨hold, hnew, hkey, inner, hc, hin⟩ := prepareData_eq_ok h
  have hle := le_round4 senddta.length
  have h8 : saltSize = 8 := rfl
  have hin := hin (by omega)
  have hsize : inner.size = 24 + round4 senddta.length := by
    rw [inner.size_eq_bytes, hin, length_salt_data hnew]
  obtain ⟨head, text, foot, he, hb⟩ := compilePacket_eq_ok hc
  rw [List.append_assoc, List.append_assoc] at hb
  have h4 := size_first .data
  have hdec := @decompilePacket_compilePacket useExc useExc' env env' oldSalt sesskey.buf
    (first .data) inner m m' hc hu hk hctx (by omega)
  rw [h4] at hdec
  rw [initData_eq hb hkey, bind_ok hdec]
  have hat : At (Pbuf.init.append inner.bytes).1 (Xdrbuf.new (Pbuf.init.append inner.bytes).1)
      (counted newSalt ++ counted senddta) := by
    rw [← hin]
    exact at_append inner.bytes
  exact bind_error (readSalt_counted hat (by omega)) _

end Udp

end CodeSLoop
