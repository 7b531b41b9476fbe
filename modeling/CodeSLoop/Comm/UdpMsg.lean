import CodeSLoop.Common.XdrReads
import CodeSLoop.Sec.CryptPkt

/-!
# Messages of the udp protocols (`comm/udp_recvr.hh`, `comm/udp_auth.cc`, `comm/udp_data.cc`)

A message starts with an XDR part that is not encrypted; header, text and footer of a `crypt_pkt`
follow without padding. The functions that prepare a packet, and those that take it apart, do
this in the same way, given here once (`compilePacket`, `decompilePacket`).

All of them catch the exceptions of `common` and throw one of their own, if they do throw
(`common`, `written`); those of `crypt_pkt` go through.
-/

namespace CodeSLoop

open Codec Calls

/-- The reasons of the exceptions thrown here (`comm::exc::rs_…`). -/
inductive CommExc
  | rsPubkeyEmpty | rsXdrError | rsInvalidPacketType | rsCommonError | rsSecError | rsCryptPktError
  | rsTooBig | rsNullParam | rsSesskeyEmpty | rsSaltSize
deriving DecidableEq, Repr

namespace Udp

/-- What can be thrown by the functions on packets. -/
inductive UdpExc
  | comm (e : CommExc) | sec (e : SecExc) | common (e : Exc)
deriving DecidableEq, Repr

/-- `msg::max_len_v`. -/
def maxLen : Nat := 65536

/-- The types of packets. -/
inductive PacketType
  | hello | olleh | result | unicastAuth | unicastHtua | multicastAuth | multicastHtua | data | salt
deriving DecidableEq, Repr

def PacketType.code : PacketType → Int32
  | .hello => 1
  | .olleh => 2
  | .result => 3
  | .unicastAuth => 4
  | .unicastHtua => 5
  | .multicastAuth => 6
  | .multicastHtua => 7
  | .data => 8
  | .salt => 9

/-- `msg`: the array `data_`, of which `size_` bytes are in use. -/
structure Msg where
  data : List UInt8
  size : Nat
  length_data : data.length = maxLen
  size_le : size ≤ maxLen

namespace Msg

/-- The bytes in use. -/
def bytes (m : Msg) : List UInt8 := m.data.take m.size

/-- `n` bytes at an offset, which may have wrapped, as long as they are in `data_`. -/
def range (m : Msg) (off : UInt64) (n : Nat) : Option (List UInt8) :=
  if off.toNat + n ≤ maxLen then some ((m.data.drop off.toNat).take n) else none

/-- Bytes put at the start of `data_`, and their number to `size_`. -/
def put (m : Msg) (bs : List UInt8) (h : bs.length ≤ maxLen) : Msg where
  data := bs ++ m.data.drop bs.length
  size := bs.length
  length_data := by
    rw [List.length_append, List.length_drop, m.length_data]
    omega
  size_le := h

variable {m : Msg} {bs : List UInt8} {h : bs.length ≤ maxLen}

theorem length_bytes (m : Msg) : m.bytes.length = m.size := by
  rw [bytes, List.length_take, m.length_data, Nat.min_eq_left m.size_le]

@[simp] theorem size_put : (m.put bs h).size = bs.length := rfl

@[simp] theorem bytes_put : (m.put bs h).bytes = bs := List.take_left' rfl

/-- A range of the bytes in use. -/
theorem range_eq {off : UInt64} {n : Nat} (hle : off.toNat + n ≤ m.size) :
    m.range off n = some ((m.bytes.drop off.toNat).take n) := by
  rw [range, if_pos (hle.trans m.size_le), bytes, List.drop_take, List.take_take,
    Nat.min_eq_left (by omega)]

end Msg

variable {α : Type}

/-- A reader of an XDR stream, in a function that catches `common::exc`. -/
def common (useExc : Bool) (r : Xdrbuf × Res Exc α) : Outcome UdpExc (Xdrbuf × α) :=
  match r.2 with
  | .ret a => .ok (r.1, a)
  | .thrown _ => thr useExc (.comm .rsCommonError)
  | .fault => .error .fault

/-- A writer. -/
def written (useExc : Bool) (r : Xdrbuf × Option Exc) : Outcome UdpExc Xdrbuf :=
  match r.2 with
  | none => .ok r.1
  | some _ => thr useExc (.comm .rsCommonError)

/-- A function of `crypt_pkt`, in one that looks at what it returns. -/
def crypted (useExc : Bool) (r : Outcome SecExc α) : Outcome UdpExc α :=
  match r with
  | .ok a => .ok a
  | .error .no => thr useExc (.comm .rsCryptPktError)
  | .error (.thrown e) => .error (.thrown (.sec e))
  | .error .fault => .error .fault

/-- The start of every packet: its type, for a writer. -/
def first (t : PacketType) : Pbuf := (Pbuf.init.append (Bytes.be 4 t.code.toUInt32.toNat)).1

/-- What reads the first part of a packet, and refuses other types: the stream behind the type. -/
def readType (useExc : Bool) (bs : List UInt8) (t : PacketType) : Outcome UdpExc Xdrbuf := do
  let r ← common useExc (Xdrbuf.new (Pbuf.init.append bs).1).readInt32
  refuse useExc (r.2.getD 0 ≠ t.code) (.comm .rsInvalidPacketType)
  .ok r.1

/-- `saltbuf_t::preallocated_size`. -/
def saltSize : Nat := 8

/-- What reads the salt at the start of the encrypted part. -/
def readSalt (useExc : Bool) (x : Xdrbuf) : Outcome UdpExc (Xdrbuf × List UInt8) := do
  let salt ← common useExc (x.getDataT (fun _ => true) 0 8)
  refuse useExc (salt.2.1 = false) (.comm .rsXdrError)
  refuse useExc (salt.2.2.1 ≠ 8) (.comm .rsXdrError)
  .ok (salt.1, salt.2.2.2)

/-- "compile packet" and "output packet": `inner` encrypted, behind `outer`. -/
def compilePacket (useExc : Bool) (env : CryptEnv) (salt key : List UInt8) (outer inner : Pbuf)
    (m : Msg) : Outcome UdpExc Msg := do
  let p ← crypted useExc (CryptPkt.encrypt useExc env salt key inner.bytes)
  let out := outer.bytes ++ p.1 ++ p.2.1 ++ p.2.2
  if h : out.length ≤ maxLen then .ok (m.put out h) else thr useExc (.comm .rsTooBig)

/-- "de-compile packet": header, footer and text are taken from the message behind its first
    part of `pos` bytes, and decrypted. A length that has wrapped is more than `malloc` gives,
    which leaves the text empty. -/
def decompilePacket (useExc : Bool) (env : CryptEnv) (key : List UInt8) (m : Msg) (pos : Nat) :
    Outcome UdpExc (List UInt8) :=
  let ptrp := UInt64.ofNat pos
  let lenp := UInt64.ofNat m.size - UInt64.ofNat pos
  let sz := (lenp - 8 - 8).toNat
  match m.range ptrp 8, m.range (ptrp + (lenp - 8)) 8, m.range (ptrp + 8) sz with
  | some head, some foot, some data => crypted useExc (CryptPkt.decrypt useExc env key head data foot)
  | some head, some foot, none =>
    if sz > maxLen then crypted useExc (CryptPkt.decrypt useExc env key head [] foot)
    else .error .fault
  | _, _, _ => .error .fault

/-! ## What was compiled is de-compiled -/

variable {useExc useExc' : Bool} {env env' : CryptEnv} {salt key : List UInt8} {outer inner : Pbuf}
  {m m' : Msg} {bs : List UInt8}

theorem crypted_eq_ok {r : Outcome SecExc α} {a : α} : crypted useExc r = .ok a ↔ r = .ok a := by
  cases r with
  | ok b =>
    refine ⟨fun h => ?_, fun h => ?_⟩
    · cases h
      rfl
    · cases h
      rfl
  | error e => cases e <;> exact ⟨fun h => (by cases h), fun h => (by cases h)⟩

theorem common_eq_ok {r : Xdrbuf × Res Exc α} {p : Xdrbuf × α} :
    common useExc r = .ok p ↔ r = (p.1, .ret p.2) := by
  obtain ⟨x, o⟩ := r
  cases o with
  | ret a =>
    refine ⟨fun h => ?_, fun h => ?_⟩
    · cases h
      rfl
    · cases h
      rfl
  | thrown e => exact ⟨fun h => (by cases h), fun h => (by cases h)⟩
  | fault => exact ⟨fun h => (by cases h), fun h => (by cases h)⟩

theorem common_ok {r : Xdrbuf × Res Exc α} {x : Xdrbuf} {a : α} (h : r = (x, .ret a)) :
    common useExc r = .ok (x, a) := common_eq_ok.mpr h

/-- The layout of a message. -/
theorem compilePacket_eq_ok (h : compilePacket useExc env salt key outer inner m = .ok m') :
    ∃ head text foot, CryptPkt.encrypt useExc env salt key inner.bytes = .ok (head, text, foot) ∧
      m'.bytes = outer.bytes ++ head ++ text ++ foot := by
  unfold compilePacket at h
  obtain ⟨⟨head, text, foot⟩, he, h⟩ := bind_eq_ok.mp h
  refine ⟨head, text, foot, crypted_eq_ok.mp he, ?_⟩
  dsimp only at h
  split at h
  · cases h
    exact Msg.bytes_put
  · exact absurd h thr_ne_ok

/-- The offsets of `decompilePacket` are those of the layout. -/
theorem decompilePacket_eq {first head text foot : List UInt8}
    (hb : m.bytes = first ++ head ++ text ++ foot) (hhead : head.length = 8)
    (hfoot : foot.length = 8) : decompilePacket useExc env key m first.length =
      crypted useExc (CryptPkt.decrypt useExc env key head text foot) := by
  have hsize := m.length_bytes
  have hmax : m.size ≤ 65536 := m.size_le
  rw [hb, List.length_append, List.length_append, List.length_append, hhead, hfoot] at hsize
  have hptr : (UInt64.ofNat first.length).toNat = first.length := by
    rw [UInt64.toNat_ofNat']
    omega
  have hlen : (UInt64.ofNat m.size - UInt64.ofNat first.length).toNat = text.length + 16 := by
    rw [UInt64.toNat_sub, hptr, UInt64.toNat_ofNat']
    omega
  have h8 : (8 : UInt64).toNat = 8 := rfl
  have hrange : ∀ {off : UInt64} {bs pre post : List UInt8}, m.bytes = pre ++ bs ++ post →
      off.toNat = pre.length → m.range off bs.length = some bs := by
    intro off bs pre post hbs hoff
    have hle := m.length_bytes
    rw [hbs, List.length_append, List.length_append] at hle
    rw [Msg.range_eq (by omega), hbs, hoff, List.append_assoc, List.drop_left' rfl,
      List.take_left' rfl]
  have hr₁ := @hrange (UInt64.ofNat first.length) head first (text ++ foot)
    (by rw [hb]; simp) hptr
  have hr₂ := @hrange (UInt64.ofNat first.length +
      (UInt64.ofNat m.size - UInt64.ofNat first.length - 8)) foot (first ++ head ++ text) []
    (by rw [hb]; simp) (by
      rw [UInt64.toNat_add, UInt64.toNat_sub, hlen, hptr, h8]
      simp only [List.length_append, hhead]
      omega)
  have hr₃ := @hrange (UInt64.ofNat first.length + 8) text (first ++ head) foot hb (by
      rw [UInt64.toNat_add, hptr, h8, List.length_append, hhead]
      omega)
  have hsz : (UInt64.ofNat m.size - UInt64.ofNat first.length - 8 - 8).toNat = text.length := by
    rw [UInt64.toNat_sub, UInt64.toNat_sub, hlen, h8]
    omega
  rw [hhead] at hr₁
  rw [hfoot] at hr₂
  unfold decompilePacket
  dsimp only
  rw [hr₁, hr₂, hsz, hr₃]

/-- **A packet is taken apart to what was put in**, with the same cipher and key, unless its text
    has outgrown what is decrypted. -/
theorem decompilePacket_compilePacket
    (h : compilePacket useExc env salt key outer inner m = .ok m') (hu : env'.umac = env.umac)
    (hk : CryptPkt.umacKey env' key = CryptPkt.umacKey env key) (hctx : env'.ctx = true)
    (hlen : inner.size + 4 ≤ 65200) :
    decompilePacket useExc' env' key m' outer.size = .ok inner.bytes := by
  obtain ⟨head, text, foot, he, hb⟩ := compilePacket_eq_ok h
  obtain ⟨hhead, -, hfoot⟩ := CryptPkt.length_encrypt he
  rw [inner.size_eq_bytes] at hlen
  rw [outer.size_eq_bytes, decompilePacket_eq hb hhead hfoot,
    CryptPkt.decrypt_encrypt he hu hk hctx hlen]
  rfl

theorem compilePacket_ok (hsalt : salt.length = 8) (hkey : key ≠ []) (hin : inner.size ≤ 65200)
    (hctx : env.ctx = true) {r : List UInt8} (hr : env.rand = some r)
    (hout : outer.size + inner.size + 20 ≤ maxLen) :
    ∃ m', compilePacket useExc env salt key outer inner m = .ok m' := by
  rw [inner.size_eq_bytes] at hin hout
  rw [outer.size_eq_bytes] at hout
  have he := (@CryptPkt.encrypt_eq_ok useExc env salt key inner.bytes salt _ _).mpr
    ⟨hsalt, hkey, hin, hctx, r, hr, rfl, rfl, rfl⟩
  obtain ⟨-, htext, hfoot⟩ := CryptPkt.length_encrypt he
  refine ⟨_, (bind_ok (crypted_eq_ok.mpr he) _).trans (dif_pos ?_)⟩
  dsimp only
  rw [List.length_append, List.length_append, List.length_append, htext, hfoot, hsalt]
  have h8 : CryptPkt.footerLen = 8 := rfl
  omega

/-! ## The first part and the salt -/

open Bytes Xdrbuf

/-- Data written behind what is there. -/
theorem written_bindata (useExc : Bool) (b : Pbuf) (h : bs.length < 2 ^ 64) :
    ∃ c, written useExc ((Xdrbuf.new b).writeBindata (some bs) (UInt64.ofNat bs.length)) =
        .ok (Xdrbuf.new c) ∧ c.bytes = b.bytes ++ counted bs := by
  obtain ⟨c, hc, hbytes⟩ := putCounted_eq (Xdrbuf.new b) h
  exact ⟨c, by rw [writeBindata, hc]; rfl, hbytes⟩

theorem written_ustr (useExc : Bool) (b : Pbuf) (s : Ustr) :
    ∃ c, written useExc ((Xdrbuf.new b).writeUstr s.buf) = .ok (Xdrbuf.new c) ∧
      c.bytes = b.bytes ++ counted s.buf :=
  written_bindata useExc b (by simpa [Ustr.buf] using s.fits)

theorem Msg.take_data {n : Nat} (h : n ≤ m.size) : m.data.take n = m.bytes.take n := by
  rw [Msg.bytes, List.take_take, Nat.min_eq_left h]

theorem bytes_first (t : PacketType) : (first t).bytes = be 4 t.code.toUInt32.toNat :=
  Pbuf.bytes_append _ _

theorem size_first (t : PacketType) : (first t).size = 4 := by
  rw [Pbuf.size_eq_bytes, bytes_first, length_be]

theorem written_type (useExc : Bool) (t : PacketType) :
    written useExc ((Xdrbuf.new Pbuf.init).writeInt32 t.code) =
      .ok (Xdrbuf.new (first t)) := by
  rw [writeInt32, put_eq]
  rfl

theorem at_append (bs : List UInt8) :
    At (Pbuf.init.append bs).1 (Xdrbuf.new (Pbuf.init.append bs).1) bs := by
  have hat := at_new (Pbuf.init.append bs).1
  rwa [Pbuf.bytes_append, Pbuf.bytes_init, List.nil_append] at hat

/-- The type is read from bytes that start with it, and what follows is left to read. -/
theorem readInt32_first (t : PacketType) (tail : List UInt8) :
    ∃ x, At (Pbuf.init.append ((first t).bytes ++ tail)).1 x tail ∧
      (Xdrbuf.new (Pbuf.init.append ((first t).bytes ++ tail)).1).readInt32 =
        (x, .ret (some t.code)) := by
  obtain ⟨x, hx, hend⟩ := decodes_readInt32 t.code _ tail
    (at_append (be 4 t.code.toUInt32.toNat ++ tail))
  rw [bytes_first]
  exact ⟨x, hend, hx⟩

theorem readType_eq (useExc : Bool) (t : PacketType) (tail : List UInt8) :
    ∃ x, At (Pbuf.init.append ((first t).bytes ++ tail)).1 x tail ∧
      readType useExc ((first t).bytes ++ tail) t = .ok x := by
  obtain ⟨x, hend, hx⟩ := readInt32_first t tail
  exact ⟨x, hend, by rw [readType, bind_ok (common_ok hx), bind_ok (refuse_ok (by simp))]⟩

/-- A message that starts with a type, up to there. -/
theorem Msg.take_first {t : PacketType} {tail : List UInt8}
    (h : m.bytes = (first t).bytes ++ tail) : m.data.take 4 = (first t).bytes ++ [] := by
  have h4 := size_first t
  rw [Pbuf.size_eq_bytes] at h4
  have hlen := m.length_bytes
  rw [h, List.length_append, h4] at hlen
  rw [Msg.take_data (by omega), h, List.take_left' h4, List.append_nil]

theorem position_first {t : PacketType} {tail : List UInt8} {x : Xdrbuf}
    (h : At (Pbuf.init.append ((first t).bytes ++ tail)).1 x tail) : x.position = 4 := by
  have hpos := h.position_add
  have h4 := size_first t
  rw [Pbuf.size_eq_bytes] at h4
  rw [Pbuf.size_eq_bytes, Pbuf.bytes_append, Pbuf.bytes_init, List.nil_append, List.length_append,
    h4] at hpos
  omega

theorem readType_keeps {t : PacketType} {x : Xdrbuf} (h : readType useExc bs t = .ok x) :
    x.Ok ∧ x.useExc = true := by
  obtain ⟨r, hr, h⟩ := bind_eq_ok.mp h
  obtain ⟨_, -, h⟩ := bind_eq_ok.mp h
  cases h
  have hkeep := readInt32_keeps (ok_new (Pbuf.init.append bs).1)
  rw [common_eq_ok.mp hr] at hkeep
  exact hkeep

/-- Four bytes are read as a number, which is that of a type only when they are its bytes. -/
theorem readInt32_start (h : 4 ≤ bs.length) :
    ∃ x v, At (Pbuf.init.append bs).1 x (bs.drop 4) ∧
      (Xdrbuf.new (Pbuf.init.append bs).1).readInt32 = (x, .ret (some v)) ∧
      ∀ t : PacketType, v = t.code → bs.take 4 = (first t).bytes := by
  have hlen : (bs.take 4).length = 4 := List.length_take_of_le h
  have hlt := ofBe_lt (bs.take 4)
  rw [hlen] at hlt
  have hbe := be_ofBe (bs.take 4)
  rw [hlen] at hbe
  have hv : ((UInt32.ofNat (ofBe (bs.take 4))).toInt32).toUInt32.toNat = ofBe (bs.take 4) := by
    rw [UInt32.toUInt32_toInt32, UInt32.toNat_ofNat', Nat.mod_eq_of_lt (by omega)]
  have hat := at_append (bs.take 4 ++ bs.drop 4)
  rw [← hbe, ← hv] at hat
  obtain ⟨x, hx, hend⟩ := decodes_readInt32 _ _ _ hat
  rw [hv, hbe, List.take_append_drop] at hx hend
  refine ⟨x, _, hend, hx, fun t ht => ?_⟩
  rw [bytes_first, ← ht, hv, hbe]

/-- Bytes that do not start with the type are refused, or are too few. -/
theorem readType_thr {t : PacketType} (h : bs.take 4 ≠ (first t).bytes) :
    ∃ e, readType useExc bs t = thr useExc (.comm e) := by
  by_cases h4 : 4 ≤ bs.length
  · obtain ⟨x, v, -, hx, hv⟩ := readInt32_start h4
    have hne : (some v).getD 0 ≠ t.code := fun heq => h (hv t heq)
    refine ⟨.rsInvalidPacketType, ?_⟩
    rw [readType, bind_ok (common_ok hx), refuse_error hne]
    rfl
  · have hshort : (Xdrbuf.new (Pbuf.init.append bs).1).rest.length < 4 := by
      rw [(at_append bs).rest]
      exact Nat.lt_of_not_le h4
    obtain ⟨y, e, hm, hy⟩ := readNumber_short (ok_new _) hshort
      fun bs => (UInt32.ofNat (ofBe bs)).toInt32
    refine ⟨.rsCommonError, ?_⟩
    rw [readType, readInt32, hy, Xdrbuf.thr, hm.useExc]
    rfl

/-- The reader of the salt throws nothing of its own, and stays within its buffer. -/
theorem readSalt_thr {x : Xdrbuf} (h : x.Ok) (hexc : x.useExc = true) :
    ∃ e, readSalt useExc x = thr useExc (.comm e) := by
  have hmax : (8 : UInt64).toNat < 2 ^ 32 := by decide
  rcases getDataT_ends h hexc (fun _ => true) 0 hmax with ⟨y, sz, hr⟩ | ⟨y, e, hr⟩
  · refine ⟨.rsXdrError, ?_⟩
    rw [readSalt, bind_ok (common_ok hr), refuse_error rfl]
    rfl
  · refine ⟨.rsCommonError, ?_⟩
    rw [readSalt, hr]
    rfl

/-- **The salt is never read.** -/
theorem readSalt_ne_ok {x : Xdrbuf} (h : x.Ok) (hexc : x.useExc = true)
    {p : Xdrbuf × List UInt8} : readSalt useExc x ≠ .ok p := by
  obtain ⟨e, he⟩ := @readSalt_thr useExc x h hexc
  rw [he]
  exact thr_ne_ok

theorem readSalt_counted {b : Pbuf} {x : Xdrbuf} {slt tail : List UInt8}
    (h : At b x (counted slt ++ tail)) (hlen : slt.length < 2 ^ 32) :
    readSalt useExc x = thr useExc (.comm .rsXdrError) := by
  rw [readSalt, bind_ok (common_ok (getDataT_counted h hlen (fun _ => true) 0 8)), refuse_error rfl]
  rfl

end Udp

end CodeSLoop
