import CodeSLoop.Comm.UdpAuth

/-!
# Packets between their two ends

The auth, htua and data packets, each with the function that prepares it and the one that takes it
apart. `Packet.not_returned` says what comes back of one that was prepared: never what was put in,
since all three `init` functions come upon a `get_data<T>` (in `init_auth` that is the one that
reads the public key); only the old salt of a data packet, for `get_salt`.

The reason is not the encryption: with the same key the encrypted part is restored
(`decompilePacket_compilePacket`), and the salt in it is then refused (`initHtua_prepareHtua`,
`initData_prepareData`).
-/

namespace CodeSLoop

namespace Udp

open Calls Xdrbuf

/-- The packets, with what is put in them. -/
inductive Packet
  | auth (cli : AuthCli) (salt : List UInt8)
  | htua (pktSalt commSalt : List UInt8) (sesskey : Ustr)
  | data (oldSalt newSalt : List UInt8) (sesskey : Ustr) (senddta : List UInt8)

namespace Packet

variable {useExc useExc' : Bool} {env env' : CryptEnv}
  {shared shared' : EcdhKey → Bignum → Option Ustr} {privateKey : Bignum} {m m' : Msg}

/-- The `prepare` functions. -/
def prepare (useExc : Bool) (env : CryptEnv) (shared : EcdhKey → Bignum → Option Ustr) (m : Msg) :
    Packet → Outcome UdpExc Msg
  | .auth cli salt => prepareAuth useExc env shared cli salt m
  | .htua pktSalt commSalt sesskey => prepareHtua useExc env pktSalt commSalt sesskey m
  | .data oldSalt newSalt sesskey senddta =>
    prepareData useExc env oldSalt newSalt sesskey senddta m

/-- The `init` function for the packet returns what was put in. -/
def Returned (useExc : Bool) (env : CryptEnv) (shared : EcdhKey → Bignum → Option Ustr)
    (privateKey : Bignum) (m : Msg) : Packet → Prop
  | .auth cli _ => initAuth useExc env shared privateKey m =
      .ok ⟨cli.publicKey, cli.login.buf, cli.pass.buf, cli.sessionKey.buf, cli.mySalt⟩
  | .htua _ commSalt sesskey => initHtua useExc env sesskey m = .ok commSalt
  | .data _ newSalt sesskey senddta => initData useExc env sesskey m = .ok (newSalt, senddta)

/-- `get_salt` returns the old salt of a data packet. -/
def GivesSalt (useExc : Bool) (m : Msg) : Packet → Prop
  | .auth _ _ | .htua _ _ _ => True
  | .data oldSalt _ _ _ => getSalt useExc m = .ok oldSalt

/-- **What was put in a packet does not come out**, but for the old salt. -/
theorem not_returned {p : Packet} (h : p.prepare useExc env shared m = .ok m') :
    ¬ p.Returned useExc' env' shared' privateKey m' ∧ p.GivesSalt useExc' m' := by
  cases p with
  | auth cli salt => exact ⟨initAuth_ne_ok, trivial⟩
  | htua pktSalt commSalt sesskey => exact ⟨initHtua_ne_ok, trivial⟩
  | data oldSalt newSalt sesskey senddta => exact ⟨initData_ne_ok, getSalt_prepareData h⟩

/-! ## Packets that are prepared -/

/-- A message never used. -/
def blank : Msg := ⟨List.replicate maxLen 0, 0, List.length_replicate, Nat.zero_le _⟩

/-- A cipher that changes nothing, and all that a call asks for. -/
def plain : CryptEnv :=
  ⟨⟨fun _ _ _ => 0, fun _ _ _ _ => List.replicate 8 0, fun _ _ _ _ => List.length_replicate⟩,
    true, List.replicate 16 0, some [1, 2, 3, 4], by decide⟩

/-- A name or a key of one character. -/
def letter : Ustr := ⟨[107], by decide⟩

/-- A client with keys, and with one-letter strings. -/
def client : AuthCli :=
  ⟨⟨[1], false⟩, ⟨letter, ⟨[2], false⟩, ⟨[3], false⟩⟩, ⟨letter, ⟨[4], false⟩, ⟨[5], false⟩⟩,
    List.replicate 8 6, letter, letter, letter, rfl⟩

theorem prepared_auth : ∃ m', (auth client (List.replicate 8 1)).prepare true plain
    (fun _ _ => some letter) blank = .ok m' := by
  have hlen : 52 = 16 + (counted letter.buf ++ counted letter.buf ++ counted letter.buf).length := by
    decide
  have hin : 52 ≤ 65200 := by decide
  have hkey : client.publicKey.encode.length = 44 := by decide
  have hout : 4 + client.publicKey.encode.length + 52 + 20 ≤ maxLen := by
    rw [hkey, maxLen]
    decide
  have hx : client.publicKey.x.buf.length < 2 ^ 64 := by decide
  have hy : client.publicKey.y.buf.length < 2 ^ 64 := by decide
  have hserver : client.serverPublicKey.isEmpty = false := rfl
  exact @prepareAuth_ok true plain (fun _ _ => some letter) client (List.replicate 8 1) blank hx hy
    hserver letter rfl rfl rfl _ rfl 52 hlen hin hout

theorem prepared_htua : ∃ m', (htua (List.replicate 8 1) (List.replicate 8 2) letter).prepare true
    plain (fun _ _ => some letter) blank = .ok m' :=
  prepareHtua_ok rfl rfl (by decide) rfl rfl

theorem prepared_data : ∃ m', (data (List.replicate 8 1) (List.replicate 8 2) letter [42]).prepare
    true plain (fun _ _ => some letter) blank = .ok m' :=
  prepareData_ok rfl rfl (by decide) (by decide) (by decide) rfl rfl

theorem not_returned_data : ∃ m',
    (data (List.replicate 8 1) (List.replicate 8 2) letter [42]).prepare true plain
      (fun _ _ => some letter) blank = .ok m' ∧
    ¬ (data (List.replicate 8 1) (List.replicate 8 2) letter [42]).Returned true plain
      (fun _ _ => some letter) ⟨[1], false⟩ m' ∧
    (data (List.replicate 8 1) (List.replicate 8 2) letter [42]).GivesSalt true m' := by
  obtain ⟨m', hm⟩ := prepared_data
  exact ⟨m', hm, not_returned hm⟩

/-- One packet of each kind, prepared, and taken apart at the other end with the same keys. -/
theorem packets_returned_fails :
    (∃ m', (auth client (List.replicate 8 1)).prepare true plain (fun _ _ => some letter) blank =
        .ok m' ∧ ¬ (auth client (List.replicate 8 1)).Returned true plain
          (fun _ _ => some letter) ⟨[1], false⟩ m') ∧
    (∃ m', (htua (List.replicate 8 1) (List.replicate 8 2) letter).prepare true plain
        (fun _ _ => some letter) blank = .ok m' ∧
        initHtua true plain letter m' = thr true (.comm .rsXdrError)) ∧
    ∃ m', (data (List.replicate 8 1) (List.replicate 8 2) letter [42]).prepare true plain
        (fun _ _ => some letter) blank = .ok m' ∧
        initData true plain letter m' = thr true (.comm .rsXdrError) := by
  obtain ⟨m₁, h₁⟩ := prepared_auth
  obtain ⟨m₂, h₂⟩ := prepared_htua
  obtain ⟨m₃, h₃⟩ := prepared_data
  refine ⟨⟨m₁, h₁, initAuth_ne_ok⟩, ⟨m₂, h₂, ?_⟩, ⟨m₃, h₃, ?_⟩⟩
  · exact initHtua_prepareHtua h₂ rfl rfl rfl
  · exact initData_prepareData h₃ rfl rfl rfl (by decide)

end Packet

end Udp

end CodeSLoop
