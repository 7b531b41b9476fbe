import CodeSLoop.Sec.UmacAe

/-!
# Encrypted packets with the code of UMAC (`sec/crypt_pkt.cc`)

In `CryptPkt` the cipher and the tag are a parameter. Here they are what `sec/umac.c` computes
(`umacAe`): the calls that `encrypt` and `decrypt` make on a new context give just these
(`aeMessage_new`), so a packet that is made by one run of the code is taken back by another one
(`encrypt_calls`).
-/

namespace CodeSLoop.CryptPkt

open Umac

/-- What `sec/umac.c` computes. -/
def umacAe : UmacAe where
  stream key nonce := keystream (keysOf key).prfKey nonce
  mac key nonce header text := aeTag (keysOf key) nonce header text []
  length_mac _ _ _ _ := length_umacValue _ _ _

/-- The calls of `encrypt` and of `decrypt`: a new context, the header, the text, the tag. -/
def packetCalls (decrypt : Bool) (key salt text stale : List UInt8) : List UInt8 × List UInt8 :=
  (aeMessage decrypt ⟨salt, text, [], salt⟩ (umacAeSetKey key stale)).1

variable {useExc useExc' : Bool} {env env' : CryptEnv} {salt key data header text footer : List UInt8}

theorem fits_packet (hsalt : salt.length = 8) (htext : text.length ≤ 65204) :
    (AeMsg.mk salt text [] salt).Fits := by
  refine ⟨?_, hsalt⟩
  simp only [length_pad32, hsalt, List.length_nil]
  omega

/-- **The calls on a new context** give the text, encrypted or decrypted, and the tag of what is
    encrypted, whatever was in the memory of the context. -/
theorem aeMessage_new (key stale : List UInt8) (hsalt : salt.length = 8) (htext : text.length ≤ 65204) :
    packetCalls false key salt text stale =
        (umacAe.crypt key salt text, umacAe.mac key salt salt (umacAe.crypt key salt text)) ∧
      packetCalls true key salt text stale = (umacAe.crypt key salt text, umacAe.mac key salt salt text) := by
  have hnew := umacAeSetKey_holds key stale
  have hfits := fits_packet hsalt htext
  exact ⟨(aeMessage_eq hnew false hfits).1, (aeMessage_eq hnew true hfits).1⟩

/-- **What `encrypt` makes is what the calls give**, and `decrypt` looks at what they give for it. -/
theorem encrypt_calls (hu : env.umac = umacAe)
    (h : encrypt useExc env salt key data = .ok (header, text, footer)) (stale : List UInt8) :
    ∃ r, env.rand = some r ∧ header = salt ∧
      packetCalls false (umacKey env key) salt (r ++ data) stale = (text, footer) ∧
      packetCalls true (umacKey env key) header text stale = (r ++ data, footer) := by
  obtain ⟨hsalt, -, hdata, -, r, hr, rfl, htext, hfooter⟩ := encrypt_eq_ok.mp h
  have hlen := (length_encrypt h).2.1
  have hr4 := env.length_rand r hr
  rw [hu] at htext hfooter
  refine ⟨r, hr, rfl, ?_, ?_⟩
  · rw [(aeMessage_new _ stale hsalt (by rw [List.length_append]; omega)).1, ← htext, ← hfooter]
  · rw [(aeMessage_new _ stale hsalt (by omega)).2, ← hfooter, htext, UmacAe.crypt_crypt]

/-- A call with this cipher. -/
def umacEnv : CryptEnv where
  umac := umacAe
  ctx := true
  stray := []
  rand := some [5, 6, 7, 8]
  length_rand r hr := by
    rw [← Option.some.inj hr]
    rfl

/-- A packet of three bytes. -/
theorem encrypt_calls_three :
    ∃ text footer, ∀ stale,
      packetCalls false (List.replicate 16 7) (List.replicate 8 5) [5, 6, 7, 8, 9, 9, 9] stale = (text, footer) ∧
        packetCalls true (List.replicate 16 7) (List.replicate 8 5) text stale =
          ([5, 6, 7, 8, 9, 9, 9], footer) := by
  obtain ⟨text, footer, hok⟩ : ∃ text footer,
      encrypt true umacEnv (List.replicate 8 5) (List.replicate 16 7) [9, 9, 9] =
        .ok (List.replicate 8 5, text, footer) :=
    ⟨_, _, encrypt_eq_ok.mpr ⟨rfl, by decide, by decide, rfl, _, rfl, rfl, rfl, rfl⟩⟩
  refine ⟨text, footer, fun stale => ?_⟩
  obtain ⟨r, hr, -, henc, hdec⟩ := encrypt_calls rfl hok stale
  rw [← Option.some.inj hr] at henc hdec
  exact ⟨henc, hdec⟩

end CodeSLoop.CryptPkt
