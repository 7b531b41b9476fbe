import CodeSLoop.Lib.CfbErrors
import CodeSLoop.Sec.CryptBuf

/-!
# What the MAC of `crypt_buf` checks (`sec/crypt_buf.cc`)

The MAC is the digest of the header's eight bytes, encrypted behind the text. So it depends on the
text by what is in the register then, and cipher feedback forgets: `crypt_buf.hh` is wrong to say
that this is sufficient to ensure message integrity. A body that was altered before its last eight
bytes comes to the sender's MAC, unless the block function shows it (`detects_iff`).

In the test of an altered message the MACs differ for another reason: the sender calls `finalize` a
second time.
-/

namespace CodeSLoop

namespace CryptBuf

variable {ssl : Ssl} {s e d : CryptBuf} {key body body' mac bs : List UInt8} {header r : Header}

/-- What a sender can have encrypted, with the MAC it has then. -/
def Sends (ssl : Ssl) (e : CryptBuf) (key : List UInt8) (header : Header) (body mac : List UInt8) :
    Prop :=
  ∃ buf rndata rand e₁ ps,
    e.initCrypt ssl (some key) (some buf) true rndata rand = (e₁, some header) ∧
      (e₁.addAll ssl true ps).2.flatten = body ∧ ((e₁.addAll ssl true ps).1.finalize ssl).2 = mac

/-- The MAC when a message is decrypted in pieces, if `init_crypt` takes the key. -/
def macOf (ssl : Ssl) (d : CryptBuf) (key : List UInt8) (header : Header) (cs : List (List UInt8)) :
    Option (List UInt8) :=
  match d.initCrypt ssl (some key) (some header) false none none with
  | (d₁, some _) => some ((d₁.addAll ssl false cs).1.finalize ssl).2
  | (_, none) => none

/-- In whatever pieces the body comes, there is a MAC, and it is another one. -/
def Detects (ssl : Ssl) (d : CryptBuf) (key : List UInt8) (header : Header) (body mac : List UInt8) :
    Prop :=
  ∀ cs, cs.flatten = body → ∃ mac', d.macOf ssl key header cs = some mac' ∧ mac' ≠ mac

/-! ## Sender and receiver -/

/-- The sender after `init_crypt`. -/
def started (ssl : Ssl) (e : CryptBuf) (key : List UInt8) (r : Header) : CryptBuf × Header :=
  ((e.setKey ssl (cut key)).digest ssl r).cfb64Header ssl true r

theorem started_of_sends (h12 : 12 ≤ key.length) (h59 : key.length ≤ 59)
    (h : Sends ssl e key header body mac) : ∃ r ps, header = (e.started ssl key r).2 ∧
      ((e.started ssl key r).1.cfb64 ssl true ps).2 = body ∧
        (((e.started ssl key r).1.cfb64 ssl true ps).1.finalize ssl).2 = mac := by
  obtain ⟨buf, rndata, rand, e₁, ps, hinit, hbody, hmac⟩ := h
  have hr : ∃ r, rndata.or rand = some r := by
    cases hor : rndata.or rand with
    | some r => exact ⟨r, rfl⟩
    | none =>
      unfold initCrypt at hinit
      dsimp only at hinit
      rw [if_neg (by omega), if_neg (by omega), if_pos rfl, hor] at hinit
      cases hinit
  obtain ⟨r, hr⟩ := hr
  have hstart : e.initCrypt ssl (some key) (some buf) true rndata rand =
      ((e.started ssl key r).1, some (e.started ssl key r).2) := by
    unfold initCrypt
    dsimp only
    rw [if_neg (by omega), if_neg (by omega), if_pos rfl, hr]
    rfl
  obtain ⟨he₁, hheader⟩ := Prod.mk.inj (hinit.symm.trans hstart)
  subst he₁
  obtain ⟨hstate, hout⟩ := @addAll_eq ssl true (e.started ssl key r).1 ps
  rw [hout] at hbody
  rw [hstate] at hmac
  exact ⟨r, ps.flatten, Option.some.inj hheader, hbody, hmac⟩

/-- The receiver goes on from the same register. -/
theorem macOf_started (he : e.Clean) (hd : d.Clean) (hnum : e.cfb.num = d.cfb.num)
    (h12 : 12 ≤ key.length) (h59 : key.length ≤ 59) (hheader : header = (e.started ssl key r).2)
    {cs : List (List UInt8)} : d.macOf ssl key header cs =
      some (((e.started ssl key r).1.cfb64 ssl false cs.flatten).1.finalize ssl).2 := by
  have hstart := @digest_decrypt ssl e d r he hd hnum (cut key) header hheader
  rw [macOf, initCrypt_decrypt h12 h59]
  dsimp only
  rw [hstart, (@addAll_eq ssl false _ cs).1]
  rfl

theorem combine_cancel (k : Option (List UInt8)) (b k₁ k₂ : UInt8)
    (h : (ssl.cipher k).combine b k₁ = (ssl.cipher k).combine b k₂) : k₁ = k₂ := by
  change b ^^^ k₁ = b ^^^ k₂ at h
  rw [UInt8.xor_comm b, UInt8.xor_comm b] at h
  exact xor_right_cancel h

/-- Forty bytes show the whole register. -/
theorem finalize_eq_iff (hinj : Function.Injective (ssl.block s.key)) {s' : CryptBuf}
    (hkey : s.key = s'.key) (htail : s.tail = s'.tail) (hnum : s.cfb.num = s'.cfb.num) :
    (s.finalize ssl).2 = (s'.finalize ssl).2 ↔ s.cfb = s'.cfb := by
  have hmac := @Cfb.encrypt_eq_iff 8 UInt8 _ (ssl.cipher s.key) s.cfb s'.cfb (List.ofFn s.tail) hinj
    (combine_cancel s.key) hnum (by simp)
  rw [finalize, finalize, ← htail, cfb64, cfb64, ← hkey]
  exact hmac

/-- The register behind the header, and behind the body then. -/
theorem cfb_started (hheader : header = (e.started ssl key r).2) (bs : List UInt8) :
    Cfb.absorb (ssl.cipher (some (cut key))) (e.started ssl key r).1.cfb bs =
      Cfb.absorb (ssl.cipher (some (cut key))) (e.setKey ssl (cut key)).cfb (header.val ++ bs) := by
  have hcfb := @cfb_encrypt ssl ((e.setKey ssl (cut key)).digest ssl r) r.val
  rw [Cfb.absorb_append, hheader]
  exact congrArg (Cfb.absorb _ · bs) hcfb

theorem detects_of_place (he : e.Clean) (hd : d.Clean) (hnum : e.cfb.num = d.cfb.num)
    (hinj : ∀ k, Function.Injective (ssl.block k)) (h12 : 12 ≤ key.length) (h59 : key.length ≤ 59)
    (h : Sends ssl e key header body mac) (hlen : body.length = body'.length) (hne : body ≠ body') :
    Detects ssl d key header body' mac ↔ ¬ Cfb.Overlooked (ssl.cipher (some (cut key)))
      ((e.cfb.num.val + (header.val ++ body).length) % 8) (header.val ++ body)
      (header.val ++ body') := by
  obtain ⟨r, text, hheader, hbody, hmac⟩ := started_of_sends h12 h59 h
  have hoverlooked := @Cfb.absorb_eq_iff 8 UInt8 _ (ssl.cipher (some (cut key)))
    (e.setKey ssl (cut key)).cfb body body' (hinj _) header.val (Nat.le_of_eq header.property.symm)
    hlen hne
  rw [← cfb_started hheader, ← cfb_started hheader] at hoverlooked
  refine Iff.trans ?_ (not_congr hoverlooked)
  -- The two objects before `finalize`.
  have hsent : ((e.started ssl key r).1.cfb64 ssl true text).1.cfb =
      Cfb.absorb (ssl.cipher (some (cut key))) (e.started ssl key r).1.cfb body := by
    rw [← hbody]
    exact cfb_encrypt
  have hreceived : ((e.started ssl key r).1.cfb64 ssl false body').1.cfb =
      Cfb.absorb (ssl.cipher (some (cut key))) (e.started ssl key r).1.cfb body' := cfb_decrypt
  have hmacs := @finalize_eq_iff ssl ((e.started ssl key r).1.cfb64 ssl true text).1 (hinj _)
    ((e.started ssl key r).1.cfb64 ssl false body').1 rfl rfl (by
      rw [hsent, hreceived]
      exact Cfb.num_absorb_congr rfl hlen)
  rw [hmac, hsent, hreceived] at hmacs
  constructor
  · intro hdetects heq
    obtain ⟨mac', hmac', hdiffers⟩ := hdetects [body'] (by simp)
    rw [macOf_started he hd hnum h12 h59 hheader, List.flatten_singleton] at hmac'
    exact hdiffers ((Option.some.inj hmac').symm.trans (hmacs.mpr heq).symm)
  · intro hdiffers cs hcs
    refine ⟨_, macOf_started he hd hnum h12 h59 hheader, ?_⟩
    rw [hcs]
    exact fun heq => hdiffers (hmacs.mp heq.symm)

/-- **A body that was altered is detected** exactly when cipher feedback does not overlook that: for
    every key that is taken, every header, and every body the sender can have. -/
theorem detects_iff (hinj : ∀ k, Function.Injective (ssl.block k)) {before before' : List Call}
    (hmod : added before % 8 = added before' % 8) (h12 : 12 ≤ key.length) (h59 : key.length ≤ 59)
    (h : Sends ssl (used ssl before) key header body mac) (hlen : body.length = body'.length)
    (hne : body ≠ body') : Detects ssl (used ssl before') key header body' mac ↔
      ¬ Cfb.Overlooked (ssl.cipher (some (cut key))) ((added before + body.length) % 8)
        (header.val ++ body) (header.val ++ body') := by
  have hplace : ((used ssl before).cfb.num.val + (header.val ++ body).length) % 8 =
      (added before + body.length) % 8 := by
    rw [(used_spec before).2, List.length_append, header.property]
    omega
  have hiff := detects_of_place (used_spec before).1 (used_spec before').1 (num_used_iff.mpr hmod)
    hinj h12 h59 h hlen hne
  rwa [hplace] at hiff

/-! ## A body of sixteen bytes -/

/-- With `still`, the header is the initialisation vector with a bit changed, and two blocks of
    the same bytes go to that again. -/
def sentHeader : Header := ⟨[1, 0, 3, 2, 5, 4, 7, 6], rfl⟩

def sentBody : List UInt8 := [4, 5, 6, 7, 0, 1, 2, 3, 1, 0, 3, 2, 5, 4, 7, 6]

def sentMac : List UInt8 :=
  (((used still []).started still sampleKey sampleHeader).1.addAll still true
    [List.replicate 16 5]).1.finalize still |>.2

theorem still_injective (k : Option (List UInt8)) : Function.Injective (still.block k) :=
  fun _ _ h => h

theorem sends_sent : Sends still (used still []) sampleKey sentHeader sentBody sentMac := by
  have hheader : ((used still []).started still sampleKey sampleHeader).2 = sentHeader :=
    Subtype.ext (by decide +kernel)
  refine ⟨sampleHeader, some sampleHeader, none,
    ((used still []).started still sampleKey sampleHeader).1, [List.replicate 16 5], ?_, ?_, rfl⟩
  · rw [← hheader]
    exact initCrypt_encrypt (by decide) (by decide)
  · decide +kernel

/-- The last byte is altered. -/
theorem detects_iff_last : Detects still (used still []) sampleKey sentHeader
    (sentBody.take 15 ++ [9]) sentMac := by
  refine (detects_iff still_injective rfl (by decide) (by decide) sends_sent (by decide)
    (by decide)).mpr ?_
  rintro ⟨p, p', b, b', l, hl, hz, hz', hblock⟩
  have hnil : l = [] := List.eq_nil_of_length_eq_zero hl
  have hb : b = b' := funext fun i => hblock i (Nat.zero_le _)
  subst hnil hb
  have hne : List.ofFn b ++ [] ≠ [] := by simp
  have hlast := congrArg List.getLast? hz
  have hlast' := congrArg List.getLast? hz'
  rw [List.getLast?_append_of_ne_nil _ hne] at hlast hlast'
  exact absurd (hlast.trans hlast'.symm) (by decide)

/-- The first byte is altered, and the MAC is the sender's. -/
theorem detects_fails : ¬ Detects still (used still []) sampleKey sentHeader
    (9 :: sentBody.tail) sentMac := by
  have hiff := @detects_of_place still (used still []) (used still []) sampleKey sentBody
    (9 :: sentBody.tail) sentMac sentHeader (used_spec []).1 (used_spec []).1 rfl still_injective
    (by decide) (by decide) sends_sent (by decide) (by decide)
  rw [hiff, not_not]
  refine ⟨sentHeader.val ++ sentBody.take 8, sentHeader.val ++ 9 :: (sentBody.take 8).tail,
    fun i => sentHeader.val.get i, fun i => sentHeader.val.get i, [], rfl, ?_, ?_, fun i hi => rfl⟩
  · decide
  · decide

end CryptBuf

end CodeSLoop
