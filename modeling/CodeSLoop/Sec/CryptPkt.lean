import CodeSLoop.Lib.Calls

/-!
# `crypt_pkt` — encrypted packets (`sec/crypt_pkt.hh`, `sec/crypt_pkt.cc`)

`encrypt` puts four random bytes before the data and encrypts both with AES in counter mode,
the salt being the nonce; the salt is the header of the packet, and the footer is the UMAC tag of
header and text. `decrypt` compares the tag, and leaves the four bytes away.

AES and UMAC themselves (`sec/umac.c`) are a parameter, `UmacAe`. The copies that align the
buffers are left out, but for one thing about them: `umac_ae_set_key` takes 16 bytes, and when
the key has fewer, the others are what is found behind its copy.
-/

namespace CodeSLoop

open Calls

/-- The reasons of the exceptions thrown here (`sec::exc::rs_…`). -/
inductive SecExc
  | rsSaltSize | rsNullKey | rsTooBig | rsRandFailed | rsHeaderSize | rsFooterSize | rsNullData
  | rsCksum
deriving DecidableEq, Repr

/-- What `umac_ae` computes, from a key and a nonce: the bytes that a text is combined with, and
    the tag of a header and a text. -/
structure UmacAe where
  stream : List UInt8 → List UInt8 → Nat → UInt8
  mac : List UInt8 → List UInt8 → List UInt8 → List UInt8 → List UInt8
  length_mac : ∀ key nonce header text, (mac key nonce header text).length = 8

namespace UmacAe

/-- `UMAC_KEY_LEN`. -/
def keyLen : Nat := 16

/-- `umac_ae_crypt`: how text is encrypted, and decrypted. -/
def crypt (u : UmacAe) (key nonce text : List UInt8) : List UInt8 :=
  text.mapIdx fun i b => b ^^^ u.stream key nonce i

variable {u : UmacAe} {key nonce text : List UInt8}

@[simp] theorem length_crypt : (u.crypt key nonce text).length = text.length :=
  List.length_mapIdx

/-- **Decryption inverts encryption.** -/
@[simp] theorem crypt_crypt : u.crypt key nonce (u.crypt key nonce text) = text := by
  unfold crypt
  rw [List.mapIdx_mapIdx]
  refine List.ext_getElem (by simp) fun i _ _ => ?_
  rw [List.getElem_mapIdx, Function.comp_apply, UInt8.xor_assoc, UInt8.xor_self, UInt8.xor_zero]

end UmacAe

/-- What a call of `crypt_pkt` meets: the cipher, whether `malloc` has room for its state, what
    is found behind the copy of the key, and the four bytes of `RAND_bytes` or
    `RAND_pseudo_bytes`, if one of them succeeds. -/
structure CryptEnv where
  umac : UmacAe
  ctx : Bool
  stray : List UInt8
  rand : Option (List UInt8)
  length_rand : ∀ r ∈ rand, r.length = 4

namespace CryptPkt

def headerLen : Nat := 8

def footerLen : Nat := 8

/-- The bytes that `umac_ae_set_key` takes. -/
def umacKey (env : CryptEnv) (key : List UInt8) : List UInt8 :=
  (key ++ env.stray).take UmacAe.keyLen

/-- `encrypt`: the header, the text and the footer. -/
def encrypt (useExc : Bool) (env : CryptEnv) (salt key data : List UInt8) :
    Outcome SecExc (List UInt8 × List UInt8 × List UInt8) := do
  refuse useExc (salt.length ≠ 8) .rsSaltSize
  refuse useExc (key.length = 0) .rsNullKey
  refuse useExc (data.length > 65200) .rsTooBig
  if env.ctx = false then .error .no
  else
    match env.rand with
    | none => thr useExc .rsRandFailed
    | some r =>
      let k := umacKey env key
      let text := env.umac.crypt k salt (r ++ data)
      .ok (salt, text, env.umac.mac k salt salt text)

/-- `decrypt`: the data. -/
def decrypt (useExc : Bool) (env : CryptEnv) (key header data footer : List UInt8) :
    Outcome SecExc (List UInt8) := do
  refuse useExc (header.length ≠ 8) .rsHeaderSize
  refuse useExc (footer.length ≠ 8) .rsFooterSize
  refuse useExc (key.length = 0) .rsNullKey
  refuse useExc (data.length > 65200) .rsTooBig
  refuse useExc (data.length < 4) .rsNullData
  if env.ctx = false then .error .no
  else
    let k := umacKey env key
    if footer = env.umac.mac k header header data then
      .ok (if data.length > 4 then (env.umac.crypt k header data).drop 4 else [])
    else thr useExc .rsCksum

/-! ## What comes out -/

variable {useExc useExc' : Bool} {env env' : CryptEnv}
  {salt key data header text footer : List UInt8}

/-- The cases in which `encrypt` succeeds. -/
theorem encrypt_eq_ok : encrypt useExc env salt key data = .ok (header, text, footer) ↔
    salt.length = 8 ∧ key ≠ [] ∧ data.length ≤ 65200 ∧ env.ctx = true ∧
      ∃ r, env.rand = some r ∧ header = salt ∧
        text = env.umac.crypt (umacKey env key) salt (r ++ data) ∧
        footer = env.umac.mac (umacKey env key) salt salt text := by
  constructor
  · intro h
    unfold encrypt at h
    simp only [bind_eq_ok] at h
    obtain ⟨_, h₁, _, h₂, _, h₃, h⟩ := h
    have h₁ := not_of_refuse h₁
    have h₂ := not_of_refuse h₂
    have h₃ := not_of_refuse h₃
    by_cases hctx : env.ctx = false
    · rw [if_pos hctx] at h
      cases h
    · rw [if_neg hctx] at h
      cases hr : env.rand with
      | none =>
        rw [hr] at h
        exact absurd h thr_ne_ok
      | some r =>
        rw [hr] at h
        cases h
        refine ⟨Decidable.not_not.mp h₁, ?_, Nat.le_of_not_lt h₃, by simpa using hctx, r, rfl,
          rfl, rfl, rfl⟩
        rintro rfl
        exact h₂ rfl
  · rintro ⟨h₁, h₂, h₃, hctx, r, hr, rfl, rfl, rfl⟩
    have hkey : ¬ key.length = 0 := fun h => h₂ (List.eq_nil_of_length_eq_zero h)
    unfold encrypt
    rw [bind_ok (refuse_ok (not_not_intro h₁)), bind_ok (refuse_ok hkey),
      bind_ok (refuse_ok (Nat.not_lt_of_le h₃)), if_neg (by simp [hctx]), hr]

theorem length_encrypt (h : encrypt useExc env salt key data = .ok (header, text, footer)) :
    header.length = headerLen ∧ text.length = data.length + 4 ∧ footer.length = footerLen := by
  obtain ⟨h₁, -, -, -, r, hr, rfl, rfl, rfl⟩ := encrypt_eq_ok.mp h
  refine ⟨h₁, ?_, env.umac.length_mac ..⟩
  rw [UmacAe.length_crypt, List.length_append, env.length_rand r hr, Nat.add_comm]

/-- What `decrypt` makes of a header, a footer and a key that have their sizes. -/
theorem decrypt_eq (hhead : header.length = 8) (hfoot : footer.length = 8)
    (hkey : ¬ key.length = 0) : decrypt useExc env key header data footer =
      if data.length > 65200 then thr useExc .rsTooBig
      else if data.length < 4 then thr useExc .rsNullData
      else if env.ctx = false then .error .no
      else if footer = env.umac.mac (umacKey env key) header header data then
        .ok (if data.length > 4 then
          (env.umac.crypt (umacKey env key) header data).drop 4 else [])
      else thr useExc .rsCksum := by
  unfold decrypt
  rw [bind_ok (refuse_ok (not_not_intro hhead)), bind_ok (refuse_ok (not_not_intro hfoot)),
    bind_ok (refuse_ok hkey)]
  by_cases hbig : data.length > 65200
  · rw [if_pos hbig, refuse_error hbig]
    rfl
  · rw [if_neg hbig, bind_ok (refuse_ok hbig)]
    by_cases h4 : data.length < 4
    · rw [if_pos h4, refuse_error h4]
      rfl
    · rw [if_neg h4, bind_ok (refuse_ok h4)]

/-- The text has room for the random bytes and is not too big; and the tag is right, unless
    there is no memory to look at it. -/
def Accepts (env : CryptEnv) (key header data footer : List UInt8) : Prop :=
  4 ≤ data.length ∧ data.length ≤ 65200 ∧
    (env.ctx = true → footer = env.umac.mac (umacKey env key) header header data)

/-- What is not accepted is refused; what is, may still fail for lack of memory. -/
theorem decrypt_ends (hhead : header.length = 8) (hfoot : footer.length = 8)
    (hkey : ¬ key.length = 0) :
    (∃ e, decrypt useExc env key header data footer = thr useExc e) ∧
        ¬ Accepts env key header data footer ∨
      (decrypt useExc env key header data footer = .error .no ∨
        ∃ d, decrypt useExc env key header data footer = .ok d) ∧
        Accepts env key header data footer := by
  rw [decrypt_eq hhead hfoot hkey]
  by_cases hbig : data.length > 65200
  · rw [if_pos hbig]
    exact Or.inl ⟨⟨_, rfl⟩, fun h => absurd h.2.1 (Nat.not_le_of_lt hbig)⟩
  by_cases hnull : data.length < 4
  · rw [if_neg hbig, if_pos hnull]
    exact Or.inl ⟨⟨_, rfl⟩, fun h => absurd h.1 (Nat.not_le_of_lt hnull)⟩
  rw [if_neg hbig, if_neg hnull]
  by_cases hctx : env.ctx = false
  · rw [if_pos hctx]
    refine Or.inr ⟨Or.inl rfl, Nat.le_of_not_lt hnull, Nat.le_of_not_lt hbig, fun h => ?_⟩
    rw [hctx] at h
    cases h
  rw [if_neg hctx]
  by_cases htag : footer = env.umac.mac (umacKey env key) header header data
  · rw [if_pos htag]
    exact Or.inr ⟨Or.inr ⟨_, rfl⟩, Nat.le_of_not_lt hnull, Nat.le_of_not_lt hbig, fun _ => htag⟩
  · rw [if_neg htag]
    exact Or.inl ⟨⟨_, rfl⟩, fun h => htag (h.2.2 (Bool.eq_true_of_not_eq_false hctx))⟩

/-- **Decryption inverts encryption**, with the same cipher and the same sixteen bytes of key, of
    data that with the random bytes is not too big for it. -/
theorem decrypt_encrypt (h : encrypt useExc env salt key data = .ok (header, text, footer))
    (hu : env'.umac = env.umac) (hk : umacKey env' key = umacKey env key)
    (hctx : env'.ctx = true) (hlen : data.length + 4 ≤ 65200) :
    decrypt useExc' env' key header text footer = .ok data := by
  obtain ⟨(hhead : header.length = 8), htext, (hfoot : footer.length = 8)⟩ := length_encrypt h
  obtain ⟨-, hkey, -, -, r, hr, rfl, ht, hf⟩ := encrypt_eq_ok.mp h
  have hkey : ¬ key.length = 0 := fun h => hkey (List.eq_nil_of_length_eq_zero h)
  have hr4 := env.length_rand r hr
  rw [decrypt_eq hhead hfoot hkey, if_neg (by omega), if_neg (by omega), if_neg (by simp [hctx]),
    hu, hk, if_pos hf, ht, UmacAe.crypt_crypt, List.drop_left' hr4]
  by_cases h4 : (env.umac.crypt (umacKey env key) header (r ++ data)).length > 4
  · rw [if_pos h4]
  · rw [if_neg h4]
    rw [ht] at htext
    rw [List.eq_nil_of_length_eq_zero (show data.length = 0 by omega)]

/-! ## The round trip -/

/-- What `encrypt` looks at before it encrypts. -/
def Accepted (salt key data : List UInt8) : Prop :=
  salt.length = 8 ∧ key ≠ [] ∧ data.length ≤ 65200

/-- With the same cipher, and memory for its state, whatever `encrypt` makes `decrypt` takes back,
    whatever else is in the memory of either. -/
def RoundTrips (useExc useExc' : Bool) (salt key data : List UInt8) : Prop :=
  ∀ env env' header text footer, env'.umac = env.umac → env'.ctx = true →
    encrypt useExc env salt key data = .ok (header, text, footer) →
      decrypt useExc' env' key header text footer = .ok data

/-- A cipher that leaves the text as it is, and takes the last byte of the key for a tag. -/
def lastByte : UmacAe where
  stream _ _ _ := 0
  mac key _ _ _ := List.replicate 8 (key.getD 15 0)
  length_mac _ _ _ _ := List.length_replicate

/-- A call that goes through, with all the same bytes behind the key. -/
def strayEnv (b : UInt8) : CryptEnv where
  umac := lastByte
  ctx := true
  stray := List.replicate 16 b
  rand := some [0, 0, 0, 0]
  length_rand r hr := by
    rw [← Option.some.inj hr]
    rfl

theorem encrypt_strayEnv (h : Accepted salt key data) (b : UInt8) : ∃ header text footer,
    encrypt useExc (strayEnv b) salt key data = .ok (header, text, footer) :=
  ⟨_, _, _, encrypt_eq_ok.mpr ⟨h.1, h.2.1, h.2.2, rfl, _, rfl, rfl, rfl, rfl⟩⟩

/-- The random bytes are counted by `decrypt`, which has the same limit. -/
theorem RoundTrips.length_data (h : RoundTrips useExc useExc' salt key data)
    (hacc : Accepted salt key data) : data.length ≤ 65196 := by
  obtain ⟨header, text, footer, henc⟩ := @encrypt_strayEnv useExc salt key data hacc 0
  obtain ⟨hhead, htext, hfoot⟩ := length_encrypt henc
  have hdec := h _ _ _ _ _ rfl rfl henc
  have hkey : ¬ key.length = 0 := fun h0 => hacc.2.1 (List.eq_nil_of_length_eq_zero h0)
  rw [decrypt_eq hhead hfoot hkey] at hdec
  by_cases hbig : text.length > 65200
  · rw [if_pos hbig] at hdec
    exact absurd hdec thr_ne_ok
  · omega

/-- Behind a shorter key the two sides may find different bytes. -/
theorem RoundTrips.length_key (h : RoundTrips useExc useExc' salt key data)
    (hacc : Accepted salt key data) : 16 ≤ key.length := by
  by_contra hshort
  obtain ⟨header, text, footer, henc⟩ := @encrypt_strayEnv useExc salt key data hacc 0
  obtain ⟨hhead, -, hfoot⟩ := length_encrypt henc
  obtain ⟨-, -, -, -, r, -, -, -, htag⟩ := encrypt_eq_ok.mp henc
  have hdec := h (strayEnv 0) (strayEnv 1) _ _ _ rfl rfl henc
  have hkey : ¬ key.length = 0 := fun h0 => hacc.2.1 (List.eq_nil_of_length_eq_zero h0)
  have hlast (b : UInt8) : (umacKey (strayEnv b) key).getD 15 0 = b := by
    have hlt : 15 - key.length < 16 := by omega
    rw [umacKey, UmacAe.keyLen, List.getD_eq_getElem?_getD, List.getElem?_take_of_lt (by decide),
      List.getElem?_append_right (by omega), strayEnv, List.getElem?_replicate, if_pos hlt]
    rfl
  have hends : _ ∨ _ ∧ Accepts (strayEnv 1) key header text footer :=
    @decrypt_ends useExc' _ _ _ _ _ hhead hfoot hkey
  rcases hends with ⟨⟨e, he⟩, -⟩ | ⟨-, -, -, htag'⟩
  · rw [he] at hdec
    exact absurd hdec thr_ne_ok
  · have heq := htag.symm.trans (htag' rfl)
    change List.replicate 8 _ = List.replicate 8 _ at heq
    rw [hlast, hlast] at heq
    cases heq

theorem umacKey_eq_take (h : 16 ≤ key.length) : umacKey env key = key.take 16 :=
  List.take_append_of_le_length h

/-- **Which packets come back**: of what `encrypt` accepts, those with a key of at least 16 bytes,
    and data to which four more bytes can be added. -/
theorem decryption_restores_iff : RoundTrips useExc useExc' salt key data ↔
    (Accepted salt key data → 16 ≤ key.length ∧ data.length ≤ 65196) := by
  constructor
  · exact fun h hacc => ⟨h.length_key hacc, h.length_data hacc⟩
  · intro h env env' header text footer hu hctx henc
    obtain ⟨hsalt, hkey, hlen, -⟩ := encrypt_eq_ok.mp henc
    obtain ⟨hkey16, hdata⟩ := h ⟨hsalt, hkey, hlen⟩
    refine decrypt_encrypt henc hu ?_ hctx (by omega)
    rw [umacKey_eq_take hkey16, umacKey_eq_take hkey16]

/-- As much data as `encrypt` accepts. -/
theorem decryption_restores_fails :
    let data := List.replicate 65200 0
    Accepted (List.replicate 8 0) (List.replicate 16 0) data ∧
      ¬ RoundTrips true true (List.replicate 8 0) (List.replicate 16 0) data := by
  have hlen : (List.replicate 65200 (0 : UInt8)).length = 65200 := List.length_replicate
  have hacc : Accepted (List.replicate 8 0) (List.replicate 16 0) (List.replicate 65200 0) :=
    ⟨rfl, List.cons_ne_nil _ _, Nat.le_of_eq hlen⟩
  refine ⟨hacc, fun h => ?_⟩
  have hdata := h.length_data hacc
  rw [hlen] at hdata
  omega

end CryptPkt

end CodeSLoop
