import CodeSLoop.Lib.Bytes
import CodeSLoop.Sec.CryptPkt
import CodeSLoop.Sec.Umac

/-!
# Authenticated encryption with UMAC (`sec/umac_ae.h`, `sec/umac.c`)

Text is encrypted with AES in counter mode, under the key that the nonces of the tags are encrypted with. A
tag is made of the header, the encrypted text and the footer, each padded to a multiple of 32 bytes, and
of a last block that has their lengths.

A context may be used for any number of messages, in either direction, and a message may be given up: what
comes out is what the calls say (`session_eq`).
-/

namespace CodeSLoop.Umac

/-! ## The code -/

/-- `umac_ae_ctx_t`. -/
structure UmacAeCtx where
  hbytes : Nat
  tbytes : Nat
  fbytes : Nat
  nonce : List UInt8
  umacCtx : UmacCtx

/-- `umac_ae_set_key`; the nonce is what was there before. -/
def umacAeSetKey (userKey stale : List UInt8) : UmacAeCtx := ⟨0, 0, 0, stale, umacNew userKey⟩

/-- `umac_ae_add`. -/
def umacAeAdd (d : List UInt8) (ctx : UmacAeCtx) : UmacAeCtx :=
  let zeros := (32 - d.length % 32) % 32
  let remaining := d.length % 32
  let initial := d.length / 32 * 32
  let ctx :=
    if initial ≠ 0 then { ctx with umacCtx := umacUpdate ctx.umacCtx (d.take initial) } else ctx
  if remaining ≠ 0 then
    { ctx with umacCtx := umacUpdate ctx.umacCtx (d.drop initial ++ List.replicate zeros 0) }
  else ctx

def umacAeHeader (h : List UInt8) (ctx : UmacAeCtx) : UmacAeCtx :=
  umacAeAdd h { ctx with hbytes := h.length }

def umacAeFooter (f : List UInt8) (ctx : UmacAeCtx) : UmacAeCtx :=
  umacAeAdd f { ctx with fbytes := f.length }

/-- The input of AES for a block of the text. -/
def ctrInput (n : List UInt8) (ctr : Nat) : List UInt8 :=
  n ++ List.replicate 4 0 ++ storeBig (BitVec.ofNat 32 ctr)

/-- The loop of `umac_ae_crypt` and what comes behind it, when the counter is `ctr`. -/
def ctrLoop (cipherKey : List U32) (n : List UInt8) (ctr : Nat) (it : List UInt8) : List UInt8 :=
  if 16 ≤ it.length then
    xorBytes (it.take 16) (aesEncryption (ctrInput n ctr) cipherKey) ++
      ctrLoop cipherKey n (ctr + 1) (it.drop 16)
  else xorBytes ((aesEncryption (ctrInput n ctr) cipherKey).take it.length) it
termination_by it.length
decreasing_by
  rw [List.length_drop]
  omega

/-- `umac_ae_crypt`: the other text and the context. What is authenticated is the text that is given
    (`umac_ae_decrypt`), or the other one (`umac_ae_encrypt`). -/
def umacAeCrypt (decrypt : Bool) (it n : List UInt8) (ctx : UmacAeCtx) : List UInt8 × UmacAeCtx :=
  let ot := ctrLoop ctx.umacCtx.pdf.prfKey n 1 it
  let at_ := if decrypt then it else ot
  (ot, umacAeAdd at_ { ctx with nonce := n, tbytes := it.length })

/-- A length as it stands in the last block. -/
def lengthBytes (len : Nat) : List UInt8 :=
  let bits := BitVec.ofNat 64 len * 8#64
  storeBig ((bits >>> 32).setWidth 32) ++ storeBig (bits.setWidth 32)

/-- The last block. -/
def lastBlock (hbytes tbytes fbytes : Nat) : List UInt8 :=
  lengthBytes hbytes ++ lengthBytes tbytes ++ lengthBytes fbytes ++ List.replicate 8 0

/-- `umac_ae_finalize`: the tag and the context. -/
def umacAeFinalize (ctx : UmacAeCtx) : List UInt8 × UmacAeCtx :=
  let umacCtx := umacUpdate ctx.umacCtx (lastBlock ctx.hbytes ctx.tbytes ctx.fbytes)
  let (tag, umacCtx) := umacFinal umacCtx ctx.nonce
  (tag, ⟨0, 0, 0, ctx.nonce, umacCtx⟩)

def umacAeAbort (ctx : UmacAeCtx) : UmacAeCtx := ⟨0, 0, 0, ctx.nonce, umacReset ctx.umacCtx⟩

/-! ## What the calls mean -/

/-- Bytes with zeros behind them, up to a multiple of 32. -/
def pad32 (d : List UInt8) : List UInt8 := d ++ List.replicate ((32 - d.length % 32) % 32) 0

/-- The byte `i` of what the text is combined with. -/
def keystream (prfKey : List U32) (n : List UInt8) (i : Nat) : UInt8 :=
  (aesEncryption (ctrInput n (i / 16 + 1)) prfKey).getD (i % 16) 0

/-- The text, encrypted or decrypted. -/
def ctrText (prfKey : List U32) (n text : List UInt8) : List UInt8 :=
  text.mapIdx fun i b => b ^^^ keystream prfKey n i

/-- **What the tag is made of**: header, encrypted text, footer and their lengths. -/
def aeText (h t f : List UInt8) : List UInt8 :=
  pad32 h ++ pad32 t ++ pad32 f ++ lastBlock h.length t.length f.length

/-- **The tag.** -/
def aeTag (k : Keys) (n h t f : List UInt8) : List UInt8 := umacValue k n (aeText h t f)

/-! ## The loop -/

section Loop

variable {k : Keys} {n d text : List UInt8}

/-- A block of the keystream. -/
theorem keystream_block (prfKey : List U32) (n : List UInt8) (m : Nat) {i : Nat} (hi : i < 16) :
    keystream prfKey n (16 * m + i) = (aesEncryption (ctrInput n (m + 1)) prfKey).getD i 0 := by
  have hdiv : (16 * m + i) / 16 = m := by omega
  have hmod : (16 * m + i) % 16 = i := by omega
  rw [keystream, hdiv, hmod]

theorem xorBytes_block (prfKey : List U32) (n : List UInt8) (m : Nat) (h : text.length ≤ 16) :
    xorBytes text (aesEncryption (ctrInput n (m + 1)) prfKey) =
      text.mapIdx fun i b => b ^^^ keystream prfKey n (16 * m + i) := by
  refine List.ext_getElem (by simp [h]) fun i _ hi => ?_
  have hi : i < text.length := by simpa using hi
  have hblock : i < (aesEncryption (ctrInput n (m + 1)) prfKey).length := by
    rw [length_aesEncryption]
    omega
  rw [List.getElem_mapIdx, keystream_block prfKey n m (by omega), List.getD_eq_getElem _ _ hblock]
  simp [xorBytes]

theorem xorBytes_take (a b : List UInt8) : xorBytes (b.take a.length) a = xorBytes a b := by
  refine List.ext_getElem (by simp) fun i h1 h2 => ?_
  simp [xorBytes, UInt8.xor_comm]

/-- The loop combines the text with the keystream from the byte `16 * m` on. -/
theorem ctrLoop_eq (prfKey : List U32) (n : List UInt8) (m : Nat) (text : List UInt8) :
    ctrLoop prfKey n (m + 1) text = text.mapIdx fun i b => b ^^^ keystream prfKey n (16 * m + i) := by
  induction h : text.length using Nat.strong_induction_on generalizing m text with
  | _ len ih =>
    rw [ctrLoop]
    by_cases hlong : 16 ≤ text.length
    · have htake : (text.take 16).length = 16 := by simpa using hlong
      have hdrop : (text.drop 16).length < len := by
        rw [List.length_drop]
        omega
      have hplace (i : Nat) : 16 * m + (i + 16) = 16 * (m + 1) + i := by omega
      have happend := List.take_append_drop 16 text
      rw [if_pos hlong, ih _ hdrop (m + 1) _ rfl, xorBytes_block prfKey n m htake.le]
      conv_rhs => rw [← happend]
      rw [List.mapIdx_append, htake]
      simp only [hplace]
    · rw [if_neg hlong, xorBytes_take, xorBytes_block prfKey n m (by omega)]

/-- **`umac_ae_crypt`** combines the text with the keystream. -/
theorem ctrLoop_one (prfKey : List U32) (n text : List UInt8) :
    ctrLoop prfKey n 1 text = ctrText prfKey n text := by
  have h := ctrLoop_eq prfKey n 0 text
  simpa [ctrText] using h

@[simp] theorem length_ctrText (prfKey : List U32) (n text : List UInt8) :
    (ctrText prfKey n text).length = text.length := by
  simp [ctrText]

/-- The other direction is the same. -/
@[simp] theorem ctrText_ctrText (prfKey : List U32) (n text : List UInt8) :
    ctrText prfKey n (ctrText prfKey n text) = text := by
  refine List.ext_getElem (by simp) fun i _ _ => ?_
  simp only [ctrText, List.getElem_mapIdx, UInt8.xor_assoc, UInt8.xor_self, UInt8.xor_zero]

end Loop

/-! ## Single calls -/

section Calls

variable {k : Keys} {ctx : UmacAeCtx} {d : List UInt8}

theorem length_pad32 (d : List UInt8) : (pad32 d).length = (d.length + 31) / 32 * 32 := by
  rw [pad32, List.length_append, List.length_replicate]
  omega

@[simp] theorem pad32_nil : pad32 [] = [] := rfl

theorem pad32_split (b : List UInt8) :
    pad32 b = b.take (b.length / 32 * 32) ++
      (b.drop (b.length / 32 * 32) ++ List.replicate ((32 - b.length % 32) % 32) 0) := by
  rw [← List.append_assoc, List.take_append_drop, pad32]

/-- **`umac_ae_add`** gives the bytes on, padded. -/
theorem umacAeAdd_holds (ctx : UmacAeCtx) (h : ctx.umacCtx.Holds k d) {b : List UInt8}
    (hlen : d.length + (pad32 b).length < 2 ^ 32) : (umacAeAdd b ctx).umacCtx.Holds k (d ++ pad32 b) := by
  have hpad := length_pad32 b
  have htake : (b.take (b.length / 32 * 32)).length = b.length / 32 * 32 := by
    rw [List.length_take]
    omega
  have hinitial : UmacCtx.Holds
      (if b.length / 32 * 32 ≠ 0 then
        { ctx with umacCtx := umacUpdate ctx.umacCtx (b.take (b.length / 32 * 32)) }
      else ctx).umacCtx k (d ++ b.take (b.length / 32 * 32)) := by
    by_cases hzero : b.length / 32 * 32 = 0
    · rw [if_neg (not_not_intro hzero), hzero, List.take_zero, List.append_nil]
      exact h
    · rw [if_pos hzero]
      exact umacUpdate_holds h (by omega)
  rw [pad32_split, ← List.append_assoc]
  simp only [umacAeAdd]
  by_cases hrest : b.length % 32 = 0
  · have hall : b.length / 32 * 32 = b.length := by omega
    rw [if_neg (not_not_intro hrest), hrest]
    rw [hall] at hinitial ⊢
    simpa using hinitial
  · have hdrop : (b.drop (b.length / 32 * 32) ++ List.replicate ((32 - b.length % 32) % 32) 0).length = 32 := by
      rw [List.length_append, List.length_drop, List.length_replicate]
      omega
    have hfits : (d ++ b.take (b.length / 32 * 32)).length +
        (b.drop (b.length / 32 * 32) ++ List.replicate ((32 - b.length % 32) % 32) 0).length < 2 ^ 32 := by
      rw [hdrop, List.length_append, htake]
      omega
    rw [if_pos hrest]
    exact umacUpdate_holds hinitial hfits

theorem umacAeAdd_frame (b : List UInt8) (ctx : UmacAeCtx) :
    umacAeAdd b ctx = { ctx with umacCtx := (umacAeAdd b ctx).umacCtx } := by
  simp only [umacAeAdd]
  split <;> split <;> rfl

/-- The calls on a context. -/
inductive AeCall
  | header (h : List UInt8)
  | crypt (decrypt : Bool) (it n : List UInt8)
  | footer (f : List UInt8)
  | finalize
  | abort

/-- A call, with the text or the tag that it gives. -/
def UmacAeCtx.call (ctx : UmacAeCtx) : AeCall → Option (List UInt8) × UmacAeCtx
  | .header h => (none, umacAeHeader h ctx)
  | .crypt decrypt it n => ((umacAeCrypt decrypt it n ctx).1, (umacAeCrypt decrypt it n ctx).2)
  | .footer f => (none, umacAeFooter f ctx)
  | .finalize => ((umacAeFinalize ctx).1, (umacAeFinalize ctx).2)
  | .abort => (none, umacAeAbort ctx)

/-- What a context stands for: the bytes that are authenticated so far, the lengths and the nonce. -/
structure AeState where
  hbytes : Nat
  tbytes : Nat
  fbytes : Nat
  nonce : List UInt8
  text : List UInt8

/-- Between two messages. -/
def AeState.idle (nonce : List UInt8) : AeState := ⟨0, 0, 0, nonce, []⟩

/-- What a call means. -/
def aeSpec (k : Keys) (s : AeState) : AeCall → Option (List UInt8) × AeState
  | .header h => (none, { s with hbytes := h.length, text := s.text ++ pad32 h })
  | .crypt decrypt it n =>
    let ot := ctrText k.prfKey n it
    (ot, { s with nonce := n, tbytes := it.length, text := s.text ++ pad32 (if decrypt then it else ot) })
  | .footer f => (none, { s with fbytes := f.length, text := s.text ++ pad32 f })
  | .finalize =>
    (umacValue k s.nonce (s.text ++ lastBlock s.hbytes s.tbytes s.fbytes), .idle s.nonce)
  | .abort => (none, .idle s.nonce)

/-- Nonces have eight bytes, and what is authenticated, with the last block, less than `2 ^ 32`. -/
def AeFits (s : AeState) : AeCall → Prop
  | .header h => s.text.length + (pad32 h).length < 2 ^ 32
  | .crypt _ it n => s.text.length + (pad32 it).length < 2 ^ 32 ∧ n.length = 8
  | .footer f => s.text.length + (pad32 f).length < 2 ^ 32
  | .finalize => s.text.length + 32 < 2 ^ 32 ∧ s.nonce.length = 8
  | .abort => True

instance (s : AeState) : DecidablePred (AeFits s)
  | .header _ => inferInstanceAs (Decidable (_ < _))
  | .crypt _ _ _ => inferInstanceAs (Decidable (_ ∧ _))
  | .footer _ => inferInstanceAs (Decidable (_ < _))
  | .finalize => inferInstanceAs (Decidable (_ ∧ _))
  | .abort => inferInstanceAs (Decidable True)

/-- A context and what it stands for. -/
structure UmacAeCtx.Holds (ctx : UmacAeCtx) (k : Keys) (s : AeState) : Prop where
  hbytes : ctx.hbytes = s.hbytes
  tbytes : ctx.tbytes = s.tbytes
  fbytes : ctx.fbytes = s.fbytes
  nonce : ctx.nonce = s.nonce
  umac : ctx.umacCtx.Holds k s.text

theorem umacAeSetKey_holds (key stale : List UInt8) :
    (umacAeSetKey key stale).Holds (keysOf key) (.idle stale) :=
  ⟨rfl, rfl, rfl, rfl, umacNew_holds key⟩

@[simp] theorem length_storeBig (x : U32) : (storeBig x).length = 4 := rfl

@[simp] theorem length_lengthBytes (n : Nat) : (lengthBytes n).length = 8 := rfl

@[simp] theorem length_lastBlock (a b c : Nat) : (lastBlock a b c).length = 32 := by simp [lastBlock]

theorem length_pad32_ctrText (prfKey : List U32) (n text : List UInt8) (decrypt : Bool) :
    (pad32 (if decrypt then text else ctrText prfKey n text)).length = (pad32 text).length := by
  rw [length_pad32, length_pad32]
  split
  · rfl
  · rw [length_ctrText]

theorem aeCall_eq (ctx : UmacAeCtx) (s : AeState) (c : AeCall) (h : ctx.Holds k s) (hfits : AeFits s c) :
    (ctx.call c).1 = (aeSpec k s c).1 ∧ (ctx.call c).2.Holds k (aeSpec k s c).2 := by
  cases c with
  | header hd =>
    have hadd := umacAeAdd_holds { ctx with hbytes := hd.length } h.umac hfits
    refine ⟨rfl, ?_⟩
    show UmacAeCtx.Holds (umacAeAdd hd { ctx with hbytes := hd.length }) k _
    rw [umacAeAdd_frame]
    exact ⟨rfl, h.tbytes, h.fbytes, h.nonce, hadd⟩
  | crypt decrypt it n =>
    have hot : ctrLoop ctx.umacCtx.pdf.prfKey n 1 it = ctrText k.prfKey n it := by
      rw [ctrLoop_one, h.umac.prfKey]
    have hlen : s.text.length + (pad32 (if decrypt then it else ctrText k.prfKey n it)).length < 2 ^ 32 := by
      rw [length_pad32_ctrText]
      exact hfits.1
    have hadd := umacAeAdd_holds { ctx with nonce := n, tbytes := it.length } h.umac hlen
    have hcrypt : umacAeCrypt decrypt it n ctx = (ctrText k.prfKey n it,
        umacAeAdd (if decrypt then it else ctrText k.prfKey n it) { ctx with nonce := n, tbytes := it.length }) := by
      rw [umacAeCrypt, hot]
    rw [UmacAeCtx.call, aeSpec, hcrypt]
    refine ⟨rfl, ?_⟩
    simp only
    rw [umacAeAdd_frame]
    exact ⟨h.hbytes, rfl, h.fbytes, rfl, hadd⟩
  | footer f =>
    have hadd := umacAeAdd_holds { ctx with fbytes := f.length } h.umac hfits
    refine ⟨rfl, ?_⟩
    show UmacAeCtx.Holds (umacAeAdd f { ctx with fbytes := f.length }) k _
    rw [umacAeAdd_frame]
    exact ⟨h.hbytes, h.tbytes, rfl, h.nonce, hadd⟩
  | finalize =>
    have hupd := @umacUpdate_holds _ _ _ h.umac (lastBlock ctx.hbytes ctx.tbytes ctx.fbytes) hfits.1
    have hnonce : ctx.nonce.length = 8 := h.nonce ▸ hfits.2
    obtain ⟨htag, hnext⟩ := umacFinal_eq hupd hnonce
    rw [h.hbytes, h.tbytes, h.fbytes, h.nonce] at htag
    refine ⟨congrArg some ?_, rfl, rfl, rfl, h.nonce, hnext⟩
    rw [← htag]
    simp only [umacAeFinalize, h.hbytes, h.tbytes, h.fbytes, h.nonce]
  | abort => exact ⟨rfl, rfl, rfl, rfl, h.nonce, umacReset_holds h.umac⟩

/-! ## Messages -/

/-- A message: what is only authenticated, what is encrypted too, and the nonce. -/
structure AeMsg where
  header : List UInt8
  text : List UInt8
  footer : List UInt8
  nonce : List UInt8

/-- The calls for a message, in the sequence that `umac_ae.h` asks for: none for a header or a footer
    that is empty. The text and the tag come out. -/
def aeMessage (decrypt : Bool) (m : AeMsg) (ctx : UmacAeCtx) : (List UInt8 × List UInt8) × UmacAeCtx :=
  let ctx := if m.header ≠ [] then umacAeHeader m.header ctx else ctx
  let (text, ctx) := umacAeCrypt decrypt m.text m.nonce ctx
  let ctx := if m.footer ≠ [] then umacAeFooter m.footer ctx else ctx
  let (tag, ctx) := umacAeFinalize ctx
  ((text, tag), ctx)

/-- What the message is turned into, and its tag. -/
def aeAnswer (k : Keys) (decrypt : Bool) (m : AeMsg) : List UInt8 × List UInt8 :=
  let ot := ctrText k.prfKey m.nonce m.text
  (ot, aeTag k m.nonce m.header (if decrypt then m.text else ot) m.footer)

/-- The message is not too long, and the nonce has eight bytes. -/
def AeMsg.Fits (m : AeMsg) : Prop :=
  (pad32 m.header).length + (pad32 m.text).length + (pad32 m.footer).length + 32 < 2 ^ 32 ∧
    m.nonce.length = 8

instance : DecidablePred AeMsg.Fits := fun _ => inferInstanceAs (Decidable (_ ∧ _))

theorem header_holds {nonce : List UInt8} (h : ctx.Holds k (.idle nonce)) {b : List UInt8}
    (hlen : (pad32 b).length < 2 ^ 32) :
    (if b ≠ [] then umacAeHeader b ctx else ctx).Holds k ⟨b.length, 0, 0, nonce, pad32 b⟩ := by
  by_cases hb : b = []
  · subst hb
    exact h
  · have hfits : AeFits (.idle nonce) (.header b) := by
      show ([] : List UInt8).length + (pad32 b).length < 2 ^ 32
      simpa using hlen
    rw [if_pos hb]
    exact (aeCall_eq ctx (.idle nonce) (.header b) h hfits).2

theorem footer_holds {s : AeState} (h : ctx.Holds k s) (hs : s.fbytes = 0) {b : List UInt8}
    (hlen : s.text.length + (pad32 b).length < 2 ^ 32) :
    (if b ≠ [] then umacAeFooter b ctx else ctx).Holds k
      { s with fbytes := b.length, text := s.text ++ pad32 b } := by
  by_cases hb : b = []
  · subst hb
    rw [if_neg (not_not_intro rfl)]
    refine ⟨h.hbytes, h.tbytes, h.fbytes.trans hs, h.nonce, ?_⟩
    simpa using h.umac
  · rw [if_pos hb]
    exact (aeCall_eq ctx s (.footer b) h hlen).2

/-- **A message** gives the same on every context with the key that is between two messages, and leaves
    it so. -/
theorem aeMessage_eq {nonce : List UInt8} (h : ctx.Holds k (.idle nonce)) (decrypt : Bool) {m : AeMsg}
    (hfits : m.Fits) :
    (aeMessage decrypt m ctx).1 = aeAnswer k decrypt m ∧
      (aeMessage decrypt m ctx).2.Holds k (.idle m.nonce) := by
  obtain ⟨hlen, hnonce⟩ := hfits
  have hhead := header_holds h (b := m.header) (by omega)
  simp only [aeMessage]
  generalize (if m.header ≠ [] then umacAeHeader m.header ctx else ctx) = ctx1 at hhead ⊢
  have hcryptFits : AeFits ⟨m.header.length, 0, 0, nonce, pad32 m.header⟩ (.crypt decrypt m.text m.nonce) :=
    ⟨show (pad32 m.header).length + (pad32 m.text).length < 2 ^ 32 by omega, hnonce⟩
  obtain ⟨htext, hcrypt⟩ := aeCall_eq ctx1 _ _ hhead hcryptFits
  have htext : (umacAeCrypt decrypt m.text m.nonce ctx1).1 = ctrText k.prfKey m.nonce m.text :=
    Option.some.inj htext
  have hat := length_pad32_ctrText k.prfKey m.nonce m.text decrypt
  have hfoot := footer_holds (b := m.footer) hcrypt rfl (by
    show (pad32 m.header ++ pad32 (if decrypt then m.text else ctrText k.prfKey m.nonce m.text)).length +
      (pad32 m.footer).length < 2 ^ 32
    rw [List.length_append, hat]
    omega)
  have hcall : (ctx1.call (.crypt decrypt m.text m.nonce)).2 = (umacAeCrypt decrypt m.text m.nonce ctx1).2 := rfl
  rw [hcall] at hfoot
  generalize (if m.footer ≠ [] then umacAeFooter m.footer (umacAeCrypt decrypt m.text m.nonce ctx1).2
    else (umacAeCrypt decrypt m.text m.nonce ctx1).2) = ctx2 at hfoot ⊢
  have hall : (pad32 m.header ++ pad32 (if decrypt then m.text else ctrText k.prfKey m.nonce m.text) ++
      pad32 m.footer).length + 32 < 2 ^ 32 := by
    rw [List.length_append, List.length_append, hat]
    omega
  obtain ⟨htag, hlast⟩ := aeCall_eq ctx2 _ .finalize hfoot ⟨hall, hnonce⟩
  have hsame : (if decrypt then m.text else ctrText k.prfKey m.nonce m.text).length = m.text.length := by
    split
    · rfl
    · exact length_ctrText _ _ _
  refine ⟨Prod.ext htext ((Option.some.inj htag).trans ?_), hlast⟩
  simp only [aeSpec, aeAnswer, aeTag, aeText, hsame]

/-! ## Sessions -/

/-- What a context is used for: a message, or calls for one that is given up. -/
inductive AeUse
  | message (decrypt : Bool) (m : AeMsg)
  | abandoned (calls : List AeCall)

/-- A use of a context, with the text and the tag of a message. -/
def UmacAeCtx.use (ctx : UmacAeCtx) : AeUse → Option (List UInt8 × List UInt8) × UmacAeCtx
  | .message decrypt m => ((aeMessage decrypt m ctx).1, (aeMessage decrypt m ctx).2)
  | .abandoned calls => (none, umacAeAbort (Refine.after UmacAeCtx.call ctx calls))

/-- What a use means; all that is left of it is the nonce. -/
def useSpec (k : Keys) (nonce : List UInt8) : AeUse → Option (List UInt8 × List UInt8) × List UInt8
  | .message decrypt m => (aeAnswer k decrypt m, m.nonce)
  | .abandoned calls => (none, (Refine.after (aeSpec k) (.idle nonce) calls).nonce)

def UseFits (k : Keys) (nonce : List UInt8) : AeUse → Prop
  | .message _ m => m.Fits
  | .abandoned calls => Refine.Allowed (aeSpec k) AeFits (.idle nonce) calls

theorem use_eq (ctx : UmacAeCtx) (nonce : List UInt8) (u : AeUse) (h : ctx.Holds k (.idle nonce))
    (hfits : UseFits k nonce u) :
    (ctx.use u).1 = (useSpec k nonce u).1 ∧ (ctx.use u).2.Holds k (.idle (useSpec k nonce u).2) := by
  cases u with
  | message decrypt m =>
    obtain ⟨hanswer, hnext⟩ := aeMessage_eq h decrypt hfits
    exact ⟨congrArg some hanswer, hnext⟩
  | abandoned calls =>
    have hafter := (Refine.answers_eq aeCall_eq calls h hfits).2
    exact ⟨rfl, (aeCall_eq _ _ .abort hafter trivial).2⟩

/-- The answer to a use, which does not depend on what was before. -/
def AeUse.answer (k : Keys) : AeUse → Option (List UInt8 × List UInt8)
  | .message decrypt m => aeAnswer k decrypt m
  | .abandoned _ => none

theorem answers_useSpec (k : Keys) (nonce : List UInt8) (uses : List AeUse) :
    Refine.answers (useSpec k) nonce uses = uses.map (AeUse.answer k) := by
  induction uses generalizing nonce with
  | nil => rfl
  | cons u uses ih =>
    rw [Refine.answers_cons, ih, List.map_cons]
    cases u <;> rfl

/-- **A context gives to each message what a new one would give**, in either direction, whatever
    messages there were before and however many were given up. -/
theorem session_eq (key stale : List UInt8) (uses : List AeUse)
    (h : Refine.Allowed (useSpec (keysOf key)) (UseFits (keysOf key)) stale uses) :
    Refine.answers UmacAeCtx.use (umacAeSetKey key stale) uses = uses.map (AeUse.answer (keysOf key)) := by
  rw [← answers_useSpec]
  exact (Refine.answers_eq use_eq uses (umacAeSetKey_holds key stale) h).1

/-- Two messages, and between them one that is given up after its text. -/
theorem session_eq_abandoned :
    let key := List.replicate 16 97
    let m : AeMsg := ⟨[1], [2, 3], [], List.replicate 8 5⟩
    let uses : List AeUse := [.message false m, .abandoned [.header [9], .crypt true [8] (List.replicate 8 6)],
      .message true m]
    Refine.answers UmacAeCtx.use (umacAeSetKey key (List.replicate 8 0)) uses =
      uses.map (AeUse.answer (keysOf key)) :=
  session_eq _ _ _ (by
    simp [Refine.Allowed, UseFits, useSpec, AeMsg.Fits, AeFits, length_pad32, aeSpec, AeState.idle])

/-- **What was encrypted comes back, with the same tag.** -/
theorem aeAnswer_decrypt (k : Keys) (m : AeMsg) :
    aeAnswer k true { m with text := (aeAnswer k false m).1 } = (m.text, (aeAnswer k false m).2) := by
  simp [aeAnswer]

end Calls

/-! ## What is authenticated -/

theorem toNat_storeBig (x : U32) :
    (storeBig x).map UInt8.toNat =
      [x.toNat / 2 ^ 24, x.toNat / 2 ^ 16 % 256, x.toNat / 2 ^ 8 % 256, x.toNat % 256] := by
  have hx := x.isLt
  simp [storeBig, Nat.shiftRight_eq_div_pow]
  omega

theorem storeBig_injective : Function.Injective storeBig := by
  intro x y h
  have hbytes := congrArg (List.map UInt8.toNat) h
  rw [toNat_storeBig, toNat_storeBig] at hbytes
  simp only [List.cons.injEq, and_true] at hbytes
  apply BitVec.eq_of_toNat_eq
  omega

/-- Lengths of 32 bits are told apart. -/
theorem lengthBytes_inj {m n : Nat} (hm : m < 2 ^ 32) (hn : n < 2 ^ 32) :
    lengthBytes m = lengthBytes n ↔ m = n := by
  refine ⟨fun h => ?_, congrArg _⟩
  have hbits {n : Nat} (hn : n < 2 ^ 32) : (BitVec.ofNat 64 n * 8#64).toNat = n * 8 := by
    rw [BitVec.toNat_mul, BitVec.toNat_ofNat, BitVec.toNat_ofNat]
    omega
  obtain ⟨hhi, hlo⟩ := List.append_inj h (by simp)
  have hhi := congrArg BitVec.toNat (storeBig_injective hhi)
  have hlo := congrArg BitVec.toNat (storeBig_injective hlo)
  rw [toNat_hi, toNat_hi, hbits hm, hbits hn] at hhi
  rw [toNat_lo, toNat_lo, hbits hm, hbits hn] at hlo
  omega

theorem pad32_inj {d d' : List UInt8} (hlen : d.length = d'.length) (h : pad32 d = pad32 d') : d = d' :=
  (List.append_inj h hlen).1

/-- **No two messages are authenticated as the same bytes**: where one part ends and the next one begins
    is told by the lengths in the last block. -/
theorem aeText_injective {h t f h' t' f' : List UInt8}
    (hlen : h.length < 2 ^ 32 ∧ t.length < 2 ^ 32 ∧ f.length < 2 ^ 32)
    (hlen' : h'.length < 2 ^ 32 ∧ t'.length < 2 ^ 32 ∧ f'.length < 2 ^ 32)
    (heq : aeText h t f = aeText h' t' f') : h = h' ∧ t = t' ∧ f = f' := by
  obtain ⟨hrest, hlast⟩ := List.append_inj' heq (by simp)
  have hlast := (List.append_inj hlast (by simp)).1
  obtain ⟨hlast, hf⟩ := List.append_inj hlast (by simp)
  obtain ⟨hh, ht⟩ := List.append_inj hlast (by simp)
  have hh := (lengthBytes_inj hlen.1 hlen'.1).mp hh
  have ht := (lengthBytes_inj hlen.2.1 hlen'.2.1).mp ht
  have hf := (lengthBytes_inj hlen.2.2 hlen'.2.2).mp hf
  have hpad {d d' : List UInt8} (h : d.length = d'.length) : (pad32 d).length = (pad32 d').length := by
    rw [length_pad32, length_pad32, h]
  obtain ⟨hrest, hfoot⟩ := List.append_inj' hrest (hpad hf)
  obtain ⟨hhead, htext⟩ := List.append_inj hrest (hpad hh)
  exact ⟨pad32_inj hh hhead, pad32_inj ht htext, pad32_inj hf hfoot⟩

/-- The same byte as a header and as a footer. -/
theorem aeText_injective_byte :
    aeText [] (List.replicate 31 7) [7] ≠ aeText [7] (List.replicate 31 7) [] := by
  intro heq
  exact absurd (aeText_injective (by decide) (by decide) heq).1 (by decide)

/-! ## What AES is given -/

/-- AES with the key of a user tells blocks apart. -/
theorem aesEncryption_injective (key : List UInt8) {x y : List UInt8} (hx : x.length = 16)
    (hy : y.length = 16) (h : aesEncryption x (aesKeySetup key) = aesEncryption y (aesKeySetup key)) :
    x = y := by
  have hblock (z : List UInt8) :
      aesEncryption z (aesKeySetup key) = Rijndael.encryptBlock 4 key z := by
    obtain ⟨rk, hrk, -⟩ := @Rijndael.rijndaelKeySetupEnc_eq 4 (Or.inl rfl) key
    rw [Rijndael.encryptBlock, aesEncryption, aesKeySetup, show 128 = 32 * 4 from rfl, hrk]
  rw [hblock, hblock] at h
  have hback := congrArg (Rijndael.decryptBlock 4 key) h
  rwa [Rijndael.decryptBlock_encryptBlock (Or.inl rfl) key hx,
    Rijndael.decryptBlock_encryptBlock (Or.inl rfl) key hy] at hback

theorem length_ctrInput {n : List UInt8} (h : n.length = 8) (ctr : Nat) : (ctrInput n ctr).length = 16 := by
  simp [ctrInput, h]

/-- The block of the keystream for a counter. -/
def ctrBlock (key n : List UInt8) (ctr : Nat) : List UInt8 :=
  aesEncryption (ctrInput n ctr) (keysOf key).prfKey

/-- The key of the keystream is made of 16 bytes. -/
theorem prfKey_eq (key : List UInt8) : (keysOf key).prfKey = aesKeySetup (kdf (aesKeySetup key) 0 16) := rfl

theorem ctrInput_inj {n n' : List UInt8} (hn : n.length = n'.length) {c c' : Nat} (hc : c < 2 ^ 32)
    (hc' : c' < 2 ^ 32) (h : ctrInput n c = ctrInput n' c') : n = n' ∧ c = c' := by
  have hlen : (n ++ List.replicate 4 (0 : UInt8)).length = (n' ++ List.replicate 4 (0 : UInt8)).length := by
    simp [hn]
  obtain ⟨hleft, hctr⟩ := List.append_inj h hlen
  have hctr := congrArg BitVec.toNat (storeBig_injective hctr)
  rw [BitVec.toNat_ofNat, BitVec.toNat_ofNat, Nat.mod_eq_of_lt hc, Nat.mod_eq_of_lt hc'] at hctr
  exact ⟨(List.append_inj hleft hn).1, hctr⟩

/-- A counter is not zero, and behind the nonce of a tag there are zeros only. -/
theorem ctrInput_ne_tag {n n' : List UInt8} (hn : n.length = 8) (hn' : n'.length = 8) {c : Nat} (h0 : 0 < c)
    (hc : c < 2 ^ 32) : ctrInput n c ≠ evenNonce n' ++ List.replicate 8 0 := by
  intro h
  have hzero : evenNonce n' ++ List.replicate 8 0 = ctrInput (evenNonce n') 0 := by
    rw [ctrInput, List.append_assoc]
    rfl
  rw [hzero] at h
  have hlen := length_evenNonce hn'
  have heq := (ctrInput_inj (hn.trans hlen.symm) hc (by simp) h).2
  omega

/-- **No block of AES is used twice**: those of the keystream are all different, for different nonces
    or different counters, and none of them is one that tags are encrypted with; of these only the nonces
    that differ in the last bit share one. -/
theorem blocks_distinct (key : List UInt8) {n n' : List UInt8} (hn : n.length = 8) (hn' : n'.length = 8)
    {c c' : Nat} (hc : 0 < c ∧ c < 2 ^ 32) (hc' : 0 < c' ∧ c' < 2 ^ 32) :
    (ctrBlock key n c = ctrBlock key n' c' → n = n' ∧ c = c') ∧
      ctrBlock key n c ≠ pdfBlock (keysOf key).prfKey n' ∧
      (pdfBlock (keysOf key).prfKey n = pdfBlock (keysOf key).prfKey n' → evenNonce n = evenNonce n') := by
  have htag {n : List UInt8} (h : n.length = 8) : (evenNonce n ++ List.replicate 8 0).length = 16 := by
    simp [length_evenNonce h]
  have hctr := length_ctrInput hn c
  have hctr' := length_ctrInput hn' c'
  rw [prfKey_eq]
  refine ⟨fun h => ?_, fun h => ?_, fun h => ?_⟩
  · exact ctrInput_inj (hn.trans hn'.symm) hc.2 hc'.2 (aesEncryption_injective _ hctr hctr' h)
  · exact ctrInput_ne_tag hn hn' hc.1 hc.2 (aesEncryption_injective _ hctr (htag hn') h)
  · exact List.append_cancel_right (aesEncryption_injective _ (htag hn) (htag hn') h)

/-- The two first blocks for a nonce. -/
theorem blocks_distinct_first :
    let key := List.replicate 16 97
    let n := List.replicate 8 5
    ctrBlock key n 1 ≠ ctrBlock key n 2 ∧ ctrBlock key n 1 ≠ pdfBlock (keysOf key).prfKey n := by
  have h := @blocks_distinct (List.replicate 16 97) (List.replicate 8 5) (List.replicate 8 5)
    (by decide) (by decide) 1 2 (by decide) (by decide)
  exact ⟨fun heq => absurd (h.1 heq).2 (by decide), h.2.1⟩

end CodeSLoop.Umac
