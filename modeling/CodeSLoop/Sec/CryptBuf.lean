import CodeSLoop.Lib.Cfb
import Mathlib.Data.List.OfFn
import Mathlib.Data.UInt

/-!
# `crypt_buf` — encryption in a stream (`sec/crypt_buf.cc`)

`init_crypt` sets a key, and either encrypts eight bytes, which are the header then, or decrypts a
header. `add_data` goes on with the text, in pieces of any size, and `finalize` encrypts the digest
of the eight bytes, which makes the MAC.

What OpenSSL computes is a parameter, `Ssl`; its `BF_cfb64_encrypt` is cipher feedback (`Cfb`),
which keeps its place in `bf_num_`. And that is what `init_crypt` does not set. So a message is
restored when both objects are at the same place, that is, when the lengths of all texts they had
before are the same modulo 8 (`streaming_iff`).
-/

namespace CodeSLoop

/-- What is used of OpenSSL. A `BF_KEY` is known by the bytes it was set to, if it was. -/
structure Ssl where
  sha1 : List UInt8 → Fin 20 → UInt8
  block : Option (List UInt8) → (Fin 8 → UInt8) → Fin 8 → UInt8

/-- `BF_cfb64_encrypt`. -/
def Ssl.cipher (ssl : Ssl) (key : Option (List UInt8)) : Cfb.Cipher 8 UInt8 where
  combine b k := b ^^^ k
  cancel b k := by rw [UInt8.xor_assoc, UInt8.xor_self, UInt8.xor_zero]
  block := ssl.block key

/-- As many bytes as a header has (`CSL_SEC_CRYPT_BUF_HEAD_LEN`). -/
abbrev Header := { bs : List UInt8 // bs.length = 8 }

/-- `crypt_buf::impl`; `cfb` is `bf_num_`, and the eight bytes of `initvec_` that are used. -/
@[ext] structure CryptBuf where
  cfb : Cfb.State 8 UInt8
  tail : Fin 40 → UInt8
  key : Option (List UInt8)

namespace CryptBuf

/-- `impl()`. -/
def new : CryptBuf := ⟨⟨fun _ => 0, 0⟩, fun _ => 0, none⟩

/-- A call of `BF_cfb64_encrypt`. -/
def cfb64 (ssl : Ssl) (encrypt : Bool) (s : CryptBuf) (bs : List UInt8) : CryptBuf × List UInt8 :=
  let r := if encrypt then Cfb.encrypt (ssl.cipher s.key) s.cfb bs
    else Cfb.decrypt (ssl.cipher s.key) s.cfb bs
  ({ s with cfb := r.1 }, r.2)

variable {ssl : Ssl} {encrypt : Bool} {s e d : CryptBuf} {bs : List UInt8}

theorem length_cfb64 : (s.cfb64 ssl encrypt bs).2.length = bs.length := by
  rw [cfb64]
  cases encrypt with
  | true => exact Cfb.length_encrypt
  | false => exact Cfb.length_decrypt

def cfb64Header (ssl : Ssl) (encrypt : Bool) (s : CryptBuf) (h : Header) : CryptBuf × Header :=
  ((s.cfb64 ssl encrypt h.val).1, ⟨(s.cfb64 ssl encrypt h.val).2, length_cfb64.trans h.property⟩)

/-- `BF_set_key`, and `SHA1` into `initvec_`. -/
def setKey (ssl : Ssl) (s : CryptBuf) (k : List UInt8) : CryptBuf :=
  { s with key := some k, cfb := ⟨fun i => ssl.sha1 k (i.castLE (by simp)), s.cfb.num⟩ }

/-- `SHA1` into `tail_`, of which twenty bytes are set. -/
def digest (ssl : Ssl) (s : CryptBuf) (r : Header) : CryptBuf :=
  { s with tail := fun i => if h : i.val < 20 then ssl.sha1 r.val ⟨i, h⟩ else s.tail i }

/-- `init_crypt`, and what is in `buf` when it returns true; `rand` is what `RAND_bytes` or
    `RAND_pseudo_bytes` gives. For a C string, `key` has the characters before its zero. -/
def initCrypt (ssl : Ssl) (s : CryptBuf) (key : Option (List UInt8)) (buf : Option Header)
    (encrypt : Bool) (rndata rand : Option Header) : CryptBuf × Option Header :=
  match key, buf with
  | some key, some buf =>
    let l := key.length / 4 * 4
    if l < 12 then (s, none)
    else if l > 56 then (s, none)
    else
      let s := s.setKey ssl (key.take l)
      if encrypt then
        match rndata.or rand with
        | none => (s, none)
        | some r =>
          let p := (s.digest ssl r).cfb64Header ssl true r
          (p.1, some p.2)
      else
        let p := s.cfb64Header ssl false buf
        (p.1.digest ssl p.2, some p.2)
  | _, _ => (s, none)

/-- `add_data`. -/
def addData (ssl : Ssl) (encrypt : Bool) (s : CryptBuf) (buf : List UInt8) :
    CryptBuf × List UInt8 := s.cfb64 ssl encrypt buf

/-- `finalize`, and the MAC. -/
def finalize (ssl : Ssl) (s : CryptBuf) : CryptBuf × List UInt8 :=
  s.cfb64 ssl true (List.ofFn s.tail)

/-! ## The use of an object -/

inductive Call
  | initCrypt (key : Option (List UInt8)) (buf : Option Header) (encrypt : Bool)
      (rndata rand : Option Header)
  | addData (buf : List UInt8) (encrypt : Bool)
  | finalize

def exec (ssl : Ssl) (s : CryptBuf) : Call → CryptBuf
  | .initCrypt key buf encrypt rndata rand => (s.initCrypt ssl key buf encrypt rndata rand).1
  | .addData buf encrypt => (s.addData ssl encrypt buf).1
  | .finalize => (s.finalize ssl).1

/-- An object after some calls. -/
def used (ssl : Ssl) (calls : List Call) : CryptBuf := calls.foldl (exec ssl) new

/-- The bytes of text in a call. -/
def Call.added : Call → Nat
  | .addData buf _ => buf.length
  | .initCrypt _ _ _ _ _ | .finalize => 0

/-- The text, given in pieces. -/
def addAll (ssl : Ssl) (encrypt : Bool) (s : CryptBuf) (bss : List (List UInt8)) :
    CryptBuf × List (List UInt8) := Cfb.pieces (addData ssl encrypt) s bss

/-- `d` gives back what `e` has encrypted in pieces, in whatever pieces it gets that, and comes to
    the same MAC. -/
def Restores (ssl : Ssl) (e d : CryptBuf) (key : List UInt8) (buf r : Header)
    (ps : List (List UInt8)) : Prop :=
  ∃ e₁ header, e.initCrypt ssl (some key) (some buf) true (some r) none = (e₁, some header) ∧
    ∃ d₁ r', d.initCrypt ssl (some key) (some header) false none none = (d₁, some r') ∧
      ∀ cs, cs.flatten = (e₁.addAll ssl true ps).2.flatten →
        (d₁.addAll ssl false cs).2.flatten = ps.flatten ∧
        ((d₁.addAll ssl false cs).1.finalize ssl).2 = ((e₁.addAll ssl true ps).1.finalize ssl).2

/-! ## One call -/

theorem num_cfb64 : (s.cfb64 ssl encrypt bs).1.cfb.num.val = (s.cfb.num.val + bs.length) % 8 := by
  rw [cfb64]
  cases encrypt with
  | true =>
    dsimp only
    rw [if_pos rfl, Cfb.encrypt_fst, Cfb.num_absorb, Cfb.length_encrypt]
  | false =>
    dsimp only
    rw [if_neg Bool.false_ne_true, Cfb.decrypt_fst, Cfb.num_absorb]

/-- What every object is like: the rest of `tail_` stays as it is. -/
def Clean (s : CryptBuf) : Prop := ∀ i : Fin 40, 20 ≤ i.val → s.tail i = 0

theorem tail_digest {r : Header} {i : Fin 40} (hi : i.val < 20) :
    (s.digest ssl r).tail i = ssl.sha1 r.val ⟨i, hi⟩ := dif_pos hi

theorem Clean.digest (h : s.Clean) {r : Header} : (s.digest ssl r).Clean := by
  intro i hi
  rw [CryptBuf.digest]
  dsimp only
  rw [dif_neg (Nat.not_lt_of_le hi)]
  exact h i hi

/-- What `init_crypt` can make of an object. -/
inductive Inits (ssl : Ssl) (s : CryptBuf) : CryptBuf → Prop
  | refused : Inits ssl s s
  | noRandom (k : List UInt8) : Inits ssl s (s.setKey ssl k)
  | encrypts (k : List UInt8) (r : Header) :
      Inits ssl s (((s.setKey ssl k).digest ssl r).cfb64Header ssl true r).1
  | decrypts (k : List UInt8) (buf : Header) :
      Inits ssl s (((s.setKey ssl k).cfb64Header ssl false buf).1.digest ssl
        ((s.setKey ssl k).cfb64Header ssl false buf).2)

theorem inits {key : Option (List UInt8)} {buf rndata rand : Option Header} :
    Inits ssl s (s.initCrypt ssl key buf encrypt rndata rand).1 := by
  unfold initCrypt
  split
  · dsimp only
    split
    · exact .refused
    · split
      · exact .refused
      · cases encrypt with
        | true =>
          rw [if_pos rfl]
          cases rndata.or rand with
          | none => exact .noRandom _
          | some r => exact .encrypts _ r
        | false => exact .decrypts _ _
  · exact .refused

theorem num_cfb64Header {h : Header} : (s.cfb64Header ssl encrypt h).1.cfb.num = s.cfb.num := by
  refine Fin.ext ?_
  rw [cfb64Header]
  dsimp only
  rw [num_cfb64, h.property, Nat.add_mod_right, Nat.mod_eq_of_lt s.cfb.num.isLt]

/-- **A call moves the place on by the bytes of text**, since header and MAC are whole blocks. -/
theorem exec_spec (h : s.Clean) (c : Call) : (s.exec ssl c).Clean ∧
    (s.exec ssl c).cfb.num.val = (s.cfb.num.val + c.added) % 8 := by
  have hmod := Nat.mod_eq_of_lt s.cfb.num.isLt
  cases c with
  | initCrypt key buf encrypt rndata rand =>
    have hinits := @inits ssl encrypt s key buf rndata rand
    rw [exec, Call.added, Nat.add_zero, hmod]
    generalize (s.initCrypt ssl key buf encrypt rndata rand).1 = s' at hinits ⊢
    cases hinits with
    | refused => exact ⟨h, rfl⟩
    | noRandom k => exact ⟨h, rfl⟩
    | encrypts k r =>
      refine ⟨Clean.digest (s := s.setKey ssl k) h, ?_⟩
      rw [num_cfb64Header]
      rfl
    | decrypts k buf =>
      refine ⟨Clean.digest (s := ((s.setKey ssl k).cfb64Header ssl false buf).1) h, ?_⟩
      rw [digest, num_cfb64Header]
      rfl
  | addData buf encrypt => exact ⟨h, num_cfb64⟩
  | finalize =>
    refine ⟨h, ?_⟩
    rw [exec, finalize, num_cfb64, List.length_ofFn, Call.added]
    omega

/-- The bytes of text in all calls. -/
def added (calls : List Call) : Nat := (calls.map Call.added).sum

theorem used_spec (calls : List Call) :
    (used ssl calls).Clean ∧ (used ssl calls).cfb.num.val = added calls % 8 := by
  induction calls using List.reverseRecOn with
  | nil => exact ⟨fun i hi => rfl, rfl⟩
  | append_singleton calls c ih =>
    obtain ⟨hclean, hnum⟩ := ih
    obtain ⟨hclean', hnum'⟩ := exec_spec hclean c
    rw [used, List.foldl_append]
    refine ⟨hclean', hnum'.trans ?_⟩
    rw [hnum, added, added, List.map_append, List.sum_append, Nat.mod_add_mod]
    rfl

/-! ## A message -/

variable {key : List UInt8} {buf r : Header} {ps : List (List UInt8)}

/-- The bytes of the key that are used, as a multiple of four. -/
def cut (key : List UInt8) : List UInt8 := key.take (key.length / 4 * 4)

theorem initCrypt_encrypt (h12 : 12 ≤ key.length) (h59 : key.length ≤ 59) {rand : Option Header} :
    s.initCrypt ssl (some key) (some buf) true (some r) rand =
      ((((s.setKey ssl (cut key)).digest ssl r).cfb64Header ssl true r).1,
        some (((s.setKey ssl (cut key)).digest ssl r).cfb64Header ssl true r).2) := by
  unfold initCrypt
  dsimp only
  rw [if_neg (by omega), if_neg (by omega)]
  rfl

theorem initCrypt_decrypt (h12 : 12 ≤ key.length) (h59 : key.length ≤ 59)
    {rndata rand : Option Header} :
    s.initCrypt ssl (some key) (some buf) false rndata rand =
      (((s.setKey ssl (cut key)).cfb64Header ssl false buf).1.digest ssl
          ((s.setKey ssl (cut key)).cfb64Header ssl false buf).2,
        some ((s.setKey ssl (cut key)).cfb64Header ssl false buf).2) := by
  unfold initCrypt
  dsimp only
  rw [if_neg (by omega), if_neg (by omega)]
  rfl

theorem cfb64_congr {s' : CryptBuf} (hcfb : s.cfb = s'.cfb) (hkey : s.key = s'.key) :
    (s.cfb64 ssl encrypt bs).1.cfb = (s'.cfb64 ssl encrypt bs).1.cfb ∧
      (s.cfb64 ssl encrypt bs).2 = (s'.cfb64 ssl encrypt bs).2 := by
  rw [cfb64, cfb64, hcfb, hkey]
  exact ⟨rfl, rfl⟩

/-- An object gives back what it would have encrypted. -/
theorem cfb64_cfb64 : s.cfb64 ssl false (s.cfb64 ssl true bs).2 = ((s.cfb64 ssl true bs).1, bs) := by
  rw [cfb64, cfb64]
  dsimp only
  rw [if_pos rfl, if_neg Bool.false_ne_true, Cfb.decrypt_encrypt]

theorem streams_addData : Cfb.Streams (addData ssl encrypt) := by
  cases encrypt with
  | true =>
    refine ⟨fun s => rfl, fun s bs bs' => ?_⟩
    simp only [addData, cfb64, if_true, Cfb.streams_encrypt.append s.cfb bs bs']
  | false =>
    refine ⟨fun s => rfl, fun s bs bs' => ?_⟩
    simp only [addData, cfb64, Bool.false_eq_true, if_false, Cfb.streams_decrypt.append s.cfb bs bs']

/-- In whatever pieces. -/
theorem addAll_eq {bss : List (List UInt8)} :
    (s.addAll ssl encrypt bss).1 = (s.cfb64 ssl encrypt bss.flatten).1 ∧
      (s.addAll ssl encrypt bss).2.flatten = (s.cfb64 ssl encrypt bss.flatten).2 :=
  Prod.mk.inj streams_addData.pieces

/-- The object that decrypts a header is then as the one that has encrypted it. -/
theorem digest_decrypt (he : e.Clean) (hd : d.Clean) (hnum : e.cfb.num = d.cfb.num) {k : List UInt8}
    {header : Header} (hh : header = (((e.setKey ssl k).digest ssl r).cfb64Header ssl true r).2) :
    ((d.setKey ssl k).cfb64Header ssl false header).1.digest ssl
        ((d.setKey ssl k).cfb64Header ssl false header).2 =
      (((e.setKey ssl k).digest ssl r).cfb64Header ssl true r).1 := by
  have hval : header.val = ((e.setKey ssl k).cfb64 ssl true r.val).2 := by
    rw [hh]
    rfl
  have hcfb : (d.setKey ssl k).cfb = (e.setKey ssl k).cfb := by
    rw [setKey, setKey, hnum]
  obtain ⟨hstate, hbytes⟩ := @cfb64_congr ssl false (d.setKey ssl k) header.val (e.setKey ssl k)
    hcfb rfl
  rw [hval, cfb64_cfb64] at hstate hbytes
  rw [← hval] at hstate hbytes
  have hr : ((d.setKey ssl k).cfb64Header ssl false header).2 = r := Subtype.ext hbytes
  rw [hr]
  refine CryptBuf.ext hstate (funext fun i => ?_) rfl
  change _ = ((e.setKey ssl k).digest ssl r).tail i
  by_cases hi : i.val < 20
  · rw [tail_digest hi, tail_digest hi]
  · have hi := Nat.le_of_not_lt hi
    rw [Clean.digest (s := e.setKey ssl k) he i hi]
    exact Clean.digest (s := ((d.setKey ssl k).cfb64Header ssl false header).1) hd i hi

/-- **A message is restored** when both objects are at the same place. -/
theorem restores (he : e.Clean) (hd : d.Clean) (hnum : e.cfb.num = d.cfb.num)
    (h12 : 12 ≤ key.length) (h59 : key.length ≤ 59) : Restores ssl e d key buf r ps := by
  refine ⟨_, _, initCrypt_encrypt h12 h59, _, _, initCrypt_decrypt h12 h59, fun cs hcs => ?_⟩
  rw [digest_decrypt he hd hnum rfl]
  generalize (((e.setKey ssl (cut key)).digest ssl r).cfb64Header ssl true r).1 = s at hcs ⊢
  obtain ⟨henc, hout⟩ := @addAll_eq ssl true s ps
  obtain ⟨hdec, htext⟩ := @addAll_eq ssl false s cs
  rw [hcs, hout, cfb64_cfb64] at hdec htext
  rw [hdec, henc]
  exact ⟨htext, rfl⟩

/-! ## Objects at different places -/

theorem cfb_encrypt : (s.cfb64 ssl true bs).1.cfb =
    Cfb.absorb (ssl.cipher s.key) s.cfb (s.cfb64 ssl true bs).2 := Cfb.encrypt_fst

theorem cfb_decrypt : (s.cfb64 ssl false bs).1.cfb = Cfb.absorb (ssl.cipher s.key) s.cfb bs :=
  Cfb.decrypt_fst

/-- A block function that changes nothing. For eight bytes, the digest shows the first of them, and
    otherwise it has different bytes. -/
def still : Ssl where
  sha1 bs i := if bs.length = 8 then bs.headD 0 else UInt8.ofNat i.val
  block _ v := v

theorem head_cfb64 (h : bs ≠ []) :
    (s.cfb64 still encrypt bs).2.headD 0 = bs.headD 0 ^^^ s.cfb.ivec s.cfb.num := by
  have hfilled : s.cfb.filled (still.cipher s.key) = s.cfb.ivec := by
    rw [Cfb.State.filled]
    exact ite_self _
  cases bs with
  | nil => exact absurd rfl h
  | cons b bs =>
    cases encrypt with
    | true => exact congrArg (b ^^^ · s.cfb.num) hfilled
    | false => exact congrArg (b ^^^ · s.cfb.num) hfilled

theorem xor_right_cancel {a b k : UInt8} (h : a ^^^ k = b ^^^ k) : a = b := by
  have h : a ^^^ k ^^^ k = b ^^^ k ^^^ k := congrArg (· ^^^ k) h
  rwa [UInt8.xor_assoc, UInt8.xor_assoc, UInt8.xor_self, UInt8.xor_zero, UInt8.xor_zero] at h

theorem xor_left_eq {a k l : UInt8} (h : a ^^^ k ^^^ l = a) : k = l := by
  have hl : a ^^^ l ^^^ l = a := by rw [UInt8.xor_assoc, UInt8.xor_self, UInt8.xor_zero]
  have hkl := xor_right_cancel (h.trans hl.symm)
  rw [UInt8.xor_comm, UInt8.xor_comm a] at hkl
  exact xor_right_cancel hkl

theorem head_finalize :
    (s.finalize still).2.headD 0 = s.tail 0 ^^^ s.cfb.ivec s.cfb.num := by
  rw [finalize, head_cfb64 (by simp)]
  rfl

/-- The same ciphertext, of a header at least, leaves the same bytes behind, wherever they are. -/
theorem agree_cfb64 {k : Nat} (hkey : e.key = d.key) (h : Cfb.Agree k e.cfb d.cfb) :
    Cfb.Agree (k + bs.length) (e.cfb64 still true bs).1.cfb
      (d.cfb64 still false (e.cfb64 still true bs).2).1.cfb := by
  have habsorb := @Cfb.Agree.absorb _ _ _ (still.cipher d.key) _ _ (e.cfb64 still true bs).2
    (fun v => rfl) _ h
  rwa [cfb_encrypt, cfb_decrypt, hkey, ← @length_cfb64 still true e bs]

theorem finalize_agree {k : Nat} (hk : 8 ≤ k) (h : Cfb.Agree k e.cfb d.cfb)
    (hmac : (d.finalize still).2 = (e.finalize still).2) : d.tail 0 = e.tail 0 := by
  have hhead : (d.finalize still).2.headD 0 = (e.finalize still).2.headD 0 := by rw [hmac]
  have hiv := h 0 (by simpa using hk)
  rw [add_zero, add_zero] at hiv
  rw [head_finalize, head_finalize, hiv] at hhead
  exact xor_right_cancel hhead

theorem Header.ne_nil (h : Header) : h.val ≠ [] := by
  intro h0
  have h8 := h.property
  rw [h0] at h8
  cases h8

/-- The first byte of a header is decrypted at the place where it was encrypted, or to another
    one. -/
theorem num_eq_of_head {k : List UInt8} (hlen : 12 ≤ k.length) {header : Header}
    (hheader : ((e.setKey still k).cfb64 still true r.val).2 = header.val)
    (hr : ((d.setKey still k).cfb64 still false header.val).2.headD 0 = r.val.headD 0) :
    e.cfb.num = d.cfb.num := by
  rw [head_cfb64 (Header.ne_nil header), ← hheader, head_cfb64 (Header.ne_nil r)] at hr
  have hiv := xor_left_eq hr
  have hofNat : ∀ i : Fin 8, still.sha1 k (i.castLE (by simp)) = UInt8.ofNat i.val :=
    fun i => if_neg (by omega)
  have hval := congrArg UInt8.toNat ((hofNat _).symm.trans (hiv.trans (hofNat _)))
  have hlt := e.cfb.num.isLt
  have hlt' := d.cfb.num.isLt
  rw [UInt8.toNat_ofNat', UInt8.toNat_ofNat', Nat.mod_eq_of_lt (by omega),
    Nat.mod_eq_of_lt (by omega)] at hval
  exact Fin.ext hval

/-- **With this one, the MACs differ unless both objects are at the same place.** -/
theorem num_eq_of_restores (h12 : 12 ≤ key.length) (h59 : key.length ≤ 59)
    (h : Restores still e d key buf r ps) : e.cfb.num = d.cfb.num := by
  obtain ⟨e₁, header, he, d₁, r', hd, hall⟩ := h
  rw [initCrypt_encrypt h12 h59] at he
  rw [initCrypt_decrypt h12 h59] at hd
  generalize hk : cut key = k at he hd
  have hlen : 12 ≤ k.length := by
    rw [← hk, cut, List.length_take]
    omega
  obtain ⟨he₁, hheader⟩ := Prod.mk.inj he
  obtain ⟨hd₁, hr'⟩ := Prod.mk.inj hd
  have hheader := Option.some.inj hheader
  have hr' := Option.some.inj hr'
  have hheader : ((e.setKey still k).cfb64 still true r.val).2 = header.val :=
    congrArg Subtype.val hheader
  -- After the header.
  have hagree : Cfb.Agree 8 e₁.cfb d₁.cfb := by
    have h0 : Cfb.Agree 0 (e.setKey still k).cfb (d.setKey still k).cfb := by
      intro t ht
      have hlt := t.isLt
      omega
    have h8 := @agree_cfb64 (e.setKey still k) (d.setKey still k) r.val 0 rfl h0
    rw [hheader, r.property] at h8
    rw [← he₁, ← hd₁]
    exact h8
  -- After the text, in one piece.
  obtain ⟨henc, hout⟩ := @addAll_eq still true e₁ ps
  obtain ⟨hdec, -⟩ := @addAll_eq still false d₁ [(e₁.cfb64 still true ps.flatten).2]
  obtain ⟨-, hmac⟩ := hall [(e₁.cfb64 still true ps.flatten).2] (by simp [hout])
  rw [List.flatten_singleton] at hdec
  rw [hdec, henc] at hmac
  have hkey : e₁.key = d₁.key := by
    rw [← he₁, ← hd₁]
    rfl
  have htail := finalize_agree (Nat.le_add_right 8 _) (@agree_cfb64 e₁ d₁ ps.flatten 8 hkey hagree)
    hmac
  -- The digests show the first of the eight bytes.
  have he0 : e₁.tail 0 = r.val.headD 0 := by
    rw [← he₁]
    exact (@tail_digest still (e.setKey still k) r 0 (Nat.zero_lt_succ 19)).trans
      (if_pos r.property)
  have hd0 : d₁.tail 0 = r'.val.headD 0 := by
    rw [← hd₁, hr', tail_digest (Nat.zero_lt_succ 19)]
    exact if_pos r'.property
  have hr' : ((d.setKey still k).cfb64 still false header.val).2 = r'.val :=
    congrArg Subtype.val hr'
  refine num_eq_of_head hlen hheader ?_
  rw [hr', ← hd0, ← he0]
  exact htail

/-! ## After any use -/

theorem num_used_iff {before before' : List Call} :
    (used ssl before).cfb.num = (used ssl before').cfb.num ↔
      added before % 8 = added before' % 8 := by
  rw [Fin.ext_iff, (used_spec before).2, (used_spec before').2]

/-- **Messages of objects that were used before.** Whatever the key, the random bytes and the pieces
    are: with every block function and every digest, the message is restored and the MACs are the
    same, exactly when the texts that the two objects had before have the same length modulo 8. -/
theorem streaming_iff (h12 : 12 ≤ key.length) (h59 : key.length ≤ 59) {before before' : List Call} :
    (∀ ssl, Restores ssl (used ssl before) (used ssl before') key buf r ps) ↔
      added before % 8 = added before' % 8 := by
  constructor
  · intro h
    exact num_used_iff.mp (num_eq_of_restores h12 h59 (h still))
  · intro hmod ssl
    exact restores (used_spec before).1 (used_spec before').1 (num_used_iff.mpr hmod) h12 h59

/-- A key, random bytes, and a text in three pieces. -/
def sampleKey : List UInt8 := List.replicate 12 7

def sampleHeader : Header := ⟨List.replicate 8 1, List.length_replicate⟩

def sampleText : List (List UInt8) := [[1], [], [2, 3]]

/-- One object is new, and the other one has encrypted eight bytes. -/
theorem streaming_iff_whole : Restores still (used still [])
    (used still [.addData (List.replicate 8 5) true, .finalize]) sampleKey sampleHeader sampleHeader
    sampleText :=
  (streaming_iff (by decide) (by decide)).mpr rfl still

/-- One object is new, and the other one has encrypted one byte. -/
theorem streaming_fails : ¬ Restores still (used still [])
    (used still [.addData [5] true, .finalize]) sampleKey sampleHeader sampleHeader sampleText := by
  intro h
  have hmod := num_used_iff.mp (num_eq_of_restores (by decide) (by decide) h)
  exact absurd hmod (by decide)

end CryptBuf

end CodeSLoop
