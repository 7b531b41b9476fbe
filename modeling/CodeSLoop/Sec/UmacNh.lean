import CodeSLoop.Lib.NhHash
import Mathlib.Algebra.BigOperators.Fin
import Mathlib.Data.List.GetD
import Mathlib.Tactic.FinCases

/-!
# The first layer of UMAC: NH (`sec/umac.c`)

`nh_update` is given the data in pieces of any size, and keeps back what does not fill 64 bytes;
`nh_final` pads what is left with zeros, and adds the number of bits. `nh` does the same for data
that is there as a whole. The hash is made with two streams at once, the second one with the key
from its fifth word on.

What a context knows of the data it was given is `NhCtx.Holds`; every update keeps it, and so
`nh_final` and `nh` agree, however the data was cut (`nhFinal_eq`, `nh_eq`).

`UMAC_OUTPUT_LEN` is 8, `FORCE_C_ONLY` is 1, and the host is little-endian. The key is the words that
`endian_convert` leaves. The counters are plain numbers: a context is never given more than 1024
bytes.
-/

namespace CodeSLoop.Umac

abbrev U32 := BitVec 32

abbrev U64 := BitVec 64

/-! ## The code -/

/-- `LOAD_UINT32_LITTLE(d + i)`. -/
def loadLittle (d : List UInt8) (i : Nat) : U32 :=
  (d.getD (4 * i + 3) 0).toBitVec ++ (d.getD (4 * i + 2) 0).toBitVec ++
    (d.getD (4 * i + 1) 0).toBitVec ++ (d.getD (4 * i) 0).toBitVec

/-- `MUL64`. -/
def mul64 (a b : U32) : U64 := a.setWidth 64 * b.setWidth 64

/-- The variables of `nh_aux` that live longer than a turn of the loop; `k` and `d` are what the
    pointers point to. -/
structure NhAux where
  k : List U32
  d : List UInt8
  k0 : U32
  k1 : U32
  k2 : U32
  k3 : U32
  h1 : U64
  h2 : U64

/-- A turn of the loop of `nh_aux`. -/
def NhAux.turn (v : NhAux) : NhAux :=
  let d := loadLittle v.d
  let k := fun i => v.k.getD i 0
  let h1 := v.h1 + mul64 (v.k0 + d 0) (k 4 + d 4)
  let h2 := v.h2 + mul64 (k 4 + d 0) (k 8 + d 4)
  let h1 := h1 + mul64 (v.k1 + d 1) (k 5 + d 5)
  let h2 := h2 + mul64 (k 5 + d 1) (k 9 + d 5)
  let h1 := h1 + mul64 (v.k2 + d 2) (k 6 + d 6)
  let h2 := h2 + mul64 (k 6 + d 2) (k 10 + d 6)
  let h1 := h1 + mul64 (v.k3 + d 3) (k 7 + d 7)
  let h2 := h2 + mul64 (k 7 + d 3) (k 11 + d 7)
  ⟨v.k.drop 8, v.d.drop 32, k 8, k 9, k 10, k 11, h1, h2⟩

/-- `nh_aux`; the loop has one turn for 32 bytes, and there are some. -/
def nhAux (kp : List U32) (dp : List UInt8) (hp : Fin 2 → U64) (dlen : Nat) : Fin 2 → U64 :=
  let v := NhAux.turn^[dlen / 32]
    ⟨kp, dp, kp.getD 0 0, kp.getD 1 0, kp.getD 2 0, kp.getD 3 0, hp 0, hp 1⟩
  ![v.h1, v.h2]

/-- `nh_ctx`. -/
structure NhCtx where
  nhKey : List U32
  data : List UInt8
  nextDataEmpty : Nat
  bytesHashed : Nat
  state : Fin 2 → U64

/-- `memcpy(buf + off, bs, …)`. -/
def write (buf : List UInt8) (off : Nat) (bs : List UInt8) : List UInt8 :=
  buf.take off ++ bs ++ buf.drop (off + bs.length)

/-- `zero_pad`. -/
def zeroPad (p : List UInt8) (off nbytes : Nat) : List UInt8 := write p off (List.replicate nbytes 0)

def nhTransform (hc : NhCtx) (buf : List UInt8) (nbytes : Nat) : NhCtx :=
  { hc with state := nhAux (hc.nhKey.drop (hc.bytesHashed / 4)) buf hc.state nbytes }

def nhReset (hc : NhCtx) : NhCtx :=
  { hc with bytesHashed := 0, nextDataEmpty := 0, state := fun _ => 0 }

/-- The bytes that fill `data`, hashed with it; and the other ones. -/
def nhFill (hc : NhCtx) (buf : List UInt8) : NhCtx × List UInt8 :=
  let j := hc.nextDataEmpty
  if j = 0 then (hc, buf)
  else
    let i := 64 - j
    let hc := { hc with data := write hc.data j (buf.take i) }
    let hc := nhTransform hc hc.data 64
    ({ hc with bytesHashed := hc.bytesHashed + 64 }, buf.drop i)

/-- The bytes that are hashed from where they are, and the other ones. -/
def nhDirect (hc : NhCtx) (buf : List UInt8) : NhCtx × List UInt8 :=
  if buf.length < 64 then (hc, buf)
  else
    let i := buf.length / 64 * 64
    let hc := nhTransform hc buf i
    ({ hc with bytesHashed := hc.bytesHashed + i }, buf.drop i)

def nhUpdate (hc : NhCtx) (buf : List UInt8) : NhCtx :=
  let j := hc.nextDataEmpty
  if j + buf.length < 64 then
    { hc with data := write hc.data j buf, nextDataEmpty := j + buf.length }
  else
    let (hc, buf) := nhFill hc buf
    let (hc, buf) := nhDirect hc buf
    { hc with data := write hc.data 0 buf, nextDataEmpty := buf.length }

/-- The last bytes, padded and hashed. -/
def nhPadded (hc : NhCtx) : NhCtx :=
  if hc.nextDataEmpty ≠ 0 then
    let nhLen := (hc.nextDataEmpty + 31) / 32 * 32
    let hc := { hc with data := zeroPad hc.data hc.nextDataEmpty (nhLen - hc.nextDataEmpty) }
    let hc := nhTransform hc hc.data nhLen
    { hc with bytesHashed := hc.bytesHashed + hc.nextDataEmpty }
  else if hc.bytesHashed = 0 then
    let hc := { hc with data := zeroPad hc.data 0 32 }
    nhTransform hc hc.data 32
  else hc

/-- `nh_final`: the result and the context. -/
def nhFinal (hc : NhCtx) : (Fin 2 → U64) × NhCtx :=
  let hc := nhPadded hc
  let nbits := BitVec.ofNat 64 (hc.bytesHashed * 8)
  (fun i => hc.state i + nbits, nhReset hc)

/-- `nh`, of a buffer that is padded already. -/
def nh (hc : NhCtx) (buf : List UInt8) (paddedLen unpaddedLen : Nat) : Fin 2 → U64 :=
  let nbits := BitVec.ofNat 64 (unpaddedLen * 8)
  nhAux hc.nhKey buf (fun _ => nbits) paddedLen

/-! ## The loop -/

/-- The key of a stream. -/
def streamKey (k : List U32) (s : Fin 2) : Nat → U32 := Nh.from' (4 * s.val) fun i => k.getD i 0

theorem streamKey_drop (k : List U32) (n : Nat) (s : Fin 2) :
    streamKey (k.drop n) s = Nh.from' n (streamKey k s) := by
  funext i
  simp [streamKey, Nh.from', Nat.add_left_comm]

theorem loadLittle_drop (d : List UInt8) (n : Nat) :
    loadLittle (d.drop (4 * n)) = Nh.from' n (loadLittle d) := by
  funext i
  simp [loadLittle, Nh.from', Nat.mul_add, Nat.add_assoc]

/-- The words that were read ahead are those at the pointer. -/
def NhAux.Ahead (v : NhAux) : Prop :=
  v.k0 = v.k.getD 0 0 ∧ v.k1 = v.k.getD 1 0 ∧ v.k2 = v.k.getD 2 0 ∧ v.k3 = v.k.getD 3 0

/-- The sums of the two streams. -/
def NhAux.sums (v : NhAux) : Fin 2 → U64 := ![v.h1, v.h2]

theorem NhAux.turn_ahead (v : NhAux) : v.turn.Ahead := by
  simp [NhAux.turn, NhAux.Ahead]

/-- A turn adds a block to either sum. -/
theorem NhAux.turn_sums {v : NhAux} (h : v.Ahead) (s : Fin 2) :
    v.turn.sums s = v.sums s + Nh.block 64 (streamKey v.k s) (loadLittle v.d) := by
  obtain ⟨h0, h1, h2, h3⟩ := h
  fin_cases s <;>
    simp [NhAux.turn, NhAux.sums, Nh.block, Nh.pair, Finset.sum_range_succ, streamKey, Nh.from', mul64,
      h0, h1, h2, h3, add_assoc]

theorem NhAux.iterate_sums {v : NhAux} (h : v.Ahead) (n : Nat) (s : Fin 2) :
    (NhAux.turn^[n] v).sums s = v.sums s + Nh.hash 64 (streamKey v.k s) (loadLittle v.d) n := by
  induction n generalizing v with
  | zero => simp
  | succ n ih =>
    have hk : streamKey v.turn.k s = Nh.from' (8 * 1) (streamKey v.k s) := streamKey_drop v.k 8 s
    have hd : loadLittle v.turn.d = Nh.from' (8 * 1) (loadLittle v.d) := loadLittle_drop v.d 8
    rw [Function.iterate_succ_apply, ih v.turn_ahead, NhAux.turn_sums h, hk, hd, add_assoc,
      ← Nh.hash_one (v := 64), ← Nh.hash_add, Nat.add_comm]

/-- **`nh_aux` adds the hash**, with the key of each stream. -/
theorem nhAux_eq (kp : List U32) (dp : List UInt8) (hp : Fin 2 → U64) (dlen : Nat) :
    nhAux kp dp hp dlen =
      fun s => hp s + Nh.hash 64 (streamKey kp s) (loadLittle dp) (dlen / 32) := by
  have hsum := @NhAux.iterate_sums
    ⟨kp, dp, kp.getD 0 0, kp.getD 1 0, kp.getD 2 0, kp.getD 3 0, hp 0, hp 1⟩
    ⟨rfl, rfl, rfl, rfl⟩ (dlen / 32)
  funext s
  refine (hsum s).trans ?_
  congr 1
  fin_cases s <;> rfl

/-! ## What is written into the buffer -/

theorem length_write {buf bs : List UInt8} {off : Nat} (h : off + bs.length ≤ buf.length) :
    (write buf off bs).length = buf.length := by
  simp [write]
  omega

theorem getD_write {buf bs : List UInt8} {off : Nat} (h : off + bs.length ≤ buf.length) (i : Nat) :
    (write buf off bs).getD i 0 =
      if i < off then buf.getD i 0
      else if i < off + bs.length then bs.getD (i - off) 0
      else buf.getD i 0 := by
  have htake : (buf.take off).length = off := by simp; omega
  simp only [write, List.append_assoc]
  by_cases h1 : i < off
  · rw [if_pos h1, List.getD_append _ _ _ _ (by omega)]
    simp [h1]
  · rw [if_neg h1, List.getD_append_right _ _ _ _ (by omega), htake]
    by_cases h2 : i < off + bs.length
    · rw [if_pos h2, List.getD_append _ _ _ _ (by omega)]
    · rw [if_neg h2, List.getD_append_right _ _ _ _ (by omega)]
      simp
      congr 2
      omega

/-! ## A context and its data -/

section Contexts

variable {hc : NhCtx} {d b : List UInt8} {p n : Nat}

/-- The words of the data are read up to where the data ends, and are zero behind. -/
theorem loadLittle_congr {d d' : List UInt8} {i j : Nat}
    (h : ∀ x < 4, d.getD (4 * i + x) 0 = d'.getD (4 * j + x) 0) : loadLittle d i = loadLittle d' j := by
  have h0 := h 0 (by simp)
  simp only [Nat.add_zero] at h0
  simp only [loadLittle, h0, h 1 (by simp), h 2 (by simp), h 3 (by simp)]

/-- The sums of `n` blocks of the data. -/
def sums (key : List U32) (d : List UInt8) (n : Nat) : Fin 2 → U64 := fun s =>
  Nh.hash 64 (streamKey key s) (loadLittle d) n

theorem sums_append (key : List U32) (h : 32 * n ≤ d.length) : sums key (d ++ b) n = sums key d n := by
  funext s
  refine Nh.hash_congr fun i hi => loadLittle_congr fun x hx => ?_
  exact List.getD_append _ _ _ _ (by omega)

/-- `p` blocks of the data have been hashed. -/
structure NhCtx.At (hc : NhCtx) (d : List UInt8) (p : Nat) : Prop where
  bytesHashed : hc.bytesHashed = 32 * p
  state : hc.state = sums hc.nhKey d p

/-- Further blocks are hashed, of a buffer that has the next bytes of the data. -/
theorem NhCtx.At.transform (h : hc.At d p) {buf : List UInt8}
    (hbuf : ∀ x < 32 * n, buf.getD x 0 = d.getD (32 * p + x) 0) :
    (nhTransform hc buf (32 * n)).state = sums hc.nhKey d (p + n) := by
  have hplace : hc.bytesHashed / 4 = 8 * p := by
    rw [h.bytesHashed]
    omega
  have hcount : 32 * n / 32 = n := by omega
  funext s
  rw [nhTransform]
  simp only [nhAux_eq]
  rw [hplace, hcount, h.state, sums, sums, Nh.hash_add, streamKey_drop]
  refine congrArg (_ + ·) (Nh.hash_congr fun i hi => loadLittle_congr fun x hx => ?_)
  rw [hbuf _ (by omega)]
  congr 1
  omega

/-- **What a context knows of its data**: the part that fills the buffer is hashed, and the rest is in
    the buffer. -/
structure NhCtx.Holds (hc : NhCtx) (d : List UInt8) : Prop where
  at_ : hc.At d (d.length / 64 * 2)
  length : hc.data.length = 64
  next : hc.nextDataEmpty = d.length % 64
  rest : ∀ x < d.length % 64, hc.data.getD x 0 = d.getD (d.length / 64 * 64 + x) 0

theorem holds_nhReset (hc : NhCtx) (h : hc.data.length = 64) : (nhReset hc).Holds [] := by
  have hstate : (nhReset hc).state = sums (nhReset hc).nhKey [] 0 := by
    funext s
    simp [nhReset, sums]
  refine ⟨⟨rfl, hstate⟩, h, rfl, ?_⟩
  intro x hx
  simp at hx

theorem nhUpdate_eq (hc : NhCtx) (b : List UInt8) :
    nhUpdate hc b =
      if hc.nextDataEmpty + b.length < 64 then
        { hc with data := write hc.data hc.nextDataEmpty b, nextDataEmpty := hc.nextDataEmpty + b.length }
      else
        let r := nhDirect (nhFill hc b).1 (nhFill hc b).2
        { r.1 with data := write r.1.data 0 r.2, nextDataEmpty := r.2.length } := rfl

@[simp] theorem nhKey_nhUpdate (hc : NhCtx) (b : List UInt8) : (nhUpdate hc b).nhKey = hc.nhKey := by
  have hfill : (nhFill hc b).1.nhKey = hc.nhKey := by
    simp only [nhFill]
    split <;> rfl
  have hdirect (r : NhCtx × List UInt8) : (nhDirect r.1 r.2).1.nhKey = r.1.nhKey := by
    simp only [nhDirect]
    split <;> rfl
  rw [nhUpdate_eq]
  split
  · rfl
  · exact (hdirect _).trans hfill

/-- The data up to `q` times 64 bytes is hashed, and the other bytes are in a buffer of their own. -/
structure Left (key : List U32) (d : List UInt8) (q : Nat) (r : NhCtx × List UInt8) : Prop where
  at_ : r.1.At d (q * 2)
  rest : r.2 = d.drop (q * 64)
  le : q * 64 ≤ d.length
  length : r.1.data.length = 64
  key : r.1.nhKey = key

theorem nhFill_left (h : hc.Holds d) (hlen : 64 ≤ d.length % 64 + b.length) :
    Left hc.nhKey (d ++ b) ((d.length + 63) / 64) (nhFill hc b) := by
  have hat : hc.At (d ++ b) (d.length / 64 * 2) :=
    ⟨h.at_.bytesHashed, by rw [h.at_.state, sums_append _ (by omega)]⟩
  by_cases hj : hc.nextDataEmpty = 0
  · have hmod : d.length % 64 = 0 := h.next ▸ hj
    have hq : (d.length + 63) / 64 = d.length / 64 := by omega
    have hdrop : d.length / 64 * 64 = d.length := by omega
    rw [nhFill, if_pos hj, hq]
    refine ⟨hat, ?_, by simp; omega, h.length, rfl⟩
    rw [hdrop, List.drop_left]
  · have hmod : d.length % 64 ≠ 0 := h.next ▸ hj
    have hq : (d.length + 63) / 64 = d.length / 64 + 1 := by omega
    have hroom : hc.nextDataEmpty + (b.take (64 - hc.nextDataEmpty)).length ≤ hc.data.length := by
      simp [h.length, h.next]
      omega
    let hc' : NhCtx :=
      { hc with data := write hc.data hc.nextDataEmpty (b.take (64 - hc.nextDataEmpty)) }
    have hat' : hc'.At (d ++ b) (d.length / 64 * 2) := ⟨hat.bytesHashed, hat.state⟩
    have hdata : ∀ x < 32 * 2, hc'.data.getD x 0 = (d ++ b).getD (32 * (d.length / 64 * 2) + x) 0 := by
      intro x hx
      have hplace : 32 * (d.length / 64 * 2) + x = d.length / 64 * 64 + x := by omega
      have hold : x < d.length % 64 → d.length / 64 * 64 + x < d.length := by omega
      rw [getD_write hroom, hplace, h.next]
      by_cases hlt : x < d.length % 64
      · rw [if_pos hlt, h.rest x hlt, List.getD_append _ _ _ _ (hold hlt)]
      · have hin : x < d.length % 64 + (b.take (64 - d.length % 64)).length := by
          simp
          omega
        rw [if_neg hlt, if_pos hin, List.getD_append_right _ _ _ _ (by omega)]
        have hidx : d.length / 64 * 64 + x - d.length = x - d.length % 64 := by omega
        have htake : x - d.length % 64 < 64 - d.length % 64 := by omega
        simp [hidx, htake]
    have hfill : nhFill hc b = ({ nhTransform hc' hc'.data 64 with bytesHashed := hc.bytesHashed + 64 },
        b.drop (64 - hc.nextDataEmpty)) := if_neg hj
    have hsplit : (d.length / 64 + 1) * 64 = d.length + (64 - hc.nextDataEmpty) := by
      rw [h.next]
      omega
    rw [hfill, hq]
    refine ⟨⟨?_, ?_⟩, ?_, ?_, ?_, rfl⟩
    · show hc.bytesHashed + 64 = _
      rw [h.at_.bytesHashed]
      omega
    · have hsum := hat'.transform hdata
      rwa [← Nat.succ_mul] at hsum
    · rw [hsplit, List.drop_append]
      simp
    · rw [List.length_append]
      omega
    · exact (length_write hroom).trans h.length

theorem nhDirect_left {key : List U32} {q : Nat} {r : NhCtx × List UInt8} (h : Left key d q r) :
    Left key d (d.length / 64) (nhDirect r.1 r.2) := by
  have hlen : r.2.length = d.length - q * 64 := by rw [h.rest, List.length_drop]
  have hle := h.le
  unfold nhDirect
  by_cases hlt : r.2.length < 64
  · have hq : d.length / 64 = q := by omega
    rwa [if_pos hlt, hq]
  · have hcount : q + r.2.length / 64 = d.length / 64 := by omega
    have hbytes : r.2.length / 64 * 64 = 32 * (r.2.length / 64 * 2) := by omega
    have hbuf : ∀ x < 32 * (r.2.length / 64 * 2), r.2.getD x 0 = d.getD (32 * (q * 2) + x) 0 := by
      intro x _
      have hplace : q * 64 + x = 32 * (q * 2) + x := by omega
      simp [h.rest, hplace]
    rw [if_neg hlt]
    refine ⟨⟨?_, ?_⟩, ?_, ?_, h.length, h.key⟩
    · show r.1.bytesHashed + r.2.length / 64 * 64 = _
      rw [h.at_.bytesHashed]
      omega
    · have hsum := h.at_.transform hbuf
      rw [← Nat.add_mul, hcount, ← hbytes] at hsum
      exact hsum
    · show r.2.drop (r.2.length / 64 * 64) = _
      have hplace : q * 64 + r.2.length / 64 * 64 = d.length / 64 * 64 := by omega
      rw [← hplace, ← List.drop_drop, ← h.rest]
    · omega

/-- **`nh_update` keeps what the context knows**, of the data with the new bytes. -/
theorem nhUpdate_holds (h : hc.Holds d) (b : List UInt8) : (nhUpdate hc b).Holds (d ++ b) := by
  rw [nhUpdate_eq]
  by_cases hlt : hc.nextDataEmpty + b.length < 64
  · have hnext := h.next
    have hdiv : (d ++ b).length / 64 = d.length / 64 := by
      rw [List.length_append]
      omega
    have hmod : (d ++ b).length % 64 = hc.nextDataEmpty + b.length := by
      rw [List.length_append]
      omega
    have hroom : hc.nextDataEmpty + b.length ≤ hc.data.length := by
      rw [h.length]
      omega
    rw [if_pos hlt]
    refine ⟨⟨?_, ?_⟩, ?_, hmod.symm, ?_⟩
    · rw [hdiv]
      exact h.at_.bytesHashed
    · rw [hdiv, sums_append _ (by omega)]
      exact h.at_.state
    · exact (length_write hroom).trans h.length
    · intro x hx
      rw [hmod] at hx
      rw [hdiv, getD_write hroom, if_pos hx]
      by_cases hold : x < d.length % 64
      · rw [if_pos (hnext ▸ hold), h.rest x hold, List.getD_append _ _ _ _ (by omega)]
      · rw [if_neg (hnext ▸ hold), List.getD_append_right _ _ _ _ (by omega)]
        congr 1
        omega
  · have hlen : 64 ≤ d.length % 64 + b.length := by
      rw [← h.next]
      omega
    rw [if_neg hlt]
    have hleft := nhDirect_left (nhFill_left h hlen)
    generalize nhDirect (nhFill hc b).1 (nhFill hc b).2 = r at hleft ⊢
    have hrest : r.2.length = (d ++ b).length % 64 := by
      rw [hleft.rest, List.length_drop]
      omega
    have hroom : 0 + r.2.length ≤ r.1.data.length := by
      rw [hleft.length, hrest]
      omega
    refine ⟨⟨hleft.at_.bytesHashed, hleft.at_.state⟩, ?_, hrest, ?_⟩
    · exact (length_write hroom).trans hleft.length
    · intro x hx
      have hin : x < 0 + r.2.length := by omega
      show (write r.1.data 0 r.2).getD x 0 = _
      rw [getD_write hroom, if_neg (Nat.not_lt_zero x), if_pos hin]
      simp [hleft.rest]

/-! ## The result -/

/-- The number of blocks, when the data is padded; there is always one. -/
def blocks (len : Nat) : Nat := max 1 ((len + 31) / 32)

/-- NH: the sums over the padded data, with the number of bits added. -/
def nhValue (key : List U32) (d : List UInt8) : Fin 2 → U64 := fun s =>
  sums key d (blocks d.length) s + BitVec.ofNat 64 (d.length * 8)

/-- Past its end the data reads as zeros. -/
theorem getD_zeroPad {buf : List UInt8} {off n : Nat} (h : off + n ≤ buf.length) {i : Nat}
    (hi : off ≤ i) (hin : i < off + n) : (zeroPad buf off n).getD i 0 = 0 := by
  have hroom : off + (List.replicate n (0 : UInt8)).length ≤ buf.length := by simpa using h
  have hlt : i - off < n := by omega
  rw [zeroPad, getD_write hroom, if_neg (by omega), if_pos (by simpa using hin)]
  simp [hlt]

/-- The buffer has the last bytes of the data, and zeros. -/
theorem NhCtx.Holds.zeroPad (h : hc.Holds d) {n : Nat} (hlen : d.length % 64 ≤ n) (hn : n ≤ 64) :
    ∀ x < n, (zeroPad hc.data hc.nextDataEmpty (n - hc.nextDataEmpty)).getD x 0 =
      d.getD (32 * (d.length / 64 * 2) + x) 0 := by
  intro x hx
  have hplace : 32 * (d.length / 64 * 2) + x = d.length / 64 * 64 + x := by omega
  have hnext := h.next
  have hroom : hc.nextDataEmpty + (n - hc.nextDataEmpty) ≤ hc.data.length := by
    rw [h.length]
    omega
  rw [hplace]
  by_cases hlt : x < d.length % 64
  · have hroom' : hc.nextDataEmpty + (List.replicate (n - hc.nextDataEmpty) (0 : UInt8)).length ≤
        hc.data.length := by simpa using hroom
    rw [Umac.zeroPad, getD_write hroom', if_pos (hnext ▸ hlt), h.rest x hlt]
  · have hend : d.length ≤ d.length / 64 * 64 + x := by omega
    rw [getD_zeroPad hroom (by omega) (by omega), List.getD_eq_default _ _ hend]

theorem nhPadded_eq (hc : NhCtx) :
    nhPadded hc =
      if hc.nextDataEmpty ≠ 0 then
        let nhLen := (hc.nextDataEmpty + 31) / 32 * 32
        let hc' := { hc with data := zeroPad hc.data hc.nextDataEmpty (nhLen - hc.nextDataEmpty) }
        { nhTransform hc' hc'.data nhLen with bytesHashed := hc.bytesHashed + hc.nextDataEmpty }
      else if hc.bytesHashed = 0 then
        let hc' := { hc with data := zeroPad hc.data 0 32 }
        nhTransform hc' hc'.data 32
      else hc := rfl

/-- The data that was kept back is hashed too. -/
theorem nhPadded_state (h : hc.Holds d) :
    (nhPadded hc).state = sums hc.nhKey d (blocks d.length) ∧
      (nhPadded hc).bytesHashed = d.length := by
  have hhashed := h.at_.bytesHashed
  have hnext := h.next
  rw [nhPadded_eq]
  by_cases hzero : hc.nextDataEmpty = 0
  · rw [if_neg (not_not_intro hzero)]
    by_cases hnone : hc.bytesHashed = 0
    · have hlen : d.length = 0 := by omega
      have hd : d = [] := List.eq_nil_of_length_eq_zero hlen
      let hc' : NhCtx := { hc with data := Umac.zeroPad hc.data 0 32 }
      have hat : hc'.At d 0 := by
        refine ⟨hnone, ?_⟩
        have hstate := h.at_.state
        rwa [hlen] at hstate
      have hdata : ∀ x < 32 * 1, hc'.data.getD x 0 = d.getD (32 * 0 + x) 0 := by
        intro x hx
        have hpad := h.zeroPad (n := 32) (by simp [hlen]) (by simp) x hx
        rw [hzero, hlen] at hpad
        exact hpad
      rw [if_pos hnone]
      refine ⟨(hat.transform hdata).trans ?_, hnone.trans hlen.symm⟩
      simp [blocks, hd, hc']
    · have hblocks : blocks d.length = d.length / 64 * 2 := by
        unfold blocks
        omega
      rw [if_neg hnone, hblocks]
      exact ⟨h.at_.state, by omega⟩
  · have hblocks : blocks d.length = d.length / 64 * 2 + (hc.nextDataEmpty + 31) / 32 := by
      unfold blocks
      omega
    let nhLen := (hc.nextDataEmpty + 31) / 32 * 32
    let hc' : NhCtx :=
      { hc with data := Umac.zeroPad hc.data hc.nextDataEmpty (nhLen - hc.nextDataEmpty) }
    have hat : hc'.At d (d.length / 64 * 2) := ⟨hhashed, h.at_.state⟩
    have hdata : ∀ x < 32 * ((hc.nextDataEmpty + 31) / 32),
        hc'.data.getD x 0 = d.getD (32 * (d.length / 64 * 2) + x) 0 := by
      intro x hx
      exact h.zeroPad (by omega) (by omega) x (by omega)
    have hsum := hat.transform hdata
    rw [Nat.mul_comm 32, ← hblocks] at hsum
    rw [if_pos hzero]
    refine ⟨hsum, ?_⟩
    show hc.bytesHashed + hc.nextDataEmpty = d.length
    omega

@[simp] theorem nhKey_nhPadded (hc : NhCtx) : (nhPadded hc).nhKey = hc.nhKey := by
  rw [nhPadded_eq]
  split
  · rfl
  · split <;> rfl

theorem length_nhPadded (h : hc.Holds d) : (nhPadded hc).data.length = 64 := by
  have hnext := h.next
  have hpad {off n : Nat} (hle : off + n ≤ 64) : (Umac.zeroPad hc.data off n).length = 64 := by
    have hroom : off + (List.replicate n (0 : UInt8)).length ≤ hc.data.length := by
      simpa [h.length] using hle
    exact (length_write hroom).trans h.length
  rw [nhPadded_eq]
  split
  · exact hpad (by omega)
  · split
    · exact hpad (by simp)
    · exact h.length

/-- **`nh_final`** gives NH of the data, however it was cut, and a context that is empty. -/
theorem nhFinal_eq (h : hc.Holds d) :
    (nhFinal hc).1 = nhValue hc.nhKey d ∧ (nhFinal hc).2.Holds [] ∧
      (nhFinal hc).2.nhKey = hc.nhKey := by
  obtain ⟨hstate, hbytes⟩ := nhPadded_state h
  refine ⟨?_, holds_nhReset _ (length_nhPadded h), nhKey_nhPadded hc⟩
  funext s
  simp only [nhFinal, hstate, hbytes, nhValue]

/-- **`nh`** gives the same, of data that is padded in its place. -/
theorem nh_eq (hc : NhCtx) (d : List UInt8) :
    nh hc (d ++ List.replicate (32 * blocks d.length - d.length) 0) (32 * blocks d.length) d.length =
      nhValue hc.nhKey d := by
  have hcount : 32 * blocks d.length / 32 = blocks d.length := by omega
  funext s
  simp only [nh, nhAux_eq, hcount, nhValue, sums]
  rw [add_comm]
  refine congrArg (· + _) (Nh.hash_congr fun i _ => loadLittle_congr fun x _ => ?_)
  by_cases hlt : 4 * i + x < d.length
  · exact List.getD_append _ _ _ _ hlt
  · have hle := Nat.le_of_not_lt hlt
    rw [List.getD_append_right _ _ _ _ hle, List.getD_eq_default d _ hle]
    simp

end Contexts

/-! ## Collisions -/

/-- The bytes of a word. -/
theorem extract_loadLittle (d : List UInt8) (i : Nat) {x : Nat} (hx : x < 4) :
    (loadLittle d i).extractLsb' (8 * x) 8 = (d.getD (4 * i + x) 0).toBitVec := by
  refine BitVec.eq_of_getLsbD_eq fun j hj => ?_
  have hx : x = 0 ∨ x = 1 ∨ x = 2 ∨ x = 3 := by omega
  simp only [BitVec.getLsbD_extractLsb', hj, decide_true, Bool.true_and, loadLittle,
    BitVec.getLsbD_append]
  have h1 : ¬ 8 + j < 8 := by omega
  have h2 : ¬ 16 + j < 8 ∧ ¬ 16 + j - 8 < 8 := by omega
  have h3 : ¬ 24 + j < 8 ∧ ¬ 24 + j - 8 < 8 ∧ ¬ 24 + j - 8 - 8 < 8 := by omega
  have hback : 16 + j - 8 - 8 = j ∧ 24 + j - 8 - 8 - 8 = j := by omega
  rcases hx with rfl | rfl | rfl | rfl <;> simp [hj, h1, h2, h3, hback]

/-- Data of one length that differs, differs in a word. -/
theorem exists_loadLittle_ne {d d' : List UInt8} (hlen : d.length = d'.length) (hne : d ≠ d') :
    ∃ p < 8 * blocks d.length, loadLittle d p ≠ loadLittle d' p := by
  by_contra hall
  push Not at hall
  apply hne
  refine List.ext_getElem hlen fun i hi hi' => ?_
  have hword := hall (i / 4) (by unfold blocks; omega)
  have hbyte := extract_loadLittle d (i / 4) (Nat.mod_lt i (by simp : 4 > 0))
  have hbyte' := extract_loadLittle d' (i / 4) (Nat.mod_lt i (by simp : 4 > 0))
  rw [Nat.div_add_mod, List.getD_eq_getElem _ _ hi] at hbyte
  rw [Nat.div_add_mod, List.getD_eq_getElem _ _ hi', ← hword, hbyte] at hbyte'
  exact UInt8.toBitVec_inj.mp hbyte'

/-- **For two messages of one length there is a word of the key** of which, whatever the other ones are,
    at most one value puts the two results a given amount apart. -/
theorem nhValue_unique {d d' : List UInt8} (hlen : d.length = d'.length) (hne : d ≠ d') (s : Fin 2) :
    ∃ q < 8 * blocks d.length, ∀ key key' : List U32,
      (∀ i, i ≠ 4 * s.val + q → key.getD i 0 = key'.getD i 0) →
      nhValue key d s - nhValue key d' s = nhValue key' d s - nhValue key' d' s →
        key.getD (4 * s.val + q) 0 = key'.getD (4 * s.val + q) 0 := by
  obtain ⟨p, hp, hword⟩ := exists_loadLittle_ne hlen hne
  have hpartner : Nh.partner p < 8 * blocks d.length := by
    unfold Nh.partner
    split <;> omega
  refine ⟨Nh.partner p, hpartner, fun key key' hkey h => ?_⟩
  refine @Nh.hash_unique 32 64 (streamKey key s) (streamKey key' s) _ _ (by simp) _ _ hp hword ?_ ?_
  · intro i hi
    exact hkey _ (by omega)
  · simp only [nhValue, sums, hlen, add_sub_add_right_eq_sub] at h
    rwa [hlen]

/-- Two messages of a byte: the partner of the first word is the word 4 of the key. -/
theorem nhValue_unique_byte :
    ∃ q < 8, ∀ key key' : List U32, (∀ i, i ≠ 4 * (1 : Fin 2).val + q → key.getD i 0 = key'.getD i 0) →
      nhValue key [1] 1 - nhValue key [2] 1 = nhValue key' [1] 1 - nhValue key' [2] 1 →
        key.getD (4 * (1 : Fin 2).val + q) 0 = key'.getD (4 * (1 : Fin 2).val + q) 0 :=
  @nhValue_unique [1] [2] rfl (by decide) 1

end CodeSLoop.Umac
