import CodeSLoop.Sec.UmacPoly

/-!
# UHASH (`sec/umac.c`)

Data of up to 1024 bytes is hashed by NH and then by IP. Longer data is cut into blocks of 1024
bytes, and POLY comes in between.

`uhash_update` takes the data in pieces of any size; `uhash` takes it as a whole. What a context
knows of its data is `UhashCtx.Holds`: the blocks that are complete have gone into `poly_accum`, except
that the first one waits until it is known that there is more. Both ways give `uhashValue`, whatever
the pieces were (`uhashFinal_eq`, `uhash_eq`), and leave a context for new data.

`msg_len` has 32 bits. Data of 16 MB is the most that the comment on `poly_hash` allows.
-/

namespace CodeSLoop.Umac

/-! ## The code -/

/-- `uhash_ctx`; the keys are from their domains. -/
structure UhashCtx where
  hash : NhCtx
  polyKey8 : Fin 2 → U64
  polyAccum : Fin 2 → U64
  ipKeys : List U64
  ipTrans : Fin 2 → U32
  msgLen : Nat
  polyKey : ∀ i, PolyKey (polyKey8 i)
  ipKey : IpKeys ipKeys

/-- `STORE_UINT32_BIG`. -/
def storeBig (x : U32) : List UInt8 :=
  [⟨(x >>> 24).setWidth 8⟩, ⟨(x >>> 16).setWidth 8⟩, ⟨(x >>> 8).setWidth 8⟩, ⟨x.setWidth 8⟩]

def polyHash (hc : UhashCtx) (dataIn : Fin 2 → U64) : UhashCtx :=
  { hc with polyAccum := fun i => polyHash1 (hc.polyAccum i) (hc.polyKey8 i) (dataIn i) }

/-- What `ip_short` and `ip_long` store for the two streams. -/
def ipStore (ahc : UhashCtx) (data : Fin 2 → U64) : List UInt8 :=
  (List.finRange 2).flatMap fun i =>
    storeBig (ipReduceP36 (ipAux 0 (ahc.ipKeys.drop (i.val * 4)) (data i)) ^^^ ahc.ipTrans i)

/-- `ip_short`: the bytes of the result. -/
def ipShort (ahc : UhashCtx) (nhRes : Fin 2 → U64) : List UInt8 := ipStore ahc nhRes

/-- `ip_long`: the bytes of the result; `poly_accum` is reduced in its place. -/
def ipLong (ahc : UhashCtx) : List UInt8 × UhashCtx :=
  let ahc := { ahc with polyAccum := fun i => polyFix (ahc.polyAccum i) }
  (ipStore ahc ahc.polyAccum, ahc)

def uhashReset (pc : UhashCtx) : UhashCtx :=
  { pc with hash := nhReset pc.hash, msgLen := 0, polyAccum := fun _ => 1 }

/-- A loop over the whole blocks of a buffer: the context and the bytes that are left. -/
def whileBlocks (body : UhashCtx → List UInt8 → UhashCtx) (ctx : UhashCtx) (input : List UInt8) :
    UhashCtx × List UInt8 :=
  if 1024 ≤ input.length then whileBlocks body (body ctx input) (input.drop 1024) else (ctx, input)
termination_by input.length
decreasing_by
  rw [List.length_drop]
  omega

/-- `nh` and `poly_hash`, of the block that a buffer begins with. -/
def nhBlock (ctx : UhashCtx) (input : List UInt8) : UhashCtx := polyHash ctx (nh ctx.hash input 1024 1024)

/-- The block that was begun before is completed; the bytes that are left. -/
def uhashComplete (ctx : UhashCtx) (input : List UInt8) (bytesHashed : Nat) : UhashCtx × List UInt8 :=
  if bytesHashed = 0 then (ctx, input)
  else
    let bytesRemaining := 1024 - bytesHashed
    let (nhResult, hash) := nhFinal (nhUpdate ctx.hash (input.take bytesRemaining))
    let ctx := { ctx with hash := hash, msgLen := (ctx.msgLen + bytesRemaining) % 2 ^ 32 }
    (polyHash ctx nhResult, input.drop bytesRemaining)

def uhashUpdate (ctx : UhashCtx) (input : List UInt8) : UhashCtx :=
  if ctx.msgLen + input.length ≤ 1024 then
    { ctx with hash := nhUpdate ctx.hash input, msgLen := (ctx.msgLen + input.length) % 2 ^ 32 }
  else
    let bytesHashed := if ctx.msgLen = 1024 then 1024 else ctx.msgLen % 1024
    let (ctx, input) :=
      if bytesHashed + input.length ≥ 1024 then
        let (ctx, input) := uhashComplete ctx input bytesHashed
        whileBlocks (fun ctx input => { nhBlock ctx input with msgLen := (ctx.msgLen + 1024) % 2 ^ 32 })
          ctx input
      else (ctx, input)
    if input.length ≠ 0 then
      { ctx with hash := nhUpdate ctx.hash input, msgLen := (ctx.msgLen + input.length) % 2 ^ 32 }
    else ctx

/-- `uhash_final`: the result and the context. -/
def uhashFinal (ctx : UhashCtx) : List UInt8 × UhashCtx :=
  if ctx.msgLen > 1024 then
    let ctx :=
      if ctx.msgLen % 1024 ≠ 0 then
        let (nhResult, hash) := nhFinal ctx.hash
        polyHash { ctx with hash := hash } nhResult
      else ctx
    let (res, ctx) := ipLong ctx
    (res, uhashReset ctx)
  else
    let (nhResult, hash) := nhFinal ctx.hash
    let ctx := { ctx with hash := hash }
    (ipShort ctx nhResult, uhashReset ctx)

/-- `nh`, of a message that is padded in its place. -/
def nhPad (ahc : UhashCtx) (msg : List UInt8) (nhLen : Nat) : Fin 2 → U64 :=
  nh ahc.hash (msg ++ List.replicate (nhLen - msg.length) 0) nhLen msg.length

/-- `uhash`: the result and the context. -/
def uhash (ahc : UhashCtx) (msg : List UInt8) : List UInt8 × UhashCtx :=
  if msg.length ≤ 1024 then
    let nhLen := if msg.length = 0 then 32 else (msg.length + 31) / 32 * 32
    (ipShort ahc (nhPad ahc msg nhLen), uhashReset ahc)
  else
    let (ahc, msg) := whileBlocks nhBlock ahc msg
    let ahc :=
      if msg.length ≠ 0 then polyHash ahc (nhPad ahc msg ((msg.length + 31) / 32 * 32)) else ahc
    let (res, ahc) := ipLong ahc
    (res, uhashReset ahc)

/-! ## What is computed -/

/-- What of a context does not change. -/
structure UhashKeys where
  nhKey : List U32
  polyKey8 : Fin 2 → U64
  ipKeys : List U64
  ipTrans : Fin 2 → U32

def UhashCtx.keys (ctx : UhashCtx) : UhashKeys :=
  ⟨ctx.hash.nhKey, ctx.polyKey8, ctx.ipKeys, ctx.ipTrans⟩

/-- The result for two numbers. -/
def ipBytes (keys : UhashKeys) (w : Fin 2 → U64) : List UInt8 :=
  (List.finRange 2).flatMap fun i =>
    storeBig (ipValue (keys.ipKeys.drop (i.val * 4)) (w i) ^^^ keys.ipTrans i)

/-- The numbers that NH gives for the first `q` blocks. -/
def nhBlocks (key : List U32) (d : List UInt8) (q : Nat) (s : Fin 2) : List U64 :=
  (List.range q).map fun i => nhValue key ((d.drop (1024 * i)).take 1024) s

/-- POLY: the value of the polynomial of the numbers. -/
def polyValue (key : U64) (ws : List U64) : U64 :=
  BitVec.ofNat 64 (PolyHash.horner (key.toNat : ZMod p64) 1 (ws.flatMap encode)).val

/-- **UHASH.** -/
def uhashValue (keys : UhashKeys) (d : List UInt8) : List UInt8 :=
  if d.length ≤ 1024 then ipBytes keys (nhValue keys.nhKey d)
  else ipBytes keys fun s => polyValue (keys.polyKey8 s) (nhBlocks keys.nhKey d ((d.length + 1023) / 1024) s)

/-! ## Blocks -/

section Blocks

variable {ctx : UhashCtx} {keys : UhashKeys} {d b : List UInt8} {q : Nat}

@[simp] theorem keys_polyHash (w : Fin 2 → U64) : (polyHash ctx w).keys = ctx.keys := rfl

@[simp] theorem keys_nhBlock (input : List UInt8) : (nhBlock ctx input).keys = ctx.keys := rfl

/-- NH of a whole block, from where it is. -/
theorem nh_take (hc : NhCtx) {d : List UInt8} (h : 1024 ≤ d.length) :
    nh hc d 1024 1024 = nhValue hc.nhKey (d.take 1024) := by
  have hlen : (d.take 1024).length = 1024 := by simpa using h
  have hblocks : 32 * blocks (d.take 1024).length = 1024 := by
    rw [hlen]
    rfl
  have heq := nh_eq hc (d.take 1024)
  rw [hblocks, hlen, Nat.sub_self, List.replicate_zero, List.append_nil] at heq
  rw [← heq]
  funext s
  simp only [nh, nhAux_eq]
  refine congrArg (_ + ·) (Nh.hash_congr fun i hi => loadLittle_congr fun x hx => ?_)
  have hlt : 4 * i + x < 1024 := by omega
  simp [hlt]

/-- NH of a message that is padded in its place. -/
theorem nhPad_eq (ctx : UhashCtx) (d : List UInt8) {n : Nat} (hn : n = 32 * blocks d.length) :
    nhPad ctx d n = nhValue ctx.keys.nhKey d := by
  rw [hn]
  exact nh_eq ctx.hash d

theorem nhBlocks_zero (key : List U32) (d : List UInt8) (s : Fin 2) : nhBlocks key d 0 s = [] := rfl

theorem nhBlocks_succ (key : List U32) (d : List UInt8) (q : Nat) (s : Fin 2) :
    nhBlocks key d (q + 1) s = nhBlocks key d q s ++ [nhValue key ((d.drop (1024 * q)).take 1024) s] := by
  simp [nhBlocks, List.range_succ]

/-- The blocks that are there stay when data is added. -/
theorem nhBlocks_append (key : List U32) (h : 1024 * q ≤ d.length) (s : Fin 2) :
    nhBlocks key (d ++ b) q s = nhBlocks key d q s := by
  refine List.map_congr_left fun i hi => ?_
  have hi : i < q := List.mem_range.mp hi
  have hlen : 1024 ≤ (d.drop (1024 * i)).length := by
    rw [List.length_drop]
    omega
  rw [List.drop_append_of_le_length (by omega), List.take_append_of_le_length hlen]

/-- The first `q` blocks of the data are in `poly_accum`. -/
structure UhashCtx.After (ctx : UhashCtx) (keys : UhashKeys) (d : List UInt8) (q : Nat) : Prop where
  same : ctx.keys = keys
  accum : ctx.polyAccum = fun s => polyHashes 1 (keys.polyKey8 s) (nhBlocks keys.nhKey d q s)

theorem UhashCtx.After.append (h : ctx.After keys d q) (hq : 1024 * q ≤ d.length) (b : List UInt8) :
    ctx.After keys (d ++ b) q := by
  refine ⟨h.same, ?_⟩
  rw [h.accum]
  simp only [nhBlocks_append _ hq]

/-- `poly_hash` takes the next one. -/
theorem UhashCtx.After.polyHash (h : ctx.After keys d q) {w : Fin 2 → U64}
    (hw : w = nhValue keys.nhKey ((d.drop (1024 * q)).take 1024)) :
    (polyHash ctx w).After keys d (q + 1) := by
  refine ⟨h.same, ?_⟩
  have hkey : ctx.polyKey8 = keys.polyKey8 := congrArg UhashKeys.polyKey8 h.same
  funext s
  simp only [Umac.polyHash, nhBlocks_succ, polyHashes, List.foldl_append, h.accum, hkey, hw,
    List.foldl_cons, List.foldl_nil]

theorem UhashCtx.After.nhBlock (h : ctx.After keys d q) {input : List UInt8}
    (hinput : input = d.drop (1024 * q)) (hlen : 1024 ≤ input.length) :
    (nhBlock ctx input).After keys d (q + 1) := by
  apply h.polyHash
  have hkey : ctx.hash.nhKey = keys.nhKey := congrArg UhashKeys.nhKey h.same
  rw [nh_take ctx.hash hlen, hkey, hinput]

/-- **A loop over whole blocks** takes all that there are. -/
theorem whileBlocks_spec {body : UhashCtx → List UInt8 → UhashCtx} {P : UhashCtx → Nat → Prop}
    (hbody : ∀ ctx q, P ctx q → 1024 * (q + 1) ≤ d.length → P (body ctx (d.drop (1024 * q))) (q + 1)) :
    ∀ n ctx q, d.length / 1024 = q + n → P ctx q →
      P (whileBlocks body ctx (d.drop (1024 * q))).1 (d.length / 1024) ∧
        (whileBlocks body ctx (d.drop (1024 * q))).2 = d.drop (1024 * (d.length / 1024)) := by
  intro n
  induction n with
  | zero =>
    intro ctx q hq h
    have hshort : ¬ 1024 ≤ (d.drop (1024 * q)).length := by
      rw [List.length_drop]
      omega
    rw [whileBlocks, if_neg hshort, hq]
    exact ⟨h, rfl⟩
  | succ n ih =>
    intro ctx q hq h
    have hlong : 1024 ≤ (d.drop (1024 * q)).length := by
      rw [List.length_drop]
      omega
    have hnext : 1024 * q + 1024 = 1024 * (q + 1) := by omega
    rw [whileBlocks, if_pos hlong, List.drop_drop, hnext]
    exact ih _ _ (by omega) (hbody ctx q h (by omega))

/-! ## A context and its data -/

/-- The blocks that have gone into `poly_accum`, of so many bytes. -/
def done (len : Nat) : Nat := if len ≤ 1024 then 0 else len / 1024

/-- **What a context knows of its data.** -/
structure UhashCtx.Holds (ctx : UhashCtx) (keys : UhashKeys) (d : List UInt8) : Prop where
  after : ctx.After keys d (done d.length)
  hash : ctx.hash.Holds (d.drop (1024 * done d.length))
  msgLen : ctx.msgLen = d.length

theorem uhashReset_holds (ctx : UhashCtx) (h : ctx.hash.data.length = 64) :
    (uhashReset ctx).Holds ctx.keys [] :=
  ⟨⟨rfl, rfl⟩, holds_nhReset ctx.hash h, rfl⟩

/-- Between two blocks: what comes has not been looked at. -/
structure UhashCtx.Between (ctx : UhashCtx) (keys : UhashKeys) (d : List UInt8) (q : Nat) : Prop where
  after : ctx.After keys d q
  hash : ctx.hash.Holds []
  msgLen : ctx.msgLen = 1024 * q

/-- The data behind the blocks is what `bytes_hashed` counts. -/
theorem done_bytes {len n : Nat} (hn : n = if len = 1024 then 1024 else len % 1024) :
    1024 * done len + n = len := by
  unfold done
  by_cases h : len = 1024
  · simp [hn, h]
  · rw [if_neg h] at hn
    split <;> omega

/-- The block that was begun is completed. -/
theorem uhashComplete_between (h : ctx.Holds keys d) {n : Nat}
    (hn : n = if ctx.msgLen = 1024 then 1024 else ctx.msgLen % 1024) (hlen : 1024 ≤ n + b.length)
    (hbound : d.length + b.length < 2 ^ 32) :
    ∃ q, 1024 * q ≤ d.length + b.length ∧ (uhashComplete ctx b n).1.Between keys (d ++ b) q ∧
      (uhashComplete ctx b n).2 = (d ++ b).drop (1024 * q) := by
  rw [h.msgLen] at hn
  have hdone := done_bytes hn
  have hafter := h.after.append (by omega) b
  have hmsgLen := h.msgLen
  by_cases hzero : n = 0
  · have hall : 1024 * done d.length = d.length := by omega
    have hhash := h.hash
    rw [hall, List.drop_length] at hhash
    rw [uhashComplete, if_pos hzero]
    refine ⟨done d.length, by omega, ⟨hafter, hhash, hmsgLen.trans hall.symm⟩, ?_⟩
    rw [hall, List.drop_left]
  · have hn1024 : n ≤ 1024 := by
      rw [hn]
      split <;> omega
    have heq : uhashComplete ctx b n =
        let r := nhFinal (nhUpdate ctx.hash (b.take (1024 - n)))
        (polyHash { ctx with hash := r.2, msgLen := (ctx.msgLen + (1024 - n)) % 2 ^ 32 } r.1,
          b.drop (1024 - n)) := if_neg hzero
    have hblock : d.drop (1024 * done d.length) ++ b.take (1024 - n) =
        ((d ++ b).drop (1024 * done d.length)).take 1024 := by
      have hrest : (d.drop (1024 * done d.length)).length = n := by
        rw [List.length_drop]
        omega
      rw [List.drop_append_of_le_length (by omega), List.take_append, hrest]
      exact congrArg (· ++ b.take (1024 - n)) (List.take_of_length_le (by omega)).symm
    obtain ⟨hvalue, hempty, hkey⟩ := nhFinal_eq (nhUpdate_holds h.hash (b.take (1024 - n)))
    rw [hblock, nhKey_nhUpdate] at hvalue
    rw [nhKey_nhUpdate] at hkey
    rw [heq]
    generalize nhFinal (nhUpdate ctx.hash (b.take (1024 - n))) = r at hvalue hempty hkey ⊢
    have hnhKey : ctx.hash.nhKey = keys.nhKey := congrArg UhashKeys.nhKey h.after.same
    have hsame : UhashCtx.After
        { ctx with hash := r.2, msgLen := (ctx.msgLen + (1024 - n)) % 2 ^ 32 } keys (d ++ b)
        (done d.length) := by
      refine ⟨?_, hafter.accum⟩
      rw [← hafter.same]
      exact congrArg (fun k => (⟨k, ctx.polyKey8, ctx.ipKeys, ctx.ipTrans⟩ : UhashKeys)) hkey
    refine ⟨done d.length + 1, by omega, ⟨hsame.polyHash (hnhKey ▸ hvalue), hempty, ?_⟩, ?_⟩
    · show (ctx.msgLen + (1024 - n)) % 2 ^ 32 = _
      rw [Nat.mod_eq_of_lt (by omega)]
      omega
    · have hplace : 1024 * (done d.length + 1) = d.length + (1024 - n) := by omega
      rw [hplace, List.drop_append]
      simp

/-- The blocks that are there as a whole. -/
theorem whileBlocks_between {q : Nat} (h : ctx.Between keys d q) (hq : 1024 * q ≤ d.length)
    (hbound : d.length < 2 ^ 32) :
    let body := fun (ctx : UhashCtx) input =>
      { nhBlock ctx input with msgLen := (ctx.msgLen + 1024) % 2 ^ 32 }
    (whileBlocks body ctx (d.drop (1024 * q))).1.Between keys d (d.length / 1024) ∧
      (whileBlocks body ctx (d.drop (1024 * q))).2 = d.drop (1024 * (d.length / 1024)) := by
  intro body
  have hstep (ctx : UhashCtx) (q : Nat) (hctx : ctx.Between keys d q) (hle : 1024 * (q + 1) ≤ d.length) :
      (body ctx (d.drop (1024 * q))).Between keys d (q + 1) := by
    have hlong : 1024 ≤ (d.drop (1024 * q)).length := by
      rw [List.length_drop]
      omega
    have hnext := hctx.after.nhBlock rfl hlong
    have hlen : (ctx.msgLen + 1024) % 2 ^ 32 = 1024 * (q + 1) := by
      rw [hctx.msgLen, Nat.mod_eq_of_lt (by omega)]
      omega
    simp only [body]
    generalize d.drop (1024 * q) = input at hnext ⊢
    refine ⟨⟨?_, hnext.accum⟩, hctx.hash, hlen⟩
    have hsame := hnext.same
    rwa [UhashCtx.keys] at hsame ⊢
  exact whileBlocks_spec (P := fun ctx q => ctx.Between keys d q) hstep (d.length / 1024 - q) ctx q
    (by omega) h

/-- The bytes that do not fill a block. -/
theorem UhashCtx.Between.holds {q : Nat} (h : ctx.Between keys d q) (hq : q = d.length / 1024)
    (hlong : 1024 < d.length) (hbound : d.length < 2 ^ 32) :
    let rest := d.drop (1024 * q)
    (if rest.length ≠ 0 then
        { ctx with hash := nhUpdate ctx.hash rest, msgLen := (ctx.msgLen + rest.length) % 2 ^ 32 }
      else ctx).Holds keys d := by
  intro rest
  have hrest : rest.length = d.length - 1024 * q := List.length_drop
  have hdone : done d.length = q := by
    rw [done, if_neg (by omega), hq]
  have hmsgLen := h.msgLen
  by_cases hzero : rest.length = 0
  · have hnil : rest = [] := List.eq_nil_of_length_eq_zero hzero
    rw [if_neg (not_not_intro hzero)]
    refine ⟨hdone ▸ h.after, ?_, by omega⟩
    rw [hdone]
    show ctx.hash.Holds rest
    rw [hnil]
    exact h.hash
  · have hupd := nhUpdate_holds h.hash rest
    rw [if_pos hzero]
    refine ⟨hdone ▸ ⟨?_, h.after.accum⟩, ?_, ?_⟩
    · rw [← h.after.same, UhashCtx.keys, UhashCtx.keys, nhKey_nhUpdate]
    · rw [hdone]
      exact hupd
    · show (ctx.msgLen + rest.length) % 2 ^ 32 = d.length
      rw [Nat.mod_eq_of_lt (by omega)]
      omega

theorem uhashUpdate_eq (ctx : UhashCtx) (input : List UInt8) :
    uhashUpdate ctx input =
      if ctx.msgLen + input.length ≤ 1024 then
        { ctx with hash := nhUpdate ctx.hash input, msgLen := (ctx.msgLen + input.length) % 2 ^ 32 }
      else
        let n := if ctx.msgLen = 1024 then 1024 else ctx.msgLen % 1024
        let r := if n + input.length ≥ 1024 then
            whileBlocks (fun ctx input => { nhBlock ctx input with msgLen := (ctx.msgLen + 1024) % 2 ^ 32 })
              (uhashComplete ctx input n).1 (uhashComplete ctx input n).2
          else (ctx, input)
        if r.2.length ≠ 0 then
          { r.1 with hash := nhUpdate r.1.hash r.2, msgLen := (r.1.msgLen + r.2.length) % 2 ^ 32 }
        else r.1 := rfl

/-- More of the same block. -/
theorem UhashCtx.Holds.more (h : ctx.Holds keys d) (b : List UInt8)
    (hdone : done (d.length + b.length) = done d.length) (hbound : d.length + b.length < 2 ^ 32) :
    UhashCtx.Holds
      { ctx with hash := nhUpdate ctx.hash b, msgLen := (ctx.msgLen + b.length) % 2 ^ 32 }
      keys (d ++ b) := by
  have hle : 1024 * done d.length ≤ d.length := by
    unfold done
    split <;> omega
  have hupd := nhUpdate_holds h.hash b
  rw [← List.drop_append_of_le_length hle] at hupd
  have hafter := h.after.append hle b
  constructor
  · rw [List.length_append, hdone]
    refine ⟨?_, hafter.accum⟩
    rw [← h.after.same, UhashCtx.keys, UhashCtx.keys, nhKey_nhUpdate]
  · rw [List.length_append, hdone]
    exact hupd
  · rw [List.length_append, h.msgLen]
    exact Nat.mod_eq_of_lt hbound

/-- **`uhash_update` keeps what the context knows**, of the data with the new bytes. -/
theorem uhashUpdate_holds (h : ctx.Holds keys d) (b : List UInt8) (hbound : d.length + b.length < 2 ^ 32) :
    (uhashUpdate ctx b).Holds keys (d ++ b) := by
  have hmsgLen := h.msgLen
  rw [uhashUpdate_eq]
  by_cases hshort : ctx.msgLen + b.length ≤ 1024
  · have hdone : done (d.length + b.length) = done d.length := by
      rw [done, done, if_pos (by omega), if_pos (by omega)]
    rw [if_pos hshort]
    exact h.more b hdone hbound
  · rw [if_neg hshort]
    by_cases hfull : (if ctx.msgLen = 1024 then 1024 else ctx.msgLen % 1024) + b.length ≥ 1024
    · obtain ⟨q, hq, hbetween, hrest⟩ := uhashComplete_between h rfl hfull hbound
      rw [← List.length_append] at hq hbound
      have hlong : 1024 < (d ++ b).length := by
        rw [List.length_append]
        omega
      obtain ⟨hall, hrest'⟩ := whileBlocks_between hbetween hq hbound
      simp only [if_pos hfull, hrest, hrest']
      exact hall.holds rfl hlong hbound
    · have hdone : done (d.length + b.length) = done d.length := by
        have hless : ¬ ctx.msgLen % 1024 + b.length ≥ 1024 ∧ ctx.msgLen ≠ 1024 := by
          split at hfull <;> omega
        unfold done
        split <;> split <;> omega
      simp only [if_neg hfull]
      by_cases hzero : b.length = 0
      · have hnil : b = [] := List.eq_nil_of_length_eq_zero hzero
        rwa [if_neg (not_not_intro hzero), hnil, List.append_nil]
      · rw [if_pos hzero]
        exact h.more b hdone hbound

theorem toNat_polyValue (key : U64) (ws : List U64) :
    (polyValue key ws).toNat = (PolyHash.horner (key.toNat : ZMod p64) 1 (ws.flatMap encode)).val := by
  have hlt := ZMod.val_lt (PolyHash.horner (key.toNat : ZMod p64) 1 (ws.flatMap encode))
  rw [polyValue, BitVec.toNat_ofNat, Nat.mod_eq_of_lt (hlt.trans (by decide))]

/-- What `ip_long` starts with is the value of the polynomial. -/
theorem polyFix_polyHashes {key : U64} (hkey : PolyKey key) (ws : List U64) :
    polyFix (polyHashes 1 key ws) = polyValue key ws := by
  apply BitVec.eq_of_toNat_eq
  rw [toNat_polyFix, polyHashes_cast hkey, toNat_polyValue]
  rfl

theorem ipStore_eq (ctx : UhashCtx) (w : Fin 2 → U64) : ipStore ctx w = ipBytes ctx.keys w := by
  simp only [ipStore, ip_eq (ctx.ipKey.drop _)]
  rfl

theorem ipLong_eq (h : ctx.After keys d q) :
    (ipLong ctx).1 = ipBytes keys fun s => polyValue (keys.polyKey8 s) (nhBlocks keys.nhKey d q s) := by
  have hkey : keys.polyKey8 = ctx.polyKey8 := by rw [← h.same]; rfl
  have hvalue (s : Fin 2) :
      polyFix (ctx.polyAccum s) = polyValue (keys.polyKey8 s) (nhBlocks keys.nhKey d q s) := by
    rw [h.accum]
    exact polyFix_polyHashes (hkey ▸ ctx.polyKey s) _
  have hfixed : UhashCtx.keys { ctx with polyAccum := fun i => polyFix (ctx.polyAccum i) } = keys := h.same
  rw [ipLong, ipStore_eq, hfixed]
  simp only [hvalue]

/-! ## The result -/

theorem uhashFinal_def (ctx : UhashCtx) :
    uhashFinal ctx =
      let r := nhFinal ctx.hash
      if ctx.msgLen > 1024 then
        let ctx' := if ctx.msgLen % 1024 ≠ 0 then polyHash { ctx with hash := r.2 } r.1 else ctx
        ((ipLong ctx').1, uhashReset (ipLong ctx').2)
      else (ipShort { ctx with hash := r.2 } r.1, uhashReset { ctx with hash := r.2 }) := rfl

/-- The last number, of bytes that do not fill a block. -/
theorem UhashCtx.After.last (h : ctx.After keys d (d.length / 1024)) (hrest : d.length % 1024 ≠ 0)
    {w : Fin 2 → U64} (hw : w = nhValue keys.nhKey (d.drop (1024 * (d.length / 1024)))) :
    (Umac.polyHash ctx w).After keys d ((d.length + 1023) / 1024) := by
  have hq : (d.length + 1023) / 1024 = d.length / 1024 + 1 := by omega
  rw [hq]
  apply h.polyHash
  rw [hw, List.take_of_length_le]
  rw [List.length_drop]
  omega

theorem uhashReset_same (h : ctx.keys = keys) (hdata : ctx.hash.data.length = 64) :
    (uhashReset ctx).Holds keys [] := by
  have hreset := uhashReset_holds ctx hdata
  rwa [h] at hreset

/-- **`uhash_final`** gives UHASH of the data, however it was cut, and a context for new data. -/
theorem uhashFinal_eq (h : ctx.Holds keys d) :
    (uhashFinal ctx).1 = uhashValue keys d ∧ (uhashFinal ctx).2.Holds keys [] := by
  obtain ⟨hvalue, hempty, hkey⟩ := nhFinal_eq h.hash
  have hnhKey : ctx.hash.nhKey = keys.nhKey := congrArg UhashKeys.nhKey h.after.same
  rw [hnhKey] at hvalue hkey
  have hafter := h.after
  have hkeys : UhashCtx.After { ctx with hash := (nhFinal ctx.hash).2 } keys d (done d.length) := by
    refine ⟨?_, hafter.accum⟩
    rw [← hafter.same, UhashCtx.keys, UhashCtx.keys, hkey, hnhKey]
  have hmsgLen := h.msgLen
  rw [uhashFinal_def, uhashValue]
  generalize nhFinal ctx.hash = r at hvalue hempty hkeys ⊢
  by_cases hshort : d.length ≤ 1024
  · have hnone : 1024 * done d.length = 0 := by rw [done, if_pos hshort]
    rw [hnone, List.drop_zero] at hvalue
    have hno : ¬ ctx.msgLen > 1024 := by omega
    simp only [if_neg hno, if_pos hshort]
    rw [ipShort, ipStore_eq, hkeys.same, hvalue]
    exact ⟨rfl, uhashReset_same hkeys.same hempty.length⟩
  · have hdone : done d.length = d.length / 1024 := by rw [done, if_neg hshort]
    rw [hdone] at hvalue hkeys hafter
    have hyes : ctx.msgLen > 1024 := by omega
    simp only [if_pos hyes, if_neg hshort]
    by_cases hrest : d.length % 1024 = 0
    · have hq : (d.length + 1023) / 1024 = d.length / 1024 := by omega
      have hno : ¬ ctx.msgLen % 1024 ≠ 0 := by omega
      rw [if_neg hno, hq]
      exact ⟨ipLong_eq hafter, uhashReset_same hafter.same h.hash.length⟩
    · have hlast := hkeys.last hrest hvalue
      have hyes : ctx.msgLen % 1024 ≠ 0 := by omega
      rw [if_pos hyes]
      exact ⟨ipLong_eq hlast, uhashReset_same hlast.same hempty.length⟩

theorem uhash_def (ctx : UhashCtx) (d : List UInt8) :
    uhash ctx d =
      if d.length ≤ 1024 then
        (ipShort ctx (nhPad ctx d (if d.length = 0 then 32 else (d.length + 31) / 32 * 32)), uhashReset ctx)
      else
        let r := whileBlocks nhBlock ctx d
        let ctx' :=
          if r.2.length ≠ 0 then polyHash r.1 (nhPad r.1 r.2 ((r.2.length + 31) / 32 * 32)) else r.1
        ((ipLong ctx').1, uhashReset (ipLong ctx').2) := rfl

/-- **`uhash`** gives the same of data that is there as a whole. -/
theorem uhash_eq (h : ctx.Holds keys []) (d : List UInt8) :
    (uhash ctx d).1 = uhashValue keys d ∧ (uhash ctx d).2.Holds keys [] := by
  have hstart : ctx.After keys d 0 := by
    have hnone : done ([] : List UInt8).length = 0 := rfl
    refine ⟨h.after.same, ?_⟩
    rw [h.after.accum, hnone]
    simp only [nhBlocks_zero]
  rw [uhash_def, uhashValue]
  by_cases hshort : d.length ≤ 1024
  · have hlen : (if d.length = 0 then 32 else (d.length + 31) / 32 * 32) = 32 * blocks d.length := by
      unfold blocks
      split <;> omega
    rw [if_pos hshort, if_pos hshort, ipShort, ipStore_eq, nhPad_eq ctx d hlen, h.after.same]
    exact ⟨rfl, uhashReset_same hstart.same h.hash.length⟩
  · -- the buffer is not touched by the loop
    have hstep (c : UhashCtx) (q : Nat) (hc : c.After keys d q ∧ c.hash.data.length = 64)
        (hle : 1024 * (q + 1) ≤ d.length) :
        (nhBlock c (d.drop (1024 * q))).After keys d (q + 1) ∧
          (nhBlock c (d.drop (1024 * q))).hash.data.length = 64 := by
      have hlong : 1024 ≤ (d.drop (1024 * q)).length := by
        rw [List.length_drop]
        omega
      exact ⟨hc.1.nhBlock rfl hlong, hc.2⟩
    obtain ⟨⟨hall, hdata⟩, hrest⟩ := whileBlocks_spec
      (P := fun c q => c.After keys d q ∧ c.hash.data.length = 64) hstep (d.length / 1024) ctx 0
      (Nat.zero_add _).symm ⟨hstart, h.hash.length⟩
    rw [Nat.mul_zero, List.drop_zero] at hall hdata hrest
    simp only [if_neg hshort]
    generalize whileBlocks nhBlock ctx d = r at hall hdata hrest ⊢
    by_cases hzero : r.2.length = 0
    · have hq : (d.length + 1023) / 1024 = d.length / 1024 := by
        rw [hrest, List.length_drop] at hzero
        omega
      rw [if_neg (not_not_intro hzero), hq]
      exact ⟨ipLong_eq hall, uhashReset_same hall.same hdata⟩
    · have hmod : d.length % 1024 ≠ 0 := by
        rw [hrest, List.length_drop] at hzero
        omega
      have hlen : (r.2.length + 31) / 32 * 32 = 32 * blocks r.2.length := by
        unfold blocks
        omega
      have hpad : nhPad r.1 r.2 ((r.2.length + 31) / 32 * 32) =
          nhValue keys.nhKey (d.drop (1024 * (d.length / 1024))) := by
        rw [nhPad_eq r.1 r.2 hlen, hall.same, hrest]
      have hlast := hall.last hmod hpad
      rw [if_pos hzero]
      exact ⟨ipLong_eq hlast, uhashReset_same hlast.same hdata⟩

end Blocks

end CodeSLoop.Umac
