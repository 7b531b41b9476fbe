import CodeSLoop.Common.XdrRoundTrip
import CodeSLoop.Lib.Run

/-!
# Reading whatever a `pbuf` holds

Every sequence of reads, of any bytes, with exceptions or without. `reads_answered_iff` says in
which states a read ends as it should (`Answered`): it touches no page behind the last,
`position()` does not go back, and the argument is filled with just the bytes announced or the
call says that it is not — by an exception, a short count or `false`.

Without exceptions `operator>>` has nothing to say it with; it comes back with the reader at
the end (`Quiet`). `reads_strict_iff` counts that as a failure, too. The reads that do not end as
they should are these (`Handles`):

* behind a read whose padding is not there, `pos_` lies past the last page, and the next read
  takes it back;
* of a `pbuf`, at `end()` with exceptions, which are not thrown, and without them with fewer
  than eight bytes left, where the iterator is followed at `end()`;
* of a string for which there is no memory: the call returns, the bytes unread;
* of sized data without exceptions, with fewer than eight bytes left: the size is 0, and all
  is well with that; into a `T`, where the size is first read as a number of four bytes,
  it is a variable not assigned when these are missing, and else `allocate` is asked for the
  high half of the size.
-/

namespace CodeSLoop

open Bytes Codec Lts

namespace Xdrbuf

/-! ## Reads -/

/-- The reads, with what they are given: whether `allocate` returns a buffer of a size, and
    what is found outside of a short one (`strEnsureTrailingZero`); the `pbuf` to append to;
    and sizes. -/
inductive Read
  | int32 | uint32 | int64 | uint64
  | str (alloc : UInt64 → Bool) (stray : Bool) | ustr (alloc : UInt64 → Bool) | pbuf (val : Pbuf)
  | data (size : Nat) | dataMax (maxSize : UInt64)
  | dataT (alloc : UInt64 → Bool) (size maxSize : UInt64)
  | forward (n : Nat)

/-- What a read that returns leaves and returns: the argument of `operator>>`, if it is filled;
    the bytes that `get_data` puts in place, as many as it returns; whether it succeeds, and
    the size; and whether `forward` does. -/
inductive Answer
  | value (v : Option Value)
  | count (bs : List UInt8)
  | flag (ok : Bool) (size : UInt64) (bs : List UInt8)
  | moved (ok : Bool)
deriving DecidableEq

/-- `operator>>`, with the constructor for what it reads. -/
def asValue {α : Type} (f : α → Value) (r : Xdrbuf × Res Exc (Option α)) :
    Xdrbuf × Res Exc Answer :=
  andThen r fun x v => (x, .ret (.value (v.map f)))

/-- The forms of `get_data` with a size. -/
def asFlag (r : Xdrbuf × Res Exc (Bool × UInt64 × List UInt8)) : Xdrbuf × Res Exc Answer :=
  andThen r fun x v => (x, .ret (.flag v.1 v.2.1 v.2.2))

def Read.run (x : Xdrbuf) : Read → Xdrbuf × Res Exc Answer
  | .int32 => asValue .int32 x.readInt32
  | .uint32 => asValue .uint32 x.readUInt32
  | .int64 => asValue .int64 x.readInt64
  | .uint64 => asValue .uint64 x.readUInt64
  | .str alloc stray => asValue .str (x.readStr alloc stray)
  | .ustr alloc => asValue .ustr (x.readUstr alloc)
  | .pbuf val => andThen (x.readPbuf val) fun x c => (x, .ret (.value (some (.pbuf c))))
  | .data size => let r := x.getData size; (r.1, .ret (.count r.2))
  | .dataMax maxSize => asFlag (x.getDataMax maxSize.toNat maxSize)
  | .dataT alloc size maxSize => asFlag (x.getDataT alloc size maxSize)
  | .forward n => let r := x.forward n; (r.1, .ret (.moved r.2))

/-- One read, and how it ends. -/
def Step (x : Xdrbuf) (c : Read × Res Exc Answer) (y : Xdrbuf) : Prop := c.1.run x = (y, c.2)

/-! ## How a read is to end -/

/-- The data behind a length, when all of it is there. -/
def payload (bs : List UInt8) : Option (List UInt8) :=
  if 8 ≤ bs.length ∧ ofBe (bs.take 8) ≤ bs.length - 8 then
    some ((bs.drop 8).take (ofBe (bs.take 8)))
  else none

/-- A number of `w` bytes. -/
def number (bs : List UInt8) (w : Nat) (v : Nat → Value) : Option Answer :=
  if w ≤ bs.length then some (.value (some (v (ofBe (bs.take w))))) else none

/-- The answer of a read that fills its argument from the bytes that are left, if they are
    enough for that. -/
def Read.filled (bs : List UInt8) : Read → Option Answer
  | .int32 => number bs 4 fun n => .int32 (UInt32.ofNat n).toInt32
  | .uint32 => number bs 4 fun n => .uint32 (UInt32.ofNat n)
  | .int64 => number bs 8 fun n => .int64 (UInt64.ofNat n).toInt64
  | .uint64 => number bs 8 fun n => .uint64 (UInt64.ofNat n)
  | .str _ stray => (payload bs).map fun p =>
    .value (some (.str (if p = [] then List.replicate 4 0 else strEnsureTrailingZero stray p)))
  | .ustr _ => (payload bs).map fun p =>
    .value (some (.ustr (if p = [] then [0] else ustrEnsureTrailingZero p)))
  | .pbuf val => (payload bs).map fun p => .value (some (.pbuf (val.append p).1))
  | .data size => if size ≤ bs.length then some (.count (bs.take size)) else none
  | .dataMax _ | .dataT _ _ _ => (payload bs).map fun p => .flag true (UInt64.ofNat p.length) p
  | .forward n => if n ≤ bs.length then some (.moved true) else none

/-- Whether the read says that its argument is not filled. -/
def Read.reports (r : Read) (o : Res Exc Answer) : Bool :=
  match r, o with
  | _, .thrown _ => true
  | .data size, .ret (.count bs) => decide (bs.length < size)
  | _, .ret (.flag ok _ _) => !ok
  | _, .ret (.moved ok) => !ok
  | _, _ => false

/-- Whether the read is an `operator>>`. -/
def Read.isOperator : Read → Bool
  | .int32 | .uint32 | .int64 | .uint64 | .str _ _ | .ustr _ | .pbuf _ => true
  | .data _ | .dataMax _ | .dataT _ _ _ | .forward _ => false

/-- The argument is filled, or the read says that it is not. -/
def Told (x : Xdrbuf) (r : Read) (o : Res Exc Answer) : Prop :=
  (∃ a ∈ r.filled x.rest, o = .ret a) ∨ r.reports o = true

/-- An `operator>>` without exceptions, with too little left: the reader is at the end. -/
def Quiet (x : Xdrbuf) (r : Read) (y : Xdrbuf) : Prop :=
  x.useExc = false ∧ r.isOperator = true ∧ r.filled x.rest = none ∧ y.AtEnd

/-- The reader ends on no page that is not there, does not go back, and says how it went. -/
structure Strict (x : Xdrbuf) (c : Read × Res Exc Answer) (y : Xdrbuf) : Prop where
  no_fault : c.2 ≠ .fault
  position_le : x.position ≤ y.position
  told : Told x c.1 c.2

/-- The same, but for `operator>>` without exceptions. -/
structure Answered (x : Xdrbuf) (c : Read × Res Exc Answer) (y : Xdrbuf) : Prop where
  no_fault : c.2 ≠ .fault
  position_le : x.position ≤ y.position
  told : Told x c.1 c.2 ∨ Quiet x c.1 y

/-- The reader is not past the end. -/
def Inside (x : Xdrbuf) : Prop := x.position ≤ x.b.size

/-- The first four bytes of what is left, as `get_data<T>` takes them for the size. -/
def announced32 (x : Xdrbuf) : UInt32 := UInt32.ofNat (ofBe (x.rest.take 4))

/-- `get_data` with a size reads the size, and has room for what it then puts in place. -/
def HasRoom (x : Xdrbuf) (room : Nat) (maxSize : UInt64) : Prop :=
  (x.useExc = true ∨ 8 ≤ x.rest.length) ∧
    (8 ≤ x.rest.length →
      x.announced > maxSize ∨ min x.announced.toNat (x.rest.length - 8) ≤ room)

/-- The states in which a read ends as it should. -/
def Handles (x : Xdrbuf) (r : Read) : Prop :=
  x.Inside ∧
    match r with
    | .int32 | .uint32 | .int64 | .uint64 | .data _ | .forward _ => True
    | .str alloc _ | .ustr alloc =>
      8 ≤ x.rest.length → x.announced = 0 ∨ alloc x.announced = true
    | .pbuf _ => if x.useExc then ¬ x.AtEnd else x.AtEnd ∨ 8 ≤ x.rest.length
    | .dataMax _ => x.useExc = true ∨ 8 ≤ x.rest.length
    | .dataT alloc _ maxSize =>
      (x.useExc = true ∨ 4 ≤ x.rest.length) ∧
        (4 ≤ x.rest.length → x.announced32 ≤ 0 ∨ x.announced32.toUInt64 > maxSize ∨
          x.HasRoom (if alloc x.announced32.toUInt64 then x.announced32.toNat else 0) maxSize)

instance (x : Xdrbuf) (r : Read) (o : Res Exc Answer) : Decidable (x.Told r o) :=
  inferInstanceAs (Decidable (_ ∨ _))

instance (x : Xdrbuf) (c : Read × Res Exc Answer) (y : Xdrbuf) : Decidable (x.Strict c y) :=
  decidable_of_iff (c.2 ≠ .fault ∧ x.position ≤ y.position ∧ x.Told c.1 c.2)
    ⟨fun ⟨h₁, h₂, h₃⟩ => ⟨h₁, h₂, h₃⟩, fun ⟨h₁, h₂, h₃⟩ => ⟨h₁, h₂, h₃⟩⟩

instance (x : Xdrbuf) : Decidable x.Inside := inferInstanceAs (Decidable (_ ≤ _))

instance (x : Xdrbuf) (room : Nat) (maxSize : UInt64) : Decidable (x.HasRoom room maxSize) :=
  inferInstanceAs (Decidable (_ ∧ _))

instance (x : Xdrbuf) (r : Read) : Decidable (x.Handles r) :=
  match r with
  | .int32 | .uint32 | .int64 | .uint64 | .data _ | .forward _ =>
    inferInstanceAs (Decidable (x.Inside ∧ True))
  | .str alloc _ | .ustr alloc => inferInstanceAs (Decidable (x.Inside ∧
      (8 ≤ x.rest.length → x.announced = 0 ∨ alloc x.announced = true)))
  | .pbuf _ => inferInstanceAs (Decidable (x.Inside ∧
      if x.useExc then ¬ x.AtEnd else x.AtEnd ∨ 8 ≤ x.rest.length))
  | .dataMax _ => inferInstanceAs (Decidable (x.Inside ∧
      (x.useExc = true ∨ 8 ≤ x.rest.length)))
  | .dataT alloc _ maxSize => inferInstanceAs (Decidable (x.Inside ∧
      (x.useExc = true ∨ 4 ≤ x.rest.length) ∧
        (4 ≤ x.rest.length → x.announced32 ≤ 0 ∨ x.announced32.toUInt64 > maxSize ∨
          x.HasRoom (if alloc x.announced32.toUInt64 then x.announced32.toNat else 0) maxSize)))

/-! ## Where reads lead -/

variable {x y z : Xdrbuf} {n : Nat} {r : Read} {o : Res Exc Answer}

theorem Ok.inside_iff (h : x.Ok) : x.Inside ↔ x.off ≤ x.b.bytes.length := by
  rw [Inside, h.position, x.b.size_eq_bytes]

theorem Moves.position_le_iff (h : x.Ok) (hm : Moves x y n) :
    x.position ≤ y.position ↔ x.Inside := by
  have hlen := rest_length x
  rw [h.inside_iff, h.position, hm.ok.position]
  by_cases hn : n ≤ x.rest.length
  · rw [(hm.enough hn).1]
    by_cases hin : x.off ≤ x.b.bytes.length
    · omega
    · have h0 : n = 0 := by omega
      have hr : round4 0 = 0 := rfl
      rw [h0, hr]
      omega
  · rw [hm.ok.off_atEnd (hm.short (Nat.lt_of_not_le hn)), hm.b]

/-- Behind a length there is no padding. -/
theorem Moves.of_length (h : x.Ok) (hm : Moves x y 8) (h8 : 8 ≤ x.rest.length) :
    x.Inside ∧ y.Inside ∧ y.rest = x.rest.drop 8 := by
  have hlen := rest_length x
  have hoff := (hm.enough h8).1
  have hr : round4 8 = 8 := rfl
  refine ⟨h.inside_iff.mpr (by omega), hm.ok.inside_iff.mpr ?_, hm.rest h8⟩
  rw [hoff, hm.b, hr]
  omega

theorem position_le_of_moves (h : x.Ok) (hm : Moves x y 8) (h8 : 8 ≤ x.rest.length)
    (hn : Moves y z n) : x.position ≤ z.position :=
  ((hm.position_le_iff h).mpr (hm.of_length h h8).1).trans
    ((hn.position_le_iff hm.ok).mpr (hm.of_length h h8).2.1)

theorem toNat_announced (x : Xdrbuf) : x.announced.toNat = ofBe (x.rest.take 8) := by
  have hlt := ofBe_lt (x.rest.take 8)
  have hle : 256 ^ (x.rest.take 8).length ≤ 256 ^ 8 :=
    Nat.pow_le_pow_right (by decide) (by rw [List.length_take]; omega)
  rw [announced, UInt64.toNat_ofNat', Nat.mod_eq_of_lt (by omega)]

theorem payload_short {bs : List UInt8} (h : bs.length < 8) : payload bs = none :=
  if_neg fun hp => absurd hp.1 (by omega)

/-- The data behind a length that was read. -/
theorem payload_eq (h : x.Ok) (hm : Moves x y 8) (h8 : 8 ≤ x.rest.length) :
    payload x.rest = if x.announced.toNat ≤ y.rest.length then
      some (y.rest.take x.announced.toNat) else none := by
  rw [payload, toNat_announced, (hm.of_length h h8).2.2, List.length_drop]
  simp only [h8, true_and]

theorem andThen_thr {α β : Type} {e : Exc} {a : α} {f : Xdrbuf → α → Xdrbuf × Res Exc β} :
    andThen (x, x.thr e a) f = if x.useExc then (x, .thrown e) else f x a := by
  unfold thr
  split <;> rfl

/-! ## Judging an end -/

theorem answered_iff_inside (hpos : x.position ≤ y.position ↔ x.Inside) (hfault : o ≠ .fault)
    (htold : Told x r o ∨ Quiet x r y) : Answered x (r, o) y ↔ x.Inside :=
  ⟨fun h => hpos.mp h.position_le, fun h => ⟨hfault, hpos.mpr h, htold⟩⟩

theorem told_thrown {e : Exc} : Told x r (.thrown e) := Or.inr (by cases r <;> rfl)

theorem told_filled {a : Answer} (h : r.filled x.rest = some a) : Told x r (.ret a) :=
  Or.inl ⟨a, h, rfl⟩

theorem not_told_value {v : Option Value} (h : r.filled x.rest ≠ some (.value v)) :
    ¬ Told x r (.ret (.value v)) := by
  rintro (⟨a, ha, he⟩ | hr)
  · cases he
    exact h ha
  · cases r <;> exact Bool.noConfusion hr

/-- An `operator>>` that came to the end: it throws, or is quiet. -/
theorem told_or_quiet_of_short (hexc : y.useExc = x.useExc) (hop : r.isOperator = true)
    (hfill : r.filled x.rest = none) (hend : y.AtEnd) {e : Exc} {a : Answer}
    (ho : o = y.thr e a) : Told x r o ∨ Quiet x r y := by
  rw [ho]
  unfold thr
  by_cases hu : y.useExc
  · rw [if_pos hu]
    exact Or.inl told_thrown
  · rw [if_neg hu]
    exact Or.inr ⟨by rw [← hexc]; exact Bool.eq_false_iff.mpr hu, hop, hfill, hend⟩

theorem thr_ne_fault {α : Type} {e : Exc} {a : α} : x.thr e a ≠ .fault := by
  unfold thr
  split <;> exact fun h => by cases h

/-- The readers of numbers. -/
theorem number_answered {α : Type} (h : x.Ok) {w : Nat} {g : Nat → α} {f : α → Value}
    (hop : r.isOperator = true) (hfill : r.filled x.rest = number x.rest w fun n => f (g n))
    (hrun : r.run x = asValue f
      (andThen (x.readBytes w) fun x bs => (x, .ret (bs.map fun bs => g (ofBe bs))))) :
    (r.run x).1.Ok ∧ (Answered x (r, (r.run x).2) (r.run x).1 ↔ x.Inside) := by
  by_cases hw : w ≤ x.rest.length
  · obtain ⟨y, hm, hy⟩ := readNumber_enough h hw fun bs => g (ofBe bs)
    rw [hrun, hy]
    refine ⟨hm.ok, answered_iff_inside (hm.position_le_iff h) (fun h => by cases h) (Or.inl ?_)⟩
    exact told_filled (by rw [hfill, number, if_pos hw]; rfl)
  · obtain ⟨y, e, hm, hy⟩ := readNumber_short h (Nat.lt_of_not_le hw) fun bs => g (ofBe bs)
    have hend : asValue f (y, y.thr e none) = (y, y.thr e (.value none)) := by
      unfold asValue thr
      split <;> rfl
    rw [hrun, hy, hend]
    refine ⟨hm.ok, answered_iff_inside (hm.position_le_iff h) thr_ne_fault ?_⟩
    exact told_or_quiet_of_short hm.useExc hop (by rw [hfill, number, if_neg hw])
      (hm.short (Nat.lt_of_not_le hw)) rfl

/-! ## Strings -/

section Counted

variable {alloc : UInt64 → Bool} {cleared : List UInt8} {ensure : List UInt8 → List UInt8}

theorem readCounted_short (h : x.Ok) (h8 : x.rest.length < 8) :
    ∃ y e, Moves x y 8 ∧ x.readCounted alloc cleared ensure = (y, y.thr e (some cleared)) := by
  obtain ⟨y, e, hm, hy⟩ := readUInt64_short h h8
  refine ⟨y, e, hm, ?_⟩
  rw [readCounted, hy, andThen_thr]
  unfold thr
  split <;> rfl

/-- A string behind its length, with memory for it. -/
theorem readCounted_enough (h : x.Ok) (h8 : 8 ≤ x.rest.length) (h0 : x.announced ≠ 0)
    (ha : alloc x.announced = true) : ∃ y z, Moves x y 8 ∧ Moves y z x.announced.toNat ∧
      ∃ e, x.readCounted alloc cleared ensure = (z, if x.announced.toNat ≤ y.rest.length then
        .ret (some (ensure (y.rest.take x.announced.toNat))) else z.thr e none) := by
  obtain ⟨y, hm, hy⟩ := readUInt64_enough h h8
  obtain ⟨hm', hbytes⟩ := getData_spec hm.ok x.announced.toNat
  obtain ⟨e, he⟩ := short_eq (n := x.announced.toNat) (y.getData x.announced.toNat).1
    (y.getData x.announced.toNat).2.length (none : Option (List UInt8))
  refine ⟨y, _, hm, hm', e, ?_⟩
  rw [readCounted, hy, andThen_ret]
  dsimp only
  rw [Option.getD_some, if_neg h0, if_pos ha, he, hbytes, List.length_take]
  by_cases hle : x.announced.toNat ≤ y.rest.length
  · rw [if_pos hle, if_pos (Nat.min_eq_left hle)]
  · rw [if_neg hle, if_neg (by omega)]

theorem readCounted_none (h : x.Ok) (h8 : 8 ≤ x.rest.length)
    (h0 : x.announced = 0 ∨ alloc x.announced = false) : ∃ y, Moves x y 8 ∧
      x.readCounted alloc cleared ensure =
        (y, .ret (if x.announced = 0 then some cleared else none)) := by
  obtain ⟨y, hm, hy⟩ := readUInt64_enough h h8
  refine ⟨y, hm, ?_⟩
  rw [readCounted, hy, andThen_ret]
  dsimp only
  rw [Option.getD_some]
  by_cases hz : x.announced = 0
  · rw [if_pos hz, if_pos hz]
  · rw [if_neg hz, if_neg hz, if_neg (by simp [h0.resolve_left hz])]

theorem counted_answered (h : x.Ok) {f : List UInt8 → Value} (hop : r.isOperator = true)
    (hfill : r.filled x.rest = (payload x.rest).map fun p =>
      .value (some (f (if p = [] then cleared else ensure p))))
    (hrun : r.run x = asValue f (x.readCounted alloc cleared ensure)) :
    (r.run x).1.Ok ∧ (Answered x (r, (r.run x).2) (r.run x).1 ↔
      x.Inside ∧ (8 ≤ x.rest.length → x.announced = 0 ∨ alloc x.announced = true)) := by
  have hthr : ∀ {y : Xdrbuf} {e : Exc} {v : Option (List UInt8)},
      asValue f (y, y.thr e v) = (y, y.thr e (.value (v.map f))) := by
    intro y e v
    unfold asValue thr
    split <;> rfl
  rw [hrun]
  by_cases h8 : 8 ≤ x.rest.length
  · by_cases hgo : x.announced ≠ 0 ∧ alloc x.announced = true
    · obtain ⟨h0, ha⟩ := hgo
      obtain ⟨y, z, hm, hm', e, hy⟩ := @readCounted_enough x alloc cleared ensure h h8 h0 ha
      have hpos := position_le_of_moves h hm h8 hm'
      have hin := (hm.of_length h h8).1
      have hpay := payload_eq h hm h8
      rw [hy]
      by_cases hle : x.announced.toNat ≤ y.rest.length
      · have hne : y.rest.take x.announced.toNat ≠ [] := by
          rw [← List.length_pos_iff, List.length_take, Nat.min_eq_left hle, Nat.pos_iff_ne_zero]
          exact fun hz => h0 (UInt64.toNat_inj.mp hz)
        rw [if_pos hle] at hpay ⊢
        refine ⟨hm'.ok, iff_of_true ⟨fun h => (by cases h), hpos, Or.inl ?_⟩ ⟨hin, fun _ => Or.inr ha⟩⟩
        exact told_filled (by rw [hfill, hpay, Option.map_some, if_neg hne]; rfl)
      · rw [if_neg hle] at hpay ⊢
        rw [hthr]
        refine ⟨hm'.ok, iff_of_true ⟨thr_ne_fault, hpos, ?_⟩ ⟨hin, fun _ => Or.inr ha⟩⟩
        exact told_or_quiet_of_short (hm'.useExc.trans hm.useExc) hop (by rw [hfill, hpay]; rfl)
          (hm'.short (Nat.lt_of_not_le hle)) rfl
    · have hnone : x.announced = 0 ∨ alloc x.announced = false := by
        by_cases h0 : x.announced = 0
        · exact Or.inl h0
        · exact Or.inr (Bool.eq_false_iff.mpr fun ha => hgo ⟨h0, ha⟩)
      obtain ⟨y, hm, hy⟩ := @readCounted_none x alloc cleared ensure h h8 hnone
      have hin := (hm.of_length h h8).1
      have hpay := payload_eq h hm h8
      rw [hy]
      refine ⟨hm.ok, ?_⟩
      by_cases h0 : x.announced = 0
      · rw [h0] at hpay
        rw [if_pos h0]
        refine iff_of_true ⟨fun h => (by cases h), (hm.position_le_iff h).mpr hin, Or.inl ?_⟩
          ⟨hin, fun _ => Or.inl h0⟩
        exact told_filled (by rw [hfill, hpay]; rfl)
      · -- there was no memory: the reader stands behind the length, on its page
        rw [if_neg h0]
        refine iff_of_false ?_ fun hg => hgo ⟨h0, (hg.2 h8).resolve_left h0⟩
        rintro ⟨-, -, htold | hquiet⟩
        · refine not_told_value ?_ htold
          rw [hfill]
          cases payload x.rest <;> simp
        · exact (hm.enough h8).2 (by decide) hquiet.2.2.2
  · obtain ⟨y, e, hm, hy⟩ := @readCounted_short x alloc cleared ensure h (Nat.lt_of_not_le h8)
    rw [hy, hthr]
    refine ⟨hm.ok, (answered_iff_inside (hm.position_le_iff h) thr_ne_fault ?_).trans
      ⟨fun hin => ⟨hin, fun h => absurd h h8⟩, And.left⟩⟩
    exact told_or_quiet_of_short hm.useExc hop
      (by rw [hfill, payload_short (Nat.lt_of_not_le h8)]; rfl) (hm.short (Nat.lt_of_not_le h8)) rfl

end Counted

/-! ## The other reads -/

/-- Reading a `pbuf` behind its length. -/
theorem readPbuf_enough (h : x.Ok) (h8 : 8 ≤ x.rest.length) (val : Pbuf) :
    ∃ y z, Moves x y 8 ∧ Moves y z x.announced.toNat ∧
      x.readPbuf val = (z, if x.announced.toNat ≤ y.rest.length then
        .ret (val.append (y.rest.take x.announced.toNat)).1
        else z.thr .rsXdrInvalid (val.append (y.rest.take x.announced.toNat)).1) := by
  have hne : ¬ x.AtEnd := fun he => by
    rw [h.rest_atEnd he, List.length_nil] at h8
    omega
  obtain ⟨y, hm, hy⟩ := readUInt64_enough h h8
  obtain ⟨w, hw, hmoves, hbytes⟩ :=
    scanFrom_spec (n := x.announced.toNat) hm.ok ((hm.enough h8).2 (by decide))
  refine ⟨y, _, hm, hmoves, ?_⟩
  have hval : (appendPages val (w.scanFrom x.announced.toNat).2).1 =
      (val.append (y.rest.take x.announced.toNat)).1 := Pbuf.ext_bytes (by
    rw [(bytes_appendPages _ _).1, hbytes, Pbuf.bytes_append])
  rw [readPbuf, if_neg hne, hy, andThen_ret]
  dsimp only
  rw [hw, Option.getD_some]
  dsimp only
  rw [hval, hbytes, List.length_take]
  by_cases hle : x.announced.toNat ≤ y.rest.length
  · rw [if_pos hle, if_neg (by omega)]
  · rw [if_neg hle, if_pos (by omega)]

/-- With fewer bytes than a length has, the iterator is then followed at `end()`. -/
theorem readPbuf_short (h : x.Ok) (h8 : x.rest.length < 8) (he : ¬ x.AtEnd) (val : Pbuf) :
    ∃ y e, Moves x y 8 ∧ x.readPbuf val = (y, if x.useExc then .thrown e else .fault) := by
  obtain ⟨y, e, hm, hy⟩ := readUInt64_short h h8
  refine ⟨y, e, hm, ?_⟩
  have hnone : y.settle = none := by
    rw [settle, show y.it = y.b.pages.length from hm.short h8,
      List.getElem?_eq_none (Nat.le_refl _)]
    rfl
  rw [readPbuf, if_neg he, hy, andThen_thr, hm.useExc]
  dsimp only
  rw [hnone]
  split <;> rfl

theorem pbuf_answered (h : x.Ok) (val : Pbuf) :
    ((Read.pbuf val).run x).1.Ok ∧
      (Answered x (.pbuf val, ((Read.pbuf val).run x).2) ((Read.pbuf val).run x).1 ↔
        x.Handles (.pbuf val)) := by
  have hthr : ∀ {y : Xdrbuf} {e : Exc} {c : Pbuf},
      andThen (y, y.thr e c) (fun x c => (x, .ret (Answer.value (some (.pbuf c))))) =
        (y, y.thr e (Answer.value (some (.pbuf c)))) := by
    intro y e c
    unfold thr
    split <;> rfl
  unfold Read.run Handles
  dsimp only
  by_cases he : x.AtEnd
  · have hin : x.Inside := h.inside_iff.mpr (Nat.le_of_eq (h.off_atEnd he))
    have hpay : payload x.rest = none := payload_short (by rw [h.rest_atEnd he]; decide)
    rw [readPbuf, if_pos he]
    refine ⟨h, ?_⟩
    cases hexc : x.useExc with
    | true =>
      refine iff_of_false ?_ fun hg => hg.2 he
      rintro ⟨-, -, htold | hquiet⟩
      · exact not_told_value (by simp [Read.filled, hpay]) htold
      · exact absurd (hexc.symm.trans hquiet.1) (by decide)
    | false =>
      refine iff_of_true ⟨fun h => (by cases h), Nat.le_refl _, Or.inr ?_⟩ ⟨hin, Or.inl he⟩
      exact ⟨hexc, rfl, by simp [Read.filled, hpay], he⟩
  · by_cases h8 : 8 ≤ x.rest.length
    · obtain ⟨y, z, hm, hm', hy⟩ := readPbuf_enough h h8 val
      have hpos := position_le_of_moves h hm h8 hm'
      have hin := (hm.of_length h h8).1
      have hpay := payload_eq h hm h8
      have hright : x.Inside ∧ if x.useExc then ¬ x.AtEnd else x.AtEnd ∨ 8 ≤ x.rest.length := by
        refine ⟨hin, ?_⟩
        split
        · exact he
        · exact Or.inr h8
      rw [hy]
      by_cases hle : x.announced.toNat ≤ y.rest.length
      · rw [if_pos hle] at hpay ⊢
        refine ⟨hm'.ok, iff_of_true ⟨fun h => (by cases h), hpos, Or.inl ?_⟩ hright⟩
        exact told_filled (by rw [Read.filled, hpay]; rfl)
      · rw [if_neg hle] at hpay ⊢
        rw [hthr]
        refine ⟨hm'.ok, iff_of_true ⟨thr_ne_fault, hpos, ?_⟩ hright⟩
        exact told_or_quiet_of_short (hm'.useExc.trans hm.useExc) rfl
          (by rw [Read.filled, hpay]; rfl) (hm'.short (Nat.lt_of_not_le hle)) rfl
    · obtain ⟨y, e, hm, hy⟩ := readPbuf_short h (Nat.lt_of_not_le h8) he val
      rw [hy]
      refine ⟨?_, ?_⟩
      · cases x.useExc <;> exact hm.ok
      · cases hexc : x.useExc with
        | true =>
          exact (answered_iff_inside (hm.position_le_iff h) (fun h => by cases h)
            (Or.inl told_thrown)).trans ⟨fun hin => ⟨hin, he⟩, And.left⟩
        | false =>
          exact iff_of_false (fun ha => ha.no_fault rfl) fun hg => hg.2.elim he h8

theorem forward_spec (h : x.Ok) (n : Nat) :
    Moves x (x.forward n).1 n ∧ ((x.forward n).2 = true → n ≤ x.rest.length) := by
  by_cases he : x.AtEnd
  · have hget := (getData_spec h n).1
    have hnone : x.settle = none := by
      rw [settle, show x.it = x.b.pages.length from he, List.getElem?_eq_none (Nat.le_refl _)]
      rfl
    rw [getData, hnone] at hget
    rw [forward, hnone]
    exact ⟨hget, fun h => by cases h⟩
  · obtain ⟨y, hy, hmoves, hbytes⟩ := scanFrom_spec (n := n) h he
    rw [forward, hy]
    refine ⟨hmoves, fun h => ?_⟩
    have hlen := of_decide_eq_true h
    rw [hbytes, List.length_take] at hlen
    omega

theorem forward_answered (h : x.Ok) (n : Nat) :
    ((Read.forward n).run x).1.Ok ∧
      (Answered x (.forward n, ((Read.forward n).run x).2) ((Read.forward n).run x).1 ↔
        x.Inside) := by
  obtain ⟨hm, htrue⟩ := forward_spec h n
  unfold Read.run
  refine ⟨hm.ok, answered_iff_inside (hm.position_le_iff h) (fun h => by cases h) (Or.inl ?_)⟩
  dsimp only
  cases hb : (x.forward n).2 with
  | true => exact told_filled (by rw [Read.filled, if_pos (htrue hb)])
  | false => exact Or.inr rfl

theorem data_answered (h : x.Ok) (n : Nat) :
    ((Read.data n).run x).1.Ok ∧
      (Answered x (.data n, ((Read.data n).run x).2) ((Read.data n).run x).1 ↔ x.Inside) := by
  obtain ⟨hm, hbytes⟩ := getData_spec h n
  unfold Read.run
  refine ⟨hm.ok, answered_iff_inside (hm.position_le_iff h) (fun h => by cases h) (Or.inl ?_)⟩
  dsimp only
  rw [hbytes]
  by_cases hn : n ≤ x.rest.length
  · exact told_filled (by rw [Read.filled, if_pos hn])
  · refine Or.inr (decide_eq_true ?_)
    rw [List.length_take]
    omega

/-! ## Sized data -/

theorem getDataMax_short (h : x.Ok) (h8 : x.rest.length < 8) (room : Nat) (maxSize : UInt64) :
    ∃ y z e, Moves x y 8 ∧ Moves y z 0 ∧ x.getDataMax room maxSize =
      if x.useExc then (y, .thrown e) else (z, .ret (true, 0, [])) := by
  obtain ⟨y, e, hm, hy⟩ := readUInt64_short h h8
  obtain ⟨hm', hbytes⟩ := getData_spec hm.ok 0
  rw [List.take_zero] at hbytes
  refine ⟨y, _, e, hm, hm', ?_⟩
  rw [getDataMax, hy, andThen_thr, hm.useExc]
  dsimp only
  have hle : ¬ (0 : UInt64) > maxSize := by
    rw [gt_iff_lt, UInt64.lt_iff_toNat_lt, UInt64.toNat_zero]
    omega
  rw [Option.getD_none, if_neg hle, UInt64.toNat_zero, hbytes, List.length_nil,
    if_neg (Nat.not_lt_zero room), if_pos rfl]

/-- A size above `max_size` is left in the stream. -/
theorem getDataMax_above (h : x.Ok) (h8 : 8 ≤ x.rest.length) {room : Nat} {maxSize : UInt64}
    (hgt : x.announced > maxSize) :
    x.getDataMax room maxSize = (x, .ret (false, x.announced, [])) := by
  obtain ⟨y, hm, hy⟩ := readUInt64_enough h h8
  have hb := hm.b
  have hexc := hm.useExc
  rw [getDataMax, hy, andThen_ret]
  dsimp only
  rw [Option.getD_some, if_pos hgt, hb, hexc]

theorem getDataMax_enough (h : x.Ok) (h8 : 8 ≤ x.rest.length) {room : Nat} {maxSize : UInt64}
    (hle : ¬ x.announced > maxSize) : ∃ y z, Moves x y 8 ∧ Moves y z x.announced.toNat ∧
      x.getDataMax room maxSize = (z,
        if min x.announced.toNat y.rest.length > room then .fault
        else if x.announced.toNat ≤ y.rest.length then
          .ret (true, x.announced, y.rest.take x.announced.toNat)
        else z.thr .rsXdrInvalid (false, x.announced, y.rest.take x.announced.toNat)) := by
  obtain ⟨y, hm, hy⟩ := readUInt64_enough h h8
  obtain ⟨hm', hbytes⟩ := getData_spec hm.ok x.announced.toNat
  refine ⟨y, _, hm, hm', ?_⟩
  rw [getDataMax, hy, andThen_ret]
  dsimp only
  rw [Option.getD_some, if_neg hle, hbytes, List.length_take]
  by_cases hlen : x.announced.toNat ≤ y.rest.length
  · rw [if_pos hlen, if_pos (Nat.min_eq_left hlen)]
  · rw [if_neg hlen, if_neg (show ¬ min x.announced.toNat y.rest.length = _ by omega)]

theorem max_answered (h : x.Ok) {room : Nat} {maxSize : UInt64} (hop : r.isOperator = false)
    (hfill : r.filled x.rest = (payload x.rest).map fun p => .flag true (UInt64.ofNat p.length) p)
    (hrun : r.run x = asFlag (x.getDataMax room maxSize)) :
    (r.run x).1.Ok ∧ (Answered x (r, (r.run x).2) (r.run x).1 ↔
      x.Inside ∧ x.HasRoom room maxSize) := by
  rw [hrun]
  by_cases h8 : 8 ≤ x.rest.length
  · by_cases hgt : x.announced > maxSize
    · obtain ⟨y, hm, -⟩ := readUInt64_enough h h8
      rw [getDataMax_above h h8 hgt]
      exact ⟨h, iff_of_true ⟨fun h => (by cases h), Nat.le_refl _, Or.inl (Or.inr rfl)⟩
        ⟨(hm.of_length h h8).1, Or.inr h8, fun _ => Or.inl hgt⟩⟩
    · obtain ⟨y, z, hm, hm', hy⟩ := @getDataMax_enough x h h8 room maxSize hgt
      have hpos := position_le_of_moves h hm h8 hm'
      obtain ⟨hin, -, hrest⟩ := hm.of_length h h8
      have hpay := payload_eq h hm h8
      have hlen : y.rest.length = x.rest.length - 8 := by rw [hrest, List.length_drop]
      rw [hy]
      by_cases hroom : min x.announced.toNat y.rest.length > room
      · rw [if_pos hroom]
        refine ⟨hm'.ok, iff_of_false (fun ha => ha.no_fault rfl) fun hg => ?_⟩
        have := (hg.2.2 h8).resolve_left hgt
        omega
      · rw [if_neg hroom]
        have hright : x.Inside ∧ x.HasRoom room maxSize :=
          ⟨hin, Or.inr h8, fun _ => Or.inr (by omega)⟩
        by_cases hle : x.announced.toNat ≤ y.rest.length
        · rw [if_pos hle] at hpay ⊢
          refine ⟨hm'.ok, iff_of_true ⟨fun h => (by cases h), hpos, Or.inl ?_⟩ hright⟩
          refine told_filled ?_
          rw [hfill, hpay, Option.map_some, List.length_take, Nat.min_eq_left hle,
            UInt64.ofNat_toNat]
        · rw [if_neg hle]
          unfold thr
          cases z.useExc with
          | true =>
            exact ⟨hm'.ok, iff_of_true ⟨fun h => (by cases h), hpos, Or.inl told_thrown⟩ hright⟩
          | false =>
            exact ⟨hm'.ok, iff_of_true ⟨fun h => (by cases h), hpos, Or.inl (Or.inr rfl)⟩ hright⟩
  · have hlt := Nat.lt_of_not_le h8
    obtain ⟨y, z, e, hm, hm', hy⟩ := getDataMax_short h hlt room maxSize
    rw [hy]
    cases hexc : x.useExc with
    | true =>
      refine ⟨hm.ok, (answered_iff_inside (hm.position_le_iff h) (fun h => by cases h)
        (Or.inl told_thrown)).trans ⟨fun hin => ⟨hin, Or.inl hexc, fun h => absurd h h8⟩, And.left⟩⟩
    | false =>
      refine ⟨hm'.ok, iff_of_false ?_ ?_⟩
      · rintro ⟨-, -, (⟨a, ha, -⟩ | hr) | hquiet⟩
        · rw [hfill, payload_short hlt] at ha
          cases ha
        · cases r <;> exact Bool.noConfusion hr
        · exact Bool.noConfusion (hop.symm.trans hquiet.2.1)
      · rintro ⟨-, hexc' | h', -⟩
        · exact Bool.noConfusion (hexc.symm.trans hexc')
        · exact h8 h'

/-- `get_data<T>` goes back to where the size stands before it reads the size as such. -/
theorem getDataT_eq (h : x.Ok) (h4 : 4 ≤ x.rest.length) (alloc : UInt64 → Bool)
    (size maxSize : UInt64) : x.getDataT alloc size maxSize =
      if x.announced32 ≤ 0 ∨ x.announced32.toUInt64 > maxSize then (x, .ret (false, size, []))
      else x.getDataMax (if alloc x.announced32.toUInt64 then x.announced32.toNat else 0)
        maxSize := by
  obtain ⟨y, hm, hy⟩ := readNumber_enough h h4 fun bs => UInt32.ofNat (ofBe bs)
  have hb := hm.b
  have hexc := hm.useExc
  rw [getDataT, readUInt32, hy, andThen_ret]
  dsimp only
  rw [hb, hexc]
  rfl

theorem dataT_answered (h : x.Ok) (alloc : UInt64 → Bool) (size maxSize : UInt64) :
    ((Read.dataT alloc size maxSize).run x).1.Ok ∧
      (Answered x (.dataT alloc size maxSize, ((Read.dataT alloc size maxSize).run x).2)
        ((Read.dataT alloc size maxSize).run x).1 ↔ x.Handles (.dataT alloc size maxSize)) := by
  by_cases h4 : 4 ≤ x.rest.length
  · have hin : x.Inside := by
      have := rest_length x
      exact h.inside_iff.mpr (by omega)
    have heq := getDataT_eq h h4 alloc size maxSize
    by_cases hsz : x.announced32 ≤ 0 ∨ x.announced32.toUInt64 > maxSize
    · rw [if_pos hsz] at heq
      have hrun : (Read.dataT alloc size maxSize).run x = (x, .ret (.flag false size [])) := by
        rw [Read.run, heq]
        rfl
      rw [hrun]
      refine ⟨h, iff_of_true ⟨fun h => (by cases h), Nat.le_refl _, Or.inl (Or.inr rfl)⟩
        ⟨hin, Or.inr h4, fun _ => ?_⟩⟩
      exact hsz.imp_right Or.inl
    · rw [if_neg hsz] at heq
      have hsz := not_or.mp hsz
      obtain ⟨hok, hiff⟩ := max_answered (r := .dataT alloc size maxSize) h rfl rfl
        (by rw [Read.run, heq])
      refine ⟨hok, hiff.trans (and_congr_right fun _ => ⟨fun hroom => ?_, fun hg => ?_⟩)⟩
      · exact ⟨Or.inr h4, fun _ => Or.inr (Or.inr hroom)⟩
      · exact ((hg.2 h4).resolve_left hsz.1).resolve_left hsz.2
  · obtain ⟨y, e, hm, hy⟩ :=
      readNumber_short h (Nat.lt_of_not_le h4) fun bs => UInt32.ofNat (ofBe bs)
    have hrun : (Read.dataT alloc size maxSize).run x =
        (y, if x.useExc then .thrown e else .fault) := by
      rw [Read.run, getDataT, readUInt32, hy, andThen_thr, hm.useExc]
      split <;> rfl
    rw [hrun]
    refine ⟨hm.ok, ?_⟩
    cases hexc : x.useExc with
    | true =>
      refine (answered_iff_inside (hm.position_le_iff h) (fun h => by cases h)
        (Or.inl told_thrown)).trans ⟨fun hin => ⟨hin, Or.inl hexc, fun h => absurd h h4⟩, And.left⟩
    | false =>
      refine iff_of_false (fun ha => ha.no_fault rfl) fun hg => ?_
      rcases hg.2.1 with hexc' | h'
      · exact Bool.noConfusion (hexc.symm.trans hexc')
      · exact h4 h'

/-! ## What `get_data<T>` makes of a size -/

/-- The number that the first four bytes of a size stand for is its high half. -/
theorem announced32_le (x : Xdrbuf) (h8 : 8 ≤ x.rest.length) :
    x.announced32.toNat * 2 ^ 32 ≤ x.announced.toNat := by
  have hsplit : x.rest.take (4 + 4) = x.rest.take 4 ++ (x.rest.drop 4).take 4 := List.take_add
  have hlen : ((x.rest.drop 4).take 4).length = 4 := by
    rw [List.length_take, List.length_drop]
    omega
  have hlt := ofBe_lt (x.rest.take 4)
  have hle : 256 ^ (x.rest.take 4).length ≤ 256 ^ 4 :=
    Nat.pow_le_pow_right (by decide) (by rw [List.length_take]; omega)
  rw [toNat_announced, show 8 = 4 + 4 from rfl, hsplit, ofBe_append, hlen, announced32, UInt32.toNat_ofNat',
    Nat.mod_eq_of_lt (by omega)]
  omega

/-- **How it ends**, with exceptions and `max_size` below 2^32: a high half of 0 is refused, and
    with any other the size is above `max_size`; or it throws. -/
theorem getDataT_ends (h : x.Ok) (hexc : x.useExc = true) (alloc : UInt64 → Bool) (size : UInt64)
    {maxSize : UInt64} (hmax : maxSize.toNat < 2 ^ 32) :
    (∃ z sz, x.getDataT alloc size maxSize = (z, .ret (false, sz, []))) ∨
      ∃ z e, x.getDataT alloc size maxSize = (z, .thrown e) := by
  by_cases h4 : 4 ≤ x.rest.length
  · rw [getDataT_eq h h4]
    by_cases hsz : x.announced32 ≤ 0 ∨ x.announced32.toUInt64 > maxSize
    · rw [if_pos hsz]
      exact Or.inl ⟨_, _, rfl⟩
    · rw [if_neg hsz]
      by_cases h8 : 8 ≤ x.rest.length
      · have hle := x.announced32_le h8
        have h0 : ¬ x.announced32.toNat ≤ 0 := fun h0 => hsz (Or.inl (UInt32.le_iff_toNat_le.mpr h0))
        have hgt : x.announced > maxSize := by
          rw [gt_iff_lt, UInt64.lt_iff_toNat_lt]
          omega
        rw [getDataMax_above h h8 hgt]
        exact Or.inl ⟨_, _, rfl⟩
      · obtain ⟨y', z, e, -, -, hy⟩ := getDataMax_short h (Nat.lt_of_not_le h8)
          (if alloc x.announced32.toUInt64 then x.announced32.toNat else 0) maxSize
        rw [hy, hexc]
        exact Or.inr ⟨_, _, rfl⟩
  · obtain ⟨y', e, hm, hy⟩ :=
      readNumber_short h (Nat.lt_of_not_le h4) fun bs => UInt32.ofNat (ofBe bs)
    rw [getDataT, readUInt32, hy, andThen_thr, hm.useExc, hexc]
    exact Or.inr ⟨_, _, rfl⟩

/-- **It never succeeds.** -/
theorem getDataT_ne_true (h : x.Ok) (hexc : x.useExc = true) {alloc : UInt64 → Bool}
    {size maxSize : UInt64} (hmax : maxSize.toNat < 2 ^ 32) {sz : UInt64} {bs : List UInt8} :
    x.getDataT alloc size maxSize ≠ (y, .ret (true, sz, bs)) := by
  intro hret
  rcases getDataT_ends h hexc alloc size hmax with ⟨z, sz', hz⟩ | ⟨z, e, hz⟩
  · rw [hz] at hret
    cases hret
  · rw [hz] at hret
    cases hret

/-- In front of data that was written. -/
theorem At.announced {b : Pbuf} {bs tail : List UInt8} (h : At b x (counted bs ++ tail))
    (hlen : bs.length < 2 ^ 64) : 8 ≤ x.rest.length ∧ x.announced.toNat = bs.length := by
  have htake : x.rest.take 8 = be 8 bs.length := by
    rw [h.rest, counted, List.append_assoc, List.take_left' length_be]
  constructor
  · rw [h.rest, counted, List.length_append, List.length_append, length_be]
    omega
  · rw [toNat_announced, htake, ofBe_be (by omega)]

/-- Of data below 2^32 bytes, as it is written, it takes the size for 0, and refuses it. -/
theorem getDataT_counted {b : Pbuf} {bs tail : List UInt8} (h : At b x (counted bs ++ tail))
    (hlen : bs.length < 2 ^ 32) (alloc : UInt64 → Bool) (size maxSize : UInt64) :
    x.getDataT alloc size maxSize = (x, .ret (false, size, [])) := by
  obtain ⟨h8, hann⟩ := h.announced (by omega)
  have hle := x.announced32_le h8
  have h0 : x.announced32 ≤ 0 := UInt32.le_iff_toNat_le.mpr (by
    rw [UInt32.toNat_zero]
    omega)
  rw [getDataT_eq h.ok (by omega), if_pos (Or.inl h0)]

theorem readInt32_keeps (h : x.Ok) : x.readInt32.1.Ok ∧ x.readInt32.1.useExc = x.useExc := by
  by_cases h4 : 4 ≤ x.rest.length
  · obtain ⟨y, hm, hy⟩ := readNumber_enough h h4 fun bs => (UInt32.ofNat (ofBe bs)).toInt32
    rw [readInt32, hy]
    exact ⟨hm.ok, hm.useExc⟩
  · obtain ⟨y, e, hm, hy⟩ :=
      readNumber_short h (Nat.lt_of_not_le h4) fun bs => (UInt32.ofNat (ofBe bs)).toInt32
    rw [readInt32, hy]
    exact ⟨hm.ok, hm.useExc⟩

/-- A number of four bytes is read, or, with exceptions, something is thrown. -/
theorem readInt32_ends (h : x.Ok) (hexc : x.useExc = true) :
    (∃ v, x.readInt32.2 = .ret v) ∨ ∃ e, x.readInt32.2 = .thrown e := by
  by_cases h4 : 4 ≤ x.rest.length
  · obtain ⟨y, hm, hy⟩ := readNumber_enough h h4 fun bs => (UInt32.ofNat (ofBe bs)).toInt32
    rw [readInt32, hy]
    exact Or.inl ⟨_, rfl⟩
  · obtain ⟨y, e, hm, hy⟩ :=
      readNumber_short h (Nat.lt_of_not_le h4) fun bs => (UInt32.ofNat (ofBe bs)).toInt32
    rw [readInt32, hy, thr, hm.useExc, hexc]
    exact Or.inr ⟨e, rfl⟩

/-! ## All reads -/

/-- A buffer of `max_size` bytes has room for all that is put there. -/
theorem hasRoom_max (x : Xdrbuf) (maxSize : UInt64) :
    x.HasRoom maxSize.toNat maxSize ↔ x.useExc = true ∨ 8 ≤ x.rest.length := by
  refine and_iff_left fun _ => ?_
  by_cases hgt : x.announced > maxSize
  · exact Or.inl hgt
  · rw [gt_iff_lt, UInt64.lt_iff_toNat_lt] at hgt
    exact Or.inr (by omega)

/-- **One read.** -/
theorem answered_iff (h : x.Ok) (r : Read) :
    (r.run x).1.Ok ∧ (Answered x (r, (r.run x).2) (r.run x).1 ↔ x.Handles r) := by
  cases r with
  | int32 =>
    refine (number_answered h (w := 4) (g := fun n => (UInt32.ofNat n).toInt32)
      (f := .int32) rfl rfl rfl).imp_right fun hiff => hiff.trans (and_iff_left trivial).symm
  | uint32 =>
    refine (number_answered h (w := 4) (g := UInt32.ofNat) (f := .uint32) rfl rfl rfl).imp_right
      fun hiff => hiff.trans (and_iff_left trivial).symm
  | int64 =>
    refine (number_answered h (w := 8) (g := fun n => (UInt64.ofNat n).toInt64)
      (f := .int64) rfl rfl rfl).imp_right fun hiff => hiff.trans (and_iff_left trivial).symm
  | uint64 =>
    refine (number_answered h (w := 8) (g := UInt64.ofNat) (f := .uint64) rfl rfl rfl).imp_right
      fun hiff => hiff.trans (and_iff_left trivial).symm
  | str alloc stray => exact counted_answered h rfl rfl rfl
  | ustr alloc => exact counted_answered h rfl rfl rfl
  | pbuf val => exact pbuf_answered h val
  | data n => exact (data_answered h n).imp_right fun hiff => hiff.trans (and_iff_left trivial).symm
  | dataMax maxSize =>
    exact (max_answered h rfl rfl rfl).imp_right fun hiff =>
      hiff.trans (and_congr_right fun _ => hasRoom_max x maxSize)
  | dataT alloc size maxSize => exact dataT_answered h alloc size maxSize
  | forward n => exact (forward_answered h n).imp_right fun hiff => hiff.trans (and_iff_left trivial).symm

/-- **All reads of a run** end as they should exactly when each is made in a state in which it
    does. -/
theorem reads_answered_iff {b : Pbuf} {useExc : Bool} {tr : List ((Read × Res Exc Answer) × Xdrbuf)}
    (h : Run Step ⟨useExc, b, 0, 0⟩ tr) :
    Always Answered ⟨useExc, b, 0, 0⟩ tr ↔
      Always (fun x c _ => Handles x c.1) ⟨useExc, b, 0, 0⟩ tr := by
  refine h.always_iff (I := Ok) ?_ ?_ (ok_new b)
  · rintro x ⟨r, o⟩ y hx hstep
    obtain ⟨-, hiff⟩ := answered_iff hx r
    rw [show r.run x = (y, o) from hstep] at hiff
    exact hiff
  · rintro x ⟨r, o⟩ y hx hstep -
    obtain ⟨hok, -⟩ := answered_iff hx r
    rw [show r.run x = (y, o) from hstep] at hok
    exact hok

/-! ### Reads that say how they went -/

/-- Without exceptions no `operator>>` throws: what it leaves is all that it says. -/
theorem operator_says (h : x.Ok) (hexc : x.useExc = false) (hop : r.isOperator = true) :
    (∃ v, (r.run x).2 = .ret (.value v)) ∨ (r.run x).2 = .fault := by
  have hnumber {α : Type} {w : Nat} {g : Nat → α} {f : α → Value}
      (hrun : r.run x = asValue f
        (andThen (x.readBytes w) fun x bs => (x, .ret (bs.map fun bs => g (ofBe bs))))) :
      ∃ v, (r.run x).2 = .ret (.value v) := by
    by_cases hw : w ≤ x.rest.length
    · obtain ⟨y, -, hy⟩ := readNumber_enough h hw fun bs => g (ofBe bs)
      rw [hrun, hy]
      exact ⟨_, rfl⟩
    · obtain ⟨y, e, hm, hy⟩ := readNumber_short h (Nat.lt_of_not_le hw) fun bs => g (ofBe bs)
      rw [hrun, hy, thr, hm.useExc, hexc]
      exact ⟨_, rfl⟩
  have hcounted {f : List UInt8 → Value} {alloc : UInt64 → Bool} {cleared : List UInt8}
      {ensure : List UInt8 → List UInt8} (hrun : r.run x = asValue f (x.readCounted alloc cleared ensure)) :
      ∃ v, (r.run x).2 = .ret (.value v) := by
    by_cases h8 : 8 ≤ x.rest.length
    · by_cases hgo : x.announced ≠ 0 ∧ alloc x.announced = true
      · obtain ⟨y, z, hm, hm', e, hy⟩ := @readCounted_enough x alloc cleared ensure h h8 hgo.1 hgo.2
        rw [hrun, hy, thr, hm'.useExc, hm.useExc, hexc]
        by_cases hle : x.announced.toNat ≤ y.rest.length
        · rw [if_pos hle]
          exact ⟨_, rfl⟩
        · rw [if_neg hle]
          exact ⟨_, rfl⟩
      · have hnone : x.announced = 0 ∨ alloc x.announced = false := by
          by_cases h0 : x.announced = 0
          · exact Or.inl h0
          · exact Or.inr (Bool.eq_false_iff.mpr fun ha => hgo ⟨h0, ha⟩)
        obtain ⟨y, -, hy⟩ := @readCounted_none x alloc cleared ensure h h8 hnone
        rw [hrun, hy]
        exact ⟨_, rfl⟩
    · obtain ⟨y, e, hm, hy⟩ := @readCounted_short x alloc cleared ensure h (Nat.lt_of_not_le h8)
      rw [hrun, hy, thr, hm.useExc, hexc]
      exact ⟨_, rfl⟩
  cases r with
  | int32 => exact Or.inl (hnumber (g := fun n => (UInt32.ofNat n).toInt32) (f := .int32) rfl)
  | uint32 => exact Or.inl (hnumber (g := UInt32.ofNat) (f := .uint32) rfl)
  | int64 => exact Or.inl (hnumber (g := fun n => (UInt64.ofNat n).toInt64) (f := .int64) rfl)
  | uint64 => exact Or.inl (hnumber (g := UInt64.ofNat) (f := .uint64) rfl)
  | str alloc stray => exact Or.inl (hcounted rfl)
  | ustr alloc => exact Or.inl (hcounted rfl)
  | pbuf val =>
    rw [Read.run]
    by_cases he : x.AtEnd
    · rw [readPbuf, if_pos he]
      exact Or.inl ⟨_, rfl⟩
    · by_cases h8 : 8 ≤ x.rest.length
      · obtain ⟨y, z, hm, hm', hy⟩ := readPbuf_enough h h8 val
        rw [hy, thr, hm'.useExc, hm.useExc, hexc]
        by_cases hle : x.announced.toNat ≤ y.rest.length
        · rw [if_pos hle]
          exact Or.inl ⟨_, rfl⟩
        · rw [if_neg hle]
          exact Or.inl ⟨_, rfl⟩
      · obtain ⟨y, e, -, hy⟩ := readPbuf_short h (Nat.lt_of_not_le h8) he val
        rw [hy, hexc]
        exact Or.inr rfl
  | data n => cases hop
  | dataMax maxSize => cases hop
  | dataT alloc size maxSize => cases hop
  | forward n => cases hop

/-- What an `operator>>` reads is there, if it has no exceptions to say that it is not. -/
def Says (x : Xdrbuf) (r : Read) : Prop :=
  x.useExc = true ∨ r.isOperator = false ∨ (r.filled x.rest).isSome = true

instance (x : Xdrbuf) (r : Read) : Decidable (x.Says r) := inferInstanceAs (Decidable (_ ∨ _ ∨ _))

/-- **One read**, as it should be. -/
theorem strict_iff (h : x.Ok) (r : Read) :
    Strict x (r, (r.run x).2) (r.run x).1 ↔ x.Handles r ∧ x.Says r := by
  obtain ⟨-, hiff⟩ := answered_iff h r
  constructor
  · intro hs
    refine ⟨hiff.mp ⟨hs.no_fault, hs.position_le, Or.inl hs.told⟩, ?_⟩
    by_contra hsays
    simp only [Says, not_or, Bool.not_eq_true, Bool.not_eq_false] at hsays
    obtain ⟨hexc, hop, hfill⟩ := hsays
    rcases operator_says h hexc hop with ⟨v, hv⟩ | hfault
    · refine not_told_value ?_ (hv ▸ hs.told)
      rw [Option.isSome_eq_false_iff, Option.isNone_iff_eq_none] at hfill
      rw [hfill]
      exact fun heq => by cases heq
    · exact hs.no_fault hfault
  · rintro ⟨hhandles, hsays⟩
    obtain ⟨hfault, hpos, htold⟩ := hiff.mpr hhandles
    refine ⟨hfault, hpos, htold.resolve_right ?_⟩
    rintro ⟨hexc, hop, hfill, -⟩
    rcases hsays with h1 | h2 | h3
    · exact Bool.noConfusion (hexc.symm.trans h1)
    · exact Bool.noConfusion (hop.symm.trans h2)
    · rw [hfill] at h3
      cases h3

/-- The reader of a `pbuf` with the given bytes. -/
def readerOf (useExc : Bool) (bs : List UInt8) : Xdrbuf :=
  ⟨useExc, (Pbuf.init.append bs).1, 0, 0⟩

/-- The given reads, one after the other. -/
def reads (x : Xdrbuf) : List Read → List ((Read × Res Exc Answer) × Xdrbuf)
  | [] => []
  | r :: rs => ((r, (r.run x).2), (r.run x).1) :: reads (r.run x).1 rs

theorem run_reads (rs : List Read) (x : Xdrbuf) : Run Step x (reads x rs) := by
  induction rs generalizing x with
  | nil => exact .nil x
  | cons r rs ih => exact .cons rfl (ih _)

/-- Without exceptions: a number and a `pbuf` of which only the first bytes are there, at the
    end of a stream without padding. -/
theorem reads_answered_iff_truncated :
    Always Answered (readerOf false [0, 0, 0, 7, 0, 0, 0, 0, 0, 0, 0, 4, 1, 2])
      (reads (readerOf false [0, 0, 0, 7, 0, 0, 0, 0, 0, 0, 0, 4, 1, 2])
        [.int32, .pbuf Pbuf.init, .int32]) :=
  (reads_answered_iff (run_reads _ _)).mpr (by decide)

/-- All the given reads of the given bytes end as the plain rule says, without the exception
    for `operator>>`. -/
def AllStrict (useExc : Bool) (bs : List UInt8) (rs : List Read) : Prop :=
  Always Strict (readerOf useExc bs) (reads (readerOf useExc bs) rs)

instance (useExc : Bool) (bs : List UInt8) (rs : List Read) : Decidable (AllStrict useExc bs rs) :=
  inferInstanceAs (Decidable (Always _ _ _))

end Xdrbuf

end CodeSLoop
