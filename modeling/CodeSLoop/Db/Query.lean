import CodeSLoop.Lib.Run
import Mathlib.Data.List.TakeWhile

/-!
# The rows of a query (`db/slt3/_shared_impl.cc`)

`query::next` puts one variable for each column into the fields, of the class that the column's
head names. The heads are filled from the types of the first row, and kept: the rows that follow
are read by them, whatever types these have. `prepare` and `execute` forget the heads, and so does
the `next` without arguments, but only when the result data is reset by itself (`autoreset_data`).

What SQLite makes of a value that is asked for as one of another type is left open (`Casts`).
-/

namespace CodeSLoop

namespace Slt3.Query

open Lts

/-- What is in a column. A float is its 64 bits. -/
inductive Value
  | null
  | integer (v : Int64)
  | float (bits : UInt64)
  | text (bs : List UInt8)
  | blob (bs : List UInt8)
  deriving DecidableEq

/-- `colhead::type_`. -/
inductive Ty
  | null | integer | double | string | blob
  deriving DecidableEq

/-- `sqlite3_column_type`, as `fill_columns` names it. -/
def Value.type : Value → Ty
  | null => .null
  | integer _ => .integer
  | float _ => .double
  | text _ => .string
  | blob _ => .blob

/-- A `field`: an `int64`, a `dbl` by its bits, what is in the buffer of a `ustr`, or a `binry`. -/
inductive Var
  | int64 (v : Int64)
  | dbl (bits : UInt64)
  | ustr (buf : List UInt8)
  | binry (value : List UInt8)
  deriving DecidableEq

/-- `query::colhead`. A name that SQLite does not know is the null pointer. -/
structure Colhead where
  type : Ty
  name : Option (List UInt8)
  table : Option (List UInt8)
  db : Option (List UInt8)
  origin : Option (List UInt8)
  deriving DecidableEq

/-- A column of a row, with the names that the statement has for it. -/
structure Cell where
  name : Option (List UInt8)
  table : Option (List UInt8)
  db : Option (List UInt8)
  origin : Option (List UInt8)
  value : Value
  deriving DecidableEq

/-- What `sqlite3_step` finds: a row, or how it ended. -/
inductive Answer
  | row (cells : List Cell)
  | ok (lastInsertId changeCount : Int64)
  | done (lastInsertId changeCount : Int64)
  | error
  deriving DecidableEq

/-- What a call comes back with. -/
inductive Ret
  | yes | no | thrown
  deriving DecidableEq

/-- What of the members of `query::impl` is not about the parameters. `stmt` says that there is a
    statement. -/
structure Impl where
  columnPool : List Colhead
  fieldPool : List (Option Var)
  stmt : Bool
  useExc : Bool
  autoresetData : Bool
  lastInsertId : Int64
  changeCount : Int64
  deriving DecidableEq

/-! ## Columns of SQLite -/

/-- What SQLite makes of a value of another type: `sqlite3VdbeIntValue`, `sqlite3VdbeRealValue`,
    and the text of it. -/
structure Casts where
  int64 : Value → Int64
  double : Value → UInt64
  text : Value → List UInt8

variable (c : Casts)

/-- `sqlite3_column_int64`. -/
def Casts.columnInt64 : Value → Int64
  | .integer v => v
  | .null => 0
  | v => c.int64 v

/-- `sqlite3_column_double`. -/
def Casts.columnDouble : Value → UInt64
  | .float bits => bits
  | .null => 0
  | v => c.double v

/-- `sqlite3_column_text`; none is the null pointer. -/
def Casts.columnText : Value → Option (List UInt8)
  | .text bs | .blob bs => some bs
  | .null => none
  | v => some (c.text v)

/-- `sqlite3_column_blob` and `sqlite3_column_bytes`. There is no pointer for no bytes. -/
def Casts.columnBlob : Value → Option (List UInt8)
  | .text bs | .blob bs => if bs = [] then none else some bs
  | .null => none
  | v => some (c.text v)

/-- `ustr( const char * )`: up to the first zero, and a zero. -/
def ustr : Option (List UInt8) → List UInt8
  | none => [0]
  | some us => us.takeWhile (· ≠ 0) ++ [0]

/-- A `binry` that has just been constructed, after `from_binary`. -/
def binry : Option (List UInt8) → List UInt8
  | none => []
  | some v => v

/-- The field that `next` makes of a column, by the type of the column's head. -/
def Casts.field (v : Value) : Ty → Option Var
  | .integer => some (.int64 (c.columnInt64 v))
  | .double => some (.dbl (c.columnDouble v))
  | .blob => some (.binry (binry (c.columnBlob v)))
  | .string => some (.ustr (ustr (c.columnText v)))
  | .null => none

/-! ## The calls -/

/-- `query::impl( tran )`. -/
def Impl.init (useExc : Bool) : Impl where
  columnPool := []
  fieldPool := []
  stmt := false
  useExc := useExc
  autoresetData := true
  lastInsertId := -1
  changeCount := -1

/-- `THR` and `THRE`. -/
def Impl.thr (q : Impl) : Ret := if q.useExc then .thrown else .no

def Impl.resetData (q : Impl) : Impl := { q with fieldPool := [] }

/-- What `prepare`, `execute` and `next` free before they do anything. -/
def Impl.freeAll (q : Impl) : Impl :=
  if q.autoresetData then { q with columnPool := [], fieldPool := [] } else q

/-- `prepare`: whether there is anything to prepare it with, and whether SQLite makes a
    statement. -/
def Impl.prepare (q : Impl) (given made : Bool) : Impl × Ret :=
  if ¬ given then (q, q.thr)
  else
    let q := { q.freeAll with stmt := made }
    (q, if made then .yes else q.thr)

/-- `execute`: whether there is anything to execute, and the answer of `exec_noret`. -/
def Impl.execute (q : Impl) (given : Bool) (ans : Option (Int64 × Int64)) : Impl × Ret :=
  if ¬ given then (q, q.thr)
  else
    let q := { q.freeAll with stmt := false }
    match ans with
    | none => (q, q.thr)
    | some (id, count) => ({ q with lastInsertId := id, changeCount := count }, .yes)

/-- `fill_columns`. -/
def Impl.fillColumns (q : Impl) (cells : List Cell) : Impl :=
  if q.columnPool = [] then
    { q with columnPool := cells.map fun x => ⟨x.value.type, x.name, x.table, x.db, x.origin⟩ }
  else q

/-- `copy_columns`. -/
def Impl.copyColumns (q : Impl) (cols : List Colhead) : List Colhead :=
  if q.columnPool ≠ [] ∧ cols = [] then q.columnPool else cols

/-- The loop of `next` over the heads. A column that the statement does not have is `NULL`. -/
def Casts.fields : List Colhead → List Value → List (Option Var)
  | [], _ => []
  | h :: hs, vs => c.field (vs.headD .null) h.type :: fields hs vs.tail

/-- `next( cols,fields )`. -/
def Impl.next (q : Impl) (cols : List Colhead) (fields : List (Option Var)) (ans : Answer) :
    Impl × Ret × List Colhead × List (Option Var) :=
  if q.stmt = false then (q, q.thr, cols, fields)
  else
    let q := if q.autoresetData then q.resetData else q
    match ans with
    | .row cells =>
      let q := q.fillColumns cells
      let cols := if cols = [] then q.copyColumns cols else cols
      let fields := c.fields q.columnPool (cells.map Cell.value)
      ({ q with fieldPool := q.fieldPool ++ fields }, .yes, cols, fields)
    | .ok id count => ({ q with lastInsertId := id, changeCount := count }, .yes, cols, fields)
    | .done id count => ({ q with lastInsertId := id, changeCount := count }, .no, cols, fields)
    | .error => (q, q.thr, cols, fields)

/-- `next()`. -/
def Impl.nextRow (q : Impl) (ans : Answer) : Impl × Ret :=
  if q.stmt = false then (q, q.thr)
  else
    let q := q.freeAll
    match ans with
    | .row _ => (q, .yes)
    | .ok id count => ({ q with lastInsertId := id, changeCount := count }, .yes)
    | .done id count => ({ q with lastInsertId := id, changeCount := count }, .no)
    | .error => (q, q.thr)

/-- `reset`, and whether SQLite does it. -/
def Impl.reset (q : Impl) (done : Bool) : Impl × Ret :=
  (q, if q.stmt = true ∧ done = true then .yes else q.thr)

/-- What is called, with what the database answers, and what came back. -/
inductive Call
  | prepare (given made : Bool) (ret : Ret)
  | execute (given : Bool) (ans : Option (Int64 × Int64)) (ret : Ret)
  | next (cols : List Colhead) (fields : List (Option Var)) (ans : Answer) (ret : Ret)
      (cols' : List Colhead) (fields' : List (Option Var))
  | nextRow (ans : Answer) (ret : Ret)
  | reset (done : Bool) (ret : Ret)
  | resetData
  | autoresetData (yesno : Bool)

def Step (q : Impl) (a : Call) (q' : Impl) : Prop :=
  match a with
  | .prepare given made ret => q.prepare given made = (q', ret)
  | .execute given ans ret => q.execute given ans = (q', ret)
  | .next cols fields ans ret cols' fields' => q.next c cols fields ans = (q', ret, cols', fields')
  | .nextRow ans ret => q.nextRow ans = (q', ret)
  | .reset done ret => q.reset done = (q', ret)
  | .resetData => q' = q.resetData
  | .autoresetData yesno => q' = { q with autoresetData := yesno }

/-! ## One column -/

/-- The field that is the column's own value. -/
def Value.own : Value → Option Var
  | null => none
  | integer v => some (.int64 v)
  | float bits => some (.dbl bits)
  | text bs => some (.ustr (bs ++ [0]))
  | blob bs => some (.binry bs)

/-- A text has no zero in it. -/
def Value.Plain : Value → Prop
  | text bs => 0 ∉ bs
  | null | integer _ | float _ | blob _ => True

instance (v : Value) : Decidable v.Plain :=
  match v with
  | .text bs => inferInstanceAs (Decidable (0 ∉ bs))
  | .null | .integer _ | .float _ | .blob _ => inferInstanceAs (Decidable True)

variable {c} {v : Value} {t : Ty} {bs : List UInt8}

theorem ustr_eq_iff : ustr (some bs) = bs ++ [0] ↔ 0 ∉ bs := by
  unfold ustr
  rw [List.append_left_inj]
  constructor
  · intro h h0
    rw [← h] at h0
    have := List.mem_takeWhile_imp h0
    simp at this
  · intro h
    rw [List.takeWhile_eq_self_iff]
    intro b hb
    have hne : b ≠ 0 := by
      intro hz
      rw [hz] at hb
      exact h hb
    simp [hne]

@[simp] theorem columnInt64_integer (v : Int64) : c.columnInt64 (.integer v) = v := rfl

@[simp] theorem columnDouble_float (bits : UInt64) : c.columnDouble (.float bits) = bits := rfl

theorem binry_columnBlob : binry (c.columnBlob (.blob bs)) = bs := by
  cases bs with
  | nil => rfl
  | cons b bs => simp [Casts.columnBlob, binry]

/-- **The field is the column's own** if and only if it is read by its own type, and the text goes
    on to its end. -/
theorem field_eq_own_iff : c.field v t = v.own ↔ t = v.type ∧ v.Plain := by
  cases v with
  | null => cases t <;> simp [Casts.field, Value.own, Value.type, Value.Plain]
  | integer n => cases t <;> simp [Casts.field, Value.own, Value.type, Value.Plain]
  | float bits => cases t <;> simp [Casts.field, Value.own, Value.type, Value.Plain]
  | text bs =>
    cases t with
    | string =>
      have h := @ustr_eq_iff bs
      simpa [Casts.field, Value.own, Value.type, Value.Plain, Casts.columnText] using h
    | null | integer | double | blob => simp [Casts.field, Value.own, Value.type]
  | blob bs =>
    cases t with
    | blob => simp [Casts.field, Value.own, Value.type, Value.Plain, binry_columnBlob]
    | null | integer | double | string => simp [Casts.field, Value.own, Value.type]

/-! ## One row -/

theorem fields_eq_own_iff : ∀ {hs : List Colhead} {vs : List Value},
    c.fields hs vs = vs.map Value.own ↔
      hs.map Colhead.type = vs.map Value.type ∧ ∀ v ∈ vs, v.Plain := by
  intro hs
  induction hs with
  | nil =>
    intro vs
    cases vs <;> simp [Casts.fields]
  | cons h hs ih =>
    intro vs
    cases vs with
    | nil => simp [Casts.fields]
    | cons v vs =>
      simp only [Casts.fields, List.headD_cons, List.tail_cons, List.map_cons, List.cons.injEq,
        field_eq_own_iff, ih, List.forall_mem_cons]
      exact and_and_and_comm

/-- The heads that the row is read by have the row's types. -/
theorem type_fillColumns {q : Impl} {cells : List Cell} :
    (q.fillColumns cells).columnPool.map Colhead.type = (cells.map Cell.value).map Value.type ↔
      q.columnPool = [] ∨ q.columnPool.map Colhead.type = cells.map fun x => x.value.type := by
  unfold Impl.fillColumns
  split
  · rename_i h
    simp [h]
  · rename_i h
    rw [List.map_map]
    simp only [h, false_or]
    rfl

/-- The row that a call has returned is the row's own values. -/
def OwnRow (_ : Impl) (a : Call) (_ : Impl) : Prop :=
  match a with
  | .next _ _ (.row cells) .yes _ fields' => fields' = cells.map fun x => x.value.own
  | _ => True

/-- A row that is asked for meets no heads or heads of its own types, and no text of it has a
    zero. -/
def OwnTypes (q : Impl) (a : Call) (_ : Impl) : Prop :=
  match a with
  | .next _ _ (.row cells) .yes _ _ =>
    (q.columnPool = [] ∨ q.columnPool.map Colhead.type = cells.map fun x => x.value.type) ∧
      ∀ x ∈ cells, x.value.Plain
  | _ => True

instance (q : Impl) (a : Call) (q' : Impl) : Decidable (OwnRow q a q') := by
  unfold OwnRow
  split <;> infer_instance

instance (q : Impl) (a : Call) (q' : Impl) : Decidable (OwnTypes q a q') := by
  unfold OwnTypes
  split <;> infer_instance

variable {q q' : Impl} {a : Call}

/-- **One row.** -/
theorem ownRow_iff (hs : Step c q a q') : OwnRow q a q' ↔ OwnTypes q a q' := by
  cases a with
  | prepare | execute | nextRow | reset | resetData | autoresetData => exact Iff.rfl
  | next cols fields ans ret cols' fields' =>
    cases ans with
    | ok | done | error => exact Iff.rfl
    | row cells =>
      cases ret with
      | no | thrown => exact Iff.rfl
      | yes =>
        have hs : q.next c cols fields (.row cells) = (q', .yes, cols', fields') := hs
        have hfields : fields' =
            c.fields (q.fillColumns cells).columnPool (cells.map Cell.value) := by
          -- the heads are the first row's, and resetting the data leaves them
          unfold Impl.next at hs
          split at hs
          · rename_i hstmt
            have hret : q.thr = .yes := congrArg (fun r => r.2.1) hs
            unfold Impl.thr at hret
            split at hret <;> cases hret
          · have hpool : ((if q.autoresetData then q.resetData else q).fillColumns cells).columnPool =
                (q.fillColumns cells).columnPool := by
              unfold Impl.fillColumns Impl.resetData
              split <;> split <;> rfl
            have hout : _ = fields' := congrArg (fun r => r.2.2.2) hs
            rw [← hout, ← hpool]
        have hmap : (cells.map fun x => x.value.own) = (cells.map Cell.value).map Value.own := by
          rw [List.map_map]
          rfl
        show fields' = (cells.map fun x => x.value.own) ↔ _
        rw [hfields, hmap, fields_eq_own_iff, type_fillColumns, List.forall_mem_map]
        rfl

/-- **The rows of a query**, whatever is called between them: every row is its own values exactly if
    every row has the types of the heads that were there when it came. -/
theorem own_rows_iff {tr : List (Call × Impl)} (h : Run (Step c) q tr) :
    Always OwnRow q tr ↔ Always OwnTypes q tr :=
  h.always_iff (I := fun _ => True) (fun _ _ _ _ hs => ownRow_iff hs) (fun _ _ _ _ _ _ => trivial)
    trivial

/-! ## Runs -/

/-- A call, whatever it is said to have come back with. -/
def exec (c : Casts) (q : Impl) : Call → Option (Call × Impl)
  | .prepare given made _ =>
    let r := q.prepare given made
    some (.prepare given made r.2, r.1)
  | .execute given ans _ =>
    let r := q.execute given ans
    some (.execute given ans r.2, r.1)
  | .next cols fields ans _ _ _ =>
    let r := q.next c cols fields ans
    some (.next cols fields ans r.2.1 r.2.2.1 r.2.2.2, r.1)
  | .nextRow ans _ =>
    let r := q.nextRow ans
    some (.nextRow ans r.2, r.1)
  | .reset done _ => some (.reset done (q.reset done).2, q)
  | .resetData => some (.resetData, q.resetData)
  | .autoresetData yesno => some (.autoresetData yesno, { q with autoresetData := yesno })

theorem step_of_exec (q : Impl) (a : Call) (e : Call × Impl) (h : exec c q a = some e) :
    Step c q e.1 e.2 := by
  cases a <;> cases h <;> rfl

/-- Nothing is asked for as of another type. -/
def noCasts : Casts := ⟨fun _ => 0, fun _ => 0, fun _ => []⟩

/-- A row of columns that have a name each. -/
def sampleRow (vs : List Value) : Answer := .row (vs.map fun v => ⟨some [99], none, none, none, v⟩)

/-- A number and a text, twice; then another statement, with a blob. -/
def ownCalls : List Call :=
  [.prepare true true .yes, .next [] [] (sampleRow [.integer 1, .text [97]]) .yes [] [],
    .next [] [] (sampleRow [.integer 2, .text [98]]) .yes [] [],
    .prepare true true .yes, .next [] [] (sampleRow [.blob [0]]) .yes [] []]

theorem own_rows_iff_own :
    ∃ tr : List (Call × Impl), tr.length = 5 ∧ Always OwnRow (.init true) tr :=
  ⟨(replay (exec noCasts) (.init true) ownCalls).get (by decide), by decide,
    (own_rows_iff (run_of_replay step_of_exec _ (Option.some_get _).symm)).mpr (by decide)⟩

/-- A row of `NULL`, and one of a number. -/
def castCalls : List Call :=
  [.prepare true true .yes, .next [] [] (sampleRow [.null]) .yes [] [],
    .next [] [] (sampleRow [.integer 5]) .yes [] []]

theorem own_rows_fail :
    ∃ tr, Run (Step noCasts) (.init true) tr ∧
      (∃ q cols cols', (Call.next cols [] (sampleRow [.integer 5]) .yes cols' [none], q) ∈ tr) ∧
      ¬ Always OwnRow (.init true) tr :=
  ⟨(replay (exec noCasts) (.init true) castCalls).get (by decide),
    run_of_replay step_of_exec _ (Option.some_get _).symm, ⟨_, _, _, .tail _ (.tail _ (.head _))⟩,
    by decide⟩

end Slt3.Query

end CodeSLoop
