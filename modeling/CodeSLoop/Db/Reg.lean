import CodeSLoop.Db.Obj
import CodeSLoop.Db.Query
import CodeSLoop.Lib.Numerals
import Mathlib.Data.List.Perm.Basic

/-!
# The registry (`db/slt3/reg.cc`)

The registry is a table with the columns `id`, `name` and `path`. The last two are declared as
`string`, a type name that SQLite does not know: it gives such a column NUMERIC affinity, and a
text that is a number in form is stored as that number. `get` and `dbs` take the fields of a row
for an `int64` and two `ustr`s by `reinterpret_cast`. But `query::next` makes each field of the
class that the value in the first row has, and what is then called on an `int64` as if it were a
`ustr` is undefined.

Names and paths are bound with a length of 64 bits, which is an `int` for SQLite: of a text of
2^32 bytes or more only the first few may be bound, and what is longer than the limit of SQLite is
not bound at all, so that the parameter stays null.

`registry_iff`: a run keeps to what the registry is for as long as no entry that is added has a
name or a path that SQLite takes for a number or cuts, and no name is asked for that is cut to one
that is there. `names` asks the field itself for its text; it has the fault only when the number is
written in another way than the name was.

SQLite is a parameter, with what it documents of affinity and comparison. Which of its rows come
first is left open.
-/

namespace CodeSLoop

namespace Slt3.Reg

open Lts Query

/-- What is relied on of SQLite: its casts, what NUMERIC affinity makes of a text, and `=`. A
    number is not equal to a text, and texts are equal byte by byte. `limit` is
    `SQLITE_LIMIT_LENGTH`; `shown` is what `to_string` gives of a number with a fraction or of
    binary data. -/
structure Sqlite where
  casts : Casts
  limit : Nat
  limit_lt : limit < 2 ^ 31
  numeric : List UInt8 → Value
  equal : Value → Value → Bool
  shown : Query.Var → List UInt8
  numeric_form : ∀ bs, numeric bs = .text bs ∨ (∃ v, numeric bs = .integer v) ∨ ∃ v, numeric bs = .float v
  equal_numeric : ∀ bs, equal (numeric bs) (numeric bs) = true
  equal_text : ∀ bs v, equal (.text bs) v = true ↔ v = .text bs

/-- A row of the table. -/
structure Row where
  id : Int64
  name : Value
  path : Value

/-- The table, with the last `id` that was given out. -/
structure Table where
  rows : List Row
  seq : Nat

/-- `reg::item`. -/
structure Item where
  id : Int64
  name : List UInt8
  path : List UInt8
  deriving DecidableEq

/-- A name and a path that are given to `set`, without the zeros at their ends. -/
structure Entry where
  name : List UInt8
  path : List UInt8
  name_plain : 0 ∉ name
  path_plain : 0 ∉ path
  deriving DecidableEq

def Entry.texts (e : Entry) : List UInt8 × List UInt8 := (e.name, e.path)

def Item.texts (i : Item) : List UInt8 × List UInt8 := (i.name, i.path)

/-! ## SQLite -/

section Statements

variable (s : Sqlite) (t : Table)

/-- All row ids are used up. -/
def Table.Full : Prop := 2 ^ 63 ≤ t.seq + 1

instance : Decidable t.Full := by
  unfold Table.Full
  infer_instance

/-- What `sqlite3_bind_text` binds of a `ustr`. Its length is an `int` there; with a negative one
    the text is measured, and with one over the limit nothing is bound. -/
@[irreducible] def bound (text : List UInt8) : Value :=
  let n := toInt text.length
  let nByte := if n < 0 then strlen (text ++ [0]) else n.toNat
  if s.limit < nByte then .null else .text ((text ++ [0]).take nByte)

/-- What affinity makes of a value in a column of the registry, or compared with one. -/
def affinity : Value → Value
  | .text bs => s.numeric bs
  | v => v

def param (text : List UInt8) : Value := affinity s (bound s text)

/-- `WHERE name=?`. -/
def named (name : List UInt8) : List Row := t.rows.filter fun r => s.equal r.name (param s name)

/-- `INSERT INTO registry (name,path) VALUES(?,?);`. Both columns are `NOT NULL`, and the name is
    `UNIQUE`. -/
def insert (name path : List UInt8) : Table × Answer :=
  if param s name = .null ∨ param s path = .null ∨ named s t name ≠ [] ∨ t.Full then (t, .error)
  else
    (⟨t.rows ++ [⟨Int64.ofNat (t.seq + 1), param s name, param s path⟩], t.seq + 1⟩,
      .done (Int64.ofNat (t.seq + 1)) 1)

def cell (column : String) (v : Value) : Cell :=
  ⟨some column.toUTF8.data.toList, some "registry".toUTF8.data.toList, some "main".toUTF8.data.toList,
    some column.toUTF8.data.toList, v⟩

/-- A row of `SELECT id,name,path FROM registry`. -/
def Row.cells (r : Row) : List Cell := [cell "id" (.integer r.id), cell "name" r.name, cell "path" r.path]

/-- What `sqlite3_step` finds with these rows left. -/
def answer : Option (List Cell) → Answer
  | some cells => .row cells
  | none => .done (-1) 0

end Statements

/-! ## The calls -/

section Calls

variable (s : Sqlite) (t : Table)

/-- A query that has been prepared. -/
def prepared : Impl := ((Impl.init true).prepare true true).1

/-- `reinterpret_cast<int64 *>(…)->value()`; none is undefined. -/
def asInt64 : Option (Option Query.Var) → Option Int64
  | some (some (.int64 v)) => some v
  | _ => none

/-- `reinterpret_cast<ustr *>(…)->c_str()`. -/
def asUstr : Option (Option Query.Var) → Option (List UInt8)
  | some (some (.ustr buf)) => some (buf.takeWhile (· ≠ 0))
  | _ => none

/-- What `get` and `dbs` take the fields for. -/
def item (fd : List (Option Query.Var)) : Option Item :=
  (asInt64 fd[0]?).bind fun id => (asUstr fd[1]?).bind fun name => (asUstr fd[2]?).map fun path =>
    ⟨id, name, path⟩

/-- `to_string( s )` and `s.c_str()`. -/
def toText : Option (Option Query.Var) → Option (List UInt8)
  | some (some (.ustr buf)) => some (buf.takeWhile (· ≠ 0))
  | some (some (.int64 v)) => some ((Numerals.render v.toInt).map UInt8.ofNat)
  | some (some v) => some (s.shown v)
  | _ => none

/-- `set`. -/
def set (name path : List UInt8) : Table × Bool :=
  let r := insert s t name path
  if (prepared.nextRow r.2).2 = .thrown then (r.1, false) else (r.1, true)

/-- `get( name,i,pool )`, when SQLite finds these rows. -/
def get (found : List Row) : Option (Option Item) :=
  let fd := (prepared.next s.casts [] [] (answer (found.head?.map Row.cells))).2.2.2
  if fd.length > 0 then (item fd).map some else some none

/-- `while( q.next(ch,fd) )`, with what is done with a row. -/
def walk {γ : Type} (read : List (Option Query.Var) → Option γ) (q : Impl) (ch : List Colhead)
    (fd : List (Option Query.Var)) : List (List Cell) → Option (List γ)
  | [] => some []
  | cells :: rest =>
    let r := q.next s.casts ch fd (.row cells)
    (read r.2.2.2).bind fun x => (walk read r.1 r.2.2.1 r.2.2.2 rest).map (x :: ·)

/-- `names`, when SQLite returns the rows like this. -/
def names (rows : List Row) : Option (List (List UInt8)) :=
  walk s (fun fd => toText s fd[0]?) prepared [] [] (rows.map fun r => [cell "name" r.name])

/-- `dbs`. -/
def dbs (rows : List Row) : Option (List Item) := walk s item prepared [] [] (rows.map Row.cells)

end Calls

/-! ## What the registry is for -/

/-- `get` finds the entry of a name, if there is one, whatever order the rows come in. -/
def Finds (s : Sqlite) (t : Table) (entries : List Entry) (name : List UInt8) : Prop :=
  ∀ found, found.Perm (named s t name) → ∃ r, get s found = some r ∧
    r.map Item.texts = (entries.find? fun e => e.name = name).map Entry.texts

/-- It answers for these entries: each of them is found, and lists have all of them. -/
structure Answers (s : Sqlite) (t : Table) (entries : List Entry) : Prop where
  get : ∀ e ∈ entries, Finds s t entries e.name
  names : ∀ rows, rows.Perm t.rows → ∃ l, names s rows = some l ∧ l.Perm (entries.map Entry.name)
  dbs : ∀ rows, rows.Perm t.rows → ∃ l, dbs s rows = some l ∧
    (l.map Item.texts).Perm (entries.map Entry.texts)

/-- The table, and the entries for which `set` returned true. -/
structure World where
  table : Table
  entries : List Entry

/-- `set`, and `get` of any name. -/
inductive Call
  | set (e : Entry)
  | get (name : List UInt8) (plain : 0 ∉ name)

namespace World

def init : World := ⟨⟨[], 0⟩, []⟩

/-- `set`. -/
def set (s : Sqlite) (w : World) (e : Entry) : World where
  table := (Reg.set s w.table e.name e.path).1
  entries := if (Reg.set s w.table e.name e.path).2 then w.entries ++ [e] else w.entries

def Step (s : Sqlite) (w : World) (c : Call) (w' : World) : Prop :=
  match c with
  | .set e => w' = w.set s e
  | .get _ _ => w' = w

/-- What a call has to do. A `set` does nothing when the name is there, and the registry is to
    answer for the entries that were added; a `get` finds the one of its name. -/
def Right (s : Sqlite) (w : World) (c : Call) (w' : World) : Prop :=
  match c with
  | .set e => ((∃ e' ∈ w.entries, e'.name = e.name) → Reg.set s w.table e.name e.path = (w.table, false)) ∧
      Answers s w'.table w'.entries
  | .get name _ => Finds s w.table w.entries name

/-- SQLite refuses the entry: the name or the path is not bound, what is bound of the name is there
    already, or there is no room. -/
def Refuses (s : Sqlite) (w : World) (e : Entry) : Prop :=
  bound s e.name = .null ∨ bound s e.path = .null ∨
    (∃ e' ∈ w.entries, bound s e.name = .text e'.name) ∨ w.table.Full

/-- An entry is refused, or neither its name nor its path is too long or a number to SQLite; and a
    name that is asked for is not cut to that of an entry. -/
def Textual (s : Sqlite) (w : World) (c : Call) (_ : World) : Prop :=
  match c with
  | .set e => Refuses s w e ∨ (e.name.length ≤ s.limit ∧ s.numeric e.name = .text e.name) ∧
      e.path.length ≤ s.limit ∧ s.numeric e.path = .text e.path
  | .get name _ => ∀ e ∈ w.entries, bound s name = .text e.name → e.name = name

end World

/-! ## Rows of their own types -/

section Rows

variable {s : Sqlite} {q : Impl} {ch : List Colhead} {fd : List (Option Query.Var)} {cells : List Cell}

/-- A row that meets no heads or heads of its own types. -/
theorem next_own (hq : q.stmt = true)
    (hcols : q.columnPool = [] ∨ q.columnPool.map Colhead.type = cells.map fun x => x.value.type)
    (hplain : ∀ x ∈ cells, x.value.Plain) :
    (q.next s.casts ch fd (.row cells)).2.2.2 = (cells.map fun x => x.value.own) ∧
      (q.next s.casts ch fd (.row cells)).1.stmt = true ∧
      (q.next s.casts ch fd (.row cells)).1.columnPool.map Colhead.type =
        cells.map fun x => x.value.type := by
  have hpool : ((if q.autoresetData then q.resetData else q).fillColumns cells).columnPool =
      (q.fillColumns cells).columnPool := by
    unfold Impl.fillColumns Impl.resetData
    split <;> split <;> rfl
  have hstmt : ((if q.autoresetData then q.resetData else q).fillColumns cells).stmt = true := by
    unfold Impl.fillColumns Impl.resetData
    split <;> split <;> exact hq
  have htypes := type_fillColumns.mpr hcols
  have hown : s.casts.fields (q.fillColumns cells).columnPool (cells.map Cell.value) =
      (cells.map Cell.value).map Value.own :=
    fields_eq_own_iff.mpr ⟨htypes, List.forall_mem_map.mpr hplain⟩
  have hfalse : ¬ q.stmt = false := by
    rw [hq]
    exact Bool.noConfusion
  rw [Impl.next, if_neg hfalse]
  refine ⟨?_, hstmt, ?_⟩
  · exact ((congrArg (s.casts.fields · _) hpool).trans hown).trans List.map_map
  · exact ((congrArg (List.map Colhead.type) hpool).trans htypes).trans List.map_map

/-- Rows that all have the same types are read by them. -/
theorem walk_eq {γ ρ : Type} {read : List (Option Query.Var) → Option γ} {cellsOf : ρ → List Cell} {f : ρ → γ}
    {ts : List Ty} : ∀ {rows : List ρ} {q : Impl} {ch : List Colhead} {fd : List (Option Query.Var)},
    (∀ r ∈ rows, ((cellsOf r).map fun x => x.value.type) = ts ∧ (∀ x ∈ cellsOf r, x.value.Plain) ∧
      read ((cellsOf r).map fun x => x.value.own) = some (f r)) →
    q.stmt = true → q.columnPool = [] ∨ q.columnPool.map Colhead.type = ts →
    walk s read q ch fd (rows.map cellsOf) = some (rows.map f) := by
  intro rows
  induction rows with
  | nil =>
    intro q ch fd _ _ _
    rfl
  | cons r rows ih =>
    intro q ch fd hrows hq hcols
    obtain ⟨htypes, hplain, hread⟩ := hrows r (List.mem_cons_self ..)
    rw [← htypes] at hcols
    obtain ⟨hfields, hstmt, hpool⟩ := @next_own s q ch fd _ hq hcols hplain
    rw [List.map_cons, walk, hfields, hread, Option.bind_some,
      ih (fun r' hr' => hrows r' (List.mem_cons_of_mem _ hr')) hstmt
      (Or.inr (hpool.trans htypes))]
    rfl

theorem takeWhile_text {bs : List UInt8} (h : 0 ∉ bs) : (bs ++ [0]).takeWhile (· ≠ 0) = bs := by
  have hu := ustr_eq_iff.mpr h
  have hne : ∀ b ∈ bs, decide (b ≠ 0) = true := fun b hb => decide_eq_true fun h0 => h (h0 ▸ hb)
  rw [List.takeWhile_append_of_pos hne]
  simp

end Rows

/-! ## Tables of texts -/

section Texts

variable {s : Sqlite} {w w' : World} {e : Entry} {t : Table} {name path : List UInt8} {r : Row}

def textOf : Value → List UInt8
  | .text bs => bs
  | .null | .integer _ | .float _ | .blob _ => []

/-- The item of a row of texts. -/
def Row.item (r : Row) : Item := ⟨r.id, textOf r.name, textOf r.path⟩

/-- A row that is an entry. -/
def Row.Of (r : Row) (e : Entry) : Prop := r.name = .text e.name ∧ r.path = .text e.path

/-- The rows are the entries, as texts, and their names are different. -/
structure Texts (s : Sqlite) (w : World) : Prop where
  rows : List.Forall₂ Row.Of w.table.rows w.entries
  short : ∀ e ∈ w.entries, e.name.length ≤ s.limit
  numeric : ∀ e ∈ w.entries, s.numeric e.name = .text e.name
  nodup : (w.entries.map Entry.name).Nodup

theorem texts_init : Texts s World.init := ⟨.nil, nofun, nofun, List.nodup_nil⟩

theorem Row.Of.item_texts (h : r.Of e) : r.item.texts = e.texts := by
  rw [Row.item, h.1, h.2]
  rfl

/-- A row of texts is taken for what it is. -/
theorem Row.Of.item_eq (h : r.Of e) : Reg.item (r.cells.map fun x => x.value.own) = some r.item := by
  have hname := takeWhile_text e.name_plain
  have hpath := takeWhile_text e.path_plain
  rw [Row.cells, Row.item, h.1, h.2]
  refine Option.bind_eq_some_iff.mpr ⟨r.id, rfl, Option.bind_eq_some_iff.mpr ⟨e.name, ?_, ?_⟩⟩
  · exact congrArg some hname
  · exact Option.map_eq_some_iff.mpr ⟨e.path, congrArg some hpath, rfl⟩

theorem Row.Of.plain (h : r.Of e) : ∀ x ∈ r.cells, x.value.Plain := by
  intro x hx
  rw [Row.cells, h.1, h.2] at hx
  rcases List.mem_cons.mp hx with rfl | hx
  · trivial
  · rcases List.mem_cons.mp hx with rfl | hx
    · exact e.name_plain
    · cases List.mem_singleton.mp hx
      exact e.path_plain

theorem Row.Of.types (h : r.Of e) : (r.cells.map fun x => x.value.type) = [.integer, .string, .string] := by
  rw [Row.cells, h.1, h.2]
  rfl

/-- The entry that a row is. -/
theorem Texts.row (h : Texts s w) (hr : r ∈ w.table.rows) : ∃ e ∈ w.entries, r.Of e := by
  obtain ⟨i, hi, rfl⟩ := List.getElem_of_mem hr
  exact ⟨_, List.getElem_mem (h.rows.length_eq ▸ hi), h.rows.get hi (h.rows.length_eq ▸ hi)⟩

theorem numeric_of_text {bs us : List UInt8} (h : s.numeric us = .text bs) : us = bs := by
  rcases s.numeric_form us with hn | ⟨v, hn⟩ | ⟨v, hn⟩
  · exact Value.text.inj (hn.symm.trans h)
  · rw [hn] at h
    cases h
  · rw [hn] at h
    cases h

/-- What is bound: the first bytes, as many as the length is to an `int`. -/
theorem bound_eq {text : List UInt8} (h : 0 ∉ text) : bound s text =
    if text.length % 2 ^ 32 ≤ s.limit then .text (text.take (text.length % 2 ^ 32)) else .null := by
  have hlim := s.limit_lt
  have hstrlen : strlen (text ++ [0]) = text.length := by rw [strlen, takeWhile_text h]
  have hint : toInt text.length = Int.bmod text.length (2 ^ 32) := rfl
  have hmod : text.length % 2 ^ 32 ≤ text.length := Nat.mod_le _ _
  by_cases hsmall : text.length % 2 ^ 32 < 2 ^ 31
  · have hn : toInt text.length = (text.length % 2 ^ 32 : Nat) := by
      rw [hint, Int.bmod_def]
      omega
    have hpos : ¬ ((text.length % 2 ^ 32 : Nat) : Int) < 0 := not_lt_of_ge (Int.natCast_nonneg _)
    unfold bound
    simp only [hn, if_neg hpos, Int.toNat_natCast, List.take_append_of_le_length hmod]
    by_cases hle : text.length % 2 ^ 32 ≤ s.limit
    · rw [if_pos hle, if_neg (Nat.not_lt_of_le hle)]
    · rw [if_neg hle, if_pos (Nat.lt_of_not_le hle)]
  · -- a negative length, and the text is longer than any limit
    have hn : toInt text.length < 0 := by
      rw [hint, Int.bmod_def]
      omega
    unfold bound
    simp only [if_pos hn, hstrlen]
    rw [if_pos (by omega), if_neg (by omega)]

theorem bound_eq_self_iff {text : List UInt8} (h : 0 ∉ text) :
    bound s text = .text text ↔ text.length ≤ s.limit := by
  have hlim := s.limit_lt
  rw [bound_eq h]
  constructor
  · intro hbound
    split at hbound
    · rename_i hle
      have hlen := congrArg List.length (Value.text.inj hbound)
      rw [List.length_take] at hlen
      omega
    · cases hbound
  · intro hle
    rw [Nat.mod_eq_of_lt (by omega), if_pos hle, List.take_length]

theorem bound_plain {text bs : List UInt8} (h : 0 ∉ text) (hb : bound s text = .text bs) : 0 ∉ bs := by
  rw [bound_eq h] at hb
  split at hb
  · rw [← Value.text.inj hb]
    exact fun h0 => h (List.mem_of_mem_take h0)
  · cases hb

/-- A parameter is a text or a number, or it is not bound. -/
theorem param_cases (text : List UInt8) : (bound s text = .null ∧ param s text = .null) ∨
    ∃ bs, bound s text = .text bs ∧ param s text = s.numeric bs := by
  have hform : bound s text = .null ∨ ∃ bs, bound s text = .text bs := by
    unfold bound
    dsimp only
    generalize (if toInt text.length < 0 then strlen (text ++ [0]) else (toInt text.length).toNat) = nByte
    split
    · exact Or.inl rfl
    · exact Or.inr ⟨_, rfl⟩
  rcases hform with hb | ⟨bs, hb⟩
  · exact Or.inl ⟨hb, by rw [param, hb, affinity]; nofun⟩
  · exact Or.inr ⟨bs, hb, by rw [param, hb, affinity]⟩

theorem param_null_iff {text : List UInt8} : param s text = .null ↔ bound s text = .null := by
  rcases @param_cases s text with ⟨hb, hp⟩ | ⟨bs, hb, hp⟩
  · exact iff_of_true hp hb
  · refine iff_of_false (fun hnull => ?_) (fun hnull => ?_)
    · rw [hp] at hnull
      rcases s.numeric_form bs with hn | ⟨v, hn⟩ | ⟨v, hn⟩
      all_goals
        rw [hn] at hnull
        cases hnull
    · rw [hb] at hnull
      cases hnull

/-- A name that is a number to SQLite is not equal to a text. -/
theorem equal_iff (he : s.numeric e.name = .text e.name) :
    s.equal (.text e.name) (param s name) = true ↔ bound s name = .text e.name := by
  rw [s.equal_text]
  rcases @param_cases s name with ⟨hb, hp⟩ | ⟨bs, hb, hp⟩
  · rw [hb, hp]
  · rw [hb, hp]
    constructor
    · intro hn
      rw [numeric_of_text hn]
    · intro hbs
      rw [Value.text.inj hbs]
      exact he

theorem map_eq_of_rel {ρ ε γ : Type} {R : ρ → ε → Prop} {f : ρ → γ} {g : ε → γ} {rs : List ρ} {es : List ε}
    (hfg : ∀ r e, R r e → f r = g e) (h : List.Forall₂ R rs es) : rs.map f = es.map g := by
  induction h with
  | nil => rfl
  | cons hr _ ih => rw [List.map_cons, List.map_cons, hfg _ _ hr, ih]

/-- What is found are the entries of what is bound. -/
theorem Texts.found (h : Texts s w) (name : List UInt8) :
    List.Forall₂ Row.Of (named s w.table name) (w.entries.filter fun e => bound s name = .text e.name) := by
  have hrows := h.rows
  have hnum := h.numeric
  rw [Reg.named]
  generalize w.table.rows = rows at hrows ⊢
  generalize w.entries = entries at hrows hnum ⊢
  induction hrows with
  | nil => exact .nil
  | @cons r e rows entries hr hrest ih =>
    have hequal : s.equal r.name (param s name) = true ↔ bound s name = .text e.name := by
      rw [hr.1]
      exact equal_iff (hnum e (List.mem_cons_self ..))
    have ih := ih fun e he => hnum e (List.mem_cons_of_mem _ he)
    by_cases hname : bound s name = .text e.name
    · rw [List.filter_cons_of_pos (p := fun r : Row => s.equal r.name (param s name)) (hequal.mpr hname),
        List.filter_cons_of_pos (p := fun e : Entry => decide (bound s name = .text e.name))
          (decide_eq_true hname)]
      exact .cons hr ih
    · have hnot : ¬ s.equal r.name (param s name) = true := fun h => hname (hequal.mp h)
      rw [List.filter_cons_of_neg (p := fun r : Row => s.equal r.name (param s name)) hnot,
        List.filter_cons_of_neg (p := fun e : Entry => decide (bound s name = .text e.name))
          (by simp [hname])]
      exact ih

/-- There is one at most. -/
theorem Texts.filter_le (h : Texts s w) (v : Value) :
    (w.entries.filter fun e => v = .text e.name).length ≤ 1 := by
  have hnodup : ((w.entries.filter fun e => v = .text e.name).map Entry.name).Nodup :=
    h.nodup.sublist (List.filter_sublist.map _)
  have hof : ∀ e ∈ w.entries.filter fun e => v = .text e.name, v = .text e.name :=
    fun e he => of_decide_eq_true (List.mem_filter.mp he).2
  generalize (w.entries.filter fun e => v = .text e.name) = entries at hnodup hof ⊢
  match entries with
  | [] => exact Nat.zero_le 1
  | [e] => exact Nat.le_refl 1
  | e₁ :: e₂ :: entries =>
    -- two of them would have the same name
    have h₁ := hof e₁ (List.mem_cons_self ..)
    have h₂ := hof e₂ (List.mem_cons_of_mem e₁ (List.mem_cons_self ..))
    have hname := Value.text.inj (h₁.symm.trans h₂)
    rw [List.map_cons, List.map_cons, hname] at hnodup
    exact absurd (List.mem_cons_self ..) (List.nodup_cons.mp hnodup).1

theorem get_none : get s [] = some none := rfl

/-- A row with fields of their own types. -/
theorem get_row (hplain : ∀ x ∈ r.cells, x.value.Plain) :
    get s [r] = (Reg.item (r.cells.map fun x => x.value.own)).map some := by
  obtain ⟨hfields, -, -⟩ := @next_own s prepared [] [] r.cells rfl (Or.inl rfl) hplain
  have hlen : (r.cells.map fun x => x.value.own).length > 0 := Nat.zero_lt_succ _
  simp only [get, List.head?_cons, Option.map_some, answer, hfields]
  exact if_pos hlen

/-- **`get`** on a table of texts finds its entry, unless the name is cut to another one. -/
theorem Texts.finds_iff (h : Texts s w) {name : List UInt8} (hplain : 0 ∉ name) :
    Finds s w.table w.entries name ↔ ∀ e ∈ w.entries, bound s name = .text e.name → e.name = name := by
  have hnamed := h.found name
  have hle := h.filter_le (bound s name)
  have hmem : ∀ e, e ∈ (w.entries.filter fun e => bound s name = .text e.name) ↔
      e ∈ w.entries ∧ bound s name = .text e.name := by
    intro e
    rw [List.mem_filter, decide_eq_true_eq]
  -- an entry of the name is what is bound
  have hown : ∀ e ∈ w.entries, e.name = name → bound s name = .text e.name := by
    rintro e he rfl
    exact (bound_eq_self_iff hplain).mpr (h.short e he)
  rw [Finds]
  generalize Reg.named s w.table name = rows at hnamed ⊢
  generalize (w.entries.filter fun e => bound s name = .text e.name) = entries at hnamed hle hmem
  cases hnamed with
  | nil =>
    refine iff_of_true (fun found hfound => ⟨none, ?_, ?_⟩) fun e he hb => ?_
    · rw [List.perm_nil.mp hfound, get_none]
    · have hno : (w.entries.find? fun e => e.name = name) = none := by
        refine List.find?_eq_none.mpr fun e he hname => ?_
        cases (hmem e).mpr ⟨he, hown e he (of_decide_eq_true hname)⟩
      rw [hno]
      rfl
    · cases (hmem e).mpr ⟨he, hb⟩
  | @cons r e rows entries hr hrest =>
    have hnil : entries = [] := List.length_eq_zero_iff.mp (by rw [List.length_cons] at hle; omega)
    subst hnil
    cases hrest
    obtain ⟨he, hb⟩ := (hmem e).mp (List.mem_cons_self ..)
    have honly : ∀ e' ∈ w.entries, bound s name = .text e'.name → e' = e :=
      fun e' he' hb' => List.mem_singleton.mp ((hmem e').mpr ⟨he', hb'⟩)
    have hget : get s [r] = some (some r.item) := by
      rw [get_row hr.plain, hr.item_eq]
      rfl
    constructor
    · intro hfinds e' he' hb'
      obtain ⟨x, hx, htexts⟩ := hfinds [r] (List.Perm.refl _)
      rw [hget] at hx
      cases hx
      rw [Option.map_some, hr.item_texts] at htexts
      obtain ⟨e'', hfind, heq⟩ := Option.map_eq_some_iff.mp htexts.symm
      have hname : e''.name = name := of_decide_eq_true (List.find?_some hfind :)
      rw [honly e' he' hb', ← hname]
      exact (congrArg Prod.fst heq).symm
    · intro hall found hfound
      rw [List.perm_singleton.mp hfound]
      refine ⟨some r.item, hget, ?_⟩
      obtain ⟨e', hfind⟩ := Option.isSome_iff_exists.mp (List.find?_isSome.mpr
        ⟨e, he, decide_eq_true (hall e he hb)⟩ : (w.entries.find? fun e => e.name = name).isSome = true)
      have hname : e'.name = name := of_decide_eq_true (List.find?_some hfind :)
      have hmem' := List.mem_of_find?_eq_some hfind
      rw [hfind, honly e' hmem' (hown e' hmem' hname), Option.map_some, Option.map_some, hr.item_texts]

/-- **Texts are answered for.** -/
theorem Texts.answers (h : Texts s w) : Answers s w.table w.entries := by
  constructor
  · intro e he
    refine (h.finds_iff e.name_plain).mpr fun e' _ hb => ?_
    rw [(bound_eq_self_iff e.name_plain).mpr (h.short e he)] at hb
    exact (Value.text.inj hb).symm
  · intro rows hrows
    have hwalk : names s rows = some (rows.map fun r => textOf r.name) := by
      refine @walk_eq s (List UInt8) Row _ _ _ [.string] rows prepared [] [] (fun r hr => ?_) rfl (Or.inl rfl)
      obtain ⟨e, -, he⟩ := h.row (hrows.mem_iff.mp hr)
      refine ⟨by rw [he.1]; rfl, ?_, ?_⟩
      · intro x hx
        rw [List.mem_singleton.mp hx, he.1]
        exact e.name_plain
      · rw [he.1]
        exact congrArg some (takeWhile_text e.name_plain)
    refine ⟨_, hwalk, (hrows.map _).trans (List.Perm.of_eq ?_)⟩
    exact map_eq_of_rel (fun r e he => by rw [he.1]; rfl) h.rows
  · intro rows hrows
    have hwalk : dbs s rows = some (rows.map Row.item) := by
      refine @walk_eq s Item Row _ _ _ [.integer, .string, .string] rows prepared [] [] (fun r hr => ?_) rfl
        (Or.inl rfl)
      obtain ⟨e, -, he⟩ := h.row (hrows.mem_iff.mp hr)
      exact ⟨he.types, he.plain, he.item_eq⟩
    refine ⟨_, hwalk, ((hrows.map _).map _).trans (List.Perm.of_eq ?_)⟩
    rw [List.map_map]
    exact map_eq_of_rel (fun r e he => he.item_texts) h.rows

/-! ## Adding an entry -/

theorem Texts.named_ne_iff (h : Texts s w) (name : List UInt8) :
    Reg.named s w.table name ≠ [] ↔ ∃ e ∈ w.entries, bound s name = .text e.name := by
  have hnamed := h.found name
  constructor
  · intro hne
    cases hn : Reg.named s w.table name with
    | nil => exact absurd hn hne
    | cons r rows =>
      rw [hn] at hnamed
      cases hf : w.entries.filter fun e => bound s name = .text e.name with
      | nil =>
        rw [hf] at hnamed
        cases hnamed
      | cons e entries =>
        have hmem : e ∈ w.entries.filter fun e => bound s name = .text e.name := by
          rw [hf]
          exact List.mem_cons_self ..
        exact ⟨e, (List.mem_filter.mp hmem).1, of_decide_eq_true (List.mem_filter.mp hmem).2⟩
  · rintro ⟨e, he, hname⟩ hnil
    rw [hnil] at hnamed
    have hmem : e ∈ w.entries.filter fun e => bound s name = .text e.name :=
      List.mem_filter.mpr ⟨he, decide_eq_true hname⟩
    rw [List.forall₂_nil_left_iff.mp hnamed] at hmem
    cases hmem

/-- What `set` comes to. -/
theorem Texts.set_eq (h : Texts s w) [Decidable (w.Refuses s e)] : Reg.set s w.table e.name e.path =
    if w.Refuses s e then (w.table, false)
    else (⟨w.table.rows ++ [⟨Int64.ofNat (w.table.seq + 1), param s e.name, param s e.path⟩],
      w.table.seq + 1⟩, true) := by
  have hiff : (param s e.name = .null ∨ param s e.path = .null ∨ named s w.table e.name ≠ [] ∨
      w.table.Full) ↔ w.Refuses s e := by
    rw [param_null_iff, param_null_iff, h.named_ne_iff, World.Refuses]
  by_cases hc : w.Refuses s e
  · rw [if_pos hc, Reg.set, insert, if_pos (hiff.mpr hc)]
    rfl
  · rw [if_neg hc, Reg.set, insert, if_neg fun h0 => hc (hiff.mp h0)]
    rfl

/-- A row that can be taken for an item has texts, and the item is these. -/
theorem texts_of_item {i : Item} (hplain : ∀ x ∈ r.cells, x.value.Plain)
    (h : Reg.item (r.cells.map fun x => x.value.own) = some i) :
    ∃ e, r.Of e ∧ i.texts = e.texts := by
  obtain ⟨id, -, h₁⟩ := Option.bind_eq_some_iff.mp h
  obtain ⟨name, hname, h₂⟩ := Option.bind_eq_some_iff.mp h₁
  obtain ⟨path, hpath, -⟩ := Option.map_eq_some_iff.mp h₂
  have htext : ∀ (v : Value) bs, asUstr (some v.own) = some bs → ∃ us, v = .text us := by
    intro v bs hv
    cases v with
    | text us => exact ⟨us, rfl⟩
    | null | integer | float | blob => cases hv
  obtain ⟨bs, hbs⟩ := htext r.name name hname
  obtain ⟨us, hus⟩ := htext r.path path hpath
  have hmem : ∀ x ∈ [cell "name" r.name, cell "path" r.path], x.value.Plain :=
    fun x hx => hplain x (List.mem_cons_of_mem _ hx)
  have hplain₁ : r.name.Plain := hmem _ (List.mem_cons_self ..)
  have hplain₂ : r.path.Plain := hmem _ (List.mem_cons_of_mem _ (List.mem_cons_self ..))
  rw [hbs] at hplain₁
  rw [hus] at hplain₂
  have hof : r.Of ⟨bs, us, hplain₁, hplain₂⟩ := ⟨hbs, hus⟩
  refine ⟨_, hof, ?_⟩
  rw [hof.item_eq] at h
  rw [← Option.some.inj h]
  exact hof.item_texts

theorem param_plain (h : 0 ∉ name) : (param s name).Plain := by
  rcases @param_cases s name with ⟨-, hp⟩ | ⟨bs, hb, hp⟩
  · rw [hp]
    trivial
  · rw [hp]
    rcases s.numeric_form bs with hn | ⟨v, hn⟩ | ⟨v, hn⟩
    · rw [hn]
      exact bound_plain h hb
    · rw [hn]
      trivial
    · rw [hn]
      trivial

/-- A parameter that is a text is what was bound, and not a number. -/
theorem param_text {bs : List UInt8} (h : param s name = .text bs) :
    bound s name = .text bs ∧ s.numeric bs = .text bs := by
  rcases @param_cases s name with ⟨-, hp⟩ | ⟨us, hb, hp⟩
  · rw [hp] at h
    cases h
  · rw [hp] at h
    have hus := numeric_of_text h
    subst hus
    exact ⟨hb, h⟩

/-- A `set` that does nothing. -/
theorem set_nothing (h : Texts s w) (hc : w.Refuses s e) :
    Reg.set s w.table e.name e.path = (w.table, false) ∧ w.set s e = w := by
  classical
  have hset : Reg.set s w.table e.name e.path = (w.table, false) := by rw [h.set_eq, if_pos hc]
  refine ⟨hset, ?_⟩
  rw [World.set, hset]
  rfl

/-- A `set` that adds a row. -/
theorem set_adds (h : Texts s w) (hc : ¬ w.Refuses s e) :
    Reg.named s w.table e.name = [] ∧
      w.set s e = ⟨⟨w.table.rows ++ [⟨Int64.ofNat (w.table.seq + 1), param s e.name, param s e.path⟩],
        w.table.seq + 1⟩, w.entries ++ [e]⟩ := by
  classical
  refine ⟨not_not.mp fun hne => hc ?_, ?_⟩
  · exact Or.inr (Or.inr (Or.inl ((h.named_ne_iff e.name).mp hne)))
  · rw [World.set, h.set_eq, if_neg hc]
    rfl

/-- An entry whose name is there is refused. -/
theorem Texts.refuses (h : Texts s w) (hdup : ∃ e' ∈ w.entries, e'.name = e.name) : w.Refuses s e := by
  obtain ⟨e', he', hname⟩ := hdup
  refine Or.inr (Or.inr (Or.inl ⟨e', he', ?_⟩))
  rw [hname]
  exact (bound_eq_self_iff e.name_plain).mpr (hname ▸ h.short e' he')

/-- Texts stay texts. -/
theorem Texts.set (h : Texts s w) (hg : w.Textual s (.set e) (w.set s e)) : Texts s (w.set s e) := by
  by_cases hc : w.Refuses s e
  · rw [(set_nothing h hc).2]
    exact h
  · obtain ⟨⟨hname, hnum⟩, hpath, hnum'⟩ := hg.resolve_left hc
    have hparam : ∀ {text : List UInt8}, 0 ∉ text → text.length ≤ s.limit → s.numeric text = .text text →
        param s text = .text text := by
      intro text hplain hle hn
      rw [param, (bound_eq_self_iff hplain).mpr hle]
      exact hn
    rw [(set_adds h hc).2]
    constructor
    · exact List.rel_append h.rows
        (.cons ⟨hparam e.name_plain hname hnum, hparam e.path_plain hpath hnum'⟩ .nil)
    · intro e' he'
      rcases List.mem_append.mp he' with he' | he'
      · exact h.short e' he'
      · rw [List.mem_singleton.mp he']
        exact hname
    · intro e' he'
      rcases List.mem_append.mp he' with he' | he'
      · exact h.numeric e' he'
      · rw [List.mem_singleton.mp he']
        exact hnum
    · rw [List.map_append, List.nodup_append]
      refine ⟨h.nodup, List.nodup_singleton _, fun a ha b hb hab => hc (h.refuses ?_)⟩
      obtain ⟨e', he', rfl⟩ := List.mem_map.mp ha
      exact ⟨e', he', hab.trans (List.mem_singleton.mp hb)⟩

/-- A new entry that is found is a row of its texts. -/
theorem Texts.row_of_finds (h : Texts s w) (hc : ¬ w.Refuses s e)
    (hfinds : Finds s (w.set s e).table (w.set s e).entries e.name) :
    param s e.name = .text e.name ∧ param s e.path = .text e.path := by
  obtain ⟨hnone, hset⟩ := set_adds h hc
  rw [hset] at hfinds
  -- the new row is found
  obtain ⟨bs, hb, hp⟩ := (@param_cases s e.name).resolve_left fun hnull => hc (Or.inl hnull.1)
  have hfound : Reg.named s ⟨w.table.rows ++ [⟨Int64.ofNat (w.table.seq + 1), param s e.name,
      param s e.path⟩], w.table.seq + 1⟩ e.name =
      [⟨Int64.ofNat (w.table.seq + 1), param s e.name, param s e.path⟩] := by
    have hnone : w.table.rows.filter (fun r => s.equal r.name (param s e.name)) = [] := hnone
    rw [Reg.named, List.filter_append, hnone]
    refine List.filter_cons_of_pos (p := fun r : Row => s.equal r.name (param s e.name)) ?_
    rw [hp]
    exact s.equal_numeric bs
  obtain ⟨r, hr, htexts⟩ := hfinds _ (List.Perm.of_eq hfound.symm)
  have hplain : ∀ x ∈ (Row.mk (Int64.ofNat (w.table.seq + 1)) (param s e.name)
      (param s e.path)).cells, x.value.Plain := by
    intro x hx
    rcases List.mem_cons.mp hx with rfl | hx
    · trivial
    · rcases List.mem_cons.mp hx with rfl | hx
      · exact param_plain e.name_plain
      · cases List.mem_singleton.mp hx
        exact param_plain e.path_plain
  -- and no other entry has the name
  have hno : (w.entries.find? fun e' => e'.name = e.name) = none :=
    List.find?_eq_none.mpr fun e' he' hname => hc (h.refuses ⟨e', he', of_decide_eq_true hname⟩)
  have hfind : ((w.entries ++ [e]).find? fun e' => e'.name = e.name) = some e := by
    rw [List.find?_append, hno, Option.none_or]
    exact List.find?_cons_of_pos (decide_eq_true rfl)
  rw [hfind, Option.map_some] at htexts
  obtain ⟨i, rfl, hi⟩ := Option.map_eq_some_iff.mp htexts
  rw [get_row hplain] at hr
  obtain ⟨i', hi', heq⟩ := Option.map_eq_some_iff.mp hr
  cases Option.some.inj heq
  obtain ⟨e', hof, htexts'⟩ := texts_of_item hplain hi'
  have hsame := htexts'.symm.trans hi
  exact ⟨hof.1.trans (congrArg Value.text (congrArg Prod.fst hsame)),
    hof.2.trans (congrArg Value.text (congrArg Prod.snd hsame))⟩

/-- **One call** on a table of texts is right if and only if it adds texts or nothing, or asks for no
    name that is cut to another one. -/
theorem Texts.right_iff (h : Texts s w) {c : Call} (hs : World.Step s w c w') :
    w.Right s c w' ↔ w.Textual s c w' := by
  cases c with
  | get name hplain => exact h.finds_iff hplain
  | set e =>
    cases hs
    constructor
    · intro hright
      by_cases hc : w.Refuses s e
      · exact Or.inl hc
      · have hmem : e ∈ (w.set s e).entries := by
          rw [(set_adds h hc).2]
          exact List.mem_append_right _ (List.mem_singleton.mpr rfl)
        obtain ⟨hname, hpath⟩ := h.row_of_finds hc (hright.2.get e hmem)
        obtain ⟨hb, hnum⟩ := param_text hname
        obtain ⟨hb', hnum'⟩ := param_text hpath
        exact Or.inr ⟨⟨(bound_eq_self_iff e.name_plain).mp hb, hnum⟩,
          (bound_eq_self_iff e.path_plain).mp hb', hnum'⟩
    · exact fun hg => ⟨fun hdup => (set_nothing h (h.refuses hdup)).1, (h.set hg).answers⟩

/-- Texts stay texts. -/
theorem Texts.step (h : Texts s w) {c : Call} (hs : World.Step s w c w') (hg : w.Textual s c w') :
    Texts s w' := by
  cases c with
  | get name hplain =>
    cases hs
    exact h
  | set e =>
    cases hs
    exact h.set hg

end Texts

/-! ## Every run -/

/-- **The registry** does what it is for in every run of `set` and `get` if and only if no entry that
is added has a name or a path that is too long or a number to SQLite, and no name that is asked for is
cut to that of an entry. -/
theorem registry_iff {s : Sqlite} {tr : List (Call × World)} (h : Run (World.Step s) World.init tr) :
    Always (World.Right s) World.init tr ↔ Always (World.Textual s) World.init tr := by
  refine h.always_iff (I := Texts s) ?_ ?_ texts_init
  · exact fun w c w' hw hs => hw.right_iff hs
  · exact fun w c w' hw hs hright => hw.step hs ((hw.right_iff hs).mp hright)

/-- Decimal digits. -/
def isNumber (bs : List UInt8) : Bool := bs ≠ [] ∧ bs.all fun b => 48 ≤ b && b ≤ 57

theorem digitsOnly_limit : (1000000000 : Nat) < 2 ^ 31 := by decide

/-- Of SQLite, as much as is needed for short names of digits. -/
def digitsOnly : Sqlite where
  casts := noCasts
  limit := 1000000000
  limit_lt := digitsOnly_limit
  numeric := fun bs =>
    if isNumber bs then .integer (Int64.ofNat (Nat.ofDigits 10 (bs.reverse.map fun b => b.toNat - 48)))
    else .text bs
  equal := fun v v' => v = v'
  shown := fun _ => []
  numeric_form := by
    intro bs
    by_cases h : isNumber bs = true
    · exact Or.inr (Or.inl ⟨_, if_pos h⟩)
    · exact Or.inl (if_neg h)
  equal_numeric := fun bs => decide_eq_true rfl
  equal_text := fun bs v => by
    rw [decide_eq_true_eq]
    exact eq_comm

/-- "db" at "a". -/
def plainEntry : Entry := ⟨[100, 98], [97], by decide, by decide⟩

/-- A name that is asked for, and not there. -/
def otherName : List UInt8 := [120]

theorem registry_iff_plain : ∃ tr, tr.map Prod.fst =
      [.set plainEntry, .set plainEntry, .get otherName (by decide)] ∧
    Always (World.Right digitsOnly) World.init tr := by
  have hr : Run (World.Step digitsOnly) World.init
      [(.set plainEntry, World.init.set digitsOnly plainEntry),
        (.set plainEntry, (World.init.set digitsOnly plainEntry).set digitsOnly plainEntry),
        (.get otherName (by decide), (World.init.set digitsOnly plainEntry).set digitsOnly plainEntry)] :=
    .cons rfl (.cons rfl (.cons rfl (.nil _)))
  have hname := (@bound_eq_self_iff digitsOnly plainEntry.name plainEntry.name_plain).mpr (by decide)
  have hother := (@bound_eq_self_iff digitsOnly otherName (by decide)).mpr (by decide)
  have hentries : ((World.init.set digitsOnly plainEntry).set digitsOnly plainEntry).entries =
      [plainEntry] := by decide +kernel
  refine ⟨_, rfl, (registry_iff hr).mpr ⟨Or.inr ⟨⟨by decide, rfl⟩, by decide, rfl⟩, Or.inl ?_, ?_, trivial⟩⟩
  · exact Or.inr (Or.inr (Or.inl ⟨plainEntry, by decide +kernel, hname⟩))
  · intro e he hb
    rw [hentries, List.mem_singleton] at he
    rw [he, hother] at hb
    exact absurd (Value.text.inj hb) (by decide)

/-- The name "1". -/
def oneEntry : Entry := ⟨[49], [97], by decide, by decide⟩

/-- A path of 2^32 + 1 letters. -/
def longEntry : Entry where
  name := [110]
  path := List.replicate (2 ^ 32 + 1) 97
  name_plain := by decide
  path_plain h := absurd (List.eq_of_mem_replicate h) (by decide)

/-- A number for a name; and a path of which the first letter is bound. -/
theorem registry_fails :
    (∃ w, World.Step digitsOnly World.init (.set oneEntry) w ∧ ¬ Answers digitsOnly w.table w.entries) ∧
    ∃ w, World.Step digitsOnly World.init (.set longEntry) w ∧ ¬ Answers digitsOnly w.table w.entries := by
  refine ⟨⟨_, rfl, fun h => ?_⟩, _, rfl, fun h => ?_⟩
  · obtain ⟨r, hr, -⟩ := h.get oneEntry (by decide +kernel) _ (List.Perm.refl _)
    have hnone : get digitsOnly (named digitsOnly (World.set digitsOnly World.init oneEntry).table
        oneEntry.name) = none := by decide +kernel
    cases hnone.symm.trans hr
  · have hlength : longEntry.path.length = 2 ^ 32 + 1 := List.length_replicate
    have hname := (@bound_eq_self_iff digitsOnly longEntry.name longEntry.name_plain).mpr (by decide)
    have hpath := @bound_eq digitsOnly longEntry.path longEntry.path_plain
    rw [hlength, if_pos (by decide)] at hpath
    have hright : World.Right digitsOnly World.init (.set longEntry) (World.set digitsOnly World.init longEntry) :=
      ⟨fun ⟨e', he', _⟩ => (by cases he'), h⟩
    rcases (texts_init.right_iff (c := .set longEntry) rfl).mp hright with hrefused | ⟨-, hshort, -⟩
    · rcases hrefused with hnull | hnull | ⟨e', he', -⟩ | hfull
      · cases hname.symm.trans hnull
      · cases hpath.symm.trans hnull
      · cases he'
      · exact absurd hfull (by decide)
    · rw [hlength] at hshort
      exact absurd hshort (by decide)

end Slt3.Reg

end CodeSLoop
