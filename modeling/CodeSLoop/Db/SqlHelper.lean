import CodeSLoop.Db.VarHelper
import Mathlib.Data.List.GetD

/-!
# Texts and parameters (`db/slt3/sql.cc`, `db/slt3/var.cc`)

The variables of a class are registered with two helpers. `sql::helper`, of which there is one for
the class, keeps the names it accepts and writes the texts of the queries from them;
`var_base::helper`, of which every object has one, keeps all of them, and sets the parameters of
the queries. A text has a placeholder for each field that is accepted, in order; a parameter has
the place of its index in the selection, or of its variable in the object. `lined_up_iff` says
when the two meet, whatever has been called before.

The texts are kept as what was appended to them, so that a placeholder can be told from a name.
-/

namespace CodeSLoop

namespace Slt3.Query.SqlHelper

open VarHelper

/-! ## Texts -/

/-- What is appended to a text: as it is, a column's name in a list, a name with its placeholder
    (`name=?`), or a placeholder of its own. -/
inductive Piece
  | text (s : String)
  | column (name : String)
  | compare (name : String)
  | value
  deriving DecidableEq

def Piece.render : Piece → String
  | text s => s
  | column name => name
  | compare name => name ++ "=?"
  | value => "?"

abbrev Text := List Piece

def Text.render : Text → String
  | [] => ""
  | p :: t => p.render ++ Text.render t

/-- The names in a list. -/
def Text.names : Text → List String
  | [] => []
  | .column name :: t => name :: Text.names t
  | .text _ :: t | .compare _ :: t | .value :: t => Text.names t

/-- The names that are compared. -/
def Text.compared : Text → List String
  | [] => []
  | .compare name :: t => name :: Text.compared t
  | .text _ :: t | .column _ :: t | .value :: t => Text.compared t

/-- How many placeholders stand for themselves. -/
def Text.values : Text → Nat
  | [] => 0
  | .value :: t => Text.values t + 1
  | .text _ :: t | .column _ :: t | .compare _ :: t => Text.values t

/-- What the placeholders belong to: the names that have values, and the names that are compared. -/
def Text.holders (t : Text) : List String := t.names.take t.values ++ t.compared

@[simp] theorem names_append (t u : Text) : Text.names (t ++ u) = t.names ++ u.names := by
  induction t with
  | nil => rfl
  | cons p t ih => cases p <;> simp [Text.names, ih]

@[simp] theorem compared_append (t u : Text) : Text.compared (t ++ u) = t.compared ++ u.compared := by
  induction t with
  | nil => rfl
  | cons p t ih => cases p <;> simp [Text.compared, ih]

@[simp] theorem values_append (t u : Text) : Text.values (t ++ u) = t.values + u.values := by
  induction t with
  | nil => simp [Text.values]
  | cons p t ih =>
    cases p with
    | value =>
      simp only [List.cons_append, Text.values, ih]
      exact Nat.add_right_comm _ _ _
    | text | column | compare => simp [Text.values, ih]

/-! ## `sql::helper` -/

/-- `sql::helper::data`. -/
structure Data where
  name : String
  typ : String
  flags : String
  deriving DecidableEq

/-- The members of `sql::helper` that are used here. A text is empty until it is made. -/
structure Helper where
  tableName : String
  done : Bool
  fields : List Data
  createSql : Text
  saveSql : Text
  findByIdSql : Text
  findBySql : Text
  findByFields : List Int
  deriving DecidableEq

/-- `find_by_fields_initializer_`. -/
def findByFieldsInitializer : List Int := [-1, -1, -1, -1, -1]

/-- `sql::helper( tablename )`. -/
def Helper.new (tableName : String) : Helper where
  tableName := tableName
  done := false
  fields := []
  createSql := []
  saveSql := []
  findByIdSql := []
  findBySql := []
  findByFields := findByFieldsInitializer

/-- `add_field`. A null pointer is as good as an empty string. -/
def Helper.addField (h : Helper) (name typ : Option String) (flags : String) : Helper × Bool :=
  if h.done = true ∨ name.getD "" = "" ∨ typ.getD "" = "" then (h, false)
  else if name.getD "" ∈ h.fields.map Data.name then ({ h with done := true }, false)
  else ({ h with fields := h.fields ++ [⟨name.getD "", typ.getD "", flags⟩] }, true)

/-- The names of the fields, from the one at `i` on, with commas between them. -/
def columns : Nat → List Data → Text
  | _, [] => []
  | i, d :: ds => (if 0 < i then [.text ","] else []) ++ .column d.name :: columns (i + 1) ds

/-- The first loop of `create_sql`: the first field is left out. -/
def createColumns : Nat → List Data → Text
  | _, [] => []
  | i, d :: ds =>
    (if i = 0 then [] else (if 1 < i then [.text ","] else []) ++ [.column d.name]) ++
      createColumns (i + 1) ds

/-- The second one, from `j` on. -/
def createValues : Nat → Nat → Text
  | _, 0 => []
  | j, n + 1 => (if 1 < j then [.text ","] else []) ++ .value :: createValues (j + 1) n

/-- The loop of `save_sql`. -/
def saveFields : Nat → List Data → Text
  | _, [] => []
  | i, d :: ds =>
    (if i = 0 then [] else (if 1 < i then [.text ", "] else []) ++ [.compare d.name, .text " "]) ++
      saveFields (i + 1) ds

/-- The loop of `find_by`, after `i` fields. -/
def conditions (fields : List Data) : Nat → List Int → Text
  | _, [] => []
  | i, f :: fs =>
    if f = -1 then []
    else
      match if f < fields.length then getAt fields f else none with
      | some d =>
        (if 0 < i then [.text " AND "] else []) ++ [.compare d.name, .text " "] ++
          conditions fields (i + 1) fs
      | none => conditions fields i fs

def createText (table : String) (fields : List Data) : Text :=
  [.text "INSERT INTO ", .text table, .text " ( "] ++ createColumns 0 fields ++
    [.text " ) VALUES ( "] ++ createValues 1 (fields.length - 1) ++ [.text " ); "]

def saveText (table : String) (fields : List Data) : Text :=
  [.text "UPDATE ", .text table, .text " SET "] ++ saveFields 0 fields ++
    match fields with
    | [] => []
    | d :: _ => [.text " WHERE ", .compare d.name, .text " ;"]

def findByIdText (table : String) (fields : List Data) : Text :=
  [.text "SELECT "] ++ columns 0 fields ++ [.text " FROM ", .text table, .text " WHERE "] ++
    match fields with
    | [] => []
    | d :: _ => [.compare d.name, .text " LIMIT 1;"]

def findByText (table : String) (fields : List Data) (tmpi : List Int) : Text :=
  [.text "SELECT "] ++ columns 0 fields ++ [.text " FROM ", .text table, .text " WHERE "] ++
    conditions fields 0 tmpi ++ [.text "LIMIT 1; "]

/-- `create_sql`. -/
def Helper.create (h : Helper) : Helper × Text :=
  if h.createSql ≠ [] then (h, h.createSql)
  else
    let t := createText h.tableName h.fields
    ({ h with createSql := t }, t)

/-- `save_sql`. -/
def Helper.save (h : Helper) : Helper × Text :=
  if h.saveSql ≠ [] then (h, h.saveSql)
  else
    let t := saveText h.tableName h.fields
    ({ h with saveSql := t }, t)

/-- `find_by_id_sql`. -/
def Helper.findById (h : Helper) : Helper × Text :=
  if h.findByIdSql ≠ [] then (h, h.findByIdSql)
  else
    let t := findByIdText h.tableName h.fields
    ({ h with findByIdSql := t }, t)

/-- `find_by`. What it has made a text for is not noted: `find_by_fields_` stays as it was. -/
def Helper.findBy (h : Helper) (field1 field2 field3 field4 field5 : Int) : Helper × Text :=
  let tmpi := [field1, field2, field3, field4, field5]
  if tmpi = h.findByFields ∧ h.findBySql ≠ [] then (h, h.findBySql)
  else
    let t := findByText h.tableName h.fields tmpi
    ({ h with findBySql := t }, t)

/-! ## Objects -/

/-- A variable of an object, with what it is registered with. -/
structure Field where
  name : Option String
  coltype : Option String
  flags : String
  var : Var
  deriving DecidableEq

/-- What `register_variable` does to `sql::helper` when an object is constructed. -/
def construct (h : Helper) : List Field → Helper
  | [] => h
  | f :: fs => construct (h.addField f.name f.coltype f.flags).1 fs

/-- The `dtalst_` of the object's `var_base::helper`, which takes everything. -/
def dtalst (fs : List Field) : List (String × Var) := fs.map fun f => (f.name.getD "", f.var)

/-- What may be called before: another object of the class is constructed, or a text is asked
    for. -/
inductive Call
  | object | create | save | findById
  | findBy (field1 field2 field3 field4 field5 : Int)
  deriving DecidableEq

def exec (fs : List Field) (h : Helper) : Call → Helper
  | .object => construct h fs
  | .create => h.create.1
  | .save => h.save.1
  | .findById => h.findById.1
  | .findBy field1 field2 field3 field4 field5 => (h.findBy field1 field2 field3 field4 field5).1

/-- The class's `sql::helper` after an object has been constructed and these calls have been
    made. -/
def history (table : String) (fs : List Field) (calls : List Call) : Helper :=
  calls.foldl (exec fs) (construct (.new table) fs)

/-! ## What is registered -/

variable {h : Helper} {f : Field} {fs : List Field} {table : String} {F : List Data}

theorem addField_done (name typ : Option String) (flags : String) (hd : h.done = true) :
    (h.addField name typ flags).1 = h := by
  unfold Helper.addField
  rw [if_pos (Or.inl hd)]

/-- Only `done_` and the fields change, and these grow. -/
theorem addField_eq (name typ : Option String) (flags : String) :
    ∃ done more, (h.addField name typ flags).1 = { h with done := done, fields := h.fields ++ more } := by
  unfold Helper.addField
  split
  · exact ⟨h.done, [], by rw [List.append_nil]⟩
  · split
    · exact ⟨true, [], by rw [List.append_nil]⟩
    · exact ⟨h.done, [_], rfl⟩

theorem construct_eq : ∃ done more, construct h fs = { h with done := done, fields := h.fields ++ more } := by
  induction fs generalizing h with
  | nil => exact ⟨h.done, [], by rw [List.append_nil]; rfl⟩
  | cons f fs ih =>
    obtain ⟨done, more, hadd⟩ := @addField_eq h f.name f.coltype f.flags
    obtain ⟨done', more', hrest⟩ := @ih (h.addField f.name f.coltype f.flags).1
    refine ⟨done', more ++ more', ?_⟩
    rw [construct, hrest, hadd, List.append_assoc]

theorem construct_done (hd : h.done = true) : construct h fs = h := by
  induction fs with
  | nil => rfl
  | cons f fs ih =>
    rw [construct, addField_done _ _ _ hd]
    exact ih

/-- Nothing more of this is accepted. -/
def Full (fs : List Field) (h : Helper) : Prop :=
  h.done = true ∨ ∀ f ∈ fs,
    f.name.getD "" = "" ∨ f.coltype.getD "" = "" ∨ f.name.getD "" ∈ h.fields.map Data.name

/-- A variable that has been registered is not accepted again. -/
theorem addField_full : Full [f] (h.addField f.name f.coltype f.flags).1 := by
  unfold Helper.addField
  split
  · rename_i hbad
    rcases hbad with hd | hname | htyp
    · exact .inl hd
    · refine .inr ?_
      simp [hname]
    · refine .inr ?_
      simp [htyp]
  · split
    · exact .inl rfl
    · refine .inr ?_
      simp

theorem construct_full : Full fs (construct h fs) := by
  -- by the variables: what has been registered, or refused, stays so while the rest is
  induction fs generalizing h with
  | nil =>
    refine .inr ?_
    intro f hf
    cases hf
  | cons f fs ih =>
    rw [construct]
    have hfirst := @addField_full h f
    generalize (h.addField f.name f.coltype f.flags).1 = h₁ at hfirst
    rcases hfirst with hd | hmem
    · rw [construct_done hd]
      exact .inl hd
    · rcases @ih h₁ with hd | hrest
      · exact .inl hd
      · refine .inr (List.forall_mem_cons.mpr ⟨?_, hrest⟩)
        obtain ⟨done, more, hgrow⟩ := @construct_eq h₁ fs
        refine (hmem f (List.mem_singleton.mpr rfl)).imp_right (Or.imp_right ?_)
        intro hin
        rw [hgrow, List.map_append]
        exact List.mem_append_left _ hin

/-- **Another object of the class** changes no field. -/
theorem construct_of_full (hf : Full fs h) : (construct h fs).fields = h.fields := by
  induction fs generalizing h with
  | nil => rfl
  | cons f fs ih =>
    rcases hf with hd | hall
    · rw [construct_done hd]
    · obtain ⟨hfirst, hrest⟩ := List.forall_mem_cons.mp hall
      rw [construct]
      unfold Helper.addField
      split
      · exact ih (.inr hrest)
      · rename_i hbad
        split
        · rw [construct_done rfl]
        · rename_i hnew
          rcases hfirst with hname | htyp | hin
          · exact absurd (.inr (.inl hname)) hbad
          · exact absurd (.inr (.inr htyp)) hbad
          · exact absurd hin hnew

/-! ## What has been called -/

/-- The selection that the text of `find_by` is for, after a call. -/
def shownAfter (cur : Option (List Int)) : Call → Option (List Int)
  | .findBy field1 field2 field3 field4 field5 =>
    let tmpi := [field1, field2, field3, field4, field5]
    some (if tmpi = findByFieldsInitializer then cur.getD findByFieldsInitializer else tmpi)
  | .object | .create | .save | .findById => cur

/-- The last selection that was not `-1` throughout, if there was one; or that. -/
def shown (calls : List Call) : Option (List Int) := calls.foldl shownAfter none

/-- What holds of a class's helper. -/
structure Inv (table : String) (fs : List Field) (F : List Data) (cur : Option (List Int))
    (h : Helper) : Prop where
  tableName : h.tableName = table
  fields : h.fields = F
  findByFields : h.findByFields = findByFieldsInitializer
  createSql : h.createSql = [] ∨ h.createSql = createText table F
  saveSql : h.saveSql = [] ∨ h.saveSql = saveText table F
  findBySql : h.findBySql = cur.elim [] (findByText table F)
  full : Full fs h

theorem findByText_ne {tmpi : List Int} : findByText table F tmpi ≠ [] := by
  intro h
  cases h

/-- The text that `find_by` returns. -/
theorem findBy_eq {cur : Option (List Int)} (hi : Inv table fs F cur h)
    (field1 field2 field3 field4 field5 : Int) :
    (h.findBy field1 field2 field3 field4 field5).2 =
        findByText table F ((shownAfter cur (.findBy field1 field2 field3 field4 field5)).getD []) ∧
      (h.findBy field1 field2 field3 field4 field5).1 =
        { h with findBySql := (h.findBy field1 field2 field3 field4 field5).2 } := by
  have hsql := hi.findBySql
  constructor
  · unfold Helper.findBy
    dsimp only [shownAfter]
    rw [hi.findByFields, hi.tableName, hi.fields, Option.getD_some]
    split
    · rename_i hcached
      rw [if_pos hcached.1]
      -- the cached text is there, so `find_by` has been called before
      cases cur with
      | none => exact absurd hsql hcached.2
      | some p => exact hsql
    · rename_i hnew
      split
      · rename_i heq
        cases cur with
        | none => rw [Option.getD_none, heq]
        | some p => exact absurd ⟨heq, by rw [hsql]; exact findByText_ne⟩ hnew
      · rfl
  · unfold Helper.findBy
    dsimp only
    split <;> rfl

theorem inv_exec {cur : Option (List Int)} (hi : Inv table fs F cur h) (call : Call) :
    Inv table fs F (shownAfter cur call) (exec fs h call) := by
  -- a text is made once, except that of `find_by`; another object changes no field
  cases call with
  | object =>
    obtain ⟨done, more, he⟩ := @construct_eq h fs
    have hfields := construct_of_full hi.full
    have hfull := @construct_full h fs
    dsimp only [exec, shownAfter]
    rw [he] at hfields hfull ⊢
    exact ⟨hi.tableName, hfields.trans hi.fields, hi.findByFields, hi.createSql, hi.saveSql, hi.findBySql,
      hfull⟩
  | create =>
    dsimp only [exec, shownAfter, Helper.create]
    split
    · exact hi
    · refine { hi with createSql := .inr ?_, full := hi.full }
      dsimp only
      rw [hi.tableName, hi.fields]
  | save =>
    dsimp only [exec, shownAfter, Helper.save]
    split
    · exact hi
    · refine { hi with saveSql := .inr ?_, full := hi.full }
      dsimp only
      rw [hi.tableName, hi.fields]
  | findById =>
    dsimp only [exec, shownAfter, Helper.findById]
    split
    · exact hi
    · exact { hi with full := hi.full }
  | findBy field1 field2 field3 field4 field5 =>
    obtain ⟨htext, hstate⟩ := findBy_eq hi field1 field2 field3 field4 field5
    dsimp only [exec]
    rw [hstate]
    refine { hi with findBySql := ?_, full := hi.full }
    exact htext

theorem inv_history (table : String) (fs : List Field) (calls : List Call) :
    Inv table fs (construct (.new table) fs).fields (shown calls) (history table fs calls) := by
  have hrun : ∀ {cur : Option (List Int)} {h : Helper} (calls : List Call),
      Inv table fs (construct (.new table) fs).fields cur h →
        Inv table fs (construct (.new table) fs).fields (calls.foldl shownAfter cur)
          (calls.foldl (exec fs) h) := by
    intro cur h calls
    induction calls generalizing cur h with
    | nil => exact id
    | cons call calls ih =>
      intro hi
      exact ih (inv_exec hi call)
  refine hrun calls ?_
  obtain ⟨done, more, he⟩ := @construct_eq (.new table) fs
  have hfull := @construct_full (.new table) fs
  rw [he] at hfull ⊢
  exact ⟨rfl, rfl, rfl, .inl rfl, .inl rfl, rfl, hfull⟩

/-! ## Placeholders -/

/-- What a selection selects of these: up to the first `-1`, and what is there. -/
def selected {α : Type} (xs : List α) (tmpi : List Int) : List α :=
  (tmpi.takeWhile (· ≠ -1)).filterMap (getAt xs)

theorem getAt_map {α β : Type} (g : α → β) (xs : List α) (i : Int) :
    getAt (xs.map g) i = (getAt xs i).map g := by
  unfold getAt
  split
  · rfl
  · rw [List.getElem?_map]

/-- What is there is not out of range. -/
theorem getAt_range {α : Type} (xs : List α) (i : Int) :
    (if i < xs.length then getAt xs i else none) = getAt xs i := by
  split
  · rfl
  · rename_i h
    unfold getAt
    split
    · rfl
    · rw [List.getElem?_eq_none]
      omega

theorem columns_pieces {i : Nat} : (columns i F).compared = [] ∧ (columns i F).values = 0 := by
  induction F generalizing i with
  | nil => exact ⟨rfl, rfl⟩
  | cons d F ih =>
    obtain ⟨hcompared, hvalues⟩ := @ih (i + 1)
    unfold columns
    split <;> simp [Text.compared, Text.values, hcompared, hvalues]

theorem conditions_pieces {i : Nat} {tmpi : List Int} :
    (conditions F i tmpi).compared = selected (F.map Data.name) tmpi ∧
      (conditions F i tmpi).values = 0 := by
  -- by the selection; the counter says only whether an `AND` comes first
  induction tmpi generalizing i with
  | nil => exact ⟨rfl, rfl⟩
  | cons f tmpi ih =>
    unfold conditions selected
    by_cases hf : f = -1
    · rw [if_pos hf, hf]
      exact ⟨rfl, rfl⟩
    · rw [if_neg hf, getAt_range, List.takeWhile_cons_of_pos (by simpa using hf), List.filterMap_cons,
        getAt_map]
      cases getAt F f with
      | none => exact @ih i
      | some d =>
        obtain ⟨hcompared, hvalues⟩ := @ih (i + 1)
        rw [selected] at hcompared
        dsimp only [Option.map_some]
        rw [← hcompared]
        split <;> simp [Text.compared, Text.values, hvalues]

theorem holders_findByText {tmpi : List Int} :
    (findByText table F tmpi).holders = selected (F.map Data.name) tmpi := by
  obtain ⟨hcompared, hvalues⟩ := @columns_pieces F 0
  obtain ⟨hcompared', hvalues'⟩ := @conditions_pieces F 0 tmpi
  simp [Text.holders, findByText, Text.compared, Text.values, hcompared, hvalues, hcompared', hvalues']

theorem createColumns_pieces {i : Nat} :
    (createColumns i F).names = (if i = 0 then F.tail else F).map Data.name ∧
      (createColumns i F).compared = [] ∧ (createColumns i F).values = 0 := by
  induction F generalizing i with
  | nil =>
    refine ⟨?_, rfl, rfl⟩
    split <;> rfl
  | cons d F ih =>
    obtain ⟨hnames, hcompared, hvalues⟩ := @ih (i + 1)
    rw [if_neg (Nat.succ_ne_zero i)] at hnames
    unfold createColumns
    by_cases h0 : i = 0
    · rw [if_pos h0, if_pos h0]
      exact ⟨hnames, hcompared, hvalues⟩
    · rw [if_neg h0, if_neg h0]
      split <;> simp [Text.names, Text.compared, Text.values, hnames, hcompared, hvalues]

theorem createValues_pieces {j n : Nat} :
    (createValues j n).names = [] ∧ (createValues j n).compared = [] ∧
      (createValues j n).values = n := by
  induction n generalizing j with
  | zero => exact ⟨rfl, rfl, rfl⟩
  | succ n ih =>
    obtain ⟨hnames, hcompared, hvalues⟩ := @ih (j + 1)
    unfold createValues
    split <;> simp [Text.names, Text.compared, Text.values, hnames, hcompared, hvalues]

/-- The placeholders of an `INSERT` belong to the fields but the first. -/
theorem holders_createText : (createText table F).holders = (F.map Data.name).tail := by
  obtain ⟨hnames, hcompared, hvalues⟩ := @createColumns_pieces F 0
  obtain ⟨hnames', hcompared', hvalues'⟩ := @createValues_pieces 1 (F.length - 1)
  simp [Text.holders, createText, Text.names, Text.compared, Text.values, hnames, hcompared, hvalues,
    hnames', hcompared', hvalues']

theorem saveFields_pieces {i : Nat} :
    (saveFields i F).compared = (if i = 0 then F.tail else F).map Data.name ∧
      (saveFields i F).values = 0 := by
  induction F generalizing i with
  | nil =>
    refine ⟨?_, rfl⟩
    split <;> rfl
  | cons d F ih =>
    obtain ⟨hcompared, hvalues⟩ := @ih (i + 1)
    rw [if_neg (Nat.succ_ne_zero i)] at hcompared
    unfold saveFields
    by_cases h0 : i = 0
    · rw [if_pos h0, if_pos h0]
      exact ⟨hcompared, hvalues⟩
    · rw [if_neg h0, if_neg h0]
      split <;> simp [Text.compared, Text.values, hcompared, hvalues]

/-- The fields but the first, and then the first: as the parameters of `save` come. -/
def rotated {α : Type} (xs : List α) : List α := xs.tail ++ xs.head?.toList

theorem holders_saveText : (saveText table F).holders = rotated (F.map Data.name) := by
  obtain ⟨hcompared, hvalues⟩ := @saveFields_pieces F 0
  cases F with
  | nil => rfl
  | cons d F =>
    simp [Text.holders, saveText, Text.compared, Text.values, hcompared, hvalues, rotated]

@[simp] theorem render_append (t u : Text) : Text.render (t ++ u) = t.render ++ u.render := by
  induction t with
  | nil => simp [Text.render]
  | cons p t ih => simp [Text.render, ih, String.append_assoc]

/-- A placeholder can be seen. -/
theorem length_render_pos {t : Text} (h : t.compared ≠ []) : 0 < t.render.length := by
  induction t with
  | nil => exact absurd rfl h
  | cons p t ih =>
    rw [Text.render, String.length_append]
    cases p with
    | compare name =>
      have hpos : 0 < "=?".length := by decide
      rw [Piece.render, String.length_append]
      omega
    | text | column | value => exact Nat.lt_add_left _ (ih h)

theorem conditions_nil {i : Nat} {tmpi : List Int} (h : selected F tmpi = []) :
    conditions F i tmpi = [] := by
  induction tmpi with
  | nil => rfl
  | cons f tmpi ih =>
    unfold conditions
    by_cases hf : f = -1
    · rw [if_pos hf]
    · unfold selected at h ih
      rw [List.takeWhile_cons_of_pos (by simpa using hf), List.filterMap_cons] at h
      rw [if_neg hf, getAt_range]
      cases hget : getAt F f with
      | none =>
        rw [hget] at h
        exact ih h
      | some d =>
        rw [hget] at h
        cases h

theorem selected_map {α β : Type} (g : α → β) (xs : List α) (tmpi : List Int) :
    selected (xs.map g) tmpi = (selected xs tmpi).map g := by
  unfold selected
  rw [List.map_filterMap]
  congr 1
  funext i
  exact getAt_map g xs i

/-- The text for no selection is the text for one that selects nothing. -/
theorem render_findByText_iff {p : List Int} :
    (findByText table F p).render = (findByText table F findByFieldsInitializer).render ↔
      selected (F.map Data.name) p = [] := by
  have hnone : conditions F 0 findByFieldsInitializer = [] := rfl
  unfold findByText
  rw [hnone]
  constructor
  · intro h
    by_contra hne
    have hpos := length_render_pos (t := conditions F 0 p) (by rw [conditions_pieces.1]; exact hne)
    have hlen := congrArg String.length h
    simp only [render_append, String.length_append, Text.render, String.length_empty] at hlen
    omega
  · intro h
    rw [selected_map, List.map_eq_nil_iff] at h
    rw [conditions_nil h]

/-! ## Parameters -/

variable {α β : Type} {useExc : Bool} {params r : List (Option α)} {vars : List α} {p : α} {pos : Nat}

/-- A parameter at its place, and the others as they were. -/
theorem getD_setParam (hpos : pos ≤ 2000) :
    ∃ r, setParam useExc params pos p = some r ∧ r.length = max params.length (pos + 1) ∧
      ∀ m, r.getD m none = if m = pos then some p else params.getD m none := by
  refine ⟨_, if_neg (Nat.not_lt_of_le hpos), ?_, ?_⟩
  · rw [List.length_set, List.length_append, List.length_replicate]
    omega
  · intro m
    simp only [List.getD_eq_getElem?_getD, List.getElem?_set, List.length_append,
      List.length_replicate, List.getElem?_append, List.getElem?_replicate]
    by_cases hm : m = pos
    · subst hm
      rw [if_pos rfl, if_pos (by omega), if_pos rfl]
      rfl
    · rw [if_neg (Ne.symm hm), if_neg hm]
      split
      · rfl
      · rename_i hlen
        rw [List.getElem?_eq_none (Nat.le_of_not_lt hlen)]
        split <;> rfl

/-- The next parameter, wherever that is. -/
theorem getD_setParam_next (hlen : params.length = pos ∨ pos ≤ 1 ∧ params = [])
    (h : setParam useExc params pos p = some r) :
    r.length = pos + 1 ∧ ∀ m, r.getD m none = if m = pos then some p else params.getD m none := by
  by_cases hpos : pos ≤ 2000
  · obtain ⟨r', hr, hlength, hget⟩ := @getD_setParam α useExc params p pos hpos
    rw [h] at hr
    cases hr
    refine ⟨?_, hget⟩
    rcases hlen with he | ⟨-, rfl⟩
    · rw [hlength, he]
      omega
    · rw [hlength]
      exact Nat.max_eq_right (Nat.zero_le _)
  · have he : params.length = pos := hlen.resolve_right (fun hsmall => hpos (by omega))
    rw [setParam, if_pos (Nat.lt_of_not_le hpos)] at h
    -- beyond the limit it goes to the end, which is where it belongs when there are no gaps
    cases useExc with
    | true => cases h
    | false =>
      cases h
      refine ⟨by simp [he], ?_⟩
      intro m
      rw [List.getD_eq_getElem?_getD, List.getD_eq_getElem?_getD, List.getElem?_append]
      split
      · rename_i hlt
        rw [if_neg (by omega)]
      · rename_i hge
        rw [List.getElem?_eq_none (Nat.le_of_not_lt hge)]
        by_cases hm : m = pos
        · rw [if_pos hm, hm, he, Nat.sub_self]
          rfl
        · rw [if_neg hm, List.getElem?_eq_none]
          rw [List.length_singleton]
          omega

/-- From the place `i` on. -/
theorem getElem?_cons_sub {x : α} {xs : List α} {m i : Nat} (h : i ≤ m) :
    (x :: xs)[m - i]? = if m = i then some x else xs[m - (i + 1)]? := by
  by_cases hm : m = i
  · rw [if_pos hm, hm, Nat.sub_self, List.getElem?_cons_zero]
  · rw [if_neg hm, show m - i = (m - (i + 1)) + 1 by omega, List.getElem?_cons_succ]

/-- One turn of the loop: the parameter at its place is what the index stands for, if it does. -/
theorem findByParams_cons {i : Int} {tmpi : List Int} {j : Nat} (hi : i ≠ -1) (hj : j + 1 ≤ 2000)
    (hlen : params.length ≤ j + 1) :
    ∃ r, findByParams useExc vars j (i :: tmpi) params = findByParams useExc vars (j + 1) tmpi r ∧
      r.length ≤ j + 2 ∧
      ∀ m, r.getD m none = if m = j + 1 then getAt vars i else params.getD m none := by
  rw [findByParams, if_neg hi]
  cases hd : getAt vars i with
  | none =>
    refine ⟨params, rfl, Nat.le_succ_of_le hlen, ?_⟩
    intro m
    split
    · rename_i hm
      rw [hm, List.getD_eq_default _ _ hlen]
    · rfl
  | some d =>
    obtain ⟨r, hset, hlength, hget⟩ := @getD_setParam α useExc params d (j + 1) hj
    refine ⟨r, ?_, ?_, hget⟩
    · dsimp only
      rw [hset]
      rfl
    · rw [hlength]
      exact Nat.max_le.mpr ⟨Nat.le_succ_of_le hlen, Nat.le_refl _⟩

/-- **What `find_by` binds**: each parameter what its index in the selection stands for. -/
theorem findByParams_spec {tmpi : List Int} {j : Nat} (hj : j + tmpi.length ≤ 2000)
    (hlen : params.length ≤ j + 1) :
    ∃ r, findByParams useExc vars j tmpi params = some r ∧
      ∀ m, r.getD m none =
        if m ≤ j then params.getD m none
        else ((tmpi.takeWhile (· ≠ -1))[m - (j + 1)]?).bind (getAt vars) := by
  induction tmpi generalizing j params with
  | nil =>
    refine ⟨params, rfl, ?_⟩
    intro m
    split
    · rfl
    · exact List.getD_eq_default _ _ (by omega)
  | cons i tmpi ih =>
    rw [List.length_cons] at hj
    by_cases hi : i = -1
    · refine ⟨params, by rw [findByParams, if_pos hi], ?_⟩
      intro m
      rw [hi]
      split
      · rfl
      · exact List.getD_eq_default _ _ (by omega)
    · obtain ⟨r₁, hturn, hlen₁, hget₁⟩ :=
        @findByParams_cons α useExc params vars i tmpi j hi (by omega) hlen
      obtain ⟨r, hr, hget⟩ := @ih r₁ (j + 1) (by omega) hlen₁
      refine ⟨r, hturn.trans hr, ?_⟩
      intro m
      rw [hget, hget₁, List.takeWhile_cons_of_pos (by simpa using hi)]
      by_cases hm : m ≤ j
      · rw [if_pos hm, if_pos (Nat.le_succ_of_le hm), if_neg (by omega)]
      · rw [if_neg hm, getElem?_cons_sub (by omega)]
        by_cases hnext : m = j + 1
        · rw [if_pos (Nat.le_of_eq hnext), if_pos hnext, if_pos hnext, Option.bind_some]
        · rw [if_neg (by omega), if_neg hnext]

theorem setParams_spec {vs : List α} {i n : Nat} (hlen : params.length = i ∨ i ≤ 1 ∧ params = [])
    (h : VarHelper.setParams useExc i vs params = some (r, n)) :
    n = i + vs.length ∧ (r.length = n ∨ n ≤ 1 ∧ r = []) ∧
      ∀ m, r.getD m none =
        if m < i then params.getD m none else if m = 0 then none else vs[m - i]? := by
  -- by the variables; the first one is left out, as its place is 0
  induction vs generalizing i params with
  | nil =>
    cases h
    refine ⟨rfl, hlen, ?_⟩
    intro m
    split
    · rfl
    · have hnone : r.getD m none = none := by
        rcases hlen with he | ⟨-, rfl⟩
        · exact List.getD_eq_default _ _ (by omega)
        · rfl
      rw [hnone]
      split <;> rfl
  | cons v vs ih =>
    rw [VarHelper.setParams] at h
    by_cases h0 : 0 < i
    · rw [if_pos h0] at h
      obtain ⟨r₁, hset, hrest⟩ := Option.bind_eq_some_iff.mp h
      obtain ⟨hlen₁, hget₁⟩ := getD_setParam_next hlen hset
      obtain ⟨hn, hlenr, hget⟩ := ih (.inl hlen₁) hrest
      refine ⟨by rw [hn, List.length_cons]; omega, hlenr, ?_⟩
      intro m
      rw [hget, hget₁]
      by_cases hm : m < i
      · rw [if_pos (Nat.lt_succ_of_lt hm), if_neg (Nat.ne_of_lt hm), if_pos hm]
      · have hm0 : m ≠ 0 := by omega
        rw [if_neg hm, if_neg hm0, if_neg hm0, getElem?_cons_sub (Nat.le_of_not_lt hm)]
        by_cases heq : m = i
        · rw [if_pos (by omega), if_pos heq, if_pos heq]
        · rw [if_neg (by omega), if_neg heq]
    · -- the first variable of all is left out
      have hi : i = 0 := Nat.eq_zero_of_not_pos h0
      subst hi
      rw [if_neg h0] at h
      have hnil : params = [] := by
        rcases hlen with he | ⟨-, rfl⟩
        · exact List.eq_nil_of_length_eq_zero he
        · rfl
      obtain ⟨hn, hlenr, hget⟩ := ih (.inr ⟨Nat.le_refl _, hnil⟩) h
      refine ⟨by rw [hn, List.length_cons]; omega, hlenr, ?_⟩
      intro m
      rw [hget, hnil, if_neg (Nat.not_lt_zero _)]
      by_cases hm : m = 0
      · rw [if_pos (by omega), if_pos hm]
        rfl
      · rw [if_neg (by omega), if_neg hm, if_neg hm, getElem?_cons_sub (Nat.zero_le _), if_neg hm]

/-- **What `create` binds**: the variables but the first. -/
theorem createParams_spec (h : createParams useExc vars = some r) (i : Nat) :
    r.getD (i + 1) none = vars.tail[i]? := by
  obtain ⟨⟨r', n⟩, hset, rfl⟩ := Option.map_eq_some_iff.mp h
  obtain ⟨-, -, hget⟩ := setParams_spec (.inl List.length_nil) hset
  rw [hget, if_neg (Nat.not_lt_zero _), if_neg (Nat.succ_ne_zero _), List.getElem?_tail]
  rfl

/-- **What `save` binds**: the variables but the first, and the first. -/
theorem saveParams_spec (h : saveParams useExc vars = some r) (i : Nat) :
    r.getD (i + 1) none = (rotated vars)[i]? := by
  obtain ⟨⟨r', n⟩, hset, hid⟩ := Option.bind_eq_some_iff.mp h
  obtain ⟨v, hhead, hid⟩ := Option.bind_eq_some_iff.mp hid
  obtain ⟨hn, hlen, hget⟩ := setParams_spec (.inl List.length_nil) hset
  obtain ⟨-, hget'⟩ := getD_setParam_next hlen hid
  rw [hget', hget]
  cases vars with
  | nil => cases hhead
  | cons v vs =>
    cases hhead
    rw [List.length_cons] at hn
    rw [rotated, List.tail_cons, List.head?_cons, Option.toList_some, List.getElem?_append]
    by_cases hi : i + 1 = n
    · rw [if_pos hi, if_neg (by omega), show i - vs.length = 0 by omega]
      rfl
    · rw [if_neg hi, if_neg (Nat.not_lt_zero _), if_neg (Nat.succ_ne_zero _)]
      split
      · rfl
      · rw [List.getElem?_eq_none (by rw [List.length_cons]; omega),
          List.getElem?_eq_none (by rw [List.length_singleton]; omega)]

/-! The functions that bind do not look at what they bind. -/

theorem setParam_map (g : α → β) :
    setParam useExc (params.map (Option.map g)) pos (g p) =
      (setParam useExc params pos p).map (List.map (Option.map g)) := by
  unfold setParam
  split
  · split
    · rfl
    · simp
  · simp [List.map_set]

theorem findByParams_map (g : α → β) (tmpi : List Int) {j : Nat} :
    findByParams useExc (vars.map g) j tmpi (params.map (Option.map g)) =
      (findByParams useExc vars j tmpi params).map (List.map (Option.map g)) := by
  induction tmpi generalizing j params with
  | nil => rfl
  | cons i tmpi ih =>
    rw [findByParams, findByParams]
    split
    · rfl
    · rw [getAt_map]
      cases getAt vars i with
      | none => exact ih
      | some d =>
        dsimp only [Option.map_some]
        rw [setParam_map]
        cases setParam useExc params (j + 1) d with
        | none => rfl
        | some r => exact ih

theorem setParams_map (g : α → β) {i : Nat} :
    VarHelper.setParams useExc i (vars.map g) (params.map (Option.map g)) =
      (VarHelper.setParams useExc i vars params).map (Prod.map (List.map (Option.map g)) id) := by
  induction vars generalizing i params with
  | nil => rfl
  | cons v vars ih =>
    rw [List.map_cons, VarHelper.setParams, VarHelper.setParams]
    split
    · rw [setParam_map]
      cases setParam useExc params i v with
      | none => rfl
      | some r => exact ih
    · exact ih

theorem createParams_map (g : α → β) :
    createParams useExc (vars.map g) = (createParams useExc vars).map (List.map (Option.map g)) := by
  have h := @setParams_map α β useExc [] vars g 0
  rw [List.map_nil] at h
  rw [createParams, createParams, h, Option.map_map, Option.map_map]
  rfl

theorem saveParams_map (g : α → β) :
    saveParams useExc (vars.map g) = (saveParams useExc vars).map (List.map (Option.map g)) := by
  have h := @setParams_map α β useExc [] vars g 0
  rw [List.map_nil] at h
  rw [saveParams, saveParams, h]
  cases VarHelper.setParams useExc 0 vars [] with
  | none => rfl
  | some r =>
    cases vars with
    | nil => rfl
    | cons v vars => exact setParam_map g

/-- There is an exception for a parameter beyond the 2000th, if exceptions are used. -/
theorem setParam_eq_none_iff : setParam useExc params pos p = none ↔ useExc = true ∧ 2000 < pos := by
  unfold setParam
  split
  · rename_i h
    cases useExc <;> simp [h]
  · rename_i h
    simp [h]

theorem setParams_eq_none_iff {vs : List α} {i : Nat} :
    VarHelper.setParams useExc i vs params = none ↔ useExc = true ∧ vs ≠ [] ∧ 2001 < i + vs.length := by
  induction vs generalizing i params with
  | nil => simp [VarHelper.setParams]
  | cons v vs ih =>
    have hvs : vs = [] ↔ vs.length = 0 := List.length_eq_zero_iff.symm
    rw [VarHelper.setParams, List.length_cons]
    by_cases h0 : 0 < i
    · rw [if_pos h0]
      cases hset : setParam useExc params i v with
      | none =>
        obtain ⟨hexc, hpos⟩ := setParam_eq_none_iff.mp hset
        exact iff_of_true rfl ⟨hexc, List.cons_ne_nil _ _, by omega⟩
      | some r =>
        have hnot := mt setParam_eq_none_iff.mpr (by rw [hset]; exact Option.some_ne_none r)
        rw [Option.bind_some, ih]
        constructor
        · intro ⟨hexc, _, hlen⟩
          exact ⟨hexc, List.cons_ne_nil _ _, by omega⟩
        · intro ⟨hexc, _, hlen⟩
          have hle : ¬ 2000 < i := fun hlt => hnot ⟨hexc, hlt⟩
          refine ⟨hexc, ?_, by omega⟩
          rw [ne_eq, hvs]
          omega
    · rw [if_neg h0, ih]
      constructor
      · intro ⟨hexc, _, hlen⟩
        exact ⟨hexc, List.cons_ne_nil _ _, by omega⟩
      · intro ⟨hexc, _, hlen⟩
        refine ⟨hexc, ?_, by omega⟩
        rw [ne_eq, hvs]
        omega

theorem createParams_eq_none_iff :
    createParams useExc vars = none ↔ useExc = true ∧ 2001 < vars.length := by
  rw [createParams, Option.map_eq_none_iff, setParams_eq_none_iff, Nat.zero_add]
  constructor
  · intro ⟨hexc, _, hlen⟩
    exact ⟨hexc, hlen⟩
  · intro ⟨hexc, hlen⟩
    refine ⟨hexc, ?_, hlen⟩
    intro hnil
    rw [hnil] at hlen
    cases hlen

theorem saveParams_eq_none_iff :
    saveParams useExc vars = none ↔ vars = [] ∨ useExc = true ∧ 2000 < vars.length := by
  rw [saveParams]
  cases hset : VarHelper.setParams useExc 0 vars [] with
  | none =>
    obtain ⟨hexc, -, hlen⟩ := setParams_eq_none_iff.mp hset
    exact iff_of_true rfl (.inr ⟨hexc, by omega⟩)
  | some r =>
    obtain ⟨r, n⟩ := r
    obtain ⟨hn, -, -⟩ := setParams_spec (.inl List.length_nil) hset
    cases vars with
    | nil => exact iff_of_true rfl (.inl rfl)
    | cons v vars =>
      rw [Option.bind_some, List.head?_cons, Option.bind_some, setParam_eq_none_iff, hn, Nat.zero_add]
      simp

/-! ## Texts and parameters -/

/-- Every placeholder belongs to the field whose value is the parameter at its place. -/
def Lined (bound : List (Option (String × Var))) (t : Text) : Prop :=
  ∀ i n, t.holders[i]? = some n → ∃ v, bound.getD (i + 1) none = some (n, v)

/-- `find_by`: the text is the selection's, whatever was called before, and its placeholders
    belong to what is bound. -/
def FindByRight (useExc : Bool) (fs : List Field) (h : Helper)
    (field1 field2 field3 field4 field5 : Int) : Prop :=
  let tmpi := [field1, field2, field3, field4, field5]
  let t := (h.findBy field1 field2 field3 field4 field5).2
  t.render = (findByText h.tableName h.fields tmpi).render ∧
    ∃ bound, findByParams useExc (dtalst fs) 0 tmpi [] = some bound ∧
      findByParams useExc (fs.map Field.var) 0 tmpi [] = some (bound.map (Option.map Prod.snd)) ∧
      Lined bound t

/-- `create`, if it gets to the query. -/
def CreateRight (useExc : Bool) (fs : List Field) (h : Helper) : Prop :=
  ∀ bound, createParams useExc (dtalst fs) = some bound →
    createParams useExc (fs.map Field.var) = some (bound.map (Option.map Prod.snd)) ∧
      Lined bound h.create.2

/-- `save`, if it gets to the query. -/
def SaveRight (useExc : Bool) (fs : List Field) (h : Helper) : Prop :=
  ∀ bound, saveParams useExc (dtalst fs) = some bound →
    saveParams useExc (fs.map Field.var) = some (bound.map (Option.map Prod.snd)) ∧
      Lined bound h.save.2

/-- The names that `sql::helper` has accepted. -/
def accepted (table : String) (fs : List Field) : List String :=
  (construct (.new table) fs).fields.map Data.name

/-- The names of all variables. -/
def registered (fs : List Field) : List String := fs.map fun f => f.name.getD ""

theorem map_fst_dtalst : (dtalst fs).map Prod.fst = registered fs := by
  rw [dtalst, List.map_map]
  rfl

theorem map_snd_dtalst : (dtalst fs).map Prod.snd = fs.map Field.var := by
  rw [dtalst, List.map_map]
  rfl

theorem prefix_iff {l₁ l₂ : List α} :
    l₁ <+: l₂ ↔ ∀ (i : Nat) (x : α), l₁[i]? = some x → l₂[i]? = some x := by
  rw [List.prefix_iff_getElem?]
  constructor
  · intro h i x hx
    obtain ⟨hi, rfl⟩ := List.getElem?_eq_some_iff.mp hx
    exact h i hi
  · intro h i hi
    exact h i _ (List.getElem?_eq_getElem hi)

/-- The parameters are these, from the first on. -/
theorem lined_iff {bound : List (Option (String × Var))} {xs : List (String × Var)} {t : Text}
    (h : ∀ i, bound.getD (i + 1) none = xs[i]?) : Lined bound t ↔ t.holders <+: xs.map Prod.fst := by
  rw [prefix_iff]
  unfold Lined
  simp only [h, List.getElem?_map, Option.map_eq_some_iff, Prod.exists]
  refine forall_congr' fun i => forall_congr' fun n => imp_congr_right fun _ => ?_
  constructor
  · intro ⟨v, hv⟩
    exact ⟨n, v, hv, rfl⟩
  · rintro ⟨_, v, hv, rfl⟩
    exact ⟨v, hv⟩

/-- The parameters are these where there are any. -/
theorem lined_some_iff {bound : List (Option (String × Var))} {xs : List (Option (String × Var))}
    {t : Text} (h : ∀ i, bound.getD (i + 1) none = (xs[i]?).join) :
    Lined bound t ↔ t.holders.map some <+: xs.map (Option.map Prod.fst) := by
  rw [prefix_iff]
  unfold Lined
  simp only [h, List.getElem?_map, Option.map_eq_some_iff, Option.join_eq_some_iff]
  constructor
  · rintro hall i _ ⟨n, hn, rfl⟩
    obtain ⟨v, hv⟩ := hall i n hn
    exact ⟨_, hv, rfl⟩
  · intro hall i n hn
    obtain ⟨x, hx, hname⟩ := hall i (some n) ⟨n, hn, rfl⟩
    obtain ⟨⟨_, v⟩, rfl, rfl⟩ := Option.map_eq_some_iff.mp hname
    exact ⟨v, hx⟩

variable {calls : List Call}

/-- What `find_by` binds, and which texts are lined up with it. -/
theorem findByBound (fs : List Field) (useExc : Bool) {tmpi : List Int} (hlen : tmpi.length ≤ 2000) :
    ∃ bound, findByParams useExc (dtalst fs) 0 tmpi [] = some bound ∧
      findByParams useExc (fs.map Field.var) 0 tmpi [] = some (bound.map (Option.map Prod.snd)) ∧
      ∀ t : Text, Lined bound t ↔
        t.holders.map some <+: (tmpi.takeWhile (· ≠ -1)).map (getAt (registered fs)) := by
  obtain ⟨bound, hbound, hget⟩ := @findByParams_spec _ useExc [] (dtalst fs) tmpi 0
    (by rw [Nat.zero_add]; exact hlen) (Nat.zero_le _)
  refine ⟨bound, hbound, ?_, ?_⟩
  · have hmap := @findByParams_map _ _ useExc [] (dtalst fs) Prod.snd tmpi 0
    rwa [List.map_nil, hbound, map_snd_dtalst] at hmap
  · intro t
    have hnames : (tmpi.takeWhile (· ≠ -1)).map (getAt (registered fs)) =
        ((tmpi.takeWhile (· ≠ -1)).map (getAt (dtalst fs))).map (Option.map Prod.fst) := by
      rw [List.map_map, ← map_fst_dtalst]
      exact List.map_congr_left fun i _ => getAt_map _ _ _
    rw [hnames]
    refine lined_some_iff fun i => ?_
    rw [hget, if_neg (Nat.not_succ_le_zero i), List.getElem?_map, Nat.zero_add, Nat.add_sub_cancel]
    cases (tmpi.takeWhile (· ≠ -1))[i]? <;> rfl

theorem findByRight_iff_lined {field1 field2 field3 field4 field5 : Int} :
    FindByRight useExc fs h field1 field2 field3 field4 field5 ↔
      (h.findBy field1 field2 field3 field4 field5).2.render =
          (findByText h.tableName h.fields [field1, field2, field3, field4, field5]).render ∧
        (h.findBy field1 field2 field3 field4 field5).2.holders.map some <+:
          (([field1, field2, field3, field4, field5] : List Int).takeWhile (· ≠ -1)).map
            (getAt (registered fs)) := by
  obtain ⟨bound, hbound, hvalues, hlined⟩ := @findByBound fs useExc
    [field1, field2, field3, field4, field5] (by simp)
  unfold FindByRight
  refine and_congr_right fun _ => ?_
  rw [← hlined]
  constructor
  · rintro ⟨b, hb, -, hl⟩
    rw [hbound] at hb
    cases hb
    exact hl
  · intro hl
    exact ⟨bound, hbound, hvalues, hl⟩

/-- The text of a selection is that of another if there is only one, or if what they select is
    nothing anyway. -/
theorem findByRight_iff (table : String) (fs : List Field) (useExc : Bool) (calls : List Call)
    (field1 field2 field3 field4 field5 : Int) :
    FindByRight useExc fs (history table fs calls) field1 field2 field3 field4 field5 ↔
      ([field1, field2, field3, field4, field5] = findByFieldsInitializer →
        ∀ p, shown calls = some p → selected (accepted table fs) p = []) ∧
      (selected (accepted table fs) [field1, field2, field3, field4, field5]).map some <+:
        (([field1, field2, field3, field4, field5] : List Int).takeWhile (· ≠ -1)).map
          (getAt (registered fs)) := by
  have hi := inv_history table fs calls
  have htext := (findBy_eq hi field1 field2 field3 field4 field5).1
  dsimp only [shownAfter] at htext
  rw [Option.getD_some] at htext
  rw [findByRight_iff_lined, htext, hi.tableName, hi.fields]
  generalize [field1, field2, field3, field4, field5] = tmpi
  by_cases hnone : tmpi = findByFieldsInitializer
  · rw [if_pos hnone]
    subst hnone
    -- the selection that is taken for the cached one, whatever the text is for
    cases hshown : shown calls with
    | none => simp [holders_findByText, accepted]
    | some p =>
      rw [Option.getD_some, render_findByText_iff, holders_findByText]
      constructor
      · intro ⟨hp, _⟩
        refine ⟨fun _ p' hp' => ?_, List.nil_prefix⟩
        cases hp'
        exact hp
      · intro ⟨hp, _⟩
        have hp := hp rfl p rfl
        refine ⟨hp, ?_⟩
        rw [accepted] at hp
        rw [hp]
        exact List.nil_prefix
  · rw [if_neg hnone, holders_findByText]
    simp [hnone, accepted]

theorem createRight_iff (table : String) (fs : List Field) (useExc : Bool) (calls : List Call) :
    CreateRight useExc fs (history table fs calls) ↔
      (useExc = true ∧ 2001 < fs.length) ∨ (accepted table fs).tail <+: (registered fs).tail := by
  have hi := inv_history table fs calls
  have htext : (history table fs calls).create.2 =
      createText table (construct (.new table) fs).fields := by
    unfold Helper.create
    split
    · rename_i hne
      exact hi.createSql.resolve_left hne
    · dsimp only
      rw [hi.tableName, hi.fields]
  have hlength : (dtalst fs).length = fs.length := List.length_map ..
  have hnames : (registered fs).tail = (dtalst fs).tail.map Prod.fst := by
    rw [List.map_tail, map_fst_dtalst]
  unfold CreateRight
  rw [htext, ← hlength, ← @createParams_eq_none_iff _ useExc, hnames, accepted,
    ← @holders_createText table]
  cases hbound : createParams useExc (dtalst fs) with
  | none => simp
  | some bound =>
    have hmap := @createParams_map _ _ useExc (dtalst fs) Prod.snd
    rw [hbound, map_snd_dtalst] at hmap
    have hlined := @lined_iff bound (dtalst fs).tail
      (createText table (construct (.new table) fs).fields) (createParams_spec hbound)
    simp [hmap, hlined]

theorem saveRight_iff (table : String) (fs : List Field) (useExc : Bool) (calls : List Call) :
    SaveRight useExc fs (history table fs calls) ↔
      (useExc = true ∧ 2000 < fs.length) ∨
        rotated (accepted table fs) <+: rotated (registered fs) := by
  have hi := inv_history table fs calls
  have htext : (history table fs calls).save.2 =
      saveText table (construct (.new table) fs).fields := by
    unfold Helper.save
    split
    · rename_i hne
      exact hi.saveSql.resolve_left hne
    · dsimp only
      rw [hi.tableName, hi.fields]
  have hlength : (dtalst fs).length = fs.length := List.length_map ..
  have hnames : rotated (registered fs) = (rotated (dtalst fs)).map Prod.fst := by
    rw [← map_fst_dtalst]
    cases dtalst fs <;> simp [rotated]
  unfold SaveRight
  rw [htext, hnames, accepted, ← @holders_saveText table]
  cases hbound : saveParams useExc (dtalst fs) with
  | none =>
    -- it does not get to the query
    rcases saveParams_eq_none_iff.mp hbound with hnil | hthrown
    · have hfs : fs = [] := List.map_eq_nil_iff.mp hnil
      subst hfs
      exact iff_of_true (fun _ h => by cases h) (.inr List.nil_prefix)
    · rw [hlength] at hthrown
      exact iff_of_true (fun _ h => by cases h) (.inl hthrown)
  | some bound =>
    have hmap := @saveParams_map _ _ useExc (dtalst fs) Prod.snd
    rw [hbound, map_snd_dtalst] at hmap
    have hlined := @lined_iff bound (rotated (dtalst fs))
      (saveText table (construct (.new table) fs).fields) (saveParams_spec hbound)
    have hnot : ¬ (useExc = true ∧ 2000 < fs.length) := by
      intro hthrown
      rw [← hlength] at hthrown
      rw [saveParams_eq_none_iff.mpr (.inr hthrown)] at hbound
      cases hbound
    simp [hmap, hlined, hnot]

/-- **Texts and parameters meet** in `find_by` if and only if the selection is not `-1` throughout
    after one that selected something, and the names that it selects in the list of `sql::helper`
    are those that its first indices have in the object's; in `create` and `save`, if and only if
    the names that `sql::helper` has are the object's first ones, or so many parameters are set
    that it throws. -/
theorem lined_up_iff (table : String) (fs : List Field) (useExc : Bool) (calls : List Call) :
    (∀ field1 field2 field3 field4 field5 : Int,
      FindByRight useExc fs (history table fs calls) field1 field2 field3 field4 field5 ↔
        ([field1, field2, field3, field4, field5] = findByFieldsInitializer →
          ∀ p, shown calls = some p → selected (accepted table fs) p = []) ∧
        (selected (accepted table fs) [field1, field2, field3, field4, field5]).map some <+:
          (([field1, field2, field3, field4, field5] : List Int).takeWhile (· ≠ -1)).map
            (getAt (registered fs))) ∧
    (CreateRight useExc fs (history table fs calls) ↔
      (useExc = true ∧ 2001 < fs.length) ∨ (accepted table fs).tail <+: (registered fs).tail) ∧
    (SaveRight useExc fs (history table fs calls) ↔
      (useExc = true ∧ 2000 < fs.length) ∨
        rotated (accepted table fs) <+: rotated (registered fs)) :=
  ⟨findByRight_iff table fs useExc calls, createRight_iff table fs useExc calls,
    saveRight_iff table fs useExc calls⟩

/-- An id and a name. -/
def sampleFields : List Field :=
  [⟨some "id", some "INTEGER", "PRIMARY KEY", .int64 1⟩, ⟨some "name", some "TEXT", "", .ustr [0]⟩]

/-- No selection after the name; and an index that there is none for, before the name. -/
theorem lined_up_fails :
    ¬ FindByRight true sampleFields (history "t" sampleFields [.findBy 1 (-1) (-1) (-1) (-1)])
        (-1) (-1) (-1) (-1) (-1) ∧
      ¬ FindByRight true sampleFields (history "t" sampleFields []) 7 1 (-1) (-1) (-1) := by
  constructor
  · intro h
    have hstale := ((findByRight_iff _ _ _ _ _ _ _ _ _).mp h).1 rfl _ rfl
    revert hstale
    decide
  · intro h
    have hplace := ((findByRight_iff _ _ _ _ _ _ _ _ _).mp h).2
    revert hplace
    decide

/-! ## When all variables are accepted -/

theorem construct_fields {h : Helper} (hd : h.done = false)
    (hvalid : ∀ f ∈ fs, f.name.getD "" ≠ "" ∧ f.coltype.getD "" ≠ "")
    (hnew : (h.fields.map Data.name ++ registered fs).Nodup) :
    (construct h fs).fields.map Data.name = h.fields.map Data.name ++ registered fs := by
  induction fs generalizing h with
  | nil => exact (List.append_nil _).symm
  | cons f fs ih =>
    obtain ⟨hf, hrest⟩ := List.forall_mem_cons.mp hvalid
    have hout : f.name.getD "" ∉ h.fields.map Data.name := by
      intro hin
      exact (List.nodup_append.mp hnew).2.2 _ hin _ List.mem_cons_self rfl
    have hadd : (h.addField f.name f.coltype f.flags).1 = { h with
        fields := h.fields ++ [Data.mk (f.name.getD "") (f.coltype.getD "") f.flags] } := by
      unfold Helper.addField
      rw [if_neg (by simp [hd, hf]), if_neg hout]
    have happ : (h.fields ++ [Data.mk (f.name.getD "") (f.coltype.getD "") f.flags]).map Data.name ++
        registered fs = h.fields.map Data.name ++ registered (f :: fs) := by
      simp [registered]
    rw [construct, hadd]
    rw [← happ] at hnew ⊢
    exact ih hd hrest hnew

theorem accepted_eq (hvalid : ∀ f ∈ fs, f.name.getD "" ≠ "" ∧ f.coltype.getD "" ≠ "")
    (hdistinct : (registered fs).Nodup) : accepted table fs = registered fs :=
  construct_fields rfl hvalid hdistinct

/-- What is there is the first part of a list exactly if nothing that is there comes after
    something that is not. -/
theorem filterMap_prefix_iff (g : α → Option β) {l : List α} :
    (l.filterMap g).map some <+: l.map g ↔ l.Pairwise fun a b => (g b).isSome → (g a).isSome := by
  induction l with
  | nil => simp
  | cons a l ih =>
    rw [List.pairwise_cons, List.map_cons, List.filterMap_cons]
    cases ha : g a with
    | some x => simp [ih]
    | none =>
      -- the first one is missing, so none may come after it
      have hall : (∀ b ∈ l, (g b).isSome → (none : Option β).isSome) ↔ l.filterMap g = [] := by
        rw [List.filterMap_eq_nil_iff]
        simp
      rw [hall]
      constructor
      · intro hpre
        have hnil : l.filterMap g = [] := by
          cases hl : l.filterMap g with
          | nil => rfl
          | cons y ys =>
            dsimp only at hpre
            rw [hl, List.map_cons, List.cons_prefix_cons] at hpre
            cases hpre.1
        refine ⟨hnil, ih.mp ?_⟩
        rw [hnil]
        exact List.nil_prefix
      · intro hnil
        dsimp only
        rw [hnil.1]
        exact List.nil_prefix

/-- **A class whose variables have names of their own**: `create` and `save` are right, and
    `find_by` is when no index in range comes after one that is out of it. -/
theorem lined_up_of_distinct (useExc : Bool) (calls : List Call)
    (hvalid : ∀ f ∈ fs, f.name.getD "" ≠ "" ∧ f.coltype.getD "" ≠ "")
    (hdistinct : (registered fs).Nodup) :
    (∀ field1 field2 field3 field4 field5 : Int,
      FindByRight useExc fs (history table fs calls) field1 field2 field3 field4 field5 ↔
        ([field1, field2, field3, field4, field5] = findByFieldsInitializer →
          ∀ p, shown calls = some p → selected (registered fs) p = []) ∧
        (([field1, field2, field3, field4, field5] : List Int).takeWhile (· ≠ -1)).Pairwise fun a b =>
          (getAt (registered fs) b).isSome → (getAt (registered fs) a).isSome) ∧
    CreateRight useExc fs (history table fs calls) ∧ SaveRight useExc fs (history table fs calls) := by
  have heq : accepted table fs = registered fs := accepted_eq hvalid hdistinct
  refine ⟨?_, ?_, ?_⟩
  · intro field1 field2 field3 field4 field5
    rw [findByRight_iff, heq, selected, filterMap_prefix_iff]
  · rw [createRight_iff, heq]
    exact .inr (List.prefix_refl _)
  · rw [saveRight_iff, heq]
    exact .inr (List.prefix_refl _)

end Slt3.Query.SqlHelper

end CodeSLoop
