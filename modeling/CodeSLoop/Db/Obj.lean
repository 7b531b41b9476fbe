import Mathlib.Algebra.Order.Ring.Int
import Mathlib.Data.List.Forall2
import Mathlib.Data.List.TakeWhile

/-!
# Objects in the database (`db/slt3/var.cc`, `db/slt3/_shared_impl.cc`)

An object is a list of variables, the first of which is its id. `create` copies the others to
parameters, binds these by their types, and inserts a row; `find_by_id` selects a row, makes a
field of every column by the type that SQLite reports, and sets the variables from these.

A value goes through four representations so: the variable, the parameter, the column and the
field. What may be lost on the way is lost in the middle. A length is an `int` for SQLite, and
what is longer than its limit is not bound; `query` does not look at what `sqlite3_bind_text` and
`sqlite3_bind_blob` return, inserts `NULL` instead, and reports success (`restored_iff`).
-/

namespace CodeSLoop

namespace Slt3

/-- `common::var`: a number, what is in the buffer of a `ustr`, or a `binry`. -/
inductive Var
  | int64 (v : Int64)
  | ustr (buf : List UInt8)
  | binry (value : List UInt8)
  deriving DecidableEq

/-- `var_type`. -/
inductive Kind
  | int64 | ustr | binry
  deriving DecidableEq

def Var.kind : Var → Kind
  | int64 _ => .int64
  | ustr _ => .ustr
  | binry _ => .binry

/-- `T()`. A `ustr` has its trailing zero from the start. -/
def Kind.new : Kind → Var
  | int64 => .int64 0
  | ustr => .ustr [0]
  | binry => .binry []

/-- `binry::from_binary`; no pointer is the null pointer. -/
def fromBinary (value : List UInt8) : Option (List UInt8) → List UInt8 × Bool
  | none => (value, false)
  | some bs => (bs, true)

/-- `from_var`, if it returns true. Between classes it is `convert`, which is not needed here. -/
def fromVar (convert : Var → Var → Option Var) : Var → Var → Option Var
  | .int64 _, .int64 v => some (.int64 v)
  | .ustr _, .ustr buf => some (.ustr buf)
  | .binry _, .binry bs => some (.binry bs)
  | v, w => convert v w

/-! ## SQLite -/

/-- What a parameter is bound to, and what is in a column. -/
inductive SqlValue
  | null
  | integer (v : Int64)
  | text (bs : List UInt8)
  | blob (bs : List UInt8)
  deriving DecidableEq

/-- A column of this type, `INTEGER`, `TEXT` or `BLOB`, takes the value as it is. -/
def Kind.Fits : Kind → SqlValue → Prop
  | _, .null => True
  | int64, .integer _ => True
  | ustr, .text _ => True
  | binry, .blob _ => True
  | _, _ => False

/-- SQLite with a table that has these columns behind the id, which it numbers itself. `limit`
    is `SQLITE_LIMIT_LENGTH`. An `INSERT` gives the new id, or fails; a `SELECT` gives a row,
    if any. -/
structure Sqlite (δ : Type) where
  columns : List Kind
  limit : Nat
  limit_lt : limit < 2 ^ 31
  insert : δ → List SqlValue → Option (δ × Int64)
  select : δ → SqlValue → Option (List SqlValue)
  stores : ∀ {db db' : δ} {vs : List SqlValue} {id : Int64}, List.Forall₂ Kind.Fits columns vs →
    insert db vs = some (db', id) → id ≠ 0 ∧ select db' (.integer id) = some (.integer id :: vs)

/-- An `int` that gets a 64 bit value. -/
def toInt (n : Int) : Int := n.bmod (2 ^ 32)

def strlen (z : List UInt8) : Nat := (z.takeWhile (· ≠ 0)).length

/-- The length of what looks like UTF-16. -/
def strlen16 : List UInt8 → Nat
  | a :: b :: z => if a ||| b = 0 then 0 else strlen16 z + 2
  | _ => 0

variable {δ : Type}

/-- `sqlite3VdbeMemSetStr`; none is `SQLITE_TOOBIG`. -/
def Sqlite.memSetStr (q : Sqlite δ) (utf8 : Bool) (z : List UInt8) (n : Int) :
    Option (List UInt8) :=
  let nByte := if n < 0 then if utf8 then strlen z else strlen16 z else n.toNat
  if q.limit < nByte then none else some (z.take nByte)

/-! ## Queries -/

/-- `set_param` puts a copy at the place, or throws. -/
def setParam (useExc : Bool) (params : List (Option Var)) (pos : Nat) (p : Var) :
    Option (List (Option Var)) :=
  if 2000 < pos then
    if useExc then none else some (params ++ [some p])
  else some ((params ++ List.replicate (pos + 1 - params.length) none).set pos (some p))

/-- The binding of a parameter in `next`, if it is there. The trailing zero of a string is left
    out. -/
def Sqlite.bind (q : Sqlite δ) : Option Var → SqlValue
  | none => .null
  | some (.int64 v) => .integer v
  | some (.ustr buf) => (q.memSetStr true buf (toInt (buf.length - 1))).elim .null .text
  | some (.binry value) => (q.memSetStr false value (toInt value.length)).elim .null .blob

/-- The field that `next` makes of a column. SQLite has no pointer for a blob of no bytes. -/
def field : SqlValue → Option Var
  | .null => none
  | .integer v => some (.int64 v)
  | .text bs => some (.ustr (bs.takeWhile (· ≠ 0) ++ [0]))
  | .blob bs => some (.binry (fromBinary [] (if bs = [] then none else some bs)).1)

/-- `conn::impl::last_insert_id`. -/
def lastInsertId (id : Int64) : Int64 := if id = 0 then -1 else id

/-! ## Objects -/

variable (convert : Var → Var → Option Var) (useExc : Bool) (q : Sqlite δ)

/-- `var_base::helper::set_id`. -/
def setId (id : Int64) : List Var → List Var
  | [] => []
  | v :: vs => (fromVar convert v (.int64 id)).getD v :: vs

/-- The parameters of `create`, from the one at `i` on. -/
def setParams : List (Option Var) → Nat → List Var → Option (List (Option Var))
  | params, _, [] => some params
  | params, i, v :: vs =>
    (setParam useExc params i v).bind fun params => setParams params (i + 1) vs

/-- `var_base::helper::create`, if it returns true. -/
def create (db : δ) (o : List Var) : Option (δ × List Var) :=
  (setParams useExc [] 1 o.tail).bind fun params =>
    (q.insert db (params.tail.map q.bind)).map fun r =>
      (r.1, setId convert (lastInsertId r.2) o)

/-- The loop of `find_by_id`. -/
def setValues : List Var → List (Option Var) → Option (List Var)
  | [], [] => some []
  | v :: vs, some f :: fs =>
    (fromVar convert v f).bind fun v => (setValues vs fs).map (v :: ·)
  | _, _ => none

/-- `var_base::helper::find_by_id`, if it returns true. -/
def findById (db : δ) : List Var → Option (List Var)
  | [] => none
  | id :: vs =>
    (setParam useExc [] 1 id).bind fun params =>
      (q.select db ((params.tail.map q.bind).headD .null)).bind fun row =>
        if row = [] then none else setValues convert (id :: vs) (row.map field)

/-- A variable that has just been constructed. -/
def Var.fresh (v : Var) : Var := v.kind.new

/-- `create` has stored the object, and another one that carries the id finds it. -/
def Restored (db' : δ) (o members : List Var) : Prop :=
  ∃ id, o = .int64 id :: members ∧
    findById convert useExc q db' (.int64 id :: members.map Var.fresh) = some o

/-- A string has its trailing zero, and no other one. -/
def Var.Plain : Var → Prop
  | ustr buf => ∃ chars, 0 ∉ chars ∧ buf = chars ++ [0]
  | int64 _ | binry _ => True

/-- The bytes that are bound. -/
def Var.length : Var → Nat
  | int64 _ => 0
  | ustr buf => buf.length - 1
  | binry value => value.length

/-! ## One value -/

variable {convert} {useExc} {q} {v f : Var} {bs z : List UInt8}

theorem toInt_eq {n : Nat} (h : n < 2 ^ 31) : toInt n = n := by
  rw [toInt]
  exact Int.bmod_eq_of_le (by omega) (by omega)

theorem length_memSetStr {utf8 : Bool} {n : Int} (h : q.memSetStr utf8 z n = some bs) :
    bs.length ≤ q.limit := by
  rw [Sqlite.memSetStr] at h
  generalize (if n < 0 then if utf8 then strlen z else strlen16 z else n.toNat) = nByte at h
  split at h
  · cases h
  · rename_i hle
    rw [← Option.some.inj h]
    exact (List.length_take_le ..).trans (Nat.le_of_not_lt hle)

/-- What is not too long is taken as long as it says. -/
theorem memSetStr_eq {utf8 : Bool} {n : Nat} (h : n ≤ q.limit) :
    q.memSetStr utf8 z (toInt n) = some (z.take n) := by
  have hlt := q.limit_lt
  rw [toInt_eq (by omega), Sqlite.memSetStr]
  rw [if_neg (show ¬ (n : Int) < 0 by omega), Int.toNat_natCast]
  exact if_neg (Nat.not_lt_of_le h)

theorem takeWhile_plain {chars : List UInt8} (h : 0 ∉ chars) :
    chars.takeWhile (· ≠ 0) = chars := by
  refine List.takeWhile_eq_self_iff.mpr fun c hc => ?_
  have hne : c ≠ 0 := fun h0 => h (h0 ▸ hc)
  simp [hne]

theorem field_blob (bs : List UInt8) : field (.blob bs) = some (.binry bs) := by
  cases bs with
  | nil => rfl
  | cons b bs => rfl

theorem length_field_text : ∃ buf, field (.text bs) = some (.ustr buf) ∧
    buf.length ≤ bs.length + 1 := by
  refine ⟨_, rfl, ?_⟩
  rw [List.length_append]
  exact Nat.add_le_add_right (List.takeWhile_prefix _).length_le 1

/-- **A value comes back** if and only if it is not too long. -/
theorem field_bind_iff (hv : v.Plain) : field (q.bind (some v)) = some v ↔ v.length ≤ q.limit := by
  cases v with
  | int64 v => exact iff_of_true rfl (Nat.zero_le _)
  | ustr buf =>
    obtain ⟨chars, hchars, rfl⟩ := hv
    have hlen : ((chars ++ [0]).length - 1 : Int) = (chars.length : Nat) := by
      rw [List.length_append]
      simp
    have hlength : Var.length (.ustr (chars ++ [0])) = chars.length := by
      rw [Var.length, List.length_append]
      rfl
    rw [Sqlite.bind, hlen, hlength]
    constructor
    · intro hfield
      cases hbs : q.memSetStr true (chars ++ [0]) (toInt (chars.length : Nat)) with
      | none =>
        rw [hbs] at hfield
        cases hfield
      | some bs =>
        rw [hbs] at hfield
        obtain ⟨buf, hbuf, hle⟩ := @length_field_text bs
        have heq := Option.some.inj (hbuf.symm.trans hfield)
        have hshort := length_memSetStr hbs
        rw [Var.ustr.inj heq, List.length_append] at hle
        exact Nat.le_trans (Nat.le_of_add_le_add_right hle) hshort
    · intro hle
      rw [memSetStr_eq hle, List.take_left']
      · change some (Var.ustr (chars.takeWhile (· ≠ 0) ++ [0])) = _
        rw [takeWhile_plain hchars]
      · rfl
  | binry value =>
    rw [Sqlite.bind, Var.length]
    constructor
    · intro hfield
      cases hbs : q.memSetStr false value (toInt value.length) with
      | none =>
        rw [hbs] at hfield
        cases hfield
      | some bs =>
        rw [hbs] at hfield
        have heq := Option.some.inj ((field_blob bs).symm.trans hfield)
        have hshort := length_memSetStr hbs
        rwa [Var.binry.inj heq] at hshort
    · intro hle
      rw [memSetStr_eq hle, List.take_of_length_le (Nat.le_refl _)]
      exact field_blob value

/-- What comes back is of the same class. -/
theorem kind_field_bind (h : field (q.bind (some v)) = some f) : f.kind = v.kind := by
  cases v with
  | int64 v =>
    cases h
    rfl
  | ustr buf =>
    rw [Sqlite.bind] at h
    cases hbs : q.memSetStr true buf (toInt (buf.length - 1)) with
    | none =>
      rw [hbs] at h
      cases h
    | some bs =>
      rw [hbs] at h
      cases h
      rfl
  | binry value =>
    rw [Sqlite.bind] at h
    cases hbs : q.memSetStr false value (toInt value.length) with
    | none =>
      rw [hbs] at h
      cases h
    | some bs =>
      rw [hbs] at h
      cases h
      rfl

theorem fits_bind : v.kind.Fits (q.bind (some v)) := by
  cases v with
  | int64 v => trivial
  | ustr buf =>
    rw [Sqlite.bind]
    cases q.memSetStr true buf (toInt (buf.length - 1)) <;> trivial
  | binry value =>
    rw [Sqlite.bind]
    cases q.memSetStr false value (toInt value.length) <;> trivial

theorem fromVar_eq (h : f.kind = v.kind) : fromVar convert v.fresh f = some f := by
  cases v <;> cases f <;> first | rfl | cases h

/-! ## One object -/

variable {db db' : δ} {o vs members : List Var} {params : List (Option Var)} {id : Int64}

/-- The next parameter goes behind the others. -/
theorem setParam_append {r : List (Option Var)} (h : setParam useExc params params.length v = some r) :
    r = params ++ [some v] := by
  rw [setParam] at h
  split at h
  · split at h
    · cases h
    · exact (Option.some.inj h).symm
  · rw [← Option.some.inj h, Nat.add_sub_cancel_left, List.replicate_one,
      List.set_append_right _ _ (Nat.le_refl _), Nat.sub_self]
    rfl

theorem setParams_append {r : List (Option Var)}
    (h : setParams useExc params params.length vs = some r) : r = params ++ vs.map some := by
  induction vs generalizing params with
  | nil =>
    rw [List.map_nil, List.append_nil]
    exact (Option.some.inj h).symm
  | cons v vs ih =>
    rw [setParams] at h
    obtain ⟨params', hparam, hrest⟩ := Option.bind_eq_some_iff.mp h
    have hparams := setParam_append hparam
    have hlen : params'.length = params.length + 1 := by
      rw [hparams, List.length_append]
      rfl
    rw [← hlen] at hrest
    rw [ih hrest, hparams, List.append_assoc]
    rfl

/-- There is no parameter at 0. -/
theorem setParams_tail {r : List (Option Var)} (h : setParams useExc [] 1 vs = some r) :
    r.tail = vs.map some := by
  cases vs with
  | nil =>
    rw [← Option.some.inj h]
    rfl
  | cons v vs =>
    -- The first one makes two places.
    have hfirst : setParams useExc [none] 1 (v :: vs) = some r := h
    rw [@setParams_append useExc (v :: vs) [none] r hfirst]
    rfl

theorem setValues_iff : setValues convert (vs.map Var.fresh)
    (vs.map fun v => field (q.bind (some v))) = some vs ↔
      ∀ v ∈ vs, field (q.bind (some v)) = some v := by
  induction vs with
  | nil => exact iff_of_true rfl nofun
  | cons v vs ih =>
    rw [List.forall_mem_cons, ← ih, List.map_cons, List.map_cons]
    cases hf : field (q.bind (some v)) with
    | none => exact iff_of_false nofun fun h => nomatch h.1
    | some f =>
      rw [setValues, fromVar_eq (kind_field_bind hf), Option.bind_some]
      constructor
      · intro h
        obtain ⟨vs', hvs', hcons⟩ := Option.map_eq_some_iff.mp h
        obtain ⟨rfl, rfl⟩ := List.cons.inj hcons
        exact ⟨rfl, hvs'⟩
      · rintro ⟨hv, hvs⟩
        rw [hvs, Option.some.inj hv]
        rfl

/-- The object is found again if every value comes back. -/
theorem restored_iff_fields (hcolumns : q.columns = members.map Var.kind)
    (h : create convert useExc q db (.int64 id :: members) = some (db', o)) :
    Restored convert useExc q db' o members ↔
      ∀ v ∈ members, field (q.bind (some v)) = some v := by
  obtain ⟨params, hparams, hinsert⟩ := Option.bind_eq_some_iff.mp h
  obtain ⟨⟨db'', new⟩, hrow, heq⟩ := Option.map_eq_some_iff.mp hinsert
  rw [setParams_tail hparams, List.tail_cons, List.map_map] at hrow
  have hfits : List.Forall₂ Kind.Fits q.columns (members.map (q.bind ∘ some)) := by
    rw [hcolumns, List.forall₂_map_left_iff, List.forall₂_map_right_iff]
    exact List.forall₂_same.mpr fun v hv => fits_bind
  obtain ⟨hne, hselect⟩ := q.stores hfits hrow
  obtain ⟨rfl, rfl⟩ := Prod.mk.inj heq
  -- The object has the new id, and the row is found by that.
  have hid : setId convert (lastInsertId new) (.int64 id :: members) = .int64 new :: members := by
    rw [lastInsertId, if_neg hne]
    rfl
  have hfind : findById convert useExc q db'' (.int64 new :: members.map Var.fresh) =
      (setValues convert (members.map Var.fresh)
        (members.map fun v => field (q.bind (some v)))).map (.int64 new :: ·) := by
    change (q.select db'' (.integer new)).bind _ = _
    rw [hselect, Option.bind_some, if_neg (List.cons_ne_nil _ _), List.map_cons, List.map_map]
    rfl
  rw [hid, ← setValues_iff]
  constructor
  · rintro ⟨new', ho, hfound⟩
    cases ho
    rw [hfind] at hfound
    obtain ⟨vs, hvs, hcons⟩ := Option.map_eq_some_iff.mp hfound
    rw [hvs, (List.cons.inj hcons).2]
  · intro hvalues
    refine ⟨new, rfl, ?_⟩
    rw [hfind, hvalues]
    rfl

/-- **What is stored is found again** if and only if no string and no blob is longer than SQLite
    takes: for every class, all values, and every state of the database in which `create` returns
    true. -/
theorem restored_iff (hcolumns : q.columns = members.map Var.kind) (hplain : ∀ v ∈ members, v.Plain)
    (h : create convert useExc q db (.int64 id :: members) = some (db', o)) :
    Restored convert useExc q db' o members ↔ ∀ v ∈ members, v.length ≤ q.limit :=
  (restored_iff_fields hcolumns h).trans (forall₂_congr fun v hv => field_bind_iff (hplain v hv))

/-- A table in memory. Its ids are the positions of the rows. -/
def memory (columns : List Kind) : Sqlite (List (List SqlValue)) where
  columns := columns
  limit := 1000000000
  limit_lt := by decide
  insert db vs :=
    if db.length + 1 < 2 ^ 63 then some (db ++ [vs], Int64.ofNat (db.length + 1)) else none
  select db
    | .integer id => if id = 0 then none else db[id.toInt.toNat - 1]?.map (.integer id :: ·)
    | _ => none
  stores := by
    intro db db' vs id _ h
    split at h
    · rename_i hlt
      cases h
      have hid := Int64.toInt_ofNat_of_lt hlt
      have hne : Int64.ofNat (db.length + 1) ≠ 0 := by
        intro h0
        rw [h0] at hid
        cases hid
      refine ⟨hne, ?_⟩
      change (if Int64.ofNat (db.length + 1) = 0 then none else _) = _
      rw [if_neg hne, hid, Int.toNat_natCast, Nat.add_sub_cancel, List.getElem?_concat_length]
      rfl
    · cases h

/-- A number, a string that nothing was assigned to, another one, and an empty blob. -/
theorem restored_iff_short :
    let members := [Var.int64 (-1), .ustr [0], .ustr [104, 105, 0], .binry []]
    Restored (fun _ _ => none) false (memory (members.map Var.kind))
        [[.integer (-1), .text [], .text [104, 105], .blob []]] (.int64 1 :: members) members ↔
      ∀ v ∈ members, v.length ≤ 1000000000 := by
  refine @restored_iff _ _ _ (memory _) [] _ _ _ 0 rfl ?_ rfl
  intro v hv
  rcases List.mem_cons.mp hv with rfl | hv
  · trivial
  · rcases List.mem_cons.mp hv with rfl | hv
    · exact ⟨[], by simp, rfl⟩
    · rcases List.mem_cons.mp hv with rfl | hv
      · exact ⟨[104, 105], by simp, rfl⟩
      · cases List.mem_singleton.mp hv
        trivial

/-- A blob of 2 ^ 32 bytes is bound as none. -/
theorem bind_wraps (h : bs.length = 2 ^ 32) : (memory [.binry]).bind (some (.binry bs)) = .blob [] := by
  have hsize : toInt (2 ^ 32 : Nat) = 0 := by rfl
  rw [Sqlite.bind, h, hsize]
  rfl

/-- It is stored as an empty one, and `create` returns true. -/
theorem restored_fails :
    let value := List.replicate (2 ^ 32) 1
    let o := [Var.int64 1, .binry value]
    create (fun _ _ => none) false (memory [.binry]) [] [.int64 0, .binry value] =
        some ([[.blob []]], o) ∧
      ¬ Restored (fun _ _ => none) false (memory [.binry]) [[.blob []]] o [.binry value] := by
  have hlen : (List.replicate (2 ^ 32) (1 : UInt8)).length = 2 ^ 32 := List.length_replicate
  generalize List.replicate (2 ^ 32) (1 : UInt8) = value at hlen
  have hcreate : create (fun _ _ => none) false (memory [.binry]) [] [.int64 0, .binry value] =
      some ([[.blob []]], [.int64 1, .binry value]) := by
    have hparams : setParams false [] 1 [.binry value] = some [none, some (.binry value)] := by rfl
    rw [create, List.tail_cons, hparams, Option.bind_some, List.tail_cons, List.map_singleton,
      bind_wraps hlen]
    rfl
  refine ⟨hcreate, fun hrestored => ?_⟩
  have hfield := (restored_iff_fields rfl hcreate).mp hrestored (.binry value) (List.mem_singleton.mpr rfl)
  rw [bind_wraps hlen] at hfield
  -- What comes back is empty.
  cases hfield
  cases hlen

end Slt3

end CodeSLoop
