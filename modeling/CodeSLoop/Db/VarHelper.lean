import CodeSLoop.Db.Query

/-!
# Objects from rows (`db/slt3/var.cc`, `db/slt3/var.hh`)

`var_base::helper` knows the variables of an object. It makes parameters of them for the queries
of `sql::helper`, and sets them from the row that a query gives. `find_by_id` and `find_by` set
them one after the other, each in its place in the object, and leave at the first column that has
no value or none that the variable takes. What has been set by then stays so
(`all_or_nothing_iff`).

What the C library and the processor make of numbers and texts is left open (`Conv`).
-/

namespace CodeSLoop

namespace Slt3.Query

/-- The conversions between numbers, texts and bytes: casts, `atoll` and `atof`, `printf` with
    `%lld` and `%.12f`, and eight bytes as they are in memory. -/
structure Conv where
  toInt64 : UInt64 → Int64
  toDouble : Int64 → UInt64
  atoll : List UInt8 → Int64
  atof : List UInt8 → UInt64
  integerText : Int64 → List UInt8
  doubleText : UInt64 → List UInt8
  word : List UInt8 → UInt64
  bytes : UInt64 → List UInt8

variable (k : Conv)

/-- `to_integer`, if it returns true. -/
def Conv.toInteger : Var → Option Int64
  | .int64 v => some v
  | .dbl bits => some (k.toInt64 bits)
  | .ustr buf => some (k.atoll buf)
  | .binry value => if value.length < 8 then none else some (k.word (value.take 8)).toInt64

/-- `to_double`, if it returns true. -/
def Conv.toDbl : Var → Option UInt64
  | .int64 v => some (k.toDouble v)
  | .dbl bits => some bits
  | .ustr buf => some (k.atof buf)
  | .binry value => if value.length < 8 then none else some (k.word (value.take 8))

/-- `ustr::ensure_trailing_zero`. -/
def ensureTrailingZero (buf : List UInt8) : List UInt8 :=
  if buf.getLast? = some 0 then buf else buf ++ [0]

/-- `to_string( ustr )`, which always returns true. -/
def Conv.toUstr : Var → List UInt8
  | .int64 v => k.integerText v ++ [0]
  | .dbl bits => k.doubleText bits ++ [0]
  | .ustr buf => buf
  | .binry value => ensureTrailingZero value

/-- `to_binary( binry )`, which always returns true. -/
def Conv.toBinry : Var → List UInt8
  | .int64 v => k.bytes v.toUInt64
  | .dbl bits => k.bytes bits
  | .ustr buf => buf
  | .binry value => value

/-- `from_var`, if it returns true. A variable is left alone if it does not. -/
def Conv.fromVar (v f : Var) : Option Var :=
  match v with
  | .int64 _ => (k.toInteger f).map .int64
  | .dbl _ => (k.toDbl f).map .dbl
  | .ustr _ => some (.ustr (k.toUstr f))
  | .binry _ => some (.binry (k.toBinry f))

/-- `varT::set_value`, if it returns true. -/
def Conv.setValue (v : Var) (f : Option Var) : Option Var := f.bind (k.fromVar v)

/-- `set_param` puts a copy at the place, or throws. What a parameter is does not matter. -/
def setParam {α : Type} (useExc : Bool) (params : List (Option α)) (pos : Nat) (p : α) :
    Option (List (Option α)) :=
  if 2000 < pos then
    if useExc then none else some (params ++ [some p])
  else some ((params ++ List.replicate (pos + 1 - params.length) none).set pos (some p))

/-- `pvlist::get_at` of an `int`. -/
def getAt {α : Type} (xs : List α) (i : Int) : Option α := if i < 0 then none else xs[i.toNat]?

/-- The database, for a query with the texts `σ`: no statement is made of it, or `sqlite3_step`
    answers. -/
def Database (σ : Type) : Type := σ → List (Option Var) → Option Answer

namespace VarHelper

variable {σ α : Type} (c : Casts) (useExc : Bool)

/-! ## Parameters -/

/-- The loop of `find_by` over `tmpi`, from `j` on. -/
def findByParams (vars : List α) : Nat → List Int → List (Option α) → Option (List (Option α))
  | _, [], params => some params
  | j, i :: is, params =>
    if i = -1 then some params
    else
      match getAt vars i with
      | some d => (setParam useExc params (j + 1) d).bind (findByParams vars (j + 1) is)
      | none => findByParams vars (j + 1) is params

/-- The loop of `create` and `save` over the variables, from the one at `i` on. The first one is
    skipped. -/
def setParams : Nat → List α → List (Option α) → Option (List (Option α) × Nat)
  | i, [], params => some (params, i)
  | i, v :: vs, params =>
    if 0 < i then (setParam useExc params i v).bind (setParams (i + 1) vs)
    else setParams (i + 1) vs params

/-- What `create` binds. -/
def createParams (vars : List α) : Option (List (Option α)) :=
  (setParams useExc 0 vars []).map Prod.fst

/-- What `save` binds: the id is the last one. There is none when there are no variables. -/
def saveParams (vars : List α) : Option (List (Option α)) :=
  (setParams useExc 0 vars []).bind fun r => vars.head?.bind (setParam useExc r.1 r.2)

/-! ## Finding -/

/-- The loop of `find_by_id` and `find_by`, over heads, fields and variables. -/
def setValues : List Colhead → List (Option Var) → List Var → List Var × Ret
  | _ :: chs, f :: fds, v :: vs =>
    match k.setValue v f with
    | none => (v :: vs, .no)
    | some w => (w :: (setValues chs fds vs).1, (setValues chs fds vs).2)
  | chs, fds, vs => (vs, if chs = [] ∧ fds = [] ∧ vs = [] then .yes else .no)

/-- What both do with the answer of the database. -/
def load (ans : Option Answer) (vars : List Var) : List Var × Ret :=
  let (q, prepared) := (Impl.init useExc).prepare true ans.isSome
  if prepared ≠ .yes then (vars, prepared)
  else
    let (_, ret, ch, fd) := q.next c [] [] (ans.getD .error)
    if ret = .thrown then (vars, .thrown)
    else if 0 < ch.length ∧ 0 < fd.length then setValues k ch fd vars
    else (vars, .no)

/-- `find_by_id`. Without variables there is none for the id, and no telling what happens. -/
def findById (db : Database σ) (sql : σ) (vars : List Var) : Option (List Var × Ret) :=
  match vars with
  | [] => none
  | id :: _ =>
    match setParam useExc [] 1 id with
    | none => some (vars, .thrown)
    | some params => some (load k c useExc (db sql params) vars)

/-- `find_by`. -/
def findBy (db : Database σ) (sql : σ) (field1 field2 field3 field4 field5 : Int) (vars : List Var) :
    Option (List Var × Ret) :=
  let tmpi := [field1, field2, field3, field4, field5]
  match findByParams useExc vars 0 tmpi [] with
  | none => some (vars, .thrown)
  | some params => some (load k c useExc (db sql params) vars)

/-! ## One variable -/

/-- A variable takes a field: there is one, and it is not a blob of less than eight bytes for a
    number. -/
def Takes (v : Var) (f : Option Var) : Prop :=
  match v, f with
  | _, none => False
  | .int64 _, some (.binry value) | .dbl _, some (.binry value) => 8 ≤ value.length
  | _, some _ => True

instance (v : Var) (f : Option Var) : Decidable (Takes v f) := by
  unfold Takes
  split <;> infer_instance

variable {k c useExc} {v : Var} {f : Option Var} {vs vars : List Var} {fds : List (Option Var)}
  {chs : List Colhead} {ans : Option Answer}

theorem setValue_isSome_iff : (k.setValue v f).isSome ↔ Takes v f := by
  cases f with
  | none => simp [Conv.setValue, Takes]
  | some f =>
    cases v with
    | int64 | dbl =>
      cases f with
      | int64 | dbl | ustr => simp [Conv.setValue, Conv.fromVar, Conv.toInteger, Conv.toDbl, Takes]
      | binry value =>
        simp only [Conv.setValue, Conv.fromVar, Conv.toInteger, Conv.toDbl, Takes, Option.bind_some]
        split
        · rename_i h
          simpa using h
        · rename_i h
          simpa using h
    | ustr | binry => cases f <;> simp [Conv.setValue, Conv.fromVar, Takes]

theorem setValue_none (h : ¬ Takes v f) : k.setValue v f = none := by
  rw [← Option.not_isSome_iff_eq_none, setValue_isSome_iff]
  exact h

theorem setValue_some (h : Takes v f) : ∃ w, k.setValue v f = some w :=
  Option.isSome_iff_exists.mp (setValue_isSome_iff.mpr h)

/-! ## The loop -/

/-- The row has a value for every variable, and each one takes it. -/
def TakesAll (vars : List Var) (fds : List (Option Var)) : Prop :=
  vars.length = fds.length ∧ ∀ p ∈ vars.zip fds, Takes p.1 p.2

/-- The variables before the first one that takes no value already have what they are given. -/
def Kept (k : Conv) (vars : List Var) (fds : List (Option Var)) : Prop :=
  ∀ p ∈ (vars.zip fds).takeWhile fun p => decide (Takes p.1 p.2), k.setValue p.1 p.2 = some p.1

theorem setValues_yes_iff (hlen : chs.length = fds.length) :
    (setValues k chs fds vs).2 = .yes ↔ TakesAll vs fds := by
  -- by the variables; heads and fields are as many
  induction vs generalizing chs fds with
  | nil =>
    cases chs with
    | nil =>
      cases fds with
      | nil => simp [setValues, TakesAll]
      | cons f fds => cases hlen
    | cons ch chs =>
      cases fds with
      | nil => cases hlen
      | cons f fds => simp [setValues, TakesAll]
  | cons v vs ih =>
    cases chs with
    | nil =>
      cases fds with
      | nil => simp [setValues, TakesAll]
      | cons f fds => cases hlen
    | cons ch chs =>
      cases fds with
      | nil => cases hlen
      | cons f fds =>
        by_cases ht : Takes v f
        · obtain ⟨w, hw⟩ := @setValue_some k v f ht
          have ih := ih (Nat.succ.inj hlen)
          simp only [setValues, hw, ih]
          simp [TakesAll, ht]
        · simp [setValues, setValue_none ht, TakesAll, ht]

/-- When it goes on to the end, every variable is set from its column. -/
theorem setValues_all (hlen : chs.length = fds.length) (h : TakesAll vs fds) :
    (setValues k chs fds vs).1.map some = List.zipWith k.setValue vs fds := by
  induction vs generalizing chs fds with
  | nil => cases chs <;> cases fds <;> rfl
  | cons v vs ih =>
    obtain ⟨hvs, hall⟩ := h
    cases fds with
    | nil => cases hvs
    | cons f fds =>
      cases chs with
      | nil => cases hlen
      | cons ch chs =>
        rw [List.zip_cons_cons, List.forall_mem_cons] at hall
        obtain ⟨w, hw⟩ := @setValue_some k v f hall.1
        have ih := ih (Nat.succ.inj hlen) ⟨Nat.succ.inj hvs, hall.2⟩
        simp only [setValues, hw, List.map_cons, List.zipWith_cons_cons, ih]

/-- What the loop leaves is what was there, exactly if what it sets was there already. -/
theorem setValues_eq_iff (hlen : chs.length = fds.length) :
    (setValues k chs fds vs).1 = vs ↔ Kept k vs fds := by
  induction vs generalizing chs fds with
  | nil => cases chs <;> cases fds <;> simp [setValues, Kept]
  | cons v vs ih =>
    cases chs with
    | nil =>
      cases fds with
      | nil => simp [setValues, Kept]
      | cons f fds => cases hlen
    | cons ch chs =>
      cases fds with
      | nil => cases hlen
      | cons f fds =>
        by_cases ht : Takes v f
        · obtain ⟨w, hw⟩ := @setValue_some k v f ht
          have ih := ih (Nat.succ.inj hlen)
          simp only [setValues, hw, List.cons.injEq, ih]
          simp [Kept, ht, hw]
        · simp [setValues, setValue_none ht, Kept, ht]

/-! ## The answer -/

/-- The fields of the row that was found. -/
def rowFields (c : Casts) : Option Answer → Option (List (Option Var))
  | some (.row cells) =>
    if cells = [] then none else some (cells.map fun x => c.field x.value x.value.type)
  | _ => none

theorem fields_heads : ∀ cells : List Cell,
    c.fields (cells.map fun x => ⟨x.value.type, x.name, x.table, x.db, x.origin⟩)
      (cells.map Cell.value) = cells.map fun x => c.field x.value x.value.type
  | [] => rfl
  | x :: cells => by
    simp only [List.map_cons, Casts.fields, List.headD_cons, List.tail_cons, fields_heads cells]

theorem thr_ne_yes (q : Impl) : q.thr ≠ .yes := by
  unfold Impl.thr
  split <;> intro h <;> cases h

/-- A row goes through the loop, with a head for every field. -/
theorem load_row (h : rowFields c ans = some fds) :
    ∃ chs : List Colhead, chs.length = fds.length ∧ load k c useExc ans vars = setValues k chs fds vars := by
  unfold rowFields at h
  split at h
  · rename_i cells
    split at h
    · cases h
    · rename_i hne
      cases h
      have hpos := List.length_pos_iff.mpr hne
      refine ⟨cells.map fun x => ⟨x.value.type, x.name, x.table, x.db, x.origin⟩, by simp, ?_⟩
      simp only [load, Impl.prepare, Impl.freeAll, Impl.init, Impl.next, Impl.resetData,
        Impl.fillColumns, Impl.copyColumns]
      simp [fields_heads, hpos, hne]
  · cases h

/-- Without a row nothing is set. -/
theorem load_none (h : rowFields c ans = none) :
    (load k c useExc ans vars).1 = vars ∧ (load k c useExc ans vars).2 ≠ .yes := by
  cases ans with
  | none =>
    have hthr : ∀ q : Impl, q.thr ≠ .yes := thr_ne_yes
    simp [load, Impl.prepare, hthr]
  | some ans =>
    cases ans with
    | row cells =>
      have hnil : cells = [] := by
        unfold rowFields at h
        split at h
        · rename_i he
          cases he
          split at h
          · assumption
          · cases h
        · rename_i hno
          exact absurd rfl (hno cells)
      subst hnil
      simp [load, Impl.prepare, Impl.freeAll, Impl.init, Impl.next, Impl.resetData, Impl.fillColumns,
        Impl.copyColumns, Casts.fields]
    | ok id count | done id count =>
      simp [load, Impl.prepare, Impl.freeAll, Impl.init, Impl.next]
    | error =>
      cases useExc <;> simp [load, Impl.prepare, Impl.freeAll, Impl.init, Impl.next, Impl.thr,
        Impl.resetData]

/-- True is for a row that all variables take. -/
theorem load_yes_iff :
    (load k c useExc ans vars).2 = .yes ↔ ∃ fds, rowFields c ans = some fds ∧ TakesAll vars fds := by
  cases h : rowFields c ans with
  | none => simpa using (@load_none k c useExc vars ans h).2
  | some fds =>
    obtain ⟨chs, hlen, hload⟩ := @load_row k c useExc vars fds ans h
    rw [hload, setValues_yes_iff hlen]
    simp

/-- All variables are set, each from its column, and true is returned; or false, or nothing
    because it throws, and no variable is touched. -/
def AllOrNothing (k : Conv) (c : Casts) (vars : List Var) (ans : Option Answer)
    (out : Option (List Var × Ret)) : Prop :=
  ∃ vars' ret, out = some (vars', ret) ∧
    ((ret = .yes ∧ ∃ fds, rowFields c ans = some fds ∧ vars.length = fds.length ∧
        vars'.map some = List.zipWith k.setValue vars fds) ∨
      (ret ≠ .yes ∧ vars' = vars))

/-- A row that is found has a value for every variable that this takes, or gives the variables
    before the first that takes none what they have. -/
def Harmless (k : Conv) (c : Casts) (vars : List Var) (ans : Option Answer) : Prop :=
  ∀ fds, rowFields c ans = some fds → TakesAll vars fds ∨ Kept k vars fds

theorem allOrNothing_load_iff :
    AllOrNothing k c vars ans (some (load k c useExc ans vars)) ↔ Harmless k c vars ans := by
  cases h : rowFields c ans with
  | none =>
    obtain ⟨hvars, hret⟩ := @load_none k c useExc vars ans h
    refine iff_of_true ⟨_, _, rfl, .inr ⟨hret, hvars⟩⟩ ?_
    intro fds hfds
    rw [h] at hfds
    cases hfds
  | some fds =>
    obtain ⟨chs, hlen, hload⟩ := @load_row k c useExc vars fds ans h
    have hyes := @setValues_yes_iff k vars fds chs hlen
    have hself := @setValues_eq_iff k vars fds chs hlen
    have hharm : Harmless k c vars ans ↔ TakesAll vars fds ∨ Kept k vars fds := by
      unfold Harmless
      simp [h]
    -- with a row it is the loop that decides: true for all, or what is set was there before
    rw [hharm, hload]
    constructor
    · rintro ⟨vars', ret, hout, hor⟩
      have hout := Option.some.inj hout
      rw [hout] at hyes hself
      rcases hor with ⟨hret, -⟩ | ⟨-, hsame⟩
      · exact .inl (hyes.mp hret)
      · exact .inr (hself.mp hsame)
    · intro hor
      by_cases hall : TakesAll vars fds
      · exact ⟨_, _, rfl, .inl ⟨hyes.mpr hall, fds, h, hall.1, setValues_all hlen hall⟩⟩
      · exact ⟨_, _, rfl, .inr ⟨mt hyes.mp hall, hself.mpr (hor.resolve_left hall)⟩⟩

/-- What the database answers `find_by_id`. -/
def foundById (useExc : Bool) (db : Database σ) (sql : σ) (vars : List Var) : Option Answer :=
  (vars.head?.bind (setParam useExc [] 1)).bind (db sql)

/-- What the database answers `find_by`. -/
def foundBy (useExc : Bool) (db : Database σ) (sql : σ) (tmpi : List Int) (vars : List Var) :
    Option Answer :=
  (findByParams useExc vars 0 tmpi []).bind (db sql)

/-- **All or nothing.** There is a variable for the id, and the row that the database gives, if it
    gives one, does no harm. -/
theorem all_or_nothing_iff (k : Conv) (c : Casts) (useExc : Bool) (db : Database σ) (sql : σ)
    (vars : List Var) :
    (AllOrNothing k c vars (foundById useExc db sql vars) (findById k c useExc db sql vars) ↔
        vars ≠ [] ∧ Harmless k c vars (foundById useExc db sql vars)) ∧
      ∀ field1 field2 field3 field4 field5 : Int,
        AllOrNothing k c vars (foundBy useExc db sql [field1, field2, field3, field4, field5] vars)
            (findBy k c useExc db sql field1 field2 field3 field4 field5 vars) ↔
          Harmless k c vars
            (foundBy useExc db sql [field1, field2, field3, field4, field5] vars) := by
  have hthrown : AllOrNothing k c vars none (some (vars, .thrown)) ∧ Harmless k c vars none :=
    ⟨⟨vars, .thrown, rfl, .inr ⟨(by intro h; cases h), rfl⟩⟩, (by intro fds h; cases h)⟩
  constructor
  · cases vars with
    | nil =>
      refine iff_of_false ?_ ?_
      · rintro ⟨_, _, hout, -⟩
        cases hout
      · intro h
        exact h.1 rfl
    | cons id vs =>
      rw [and_iff_right (List.cons_ne_nil id vs)]
      simp only [findById, foundById, List.head?_cons, Option.bind_some]
      cases setParam useExc [] 1 id with
      | none => exact iff_of_true hthrown.1 hthrown.2
      | some params => exact allOrNothing_load_iff
  · intro field1 field2 field3 field4 field5
    simp only [findBy, foundBy]
    cases findByParams useExc vars 0 [field1, field2, field3, field4, field5] [] with
    | none => exact iff_of_true hthrown.1 hthrown.2
    | some params => exact allOrNothing_load_iff

/-- An object with its id and two numbers; the row has the id, a number, and `NULL`. -/
theorem all_or_nothing_fails :
    ∃ (k : Conv) (c : Casts) (db : Database Unit) (vars : List Var),
      findById k c true db () vars = some ([.int64 1, .int64 5, .int64 0], .no) ∧
      ¬ AllOrNothing k c vars (foundById true db () vars) (findById k c true db () vars) := by
  refine ⟨⟨fun _ => 0, fun _ => 0, fun _ => 0, fun _ => 0, fun _ => [], fun _ => [], fun _ => 0,
    fun _ => []⟩, noCasts, fun _ _ => some (sampleRow [.integer 1, .integer 5, .null]),
    [.int64 1, .int64 0, .int64 0], rfl, ?_⟩
  rintro ⟨vars', ret, hout, ⟨hret, -⟩ | ⟨-, hsame⟩⟩
  · cases hout
    cases hret
  · cases hout
    cases hsame

end VarHelper

end Slt3.Query

end CodeSLoop
