import CodeSLoop.Db.SqlHelper
import CodeSLoop.Db.Tran

/-!
# Finding objects (`db/slt3/obj.cc`)

`obj` has `find_by_id` and `find_by` twice, with a transaction and without. Those without open a
transaction and call the others by the same name; which one it is that they call is for overload
resolution to say. `find_by_id` hands its transaction on, and calls `on_load` after the other has
done so. `find_by` does not hand it on: it calls itself, which opens another transaction and calls
itself (`finds_right_iff`).

What `on_load` does is up to the class; here it is noted that it is called.
-/

namespace CodeSLoop

namespace Slt3.Query.ObjFind

open SqlHelper (Text Helper)

/-! ## Transactions -/

/-- `tran::impl`, with its `use_exc_`. -/
structure Tran extends Slt3.Tran where
  useExc : Bool
  deriving DecidableEq

/-- `conn::impl`, with what SQLite answers to the statements that begin and end a transaction, and
    to the queries. -/
structure Connection where
  opened : Bool
  useExc : Bool
  begins : Bool
  ends : Bool
  answers : Database Text

/-- A transaction is constructed, SQLite is asked for something, or `on_load` is called. -/
inductive Event
  | tran (t : Nat)
  | start (t : Nat) (done : Bool)
  | query (t : Nat) (sql : Text)
  | commit (t : Nat) (done : Bool)
  | rollback (t : Nat) (done : Bool)
  | onLoad
  deriving DecidableEq

/-- An object and the helper of its class; the transactions by their `tran_id_`; and what has
    happened. -/
structure World where
  vars : List Var
  helper : Helper
  tranId : Nat
  trans : Nat → Tran
  log : List Event

namespace World

variable (cn : Connection) (w : World)

def record (e : Event) : World := { w with log := w.log ++ [e] }

/-- `tran t( dbr ); t.use_exc( true );`. -/
def newTran : World × Nat :=
  let t := w.tranId + 1
  ({ w with
      tranId := t
      trans := Function.update w.trans t ⟨⟨none, false, true, false⟩, true⟩
      log := w.log ++ [.tran t] }, t)

/-- `tran::start`, and whether it comes back. A statement that fails is as good as done when the
    connection does not throw. -/
def start (t : Nat) : World × Bool :=
  let x := w.trans t
  if x.started then (w, true)
  else if cn.begins = false ∧ cn.useExc = true then (w.record (.start t cn.begins), false)
  else
    ({ w.record (.start t cn.begins) with
        trans := Function.update w.trans t { x with started := true } }, true)

/-- The destructor of a `tran`. -/
def destroy (t : Nat) : World :=
  let x := w.trans t
  if x.started = false then w
  else if x.doRollback then w.record (.rollback t cn.ends)
  else if x.doCommit then w.record (.commit t cn.ends)
  else w

/-- A query whose parameters have been set: `prepare` looks at the connection and starts the
    transaction. `r` is what comes of it when SQLite is asked. -/
def query (t : Nat) (sql : Text) (r : List Var × Ret) : World × Ret :=
  if cn.opened = false then (w, if (w.trans t).useExc then .thrown else .no)
  else
    match w.start cn t with
    | (w, false) => (w, .thrown)
    | (w, true) => ({ w.record (.query t sql) with vars := r.1 }, r.2)

/-- `if( r ) this->on_load();`. -/
def loaded : World × Ret → World × Ret
  | (w, .yes) => (w.record .onLoad, .yes)
  | (w, .no) => (w, .no)
  | (w, .thrown) => (w, .thrown)

end World

/-! ## Overloads -/

inductive Name
  | findById | findBy
  deriving DecidableEq

inductive ParamType
  | tran | int
  deriving DecidableEq

/-- An argument: a transaction by reference, or a number. -/
inductive Arg
  | tran (t : Nat)
  | int (i : Int)
  deriving DecidableEq

def Arg.type : Arg → ParamType
  | tran _ => .tran
  | int _ => .int

/-- How a member is declared: its name, its parameters, and how many of the last have `-1` as a
    default. -/
structure Decl where
  name : Name
  params : List ParamType
  optional : Nat

/-- The members with these names. -/
inductive Member
  | findByIdTran | findByTran | findById | findBy
  deriving DecidableEq

/-- `obj.hh`. -/
def Member.decl : Member → Decl
  | findByIdTran => ⟨.findById, [.tran], 0⟩
  | findByTran => ⟨.findBy, [.tran, .int, .int, .int, .int, .int], 4⟩
  | findById => ⟨.findById, [], 0⟩
  | findBy => ⟨.findBy, [.int, .int, .int, .int, .int], 4⟩

/-- It can be called with arguments of these types. A number is not converted to a `tran &`, nor
    the other way round. -/
def Decl.Takes (d : Decl) (types : List ParamType) : Prop :=
  types <+: d.params ∧ d.params.length ≤ types.length + d.optional

instance (d : Decl) (types : List ParamType) : Decidable (d.Takes types) := by
  unfold Decl.Takes
  infer_instance

/-- Overload resolution. -/
def resolve (name : Name) (types : List ParamType) : Option Member :=
  [Member.findByIdTran, .findByTran, .findById, .findBy].find? fun m =>
    decide (m.decl.name = name ∧ m.decl.Takes types)

/-- The arguments with the defaults. -/
def Decl.arguments (d : Decl) (args : List Arg) : List Arg :=
  args ++ List.replicate (d.params.length - args.length) (.int (-1))

/-! ## The members -/

variable (k : Conv) (c : Casts) (cn : Connection)

/-- The bodies, and how they `call`. -/
def body (call : World → Name → List Arg → Option (World × Ret)) (w : World) :
    Member → List Arg → Option (World × Ret)
  | .findByIdTran, [.tran t] =>
    let (helper, sql) := w.helper.findById
    (VarHelper.findById k c (w.trans t).useExc cn.answers sql w.vars).map fun r =>
      World.loaded ({ w with helper := helper }.query cn t sql r)
  | .findByTran, [.tran t, .int field1, .int field2, .int field3, .int field4, .int field5] =>
    let (helper, sql) := w.helper.findBy field1 field2 field3 field4 field5
    (VarHelper.findBy k c (w.trans t).useExc cn.answers sql field1 field2 field3 field4 field5
      w.vars).map fun r => World.loaded ({ w with helper := helper }.query cn t sql r)
  | .findById, [] =>
    let (w, t) := w.newTran
    (call w .findById [.tran t]).map fun r =>
      let (w, ret) := World.loaded r
      (w.destroy cn t, ret)
  | .findBy, [.int field1, .int field2, .int field3, .int field4, .int field5] =>
    let (w, t) := w.newTran
    (call w .findBy [.int field1, .int field2, .int field3, .int field4, .int field5]).map fun r =>
      let (w, ret) := World.loaded r
      (w.destroy cn t, ret)
  | _, _ => none

/-- A call that comes back before there are `n` calls in one another. -/
def call : Nat → World → Name → List Arg → Option (World × Ret)
  | 0, _, _, _ => none
  | n + 1, w, name, args =>
    (resolve name (args.map Arg.type)).bind fun m =>
      body k c cn (call n) w m (m.decl.arguments args)

/-! ## What is asked of a call -/

/-- A query is in a transaction that has been constructed and begun, and has not ended. -/
def InOpened (before : List Event) : Event → Prop
  | .query t _ => .tran t ∈ before ∧ .start t true ∈ before ∧
      ∀ done, .commit t done ∉ before ∧ .rollback t done ∉ before
  | .tran _ | .start _ _ | .commit _ _ | .rollback _ _ | .onLoad => True

/-- All of them are. -/
def Inside : List Event → List Event → Prop
  | _, [] => True
  | before, e :: es => InOpened before e ∧ Inside (before ++ [e]) es

/-- The call comes back; `on_load` has been called once if it comes back with true, and not
    otherwise; and without a transaction among the arguments, the queries are in one that has been
    opened since. -/
def Right (w : World) (name : Name) (args : List Arg) : Prop :=
  ∃ n w' ret es, call k c cn n w name args = some (w', ret) ∧ w'.log = w.log ++ es ∧
    es.count .onLoad = (if ret = .yes then 1 else 0) ∧
    (.tran ∉ args.map Arg.type → Inside [] es)

/-! ## Which member is called -/

variable {k : Conv} {c : Casts} {cn : Connection} {w : World} {name : Name} {args : List Arg}
  {m m' : Member} {types : List ParamType}

/-- The first parameter of a member has no default. -/
theorem head_of_takes (h : m.decl.Takes types) : types.head? = m.decl.params.head? := by
  obtain ⟨hpre, hlen⟩ := h
  cases types with
  | nil =>
    cases m with
    | findById => rfl
    | findByIdTran | findByTran | findBy => simp [Member.decl] at hlen
  | cons ty types =>
    cases m with
    | findById => simp [Member.decl] at hpre
    | findByIdTran | findByTran | findBy =>
      obtain ⟨rfl, -⟩ := List.cons_prefix_cons.mp hpre
      rfl

/-- **No call is ambiguous**: members of one name differ in their first parameter. -/
theorem takes_unique (hname : m.decl.name = m'.decl.name) (hm : m.decl.Takes types)
    (hm' : m'.decl.Takes types) : m = m' := by
  have hhead := (head_of_takes hm).symm.trans (head_of_takes hm')
  cases m <;> cases m' <;> simp [Member.decl] at hname hhead ⊢

/-- What is called is the member that can be. -/
theorem resolve_eq_some_iff :
    resolve name types = some m ↔ m.decl.name = name ∧ m.decl.Takes types := by
  constructor
  · intro h
    simpa using List.find?_some h
  · rintro ⟨rfl, hm⟩
    cases h : resolve m.decl.name types with
    | none =>
      have hno := List.find?_eq_none.mp h m (by cases m <;> simp)
      simp [hm] at hno
    | some m' =>
      have hm' : m'.decl.name = m.decl.name ∧ m'.decl.Takes types := by
        simpa using List.find?_some h
      rw [takes_unique hm'.1 hm'.2 hm]

theorem call_of_takes (n : Nat) (hm : m.decl.Takes (args.map Arg.type)) :
    call k c cn (n + 1) w m.decl.name args =
      body k c cn (call k c cn n) w m (m.decl.arguments args) := by
  have hres : resolve m.decl.name (args.map Arg.type) = some m := resolve_eq_some_iff.mpr ⟨rfl, hm⟩
  rw [call, hres]
  rfl

/-- A call that does not compile. -/
theorem call_eq_none (h : ∀ m : Member, m.decl.name = name → ¬ m.decl.Takes (args.map Arg.type))
    (n : Nat) : call k c cn n w name args = none := by
  cases n with
  | zero => rfl
  | succ n =>
    have hres : resolve name (args.map Arg.type) = none := by
      rw [Option.eq_none_iff_forall_ne_some]
      intro m hm
      obtain ⟨hname, htakes⟩ := resolve_eq_some_iff.mp hm
      exact h m hname htakes
    rw [call, hres]
    rfl

theorem body_mono {call call' : World → Name → List Arg → Option (World × Ret)} {r : World × Ret}
    (hcalls : ∀ w name args r, call w name args = some r → call' w name args = some r)
    (h : body k c cn call w m args = some r) : body k c cn call' w m args = some r := by
  unfold body at h ⊢
  split at h
  · exact h
  · exact h
  · obtain ⟨r', hr', hout⟩ := Option.map_eq_some_iff.mp h
    exact Option.map_eq_some_iff.mpr ⟨r', hcalls _ _ _ _ hr', hout⟩
  · obtain ⟨r', hr', hout⟩ := Option.map_eq_some_iff.mp h
    exact Option.map_eq_some_iff.mpr ⟨r', hcalls _ _ _ _ hr', hout⟩
  · cases h

/-- A call that comes back does so, and in the same way, when there may be more calls in one
    another. -/
theorem call_mono {n n' : Nat} {r : World × Ret} (hle : n ≤ n')
    (h : call k c cn n w name args = some r) : call k c cn n' w name args = some r := by
  -- by the calls in one another: the bodies do not count them
  induction n generalizing n' w name args r with
  | zero => cases h
  | succ n ih =>
    cases n' with
    | zero => cases hle
    | succ n' =>
      rw [call] at h ⊢
      obtain ⟨m, hm, hbody⟩ := Option.bind_eq_some_iff.mp h
      refine Option.bind_eq_some_iff.mpr ⟨m, hm, body_mono ?_ hbody⟩
      intro w name args r
      exact ih (Nat.le_of_succ_le_succ hle)

theorem call_unique {n n' : Nat} {r r' : World × Ret} (h : call k c cn n w name args = some r)
    (h' : call k c cn n' w name args = some r') : r = r' := by
  have hmax := call_mono (Nat.le_max_left n n') h
  rw [call_mono (Nat.le_max_right n n') h'] at hmax
  exact (Option.some.inj hmax).symm

theorem types_ints (is : List Int) :
    (is.map Arg.int).map Arg.type = List.replicate is.length .int := by
  rw [List.map_map]
  exact List.map_const' ..

theorem takes_ints_iff (is : List Int) :
    Member.findBy.decl.Takes ((is.map Arg.int).map Arg.type) ↔ 1 ≤ is.length ∧ is.length ≤ 5 := by
  have hparams : Member.findBy.decl.params = List.replicate 5 .int := rfl
  have hoptional : Member.findBy.decl.optional = 4 := rfl
  rw [types_ints, Decl.Takes, hparams, hoptional, List.prefix_replicate_iff]
  simp
  omega

theorem takes_tran_ints_iff (t : Nat) (is : List Int) :
    Member.findByTran.decl.Takes ((Arg.tran t :: is.map Arg.int).map Arg.type) ↔
      1 ≤ is.length ∧ is.length ≤ 5 := by
  have hparams : Member.findByTran.decl.params = .tran :: List.replicate 5 .int := rfl
  have hoptional : Member.findByTran.decl.optional = 4 := rfl
  rw [List.map_cons, types_ints, Decl.Takes, hparams, hoptional, Arg.type, List.cons_prefix_cons,
    List.prefix_replicate_iff]
  simp
  omega

/-- Five numbers, those that are not given being `-1`. -/
theorem arguments_ints {is : List Int} (h : is.length ≤ 5) :
    ∃ field1 field2 field3 field4 field5 : Int,
      is ++ List.replicate (5 - is.length) (-1) = [field1, field2, field3, field4, field5] := by
  have hlen : (is ++ List.replicate (5 - is.length) (-1)).length = 5 := by
    simp [h]
  generalize is ++ List.replicate (5 - is.length) (-1) = js at hlen
  match js, hlen with
  | [field1, field2, field3, field4, field5], _ =>
    exact ⟨field1, field2, field3, field4, field5, rfl⟩

/-! ## `find_by` without a transaction -/

/-- **It never comes back**, however often it calls itself: five numbers are no `tran &`. -/
theorem call_findBy_ints (n : Nat) (is : List Int) :
    call k c cn n w .findBy (is.map .int) = none := by
  -- by the calls in one another: the one inside is the same call again
  induction n generalizing w is with
  | zero => rfl
  | succ n ih =>
    by_cases htakes : Member.findBy.decl.Takes ((is.map Arg.int).map Arg.type)
    · have hcall := @call_of_takes k c cn w _ _ n htakes
      obtain ⟨field1, field2, field3, field4, field5, hfive⟩ :=
        arguments_ints ((takes_ints_iff is).mp htakes).2
      have hargs : Member.findBy.decl.arguments (is.map .int) =
          [field1, field2, field3, field4, field5].map .int := by
        rw [← hfive, List.map_append, List.map_replicate]
        simp [Decl.arguments, Member.decl]
      rw [hargs] at hcall
      refine hcall.trans ?_
      -- what is called again are five numbers
      have hagain := @ih w.newTran.1 [field1, field2, field3, field4, field5]
      simp only [List.map_cons, List.map_nil] at hagain
      simp only [List.map_cons, List.map_nil, body, hagain, Option.map_none]
    · refine call_eq_none ?_ _
      intro m hname hm
      cases m with
      | findById | findByIdTran => cases hname
      | findBy => exact htakes hm
      | findByTran =>
        have hhead := head_of_takes hm
        cases is with
        | nil => cases hhead
        | cons i is => cases hhead

/-! ## With a transaction -/

theorem start_log (t : Nat) :
    ∃ es, (w.start cn t).1.log = w.log ++ es ∧ .onLoad ∉ es := by
  unfold World.start
  dsimp only
  split
  · exact ⟨[], by simp, by simp⟩
  · split
    · exact ⟨[.start t cn.begins], rfl, by simp⟩
    · exact ⟨[.start t cn.begins], rfl, by simp⟩

/-- A query does not call `on_load`. -/
theorem query_log (t : Nat) (sql : Text) (r : List Var × Ret) :
    ∃ es, (w.query cn t sql r).1.log = w.log ++ es ∧ .onLoad ∉ es := by
  obtain ⟨es, hlog, hno⟩ := @start_log cn w t
  -- closed, or not begun, or asked
  unfold World.query
  split
  · exact ⟨[], by simp, by simp⟩
  · split
    · rename_i w' h
      rw [h] at hlog
      exact ⟨es, hlog, hno⟩
    · rename_i w' h
      rw [h] at hlog
      refine ⟨es ++ [.query t sql], ?_, by simp [hno]⟩
      dsimp only [World.record] at hlog ⊢
      rw [hlog, List.append_assoc]

/-- The other `find_by_id` and `find_by`: **one call of `on_load` if it returns true**. -/
theorem loaded_query (t : Nat) (sql : Text) (r : List Var × Ret) :
    ∃ w' ret es, World.loaded (w.query cn t sql r) = (w', ret) ∧ w'.log = w.log ++ es ∧
      es.count .onLoad = if ret = .yes then 1 else 0 := by
  obtain ⟨es, hlog, hno⟩ := @query_log cn w t sql r
  have hzero := List.count_eq_zero.mpr hno
  rcases hquery : w.query cn t sql r with ⟨w', ret⟩
  rw [hquery] at hlog
  cases ret with
  | yes =>
    refine ⟨_, _, es ++ [.onLoad], rfl, ?_, by simp [hzero]⟩
    dsimp only [World.record] at hlog ⊢
    rw [hlog, List.append_assoc]
  | no | thrown => exact ⟨_, _, es, rfl, hlog, by simp [hzero]⟩

theorem call_findByIdTran (n t : Nat) :
    call k c cn (n + 1) w .findById [.tran t] =
      (VarHelper.findById k c (w.trans t).useExc cn.answers w.helper.findById.2 w.vars).map fun r =>
        World.loaded ({ w with helper := w.helper.findById.1 }.query cn t w.helper.findById.2 r) :=
  @call_of_takes k c cn w [.tran t] .findByIdTran n (show Decl.Takes ⟨_, [.tran], 0⟩ [.tran] by decide)

/-- It needs a variable for the id, and no more. -/
theorem findById_isSome {db : Database Text} {useExc : Bool} {sql : Text} {vars : List Var}
    (h : vars ≠ []) : ∃ r, VarHelper.findById k c useExc db sql vars = some r := by
  unfold VarHelper.findById
  cases vars with
  | nil => exact absurd rfl h
  | cons id vs =>
    dsimp only
    split <;> exact ⟨_, rfl⟩

/-- `find_by_id` with a transaction. -/
theorem findByIdTran_right_iff (t : Nat) :
    Right k c cn w .findById [.tran t] ↔ w.vars ≠ [] := by
  constructor
  · rintro ⟨n, w', ret, es, hcall, -⟩ hnil
    cases n with
    | zero => cases hcall
    | succ n =>
      rw [call_findByIdTran, hnil] at hcall
      cases hcall
  · intro hne
    obtain ⟨r, hr⟩ := @findById_isSome k c cn.answers (w.trans t).useExc w.helper.findById.2 w.vars hne
    obtain ⟨w', ret, es, hout, hlog, hcount⟩ := @loaded_query cn
      { w with helper := w.helper.findById.1 } t w.helper.findById.2 r
    refine ⟨1, w', ret, es, ?_, hlog, hcount, fun hno => absurd (by simp [Arg.type]) hno⟩
    rw [call_findByIdTran, hr, Option.map_some, hout]

/-- `find_by` with a transaction, whatever is selected. -/
theorem findByTran_right_iff (t : Nat) (is : List Int) :
    Right k c cn w .findBy (.tran t :: is.map .int) ↔ 1 ≤ is.length ∧ is.length ≤ 5 := by
  rw [← takes_tran_ints_iff t]
  constructor
  · rintro ⟨n, w', ret, es, hcall, -⟩
    by_contra htakes
    rw [call_eq_none] at hcall
    · cases hcall
    · intro m hname hm
      cases m with
      | findById | findByIdTran => cases hname
      | findByTran => exact htakes hm
      | findBy => cases head_of_takes hm
  · intro htakes
    have hcall := @call_of_takes k c cn w _ _ 0 htakes
    obtain ⟨field1, field2, field3, field4, field5, hfive⟩ :=
      arguments_ints ((takes_tran_ints_iff t is).mp htakes).2
    have hargs : Member.findByTran.decl.arguments (.tran t :: is.map .int) =
        .tran t :: [field1, field2, field3, field4, field5].map .int := by
      rw [← hfive, List.map_append, List.map_replicate]
      simp [Decl.arguments, Member.decl]
    obtain ⟨r, hr⟩ : ∃ r, VarHelper.findBy k c (w.trans t).useExc cn.answers
        (w.helper.findBy field1 field2 field3 field4 field5).2 field1 field2 field3 field4 field5
        w.vars = some r := by
      unfold VarHelper.findBy
      dsimp only
      split <;> exact ⟨_, rfl⟩
    obtain ⟨w', ret, es, hout, hlog, hcount⟩ := @loaded_query cn
      { w with helper := (w.helper.findBy field1 field2 field3 field4 field5).1 } t
      (w.helper.findBy field1 field2 field3 field4 field5).2 r
    refine ⟨1, w', ret, es, ?_, hlog, hcount, fun hno => absurd (by simp [Arg.type]) hno⟩
    refine hcall.trans ?_
    rw [hargs]
    simp only [List.map_cons, List.map_nil, body]
    rw [hr, Option.map_some, hout]

/-! ## `find_by_id` without a transaction -/

/-- The row that SQLite gives, if it gives one, has a value that a variable does not take. -/
def NotLoaded (c : Casts) (vars : List Var) (ans : Option Answer) : Prop :=
  ∀ fds, VarHelper.rowFields c ans = some fds → ¬ VarHelper.TakesAll vars fds

theorem findById_yes_iff {useExc : Bool} {sql : Text} {vars : List Var} {r : List Var × Ret}
    (h : VarHelper.findById k c useExc cn.answers sql vars = some r) :
    r.2 ≠ .yes ↔ NotLoaded c vars (VarHelper.foundById useExc cn.answers sql vars) := by
  have hanswer : r = (vars, .thrown) ∧ VarHelper.foundById useExc cn.answers sql vars = none ∨
      r = VarHelper.load k c useExc (VarHelper.foundById useExc cn.answers sql vars) vars := by
    unfold VarHelper.findById at h
    unfold VarHelper.foundById
    cases vars with
    | nil => cases h
    | cons id vs =>
      dsimp only at h
      cases hparams : setParam useExc [] 1 id with
      | none =>
        rw [hparams] at h
        cases h
        exact .inl ⟨rfl, by simp [hparams]⟩
      | some params =>
        rw [hparams] at h
        cases h
        exact .inr (by simp [hparams])
  rcases hanswer with ⟨rfl, hnone⟩ | hload
  · rw [hnone]
    refine iff_of_true (by simp) ?_
    intro fds hfds
    cases hfds
  · rw [hload, Ne, VarHelper.load_yes_iff, NotLoaded]
    simp

/-- What becomes of its query, for which `r` is found: both of the two call `on_load`. -/
def World.found (cn : Connection) (w : World) (t : Nat) (sql : Text) (r : List Var × Ret) : World × Ret :=
  let (w, ret) := loaded (loaded (w.query cn t sql r))
  (w.destroy cn t, ret)

theorem call_findById (n : Nat) :
    call k c cn (n + 2) w .findById [] =
      (VarHelper.findById k c true cn.answers w.helper.findById.2 w.vars).map
        ({ w.newTran.1 with helper := w.helper.findById.1 }.found cn (w.tranId + 1)
          w.helper.findById.2) := by
  have htakes : Member.findById.decl.Takes ([].map Arg.type) :=
    ⟨List.nil_prefix, Nat.le_refl _⟩
  have ht : (w.newTran.1.trans (w.tranId + 1)).useExc = true := by
    simp [World.newTran]
  have hinner := @call_findByIdTran k c cn w.newTran.1 n (w.tranId + 1)
  rw [ht] at hinner
  refine (@call_of_takes k c cn w [] _ (n + 1) htakes).trans ?_
  -- the name and the transaction lead to the other member
  show (call k c cn (n + 1) w.newTran.1 .findById [.tran (w.tranId + 1)]).map _ = _
  rw [hinner, Option.map_map]
  rfl

/-- What is seen of it, and what it returns, when `ret` is what comes of the query. -/
def seen (cn : Connection) (t : Nat) (sql : Text) (ret : Ret) : List Event × Ret :=
  if cn.opened = false then ([.tran t], .thrown)
  else if cn.begins = false ∧ cn.useExc = true then ([.tran t, .start t cn.begins], .thrown)
  else
    ([.tran t, .start t cn.begins, .query t sql] ++ (if ret = .yes then [.onLoad, .onLoad] else []) ++
      [.commit t cn.ends], ret)

theorem found_log {t : Nat} {log : List Event} (sql : Text) (r : List Var × Ret)
    (ht : w.trans t = ⟨⟨none, false, true, false⟩, true⟩) (hlog : w.log = log ++ [.tran t]) :
    (w.found cn t sql r).1.log = log ++ (seen cn t sql r.2).1 ∧
      (w.found cn t sql r).2 = (seen cn t sql r.2).2 := by
  unfold seen
  split
  · rename_i hclosed
    simp [World.found, World.query, hclosed, ht, World.loaded, World.destroy, hlog]
  · rename_i hopened
    split
    · rename_i hfails
      simp [World.found, World.query, World.start, hopened, hfails, ht, World.loaded, World.destroy,
        World.record, hlog]
    · rename_i hbegins
      rcases r with ⟨vars, ret⟩
      cases ret <;>
        simp [World.found, World.query, World.start, hopened, hbegins, ht, World.loaded, World.destroy,
          World.record, hlog]

/-- If SQLite is asked for the row, it is in the transaction, and gives none that is loaded. -/
theorem seen_right_iff (t : Nat) (sql : Text) (ret : Ret) :
    ((seen cn t sql ret).1.count .onLoad = if (seen cn t sql ret).2 = .yes then 1 else 0) ∧
        Inside [] (seen cn t sql ret).1 ↔
      (cn.opened = true →
        cn.begins = true ∧ ret ≠ .yes ∨ cn.begins = false ∧ cn.useExc = true) := by
  -- the three ways it goes; only the last one gets to the query
  unfold seen
  split
  · rename_i hclosed
    simp [hclosed, Inside, InOpened]
  · rename_i hopened
    split
    · rename_i hfails
      simp [hfails, Inside, InOpened]
    · rename_i hbegins
      cases hdone : cn.begins with
      | true => cases ret <;> simp [hopened, Inside, InOpened]
      | false =>
        have hsilent : cn.useExc = false := by
          simpa [hdone] using hbegins
        cases ret <;> simp [hopened, hsilent, Inside, InOpened]

/-- `find_by_id` without a transaction. -/
theorem findById_right_iff :
    Right k c cn w .findById [] ↔
      w.vars ≠ [] ∧ (cn.opened = true →
        cn.begins = true ∧
            NotLoaded c w.vars (VarHelper.foundById true cn.answers w.helper.findById.2 w.vars) ∨
          cn.begins = false ∧ cn.useExc = true) := by
  cases hr : VarHelper.findById k c true cn.answers w.helper.findById.2 w.vars with
  | none =>
    refine iff_of_false ?_ ?_
    · rintro ⟨n, w', ret, es, hcall, -⟩
      have hmore := call_mono (Nat.le_add_right n 2) hcall
      rw [call_findById, hr] at hmore
      cases hmore
    · intro ⟨hne, _⟩
      obtain ⟨r, hsome⟩ := @findById_isSome k c cn.answers true w.helper.findById.2 w.vars hne
      rw [hsome] at hr
      cases hr
  | some r =>
    have hne : w.vars ≠ [] := by
      intro hnil
      rw [hnil] at hr
      cases hr
    have ht : w.newTran.1.trans (w.tranId + 1) = ⟨⟨none, false, true, false⟩, true⟩ := by
      simp [World.newTran]
    obtain ⟨hlog, hret⟩ := @found_log cn { w.newTran.1 with helper := w.helper.findById.1 }
      (w.tranId + 1) w.log w.helper.findById.2 r ht rfl
    have hcall : call k c cn 2 w .findById [] =
        some ({ w.newTran.1 with helper := w.helper.findById.1 }.found cn (w.tranId + 1)
          w.helper.findById.2 r) := by
      rw [call_findById, hr, Option.map_some]
    rw [and_iff_right hne, ← findById_yes_iff hr, ← seen_right_iff (w.tranId + 1) w.helper.findById.2]
    revert hlog hret hcall
    generalize World.found cn _ _ _ r = out
    rcases out with ⟨w₁, ret₁⟩
    rintro hlog rfl hcall
    constructor
    · rintro ⟨n, w', ret, es, hn, hes, hcount, hinside⟩
      cases call_unique hcall hn
      have hsame := List.append_cancel_left (hlog.symm.trans hes)
      rw [hsame]
      exact ⟨hcount, hinside List.not_mem_nil⟩
    · intro ⟨hcount, hinside⟩
      exact ⟨2, _, _, _, hcall, hlog, hcount, fun _ => hinside⟩

/-- **The finding calls.** With a transaction they are right whenever they can be called,
    `find_by_id` with a variable for the id. Without one `find_by_id` is right as long as nothing
    is loaded and its transaction is not silently left out, and `find_by` is never right. -/
theorem finds_right_iff (k : Conv) (c : Casts) (cn : Connection) (w : World) :
    (∀ t, Right k c cn w .findById [.tran t] ↔ w.vars ≠ []) ∧
    (∀ (t : Nat) (is : List Int),
      Right k c cn w .findBy (.tran t :: is.map .int) ↔ 1 ≤ is.length ∧ is.length ≤ 5) ∧
    (Right k c cn w .findById [] ↔
      w.vars ≠ [] ∧ (cn.opened = true →
        cn.begins = true ∧
            NotLoaded c w.vars (VarHelper.foundById true cn.answers w.helper.findById.2 w.vars) ∨
          cn.begins = false ∧ cn.useExc = true)) ∧
    ∀ is : List Int, ¬ Right k c cn w .findBy (is.map .int) := by
  refine ⟨findByIdTran_right_iff, findByTran_right_iff, findById_right_iff, ?_⟩
  rintro is ⟨n, w', ret, es, hcall, -⟩
  rw [call_findBy_ints] at hcall
  cases hcall

/-- An object with its id, the row of which is there. `on_load` is called twice; and there is no
    end of looking for it by its first variable. -/
theorem finds_fail :
    ∃ (k : Conv) (c : Casts) (cn : Connection) (w : World),
      (∃ w', call k c cn 2 w .findById [] = some (w', .yes) ∧ w'.log.count .onLoad = 2) ∧
      ¬ Right k c cn w .findById [] ∧
      ∀ n, call k c cn n w .findBy [.int 0] = none := by
  refine ⟨⟨fun _ => 0, fun _ => 0, fun _ => 0, fun _ => 0, fun _ => [], fun _ => [], fun _ => 0,
    fun _ => []⟩, noCasts, ⟨true, true, true, true, fun _ _ => some (sampleRow [.integer 1])⟩,
    ⟨[.int64 1], Helper.new "t", 0, fun _ => ⟨⟨none, false, true, false⟩, true⟩, []⟩,
    ⟨_, rfl, ?_⟩, ?_, fun n => call_findBy_ints n [0]⟩
  · decide
  · rw [findById_right_iff]
    intro ⟨_, hloaded⟩
    rcases hloaded rfl with ⟨-, hnot⟩ | ⟨hfails, -⟩
    · apply hnot [some (.int64 1)] rfl
      refine ⟨rfl, ?_⟩
      intro p hp
      cases List.mem_singleton.mp hp
      trivial
    · cases hfails

end Slt3.Query.ObjFind

end CodeSLoop
