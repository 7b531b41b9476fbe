import CodeSLoop.Common.InpvecPushed
import Mathlib.Data.List.Enum

/-!
# The generators of INSERT statements (`db/driver.cc`, `db/dummy/driver.cc`, `db/mysql/driver.cc`)

`INSERT_INTO(t).VAL(c,v).VAL(…).GO()` collects columns in an `inpvec`, and `GO` makes a statement of
them, binds the arguments and executes it. The statement is kept: a second `GO` binds and executes
again. `INSERT_INTO` takes another table and drops the statement.

It does not drop the columns, which are all those that were ever given. `VAL` does not drop the
statement, which has the parameters of the columns that there were when it was made. And `GO` goes
through the columns with `next_used()`, which passes over what is in the second page. So a `GO`
does what it should when the columns are the first ones that this generator was given, no more
than 64, and the same as at the `GO` before; `generator_iff` says that this is so at every `GO` of
every run.

The two drivers differ in the placeholders, and in what they do with an index that is not one of
the statement's: the dummy prints it, mysql throws `rs_invalid_param`. The server is taken to
prepare and execute what it is given, with a parameter for each placeholder.
-/

namespace CodeSLoop

open Lts Inpvec

universe u

namespace Db

namespace Syntax

/-- The two drivers. -/
inductive Dialect
  | dummy | mysql
deriving DecidableEq

/-- `insert_column::item`. An argument is the variable that is pointed to. -/
structure Item (α : Type u) where
  column : String
  arg : α
deriving DecidableEq

/-- The query, in its parts. -/
structure Insert where
  table : String
  columns : List String
  bound : List String
deriving DecidableEq

/-- The text that is prepared. -/
def Insert.query (q : Insert) : String :=
  "INSERT INTO " ++ q.table ++ " ( " ++ ", ".intercalate q.columns ++ " ) VALUES ( " ++
    ", ".intercalate q.bound ++ " )"

/-- `generator`, with its `insert_column`. -/
structure Generator (α : Type u) where
  tableName : String
  items : Inpvec (Item α)
  statement : Option Insert

namespace Generator

variable {α : Type u}

def init : Generator α := ⟨"", Inpvec.init, none⟩

/-- `INSERT_INTO(table)`. -/
def insertInto (g : Generator α) (table : String) : Generator α :=
  { g with tableName := table, statement := none }

/-- `VAL(column_name,value)`. -/
def val (g : Generator α) (column : String) (arg : α) : Option (Generator α) :=
  (g.items.pushBack ⟨column, arg⟩).map fun r => { g with items := r.1 }

/-- `while( (i=it.next_used()) != 0 )`: the items, with `it.get_pos()`. -/
def rest (fuel : Nat) (v : Inpvec (Item α)) : Option (List (Nat × Item α)) :=
  (v.visit fuel v.begin).bind fun r => r.1.mapM fun e => (v.deref e.2).map (e.1.gpos, ·)

/-- The placeholder of the column at a position. -/
def placeholder (d : Dialect) (pos : Nat) : String :=
  match d with
  | .dummy => ":param" ++ toString (pos + 1)
  | .mysql => "?"

/-- `// calculate statement`. -/
def calculate (d : Dialect) (table : String) (i : Item α) (is : List (Nat × Item α)) : Insert where
  table := table
  columns := i.column :: is.map fun e => e.2.column
  bound := placeholder d 0 :: is.map fun e => placeholder d e.1

/-- What comes of `GO`: the statement is executed with what is bound, an index is refused, or a null
    pointer is used. -/
inductive Outcome (α : Type u)
  | executed (q : Insert) (binds : List (Nat × Item α))
  | thrown
  | null
deriving DecidableEq

/-- `const_bind` throws for this index. -/
def refused (d : Dialect) (q : Insert) (which : Nat) : Bool :=
  d = .mysql && (which < 1 || which > q.bound.length)

/-- `GO()`; `fuel` is for the loops. -/
def go (d : Dialect) (fuel : Nat) (g : Generator α) : Option (Outcome α × Generator α) :=
  if g.items.nItems > 0 then
    match (g.items.star g.items.begin).bind g.items.deref with
    | none => some (.null, g)
    | some i =>
      (rest fuel g.items).map fun is =>
        let q := g.statement.getD (calculate d g.tableName i is)
        let binds := (1, i) :: is.map fun e => (e.1 + 1, e.2)
        (if binds.any fun b => refused d q b.1 then .thrown else .executed q binds,
          { g with statement := some q })
  else
    match g.statement with
    | none => some (.null, g)
    | some q => some (.executed q [], g)

end Generator

/-! ## Runs -/

/-- The calls. -/
inductive Call (α : Type u)
  | insertInto (table : String)
  | val (column : String) (arg : α)
  | go

/-- What was called: the last table, the columns before it and since, and how many there were at the
    first `GO` since. -/
structure History (α : Type u) where
  table : Option String
  old : List (Item α)
  vals : List (Item α)
  prepared : Option Nat

namespace History

variable {α : Type u}

def init : History α := ⟨none, [], [], none⟩

def note (h : History α) : Call α → History α
  | .insertInto t => ⟨some t, h.old ++ h.vals, [], none⟩
  | .val c a => { h with vals := h.vals ++ [⟨c, a⟩] }
  | .go => { h with prepared := some (h.prepared.getD h.vals.length) }

/-- All columns. -/
def all (h : History α) : List (Item α) := h.old ++ h.vals

/-- What `GO` is to do: execute a statement with the last table, the columns that were given for it,
    and a placeholder for each, the arguments being bound in their order. The text of the statement
    has the table, the columns and the placeholders. -/
def Asked (h : History α) (o : Generator.Outcome α) : Prop :=
  ∃ t q, h.table = some t ∧ o = .executed q (h.vals.zipIdx 1 |>.map Prod.swap) ∧
    q.table = t ∧ q.columns = h.vals.map Item.column ∧ q.bound.length = h.vals.length ∧
    q.query = "INSERT INTO " ++ t ++ " ( " ++ ", ".intercalate (h.vals.map Item.column) ++
      " ) VALUES ( " ++ ", ".intercalate q.bound ++ " )"

/-- When it does: there is a table, no column was given before it, those given since are between
    one and 64, and they are the ones that there were at the first `GO`. -/
structure Ready (h : History α) : Prop where
  table : h.table ≠ none
  old : h.old = []
  some_val : h.vals ≠ []
  few : h.vals.length ≤ 64
  same : ∀ n ∈ h.prepared, n = h.vals.length

end History

/-- A generator and its past. -/
structure World (α : Type u) where
  gen : Generator α
  past : History α

namespace World

variable {α : Type u}

def init : World α := ⟨.init, .init⟩

/-- A call that comes back. -/
inductive Step (d : Dialect) : World α → Call α → World α → Prop
  | insertInto (w : World α) (t : String) :
    Step d w (.insertInto t) ⟨w.gen.insertInto t, w.past.note (.insertInto t)⟩
  | val {w : World α} {c : String} {a : α} {g : Generator α} :
    w.gen.val c a = some g → Step d w (.val c a) ⟨g, w.past.note (.val c a)⟩
  | go {w : World α} {fuel : Nat} {o : Generator.Outcome α} {g : Generator α} :
    w.gen.go d fuel = some (o, g) → o ≠ .null → Step d w .go ⟨g, w.past.note .go⟩

end World

/-! ## Walks -/

section Walk

variable {α : Type u} {β : Type u} {v : Inpvec (Item α)} {xs : List (Item α)} {i : Item α}
variable {is : List (Nat × Item α)} {d : Dialect}

/-- Values that are a function of their keys. -/
theorem eq_of_keys {f : Nat → Option β} : ∀ {l l' : List (Nat × β)}, (∀ e ∈ l, f e.1 = some e.2) →
    (∀ e ∈ l', f e.1 = some e.2) → l.map Prod.fst = l'.map Prod.fst → l = l'
  | [], [], _, _, _ => rfl
  | [], _ :: _, _, _, h => by cases h
  | _ :: _, [], _, _, h => by cases h
  | (k, x) :: l, (k', x') :: l', hl, hl', h => by
    obtain ⟨rfl, hrest⟩ : k = k' ∧ l.map Prod.fst = l'.map Prod.fst := List.cons.inj h
    have hx : some x = some x' := (hl _ (List.mem_cons_self ..)).symm.trans (hl' _ (List.mem_cons_self ..))
    cases hx
    rw [eq_of_keys (fun e he => hl e (List.mem_cons_of_mem _ he))
      (fun e he => hl' e (List.mem_cons_of_mem _ he)) hrest]

/-- What the loops of `GO` come to in a vector with these items. -/
structure Walked (xs : List (Item α)) (i : Item α) (is : List (Nat × Item α)) : Prop where
  head : xs.head? = some i
  items : ∀ e ∈ is, xs[e.1]? = some e.2
  keys : is.map Prod.fst = List.range' 1 (xs.length - 1) ↔ xs.length ≤ 64

theorem walked (h : Pushed v xs) (hne : xs ≠ []) : ∃ fuel i is,
    (v.star v.begin).bind v.deref = some i ∧ Generator.rest fuel v = some is ∧ Walked xs i is := by
  obtain ⟨hbegin, hstar⟩ := h.star_begin hne
  obtain ⟨fuel, l, hvisit, hplace, hkeys⟩ := h.visit
  obtain ⟨i, hi⟩ : ∃ i, xs.head? = some i := by
    rw [← Option.isSome_iff_exists, List.isSome_head?]
    simpa using hne
  have hmap : ∀ l : List (Iter × Ptr), (∀ e ∈ l, v.deref e.2 = xs[e.1.gpos]? ∧ e.1.gpos < xs.length) →
      ∃ is, (l.mapM fun e => (v.deref e.2).map (e.1.gpos, ·)) = some is ∧
        is.map Prod.fst = l.map (fun e => e.1.gpos) ∧ ∀ e ∈ is, xs[e.1]? = some e.2 := by
    intro l hl
    induction l with
    | nil => exact ⟨[], rfl, rfl, nofun⟩
    | cons e l ih =>
      obtain ⟨is, his, hfst, hitems⟩ := ih fun e he => hl e (List.mem_cons_of_mem _ he)
      obtain ⟨hderef, hlt⟩ := hl e (List.mem_cons_self ..)
      rw [List.getElem?_eq_getElem hlt] at hderef
      refine ⟨(e.1.gpos, xs[e.1.gpos]) :: is, ?_, ?_, ?_⟩
      · rw [List.mapM_cons, hderef, his]
        rfl
      · rw [List.map_cons, List.map_cons, hfst]
      · intro e' he'
        rcases List.mem_cons.mp he' with rfl | he'
        · exact List.getElem?_eq_getElem hlt
        · exact hitems e' he'
  obtain ⟨is, his, hfst, hitems⟩ := hmap l hplace
  refine ⟨fuel, i, is, hstar.trans hi, ?_, hi, hitems, by rw [hfst, hkeys]⟩
  rw [Generator.rest, hbegin, hvisit]
  exact his

/-- The bindings that a walk leads to. -/
def binds (i : Item α) (is : List (Nat × Item α)) : List (Nat × Item α) :=
  (1, i) :: is.map fun e => (e.1 + 1, e.2)

/-- The bindings that there should be. -/
def numbered (xs : List (Item α)) : List (Nat × Item α) := (xs.zipIdx 1).map Prod.swap

theorem fst_numbered (xs : List (Item α)) : (numbered xs).map Prod.fst = List.range' 1 xs.length := by
  rw [numbered, List.map_map]
  exact List.zipIdx_map_snd 1 xs

theorem snd_numbered (xs : List (Item α)) : (numbered xs).map Prod.snd = xs := by
  rw [numbered, List.map_map]
  exact List.zipIdx_map_fst 1 xs

theorem fst_binds (i : Item α) (is : List (Nat × Item α)) :
    (binds i is).map Prod.fst = 1 :: (is.map Prod.fst).map (· + 1) := by
  rw [binds, List.map_cons, List.map_map, List.map_map]
  rfl

/-- **All are bound** to their numbers when they are few. -/
theorem Walked.binds_iff (h : Walked xs i is) : binds i is = numbered xs ↔ xs.length ≤ 64 := by
  have hpos : 0 < xs.length := by
    cases xs with
    | nil => exact absurd h.head (by simp)
    | cons x xs => exact Nat.zero_lt_succ _
  have hrange : List.range' 1 xs.length = 1 :: (List.range' 1 (xs.length - 1)).map (· + 1) := by
    obtain ⟨n, hn⟩ : ∃ n, xs.length = n + 1 := ⟨xs.length - 1, by omega⟩
    have hshift : (List.range' 1 n).map (· + 1) = List.range' 2 n := by
      rw [show (fun k => k + 1) = fun k => 1 + k from funext fun k => Nat.add_comm k 1]
      exact List.map_add_range' ..
    rw [hn, Nat.add_sub_cancel, hshift, List.range'_succ]
  rw [← h.keys]
  constructor
  · intro heq
    have hfst := congrArg (List.map Prod.fst) heq
    rw [fst_binds, fst_numbered, hrange, List.cons.injEq] at hfst
    exact List.map_injective_iff.mpr (add_left_injective 1) hfst.2
  · intro hkeys
    refine @eq_of_keys _ (fun k => xs[k - 1]?) _ _ ?_ ?_ ?_
    · intro e he
      rcases List.mem_cons.mp he with rfl | he
      · exact List.head?_eq_getElem? ▸ h.head
      · obtain ⟨e', he', rfl⟩ := List.mem_map.mp he
        exact h.items e' he'
    · intro e he
      obtain ⟨⟨x, k⟩, hx, rfl⟩ := List.mem_map.mp he
      exact (List.mk_mem_zipIdx_iff_le_and_getElem?_sub.mp hx).2
    · rw [fst_binds, fst_numbered, hrange, hkeys]

theorem columns_calculate (d : Dialect) (t : String) (i : Item α) (is : List (Nat × Item α)) :
    (Generator.calculate d t i is).columns = ((binds i is).map Prod.snd).map Item.column ∧
      (Generator.calculate d t i is).bound.length = (binds i is).length := by
  constructor
  · rw [Generator.calculate, binds, List.map_cons, List.map_map, List.map_cons, List.map_map]
    rfl
  · rw [Generator.calculate, binds, List.length_cons, List.length_cons, List.length_map, List.length_map]

/-- A statement that is made of few has them all. -/
theorem Walked.calculate (h : Walked xs i is) (hle : xs.length ≤ 64) (d : Dialect) (t : String) :
    (Generator.calculate d t i is).columns = xs.map Item.column ∧
      (Generator.calculate d t i is).bound.length = xs.length := by
  obtain ⟨hcols, hbound⟩ := columns_calculate d t i is
  have hall := h.binds_iff.mpr hle
  rw [hcols, hbound, hall, snd_numbered]
  refine ⟨rfl, ?_⟩
  rw [numbered, List.length_map, List.length_zipIdx]

end Walk

/-! ## GO -/

section Go

variable {α : Type u} {w w' : World α} {d : Dialect} {a : Call α} {i : Item α} {is : List (Nat × Item α)}
variable {r r' : Generator.Outcome α × Generator α} {fuel fuel' : Nat}

/-- Of a generator and its past: all columns are there, and the statement has the columns that there
    were when it was made. -/
structure Sound (w : World α) : Prop where
  items : Pushed w.gen.items w.past.all
  table : w.gen.tableName = w.past.table.getD ""
  none_iff : w.gen.statement = none ↔ w.past.prepared = none
  made : ∀ q ∈ w.gen.statement, ∀ n ∈ w.past.prepared, w.past.all ≠ [] ∧ n ≤ w.past.vals.length ∧
    q.table = w.gen.tableName ∧ (w.past.old = [] → n ≤ 64 →
      q.columns = (w.past.vals.take n).map Item.column ∧ q.bound.length = n)

theorem sound_init : Sound (World.init : World α) where
  items := pushed_init
  table := rfl
  none_iff := iff_of_true rfl rfl
  made := nofun

/-- The walk does not depend on how much fuel there is. -/
theorem rest_unique {v : Inpvec (Item α)} {l l' : List (Nat × Item α)} (h : Generator.rest fuel v = some l)
    (h' : Generator.rest fuel' v = some l') : l = l' := by
  obtain ⟨s, hs, hl⟩ := Option.bind_eq_some_iff.mp h
  obtain ⟨s', hs', hl'⟩ := Option.bind_eq_some_iff.mp h'
  rw [visit_unique hs hs'] at hl
  exact Option.some.inj (hl.symm.trans hl')

/-- The statement that `GO` executes. -/
def World.query (d : Dialect) (w : World α) (i : Item α) (is : List (Nat × Item α)) : Insert :=
  w.gen.statement.getD (Generator.calculate d w.gen.tableName i is)

/-- What it comes to. -/
def World.outcome (d : Dialect) (w : World α) (i : Item α) (is : List (Nat × Item α)) :
    Generator.Outcome α :=
  if (binds i is).any fun b => Generator.refused d (w.query d i is) b.1 then .thrown
  else .executed (w.query d i is) (binds i is)

/-- Without columns there is no statement. -/
theorem Sound.go_nil (h : Sound w) (hnil : w.past.all = []) :
    w.gen.go d fuel = some (.null, w.gen) := by
  have h0 : ¬ w.gen.items.nItems > 0 := by
    rw [h.items.nItems, hnil]
    exact Nat.lt_irrefl 0
  rw [Generator.go, if_neg h0]
  cases hs : w.gen.statement with
  | none => rfl
  | some q =>
    cases hp : w.past.prepared with
    | none => rw [h.none_iff.mpr hp] at hs; cases hs
    | some n => exact absurd hnil (h.made q hs n hp).1

/-- **`GO` with columns**: what it does is determined by the walk, which ends. -/
theorem Sound.go_cons (h : Sound w) (hne : w.past.all ≠ []) (d : Dialect) :
    ∃ i is, Walked w.past.all i is ∧
      (∃ fuel, w.gen.go d fuel =
        some (w.outcome d i is, { w.gen with statement := some (w.query d i is) })) ∧
      ∀ fuel r, w.gen.go d fuel = some r →
        r = (w.outcome d i is, { w.gen with statement := some (w.query d i is) }) := by
  obtain ⟨fuel, i, is, hi, his, hw⟩ := walked h.items hne
  have hpos : w.gen.items.nItems > 0 := by
    rw [h.items.nItems]
    exact List.length_pos_of_ne_nil hne
  have hgo : ∀ fuel, w.gen.go d fuel = (Generator.rest fuel w.gen.items).map fun is =>
      (w.outcome d i is, { w.gen with statement := some (w.query d i is) }) := by
    intro fuel
    rw [Generator.go, if_pos hpos, hi]
    rfl
  refine ⟨i, is, hw, ⟨fuel, by rw [hgo, his]; rfl⟩, fun fuel' r hr => ?_⟩
  rw [hgo] at hr
  obtain ⟨is', his', rfl⟩ := Option.map_eq_some_iff.mp hr
  rw [rest_unique his his']

theorem Sound.step (h : Sound w) (hs : World.Step d w a w') : Sound w' := by
  cases hs with
  | insertInto t =>
    have hall : w.past.all = (w.past.note (.insertInto t)).all := (List.append_nil _).symm
    exact ⟨hall ▸ h.items, rfl, iff_of_true rfl rfl, nofun⟩
  | @val c b g hval =>
    obtain ⟨⟨v, x⟩, hpush, rfl⟩ := Option.map_eq_some_iff.mp hval
    have hall : (w.past.note (.val c b)).all = w.past.all ++ [⟨c, b⟩] := (List.append_assoc ..).symm
    refine ⟨hall ▸ h.items.push hpush, h.table, h.none_iff, fun q hq n hn => ?_⟩
    obtain ⟨-, hle, htable, hfew⟩ := h.made q hq n hn
    refine ⟨by rw [hall]; simp, ?_, htable, fun hold hn => ?_⟩
    · change n ≤ (w.past.vals ++ [_]).length
      rw [List.length_append]
      exact Nat.le_add_right_of_le hle
    · change q.columns = ((w.past.vals ++ [_]).take n).map Item.column ∧ _
      rw [List.take_append_of_le_length hle]
      exact hfew hold hn
  | @go fuel o g hgo hnull =>
    have hne : w.past.all ≠ [] := by
      intro hnil
      rw [h.go_nil hnil] at hgo
      cases hgo
      exact hnull rfl
    obtain ⟨i, is, hw, -, huniq⟩ := h.go_cons hne d
    cases huniq fuel _ hgo
    refine ⟨h.items, h.table, iff_of_false (Option.some_ne_none _) (Option.some_ne_none _), ?_⟩
    intro q hq n hn
    cases hq
    cases hs : w.gen.statement with
    | some q =>
      -- the one that there was
      obtain ⟨m, hm⟩ := Option.ne_none_iff_exists'.mp fun h0 =>
        Option.some_ne_none q (hs.symm.trans (h.none_iff.mpr h0))
      have hn : n = m := by
        have hnote : (w.past.note .go).prepared = some m := by rw [History.note, hm]; rfl
        exact Option.some.inj (hn.symm.trans hnote)
      rw [World.query, hs, hn]
      exact h.made q hs m hm
    | none =>
      have hn : n = w.past.vals.length := by
        have hnote : (w.past.note .go).prepared = some w.past.vals.length := by
          rw [History.note, h.none_iff.mp hs]
          rfl
        exact Option.some.inj (hn.symm.trans hnote)
      rw [World.query, hs, hn]
      refine ⟨hne, Nat.le_refl _, rfl, fun hold hle => ?_⟩
      have hold : w.past.old = [] := hold
      have hall : w.past.all = w.past.vals := by rw [History.all, hold, List.nil_append]
      rw [hall] at hw
      rw [show (w.past.note .go).vals = w.past.vals from rfl, List.take_length]
      exact hw.calculate hle d _

/-- Outcomes that are as asked. -/
theorem asked_iff : w.past.Asked (w.outcome d i is) ↔
    ∃ t, w.past.table = some t ∧ w.outcome d i is = .executed (w.query d i is) (numbered w.past.vals) ∧
      (w.query d i is).table = t ∧ (w.query d i is).columns = w.past.vals.map Item.column ∧
      (w.query d i is).bound.length = w.past.vals.length := by
  constructor
  · rintro ⟨t, q, ht, ho, htable, hcols, hbound, -⟩
    have hq : q = w.query d i is := by
      rw [World.outcome] at ho
      split at ho
      · cases ho
      · exact (Generator.Outcome.executed.inj ho).1.symm
    exact ⟨t, ht, hq ▸ ho, hq ▸ htable, hq ▸ hcols, hq ▸ hbound⟩
  · rintro ⟨t, ht, ho, htable, hcols, hbound⟩
    exact ⟨t, _, ht, ho, htable, hcols, hbound, by rw [Insert.query, htable, hcols]⟩

/-- The table of the statement is the last one. -/
theorem Sound.query_table (h : Sound w) : (w.query d i is).table = w.past.table.getD "" := by
  rw [World.query, ← h.table]
  cases hs : w.gen.statement with
  | none => rfl
  | some q =>
    obtain ⟨n, hn⟩ := Option.ne_none_iff_exists'.mp fun h0 =>
      Option.some_ne_none q (hs.symm.trans (h.none_iff.mpr h0))
    exact (h.made q hs n hn).2.2.1

/-- Its columns, when no others were given before. -/
theorem Sound.query_columns (h : Sound w) (hw : Walked w.past.all i is) (hold : w.past.old = [])
    (hle : w.past.vals.length ≤ 64) :
    (w.query d i is).columns =
        (w.past.vals.take (w.past.prepared.getD w.past.vals.length)).map Item.column ∧
      (w.query d i is).bound.length = w.past.prepared.getD w.past.vals.length := by
  have hall : w.past.all = w.past.vals := by rw [History.all, hold, List.nil_append]
  rw [hall] at hw
  rw [World.query]
  cases hs : w.gen.statement with
  | none =>
    rw [h.none_iff.mp hs, Option.getD_none, Option.getD_none, List.take_length]
    exact hw.calculate hle d _
  | some q =>
    obtain ⟨n, hn⟩ := Option.ne_none_iff_exists'.mp fun h0 =>
      Option.some_ne_none q (hs.symm.trans (h.none_iff.mpr h0))
    obtain ⟨-, hn64, -, hfew⟩ := h.made q hs n hn
    rw [hn, Option.getD_some, Option.getD_some]
    exact hfew hold (Nat.le_trans hn64 hle)

/-- Numbers up to the number of placeholders are not refused. -/
theorem not_refused {q : Insert} {xs : List (Item α)} (h : q.bound.length = xs.length) :
    ¬ (numbered xs).any (fun b => Generator.refused d q b.1) = true := by
  rw [List.any_eq_true]
  rintro ⟨b, hb, hrefused⟩
  have hkey : b.1 ∈ List.range' 1 xs.length := by
    rw [← fst_numbered]
    exact List.mem_map_of_mem hb
  rw [List.mem_range'_1] at hkey
  rw [Generator.refused, h] at hrefused
  simp only [Bool.and_eq_true, Bool.or_eq_true, decide_eq_true_eq] at hrefused
  omega

theorem Sound.asked_of_ready (h : Sound w) (hw : Walked w.past.all i is) (hr : w.past.Ready) :
    w.past.Asked (w.outcome d i is) := by
  obtain ⟨t, ht⟩ := Option.ne_none_iff_exists'.mp hr.table
  have hall : w.past.all = w.past.vals := by rw [History.all, hr.old, List.nil_append]
  obtain ⟨hcols, hbound⟩ := h.query_columns (d := d) hw hr.old hr.few
  have hsame : w.past.prepared.getD w.past.vals.length = w.past.vals.length := by
    cases hp : w.past.prepared with
    | none => rfl
    | some n => exact hr.same n hp
  rw [hsame] at hcols hbound
  rw [List.take_length] at hcols
  have hbinds : binds i is = numbered w.past.vals := by
    rw [hall] at hw
    exact hw.binds_iff.mpr hr.few
  refine asked_iff.mpr ⟨t, ht, ?_, ?_, hcols, hbound⟩
  · rw [World.outcome, hbinds, if_neg (not_refused hbound)]
  · rw [h.query_table, ht]
    rfl

/-- The other direction, where arguments are told apart. -/
theorem Sound.ready_of_asked (h : Sound w) (hw : Walked w.past.all i is)
    (hnd : (w.past.all.map Item.arg).Nodup) (ha : w.past.Asked (w.outcome d i is)) : w.past.Ready := by
  obtain ⟨t, ht, ho, -, hcols, hbound⟩ := asked_iff.mp ha
  have hbinds : binds i is = numbered w.past.vals := by
    rw [World.outcome] at ho
    split at ho
    · cases ho
    · exact (Generator.Outcome.executed.inj ho).2
  obtain ⟨x, xs, hvals⟩ : ∃ x xs, w.past.vals = x :: xs := by
    cases hv : w.past.vals with
    | nil => rw [hv] at hbinds; cases hbinds
    | cons x xs => exact ⟨x, xs, rfl⟩
  -- what is bound first is the first column of all
  have hold : w.past.old = [] := by
    cases hold : w.past.old with
    | nil => rfl
    | cons y ys =>
      have hhead := hw.head
      rw [hvals] at hbinds
      rw [History.all, hold, hvals] at hhead hnd
      cases hhead
      cases (List.cons.inj hbinds).1
      rw [List.cons_append, List.map_cons, List.map_append, List.map_cons, List.nodup_cons] at hnd
      exact absurd (List.mem_append_right _ (List.mem_cons_self ..)) hnd.1
  have hall : w.past.all = w.past.vals := by rw [History.all, hold, List.nil_append]
  have hfew : w.past.vals.length ≤ 64 := by
    rw [hall] at hw
    exact hw.binds_iff.mp hbinds
  refine ⟨by rw [ht]; exact Option.some_ne_none t, hold, by rw [hvals]; exact List.cons_ne_nil _ _, hfew, ?_⟩
  intro n hn
  have hlen := (h.query_columns (d := d) hw hold hfew).2
  rw [hn, Option.getD_some, hbound] at hlen
  exact hlen.symm

end Go

/-! ## Every run -/

variable {α : Type u}

/-- **What `GO` does in every run**: it comes to an end, always the same, and does what was asked
if the columns are the first ones of this generator, from 1 to 64, and the same as at the `GO`
before; with arguments that are told apart, only if they are. -/
theorem generator_iff {d : Dialect} {tr : List (Call α × World α)}
    (h : Run (World.Step d) World.init tr) : ∃ o : Generator.Outcome α,
    (∃ fuel g, (last World.init tr).gen.go d fuel = some (o, g)) ∧
    (∀ fuel r, (last World.init tr).gen.go d fuel = some r → r.1 = o) ∧
    ((last World.init tr).past.Ready → (last World.init tr).past.Asked o) ∧
    (((last World.init tr).past.all.map Item.arg).Nodup →
      ((last World.init tr).past.Asked o ↔ (last World.init tr).past.Ready)) := by
  have hs : Sound (last World.init tr) := h.last_of_inv (fun w a w' hw hstep => hw.step hstep) sound_init
  by_cases hne : (last World.init tr).past.all = []
  · refine ⟨.null, ⟨0, _, hs.go_nil hne⟩, fun fuel r hr => ?_, fun hr => ?_, fun _ => ?_⟩
    · rw [hs.go_nil hne] at hr
      cases hr
      rfl
    · exact absurd (List.append_eq_nil_iff.mp hne).2 hr.some_val
    · refine iff_of_false ?_ fun hr => hr.some_val (List.append_eq_nil_iff.mp hne).2
      rintro ⟨t, q, -, ho, -⟩
      cases ho
  · obtain ⟨i, is, hw, ⟨fuel, hgo⟩, huniq⟩ := hs.go_cons hne d
    refine ⟨_, ⟨fuel, _, hgo⟩, fun fuel r hr => ?_, fun hr => hs.asked_of_ready hw hr, fun hnd => ?_⟩
    · rw [huniq fuel r hr]
    · exact ⟨fun ha => hs.ready_of_asked hw hnd ha, fun hr => hs.asked_of_ready hw hr⟩

/-- Calls for a run. -/
def World.call (d : Dialect) (w : World α) : Call α → Option (Call α × World α)
  | .insertInto t => some (.insertInto t, ⟨w.gen.insertInto t, w.past.note (.insertInto t)⟩)
  | .val c a => (w.gen.val c a).map fun g => (.val c a, ⟨g, w.past.note (.val c a)⟩)
  | .go => (w.gen.go d 70).bind fun r =>
    match r.1 with
    | .null => none
    | _ => some (.go, ⟨r.2, w.past.note .go⟩)

theorem World.run_of_calls {d : Dialect} {as : List (Call α)} {tr : List (Call α × World α)} {w : World α}
    (h : Lts.replay (World.call d) w as = some tr) : Run (World.Step d) w tr := by
  refine Lts.run_of_replay (fun w a e he => ?_) as h
  cases a with
  | insertInto t =>
    cases he
    exact .insertInto w t
  | val c a =>
    obtain ⟨g, hg, rfl⟩ := Option.map_eq_some_iff.mp he
    exact .val hg
  | go =>
    obtain ⟨⟨o, g⟩, hgo, he⟩ := Option.bind_eq_some_iff.mp he
    cases o with
    | null => cases he
    | executed q bs =>
      cases he
      exact .go hgo (fun h => by cases h)
    | thrown =>
      cases he
      exact .go hgo (fun h => by cases h)

/-- Two columns, executed twice. -/
def helloCalls : List (Call Nat) := [.insertInto "hello_table", .val "f1" 1, .val "f2" 2, .go]

theorem generator_iff_hello : ∃ tr, tr.map Prod.fst = helloCalls ∧ ∃ o : Generator.Outcome Nat,
    (last World.init tr).past.Asked o ∧ ∃ fuel g, (last World.init tr).gen.go .dummy fuel = some (o, g) := by
  have hr := World.run_of_calls (Option.some_get
    (show (Lts.replay (World.call .dummy) World.init helloCalls).isSome = true by decide)).symm
  obtain ⟨o, ⟨fuel, g, hgo⟩, -, -, hiff⟩ := generator_iff hr
  refine ⟨_, by rfl, o, (hiff (by decide)).mpr ?_, fuel, g, hgo⟩
  exact ⟨by decide, by rfl, by decide, by decide, fun n hn => by cases hn; rfl⟩

/-- A generator that is used again: the second statement has the first column too. -/
def againCalls : List (Call Nat) := [.insertInto "a", .val "x" 1, .go, .insertInto "b", .val "y" 2]

theorem generator_fails : ∃ tr, Run (World.Step .dummy) (World.init : World Nat) tr ∧
    tr.map Prod.fst = againCalls ∧ ∃ fuel o g, (last World.init tr).gen.go .dummy fuel = some (o, g) ∧
      ¬ (last World.init tr).past.Asked o := by
  have hr := World.run_of_calls (Option.some_get
    (show (Lts.replay (World.call .dummy) World.init againCalls).isSome = true by decide)).symm
  have hs := hr.last_of_inv (fun w a w' hw hstep => Sound.step hw hstep) sound_init
  obtain ⟨i, is, hw, ⟨fuel, hgo⟩, -⟩ := hs.go_cons (by decide) .dummy
  refine ⟨_, hr, by rfl, fuel, _, _, hgo, fun ha => ?_⟩
  exact absurd (hs.ready_of_asked hw (by decide) ha).old (by decide)

end Syntax

end Db

end CodeSLoop
