import CodeSLoop.Common.Pbuf
import CodeSLoop.Common.Pvlist
import CodeSLoop.Lib.Run
import Mathlib.Logic.Function.Basic

/-!
# `pbuf` as it is read (`common/pbuf.cc`, `common/pbuf.hh`)

The pages of a `pbuf` are in a `pvlist`, and everything that reads them goes from `begin()` to
`end()`: `copy_to`, `operator==`, and `operator=`, which appends the pages of the other one after
it has freed its own. `Pbuf` is what there is without that list (`toPbuf`), and a `Pbuf` is its
bytes.

Objects run here side by side, and the bytes that each should have run next to them (`refines_iff`).
An object that is assigned to itself has freed what it was to read.
-/

namespace CodeSLoop

open Pages

/-- The members of `pbuf`. What is in the pages is counted in `size_`. -/
structure PbufPool where
  bufpool : Pvlist 32 Page8
  size : Nat
  paged : Paged Pbuf.bufSize bufpool.toList
  size_eq : size = bufpool.toList.flatten.length

namespace PbufPool

/-- `pbuf()`, and what `free_all` leaves. -/
def init : PbufPool := ⟨Pvlist.init (by decide), 0, trivial, List.length_nil.symm⟩

/-- The pages without the list. -/
def toPbuf (b : PbufPool) : Pbuf := ⟨b.bufpool.toList, b.size, b.paged, b.size_eq⟩

/-- The bytes stored. -/
def bytes (b : PbufPool) : List UInt8 := b.toPbuf.bytes

/-- `allocate(sz)` with something to store. The page to write to is the last one then. -/
def allocate (pool : Pvlist 32 Page8) : Pvlist 32 Page8 :=
  match pool.last.deref with
  | none => pool.pushBack []
  | some p => if 0 < Pbuf.freeSpace p then pool else pool.pushBack []

/-- The loop of `append`, cut off after `fuel` pages. -/
def appendLoop : Nat → Pvlist 32 Page8 → List UInt8 → Pvlist 32 Page8 × List UInt8
  | 0, pool, dta => (pool, dta)
  | fuel + 1, pool, dta =>
    if dta = [] then (pool, dta)
    else
      let pool := allocate pool
      let p := pool.last.deref.getD []
      let fsp := Pbuf.freeSpace p
      let fsp := if fsp > dta.length then dta.length else fsp
      appendLoop fuel (pool.setLast (p ++ dta.take fsp)) (dta.drop fsp)

/-- The pages are those of `Pbuf`. -/
theorem allocate_toList (pool : Pvlist 32 Page8) :
    (allocate pool).toList = (Pbuf.allocate pool.toList).1 ++ [(Pbuf.allocate pool.toList).2] := by
  unfold allocate
  rw [pool.deref_last]
  rcases List.eq_nil_or_concat' pool.toList with hnil | ⟨ps, p, he⟩
  · rw [hnil]
    exact (pool.toList_pushBack []).trans (by rw [hnil]; rfl)
  · rw [he, Pbuf.allocate, List.getLast?_concat]
    simp only [List.dropLast_concat]
    split
    · exact he
    · exact (pool.toList_pushBack []).trans (by rw [he])

theorem appendLoop_toList {fuel : Nat} : ∀ (pool : Pvlist 32 Page8) (dta : List UInt8),
    (appendLoop fuel pool dta).1.toList = (Pbuf.appendLoop fuel pool.toList dta).1 ∧
      (appendLoop fuel pool dta).2 = (Pbuf.appendLoop fuel pool.toList dta).2 := by
  induction fuel with
  | zero => exact fun pool dta => ⟨rfl, rfl⟩
  | succ fuel ih =>
    intro pool dta
    rw [appendLoop, Pbuf.appendLoop]
    by_cases hd : dta = []
    · rw [if_pos hd, if_pos hd]
      exact ⟨rfl, rfl⟩
    · have hpages := allocate_toList pool
      have hlast : (allocate pool).last.deref.getD [] = (Pbuf.allocate pool.toList).2 := by
        rw [(allocate pool).deref_last, hpages, List.getLast?_concat, Option.getD_some]
      have hset (p : Page8) : ((allocate pool).setLast p).toList =
          (Pbuf.allocate pool.toList).1 ++ [p] := by
        rw [(allocate pool).toList_setLast p (by rw [hpages]; simp), hpages, List.dropLast_concat]
      rw [if_neg hd, if_neg hd]
      simp only [hlast]
      rw [← hset]
      exact ih _ _

/-- `append(dta,sz)`, where `dta` points to `sz` bytes. -/
def append (b : PbufPool) (dta : List UInt8) : PbufPool × Bool :=
  let r := appendLoop dta.length b.bufpool dta
  (⟨r.1, b.size + (dta.length - r.2.length), by
      rw [(appendLoop_toList b.bufpool dta).1]
      exact (b.toPbuf.append dta).1.paged, by
      rw [(appendLoop_toList b.bufpool dta).1, (appendLoop_toList b.bufpool dta).2]
      exact (b.toPbuf.append dta).1.size_eq⟩, r.2.isEmpty)

/-- `append` is that of `Pbuf`. -/
theorem append_toPbuf (b : PbufPool) (dta : List UInt8) :
    (b.append dta).1.bytes = b.bytes ++ dta ∧ (b.append dta).2 = true := by
  obtain ⟨hpages, hrest⟩ := @appendLoop_toList dta.length b.bufpool dta
  have happ := b.toPbuf.append_spec dta
  constructor
  · rw [← show (b.toPbuf.append dta).1.bytes = b.bytes ++ dta from happ.1]
    exact congrArg List.flatten hpages
  · exact (congrArg List.isEmpty hrest).trans happ.2

/-! ## Reading the pages -/

/-- The loop of `copy_to`, cut off after `fuel` pages: what was written from `ptr` on. -/
def copyToLoop : Nat → Pvlist.Iter Page8 → Nat → List UInt8 → Option (List UInt8)
  | 0, _, _, _ => none
  | fuel + 1, it, maxSize, ptr =>
    if it = Pvlist.Iter.stop then some ptr
    else
      match it.deref with
      | none => none
      | some bp =>
        if bp.length = 0 then copyToLoop fuel it.next maxSize ptr
        else if maxSize ≥ bp.length then
          copyToLoop fuel it.next (maxSize - bp.length) (ptr ++ bp)
        else if maxSize = 0 then some ptr
        else some (ptr ++ bp.take maxSize)

/-- `copy_to(ptr,max_size)`: what was written, and what is returned. -/
def copyTo (b : PbufPool) (null : Bool) (maxSize : Nat) : Option (List UInt8 × Bool) :=
  if null then some ([], false)
  else
    let maxSize := if maxSize = 0 then b.size else maxSize
    (copyToLoop (b.bufpool.nItems + 1) b.bufpool.start maxSize []).map (·, true)

/-- The loop of `operator==`, cut off after `fuel` pages. -/
def eqLoop : Nat → Pvlist.Iter Page8 → Pvlist.Iter Page8 → Option Bool
  | 0, _, _ => none
  | fuel + 1, it, thit =>
    if it = Pvlist.Iter.stop then some (decide (thit = Pvlist.Iter.stop))
    else
      match thit.deref, it.deref with
      | some lhbuf, some rhbuf =>
        if lhbuf.length ≠ rhbuf.length then some false
        else if lhbuf ≠ rhbuf then some false
        else eqLoop fuel it.next thit.next
      | _, _ => some false

/-- `operator==`. -/
def eq (b other : PbufPool) : Option Bool :=
  if b.size ≠ other.size then some false
  else eqLoop (other.bufpool.nItems + 1) other.bufpool.start b.bufpool.start

/-- The loop of `operator=`, cut off after `fuel` pages. -/
def assignLoop : Nat → PbufPool → Pvlist.Iter Page8 → Option PbufPool
  | 0, _, _ => none
  | fuel + 1, b, it =>
    if it = Pvlist.Iter.stop then some b
    else
      match it.deref with
      | none => none
      | some p => assignLoop fuel (b.append p).1 it.next

/-- `operator=`, from the same object or another one. The object itself has been freed before it is
    looked at. -/
def assign (same : Bool) (other : PbufPool) : Option PbufPool :=
  let b := init
  let other := if same then b else other
  assignLoop (other.bufpool.nItems + 1) b other.bufpool.start

/-- `pbuf(const pbuf &)`. -/
def copy (other : PbufPool) : Option PbufPool := assign false other

variable {fuel : Nat} {it thit : Pvlist.Iter Page8}

theorem copyToLoop_spec : ∀ {it : Pvlist.Iter Page8} (maxSize : Nat) (ptr : List UInt8), it.Valid →
    it.toList.length < fuel →
      copyToLoop fuel it maxSize ptr = some (ptr ++ it.toList.flatten.take maxSize) := by
  induction fuel with
  | zero => exact fun _ _ _ h => absurd h (Nat.not_lt_zero _)
  | succ fuel ih =>
    intro it maxSize ptr hit hlen
    rcases hit.cases with ⟨rfl, hnil⟩ | ⟨bp, hne, hbp, hlist, hnext⟩
    · rw [copyToLoop, if_pos rfl, hnil, List.flatten_nil, List.take_nil, List.append_nil]
    · rw [hlist, List.length_cons] at hlen
      rw [copyToLoop, if_neg hne, hbp, hlist, List.flatten_cons]
      simp only
      by_cases h0 : bp.length = 0
      · rw [if_pos h0, ih maxSize ptr hnext (by omega), List.length_eq_zero_iff.mp h0, List.nil_append]
      by_cases hle : maxSize ≥ bp.length
      · rw [if_neg h0, if_pos hle, ih _ _ hnext (by omega), List.append_assoc, List.take_append,
          List.take_of_length_le hle]
      · rw [if_neg h0, if_neg hle, List.take_append_of_le_length (by omega)]
        split
        · rename_i hmax
          rw [hmax, List.take_zero, List.append_nil]
        · rfl

theorem eqLoop_spec : ∀ {it thit : Pvlist.Iter Page8}, it.Valid → thit.Valid → it.toList.length < fuel →
    eqLoop fuel it thit = some (decide (thit.toList = it.toList)) := by
  induction fuel with
  | zero => exact fun _ _ h => absurd h (Nat.not_lt_zero _)
  | succ fuel ih =>
    intro it thit hit hthit hlen
    rcases hit.cases with ⟨rfl, hnil⟩ | ⟨r, hne, hr, hlist, hnext⟩
    · rw [eqLoop, if_pos rfl, hnil]
      rcases hthit.cases with ⟨rfl, hnil'⟩ | ⟨x, hne', -, hlist', -⟩
      · rw [hnil', decide_eq_true rfl, decide_eq_true rfl]
      · rw [hlist', decide_eq_false hne', decide_eq_false (List.cons_ne_nil _ _)]
    · rw [hlist, List.length_cons] at hlen
      rw [eqLoop, if_neg hne, hr, hlist]
      rcases hthit.cases with ⟨rfl, hnil'⟩ | ⟨x, -, hx, hlist', hnext'⟩
      · rw [hnil', decide_eq_false (List.cons_ne_nil _ _).symm]
        rfl
      · rw [hx, hlist']
        simp only
        by_cases hxr : x = r
        · rw [hxr, if_neg (not_not.mpr rfl), if_neg (not_not.mpr rfl), ih hnext hnext' (by omega)]
          simp
        · rw [if_pos hxr, ite_self, decide_eq_false fun h => hxr (List.cons.inj h).1]

theorem assignLoop_spec : ∀ {it : Pvlist.Iter Page8} (b : PbufPool), it.Valid → it.toList.length < fuel →
    ∃ b', assignLoop fuel b it = some b' ∧ b'.bytes = b.bytes ++ it.toList.flatten := by
  induction fuel with
  | zero => exact fun _ _ h => absurd h (Nat.not_lt_zero _)
  | succ fuel ih =>
    intro it b hit hlen
    rcases hit.cases with ⟨rfl, hnil⟩ | ⟨p, hne, hp, hlist, hnext⟩
    · refine ⟨b, by rw [assignLoop, if_pos rfl], ?_⟩
      rw [hnil, List.flatten_nil, List.append_nil]
    · rw [hlist, List.length_cons] at hlen
      obtain ⟨b', hb', hbytes⟩ := ih (b.append p).1 hnext (by omega)
      refine ⟨b', ?_, ?_⟩
      · rw [assignLoop, if_neg hne, hp]
        exact hb'
      · rw [hbytes, (b.append_toPbuf p).1, hlist, List.flatten_cons, List.append_assoc]

variable (b other : PbufPool)

theorem size_eq_bytes : b.size = b.bytes.length := b.size_eq

theorem fuel_start : b.bufpool.start.toList.length < b.bufpool.nItems + 1 := by
  rw [b.bufpool.start_spec.2, b.bufpool.nItems_eq_length]
  exact Nat.lt_succ_self _

/-- **`copy_to`** delivers the first bytes, and all of them for no limit. -/
theorem copyTo_spec (maxSize : Nat) :
    b.copyTo false maxSize = some (b.bytes.take (if maxSize = 0 then b.bytes.length else maxSize), true) := by
  obtain ⟨hvalid, hlist⟩ := b.bufpool.start_spec
  rw [copyTo, if_neg Bool.false_ne_true]
  simp only
  rw [copyToLoop_spec _ _ hvalid b.fuel_start, hlist, ← size_eq_bytes]
  rfl

/-- **`operator==`** is the equality of the bytes. -/
theorem eq_spec : b.eq other = some (decide (b.bytes = other.bytes)) := by
  obtain ⟨hvalid, hlist⟩ := b.bufpool.start_spec
  obtain ⟨hvalid', hlist'⟩ := other.bufpool.start_spec
  have hpages : b.bufpool.toList = other.bufpool.toList ↔ b.bytes = other.bytes :=
    ⟨congrArg List.flatten, b.paged.eq_of_flatten (by decide) other.paged⟩
  unfold eq
  by_cases hsize : b.size = other.size
  · rw [if_neg (not_not.mpr hsize), eqLoop_spec hvalid' hvalid other.fuel_start, hlist, hlist']
    exact congrArg some (decide_eq_decide.mpr hpages)
  · rw [if_pos hsize, decide_eq_false]
    intro h
    rw [b.size_eq_bytes, other.size_eq_bytes, h] at hsize
    exact hsize rfl

/-- **`operator=`** copies the other object, and frees itself. -/
theorem assign_spec (same : Bool) :
    ∃ b', assign same other = some b' ∧ b'.bytes = if same then [] else other.bytes := by
  cases same with
  | true => exact ⟨init, rfl, rfl⟩
  | false =>
    obtain ⟨hvalid, hlist⟩ := other.bufpool.start_spec
    obtain ⟨b', hb', hbytes⟩ := assignLoop_spec init hvalid other.fuel_start
    rw [hlist] at hbytes
    exact ⟨b', hb', hbytes⟩

/-! ## Objects, and the bytes they should have -/

variable {ι : Type} [DecidableEq ι]

/-- What is done to objects. `copy` makes the first one anew. -/
inductive Op (ι : Type)
  | append (i : ι) (dta : List UInt8)
  | assign (i j : ι)
  | copy (i j : ι)

def exec (σ : ι → PbufPool) : Op ι → Option (ι → PbufPool)
  | .append i dta => some (Function.update σ i ((σ i).append dta).1)
  | .assign i j => (assign (decide (i = j)) (σ j)).map (Function.update σ i)
  | .copy i j => (copy (σ j)).map (Function.update σ i)

/-- The same on byte strings. -/
def execBytes (β : ι → List UInt8) : Op ι → ι → List UInt8
  | .append i dta => Function.update β i (β i ++ dta)
  | .assign i j | .copy i j => Function.update β i (β j)

/-- Whatever can be asked of the objects, they answer as byte strings would. -/
def Answers (σ : ι → PbufPool) (β : ι → List UInt8) : Prop :=
  ∀ i, (σ i).size = (β i).length ∧
    (∀ maxSize, (σ i).copyTo false maxSize =
      some ((β i).take (if maxSize = 0 then (β i).length else maxSize), true)) ∧
    ∀ j, (σ i).eq (σ j) = some (decide (β i = β j))

/-- They do, now and after each of the operations. -/
def Refines (σ : ι → PbufPool) (β : ι → List UInt8) : List (Op ι) → Prop
  | [] => Answers σ β
  | op :: ops => Answers σ β ∧ ∃ σ', exec σ op = some σ' ∧ Refines σ' (execBytes β op) ops

/-- Nothing that has bytes is assigned to itself. -/
def Harmless (β : ι → List UInt8) : Op ι → Prop
  | .assign i j => i = j → β i = []
  | .append _ _ | .copy _ _ => True

def AllHarmless (β : ι → List UInt8) : List (Op ι) → Prop
  | [] => True
  | op :: ops => Harmless β op ∧ AllHarmless (execBytes β op) ops

variable {σ σ' : ι → PbufPool} {β : ι → List UInt8} {op : Op ι}

omit [DecidableEq ι] in
/-- The answers are those of the bytes, and tell all of them. -/
theorem answers_iff : Answers σ β ↔ ∀ i, (σ i).bytes = β i := by
  constructor
  · intro h i
    have hall := (h i).2.1 0
    rw [copyTo_spec, if_pos rfl, if_pos rfl, List.take_length, List.take_length] at hall
    exact (Prod.mk.inj (Option.some.inj hall)).1
  · intro h i
    refine ⟨?_, fun maxSize => ?_, fun j => ?_⟩
    · rw [size_eq_bytes, h]
    · rw [copyTo_spec, h]
    · rw [eq_spec, h, h]

/-- **One operation**, on objects with these bytes: it returns, and all is well if and only if it is
    harmless. -/
theorem exec_spec (h : ∀ i, (σ i).bytes = β i) (op : Op ι) :
    ∃ σ', exec σ op = some σ' ∧ ((∀ i, (σ' i).bytes = execBytes β op i) ↔ Harmless β op) := by
  have hupdate {i : ι} {b : PbufPool} {bs : List UInt8} (hb : b.bytes = bs) (k : ι) :
      (Function.update σ i b k).bytes = Function.update β i bs k := by
    by_cases hk : k = i
    · subst hk
      rw [Function.update_self, Function.update_self, hb]
    · rw [Function.update_of_ne hk, Function.update_of_ne hk, h]
  cases op with
  | append i dta =>
    refine ⟨_, rfl, iff_of_true (hupdate ?_) trivial⟩
    rw [(append_toPbuf _ _).1, h]
  | assign i j =>
    obtain ⟨b', hb', hbytes⟩ := assign_spec (σ j) (decide (i = j))
    refine ⟨_, by rw [exec, hb']; rfl, ?_⟩
    by_cases hij : i = j
    · subst hij
      rw [decide_eq_true rfl, if_pos rfl] at hbytes
      constructor
      · intro hgood _
        have hi := hgood i
        rw [Function.update_self, hbytes, execBytes, Function.update_self] at hi
        exact hi.symm
      · intro hharmless
        refine hupdate ?_
        rw [hbytes, hharmless rfl]
    · rw [decide_eq_false hij, if_neg Bool.false_ne_true, h] at hbytes
      exact iff_of_true (hupdate hbytes) fun he => absurd he hij
  | copy i j =>
    obtain ⟨b', hb', hbytes⟩ := assign_spec (σ j) false
    rw [if_neg Bool.false_ne_true, h] at hbytes
    exact ⟨_, by rw [exec, copy, hb']; rfl, iff_of_true (hupdate hbytes) trivial⟩

theorem refines_iff_of_bytes : ∀ {σ : ι → PbufPool} {β : ι → List UInt8} (ops : List (Op ι)),
    (∀ i, (σ i).bytes = β i) → (Refines σ β ops ↔ AllHarmless β ops) := by
  intro σ β ops
  induction ops generalizing σ β with
  | nil => exact fun h => iff_of_true (answers_iff.mpr h) trivial
  | cons op ops ih =>
    intro h
    obtain ⟨σ', hσ', hiff⟩ := exec_spec h op
    rw [Refines, AllHarmless, ← hiff]
    constructor
    · rintro ⟨-, σ'', hσ'', hrest⟩
      cases hσ'.symm.trans hσ''
      have hgood : ∀ i, (σ' i).bytes = execBytes β op i := by
        refine answers_iff.mp ?_
        cases ops with
        | nil => exact hrest
        | cons op' ops => exact hrest.1
      exact ⟨hgood, (ih hgood).mp hrest⟩
    · rintro ⟨hgood, hrest⟩
      exact ⟨answers_iff.mpr h, σ', hσ', (ih hgood).mpr hrest⟩

/-- **Objects refine byte strings** in exactly the runs in which no object that has bytes is
    assigned to itself: for all sequences of operations, and data of all sizes. -/
theorem refines_iff (ops : List (Op ι)) :
    Refines (fun _ => init) (fun _ => []) ops ↔ AllHarmless (fun _ => []) ops :=
  refines_iff_of_bytes ops fun _ => rfl

/-- A byte, and the object assigned to itself. -/
theorem refines_fails : ¬ Refines (fun _ : Unit => init) (fun _ => []) [.append () [7], .assign () ()] := by
  intro h
  have hharmless := (refines_iff_of_bytes (β := fun _ => []) _ fun _ => rfl).mp h
  cases hharmless.2.1 rfl

end PbufPool

end CodeSLoop
