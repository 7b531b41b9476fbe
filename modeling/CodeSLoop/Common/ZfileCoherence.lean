import CodeSLoop.Common.ZfileStreams
import CodeSLoop.Lib.Run
import Mathlib.Logic.Function.Basic

/-!
# The two buffers of a `zfile` belong together

When both have something, the compressed data should be a stream for the data. Most operations see
to that by dropping what the other buffer has, or fill the one from the other. The forms of
`put_data` and `put_zdata` with a `pbuf` do not drop anything, and what they are given is lost when
it is the buffer that they put it in; the pointer forms free the pages before they read, which is
too early when the pointer is into one of them. And `get_data` may leave less than there is in the
stream. Runs without these are coherent (`coherence`).

`operator==` compares the data, or the compressed data where there is none; it takes its own
compressed size for that of the other one.
-/

namespace CodeSLoop

open Zstream

namespace Zfile

/-! ## Comparing and assigning -/

/-- A block of memory: what has been written to it. -/
abbrev Block := List (Option UInt8)

/-- A block from the pool. -/
def allocate (n : Nat) : Block := List.replicate n none

/-- `get_data_common`, which copies all there is. It is undefined when that is too much. -/
def getDataCommon (blk : Block) (b : Pbuf) : Option Block :=
  if b.bytes.length ≤ blk.length then some (b.bytes.map some ++ blk.drop b.bytes.length) else none

/-- `memcmp(p,q,n)==0` for blocks of this size, undefined where nothing has been written. -/
def memcmp : Block → Block → Option Bool
  | [], [] => some true
  | some x :: p, some y :: q => if x = y then memcmp p q else some false
  | _, _ => none

/-- `operator==`. -/
def eq (zf other : Zfile) : Option Bool :=
  let s1 := zf.pData.size
  let s2 := other.pData.size
  if s1 ≠ s2 then some false
  else if s1 ≠ 0 then do
    let p1 ← getDataCommon (allocate s1) zf.pData
    let p2 ← getDataCommon (allocate s2) other.pData
    memcmp p1 p2
  else
    let s1 := zf.pZdata.size
    let s2 := zf.pZdata.size
    if s1 ≠ s2 then some false
    else if s1 = 0 then some true
    else do
      let p1 ← getDataCommon (allocate s1) zf.pZdata
      let p2 ← getDataCommon (allocate s2) other.pZdata
      memcmp p1 p2

/-- `operator=`; is it the same object? -/
def assign (same : Bool) (zf other : Zfile) : Zfile :=
  if other.pZdata.size ≠ 0 then
    ({ zf with pZdata := copyPbuf same other.pZdata } : Zfile).dropData.1
  else if 0 < other.pData.size then
    ({ zf with pData := copyPbuf same other.pData } : Zfile).dropZdata.1
  else zf.dropData.1.dropZdata.1

/-! ## Runs -/

/-- The operations on one `zfile`. A pointer can be into a page of its own: then the bytes are put
    that are found there when the page is free (`freed`). -/
inductive Op
  | putData (d : List UInt8)
  | putDataPage (d freed : List UInt8)
  | putDataPbuf (dta : Arg)
  | putZdata (z : List UInt8)
  | putZdataPage (z freed : List UInt8)
  | putZdataPbuf (dta : Arg)
  | getData
  | getZdata
  | dropData
  | dropZdata
  | readFile (f : Option (List (List UInt8)))
  | readZfile (f : Option (List (List UInt8)))

/-- What is done to one of several, or when one is assigned to another. -/
inductive Act (ι : Type)
  | op (i : ι) (o : Op)
  | assign (i j : ι)

section Runs

variable (I : Inflater UInt8) (D : Deflater UInt8) (F : Format UInt8)

def Op.exec (fuel : Nat) (zf : Zfile) : Op → Option Zfile
  | putData d => some (zf.putData d).1
  | putDataPage d freed => if freed.length = d.length then some (zf.putData freed).1 else none
  | putDataPbuf dta => some (zf.putDataPbuf dta).1
  | putZdata z => some (zf.putZdata z).1
  | putZdataPage z freed => if freed.length = z.length then some (zf.putZdata freed).1 else none
  | putZdataPbuf dta => some (zf.putZdataPbuf dta).1
  | getData => (Zfile.getData I fuel zf).map (·.1)
  | getZdata => (Zfile.getZdata D fuel zf).map (·.1)
  | dropData => some zf.dropData.1
  | dropZdata => some zf.dropZdata.1
  | readFile f => some (zf.readFile f).1
  | readZfile f => some (zf.readZfile f).1

variable {ι : Type} [DecidableEq ι]

/-- A step of the program that has the `zfile`s. -/
def Step (s : ι → Zfile) : Act ι → (ι → Zfile) → Prop
  | .op i o, s' => ∃ fuel zf, o.exec I D fuel (s i) = some zf ∧ s' = Function.update s i zf
  | .assign i j, s' => s' = Function.update s i ((s i).assign (i = j) (s j))

/-- When both buffers have something, the one is a stream for the other. -/
def Coherent (zf : Zfile) : Prop :=
  zf.pData.bytes ≠ [] → zf.pZdata.bytes ≠ [] →
    F.Complete zf.pZdata.bytes ∧ F.plain zf.pZdata.bytes = zf.pData.bytes

/-- What is put in a buffer of its own belongs to what is in the other one, and is not what that
    buffer itself has; no pointer is into a page; and no part of the compressed data is held back,
    and no error in it, when the data is made from it. -/
def Op.Ok (zf : Zfile) : Op → Prop
  | putDataPage d _ => d = []
  | putDataPbuf dta => (dta = .data → zf.pData.bytes = []) ∧ Coherent F ⟨dta.pbuf zf, zf.pZdata⟩
  | putZdataPage z _ => z = []
  | putZdataPbuf dta => Coherent F ⟨zf.pData, dta.pbuf zf⟩
  | getData => zf.pData.bytes ≠ [] ∨ zf.pZdata.bytes = [] ∨
      I.RejectsAll Pbuf.bufSize zf.pZdata.pages ∨ I.DrainsAll Pbuf.bufSize zf.pZdata.pages
  | _ => True

def Act.Ok (s : ι → Zfile) : Act ι → Prop
  | op i o => o.Ok I F (s i)
  | assign _ _ => True

end Runs

/-! ## Every state is coherent -/

section Coherence

variable {I : Inflater UInt8} {D : Deflater UInt8} {F : Format UInt8} {bound : Nat → Nat}
  {zf zf' : Zfile} {d : List UInt8} {fuel : Nat}

theorem coherent_of_data_nil (h : zf.pData.bytes = []) : Coherent F zf := fun hd => absurd h hd

theorem coherent_of_zdata_nil (h : zf.pZdata.bytes = []) : Coherent F zf :=
  fun _ hz => absurd h hz

/-- `get_data` when nothing of the stream is held back, or there is nothing to do. -/
theorem Coherent.ensureFile {b : Bool} (hI : I.Lawful F) (h : Coherent F zf)
    (hok : Op.getData.Ok I F zf) (hr : ensureFile I fuel zf = some (zf', b)) : Coherent F zf' := by
  by_cases hd : zf.pData.bytes = []
  · by_cases hz : zf.pZdata.bytes = []
    · rw [ensureFile_empty hd hz] at hr
      cases hr
      exact h
    · cases b with
      | false =>
        rw [(ensureFile_false hI hd hz hr).1]
        exact coherent_of_data_nil rfl
      | true =>
        obtain ⟨hsame, haccepted, hiff⟩ := ensureFile_true hI hd hz hr
        rcases hok with hd' | hz' | hrej | hdr
        · exact absurd hd hd'
        · exact absurd hz' hz
        · exact absurd hrej haccepted
        · intro _ _
          rw [hsame]
          obtain ⟨hc, hb⟩ := hiff.mp hdr
          exact ⟨hc, hb.symm⟩
  · rw [ensureFile_data hd] at hr
    cases hr
    exact h

theorem Coherent.ensureZfile {b : Bool} (hD : D.Lawful F bound) (h : Coherent F zf)
    (hr : ensureZfile D fuel zf = some (zf', b)) : Coherent F zf' := by
  by_cases hz : zf.pZdata.bytes = []
  · by_cases hd : zf.pData.bytes = []
    · rw [ensureZfile_empty hd hz] at hr
      cases hr
      exact h
    · obtain ⟨zf'', -, honly, hdata, hc, hp⟩ := ensureZfile_spec hD hd hz
      cases honly fuel _ hr
      intro _ _
      rw [hdata]
      exact ⟨hc, hp⟩
  · rw [ensureZfile_zdata hz] at hr
    cases hr
    exact h

theorem coherent_putData (h : Coherent F zf) (d : List UInt8) : Coherent F (zf.putData d).1 := by
  by_cases hd : d = []
  · rw [putData, if_pos hd]
    exact h
  · rw [putData_eq hd]
    exact coherent_of_zdata_nil rfl

theorem coherent_putZdata (h : Coherent F zf) (z : List UInt8) : Coherent F (zf.putZdata z).1 := by
  by_cases hz : z = []
  · rw [putZdata, if_pos hz]
    exact h
  · rw [putZdata_eq hz]
    exact coherent_of_data_nil rfl

/-- A buffer is not lost when it is put where it was not. -/
theorem putDataPbuf_eq {dta : Arg} (h : dta = .data → zf.pData.bytes = [])
    (hs : 0 < (dta.pbuf zf).size) : (zf.putDataPbuf dta).1 = ⟨dta.pbuf zf, zf.pZdata⟩ := by
  have hne : dta ≠ .data := by
    rintro rfl
    rw [Arg.pbuf, size_eq_zero.mpr (h rfl)] at hs
    cases hs
  rw [putDataPbuf, if_pos hs, copyPbuf, decide_eq_false hne, if_neg Bool.false_ne_true]

/-- One operation. -/
theorem Coherent.exec (hI : I.Lawful F) (hD : D.Lawful F bound) (h : Coherent F zf) {o : Op}
    (hok : o.Ok I F zf) (he : o.exec I D fuel zf = some zf') : Coherent F zf' := by
  -- a call fills one of the buffers and empties the other, or fills the second from the first
  cases o with
  | putData d =>
    cases he
    exact coherent_putData h d
  | putDataPage d freed =>
    rw [Op.exec, Option.ite_none_right_eq_some] at he
    cases he.2
    exact coherent_putData h freed
  | putDataPbuf dta =>
    cases he
    by_cases hs : 0 < (dta.pbuf zf).size
    · rw [putDataPbuf_eq hok.1 hs]
      exact hok.2
    · rw [Zfile.putDataPbuf, if_neg hs]
      exact h
  | putZdata z =>
    cases he
    exact coherent_putZdata h z
  | putZdataPage z freed =>
    rw [Op.exec, Option.ite_none_right_eq_some] at he
    cases he.2
    exact coherent_putZdata h freed
  | putZdataPbuf dta =>
    cases he
    rw [Zfile.putZdataPbuf]
    split
    · rw [copyPbuf]
      split
      · exact coherent_of_zdata_nil rfl
      · exact hok
    · exact h
  | getData =>
    obtain ⟨r, hr, rfl⟩ := Option.map_eq_some_iff.mp he
    obtain ⟨r', hr', rfl⟩ := Option.map_eq_some_iff.mp hr
    exact h.ensureFile hI hok hr'
  | getZdata =>
    obtain ⟨r, hr, rfl⟩ := Option.map_eq_some_iff.mp he
    obtain ⟨r', hr', rfl⟩ := Option.map_eq_some_iff.mp hr
    exact h.ensureZfile hD hr'
  | dropData =>
    cases he
    exact coherent_of_data_nil rfl
  | dropZdata =>
    cases he
    exact coherent_of_zdata_nil rfl
  | readFile f =>
    cases he
    cases f with
    | none => exact h
    | some f => exact coherent_of_zdata_nil rfl
  | readZfile f =>
    cases he
    cases f with
    | none => exact h
    | some f => exact coherent_of_data_nil rfl

/-- One of the buffers is empty after an assignment. -/
theorem coherent_assign (same : Bool) (other : Zfile) : Coherent F (zf.assign same other) := by
  unfold assign
  split
  · exact coherent_of_data_nil rfl
  · split
    · exact coherent_of_zdata_nil rfl
    · exact coherent_of_zdata_nil rfl

/-- The operations that put some data. -/
def Op.Puts (zf : Zfile) (d : List UInt8) : Op → Prop
  | putData d' => d' = d
  | putDataPage d' _ => d' = d
  | putDataPbuf dta => (dta.pbuf zf).bytes = d
  | readFile f => f.map List.flatten = some d
  | _ => False

theorem Op.Puts.data {o : Op} (h : o.Puts zf d) (hd : d ≠ []) (hok : o.Ok I F zf)
    (he : o.exec I D fuel zf = some zf') : zf'.pData.bytes = d := by
  cases o with
  | putData d' =>
    cases h
    cases he
    rw [putData_eq hd, Pbuf.bytes_append]
    rfl
  | putDataPage d' freed =>
    cases h
    exact absurd hok hd
  | putDataPbuf dta =>
    cases h
    cases he
    have hpos : 0 < (dta.pbuf zf).size := by
      rw [(dta.pbuf zf).size_eq_bytes]
      exact List.length_pos_iff.mpr hd
    rw [putDataPbuf_eq hok.1 hpos]
  | readFile f =>
    cases f with
    | none => cases h
    | some f =>
      cases h
      cases he
      exact (bytes_readPages _ f).trans rfl
  | putZdata | putZdataPage | putZdataPbuf | getData | getZdata | dropData | dropZdata | readZfile => cases h

/-- `get_data` gives `d` and changes nothing, and `get_zdata` gives a stream for it. -/
def Gives (I : Inflater UInt8) (D : Deflater UInt8) (F : Format UInt8) (zf : Zfile)
    (d : List UInt8) : Prop :=
  Returns (fun fuel => getData I fuel zf) (zf, some d) ∧
    ∃ zf' z, Returns (fun fuel => getZdata D fuel zf) (zf', some z) ∧ F.Complete z ∧ F.plain z = d

theorem Coherent.gives (hD : D.Lawful F bound) (h : Coherent F zf) (hd : zf.pData.bytes ≠ []) :
    Gives I D F zf zf.pData.bytes := by
  have hget : getData I 0 zf = some (zf, some zf.pData.bytes) := by
    rw [getData, ensureFile_data hd, Option.map_some]
    rfl
  refine ⟨returns_of_mono (fun _ _ k h => getData_mono h k) hget, ?_⟩
  by_cases hz : zf.pZdata.bytes = []
  · obtain ⟨zf', z, hret, -, -, hc, hp⟩ := getZdata_spec hD hd hz
    exact ⟨zf', z, hret, hc, hp⟩
  · obtain ⟨hc, hp⟩ := h hd hz
    have hgetz : getZdata D 0 zf = some (zf, some zf.pZdata.bytes) := by
      rw [getZdata, ensureZfile_zdata hz, Option.map_some]
      rfl
    exact ⟨zf, _, returns_of_mono (fun _ _ k h => getZdata_mono h k) hgetz, hc, hp⟩

variable {ι : Type} [DecidableEq ι]

theorem step_coherent (hI : I.Lawful F) (hD : D.Lawful F bound) {s s' : ι → Zfile} {a : Act ι}
    (h : ∀ i, Coherent F (s i)) (hok : a.Ok I F s) (hs : Step I D s a s') (i : ι) :
    Coherent F (s' i) := by
  cases a with
  | op j o =>
    obtain ⟨fuel, zf, he, rfl⟩ := hs
    by_cases hij : i = j
    · subst hij
      rw [Function.update_self]
      exact (h i).exec hI hD hok he
    · rw [Function.update_of_ne hij]
      exact h i
  | assign j k =>
    cases hs
    by_cases hij : i = j
    · subst hij
      rw [Function.update_self]
      exact coherent_assign _ _
    · rw [Function.update_of_ne hij]
      exact h i

end Coherence

/-! ## Comparing -/

section Eq

variable {x y : List UInt8} {zf other : Zfile}

/-- The same data or, when there is none, the same compressed data. -/
def Same (zf other : Zfile) : Prop :=
  zf.pData.bytes = other.pData.bytes ∧
    (zf.pData.bytes = [] → zf.pZdata.bytes = other.pZdata.bytes)

instance : Decidable (Same zf other) := inferInstanceAs (Decidable (_ ∧ _))

theorem getDataCommon_eq {n : Nat} {b : Pbuf} (h : b.bytes.length ≤ n) :
    getDataCommon (allocate n) b =
      some (b.bytes.map some ++ List.replicate (n - b.bytes.length) none) := by
  rw [getDataCommon, allocate, List.length_replicate, if_pos h, List.drop_replicate]

theorem getDataCommon_none {n : Nat} {b : Pbuf} (h : n < b.bytes.length) :
    getDataCommon (allocate n) b = none := by
  rw [getDataCommon, allocate, List.length_replicate, if_neg (by omega)]

theorem memcmp_eq (h : x.length = y.length) :
    memcmp (x.map some) (y.map some) = some (decide (x = y)) := by
  induction x generalizing y with
  | nil =>
    cases y with
    | nil => rfl
    | cons b y => cases h
  | cons a x ih =>
    cases y with
    | nil => cases h
    | cons b y =>
      rw [List.map_cons, List.map_cons, memcmp]
      split
      · rename_i hab
        rw [ih (Nat.succ.inj h)]
        simp [hab]
      · rename_i hab
        simp [hab]

/-- When the second one is shorter, the comparison has an end before that of it or none. -/
theorem memcmp_short (h : y.length < x.length) :
    memcmp (x.map some) (y.map some ++ List.replicate (x.length - y.length) none) =
      if y <+: x then none else some false := by
  induction x generalizing y with
  | nil => cases h
  | cons a x ih =>
    cases y with
    | nil =>
      rw [if_pos List.nil_prefix]
      rfl
    | cons b y =>
      rw [List.length_cons, List.length_cons, Nat.succ_lt_succ_iff] at h
      rw [List.map_cons, List.map_cons, List.cons_append, memcmp, List.length_cons,
        List.length_cons, Nat.add_sub_add_right, ih h]
      by_cases hab : a = b
      · subst hab
        rw [if_pos rfl]
        simp only [List.prefix_cons_inj]
      · rw [if_neg hab, if_neg (fun hp => hab (List.cons_prefix_cons.mp hp).1.symm)]

/-- The sizes of the compressed data that `operator==` can deal with: equal ones, or another that
    is shorter and not all of it the same. -/
def Comparable (zf other : Zfile) : Prop :=
  zf.pData.bytes = [] → other.pData.bytes = [] →
    zf.pZdata.bytes.length = other.pZdata.bytes.length ∨
      other.pZdata.bytes.length < zf.pZdata.bytes.length ∧
        ¬ other.pZdata.bytes <+: zf.pZdata.bytes

/-- Two buffers in blocks of the size of the first one. -/
theorem blocks_eq (a b : Pbuf) :
    (do
      let p1 ← getDataCommon (allocate a.size) a
      let p2 ← getDataCommon (allocate a.size) b
      memcmp p1 p2) =
    if a.bytes.length < b.bytes.length then none
    else if a.bytes.length = b.bytes.length then some (decide (a.bytes = b.bytes))
    else if b.bytes <+: a.bytes then none else some false := by
  rw [a.size_eq_bytes, getDataCommon_eq (Nat.le_refl _), Nat.sub_self, List.replicate_zero,
    List.append_nil]
  split
  · rename_i hlt
    rw [getDataCommon_none hlt]
    rfl
  · rename_i hle
    rw [getDataCommon_eq (Nat.not_lt.mp hle)]
    split
    · rename_i heq
      rw [heq, Nat.sub_self, List.replicate_zero, List.append_nil]
      exact memcmp_eq heq
    · rename_i hne
      exact memcmp_short (by omega)

/-- The comparison of the data. -/
theorem eq_of_data (h : ¬ (zf.pData.bytes = [] ∧ other.pData.bytes = [])) :
    zf.eq other = some (decide (Same zf other)) := by
  unfold eq
  dsimp only
  split
  · rename_i hs
    rw [zf.pData.size_eq_bytes, other.pData.size_eq_bytes] at hs
    have hne : ¬ Same zf other := fun hsame => hs (congrArg List.length hsame.1)
    rw [decide_eq_false hne]
  · rename_i hs
    have hs' : zf.pData.size = other.pData.size := not_not.mp hs
    rw [zf.pData.size_eq_bytes, other.pData.size_eq_bytes] at hs'
    have hd : zf.pData.bytes ≠ [] := by
      intro hnil
      rw [hnil] at hs'
      exact h ⟨hnil, List.eq_nil_of_length_eq_zero hs'.symm⟩
    rw [if_pos (mt size_eq_zero.mp hd), ← not_not.mp hs, blocks_eq, if_neg (by omega), if_pos hs']
    simp [Same, hd]

/-- The comparison of the compressed data. -/
theorem eq_of_data_nil (h : zf.pData.bytes = []) (h' : other.pData.bytes = []) :
    zf.eq other = some (decide (Same zf other)) ↔ Comparable zf other := by
  have hs : zf.pData.size = 0 := size_eq_zero.mpr h
  have hs' : other.pData.size = 0 := size_eq_zero.mpr h'
  have hsame : Same zf other ↔ zf.pZdata.bytes = other.pZdata.bytes := by
    simp [Same, h, h']
  have hcomp : Comparable zf other ↔ zf.pZdata.bytes.length = other.pZdata.bytes.length ∨
      other.pZdata.bytes.length < zf.pZdata.bytes.length ∧
        ¬ other.pZdata.bytes <+: zf.pZdata.bytes := by
    simp [Comparable, h, h']
  unfold eq
  dsimp only
  rw [hs, hs', if_neg (by simp), if_neg (by simp), if_neg (by simp), hcomp]
  by_cases hz : zf.pZdata.bytes = []
  · rw [if_pos (size_eq_zero.mpr hz)]
    constructor
    · intro he
      have hs := of_decide_eq_true (Option.some.inj he).symm
      exact .inl (congrArg List.length (hsame.mp hs))
    · rintro (hl | ⟨hlt, -⟩)
      · rw [hz] at hl
        have hnil := List.eq_nil_of_length_eq_zero hl.symm
        rw [decide_eq_true (hsame.mpr (hz.trans hnil.symm))]
      · rw [hz] at hlt
        cases hlt
  · rw [if_neg (mt size_eq_zero.mp hz), blocks_eq]
    rcases Nat.lt_trichotomy zf.pZdata.bytes.length other.pZdata.bytes.length with hlt | heq | hgt
    · rw [if_pos hlt]
      constructor
      · intro hf
        cases hf
      · omega
    · rw [if_neg (by omega), if_pos heq]
      simp [hsame, heq]
    · have hne : ¬ Same zf other := by
        rw [hsame]
        intro he
        rw [he] at hgt
        omega
      rw [if_neg (by omega), if_neg (by omega), decide_eq_false hne]
      split
      · rename_i hp
        simp [hp]
        omega
      · rename_i hp
        simp [hp, hgt]

/-- **`operator==`.** It is right unless both have only compressed data, of different sizes; then it
    is right only if it finds a difference before it comes to the end of the other one. -/
theorem eq_iff : zf.eq other = some (decide (Same zf other)) ↔ Comparable zf other := by
  by_cases h : zf.pData.bytes = [] ∧ other.pData.bytes = []
  · exact eq_of_data_nil h.1 h.2
  · exact ⟨fun _ hd hd' => absurd ⟨hd, hd'⟩ h, fun _ => eq_of_data h⟩

end Eq

/-! ## Together -/

/-- **Coherence.** After any run in which what is put in a buffer of its own belongs to the other
    one and comes from elsewhere, and no `get_data` leaves a part of its stream or an error in it
    behind, every `zfile` is coherent; `get_data`
    then gives what was put last, and `get_zdata` a stream for it. And `operator==` is right exactly
    on the sizes it can deal with. -/
theorem coherence {I : Inflater UInt8} {D : Deflater UInt8} {F : Format UInt8} {bound : Nat → Nat}
    {ι : Type} [DecidableEq ι] (hI : I.Lawful F) (hD : D.Lawful F bound)
    {tr : List (Act ι × (ι → Zfile))} (hrun : Lts.Run (Step I D) (fun _ => init) tr)
    (hok : Lts.Always (fun s a _ => a.Ok I F s) (fun _ => init) tr) :
    (∀ i, Coherent F (Lts.last (fun _ => init) tr i)) ∧
    (∀ i (o : Op) d fuel zf, o.Puts (Lts.last (fun _ => init) tr i) d → d ≠ [] → o.Ok I F (Lts.last (fun _ => init) tr i) →
      o.exec I D fuel (Lts.last (fun _ => init) tr i) = some zf → Gives I D F zf d) ∧
    ∀ zf other : Zfile, zf.eq other = some (decide (Same zf other)) ↔ Comparable zf other := by
  have hall : ∀ i, Coherent F (Lts.last (fun _ => init) tr i) := by
    have halways := Lts.Run.always_of_guard (I := fun s : ι → Zfile => ∀ i, Coherent F (s i))
      (P := fun _ _ s' => ∀ i, Coherent F (s' i))
      (fun s a s' h hok hs => ⟨step_coherent hI hD h hok hs, step_coherent hI hD h hok hs⟩)
      hrun (fun _ => coherent_of_data_nil rfl) hok
    exact Lts.Always.last_state halways (fun _ => coherent_of_data_nil rfl)
  refine ⟨hall, fun i o d fuel zf hp hd hok he => ?_, fun zf other => eq_iff⟩
  have hdata := hp.data hd hok he
  have hgives := ((hall i).exec hI hD hok he).gives (I := I) hD (by rw [hdata]; exact hd)
  rw [hdata] at hgives
  exact hgives

/-- Data is put in the first `zfile`, which is assigned to the second one. -/
def orderly : List (Act Nat × (Nat → Zfile)) :=
  let s := Function.update (fun _ => init) 0 (init.putData [0x41]).1
  [(.op 0 (.putData [0x41]), s), (.assign 1 0, Function.update s 1 ((s 1).assign false (s 0)))]

/-- What is put in the second one then comes back. -/
theorem coherence_orderly : Gives reader.inflater packer.deflater reader.format
    ((Lts.last (fun _ => init) orderly 1).putDataPbuf (.other (Pbuf.init.append [0x42]).1)).1
    [0x42] := by
  have hrun : Lts.Run (Step reader.inflater packer.deflater) (fun _ => init) orderly :=
    .cons ⟨0, _, rfl, rfl⟩ (.cons rfl (.nil _))
  have hsecond : (Lts.last (fun _ => init) orderly 1).pZdata = .init := rfl
  obtain ⟨-, hgives, -⟩ := coherence reader.lawful packer.lawful hrun
    ⟨trivial, trivial, trivial⟩
  refine hgives 1 (.putDataPbuf (.other (Pbuf.init.append [0x42]).1)) [0x42] 0 _ ?_ ?_ ?_ rfl
  · exact Pbuf.bytes_append _ _
  · simp
  · refine ⟨fun hf => (by cases hf), ?_⟩
    exact coherent_of_zdata_nil (congrArg Pbuf.bytes hsecond)

/-- Data is put as a `pbuf` where there is compressed data already. -/
def stale : List (Act Nat × (Nat → Zfile)) :=
  let s := Function.update (fun _ => init) 0 (init.putZdata [0x73, 0x04, 0x00]).1
  let b := Arg.other (Pbuf.init.append [0x42]).1
  [(.op 0 (.putZdata [0x73, 0x04, 0x00]), s),
    (.op 0 (.putDataPbuf b), Function.update s 0 ((s 0).putDataPbuf b).1)]

/-- Then the one is no stream for the other. A `zfile` that is given its own data has none
    afterwards; and one that has nothing is taken for the same as one that has compressed data. -/
theorem coherence_fails : reader.inflater.Lawful reader.format ∧
    packer.deflater.Lawful reader.format packer.bound ∧
    Lts.Run (Step reader.inflater packer.deflater) (fun _ => init) stale ∧
    ¬ Coherent reader.format (Lts.last (fun _ => init) stale 0) ∧
    (init.putData [0x41]).1.putDataPbuf .data = (init, true) ∧
    init.eq (ofZdata [0x41]) = some true ∧ ¬ Same init (ofZdata [0x41]) := by
  refine ⟨reader.lawful, packer.lawful, .cons ⟨0, _, rfl, rfl⟩ (.cons ⟨0, _, rfl, rfl⟩ (.nil _)),
    ?_, by decide +kernel, by decide +kernel, by decide +kernel⟩
  intro h
  have hd : (Lts.last (fun _ => init) stale 0).pData.bytes = [0x42] := Pbuf.bytes_append _ _
  have hz : (Lts.last (fun _ => init) stale 0).pZdata.bytes = [0x73, 0x04, 0x00] :=
    Pbuf.bytes_append _ _
  have hA : reader.format.plain [0x73, 0x04, 0x00] = [0x41] := by decide +kernel
  have hp := (h (by simp [hd]) (by simp [hz])).2
  rw [hd, hz, hA] at hp
  cases hp

end Zfile

end CodeSLoop
