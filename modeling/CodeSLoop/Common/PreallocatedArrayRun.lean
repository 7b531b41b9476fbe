import CodeSLoop.Common.PreallocatedArray

/-!
# `preallocated_array`s over whole runs

What the arrays are meant to be is arrays of elements that grow, some of which may not have been
said yet. What is in a new block is anything, so a run is held to be right when its states are,
whatever that is.

It is right exactly when no size that is asked for is too much to be counted in bytes, and no
`allocate` takes another block while an element that has been said ends behind the first `size()`
bytes: those are what it copies (`arrays_iff`). Elements of one byte never do. `set` is not
concerned, which writes all bytes of its elements afterwards, and neither is the assignment, which
does not call `allocate`.
-/

namespace CodeSLoop

open Heap Lts Objects
open Tbufs (Head World Others)

universe u v

namespace PreallocatedArray

section Runs

variable {ι : Type u} [DecidableEq ι] {T : Type v}

/-- What a call makes of the arrays. -/
def plain {L : Layout T} (σ : ι → List (Option T)) : Op ι L → ι → List (Option T)
  | .set i r => Function.update σ i <|
    if r.sz = 0 then []
    else match r.dta with
      | none => σ i
      | some ts => (ts.take r.sz.toNat).map some
  | .allocate i sz => Function.update σ i (resize (σ i) sz.toNat)
  | .allocateNocopy i sz => Function.update σ i (resizeNocopy (σ i) sz.toNat)
  | .assign i j => Function.update σ i (σ j)
  | .reset i => Function.update σ i []

variable (L : Layout T)

/-- The arrays in memory are those that they are to be: the sizes and the elements are, the
    data pointers point to storage for all of them, `operator==` compares them and `get`
    delivers them. -/
structure Agrees (w : World ι) (σ : ι → List (Option T)) : Prop where
  sound : Sound L w
  sizes : ∀ i, (w.bufs i).size.toNat = (σ i).length
  elements : ∀ i, Encodes L.rep L.itemSize.toNat (σ i) (view L w i)
  compared : ∀ i j, ∃ b, opEq L w i j = some b ∧ (b = true ↔ view L w i = view L w j) ∧
    ∀ ts us : List T, σ i = ts.map some → σ j = us.map some → (b = true ↔ ts.map L.rep = us.map L.rep)
  delivered : ∀ i out, (σ i).length * L.itemSize.toNat ≤ out.length →
    (σ i = [] → get L w i (some out) = some (false, some out)) ∧
    (σ i ≠ [] → ∃ bs, get L w i (some out) = some (true, some (patch out 0 bs)) ∧
      Encodes L.rep L.itemSize.toNat (σ i) bs)

/-- The bytes of the size that is asked for can be counted, and no element that has been said ends
    behind the bytes that `allocate` copies to another block. -/
def Fits (bufs : ι → Head ι) (σ : ι → List (Option T)) : Op ι L → Prop
  | .allocate i sz => sz.toNat * L.itemSize.toNat < 2 ^ 64 ∧
      (Moves L i (bufs i) sz →
        ∀ k t, (σ i)[k]? = some (some t) → (k + 1) * L.itemSize.toNat ≤ (bufs i).size.toNat)
  | .allocateNocopy _ sz => sz.toNat * L.itemSize.toNat < 2 ^ 64
  | _ => True

/-- The arrays, unless something that a call did had no meaning, and those that they are to be. -/
abbrev State (ι : Type u) (T : Type v) := Option (World ι) × (ι → List (Option T))

/-- Every call so far had a meaning, and the arrays are those that they are to be. -/
def Right (s : State ι T) : Prop := ∃ w, s.1 = some w ∧ Agrees L w s.2

def step (junk : Nat → Nat → UInt8) (s : State ι T) (op : Op ι L) : State ι T :=
  (s.1.bind fun w => exec L junk w op, plain s.2 op)

/-- New arrays, with whatever is in their areas. -/
def start (areas : ι → { bs : List UInt8 // bs.length = L.SZ.toNat * L.itemSize.toNat }) : State ι T :=
  (some ⟨⟨fun i => areas i, fun _ => none, 0, []⟩, fun i => ⟨.area i, 0⟩⟩, fun _ => [])

variable {L} {junk : Nat → Nat → UInt8} {w : World ι} {σ : ι → List (Option T)}

/-! ## One call -/

omit [DecidableEq ι] in
/-- It is enough that the bytes are right. -/
theorem Sound.agrees (h : Sound L w) (hsay : ∀ i, Encodes L.rep L.itemSize.toNat (σ i) (view L w i)) :
    Agrees L w σ where
  sound := h
  sizes i := by
    have hlen := (hsay i).length_eq
    rw [h.length_view] at hlen
    exact Nat.eq_of_mul_eq_mul_right L.itemSize_pos hlen
  elements := hsay
  compared i j := by
    refine ⟨_, h.opEq_view i j, decide_eq_true_iff, fun ts us hts hus => ?_⟩
    have hi := hsay i
    have hj := hsay j
    rw [hts] at hi
    rw [hus] at hj
    rw [decide_eq_true_iff, hi.eq_flatMap L.length_rep, hj.eq_flatMap L.length_rep,
      flatMap_eq_iff L.length_rep L.itemSize_pos]
  delivered i out hroom := by
    have hlen := (hsay i).length_eq
    have hzero : (w.bufs i).size = 0 ↔ σ i = [] := by
      rw [h.length_view] at hlen
      rw [← UInt64.toNat_inj, ← List.length_eq_zero_iff, Nat.eq_of_mul_eq_mul_right L.itemSize_pos hlen]
      rfl
    refine ⟨fun hnil => if_pos (hzero.mpr hnil), fun hne => ?_⟩
    exact ⟨_, h.get_view (fun h0 => hne (hzero.mp h0)) (hlen ▸ hroom), hsay i⟩

theorem plain_of_ne {op : Op ι L} {k : ι} (hk : k ≠ op.buf) : plain σ op k = σ k := by
  cases op <;> exact Function.update_of_ne hk _ _

/-- **One call that fits** does what it does to the array. -/
theorem exec_fits (h : Agrees L w σ) (junk : Nat → Nat → UInt8) {op : Op ι L} (hfit : Fits L w.bufs σ op) :
    ∃ bs, Gives L w op.buf (exec L junk w op) bs ∧
      Encodes L.rep L.itemSize.toNat (plain σ op op.buf) bs := by
  cases op with
  | set i r =>
    refine ⟨_, h.sound.set_gives junk i r, ?_⟩
    obtain ⟨dta, sz, henough, hmemory⟩ := r
    rw [plain, Op.buf, Function.update_self]
    by_cases h0 : sz = 0
    · rw [if_pos h0, if_pos h0]
      exact encodes_nil
    rw [if_neg h0, if_neg h0]
    cases dta with
    | none => exact h.elements i
    | some ts => exact encodes_map L.length_rep _
  | allocate i sz =>
    obtain ⟨hcount, hkeep⟩ := hfit
    rw [plain, Op.buf, Function.update_self]
    by_cases hmove : Moves L i (w.bufs i) sz
    · obtain ⟨w', p, ha, hs, ho, hv⟩ := h.sound.allocate_moves junk hcount hmove
      refine ⟨_, ⟨w', by rw [exec, ha]; rfl, hs, ho, hv⟩, ?_⟩
      refine (h.elements i).resize (fun k t _ => hkeep hmove k t) ?_
      rw [← hv, hs.length_view, (allocate_sets ha).1, Function.update_self, size_allocateHead]
    · obtain ⟨w', p, rest, ha, hs, ho, hv⟩ := h.sound.allocate_stays junk hcount hmove
      refine ⟨_, ⟨w', by rw [exec, ha]; rfl, hs, ho, hv⟩, ?_⟩
      refine (h.elements i).resize (fun k t hk _ => Nat.mul_le_mul_right _ hk) ?_
      rw [← hv, hs.length_view, (allocate_sets ha).1, Function.update_self, size_allocateHead]
  | allocateNocopy i sz =>
    obtain ⟨w', p, ha, hs, ho, hsize, -, hkeep⟩ := h.sound.allocateNocopy_gives junk i hfit
    refine ⟨_, ⟨w', by rw [exec, ha]; rfl, hs, ho, rfl⟩, ?_⟩
    rw [plain, Op.buf, Function.update_self]
    refine (h.elements i).resizeNocopy ?_ fun hle => hkeep ?_
    · rw [hs.length_view, hsize]
    · rwa [UInt64.le_iff_toNat_le, h.sizes]
  | assign i j =>
    rw [plain, Op.buf, Function.update_self]
    exact ⟨_, h.sound.assign_gives junk i j, h.elements j⟩
  | reset i =>
    rw [plain, Op.buf, Function.update_self]
    exact ⟨_, h.sound.reset_gives i, encodes_nil⟩

/-- **One step that fits** leads from a state that is right to one that is. -/
theorem step_right {s : State ι T} (h : Right L s) (junk : Nat → Nat → UInt8) {op : Op ι L}
    (hfit : ∀ w, s.1 = some w → Fits L w.bufs s.2 op) : Right L (step L junk s op) := by
  obtain ⟨w, hw, hagrees⟩ := h
  obtain ⟨bs, ⟨w', hr, hs, ho, hv⟩, hbs⟩ := exec_fits hagrees junk (hfit w hw)
  refine ⟨w', ?_, hs.agrees fun k => ?_⟩
  · rw [step, hw]
    exact hr
  · by_cases hk : k = op.buf
    · rw [hk, hv]
      exact hbs
    · have hother : (step L junk s op).2 k = s.2 k := plain_of_ne hk
      rw [view_of_others ho hk, hother]
      exact hagrees.elements k

/-- The last byte of an element. -/
theorem Layout.last_byte (L : Layout T) (t : T) : ∃ b, (L.rep t)[L.itemSize.toNat - 1]? = some b := by
  have hlt : L.itemSize.toNat - 1 < (L.rep t).length := by
    rw [L.length_rep]
    exact Nat.sub_lt L.itemSize_pos Nat.one_pos
  exact ⟨_, List.getElem?_eq_getElem hlt⟩

/-- An element that has been said, behind what is copied to another block, is only right by
    chance. -/
theorem Agrees.lost (h : Agrees L w σ) {i : ι} {sz : UInt64}
    (hcount : sz.toNat * L.itemSize.toNat < 2 ^ 64) (hmove : Moves L i (w.bufs i) sz) {k : Nat} {t : T}
    (hsaid : (σ i)[k]? = some (some t)) (hbehind : (w.bufs i).size.toNat < (k + 1) * L.itemSize.toNat)
    (hright : Right L (step L junk (some w, σ) (.allocate i sz))) :
    (L.rep t)[L.itemSize.toNat - 1]? = some (junk w.mem.next ((k + 1) * L.itemSize.toNat - 1)) := by
  obtain ⟨w', p, ha, hs, -, hv⟩ := h.sound.allocate_moves junk hcount hmove
  obtain ⟨v, hv', hagrees⟩ := hright
  have hworld : (step L junk (some w, σ) (.allocate i sz)).1 = some w' := by
    rw [step, Option.bind_some, exec, ha]
    rfl
  rw [hworld] at hv'
  cases hv'
  have hk : k < (σ i).length := (List.getElem?_eq_some_iff.mp hsaid).1
  have hmore : (σ i).length < sz.toNat := by
    rw [← h.sizes]
    exact UInt64.lt_iff_toNat_lt.mp hmove.1
  have hplain : (step L junk (some w, σ) (.allocate i sz)).2 i = resize (σ i) sz.toNat :=
    Function.update_self _ _ _
  have hresized : ((step L junk (some w, σ) (.allocate i sz)).2 i)[k]? = some (some t) := by
    rw [hplain]
    exact resize_said (Nat.lt_trans hk hmore) hsaid
  have hin : (k + 1) * L.itemSize.toNat ≤ sz.toNat * L.itemSize.toNat :=
    Nat.mul_le_mul_right _ (Nat.lt_trans hk hmore)
  have hlen : ((view L w i).take (w.bufs i).size.toNat).length = (w.bufs i).size.toNat := by
    rw [List.length_take, h.sound.length_view]
    exact Nat.min_eq_left (Nat.le_mul_of_pos_right _ L.itemSize_pos)
  rw [← (hagrees.elements i).last_cell L.itemSize_pos hresized, hv, List.getElem?_append_right (by omega),
    hlen, List.getElem?_drop, List.getElem?_map, List.getElem?_range (by omega), Option.map_some]
  exact congrArg (fun n => some (junk w.mem.next n)) (by omega)

/-- **One step that does not fit** leads to a state that is not right, when blocks are filled with
    some byte that only the call and the arrays tell. -/
theorem step_wrong {bufs : ι → Head ι} {op : Op ι L} (hnot : ¬ Fits L bufs σ op) : ∃ c : UInt8,
    ∀ w, w.bufs = bufs → Agrees L w σ → ¬ Right L (step L (fun _ _ => c) (some w, σ) op) := by
  cases op with
  | allocate i sz =>
    by_cases hcount : sz.toNat * L.itemSize.toNat < 2 ^ 64
    · rw [Fits, not_and] at hnot
      obtain ⟨hmove, hlost⟩ := Classical.not_imp.mp (hnot hcount)
      simp only [not_forall] at hlost
      obtain ⟨k, t, hsaid, hbehind⟩ := hlost
      obtain ⟨b, hb⟩ := L.last_byte t
      refine ⟨b + 1, fun w hw h hright => ?_⟩
      rw [← hw] at hmove hbehind
      have hlast := h.lost hcount hmove hsaid (Nat.lt_of_not_le hbehind) hright
      rw [hb, Option.some.injEq] at hlast
      exact absurd hlast (by simp)
    · refine ⟨0, fun w _ _ hright => ?_⟩
      obtain ⟨w', hw', hagrees⟩ := hright
      obtain ⟨⟨v, p⟩, ha, he⟩ := Option.map_eq_some_iff.mp hw'
      cases he
      have hlt := hagrees.sound.size_lt i
      rw [(allocate_sets ha).1, Function.update_self, size_allocateHead] at hlt
      exact hcount hlt
  | allocateNocopy i sz =>
    refine ⟨0, fun w _ _ hright => ?_⟩
    obtain ⟨w', hw', hagrees⟩ := hright
    obtain ⟨⟨v, p⟩, ha, he⟩ := Option.map_eq_some_iff.mp hw'
    cases he
    have hlt := hagrees.sound.size_lt i
    rw [(allocateNocopy_sets ha).1, Function.update_self, size_allocateNocopyHead] at hlt
    exact hnot hlt
  | set | assign | reset => exact absurd trivial hnot

/-! ## Two runs of the same calls -/

/-- Two states that differ in nothing but what is in memory. -/
def Alike (s s' : State ι T) : Prop :=
  ∃ w w', s.1 = some w ∧ s'.1 = some w' ∧ w.bufs = w'.bufs ∧ w.mem.next = w'.mem.next ∧ s.2 = s'.2

variable {s s' : State ι T} {junk' : Nat → Nat → UInt8}

omit [DecidableEq ι] in
theorem Right.alike (h : Right L s) : Alike s s := by
  obtain ⟨w, hw, -⟩ := h
  exact ⟨w, w, hw, hw, rfl, rfl, rfl⟩

theorem Alike.after (h : Alike s s') {op : Op ι L} (hr : Right L (step L junk s op))
    (hr' : Right L (step L junk' s' op)) : Alike (step L junk s op) (step L junk' s' op) := by
  obtain ⟨w, w', hw, hw', hbufs, hnext, hplain⟩ := h
  obtain ⟨v, hv, -⟩ := hr
  obtain ⟨v', hv', -⟩ := hr'
  have hexec : exec L junk w op = some v := by
    rwa [step, hw] at hv
  have hexec' : exec L junk' w' op = some v' := by
    rwa [step, hw'] at hv'
  obtain ⟨hb, hn⟩ := exec_sets hexec
  obtain ⟨hb', hn'⟩ := exec_sets hexec'
  refine ⟨v, v', hv, hv', ?_, ?_, ?_⟩
  · rw [hb, hb', hbufs, hnext]
  · rw [hn, hn', hbufs, hnext]
  · exact congrArg (plain · op) hplain

omit [DecidableEq ι] in
/-- Whether a call fits does not depend on what is in memory. -/
theorem Alike.fits (h : Alike s s') {op : Op ι L} (hfit : ∀ w, s.1 = some w → Fits L w.bufs s.2 op) :
    ∀ w', s'.1 = some w' → Fits L w'.bufs s'.2 op := by
  obtain ⟨w, w', hw, hw', hbufs, -, hplain⟩ := h
  intro v hv
  rw [hw'] at hv
  cases hv
  rw [← hbufs, ← hplain]
  exact hfit w hw

/-- When the calls of a run fit, a run of the same calls is right, whatever is in its blocks. -/
theorem right_of_fits {ops : List (Op ι L)} (h : Alike s s') (hs : Right L s) (hs' : Right L s')
    (hfits : Always (fun s op _ => ∀ w, s.1 = some w → Fits L w.bufs s.2 op) s
      (traceOf (step L junk) s ops)) :
    Always (fun _ _ s' => Right L s') s' (traceOf (step L junk') s' ops) := by
  induction ops generalizing s s' with
  | nil => trivial
  | cons op ops ih =>
    obtain ⟨hfit, hrest⟩ := hfits
    have hr := step_right hs junk hfit
    have hr' := step_right hs' junk' (h.fits hfit)
    exact ⟨hr', ih (h.after hr hr') hr hr' hrest⟩

/-- When the runs with any one byte in all blocks are right, the calls fit: where one does not, a
    byte tells. -/
theorem fits_of_right {ops : List (Op ι L)} {t : UInt8 → State ι T} (h : ∀ c, Alike s (t c))
    (hs : Right L s) (ht : ∀ c, Right L (t c))
    (hright : ∀ c, Always (fun _ _ s' => Right L s') (t c) (traceOf (step L fun _ _ => c) (t c) ops)) :
    Always (fun s op _ => ∀ w, s.1 = some w → Fits L w.bufs s.2 op) s (traceOf (step L junk) s ops) := by
  induction ops generalizing s t with
  | nil => trivial
  | cons op ops ih =>
    have hfit : ∀ w, s.1 = some w → Fits L w.bufs s.2 op := by
      intro w hw
      by_contra hnot
      obtain ⟨c, hwrong⟩ := step_wrong hnot
      obtain ⟨v, hv, hagrees⟩ := ht c
      obtain ⟨w', v', hw', hv', hbufs, -, hplain⟩ := h c
      rw [hw] at hw'
      rw [hv] at hv'
      cases hw'
      cases hv'
      rw [hplain] at hwrong
      refine hwrong v hbufs.symm hagrees ?_
      rw [← hv]
      exact (hright c).1
    have hr := step_right hs junk hfit
    exact ⟨hfit, ih (fun c => (h c).after hr (hright c).1) hr (fun c => (hright c).1)
      fun c => (hright c).2⟩

omit [DecidableEq ι] in
theorem start_right (areas : ι → { bs : List UInt8 // bs.length = L.SZ.toNat * L.itemSize.toNat }) :
    Right L (start L areas) := by
  have hbounded : ∀ i, (areas i).1.length < 2 ^ 64 := by
    intro i
    rw [(areas i).2]
    exact L.fits
  have hroom : ∀ i, (0 : UInt64).toNat * L.itemSize.toNat ≤ (areas i).1.length := by
    intro i
    rw [UInt64.toNat_zero, Nat.zero_mul]
    exact Nat.zero_le _
  have hsound : Sound L ⟨⟨fun i => (areas i).1, fun _ => none, 0, []⟩, fun i => ⟨.area i, 0⟩⟩ :=
    ⟨ledger_init _, fun i => (areas i).2, fun i id hi => (nomatch hi), hroom, hbounded⟩
  refine ⟨_, rfl, hsound.agrees fun i => ?_⟩
  have hnil : view L ⟨⟨fun i => (areas i).1, fun _ => none, 0, []⟩, fun i => ⟨.area i, 0⟩⟩ i = [] := by
    rw [← List.length_eq_zero_iff, hsound.length_view, UInt64.toNat_zero, Nat.zero_mul]
  rw [hnil]
  exact encodes_nil

/-- **Whole runs**: every state is right, whatever is in new blocks, exactly when every call
    fits. -/
theorem arrays_iff (L : Layout T)
    (areas : ι → { bs : List UInt8 // bs.length = L.SZ.toNat * L.itemSize.toNat })
    (junk : Nat → Nat → UInt8) (ops : List (Op ι L)) :
    (∀ junk', Always (fun _ _ s' => Right L s') (start L areas)
      (traceOf (step L junk') (start L areas) ops)) ↔
      Always (fun s op _ => ∀ w, s.1 = some w → Fits L w.bufs s.2 op) (start L areas)
        (traceOf (step L junk) (start L areas) ops) := by
  have hstart := start_right areas
  constructor
  · intro hright
    exact fits_of_right (fun _ => hstart.alike) hstart (fun _ => hstart) fun c => hright fun _ _ => c
  · intro hfits junk'
    exact right_of_fits hstart.alike hstart hstart hfits

/-- Arrays of numbers of four bytes, two of which are preallocated. -/
def words : Layout UInt32 where
  rep x := [x.toUInt8, (x >>> 8).toUInt8, (x >>> 16).toUInt8, (x >>> 24).toUInt8]
  itemSize := 4
  SZ := 2
  length_rep _ := rfl
  itemSize_pos := by decide
  fits := by decide

/-- Two numbers, and then room for a third one: of the eight bytes, two are copied. -/
theorem arrays_fail : ¬ Always (fun _ _ s' => Right words s')
    (start words fun _ : Unit => ⟨List.replicate 8 0, rfl⟩)
    (traceOf (step words fun _ _ => 0) (start words fun _ : Unit => ⟨List.replicate 8 0, rfl⟩)
      [.set () ⟨some [1, 2], 2, by decide, by decide⟩, .allocate () 3]) := by
  rintro ⟨-, ⟨w, hw, hagrees⟩, -⟩
  obtain rfl := Option.some.inj hw
  have hsecond := (hagrees.elements ()).said 1 2 rfl
  exact absurd hsecond (by decide)

end Runs

end PreallocatedArray

end CodeSLoop
