import CodeSLoop.Common.InpvecFree
import CodeSLoop.Lib.Chains

/-!
# The pages of a hash (`hash_helpers::page` of `common/hash_helpers.hh`)

A page has 256 positions, one for each value of a byte of the hash key. An item goes to the
position of its key if there is none, and otherwise to the end of a chain that begins there; items
that are not the first of their chain are at position 256 and behind. Nothing is ever taken out of
a page: `split` puts some items into another page too, and leaves all of them where they are.

`Stores` is what a page looks like to which only `add` was applied: from each position comes the
chain of the pairs that belong there, in the order in which they came (`Stores.add`).
-/

namespace CodeSLoop

open Inpvec Chains

universe u v

namespace HashHelpers

/-- `contained`. -/
structure Contained (K : Type u) (V : Type v) where
  key : K
  value : V
  hashKey : UInt64
  pos : UInt64
  next : Option Ptr

/-- `page`. -/
structure Page (K : Type u) (V : Type v) where
  data : Inpvec (Contained K V)

/-- What `add` returns. -/
inductive AddResult
  | ok
  | badPos
  | hasAlready
  | appendOk
deriving DecidableEq, Repr

variable {K : Type u} {V : Type v}

instance : Inhabited (Page K V) := ⟨⟨Inpvec.init⟩⟩

/-- `is_equal`. -/
def Contained.isEqual [DecidableEq K] [DecidableEq V] (e : Contained K V) (k : K) (v : V) : Bool :=
  k = e.key ∧ v = e.value

/-- `key` and `value`. -/
def Contained.pair (e : Contained K V) : K × V := (e.key, e.value)

namespace Page

/-! ## The operations -/

section Model

variable [DecidableEq K] [DecidableEq V]

/-- The end of the loop of `add`: a new item behind the one at `p`. -/
def append (d : Inpvec (Contained K V)) (k : K) (v : V) (hk : UInt64) (p : Ptr) (fuel : Nat) :
    Option (Inpvec (Contained K V)) :=
  let newpos := if (d.getPtr 256).isSome then d.lastFreePos else 256
  (d.set newpos ⟨k, v, hk, UInt64.ofNat newpos, none⟩ fuel).map fun r =>
    r.1.poke p fun e => { e with next := r.1.getPtr newpos }

/-- The loop of `add`, at `p`. -/
def addLoop (d : Inpvec (Contained K V)) (k : K) (v : V) (hk : UInt64) (n : Nat) :
    Nat → Ptr → Option (Inpvec (Contained K V) × AddResult)
  | 0, _ => none
  | fuel + 1, p =>
    match d.deref p with
    | none => none
    | some e =>
      if e.isEqual k v then some (d, .hasAlready)
      else
        match e.next with
        | none => (append d k v hk p n).map (·, .appendOk)
        | some q => addLoop d k v hk n fuel q

/-- `add`. A position that is no position of the page is refused, or an exception is thrown. -/
def add (p : Page K V) (pos : UInt64) (k : K) (v : V) (hk : UInt64) (fuel : Nat) :
    Option (Page K V × AddResult) :=
  if pos > 256 then some (p, .badPos)
  else
    match p.data.getPtr pos.toNat with
    | none => (p.data.set pos.toNat ⟨k, v, hk, pos, none⟩ fuel).map fun r => (⟨r.1⟩, .ok)
    | some x => (addLoop p.data k v hk fuel fuel x).map fun r => (⟨r.1⟩, r.2)

/-- The loop of `split`. Whether the next item moves is read from the hash key of this one. -/
def splitLoop (d : Inpvec (Contained K V)) (shift : UInt64) (n : Nat) :
    Nat → Option Ptr → Page K V → Option (Page K V)
  | _, none, newpg => some newpg
  | 0, some _, _ => none
  | fuel + 1, some p, newpg =>
    (d.deref p).bind fun e =>
      match e.next with
      | none => some newpg
      | some pn =>
        let newpos := (e.hashKey >>> shift) &&& 0xff
        if newpos = 0 then splitLoop d shift n fuel (some pn) newpg
        else
          (d.deref pn).bind fun f =>
            (newpg.add newpos f.key f.value newpos n).bind fun r => splitLoop d shift n fuel (some pn) r.1

/-- `split`: what becomes of `newpg` and of `posv`, which it does not look at. -/
def split (p : Page K V) (pos shift : UInt64) (newpg : Page K V) (posv : Inpvec UInt64) (fuel : Nat) :
    Option (Page K V × Inpvec UInt64) :=
  (splitLoop p.data shift fuel fuel (p.data.getPtr pos.toNat) newpg).map (·, posv)

end Model

/-- `get(pos)`. -/
def get (p : Page K V) (pos : UInt64) : Option Ptr :=
  if pos > 256 then none else p.data.getPtr pos.toNat

/-- `n_items()`. -/
def nItems (p : Page K V) : Nat := p.data.nItems

/-- `n_free()`: the free places of the first page of `data_`, which has 64. -/
def nFree (p : Page K V) : UInt64 := p.data.iterNFree p.data.begin

/-! ## One more item -/

variable {d d' : Inpvec (Contained K V)} {e : Contained K V} {k : K} {v : V} {hk : UInt64} {x : Ptr} {n : Nat}

/-- `d'` has one more item than `d`, at a position that was free. -/
structure Adds (d d' : Inpvec (Contained K V)) (pos : Nat) : Prop where
  free : d.view pos = none
  ok : d'.Ok
  nItems : d'.nItems = d.nItems + 1
  used : ∀ j, (d'.view j).isSome ↔ (d.view j).isSome ∨ j = pos
  addr : ∀ j z, d.addr j = some z → d'.addr j = some z
  first : d'.pages[0]?.map CodeSLoop.Page.mul = d.pages[0]?.map CodeSLoop.Page.mul
  size : d'.size ≤ max d.size (pos + 2 ^ 32)
  tail : pos ≤ max 256 d.size → d.tail.mul.toNat < 2 ^ 26 - 2 → d.size < 2 ^ 63 →
    d'.tail.mul.toNat ≤ max (d.tail.mul.toNat + 2) 6

theorem adds_set {pos fuel : Nat} {y : Option Ptr} (hok : d.Ok) (hfree : d.view pos = none)
    (h : d.set pos e fuel = some (d', y)) : Adds d d' pos ∧ d'.view = Function.update d.view pos (some e) := by
  obtain ⟨hview, hok', haddr, hn⟩ := set_spec hok h
  refine ⟨⟨hfree, hok', hn hfree, fun j => ?_, haddr, mul_set h, (size_set h).2,
    fun hk ht hs => tail_set hk ht hs h⟩, hview⟩
  rw [hview]
  by_cases hj : j = pos
  · rw [hj, Function.update_self]
    simp
  · rw [Function.update_of_ne hj]
    simp [hj]

/-- Pointers to other positions are found as before. -/
theorem Adds.getPtr {pos j : Nat} (h : Adds d d' pos) (hok : d.Ok) (hj : j ≠ pos) : d'.getPtr j = d.getPtr j := by
  rw [h.ok.getPtr_eq, hok.getPtr_eq]
  have hused : (d'.view j).isSome ↔ (d.view j).isSome := by
    rw [h.used]
    exact or_iff_left hj
  by_cases hsome : (d.view j).isSome
  · obtain ⟨t, ht⟩ := Option.isSome_iff_exists.mp hsome
    obtain ⟨z, hz, -⟩ := addr_of_view ht
    rw [if_pos hsome, if_pos (hused.mpr hsome), hz, h.addr j z hz]
  · rw [if_neg hsome, if_neg fun hsome' => hsome (hused.mp hsome')]

/-- Writing to an item that was there before adds nothing. -/
theorem Adds.poke {w : Inpvec (Contained K V)} {pos kx : Nat} {f : Contained K V → Contained K V}
    (h : Adds d w pos) (hx : d.addr kx = some x) (he : w.view kx = some e) :
    Adds d (w.poke x f) pos ∧ (w.poke x f).view = Function.update w.view kx (some (f e)) ∧
      ∀ j, (w.poke x f).addr j = w.addr j := by
  obtain ⟨hview, hok, hsizes, hn⟩ := poke_spec (f := f) h.ok (h.addr _ _ hx) he
  have haddr : ∀ j, (w.poke x f).addr j = w.addr j := fun j => addr_congr hsizes
  have hsize : (w.poke x f).size = w.size := congrArg List.sum hsizes
  have htail : (w.poke x f).tail.mul = w.tail.mul := mul_tail_onPage
  refine ⟨⟨h.free, hok, hn.trans h.nItems, fun j => ?_, fun j z hz => ?_, ?_, ?_, ?_⟩, hview, haddr⟩
  · rw [← h.used, hview]
    by_cases hj : j = kx
    · rw [hj, Function.update_self, he]
      rfl
    · rw [Function.update_of_ne hj]
  · rw [haddr]
    exact h.addr j z hz
  · rw [← h.first]
    exact mul_onPage
  · rw [hsize]
    exact h.size
  · rw [htail]
    exact h.tail

/-- The place that `append` chooses is free, and behind all positions of the page. -/
theorem append_place (hok : d.Ok) {pos : Nat}
    (hpos : (if (d.getPtr 256).isSome then d.lastFreePos else 256) = pos) :
    256 ≤ pos ∧ pos ≤ max 256 d.size ∧ d.view pos = none := by
  rw [← hpos, hok.isSome_getPtr]
  split
  · rename_i hsome
    refine ⟨Nat.le_of_lt (lt_lastFreePos hok hsome), (lastFreePos_le hok).trans (Nat.le_max_right _ _), ?_⟩
    rw [← Option.not_isSome_iff_eq_none]
    exact fun hlast => Nat.lt_irrefl _ (lt_lastFreePos hok hlast)
  · rename_i hnone
    exact ⟨Nat.le_refl _, Nat.le_max_left _ _, Option.not_isSome_iff_eq_none.mp hnone⟩

/-- **What `append` does**: the item at `x` has the new one as its next one, and nothing else
    changes. -/
theorem append_spec {fuel : Nat} (hok : d.Ok) (hx : d.Stands x e) (h : append d k v hk x fuel = some d') :
    ∃ pos y, 256 ≤ pos ∧ pos ≤ max 256 d.size ∧ Adds d d' pos ∧ d'.Stands x { e with next := some y } ∧
      d'.Stands y ⟨k, v, hk, UInt64.ofNat pos, none⟩ ∧ ∀ z t, z ≠ x → d.Stands z t → d'.Stands z t := by
  rw [append] at h
  generalize hpos : (if (d.getPtr 256).isSome then d.lastFreePos else 256) = pos at h
  obtain ⟨h256, hmax, hfree⟩ := append_place hok hpos
  obtain ⟨⟨w, z⟩, hw, hd⟩ := Option.map_eq_some_iff.mp h
  obtain ⟨hadds, hview⟩ := adds_set hok hfree hw
  obtain ⟨kx, hkx, hex⟩ := hx
  have hfree_ne : ∀ {j t}, d.view j = some t → j ≠ pos := by
    rintro j t hj rfl
    rw [hfree] at hj
    cases hj
  -- the new item
  have hnew : w.view pos = some ⟨k, v, hk, UInt64.ofNat pos, none⟩ := by rw [hview, Function.update_self]
  obtain ⟨y, hy, -⟩ := addr_of_view hnew
  have hptr : w.getPtr pos = some y := by rw [hadds.ok.getPtr_eq, hnew, hy]; rfl
  -- the one before it
  have hold : w.view kx = some e := by rw [hview, Function.update_of_ne (hfree_ne hex), hex]
  have hpoke := hadds.poke (f := fun e => { e with next := w.getPtr pos }) hkx hold
  dsimp only at hd
  rw [hd, hptr] at hpoke
  obtain ⟨hadds', hview', haddr'⟩ := hpoke
  refine ⟨pos, y, h256, hmax, hadds', ?_, ?_, ?_⟩
  · exact ⟨kx, hadds'.addr _ _ hkx, by rw [hview', Function.update_self]⟩
  · exact ⟨pos, by rw [haddr', hy], by rw [hview', Function.update_of_ne (hfree_ne hex).symm, hnew]⟩
  · rintro t m hm ⟨j, hj, hjm⟩
    have hjx : j ≠ kx := by
      rintro rfl
      exact hm (Option.some.inj (hj.symm.trans hkx))
    refine ⟨j, hadds'.addr _ _ hj, ?_⟩
    rw [hview', Function.update_of_ne hjx, hview, Function.update_of_ne (hfree_ne hjm), hjm]

/-! ## The loop of `add` -/

section Loop

variable [DecidableEq K] [DecidableEq V] {l : List (Ptr × Contained K V)} {fuel : Nat}
  {r : Inpvec (Contained K V) × AddResult}

theorem isEqual_iff : e.isEqual k v = true ↔ e.pair = (k, v) := by
  rw [Contained.isEqual, decide_eq_true_iff, Contained.pair, Prod.mk.injEq, eq_comm, @eq_comm _ v]

theorem addLoop_mono {m : Nat} (hle : fuel ≤ m) :
    ∀ {x : Ptr}, addLoop d k v hk n fuel x = some r → addLoop d k v hk n m x = some r := by
  induction fuel generalizing m with
  | zero => intro x h; cases h
  | succ fuel ih =>
    intro x h
    obtain ⟨m, rfl⟩ : ∃ m', m = m' + 1 := ⟨m - 1, by omega⟩
    unfold addLoop at h ⊢
    split
    · rename_i hnone
      rw [hnone] at h
      cases h
    · rename_i e he
      rw [he] at h
      dsimp only at h ⊢
      split
      · rename_i heq
        rw [if_pos heq] at h
        exact h
      · rename_i hne
        rw [if_neg hne] at h
        split
        · rename_i hnext
          rw [hnext] at h
          exact h
        · rename_i q hnext
          rw [hnext] at h
          exact ih (by omega) h

/-- The pair is in the chain already. -/
theorem addLoop_of_mem (h : Linked d.Stands Contained.next (some x) l) (hlen : l.length ≤ fuel)
    (hmem : (k, v) ∈ l.map (·.2.pair)) : addLoop d k v hk n fuel x = some (d, .hasAlready) := by
  induction l generalizing x fuel with
  | nil => cases h
  | cons a l ih =>
    cases h with
    | cons ha hrest =>
      rename_i e
      obtain ⟨fuel, rfl⟩ : ∃ m, fuel = m + 1 := ⟨fuel - 1, by rw [List.length_cons] at hlen; omega⟩
      unfold addLoop
      rw [ha.deref]
      dsimp only
      by_cases heq : e.isEqual k v = true
      · rw [if_pos heq]
      · rw [if_neg heq]
        have hmem : (k, v) ∈ l.map (·.2.pair) :=
          (List.mem_cons.mp hmem).resolve_left fun h => heq (isEqual_iff.mpr h.symm)
        cases hnext : e.next with
        | none =>
          rw [hnext] at hrest
          cases hrest
          cases hmem
        | some q =>
          rw [hnext] at hrest
          exact ih hrest (by rw [List.length_cons] at hlen; omega) hmem

/-- It is not, and goes to the end. -/
theorem addLoop_of_notMem {y : Ptr} (h : Linked d.Stands Contained.next (some x) (l ++ [(y, e)]))
    (hlen : l.length < fuel) (hmem : (k, v) ∉ (l ++ [(y, e)]).map (·.2.pair)) :
    addLoop d k v hk n fuel x = (append d k v hk y n).map (·, .appendOk) := by
  induction l generalizing x fuel with
  | nil =>
    cases h with
    | cons ha hrest =>
      obtain ⟨fuel, rfl⟩ : ∃ m, fuel = m + 1 := ⟨fuel - 1, by omega⟩
      have hne : ¬ e.isEqual k v = true := fun heq => hmem (by simp [isEqual_iff.mp heq])
      unfold addLoop
      rw [ha.deref]
      dsimp only
      rw [if_neg hne, hrest.head]
      rfl
  | cons a l ih =>
    cases h with
    | cons ha hrest =>
      rename_i f
      obtain ⟨fuel, rfl⟩ : ∃ m, fuel = m + 1 := ⟨fuel - 1, by rw [List.length_cons] at hlen; omega⟩
      have hmem := not_or.mp (List.mem_cons.not.mp hmem)
      have hne : ¬ f.isEqual k v = true := fun heq => hmem.1 (isEqual_iff.mp heq).symm
      unfold addLoop
      rw [ha.deref]
      dsimp only
      rw [if_neg hne]
      cases hnext : f.next with
      | none =>
        rw [hnext] at hrest
        cases l <;> cases hrest
      | some q =>
        rw [hnext] at hrest
        exact ih hrest (by rw [List.length_cons] at hlen; omega) hmem.2

end Loop

/-! ## A page that was only added to -/

/-- The position of a key on its page. -/
def pgpos (F : K → UInt64) (k : K) : Nat := (F k &&& 0xff).toNat

theorem pgpos_lt {F : K → UInt64} : pgpos F k < 256 := by
  rw [pgpos, UInt64.toNat_and]
  exact Nat.lt_of_le_of_lt Nat.and_le_right (by decide)

/-- The pairs of `xs` are on the page, each on the chain of its position, in their order. The last
    two say how much memory there is at most. -/
structure Stores (F : K → UInt64) (p : Page K V) (xs : List (K × V)) : Prop where
  ok : p.data.Ok
  nItems : p.data.nItems = xs.length
  first : p.data.pages[0]?.map CodeSLoop.Page.mul = some 1
  chain : ∀ h < 256, ∃ l, Linked p.data.Stands Contained.next (p.data.getPtr h) l ∧
    l.map (·.2.pair) = xs.filter (fun e => pgpos F e.1 = h) ∧ ∀ e ∈ l, e.2.hashKey = F e.2.key
  size : p.data.size ≤ 2 ^ 32 * (xs.length + 1)
  tail : xs.length < 2 ^ 24 → p.data.tail.mul.toNat ≤ 2 * xs.length + 6

theorem stores_init {F : K → UInt64} : Stores F (default : Page K V) [] where
  ok := ok_init
  nItems := rfl
  first := rfl
  chain h _ := by
    refine ⟨[], ?_, rfl, nofun⟩
    have hnone : (default : Page K V).data.getPtr h = none := by
      rw [show (default : Page K V).data = Inpvec.init from rfl, ok_init.getPtr_eq, view_init]
      rfl
    rw [hnone]
    exact .nil
  size := by
    have h64 : (default : Page K V).data.size = 64 := rfl
    rw [h64, List.length_nil]
    omega
  tail _ := by
    have h1 : (default : Page K V).data.tail.mul.toNat = 1 := rfl
    rw [h1]
    omega

namespace Stores

variable {F : K → UInt64} {p p' : Page K V} {xs : List (K × V)} {fuel : Nat} {r : AddResult}

/-- An item of a chain is on the position of its key. -/
theorem pgpos_of_mem {h : Nat} {l : List (Ptr × Contained K V)}
    (hl : l.map (·.2.pair) = xs.filter (fun e => pgpos F e.1 = h)) :
    ∀ a ∈ l, a.2.pair ∈ xs ∧ pgpos F a.2.key = h := by
  intro a ha
  have hmem : a.2.pair ∈ xs.filter (fun e => pgpos F e.1 = h) := hl ▸ List.mem_map_of_mem ha
  rw [List.mem_filter, decide_eq_true_iff] at hmem
  exact hmem

theorem mem_iff {l : List (Ptr × Contained K V)}
    (hl : l.map (·.2.pair) = xs.filter (fun e => pgpos F e.1 = pgpos F k)) :
    (k, v) ∈ l.map (·.2.pair) ↔ (k, v) ∈ xs := by
  rw [hl, List.mem_filter]
  simp

/-- A position is used if a pair belongs there. -/
theorem used_iff (hs : Stores F p xs) {h : Nat} (hh : h < 256) :
    (p.data.view h).isSome ↔ ∃ e ∈ xs, pgpos F e.1 = h := by
  obtain ⟨l, hlink, hl, -⟩ := hs.chain h hh
  rw [← hs.ok.isSome_getPtr, hlink.head]
  constructor
  · intro hsome
    cases l with
    | nil => cases hsome
    | cons a l => exact ⟨_, pgpos_of_mem hl a (List.mem_cons_self ..)⟩
  · rintro ⟨e, he, heq⟩
    cases l with
    | nil =>
      have hmem : e ∈ xs.filter (fun e => pgpos F e.1 = h) := List.mem_filter.mpr ⟨he, decide_eq_true heq⟩
      rw [← hl] at hmem
      cases hmem
    | cons a l => rfl

/-- What a page that was only added to becomes with one more item, given the chain at its
    position. -/
theorem of_adds (hs : Stores F p xs) {pos : Nat} (l' : List (Ptr × Contained K V))
    (hadds : Adds p.data p'.data pos) (hpos : pos = pgpos F k ∨ 256 ≤ pos ∧ pos ≤ max 256 p.data.size)
    (hlink : Linked p'.data.Stands Contained.next (p'.data.getPtr (pgpos F k)) l')
    (hl' : l'.map (·.2.pair) = (xs ++ [(k, v)]).filter (fun e => pgpos F e.1 = pgpos F k))
    (hkeys : ∀ e ∈ l', e.2.hashKey = F e.2.key)
    (hkeep : ∀ z t, pgpos F t.key ≠ pgpos F k → p.data.Stands z t → p'.data.Stands z t) :
    Stores F p' (xs ++ [(k, v)]) where
  ok := hadds.ok
  nItems := by rw [hadds.nItems, hs.nItems, List.length_append, List.length_singleton]
  first := hadds.first.trans hs.first
  chain h hh := by
    by_cases hk : h = pgpos F k
    · subst hk
      exact ⟨l', hlink, hl', hkeys⟩
    · -- the chains of the other positions are what they were
      obtain ⟨l, hlink, hl, hkeys⟩ := hs.chain h hh
      have hne : h ≠ pos := by
        have := pgpos_lt (F := F) (k := k)
        omega
      refine ⟨l, ?_, ?_, hkeys⟩
      · rw [hadds.getPtr hs.ok hne]
        refine hlink.mono fun a ha => hkeep _ _ ?_ (hlink.holds_of_mem a ha)
        rw [(pgpos_of_mem hl a ha).2]
        exact hk
      · rw [hl, List.filter_append]
        simp [Ne.symm hk]
  size := by
    have hsize := hs.size
    have hgrow := hadds.size
    have := pgpos_lt (F := F) (k := k)
    rw [List.length_append, List.length_singleton]
    omega
  tail hlt := by
    rw [List.length_append, List.length_singleton] at hlt ⊢
    have hsize := hs.size
    have htail := hs.tail (by omega)
    have := pgpos_lt (F := F) (k := k)
    have hgrow := hadds.tail (by omega) (by omega) (by omega)
    omega

theorem filter_concat {l : List (Ptr × Contained K V)}
    (hl : l.map (·.2.pair) = xs.filter (fun e => pgpos F e.1 = pgpos F k)) :
    (xs ++ [(k, v)]).filter (fun e => pgpos F e.1 = pgpos F k) = l.map (·.2.pair) ++ [(k, v)] := by
  rw [List.filter_append, ← hl]
  simp

/-- The first pair of its position. -/
theorem set {y : Option Ptr} (hs : Stores F p xs) (hptr : p.data.getPtr (pgpos F k) = none)
    (h : p.data.set (pgpos F k) ⟨k, v, F k, F k &&& 0xff, none⟩ fuel = some (d', y)) :
    (∀ e ∈ xs, pgpos F e.1 ≠ pgpos F k) ∧ Stores F ⟨d'⟩ (xs ++ [(k, v)]) := by
  have hfree : p.data.view (pgpos F k) = none := by
    rw [← Option.not_isSome_iff_eq_none, ← hs.ok.isSome_getPtr, hptr]
    exact Bool.false_ne_true
  have hnone : ∀ e ∈ xs, pgpos F e.1 ≠ pgpos F k := fun e he heq => by
    have hused := (hs.used_iff pgpos_lt).mpr ⟨e, he, heq⟩
    rw [hfree] at hused
    cases hused
  obtain ⟨hadds, hview⟩ := adds_set hs.ok hfree h
  have hnew : d'.view (pgpos F k) = some ⟨k, v, F k, F k &&& 0xff, none⟩ := by
    rw [hview, Function.update_self]
  obtain ⟨z, hz, -⟩ := addr_of_view hnew
  have hgot : d'.getPtr (pgpos F k) = some z := by
    rw [hadds.ok.getPtr_eq, hnew, hz]
    rfl
  refine ⟨hnone, hs.of_adds [(z, ⟨k, v, F k, F k &&& 0xff, none⟩)] hadds (Or.inl rfl) ?_ ?_ ?_ ?_⟩
  · rw [hgot]
    exact .cons ⟨_, hz, hnew⟩ .nil
  · have hnil : xs.filter (fun e => pgpos F e.1 = pgpos F k) = [] :=
      List.filter_eq_nil_iff.mpr fun e he => by simpa using hnone e he
    rw [filter_concat (l := []) hnil.symm]
    rfl
  · intro e he
    rw [List.mem_singleton.mp he]
  · rintro t m - ⟨j, hj, hjm⟩
    refine ⟨j, hadds.addr j t hj, ?_⟩
    rw [hview, Function.update_of_ne, hjm]
    rintro rfl
    rw [hfree] at hjm
    cases hjm

/-- A pair behind the last one of its position. -/
theorem append {l : List (Ptr × Contained K V)} {y : Ptr} (hs : Stores F p xs)
    (hlink : Linked p.data.Stands Contained.next (p.data.getPtr (pgpos F k)) (l ++ [(y, e)]))
    (hl : (l ++ [(y, e)]).map (·.2.pair) = xs.filter (fun e => pgpos F e.1 = pgpos F k))
    (hkeys : ∀ a ∈ l ++ [(y, e)], a.2.hashKey = F a.2.key) (h : Page.append p.data k v (F k) y fuel = some d') :
    Stores F ⟨d'⟩ (xs ++ [(k, v)]) := by
  have hlast : p.data.Stands y e := hlink.holds_of_mem (y, e) (by simp)
  obtain ⟨pos, z, h256, hmax, hadds, hy, hz, hkeep⟩ := append_spec hs.ok hlast h
  have hnodup : ((l ++ [(y, e)]).map Prod.fst).Nodup := hlink.nodup fun _ _ _ ht ht' => ht.fun ht'
  have hne : pgpos F k ≠ pos := by
    have := pgpos_lt (F := F) (k := k)
    omega
  refine hs.of_adds (l ++ [(y, { e with next := some z }), (z, ⟨k, v, F k, UInt64.ofNat pos, none⟩)]) hadds
    (Or.inr ⟨h256, hmax⟩) ?_ ?_ ?_ ?_
  · rw [hadds.getPtr hs.ok hne]
    refine hlink.hang (fun a ha => hkeep _ _ ?_ (hlink.holds_of_mem a (by simp [ha]))) hy rfl hz rfl
    intro heq
    rw [List.map_append, List.nodup_append] at hnodup
    exact hnodup.2.2 _ (List.mem_map_of_mem ha) _ (List.mem_singleton_self _) heq
  · rw [filter_concat hl]
    simp [Contained.pair]
  · intro a ha
    rcases List.mem_append.mp ha with ha | ha
    · exact hkeys a (by simp [ha])
    · rcases List.mem_pair.mp ha with rfl | rfl
      · exact hkeys (y, e) (by simp)
      · rfl
  · intro t m hm ht
    refine hkeep t m ?_ ht
    intro heq
    rw [heq] at ht
    rw [ht.fun hlast] at hm
    exact hm (pgpos_of_mem hl (y, e) (by simp)).2

/-- What `n_free()` says: the first page of `data_` has 64 positions and no more. -/
theorem nFree (hs : Stores F p xs) (hne : xs ≠ []) :
    p.nFree.toNat ≤ 64 ∧ (p.nFree = 0 ↔ ∀ h < 64, ∃ e ∈ xs, pgpos F e.1 = h) := by
  obtain ⟨q, hq, hmul⟩ := Option.map_eq_some_iff.mp hs.first
  have hbegin : p.data.begin = ⟨some 0, 0, 0⟩ := by
    refine if_neg fun h0 => hne (List.length_eq_zero_iff.mp ?_)
    rw [← hs.nItems, h0]
  have hfree : p.nFree = q.nFree := by
    rw [Page.nFree, iterNFree, hbegin]
    simp [hq]
  have hsize : q.size = 64 := by rw [CodeSLoop.Page.size, hmul]; rfl
  obtain ⟨hle, hzero⟩ := CodeSLoop.Page.nFree_of_one hmul
  rw [hfree]
  refine ⟨hle, hzero.trans (forall₂_congr fun h hh => ?_)⟩
  have hvalid : Valid p.data ⟨some 0, h, h⟩ 0 q := ⟨rfl, hq, by rw [hsize]; exact hh, by simp⟩
  rw [← hs.used_iff (by omega), hvalid.view, (hs.ok.getElem? hq).isSome_view]

theorem not_beyond : ¬ (F k &&& 0xff > 256) := by
  rw [gt_iff_lt, UInt64.lt_iff_toNat_lt, Nat.not_lt]
  exact (pgpos_lt (F := F) (k := k)).le

variable [DecidableEq K] [DecidableEq V]

/-- **A pair added** on the position of its key. It is on the page already, or it is the first one
    of its position, or it goes behind those that are there. -/
theorem add (hs : Stores F p xs) (h : p.add (F k &&& 0xff) k v (F k) fuel = some (p', r)) :
    ((k, v) ∈ xs ∧ p' = p ∧ r = .hasAlready) ∨
      ((k, v) ∉ xs ∧ Stores F p' (xs ++ [(k, v)]) ∧
        (r = .ok ∧ (∀ e ∈ xs, pgpos F e.1 ≠ pgpos F k) ∨ r = .appendOk ∧ ∃ e ∈ xs, pgpos F e.1 = pgpos F k)) := by
  rw [Page.add, if_neg not_beyond] at h
  cases hptr : p.data.getPtr (F k &&& 0xff).toNat with
  | none =>
    rw [hptr] at h
    obtain ⟨⟨d', y⟩, hset, heq⟩ := Option.map_eq_some_iff.mp h
    cases heq
    obtain ⟨hnone, hs'⟩ := hs.set hptr hset
    exact Or.inr ⟨fun hmem => hnone _ hmem rfl, hs', Or.inl ⟨rfl, hnone⟩⟩
  | some x =>
    rw [hptr] at h
    obtain ⟨⟨d', r'⟩, hloop, heq⟩ := Option.map_eq_some_iff.mp h
    cases heq
    obtain ⟨l, hlink, hl, hkeys⟩ := hs.chain (pgpos F k) pgpos_lt
    have hstart : p.data.getPtr (pgpos F k) = some x := hptr
    have hloop := addLoop_mono (Nat.le_add_right fuel (l.length + 1)) hloop
    by_cases hmem : (k, v) ∈ l.map (·.2.pair)
    · rw [addLoop_of_mem (hstart ▸ hlink) (by omega) hmem] at hloop
      cases hloop
      exact Or.inl ⟨(mem_iff hl).mp hmem, rfl, rfl⟩
    · -- to the end of the chain
      obtain ⟨l, ⟨y, e⟩, rfl⟩ : ∃ l₀ a, l = l₀ ++ [a] := by
        refine (List.eq_nil_or_concat' l).resolve_left fun h0 => ?_
        rw [hstart, h0] at hlink
        cases hlink
      rw [addLoop_of_notMem (hstart ▸ hlink) (by rw [List.length_append]; omega) hmem] at hloop
      obtain ⟨d'', happ, heq⟩ := Option.map_eq_some_iff.mp hloop
      cases heq
      have hlast := pgpos_of_mem hl (y, e) (by simp)
      exact Or.inr ⟨fun hxs => hmem ((mem_iff hl).mpr hxs), hs.append hlink hl hkeys happ,
        Or.inr ⟨rfl, _, hlast.1, hlast.2⟩⟩

/-- With enough fuel it returns, as long as there is memory. -/
theorem add_returns (hs : Stores F p xs) (hlt : xs.length < 2 ^ 24) (hfuel : xs.length + 2 ≤ fuel) :
    ∃ r, p.add (F k &&& 0xff) k v (F k) fuel = some r := by
  have hsize := hs.size
  have htail := hs.tail hlt
  have hset : ∀ (pos : Nat) (e : Contained K V), pos ≤ max 256 p.data.size →
      ∃ r, p.data.set pos e fuel = some r := by
    intro pos e hpos
    have hpos' : pos < p.data.size + (2 ^ 32 - 128) := by omega
    obtain ⟨r, hr, -⟩ := set_returns (t := e) hpos' (by omega) (by omega)
    exact ⟨r, set_mono (by omega) hr⟩
  rw [Page.add, if_neg not_beyond]
  cases hptr : p.data.getPtr (F k &&& 0xff).toNat with
  | none =>
    have := pgpos_lt (F := F) (k := k)
    obtain ⟨r, hr⟩ := hset (pgpos F k) ⟨k, v, F k, F k &&& 0xff, none⟩ (by omega)
    exact ⟨_, congrArg (Option.map _) hr⟩
  | some x =>
    obtain ⟨l, hlink, hl, -⟩ := hs.chain (pgpos F k) pgpos_lt
    have hlen : l.length ≤ xs.length := by
      rw [← List.length_map (f := fun a => a.2.pair), hl]
      exact List.length_filter_le _ _
    have hstart : p.data.getPtr (pgpos F k) = some x := hptr
    rw [hstart] at hlink
    by_cases hmem : (k, v) ∈ l.map (·.2.pair)
    · exact ⟨_, congrArg (Option.map _) (addLoop_of_mem hlink (by omega) hmem)⟩
    · obtain ⟨l, ⟨y, e⟩, rfl⟩ : ∃ l₀ a, l = l₀ ++ [a] := by
        refine (List.eq_nil_or_concat' l).resolve_left fun h0 => ?_
        rw [h0] at hlink
        cases hlink
      rw [List.length_append] at hlen
      have hloop : addLoop p.data k v (F k) fuel fuel x =
          (Page.append p.data k v (F k) y fuel).map (·, .appendOk) :=
        addLoop_of_notMem hlink (by omega) hmem
      obtain ⟨-, hlast, -⟩ := append_place hs.ok rfl
      obtain ⟨r, hr⟩ := hset _ ⟨k, v, F k, UInt64.ofNat _, none⟩ hlast
      rw [Page.append, hr] at hloop
      exact ⟨_, congrArg (Option.map _) hloop⟩

end Stores

end Page

end HashHelpers

end CodeSLoop
