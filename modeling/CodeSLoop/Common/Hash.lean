import CodeSLoop.Common.HashPage
import CodeSLoop.Common.HashIndex

/-!
# The hash table (`common/hash.hh`)

A hash keeps (key, value) pairs on pages, and the index leads from the hash key to the page. There
is no way to get anything back yet: `get`, `has_key` and `del` say no to everything. `set` takes a
pair that is not there, and refuses one that is.

A pair that was taken is *reachable* when the index leads from its key to a page on which the
chain at its position has it. That is so as long as no page was split (`Sound`). `set` wants to
split a page when a chain has got longer and either the first 64 positions are all used or there
are more than 256 items. The pairs stay where they are then, and the index is changed to a link
that leads nowhere, so the pairs at the position are not reachable any more (`hash_iff`).
-/

namespace CodeSLoop

open Inpvec HashHelpers HashHelpers.Page HashHelpers.Index Chains Lts

/-- `hash`. -/
structure Hash (K V : Type) where
  pages : Inpvec (HashHelpers.Page K V)
  index : Index

namespace Hash

variable {K V : Type}

/-! ## The operations -/

def init : Hash K V := ⟨Inpvec.init, default⟩

/-- `create_page`: the page, and its position. -/
def createPage (h : Hash K V) : Option (Hash K V × Ptr × UInt64) :=
  h.pages.lastFree.bind fun r =>
    let (pages, ret) := r.1.iterConstruct r.2
    ret.map fun pg => ({ h with pages }, pg, UInt64.ofNat r.2.gpos)

/-- The loop of `page_reuse_hint`. -/
def hintLoop (h : Hash K V) (pos : UInt64) : Nat → Iter → Option (Option UInt64)
  | 0, _ => none
  | fuel + 1, it =>
    if it.eq endIt then some none
    else
      ((h.pages.star it).bind h.pages.deref).bind fun pg =>
        if (pg.get pos).isNone then some (some (UInt64.ofNat it.gpos))
        else hintLoop h pos fuel (h.pages.inc it)

/-- `page_reuse_hint`: the position of a page that has nothing at `pos`, or no hint. -/
def pageReuseHint (h : Hash K V) (pos : UInt64) (fuel : Nat) : Option (Option UInt64) :=
  hintLoop h pos fuel h.pages.begin

/-- The page for a hash key that the index does not know, and its position. -/
def newPlace (h : Hash K V) (pos : UInt64) (fuel : Nat) : Option (Hash K V × Ptr × UInt64) :=
  (h.pageReuseHint pos fuel).bind fun
    | none => h.createPage
    | some hn => (h.pages.getPtr hn.toNat).map fun pg => (h, pg, hn)

/-- When `set` wants to share out the items of a page. -/
def wantsSplit (p : HashHelpers.Page K V) : Bool :=
  let nf := p.nFree
  nf = 0 ∨ p.nItems > 256 ∧ nf < 256 / 4 * 3

section Model

variable [DecidableEq K] [DecidableEq V]

/-- `pg->add( pgpos, key, value, hk )`. -/
def addTo (h : Hash K V) (pg : Ptr) (pos : UInt64) (key : K) (value : V) (hk : UInt64) (fuel : Nat) :
    Option (Hash K V × AddResult) :=
  (h.pages.deref pg).bind fun p =>
    (p.add pos key value hk fuel).map fun r => ({ h with pages := h.pages.poke pg fun _ => r.1 }, r.2)

/-- The items are shared out: a new page, `split` of the page and of the index. -/
def share (h : Hash K V) (pg : Ptr) (pos hk shift : UInt64) (fuel : Nat) : Option (Hash K V) := do
  let (h, newpage, _) ← h.createPage
  let p ← h.pages.deref pg
  let newpg ← h.pages.deref newpage
  let (newpg, iv) ← p.split pos shift newpg Inpvec.init fuel
  let (index, _, _) ← h.index.split hk shift iv fuel
  some ⟨h.pages.poke newpage fun _ => newpg, index⟩

/-- `set`. -/
def set (F : K → UInt64) (h : Hash K V) (key : K) (value : V) (fuel : Nat) : Option (Hash K V × Bool) :=
  let hk := F key
  let pgpos := hk &&& 0xff
  match h.index.get hk 0 with
  | (none, _) => do
    let (h, pg, pageid) ← h.newPlace pgpos fuel
    let index ← h.index.internalSet pgpos pageid true fuel
    let (h, _) ← addTo { h with index } pg pgpos key value hk fuel
    some (h, true)
  | (some pageid, shift) => do
    let pg ← h.pages.getPtr pageid.toNat
    let (h, result) ← h.addTo pg pgpos key value hk fuel
    match result with
    | .ok => some (h, true)
    | .hasAlready => some (h, false)
    | .appendOk => do
      let p ← h.pages.deref pg
      if wantsSplit p then
        let h ← h.share pg pgpos hk shift fuel
        some (h, true)
      else some (h, true)
    -- here an exception may be thrown
    | .badPos => some (h, false)

end Model

/-! ## Calls -/

/-- A hash, and the pairs for which `set` has returned true. -/
structure World (K V : Type) where
  hash : Hash K V
  accepted : List (K × V)

/-- A call of `set`, and what it returned. -/
structure Call (K V : Type) where
  key : K
  value : V
  ret : Bool

def World.init : World K V := ⟨Hash.init, []⟩

def Step [DecidableEq K] [DecidableEq V] (F : K → UInt64) (s : World K V) (a : Call K V) (s' : World K V) : Prop :=
  ∃ fuel, s.hash.set F a.key a.value fuel = some (s'.hash, a.ret) ∧
    s'.accepted = if a.ret then s.accepted ++ [(a.key, a.value)] else s.accepted

/-- The index leads from the key to a page, and the pair is in the chain at the key's position
    there. -/
def Reachable (F : K → UInt64) (h : Hash K V) (k : K) (v : V) : Prop :=
  ∃ pageid pg p l, (h.index.get (F k) 0).1 = some pageid ∧ h.pages.getPtr pageid.toNat = some pg ∧
    h.pages.deref pg = some p ∧
    Linked (fun x e => p.data.deref x = some e) Contained.next (p.data.getPtr (pgpos F k)) l ∧
    ∃ a ∈ l, a.2.pair = (k, v)

/-- What a call returns is right. -/
def Told (s : World K V) (a : Call K V) : Prop := a.ret = true ↔ (a.key, a.value) ∉ s.accepted

/-- What is asked of a call. -/
def Right (F : K → UInt64) (s : World K V) (a : Call K V) (s' : World K V) : Prop :=
  Told s a ∧ ∀ e ∈ s'.accepted, Reachable F s'.hash e.1 e.2

/-- The call makes no chain longer when the pairs accepted have all of the first 64 positions or
    are 256 or more. -/
def NoSplit (F : K → UInt64) (s : World K V) (a : Call K V) : Prop :=
  (a.key, a.value) ∉ s.accepted → (∃ e ∈ s.accepted, pgpos F e.1 = pgpos F a.key) →
    s.accepted.length < 256 ∧ ∃ h < 64, ∀ e ∈ s.accepted, pgpos F e.1 ≠ h

/-! ## One page -/

variable {F : K → UInt64} {k : K} {v : V} {fuel : Nat}

/-- The page `p` is at position 0. -/
structure One (pages : Inpvec (HashHelpers.Page K V)) (p : HashHelpers.Page K V) : Prop where
  ok : pages.Ok
  addr : pages.addr 0 = some ⟨0, 0⟩
  view : pages.view 0 = some p

namespace One

variable {pages : Inpvec (HashHelpers.Page K V)} {p p' : HashHelpers.Page K V}

theorem deref (h : One pages p) : pages.deref ⟨0, 0⟩ = some p := deref_of_addr h.addr h.view

theorem getPtr (h : One pages p) : pages.getPtr 0 = some ⟨0, 0⟩ := by
  rw [h.ok.getPtr_eq, h.view, h.addr]
  rfl

theorem begin (h : One pages p) : pages.begin = ⟨some 0, 0, 0⟩ := by
  refine if_neg fun h0 => ?_
  have hview := h.view
  rw [h.ok.view_eq_none h0] at hview
  cases hview

theorem star (h : One pages p) : pages.star ⟨some 0, 0, 0⟩ = some ⟨0, 0⟩ := by
  have hplaced : pages.Placed ⟨some 0, 0, 0⟩ := by
    intro i hi
    cases hi
    exact h.addr
  rw [← hplaced.getPtr rfl]
  exact h.getPtr

theorem poke (h : One pages p) : One (pages.poke ⟨0, 0⟩ fun _ => p') p' := by
  obtain ⟨hview, hok, hsizes, -⟩ := poke_spec (f := fun _ => p') h.ok h.addr h.view
  exact ⟨hok, by rw [addr_congr hsizes, h.addr], by rw [hview, Function.update_self]⟩

end One

/-- The first page. -/
theorem createPage_init (x : Index) : ∃ pages : Inpvec (HashHelpers.Page K V),
    createPage ⟨Inpvec.init, x⟩ = some (⟨pages, x⟩, ⟨0, 0⟩, 0) ∧ One pages default := by
  have hvalid : Valid (Inpvec.init : Inpvec (HashHelpers.Page K V)) ⟨some 0, 0, 0⟩ 0 (CodeSLoop.Page.mulAlloc 1) :=
    ⟨rfl, rfl, (by decide : 0 < 64), rfl⟩
  obtain ⟨hview, hok, -⟩ := iterConstruct_spec ok_init hvalid
  refine ⟨(Inpvec.init.iterConstruct ⟨some 0, 0, 0⟩).1, rfl, hok, ?_, ?_⟩
  · rw [addr_congr sizes_iterConstruct]
    exact hvalid.addr
  · rw [hview, view_init, Function.update_self]
    rfl

/-! ## The pairs accepted -/

/-- The positions that the pairs of `xs` have. -/
def Taken (F : K → UInt64) (xs : List (K × V)) (h : Nat) : Prop := ∃ e ∈ xs, pgpos F e.1 = h

theorem taken_concat {xs : List (K × V)} {h : Nat} :
    Taken F (xs ++ [(k, v)]) h ↔ Taken F xs h ∨ h = pgpos F k := by
  constructor
  · rintro ⟨e, he, heq⟩
    rcases List.mem_append.mp he with he | he
    · exact Or.inl ⟨e, he, heq⟩
    · rw [List.mem_singleton.mp he] at heq
      exact Or.inr heq.symm
  · rintro (⟨e, he, heq⟩ | heq)
    · exact ⟨e, List.mem_append_left _ he, heq⟩
    · exact ⟨(k, v), by simp, heq.symm⟩

/-- All pairs are on one page, and the index leads there. -/
structure Sound (F : K → UInt64) (s : World K V) : Prop where
  start : s.accepted = [] → s.hash.pages = Inpvec.init
  page : s.accepted ≠ [] → ∃ p, One s.hash.pages p ∧ Stores F p s.accepted
  index : Flat s.hash.index (Taken F s.accepted) s.accepted.length

theorem sound_init : Sound F (World.init : World K V) where
  start _ := rfl
  page h := absurd rfl h
  index := flat_init.congr (fun _ => ⟨False.elim, fun h => by obtain ⟨e, he, -⟩ := h; cases he⟩) (Nat.le_refl _)

/-- A hash with one page is sound. -/
theorem sound_of_one {pages : Inpvec (HashHelpers.Page K V)} {p : HashHelpers.Page K V} {x : Index}
    {xs : List (K × V)} (hone : One pages p) (hstores : Stores F p xs) (hne : xs ≠ [])
    (hindex : Flat x (Taken F xs) xs.length) : Sound F ⟨⟨pages, x⟩, xs⟩ where
  start h := absurd h hne
  page _ := ⟨p, hone, hstores⟩
  index := hindex

namespace Sound

variable {s s' : World K V}

theorem reachable (hs : Sound F s) (hmem : (k, v) ∈ s.accepted) : Reachable F s.hash k v := by
  obtain ⟨p, hone, hstores⟩ := hs.page (List.ne_nil_of_mem hmem)
  obtain ⟨l, hlink, hl, -⟩ := hstores.chain (pgpos F k) pgpos_lt
  have hget : s.hash.index.get (F k) 0 = (some 0, 0) := hs.index.get_page ⟨_, hmem, rfl⟩
  refine ⟨0, ⟨0, 0⟩, p, l, by rw [hget], hone.getPtr, hone.deref,
    hlink.mono fun a ha => (hlink.holds_of_mem a ha).deref, ?_⟩
  have hpair := (Stores.mem_iff hl).mpr hmem
  obtain ⟨a, ha, heq⟩ := List.mem_map.mp hpair
  exact ⟨a, ha, heq⟩

/-- The place for a key whose position has no pair yet. -/
theorem newPlace (hs : Sound F s) (hk : ¬ Taken F s.accepted (pgpos F k)) :
    ∃ pages p, One pages p ∧ Stores F p s.accepted ∧ ∀ fuel,
      s.hash.newPlace (F k &&& 0xff) (fuel + 1) = some (⟨pages, s.hash.index⟩, ⟨0, 0⟩, 0) := by
  by_cases hnil : s.accepted = []
  · obtain ⟨pages, hcreate, hone⟩ := createPage_init (K := K) (V := V) s.hash.index
    have hhash : s.hash = ⟨Inpvec.init, s.hash.index⟩ := by rw [← hs.start hnil]
    refine ⟨pages, default, hone, hnil ▸ stores_init, fun fuel => ?_⟩
    have hhint : s.hash.pageReuseHint (F k &&& 0xff) (fuel + 1) = some none := by
      rw [hhash]
      rfl
    rw [Hash.newPlace, hhint, Option.bind_some, hhash]
    exact hcreate
  · obtain ⟨p, hone, hstores⟩ := hs.page hnil
    refine ⟨s.hash.pages, p, hone, hstores, fun fuel => ?_⟩
    have hfree : p.get (F k &&& 0xff) = none := by
      rw [Page.get, if_neg Stores.not_beyond, ← Option.not_isSome_iff_eq_none, hstores.ok.isSome_getPtr]
      exact fun hsome => hk ((hstores.used_iff pgpos_lt).mp hsome)
    have hhint : s.hash.pageReuseHint (F k &&& 0xff) (fuel + 1) = some (some 0) := by
      rw [pageReuseHint, hone.begin, hintLoop, if_neg (by decide), hone.star, Option.bind_some, hone.deref,
        Option.bind_some, hfree]
      rfl
    rw [Hash.newPlace, hhint, Option.bind_some]
    dsimp only
    rw [show (0 : UInt64).toNat = 0 from rfl, hone.getPtr]
    rfl

variable [DecidableEq K] [DecidableEq V]

/-- What `set` comes to for such a key. -/
theorem set_new (hs : Sound F s) (hk : ¬ Taken F s.accepted (pgpos F k)) :
    s.hash.set F k v 0 = none ∧ ∃ pages p, One pages p ∧ Stores F p s.accepted ∧ ∀ fuel,
      s.hash.set F k v (fuel + 1) =
        (s.hash.index.internalSet (F k &&& 0xff) 0 true (fuel + 1)).bind fun index =>
          (p.add (F k &&& 0xff) k v (F k) (fuel + 1)).map fun r =>
            (⟨pages.poke ⟨0, 0⟩ fun _ => r.1, index⟩, true) := by
  have hget : (s.hash.index.get (F k) 0).1 = none := hs.index.get_none hk
  obtain ⟨pages, p, hone, hstores, hplace⟩ := hs.newPlace hk
  generalize hgot : s.hash.index.get (F k) 0 = got at hget
  obtain ⟨_, shift⟩ := got
  cases hget
  refine ⟨by rw [Hash.set, hgot]; rfl, pages, p, hone, hstores, fun fuel => ?_⟩
  rw [Hash.set, hgot]
  dsimp only
  rw [hplace]
  dsimp only [Option.bind_eq_bind, Option.bind_some]
  cases s.hash.index.internalSet (F k &&& 0xff) 0 true (fuel + 1) with
  | none => rfl
  | some index =>
    rw [Option.bind_some, Option.bind_some, addTo, hone.deref, Option.bind_some]
    cases p.add (F k &&& 0xff) k v (F k) (fuel + 1) <;> rfl

/-- What `set` comes to for a key whose position has pairs. -/
theorem set_old (hs : Sound F s) (hk : Taken F s.accepted (pgpos F k)) :
    ∃ p, One s.hash.pages p ∧ Stores F p s.accepted ∧ ∀ fuel,
      s.hash.set F k v fuel = (p.add (F k &&& 0xff) k v (F k) fuel).bind fun r =>
        match r.2 with
        | .ok => some (⟨s.hash.pages.poke ⟨0, 0⟩ fun _ => r.1, s.hash.index⟩, true)
        | .hasAlready => some (⟨s.hash.pages.poke ⟨0, 0⟩ fun _ => r.1, s.hash.index⟩, false)
        | .appendOk =>
          if wantsSplit r.1 then
            (share ⟨s.hash.pages.poke ⟨0, 0⟩ fun _ => r.1, s.hash.index⟩ ⟨0, 0⟩ (F k &&& 0xff) (F k) 0 fuel).map
              (·, true)
          else some (⟨s.hash.pages.poke ⟨0, 0⟩ fun _ => r.1, s.hash.index⟩, true)
        | .badPos => some (⟨s.hash.pages.poke ⟨0, 0⟩ fun _ => r.1, s.hash.index⟩, false) := by
  have hne : s.accepted ≠ [] := by
    obtain ⟨e, he, -⟩ := hk
    exact List.ne_nil_of_mem he
  obtain ⟨p, hone, hstores⟩ := hs.page hne
  refine ⟨p, hone, hstores, fun fuel => ?_⟩
  rw [Hash.set, hs.index.get_page hk]
  dsimp only
  rw [show (0 : UInt64).toNat = 0 from rfl, hone.getPtr, Option.bind_eq_bind, Option.bind_some, addTo, hone.deref,
    Option.bind_some]
  cases p.add (F k &&& 0xff) k v (F k) fuel with
  | none => rfl
  | some r =>
    obtain ⟨p', result⟩ := r
    cases result with
    | ok => rfl
    | hasAlready => rfl
    | badPos => rfl
    | appendOk =>
      dsimp only [Option.map_some, Option.bind_eq_bind, Option.bind_some]
      have hnew : One (s.hash.pages.poke ⟨0, 0⟩ fun _ => p') p' := hone.poke
      rw [hnew.deref, Option.bind_some]
      split
      · rw [Option.map_eq_bind]
        rfl
      · rfl

end Sound

theorem wantsSplit_iff {p : HashHelpers.Page K V} {xs : List (K × V)} (h : Stores F p xs) (hne : xs ≠ []) :
    wantsSplit p = true ↔ (∀ h < 64, Taken F xs h) ∨ 256 < xs.length := by
  obtain ⟨hle, hzero⟩ := h.nFree hne
  have hlt : p.nFree < 256 / 4 * 3 := by
    rw [UInt64.lt_iff_toNat_lt]
    exact Nat.lt_of_le_of_lt hle (by decide)
  rw [wantsSplit, decide_eq_true_iff, hzero, HashHelpers.Page.nItems, h.nItems, and_iff_left hlt]
  rfl

/-- The page after a chain got longer, in terms of the pairs before. -/
theorem wantsSplit_concat_iff {p : HashHelpers.Page K V} {xs : List (K × V)} (h : Stores F p (xs ++ [(k, v)]))
    (hk : Taken F xs (pgpos F k)) :
    wantsSplit p = true ↔ ¬ (xs.length < 256 ∧ ∃ h < 64, ∀ e ∈ xs, pgpos F e.1 ≠ h) := by
  have htaken : ∀ j, Taken F (xs ++ [(k, v)]) j ↔ Taken F xs j := fun j => by
    rw [taken_concat]
    exact or_iff_left_of_imp fun heq => heq ▸ hk
  rw [wantsSplit_iff h (by simp), List.length_append, List.length_singleton]
  constructor
  · rintro (hall | hlt) ⟨hlen, j, hj, hfree⟩
    · obtain ⟨e, he, heq⟩ := (htaken j).mp (hall j hj)
      exact hfree e he heq
    · omega
  · intro hno
    by_cases hlen : xs.length < 256
    · refine Or.inl fun j hj => (htaken j).mpr ?_
      by_contra hfree
      exact hno ⟨hlen, j, hj, fun e he heq => hfree ⟨e, he, heq⟩⟩
    · exact Or.inr (by omega)

/-- After the items were shared out, the key is not found. -/
theorem get_share [DecidableEq K] [DecidableEq V] {h h' : Hash K V} {S : Nat → Prop} {m : Nat} {pg : Ptr}
    (hflat : Flat h.index S m) (hk : S (pgpos F k)) (hs : h.share pg (F k &&& 0xff) (F k) 0 fuel = some h') :
    (h'.index.get (F k) 0).1 = none := by
  rw [share] at hs
  obtain ⟨⟨h₁, newpage, newpgid⟩, hcreate, hs⟩ := Option.bind_eq_some_iff.mp hs
  obtain ⟨p, -, hs⟩ := Option.bind_eq_some_iff.mp hs
  obtain ⟨newpg, -, hs⟩ := Option.bind_eq_some_iff.mp hs
  obtain ⟨⟨newpg', iv⟩, hsplit, hs⟩ := Option.bind_eq_some_iff.mp hs
  obtain ⟨⟨index, shift, b⟩, hindex, hs⟩ := Option.bind_eq_some_iff.mp hs
  cases hs
  -- nothing was put into `posv`
  have hiv : iv = Inpvec.init := by
    obtain ⟨_, -, heq⟩ := Option.map_eq_some_iff.mp hsplit
    cases heq
    rfl
  have hsame : h₁.index = h.index := by
    obtain ⟨r, -, hr⟩ := Option.bind_eq_some_iff.mp hcreate
    obtain ⟨_, -, heq⟩ := Option.map_eq_some_iff.mp hr
    cases heq
    rfl
  rw [hiv, hsame] at hindex
  exact hflat.get_split hk hindex

namespace Sound

variable {s s' : World K V} {a : Call K V} [DecidableEq K] [DecidableEq V]

/-- A call with a key whose position has no pair. -/
theorem step_new (hs : Sound F s) (h : Step F s a s') (hk : ¬ Taken F s.accepted (pgpos F a.key)) :
    a.ret = true ∧ Sound F s' := by
  obtain ⟨k, v, ret⟩ := a
  obtain ⟨hash', acc'⟩ := s'
  obtain ⟨fuel, hset, hacc⟩ := h
  dsimp only at hset hacc hk ⊢
  obtain ⟨hzero, pages, p, hone, hstores, heq⟩ := hs.set_new (v := v) hk
  cases fuel with
  | zero =>
    rw [hzero] at hset
    cases hset
  | succ fuel =>
    rw [heq] at hset
    obtain ⟨index, hindex, hset⟩ := Option.bind_eq_some_iff.mp hset
    obtain ⟨⟨p', r⟩, hadd, hset⟩ := Option.map_eq_some_iff.mp hset
    cases hset
    rw [if_pos rfl] at hacc
    subst hacc
    refine ⟨rfl, ?_⟩
    rcases hstores.add hadd with ⟨hmem, -, -⟩ | ⟨-, hstores', -⟩
    · exact absurd ⟨_, hmem, rfl⟩ hk
    · refine sound_of_one hone.poke hstores' (by simp) ?_
      rw [List.length_append]
      exact (hs.index.set pgpos_lt hindex).congr (fun _ => taken_concat.symm) (Nat.le_refl _)

/-- A call with a key whose position has pairs. -/
theorem step_old (hs : Sound F s) (h : Step F s a s') (hk : Taken F s.accepted (pgpos F a.key)) :
    ((a.key, a.value) ∈ s.accepted ∧ a.ret = false ∧ Sound F s') ∨
      ((a.key, a.value) ∉ s.accepted ∧ a.ret = true ∧
        (NoSplit F s a ∧ Sound F s' ∨ ¬ NoSplit F s a ∧ (s'.hash.index.get (F a.key) 0).1 = none)) := by
  obtain ⟨k, v, ret⟩ := a
  obtain ⟨hash', acc'⟩ := s'
  obtain ⟨fuel, hset, hacc⟩ := h
  dsimp only at hset hacc hk ⊢
  obtain ⟨p, hone, hstores, heq⟩ := hs.set_old (v := v) hk
  rw [heq] at hset
  obtain ⟨⟨p', r⟩, hadd, hset⟩ := Option.bind_eq_some_iff.mp hset
  rcases hstores.add hadd with ⟨hmem, rfl, rfl⟩ | ⟨hmem, hstores', hr⟩
  · -- nothing changes
    cases hset
    rw [if_neg Bool.false_ne_true] at hacc
    subst hacc
    exact Or.inl ⟨hmem, rfl, sound_of_one hone.poke hstores (List.ne_nil_of_mem hmem) hs.index⟩
  · refine Or.inr ⟨hmem, ?_⟩
    rcases hr with ⟨-, hnone⟩ | ⟨rfl, -⟩
    · obtain ⟨e, he, heq⟩ := hk
      exact absurd heq (hnone e he)
    have hflat : Flat s.hash.index (Taken F (s.accepted ++ [(k, v)])) (s.accepted.length + 1) :=
      hs.index.congr (fun j => by rw [taken_concat, or_iff_left_of_imp fun heq => heq ▸ hk]) (Nat.le_succ _)
    have hwants := wantsSplit_concat_iff hstores' hk
    by_cases hw : wantsSplit p' = true
    · dsimp only at hset
      rw [if_pos hw] at hset
      obtain ⟨h', hshare, heq⟩ := Option.map_eq_some_iff.mp hset
      cases heq
      exact ⟨rfl, Or.inr ⟨fun hno => hwants.mp hw (hno hmem hk),
        get_share (h := ⟨s.hash.pages.poke ⟨0, 0⟩ fun _ => p', s.hash.index⟩) hflat
          (taken_concat.mpr (Or.inl hk)) hshare⟩⟩
    · dsimp only at hset
      rw [if_neg hw] at hset
      cases hset
      rw [if_pos rfl] at hacc
      subst hacc
      refine ⟨rfl, Or.inl ⟨fun _ _ => not_not.mp (hwants.not.mp hw), ?_⟩⟩
      refine sound_of_one hone.poke hstores' (by simp) ?_
      rw [List.length_append]
      exact hflat

/-- **One call** of a hash whose pages were not split is right if and only if it does not split
    one. -/
theorem right_iff (hs : Sound F s) (h : Step F s a s') :
    (Right F s a s' ↔ NoSplit F s a) ∧ (NoSplit F s a → Sound F s') := by
  have hacc := h.choose_spec.2
  have hright : ∀ {s' : World K V}, Sound F s' → ∀ e ∈ s'.accepted, Reachable F s'.hash e.1 e.2 :=
    fun hs e he => hs.reachable he
  by_cases hk : Taken F s.accepted (pgpos F a.key)
  · rcases hs.step_old h hk with ⟨hmem, hret, hs'⟩ | ⟨hmem, hret, ⟨hno, hs'⟩ | ⟨hno, hget⟩⟩
    · refine ⟨iff_of_true ⟨?_, hright hs'⟩ fun h => absurd hmem h, fun _ => hs'⟩
      rw [Told, hret]
      exact iff_of_false Bool.false_ne_true fun h => h hmem
    · exact ⟨iff_of_true ⟨iff_of_true hret hmem, hright hs'⟩ hno, fun _ => hs'⟩
    · refine ⟨iff_of_false (fun hr => ?_) hno, fun h => absurd h hno⟩
      -- the pair itself is not reachable
      rw [hret, if_pos rfl] at hacc
      obtain ⟨pageid, _, _, _, hfound, -⟩ := hr.2 (a.key, a.value) (by rw [hacc]; simp)
      rw [hget] at hfound
      cases hfound
  · obtain ⟨hret, hs'⟩ := hs.step_new h hk
    have hmem : (a.key, a.value) ∉ s.accepted := fun hmem => hk ⟨_, hmem, rfl⟩
    exact ⟨iff_of_true ⟨iff_of_true hret hmem, hright hs'⟩ fun _ h => absurd h hk, fun _ => hs'⟩

/-- A call that splits no page returns, as long as there is memory. -/
theorem returns (hs : Sound F s) (hlt : s.accepted.length < 2 ^ 24) (hno : NoSplit F s ⟨k, v, true⟩) :
    ∃ ret s', Step F s ⟨k, v, ret⟩ s' := by
  have hstep : ∀ {h' : Hash K V} {ret : Bool} {fuel : Nat}, s.hash.set F k v fuel = some (h', ret) →
      ∃ ret s', Step F s ⟨k, v, ret⟩ s' := fun {h' ret fuel} hset =>
    ⟨ret, ⟨h', if ret then s.accepted ++ [(k, v)] else s.accepted⟩, fuel, hset, rfl⟩
  by_cases hk : Taken F s.accepted (pgpos F k)
  · obtain ⟨p, hone, hstores, heq⟩ := hs.set_old (v := v) hk
    obtain ⟨⟨p', r⟩, hadd⟩ := hstores.add_returns (k := k) (v := v) hlt (Nat.le_refl _)
    have hset := heq (s.accepted.length + 2)
    rw [hadd, Option.bind_some] at hset
    cases r with
    | ok => exact hstep hset
    | hasAlready => exact hstep hset
    | badPos => exact hstep hset
    | appendOk =>
      have hw : ¬ wantsSplit p' = true := by
        rcases hstores.add hadd with ⟨-, -, hr⟩ | ⟨hmem, hstores', -⟩
        · cases hr
        · rw [wantsSplit_concat_iff hstores' hk, not_not]
          exact hno hmem hk
      dsimp only at hset
      rw [if_neg hw] at hset
      exact hstep hset
  · obtain ⟨-, pages, p, hone, hstores, heq⟩ := hs.set_new (v := v) hk
    obtain ⟨⟨p', r⟩, hadd⟩ := hstores.add_returns (k := k) (v := v) hlt (Nat.le_refl _)
    obtain ⟨index, hindex⟩ :=
      hs.index.set_returns (k := F k &&& 0xff) pgpos_lt hlt (Nat.le_add_left 2 s.accepted.length)
    have hset := heq (s.accepted.length + 1)
    rw [hindex, Option.bind_some, hadd, Option.map_some] at hset
    exact hstep hset

end Sound

/-! ## Runs -/

section Runs

variable [DecidableEq K] [DecidableEq V] {tr : List (Call K V × World K V)}

/-- **A run of calls is right** — each returns true exactly for a pair that was not taken before,
    and all pairs taken are reachable — if and only if no call makes a chain longer once the first
    64 positions are all taken or there are 256 pairs. After such a run the next call that does
    not do that returns, as long as there is memory. -/
theorem hash_iff (h : Run (Step F) (World.init : World K V) tr) :
    (Always (Right F) (World.init : World K V) tr ↔
        Always (fun s a _ => NoSplit F s a) (World.init : World K V) tr) ∧
      (Always (fun s a _ => NoSplit F s a) (World.init : World K V) tr →
        (last World.init tr).accepted.length < 2 ^ 24 → ∀ k v, NoSplit F (last World.init tr) ⟨k, v, true⟩ →
          ∃ ret s', Step F (last World.init tr) ⟨k, v, ret⟩ s') := by
  have hsound : Always (fun s a _ => NoSplit F s a) (World.init : World K V) tr → Sound F (last World.init tr) :=
    fun hno => (h.always_of_guard (I := Sound F) (P := fun _ _ s' => Sound F s')
      (fun _ _ _ hI hg hs => ⟨(hI.right_iff hs).2 hg, (hI.right_iff hs).2 hg⟩) sound_init hno).last_state sound_init
  refine ⟨h.always_iff (I := Sound F) (fun _ _ _ hI hs => (hI.right_iff hs).1)
    (fun _ _ _ hI hs hr => (hI.right_iff hs).2 ((hI.right_iff hs).1.mp hr)) sound_init, ?_⟩
  intro hno hlt k v hnext
  exact (hsound hno).returns hlt hnext

instance (s : World K V) (a : Call K V) : Decidable (NoSplit F s a) := by
  unfold NoSplit
  infer_instance

instance (s : World K V) (a : Call K V) : Decidable (Told s a) := by
  unfold Told
  infer_instance

omit [DecidableEq K] [DecidableEq V] in
theorem told_of_right {s : World K V} (h : Always (Right F) s tr) : Always (fun s a _ => Told s a) s tr :=
  h.mono fun _ _ _ hr => hr.1

/-- `set`, with what is kept of it. -/
def call (F : K → UInt64) (s : World K V) (e : K × V) : Option (Call K V × World K V) :=
  (s.hash.set F e.1 e.2 8).map fun r =>
    (⟨e.1, e.2, r.2⟩, ⟨r.1, if r.2 then s.accepted ++ [e] else s.accepted⟩)

theorem run_of_calls {s : World K V} {es : List (K × V)} (h : replay (call F) s es = some tr) :
    Run (Step F) s tr := by
  refine run_of_replay (fun s e r hr => ?_) es h
  obtain ⟨q, hq, heq⟩ := Option.map_eq_some_iff.mp hr
  cases heq
  exact ⟨8, hq, rfl⟩

end Runs

/-- Three calls with one position, the last one with the first pair again. -/
theorem hash_iff_chain : ∃ tr, Always (Right id) (World.init : World UInt64 UInt64) tr ∧
    tr.map (fun e => (e.1.key, e.1.ret)) = [(1, true), (257, true), (1, false)] := by
  have hr := run_of_calls (Option.some_get (show (replay (call id) (World.init : World UInt64 UInt64)
    [(1, 0), (257, 0), (1, 0)]).isSome = true by decide +kernel)).symm
  exact ⟨_, (hash_iff hr).1.mpr (by decide +kernel), by decide +kernel⟩

/-- A pair for each of the first 64 positions, one more for position 0, and the first pair again. -/
def splitPairs : List (UInt64 × UInt64) := ((List.range 64).map fun i => (UInt64.ofNat i, 0)) ++ [(256, 0), (0, 0)]

/-- The first pair is taken a second time. -/
theorem hash_fails : ∃ tr, Run (Step id) (World.init : World UInt64 UInt64) tr ∧
    tr.map (fun e => (e.1.key, e.1.value)) = splitPairs ∧ ¬ Always (Right id) World.init tr := by
  have hr := run_of_calls (Option.some_get (show (replay (call id) (World.init : World UInt64 UInt64)
    splitPairs).isSome = true by decide +kernel)).symm
  exact ⟨_, hr, by decide +kernel, mt told_of_right (by decide +kernel)⟩

end Hash

end CodeSLoop
