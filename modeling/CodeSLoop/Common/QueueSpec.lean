import CodeSLoop.Common.InpvecSpec
import CodeSLoop.Common.Queue
import Mathlib.Data.List.Chain

/-!
# What the operations of a `queue` do

A queue *links* a list of positions when `head_` and `tail_` stand at its two ends and every
item leads to the next. The links are followed through `get_ptr`, never through the marker 0
that ends the chain: `pop` asks first whether the item it takes out is also the last. So a
slot at position 0 is like any other, and a chain through it reads the same.

The three lemmas of this file say how the chain changes: `push` adds a position nobody used,
`pop` takes the first one off and leaves its slot alone, and letting go of a slot that is not
in the chain does not touch it.
-/

namespace CodeSLoop

open Inpvec

universe u v

namespace Queue

variable {T : Type u} {q : Queue T} {ks : List Nat} {j k : Nat} {x : Ptr} {t : T}

/-! ## The chain -/

/-- The pointers met on the way from a pointer along `next_`, at most the given number. -/
def walk (v : Inpvec (QItem T)) : Nat → Option Ptr → List Ptr
  | 0, _ => []
  | _ + 1, none => []
  | n + 1, some x => x :: walk v n ((v.deref x).bind fun it => v.getPtr it.next)

/-- The slots of the queue, first to last. -/
def links (q : Queue T) : List Ptr := walk q.items q.nItems q.head

/-- The values in the queue, first to last. -/
def pending (q : Queue T) : List T :=
  q.links.filterMap fun x => (q.items.deref x).map QItem.item

/-- The queue is a chain through the positions `ks`. -/
structure Linked (q : Queue T) (ks : List Nat) : Prop where
  ok : q.items.Ok
  odd : q.items.OddTail
  nItems : q.nItems = ks.length
  nodup : ks.Nodup
  head : q.head = ks.head?.bind q.items.addr
  tail : q.tail = ks.getLast?.bind q.items.addr
  pos : ∀ k ∈ ks, (q.items.view k).map QItem.pos = some k
  chain : ks.IsChain fun k k' => (q.items.view k).map QItem.next = some k'

theorem linked_init : (init : Queue T).Linked [] where
  ok := ok_init
  odd := oddTail_init
  nItems := rfl
  nodup := .nil
  head := rfl
  tail := rfl
  pos := by simp
  chain := .nil

theorem Linked.view (h : q.Linked ks) (hk : k ∈ ks) : ∃ it, q.items.view k = some it :=
  let ⟨it, hit, _⟩ := Option.map_eq_some_iff.mp (h.pos k hk)
  ⟨it, hit⟩

theorem Linked.addr (h : q.Linked ks) (hk : k ∈ ks) :
    ∃ x, q.items.addr k = some x ∧ q.items.getPtr k = some x := by
  obtain ⟨it, hit⟩ := h.view hk
  obtain ⟨x, hx, -⟩ := addr_of_view hit
  exact ⟨x, hx, by rw [h.ok.getPtr_eq, hit, hx]; rfl⟩

theorem walk_eq {v : Inpvec (QItem T)} (hok : v.Ok) :
    ∀ {ks : List Nat}, (∀ k ∈ ks, v.view k ≠ none) →
      (ks.IsChain fun k k' => (v.view k).map QItem.next = some k') →
      walk v ks.length (ks.head?.bind v.addr) = ks.filterMap v.addr
  | [], _, _ => rfl
  | k :: ks, hu, hc => by
    obtain ⟨it, hit⟩ := Option.ne_none_iff_exists'.mp (hu k (by simp))
    obtain ⟨x, hx, hd⟩ := addr_of_view hit
    have hu' : ∀ k ∈ ks, v.view k ≠ none := fun j hj => hu j (by simp [hj])
    have ih := walk_eq hok hu' hc.tail
    simp only [List.length_cons, List.head?_cons, Option.bind_some, hx, walk,
      List.filterMap_cons, hd]
    cases ks with
    | nil => rfl
    | cons k' ks =>
      have hnext : it.next = k' := by
        have := (List.isChain_cons_cons.mp hc).1
        rw [hit] at this
        exact Option.some.inj this
      rw [hnext, hok.getPtr_eq, if_pos (Option.isSome_iff_ne_none.mpr (hu' k' (by simp)))]
      exact congrArg _ ih

theorem Linked.links (h : q.Linked ks) : q.links = ks.filterMap q.items.addr := by
  have hu : ∀ k ∈ ks, q.items.view k ≠ none := fun k hk => by
    obtain ⟨it, hit⟩ := h.view hk
    rw [hit]
    exact Option.some_ne_none it
  rw [Queue.links, h.nItems, h.head, walk_eq h.ok hu h.chain]

theorem Linked.pending (h : q.Linked ks) :
    q.pending = ks.filterMap fun k => (q.items.view k).map QItem.item := by
  rw [Queue.pending, h.links, List.filterMap_filterMap]
  refine List.filterMap_congr fun k hk => ?_
  obtain ⟨it, hit⟩ := h.view hk
  obtain ⟨x, hx, hd⟩ := addr_of_view hit
  rw [hx, Option.bind_some, hd, hit]

theorem Linked.nItems_eq (h : q.Linked ks) : q.nItems = q.pending.length := by
  rw [h.pending, h.nItems]
  refine (List.filterMap_length_eq_length.mpr fun k hk => ?_).symm
  obtain ⟨it, hit⟩ := h.view hk
  rw [hit]
  rfl

/-- What makes a queue a chain, from the contents of its slots alone. -/
theorem Linked.congr {q' : Queue T} (h : q.Linked ks) (hok : q'.items.Ok)
    (hodd : q'.items.OddTail) (hn : q'.nItems = q.nItems) (hhead : q'.head = q.head)
    (htail : q'.tail = q.tail) (haddr : q'.items.addr = q.items.addr)
    (hview : ∀ k ∈ ks, q'.items.view k = q.items.view k) : q'.Linked ks where
  ok := hok
  odd := hodd
  nItems := hn.trans h.nItems
  nodup := h.nodup
  head := by rw [hhead, h.head, haddr]
  tail := by rw [htail, h.tail, haddr]
  pos k hk := by rw [hview k hk, h.pos k hk]
  chain := by
    refine List.IsChain.imp_of_mem_imp ?_ h.chain
    intro k k' hk _ hkk'
    rw [hview k hk, hkk']

/-! ## Adding an item -/

/-- In a chain without repetition only the last member leads nowhere. -/
theorem isChain_not_last {R : Nat → Nat → Prop} (hc : ks.IsChain R) (hn : ks.Nodup) :
    ks.IsChain fun a b => R a b ∧ ks.getLast? ≠ some a := by
  rw [List.isChain_iff_forall_rel_of_append_cons_cons] at hc ⊢
  intro a b l₁ l₂ hks
  refine ⟨hc hks, fun hlast => ?_⟩
  rw [hks] at hlast hn
  have hmem : a ∈ b :: l₂ := by
    rw [List.getLast?_append, List.getLast?_cons_cons] at hlast
    cases hl : (b :: l₂).getLast? with
    | none => simp at hl
    | some c =>
      rw [hl] at hlast
      exact List.mem_of_getLast? (hl.trans hlast)
  exact (List.nodup_cons.mp (List.nodup_append.mp hn).2.1).1 hmem

/-- What `push` makes of the slots: the fresh one holds the new item, and its predecessor now
    leads to it. -/
def pushed (m : Nat → Option (QItem T)) (ks : List Nat) (k : Nat) (t : T) (j : Nat) :
    Option (QItem T) :=
  if j = k then some ⟨t, k, 0⟩
  else (m j).map fun it => if ks.getLast? = some j then { it with next := k } else it

theorem map_pushed {α : Type v} {f : QItem T → α} {m : Nat → Option (QItem T)}
    (hf : ∀ it n, f { it with next := n } = f it) (hj : j ≠ k) :
    (pushed m ks k t j).map f = (m j).map f := by
  rw [pushed, if_neg hj, Option.map_map]
  congr 1
  funext it
  dsimp only [Function.comp_apply]
  split
  · exact hf it k
  · rfl

theorem pushed_ne_none {m : Nat → Option (QItem T)} :
    pushed m ks k t j ≠ none ↔ j = k ∨ m j ≠ none := by
  unfold pushed
  by_cases hj : j = k <;> simp [hj]

/-- `append_item` on a slot that has just been set. -/
theorem appendItem_spec {v : Inpvec (QItem T)} {it : Iter} {i₀ : QItem T} (hok : v.Ok)
    (hx : v.addr it.gpos = some x) (hi : v.view it.gpos = some i₀) (hk : it.gpos ∉ ks)
    (hu : ∀ k ∈ ks, v.view k ≠ none) (htail : q.tail = ks.getLast?.bind v.addr) :
    ∃ v', (appendItem { q with items := v } (some x) it).1 =
        { items := v', head := if ks = [] then some x else q.head, tail := some x,
          nItems := q.nItems + 1 } ∧
      v'.Ok ∧ (v'.OddTail ↔ v.OddTail) ∧ v'.sizes = v.sizes ∧ v'.nItems = v.nItems ∧
      v'.view = fun j => if j = it.gpos then some ⟨i₀.item, it.gpos, 0⟩
        else (v.view j).map fun i => if ks.getLast? = some j then { i with next := it.gpos } else i := by
  obtain ⟨hv₁, hok₁, hs₁, hn₁⟩ :=
    poke_spec (f := fun i : QItem T => { i with pos := it.gpos, next := 0 }) hok hx hi
  cases hl : ks.getLast? with
  | none =>
    rw [hl, Option.bind_none] at htail
    refine ⟨_, ?_, hok₁, oddTail_poke, hs₁, hn₁, ?_⟩
    · simp only [appendItem, htail, List.getLast?_eq_none_iff.mp hl, if_true]
    · rw [hv₁]
      funext j
      by_cases hj : j = it.gpos
      · subst hj; simp
      · simp [hj]
  | some k =>
    have hmem := List.mem_of_getLast? hl
    have hne : k ≠ it.gpos := fun h => hk (h ▸ hmem)
    obtain ⟨i₁, hi₁⟩ := Option.ne_none_iff_exists'.mp (hu k hmem)
    obtain ⟨y, hy, -⟩ := addr_of_view hi₁
    rw [hl, Option.bind_some, hy] at htail
    -- the old tail is led to the new item
    obtain ⟨hv₂, hok₂, hs₂, hn₂⟩ :=
      poke_spec (f := fun i : QItem T => { i with next := it.gpos }) hok₁
        ((addr_congr hs₁).trans hy) (by rw [hv₁, Function.update_of_ne hne, hi₁])
    -- and the new one is marked as the last once more
    obtain ⟨hv₃, hok₃, hs₃, hn₃⟩ :=
      poke_spec (f := fun i : QItem T => { i with next := 0 }) hok₂
        ((addr_congr (hs₂.trans hs₁)).trans hx)
        (by rw [hv₂, Function.update_of_ne (Ne.symm hne), hv₁, Function.update_self])
    have hks : ks ≠ [] := List.ne_nil_of_mem hmem
    refine ⟨_, ?_, hok₃, ?_, hs₃.trans (hs₂.trans hs₁), hn₃.trans (hn₂.trans hn₁), ?_⟩
    · simp only [appendItem, htail, hks, if_false]
    · rw [oddTail_poke, oddTail_poke, oddTail_poke]
    · rw [hv₃, hv₂, hv₁]
      funext j
      by_cases hj : j = it.gpos
      · subst hj; simp
      · by_cases hjk : j = k
        · subst hjk; simp [hj, hi₁]
        · have : ¬ k = j := fun h => hjk h.symm
          simp [hj, hjk, this]

/-- A chain with one more position at its end. -/
theorem Linked.pushed {q' : Queue T} (h : q.Linked ks) (hnone : q.items.view k = none)
    (hok : q'.items.Ok) (hodd : q'.items.OddTail) (hx : q'.items.addr k = some x)
    (haddr : ∀ j y, q.items.addr j = some y → q'.items.addr j = some y)
    (hview : q'.items.view = Queue.pushed q.items.view ks k t) (hn : q'.nItems = q.nItems + 1)
    (hhead : q'.head = if ks = [] then some x else q.head) (htail : q'.tail = some x) :
    q'.Linked (ks ++ [k]) := by
  have hk : k ∉ ks := fun hmem => by
    obtain ⟨i₀, hi₀⟩ := h.view hmem
    rw [hnone] at hi₀
    cases hi₀
  have hne : ∀ j ∈ ks, j ≠ k := fun j hj hjk => hk (hjk ▸ hj)
  constructor
  · exact hok
  · exact hodd
  · rw [hn, h.nItems, List.length_append, List.length_singleton]
  · rw [List.nodup_append]
    exact ⟨h.nodup, List.nodup_singleton _, fun a ha b hb hab =>
      hne a ha (hab.trans (List.mem_singleton.mp hb))⟩
  · cases ks with
    | nil => rw [hhead]; exact hx.symm
    | cons k₀ ks =>
      obtain ⟨y, hy, -⟩ := h.addr (List.mem_cons_self (a := k₀))
      rw [hhead, if_neg (List.cons_ne_nil k₀ ks), h.head]
      simp only [List.cons_append, List.head?_cons, Option.bind_some, haddr k₀ y hy, hy]
  · rw [htail, List.getLast?_concat, Option.bind_some, hx]
  · intro j hj
    rw [hview]
    by_cases hjk : j = k
    · subst hjk; simp [Queue.pushed]
    · have hjks : j ∈ ks := by simpa [hjk] using hj
      rw [map_pushed (fun _ _ => rfl) hjk, h.pos j hjks]
  · refine List.IsChain.append ?_ (List.isChain_singleton _) ?_
    · refine List.IsChain.imp_of_mem_imp ?_ (isChain_not_last h.chain h.nodup)
      rintro a b ha - ⟨hab, hna⟩
      rw [hview, Queue.pushed, if_neg (hne a ha), ← hab]
      simp [hna]
    · intro a ha b hb
      have hb : k = b := by simpa using hb
      subst hb
      have hmem := List.mem_of_getLast? ha
      obtain ⟨i₀, hi₀⟩ := h.view hmem
      rw [hview, Queue.pushed, if_neg (hne a hmem), hi₀]
      simp [Option.mem_def.mp ha]

/-- **`push`** adds an unused position at the end of the chain. -/
theorem push_spec {r : Queue T × Option Ptr} (h : q.Linked ks) (hp : q.push t = some r) :
    ∃ k, q.items.view k = none ∧ r.1.Linked (ks ++ [k]) ∧
      r.1.items.nItems = q.items.nItems + 1 ∧
      (∀ j x, q.items.addr j = some x → r.1.items.addr j = some x) ∧
      r.1.items.view = pushed q.items.view ks k t := by
  rw [push, Option.map_eq_some_iff] at hp
  obtain ⟨⟨v, it⟩, hf, rfl⟩ := hp
  dsimp only
  obtain ⟨hext, ⟨i, p, hv⟩, hnone, hodd⟩ := firstFree_spec h.ok h.odd hf
  dsimp only at hext hv hnone hodd
  have hok := hext.ok h.ok
  obtain ⟨hv₁, hok₁, hptr⟩ := iterSet_spec (t := QItem.mk' t) hok hv
  have hn₁ := nItems_iterSet (t := QItem.mk' t) hok hv (by rw [hext.view, hnone])
  have hodd₁ : (v.iterSet it (QItem.mk' t)).1.OddTail := oddTail_iterSet.mpr hodd
  have haddr₁ : ∀ j, (v.iterSet it (QItem.mk' t)).1.addr j = v.addr j := fun j =>
    addr_congr sizes_iterSet
  generalize hv' : (v.iterSet it (QItem.mk' t)).1 = v₁ at hv₁ hok₁ hn₁ hodd₁ haddr₁ ⊢
  rw [hptr]
  -- the slots of the chain are as they were
  have hold : ∀ j, j ≠ it.gpos → v₁.view j = q.items.view j := fun j hj => by
    rw [hv₁, Function.update_of_ne hj, hext.view]
  have haddr : ∀ j x, q.items.addr j = some x → v₁.addr j = some x := fun j x hx =>
    (haddr₁ j).trans (hext.addr hx)
  have hu : ∀ k ∈ ks, k ≠ it.gpos ∧ v₁.view k ≠ none := fun k hk => by
    obtain ⟨i₀, hi₀⟩ := h.view hk
    have hne : k ≠ it.gpos := fun he => by rw [he, hnone] at hi₀; cases hi₀
    exact ⟨hne, by rw [hold k hne, hi₀]; exact Option.some_ne_none i₀⟩
  have hlast : q.tail = ks.getLast?.bind v₁.addr := by
    rw [h.tail]
    cases hl : ks.getLast? with
    | none => rfl
    | some k =>
      obtain ⟨x, hx, -⟩ := h.addr (List.mem_of_getLast? hl)
      rw [Option.bind_some, Option.bind_some, hx, haddr k x hx]
  obtain ⟨v', he, hok', hodd', hs', hn', hview⟩ := appendItem_spec hok₁
    ((haddr₁ _).trans hv.addr) (by rw [hv₁, Function.update_self]) (fun hk => (hu _ hk).1 rfl)
    (fun k hk => (hu k hk).2) hlast
  rw [he]
  have hpushed : v'.view = pushed q.items.view ks it.gpos t := by
    rw [hview]
    funext j
    by_cases hj : j = it.gpos
    · rw [pushed, if_pos hj, if_pos hj]; rfl
    · rw [pushed, if_neg hj, if_neg hj, hold j hj]
  have haddr' : ∀ j x, q.items.addr j = some x → v'.addr j = some x := fun j x hx =>
    (addr_congr hs').trans (haddr j x hx)
  refine ⟨it.gpos, hnone, ?_, by rw [hn', hn₁, hext.nItems], haddr', hpushed⟩
  exact h.pushed hnone hok' (hodd'.mpr hodd₁) ((addr_congr hs').trans ((haddr₁ _).trans hv.addr))
    haddr' hpushed rfl rfl rfl

/-! ## Taking the first item off -/

theorem pop_nil {hd : Handler} (h : q.Linked []) : q.pop hd = some (q, hd, .empty) := by
  have hhead : q.head = none := h.head
  rw [pop, hhead]

/-- **`pop`** takes the first position off the chain and hands its slot, as it is, to the
    handler. -/
theorem pop_cons (h : q.Linked (k :: ks)) :
    ∃ (x : Ptr) (q' : Queue T), q.items.addr k = some x ∧ q'.Linked ks ∧ q'.items = q.items ∧
      ∀ hd : Handler, q.pop hd = (q'.setHandler hd x).map fun r => (r.1, r.2, .done) := by
  obtain ⟨it, hit⟩ := h.view (List.mem_cons_self (a := k))
  obtain ⟨x, hx, hd⟩ := addr_of_view hit
  have hhead : q.head = some x := by rw [h.head, List.head?_cons, Option.bind_some, hx]
  have hn := h.nItems
  have hpos : ∀ j ∈ ks, (q.items.view j).map QItem.pos = some j := fun j hj =>
    h.pos j (List.mem_cons_of_mem k hj)
  rw [List.length_cons] at hn
  cases ks with
  | nil =>
    have htail : q.tail = some x := by
      rw [h.tail, List.getLast?_singleton, Option.bind_some, hx]
    refine ⟨x, { q with head := none, tail := none, nItems := q.nItems - 1 }, hx, ?_, rfl, ?_⟩
    · exact ⟨h.ok, h.odd, by simp [hn], .nil, rfl, rfl, hpos, .nil⟩
    · intro hd
      rw [pop, hhead]
      simp only [htail, if_true]
  | cons k' ks =>
    obtain ⟨x', hx', hptr'⟩ := h.addr (List.mem_cons_of_mem k (List.mem_cons_self (a := k')))
    have hnext : it.next = k' := by
      have := (List.isChain_cons_cons.mp h.chain).1
      rw [hit] at this
      exact Option.some.inj this
    -- the last item is another one, at another place
    have hne : some x ≠ q.tail := by
      intro he
      rw [h.tail, List.getLast?_cons_cons] at he
      cases hl : (k' :: ks).getLast? with
      | none => simp at hl
      | some l =>
        rw [hl, Option.bind_some] at he
        have hkl : k = l := addr_inj hx he.symm
        exact (List.nodup_cons.mp h.nodup).1 (hkl ▸ List.mem_of_getLast? hl)
    refine ⟨x, { q with head := some x', nItems := q.nItems - 1 }, hx, ?_, rfl, ?_⟩
    · exact ⟨h.ok, h.odd, by simp [hn], (List.nodup_cons.mp h.nodup).2,
        by rw [List.head?_cons, Option.bind_some, hx'],
        by rw [← List.getLast?_cons_cons (a := k)]; exact h.tail, hpos, h.chain.tail⟩
    · intro hd'
      rw [pop, hhead]
      simp only [hne, if_false, hd, hnext, hptr']

/-! ## Letting go of a slot -/

/-- **`free_item`** on a slot outside the chain frees that slot and nothing else. -/
theorem freeItem_spec (h : q.Linked ks) (hk : k ∉ ks) (hx : q.items.addr k = some x)
    (hpos : (q.items.view k).map QItem.pos = some k) :
    ∃ q', q.freeItem x = some q' ∧ q'.Linked ks ∧ q'.items.nItems + 1 = q.items.nItems ∧
      q'.items.addr = q.items.addr ∧
      q'.items.view = Function.update q.items.view k none ∧ q'.nItems = q.nItems := by
  obtain ⟨it, hit, hpk⟩ := Option.map_eq_some_iff.mp hpos
  obtain ⟨hview, hok, -⟩ := freeAt_spec (k := k) h.ok
  have haddr : (q.items.freeAt k).1.addr = q.items.addr := funext fun j =>
    addr_congr sizes_freeAt
  refine ⟨{ q with items := (q.items.freeAt k).1 }, ?_, ?_, ?_, haddr, hview, rfl⟩
  · rw [freeItem, deref_of_addr hx hit, Option.map_some, hpk]
  · refine h.congr hok (oddTail_freeAt.mpr h.odd) rfl rfl rfl haddr fun j hj => ?_
    dsimp only
    rw [hview, Function.update_of_ne (fun hjk : j = k => hk (hjk ▸ hj))]
  · exact nItems_freeAt h.ok (by rw [hit]; rfl)

end Queue

end CodeSLoop
