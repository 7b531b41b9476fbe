import CodeSLoop.Common.Circbuf

/-!
# When the counters and the payloads of a `circbuf` can be trusted

Two questions about every interleaving of the calls, each answered by an exact guard on the
state *before* a call (`Lts.Run.always_iff`):

* `coherent_iff` — the two counters agree with the three lists, the active list keeps within
  `MaxSize`, and every node carries a payload. Three call sites break this, and only they
  do: `prepare` on a full buffer takes the oldest active node and leaves `n_items_` alone;
  `commit` on a full buffer clamps the count but not the list; and a failing `pop`,
  `newest` or `oldest` files a node without a payload.
* `nullFree_iff` — no call dereferences a null node or a null payload.
-/

namespace CodeSLoop

namespace Circbuf

open Lts

/-! ## Counters and lists -/

/-- The class invariant: `n_items_` counts the active nodes, of which there are at most
    `MaxSize`; `size_` counts all nodes; and no node is without its object. -/
structure Coherent (maxSize : Nat) (b : Circbuf) : Prop where
  nItems_eq : b.nItems = b.head.length
  le_max : b.head.length ≤ maxSize
  size_eq : b.size = b.head.length + b.freelist.length + b.preplist.length
  payload : ∀ it ∈ b.head ++ b.freelist ++ b.preplist, it.item ≠ none

/-- The states in which a call keeps the class invariant. -/
def Keeps (b : Circbuf) : Op → Prop
  | .prepare => b.freelist ≠ [] ∨ b.nItems < b.max
  | .commit _ => b.nItems < b.max
  | .pop | .newest | .oldest => b.nItems ≠ 0
  | .push | .rollback _ => True

instance (maxSize : Nat) (b : Circbuf) : Decidable (Coherent maxSize b) :=
  decidable_of_iff (b.nItems = b.head.length ∧ b.head.length ≤ maxSize ∧
      b.size = b.head.length + b.freelist.length + b.preplist.length ∧
      ∀ it ∈ b.head ++ b.freelist ++ b.preplist, it.item ≠ none)
    ⟨fun ⟨h1, h2, h3, h4⟩ => ⟨h1, h2, h3, h4⟩, fun ⟨h1, h2, h3, h4⟩ => ⟨h1, h2, h3, h4⟩⟩

instance (b : Circbuf) (a : Op) : Decidable (b.Keeps a) :=
  match a with
  | .prepare => inferInstanceAs (Decidable (b.freelist ≠ [] ∨ b.nItems < b.max))
  | .commit _ => inferInstanceAs (Decidable (b.nItems < b.max))
  | .pop | .newest | .oldest => inferInstanceAs (Decidable (b.nItems ≠ 0))
  | .push | .rollback _ => inferInstanceAs (Decidable True)

theorem coherent_init (maxSize : Nat) (useExc : Bool) :
    Coherent maxSize (init maxSize useExc) :=
  ⟨rfl, Nat.zero_le _, rfl, by simp [init]⟩

theorem max_init {maxSize : Nat} (hpos : 0 < maxSize) (useExc : Bool) :
    (init maxSize useExc).max = maxSize := by
  have : maxSize ≠ 0 := Nat.ne_of_gt hpos
  simp [init, this]

/-- No call touches the limit or the exception setting. -/
theorem step_fixed {b b' : Circbuf} {a : Op × Outcome} (h : Step b a b') :
    b'.max = b.max ∧ b'.useExc = b.useExc := by
  obtain ⟨hl, fuel, r, hr, -, rfl⟩ := h
  obtain ⟨op, o⟩ := a
  cases op with
  | commit t =>
    obtain ⟨rest, -, -, hb⟩ := commit_cases hl hr
    rw [hb]; exact ⟨rfl, rfl⟩
  | rollback t =>
    obtain ⟨rest, -, -, hb⟩ := rollback_cases hl hr
    rw [hb]; exact ⟨rfl, rfl⟩
  | prepare =>
    cases hr
    rcases prepare_cases b with ⟨fl, it, -, hb⟩ | ⟨-, -, hb⟩ | ⟨hd, it, -, -, -, hb⟩ | ⟨-, -, -, hb⟩
    all_goals rw [hb]; exact ⟨rfl, rfl⟩
  | push =>
    cases hr
    rcases push_cases b with ⟨hd, it, -, -, hb⟩ | ⟨-, -, hb⟩ | ⟨fl, it, -, -, hb⟩ | ⟨-, -, hb⟩
    all_goals rw [hb]; exact ⟨rfl, rfl⟩
  | pop =>
    cases hr
    rcases pop_cases b with ⟨hd, it, -, -, hb⟩ | ⟨calls, hd, n, -, -, -, hb⟩
    all_goals rw [hb]; exact ⟨rfl, rfl⟩
  | newest | oldest =>
    simp only [exec, Option.some.injEq] at hr
    subst hr
    first | unfold newest | unfold oldest
    split <;> exact ⟨rfl, rfl⟩

/-- A call that moves nodes from list to list, and counts the active ones. -/
theorem Coherent.moved {maxSize : Nat} {b b' : Circbuf} (h : Coherent maxSize b)
    (hn : b'.nItems = b'.head.length) (hle : b'.head.length ≤ maxSize) (hsize : b'.size = b.size)
    (hp : (b'.head ++ b'.freelist ++ b'.preplist).Perm (b.head ++ b.freelist ++ b.preplist)) :
    Coherent maxSize b' := by
  refine ⟨hn, hle, ?_, fun it hm => h.payload it (hp.mem_iff.mp hm)⟩
  have hlen := hp.length_eq
  simp only [List.length_append] at hlen
  rw [hsize, h.size_eq, hlen]

/-- A call that makes a node, with its object. -/
theorem Coherent.made {maxSize t : Nat} {b b' : Circbuf} (h : Coherent maxSize b)
    (hn : b'.nItems = b'.head.length) (hle : b'.head.length ≤ maxSize) (hsize : b'.size = b.size + 1)
    (hp : (b'.head ++ b'.freelist ++ b'.preplist).Perm
      (⟨some t⟩ :: (b.head ++ b.freelist ++ b.preplist))) : Coherent maxSize b' := by
  refine ⟨hn, hle, ?_, fun it hm => ?_⟩
  · have hlen := hp.length_eq
    simp only [List.length_cons, List.length_append] at hlen
    rw [hsize, h.size_eq, hlen]
  · rcases List.mem_cons.mp (hp.mem_iff.mp hm) with rfl | hm
    · exact Option.some_ne_none t
    · exact h.payload it hm

/-- A node without a payload is filed nowhere in a coherent buffer. -/
theorem not_coherent_placeholder {maxSize : Nat} {b : Circbuf} {calls : List Upcall} :
    ¬ Coherent maxSize (b.placeholder calls).buf := by
  intro h
  exact h.payload ⟨none⟩ (by simp [placeholder, linkAfter]) rfl

theorem prepare_coherent_iff {maxSize : Nat} {b : Circbuf} (hpos : 0 < maxSize)
    (hmax : b.max = maxSize) (h : Coherent maxSize b) :
    Coherent maxSize b.prepare.buf ↔ b.Keeps .prepare := by
  have hn := h.nItems_eq
  rcases prepare_cases b with
    ⟨fl, it, hf, hb⟩ | ⟨hf, hlt, hb⟩ | ⟨hd, it, hf, hfull, hh, hb⟩ | ⟨hf, hfull, hh, hb⟩
  · rw [hb]
    refine iff_of_true (h.moved hn h.le_max rfl ?_) (Or.inl (by simp [hf]))
    simp [hf]
  · rw [hb]
    exact iff_of_true (h.made hn h.le_max rfl List.perm_middle) (Or.inr hlt)
  · -- the count stands, and an active node is gone
    rw [hb]
    refine iff_of_false (fun hc => ?_) (by simp [Keeps, hf, hfull])
    have hn' : b.nItems = hd.length := hc.nItems_eq
    rw [hh, List.length_append, List.length_singleton] at hn
    omega
  · -- a buffer that is full has an active node
    rw [hh, List.length_nil] at hn
    omega

theorem push_coherent {maxSize : Nat} {b : Circbuf} (hpos : 0 < maxSize)
    (hmax : b.max = maxSize) (h : Coherent maxSize b) : Coherent maxSize b.push.buf := by
  have hn := h.nItems_eq
  have hle := h.le_max
  rcases push_cases b with
    ⟨hd, it, hfull, hh, hb⟩ | ⟨hfull, hh, hb⟩ | ⟨fl, it, hlt, hf, hb⟩ | ⟨hlt, hf, hb⟩
  · rw [hb]
    rw [hh, List.length_append, List.length_singleton] at hn hle
    refine h.moved ?_ hle rfl ?_
    · rw [List.length_cons]
      dsimp only
      omega
    · rw [hh]
      exact ((List.perm_append_singleton it hd).symm.append_right _).append_right _
  · -- a buffer that is full has an active node
    rw [hh, List.length_nil] at hn
    omega
  · rw [hb]
    refine h.moved (congrArg (· + 1) hn) ?_ rfl ?_
    · rw [List.length_cons]
      omega
    · rw [hf]
      exact List.perm_middle.symm.trans (by simp)
  · rw [hb]
    refine h.made (congrArg (· + 1) hn) ?_ rfl (List.Perm.refl _)
    rw [List.length_cons]
    omega

theorem pop_coherent_iff {maxSize : Nat} {b : Circbuf} (h : Coherent maxSize b) :
    Coherent maxSize b.pop.buf ↔ b.Keeps .pop := by
  have hn := h.nItems_eq
  have hle := h.le_max
  rcases pop_cases b with ⟨hd, it, h0, hh, hb⟩ | ⟨calls, hd, n, hnone, -, -, hb⟩
  · rw [hb]
    rw [hh, List.length_append, List.length_singleton] at hn hle
    refine iff_of_true (h.moved ?_ (Nat.le_of_succ_le hle) rfl (by simp [hh])) h0
    dsimp only
    rw [hn, Nat.add_sub_cancel]
  · rw [hb]
    refine iff_of_false not_coherent_placeholder (not_not_intro ?_)
    rcases hnone with h0 | hh
    · exact h0
    · rw [hn, hh, List.length_nil]

/-- `newest` and `oldest` either leave the buffer alone or file a placeholder. -/
theorem peek_coherent_iff {maxSize : Nat} {b : Circbuf} (h : Coherent maxSize b) (o : Outcome) :
    Coherent maxSize (if b.nItems = 0 then b.placeholder [] else ⟨o, [], b⟩).buf ↔
      b.nItems ≠ 0 := by
  split
  · rename_i h0
    exact iff_of_false not_coherent_placeholder (by simp [h0])
  · rename_i h0
    exact iff_of_true h h0

theorem commit_coherent_iff {maxSize t fuel : Nat} {b : Circbuf} {r : Res}
    (hmax : b.max = maxSize) (h : Coherent maxSize b) (hm : ⟨some t⟩ ∈ b.preplist)
    (hr : b.commit t fuel = some r) : Coherent maxSize r.buf ↔ b.Keeps (.commit t) := by
  obtain ⟨rest, hp, -, hb⟩ := commit_cases hm hr
  have hn := h.nItems_eq
  have hle := h.le_max
  rw [hb]
  simp only [Keeps]
  constructor
  · intro hc
    have := hc.nItems_eq
    simp only [List.length_cons] at this
    omega
  · intro hlt
    refine h.moved ?_ ?_ rfl ?_
    · simp only [List.length_cons]; omega
    · simp only [List.length_cons]; omega
    · rw [hp]
      exact List.perm_middle.symm

theorem rollback_coherent {maxSize t fuel : Nat} {b : Circbuf} {r : Res}
    (h : Coherent maxSize b) (hm : ⟨some t⟩ ∈ b.preplist)
    (hr : b.rollback t fuel = some r) : Coherent maxSize r.buf := by
  obtain ⟨rest, hp, -, hb⟩ := rollback_cases hm hr
  rw [hb]
  refine h.moved h.nItems_eq h.le_max rfl ?_
  rw [hp, List.append_assoc, List.append_assoc, List.cons_append]
  exact List.perm_middle.symm.append_left b.head

/-- One call on a coherent buffer leaves it coherent exactly when its guard holds. -/
theorem step_coherent_iff {maxSize : Nat} {b b' : Circbuf} {a : Op × Outcome}
    (hpos : 0 < maxSize) (hmax : b.max = maxSize) (h : Coherent maxSize b)
    (hs : Step b a b') : Coherent maxSize b' ↔ b.Keeps a.1 := by
  obtain ⟨hl, fuel, r, hr, -, rfl⟩ := hs
  obtain ⟨op, o⟩ := a
  cases op with
  | prepare => cases hr; exact prepare_coherent_iff hpos hmax h
  | commit t => exact commit_coherent_iff hmax h hl hr
  | rollback t => exact iff_of_true (rollback_coherent h hl hr) trivial
  | push => cases hr; exact iff_of_true (push_coherent hpos hmax h) trivial
  | pop => cases hr; exact pop_coherent_iff h
  | newest => cases hr; exact peek_coherent_iff h _
  | oldest => cases hr; exact peek_coherent_iff h _

/-- **The counters, the bound and the payloads, over every run.** Whatever the interleaving
    of calls on a buffer of capacity `maxSize`, every state on the way is coherent exactly
    when no `prepare` finds the buffer full with nothing on the free list, no `commit` finds
    it full, and nothing is taken from or looked at in a buffer that counts no items. -/
theorem coherent_iff {maxSize : Nat} (hpos : 0 < maxSize) (useExc : Bool)
    {tr : List ((Op × Outcome) × Circbuf)} (h : Run Step (init maxSize useExc) tr) :
    Always (fun _ _ b' => Coherent maxSize b') (init maxSize useExc) tr ↔
      Always (fun b a _ => b.Keeps a.1) (init maxSize useExc) tr := by
  refine h.always_iff (I := fun b => b.max = maxSize ∧ Coherent maxSize b) ?_ ?_
    ⟨max_init hpos useExc, coherent_init maxSize useExc⟩
  · rintro b a b' ⟨hmax, hc⟩ hs
    exact step_coherent_iff hpos hmax hc hs
  · rintro b a b' ⟨hmax, -⟩ hs hc
    exact ⟨(step_fixed hs).1.trans hmax, hc⟩

/-- Three short runs that leave the class invariant, one for each call that can: a failing
    `pop`, a `prepare` that takes an item out of a full buffer, and a `commit` into a buffer
    that was filled behind the prepared item's back. -/
theorem coherent_fails :
    (∃ tr, Run Step (init 1 true) tr ∧ tr.map (·.1.1) = [.pop] ∧
      ¬ Always (fun _ _ b' => Coherent 1 b') (init 1 true) tr) ∧
    (∃ tr, Run Step (init 1 true) tr ∧ tr.map (·.1.1) = [.push, .prepare] ∧
      ¬ Always (fun _ _ b' => Coherent 1 b') (init 1 true) tr) ∧
    (∃ tr, Run Step (init 1 true) tr ∧ tr.map (·.1.1) = [.prepare, .push, .commit 0] ∧
      ¬ Always (fun _ _ b' => Coherent 1 b') (init 1 true) tr) := by
  refine ⟨⟨_, run_of_replay [.pop] rfl, rfl, by decide⟩,
    ⟨_, run_of_replay [.push, .prepare] rfl, rfl, by decide⟩,
    ⟨_, run_of_replay [.prepare, .push, .commit 0] rfl, rfl, by decide⟩⟩

/-- A buffer of capacity one through push, pop and a two-phase push. -/
theorem coherent_iff_turn :
    ∃ tr : List ((Op × Outcome) × Circbuf), tr.map (·.1.1) = [.push, .pop, .prepare, .commit 0] ∧
      Always (fun _ _ b' => Coherent 1 b') (init 1 true) tr :=
  ⟨_, rfl, (coherent_iff (by decide) true
    (run_of_replay [.push, .pop, .prepare, .commit 0] rfl)).mpr (by decide)⟩

/-! ## Null nodes and null payloads -/

/-- The call dereferenced neither a null list node nor a null payload. -/
def Outcome.NullFree : Outcome → Prop
  | .nullNode | .ref none => False
  | _ => True

@[simp] theorem nullFree_ref {p : Option Nat} : (Outcome.ref p).NullFree ↔ p ≠ none := by
  cases p <;> simp [Outcome.NullFree]

/-- The states in which a call finds an object to return: what `prepare` and `push` reuse
    from the free list is not a placeholder of an earlier failed `pop`, and a buffer that
    counts itself full (or, for the peeks, not empty) does have an active item. -/
def Carries (b : Circbuf) : Op → Prop
  | .prepare =>
    (∀ it, b.freelist.getLast? = some it → it.item ≠ none) ∧
      (b.freelist = [] → b.nItems < b.max ∨ b.head ≠ [])
  | .push =>
    if b.nItems < b.max then ∀ it, b.freelist.getLast? = some it → it.item ≠ none
    else b.head ≠ []
  | .newest | .oldest => b.nItems = 0 ∨ b.head ≠ []
  | .commit _ | .rollback _ | .pop => True

instance (o : Outcome) : Decidable o.NullFree := by
  cases o with
  | ref p => cases p <;> unfold Outcome.NullFree <;> infer_instance
  | unit | rsEmpty | nullNode => unfold Outcome.NullFree; infer_instance

instance (b : Circbuf) (a : Op) : Decidable (b.Carries a) := by
  have : Decidable (∀ it, b.freelist.getLast? = some it → it.item ≠ none) :=
    decidable_of_iff (∀ it ∈ b.freelist.getLast?, it.item ≠ none) Iff.rfl
  exact match a with
    | .prepare => inferInstanceAs (Decidable (_ ∧ (b.freelist = [] → _)))
    | .push => inferInstanceAs (Decidable (if b.nItems < b.max then _ else b.head ≠ []))
    | .newest | .oldest => inferInstanceAs (Decidable (b.nItems = 0 ∨ b.head ≠ []))
    | .commit _ | .rollback _ | .pop => inferInstanceAs (Decidable True)

/-- What null-free calls maintain: active and prepared items have their objects. Nothing is
    said of the free list, which may hold placeholders. -/
structure Filled (b : Circbuf) : Prop where
  exc : b.useExc = true
  le_max : b.nItems ≤ b.max
  head : ∀ it ∈ b.head, it.item ≠ none
  prep : ∀ it ∈ b.preplist, it.item ≠ none

theorem filled_init (maxSize : Nat) : Filled (init maxSize true) :=
  ⟨rfl, Nat.zero_le _, by simp [init], by simp [init]⟩

theorem forall_getLast? {l hd : List Item} {it : Item} (h : l = hd ++ [it]) :
    (∀ x, l.getLast? = some x → x.item ≠ none) ↔ it.item ≠ none := by
  simp [h]

theorem Filled.init_last {b : Circbuf} (h : Filled b) {hd : List Item} {it : Item}
    (hh : b.head = hd ++ [it]) : (∀ x ∈ hd, x.item ≠ none) ∧ it.item ≠ none := by
  have hall := h.head
  rw [hh] at hall
  exact ⟨fun x hx => hall x (List.mem_append_left _ hx), hall it List.mem_concat_self⟩

theorem prepare_nullFree {b : Circbuf} (h : Filled b) :
    (b.prepare.out.NullFree ↔ b.Carries .prepare) ∧
      (b.prepare.out.NullFree → Filled b.prepare.buf) := by
  rcases prepare_cases b with
    ⟨fl, it, hf, hb⟩ | ⟨hf, hlt, hb⟩ | ⟨hd, it, hf, hfull, hh, hb⟩ | ⟨hf, hfull, hh, hb⟩
  · have hne : b.freelist ≠ [] := by simp [hf]
    rw [hb]
    refine ⟨?_, fun hn => ⟨h.exc, h.le_max, h.head, ?_⟩⟩
    · rw [Carries, forall_getLast? hf, nullFree_ref]
      simp [hne]
    · exact List.forall_mem_cons.mpr ⟨nullFree_ref.mp hn, h.prep⟩
  · rw [hb]
    refine ⟨by simp [Carries, hf, hlt], fun _ => ⟨h.exc, h.le_max, h.head, ?_⟩⟩
    exact List.forall_mem_cons.mpr ⟨Option.some_ne_none _, h.prep⟩
  · obtain ⟨hhd, hit⟩ := h.init_last hh
    rw [hb]
    refine ⟨by simp [Carries, hf, hh, hit], fun _ => ⟨h.exc, h.le_max, hhd, ?_⟩⟩
    exact List.forall_mem_cons.mpr ⟨hit, h.prep⟩
  · rw [hb]
    refine ⟨iff_of_false id fun hc => ?_, False.elim⟩
    rcases hc.2 hf with hlt | hne
    · exact absurd hlt (Nat.not_lt.mpr hfull)
    · exact hne hh

theorem push_nullFree {b : Circbuf} (h : Filled b) :
    (b.push.out.NullFree ↔ b.Carries .push) ∧ (b.push.out.NullFree → Filled b.push.buf) := by
  rcases push_cases b with
    ⟨hd, it, hfull, hh, hb⟩ | ⟨hfull, hh, hb⟩ | ⟨fl, it, hlt, hf, hb⟩ | ⟨hlt, hf, hb⟩
  · obtain ⟨hhd, hit⟩ := h.init_last hh
    rw [hb, Carries, if_neg (Nat.not_lt.mpr hfull)]
    refine ⟨by simp [hh, hit], fun _ => ⟨h.exc, Nat.le_refl _, ?_, h.prep⟩⟩
    exact List.forall_mem_cons.mpr ⟨hit, hhd⟩
  · rw [hb, Carries, if_neg (Nat.not_lt.mpr hfull)]
    exact ⟨iff_of_false id (not_not_intro hh), False.elim⟩
  · rw [hb, Carries, if_pos hlt, forall_getLast? hf]
    refine ⟨nullFree_ref, fun hn => ⟨h.exc, hlt, ?_, h.prep⟩⟩
    exact List.forall_mem_cons.mpr ⟨nullFree_ref.mp hn, h.head⟩
  · rw [hb, Carries, if_pos hlt]
    refine ⟨by simp [hf], fun _ => ⟨h.exc, hlt, ?_, h.prep⟩⟩
    exact List.forall_mem_cons.mpr ⟨Option.some_ne_none _, h.head⟩

theorem pop_nullFree {b : Circbuf} (h : Filled b) :
    b.pop.out.NullFree ∧ Filled b.pop.buf := by
  rcases pop_cases b with ⟨hd, it, -, hh, hb⟩ | ⟨calls, hd, n, -, hsub, hle, hb⟩
  · obtain ⟨hhd, hit⟩ := h.init_last hh
    rw [hb]
    exact ⟨nullFree_ref.mpr hit, ⟨h.exc, (Nat.sub_le _ _).trans h.le_max, hhd, h.prep⟩⟩
  · rw [hb]
    refine ⟨?_, ⟨h.exc, hle.trans h.le_max, fun it hm => h.head it (hsub it hm), h.prep⟩⟩
    simp [placeholder, h.exc, Outcome.NullFree]

/-- The peeks, which differ in the end they read the active list from. -/
theorem peek_nullFree {b : Circbuf} (h : Filled b) {p : Option Nat}
    (hp : p ≠ none ↔ b.head ≠ []) :
    ((if b.nItems = 0 then b.placeholder [] else ⟨.ref p, [], b⟩).out.NullFree ↔
        b.nItems = 0 ∨ b.head ≠ []) ∧
      ((if b.nItems = 0 then b.placeholder [] else ⟨.ref p, [], b⟩).out.NullFree →
        Filled (if b.nItems = 0 then b.placeholder [] else ⟨.ref p, [], b⟩).buf) := by
  split
  · rename_i h0
    exact ⟨by simp [placeholder, h.exc, h0, Outcome.NullFree],
      fun _ => ⟨h.exc, h.le_max, h.head, h.prep⟩⟩
  · rename_i h0
    exact ⟨by simp only [nullFree_ref, h0, false_or, hp], fun _ => h⟩

theorem head?_item {b : Circbuf} (h : Filled b) :
    b.head.head?.bind Item.item ≠ none ↔ b.head ≠ [] := by
  cases hh : b.head with
  | nil => simp
  | cons it rest => simpa using h.head it (by simp [hh])

theorem getLast?_item {b : Circbuf} (h : Filled b) :
    b.head.getLast?.bind Item.item ≠ none ↔ b.head ≠ [] := by
  cases hh : b.head.getLast? with
  | none => simpa using hh
  | some it =>
    have hm : it ∈ b.head := List.mem_of_getLast? hh
    simp [h.head it hm, List.ne_nil_of_mem hm]

/-- One call from a filled state is null-free exactly when its guard holds, and then leaves
    a filled state. -/
theorem step_nullFree {b b' : Circbuf} {a : Op × Outcome} (h : Filled b) (hs : Step b a b') :
    (a.2.NullFree ↔ b.Carries a.1) ∧ (a.2.NullFree → Filled b') := by
  obtain ⟨hl, fuel, r, hr, ho, rfl⟩ := hs
  obtain ⟨op, o⟩ := a
  dsimp only at hl hr ho ⊢
  subst ho
  cases op with
  | prepare => cases hr; exact prepare_nullFree h
  | push => cases hr; exact push_nullFree h
  | pop => cases hr; exact ⟨iff_of_true (pop_nullFree h).1 trivial, fun _ => (pop_nullFree h).2⟩
  | newest => cases hr; exact peek_nullFree h (head?_item h)
  | oldest => cases hr; exact peek_nullFree h (getLast?_item h)
  | commit t =>
    obtain ⟨rest, hp, ho, hb⟩ := commit_cases hl hr
    rw [ho, hb]
    refine ⟨iff_of_true trivial trivial, fun _ => ⟨h.exc, Nat.min_le_right _ _, ?_, ?_⟩⟩
    · simpa using h.head
    · exact fun it hm => h.prep it (by simp [hp, hm])
  | rollback t =>
    obtain ⟨rest, hp, ho, hb⟩ := rollback_cases hl hr
    rw [ho, hb]
    exact ⟨iff_of_true trivial trivial,
      fun _ => ⟨h.exc, h.le_max, h.head, fun it hm => h.prep it (by simp [hp, hm])⟩⟩

/-- **No null node, no null payload, over every run** with failing calls reported by
    exception: exactly when every `prepare`, `push`, `newest` and `oldest` of it is made in a
    state that carries an object for it. -/
theorem nullFree_iff (maxSize : Nat) {tr : List ((Op × Outcome) × Circbuf)}
    (h : Run Step (init maxSize true) tr) :
    Always (fun _ a _ => a.2.NullFree) (init maxSize true) tr ↔
      Always (fun b a _ => b.Carries a.1) (init maxSize true) tr :=
  h.always_iff (I := Filled) (fun _ _ _ hI hs => (step_nullFree hI hs).1)
    (fun _ _ _ hI hs => (step_nullFree hI hs).2) (filled_init maxSize)

/-- The placeholder of a failed `pop` is what the next `push` returns a reference to; and a
    second `prepare` on a full buffer, its one item already under preparation, links in a
    null node. -/
theorem nullFree_fails :
    (∃ tr, Run Step (init 4 true) tr ∧ tr.map (·.1.1) = [.pop, .push] ∧
      ¬ Always (fun _ a _ => a.2.NullFree) (init 4 true) tr) ∧
    (∃ tr, Run Step (init 1 true) tr ∧ tr.map (·.1.1) = [.push, .prepare, .prepare] ∧
      ¬ Always (fun _ a _ => a.2.NullFree) (init 1 true) tr) := by
  refine ⟨⟨_, run_of_replay [.pop, .push] rfl, rfl, by decide⟩,
    ⟨_, run_of_replay [.push, .prepare, .prepare] rfl, rfl, by decide⟩⟩

theorem nullFree_iff_turn :
    ∃ tr : List ((Op × Outcome) × Circbuf), tr.map (·.1.1) = [.push, .push, .oldest, .pop] ∧
      Always (fun _ a _ => a.2.NullFree) (init 1 true) tr :=
  ⟨_, rfl, (nullFree_iff 1 (run_of_replay [.push, .push, .oldest, .pop] rfl)).mpr
    (by decide)⟩

/-! ## The two guards together -/

/-- A coherent buffer carries an object for every call: the discipline that keeps the
    counters right is enough to keep every reference good. -/
theorem Coherent.carries {maxSize : Nat} {b : Circbuf} (hpos : 0 < maxSize)
    (hmax : b.max = maxSize) (h : Coherent maxSize b) (a : Op) : b.Carries a := by
  have hfree : ∀ it, b.freelist.getLast? = some it → it.item ≠ none := fun it hit =>
    h.payload it (by simp [List.mem_of_getLast? hit])
  have hn := h.nItems_eq
  have hne : b.nItems ≠ 0 → b.head ≠ [] := fun h0 hh => h0 (by rw [hn, hh]; rfl)
  cases a with
  | prepare =>
    refine ⟨hfree, fun _ => ?_⟩
    by_cases hlt : b.nItems < b.max
    · exact Or.inl hlt
    · exact Or.inr (hne (by omega))
  | push =>
    simp only [Carries]
    split
    · exact hfree
    · exact hne (by omega)
  | newest | oldest =>
    by_cases h0 : b.nItems = 0
    · exact Or.inl h0
    · exact Or.inr (hne h0)
  | commit _ | rollback _ | pop => trivial

end Circbuf

end CodeSLoop
