import Mathlib.Logic.Function.Basic

/-!
# Agendas: what is still to be done, for each of many keys

An agenda is an array of entries, with the place of the entry for each key (counted from 1, and 0 if there
is none). A key that is fed again has its entry merged with the new value; one that is cancelled leaves
an entry for nobody, so that no other one is moved; entries are taken from the end.

An agenda in which the places are right (`Ok`) stands for a map from keys to values (`value`), and each
operation does to it what one expects of the map (`value_feed`, `value_cancel`, `value_pop`).
-/

universe u v

/-- An agenda. -/
structure Agenda (κ : Type u) (ν : Type v) where
  entries : List (Option κ × ν)
  place : κ → Nat

namespace Agenda

section Values

variable {κ : Type u} {ν : Type v} {a : Agenda κ ν} {k : κ} {v : ν} {o : Option κ} {i : Nat}

/-- For whom the entries are. -/
def owners (a : Agenda κ ν) : List (Option κ) := a.entries.map Prod.fst

/-- The entry of a key is where its place says, and nowhere else. -/
def Ok (a : Agenda κ ν) : Prop := ∀ k i, a.owners[i]? = some (some k) ↔ a.place k = i + 1

/-- What an agenda has for a key. -/
def value (a : Agenda κ ν) (k : κ) : Option ν :=
  if a.place k = 0 then none else (a.entries[a.place k - 1]?).map Prod.snd

theorem owner_of_entry (h : a.entries[i]? = some (some k, v)) : a.owners[i]? = some (some k) := by
  rw [owners, List.getElem?_map, h, Option.map_some]

theorem Ok.entry (h : a.Ok) (hk : a.place k ≠ 0) : ∃ v, a.entries[a.place k - 1]? = some (some k, v) := by
  have howner := (h k (a.place k - 1)).mpr (by omega)
  rw [owners, List.getElem?_map, Option.map_eq_some_iff] at howner
  obtain ⟨⟨_, v⟩, hentry, rfl⟩ := howner
  exact ⟨v, hentry⟩

theorem Ok.value_eq_some (h : a.Ok) (hi : a.entries[i]? = some (some k, v)) : a.value k = some v := by
  have hplace := (h k i).mp (owner_of_entry hi)
  rw [value, if_neg (by omega), hplace, Nat.add_sub_cancel, hi, Option.map_some]

theorem Ok.value_eq_none_iff (h : a.Ok) : a.value k = none ↔ a.place k = 0 := by
  refine ⟨fun hnone => ?_, fun hzero => by rw [value, if_pos hzero]⟩
  by_contra hk
  obtain ⟨v, hv⟩ := h.entry hk
  rw [h.value_eq_some hv] at hnone
  exact absurd hnone (by simp)

theorem Ok.place_le (h : a.Ok) (k : κ) : a.place k ≤ a.entries.length := by
  by_cases hk : a.place k = 0
  · omega
  · obtain ⟨v, hv⟩ := h.entry hk
    have hlt := (List.getElem?_eq_some_iff.mp hv).1
    omega

theorem ok_empty : (⟨[], fun _ => 0⟩ : Agenda κ ν).Ok := by
  intro k i
  simp [owners]

theorem map_fst_modify {f : Option κ × ν → Option κ × ν} (hf : ∀ e, (f e).1 = e.1) (xs : List (Option κ × ν))
    (i : Nat) : (xs.modify i f).map Prod.fst = xs.map Prod.fst := by
  refine List.ext_getElem? fun j => ?_
  simp only [List.getElem?_map, List.getElem?_modify]
  cases xs[j]? with
  | none => rfl
  | some e =>
    simp only [Option.map_eq_map, Option.map_some]
    split
    · rw [hf]
    · rfl

/-- No two keys have one place. -/
theorem Ok.place_inj (h : a.Ok) {k k' : κ} (hk : a.place k ≠ 0) (heq : a.place k = a.place k') : k = k' := by
  have h1 := (h k (a.place k - 1)).mpr (by omega)
  have h2 := (h k' (a.place k - 1)).mpr (by omega)
  rw [h1] at h2
  exact Option.some.inj (Option.some.inj h2)

/-- The last entry of a key is the one that its place says. -/
theorem Ok.place_last (h : a.Ok) (hlast : a.entries.getLast? = some (some k, v)) :
    a.place k = a.entries.length := by
  rw [List.getLast?_eq_getElem?] at hlast
  have hlt := (List.getElem?_eq_some_iff.mp hlast).1
  have hplace := (h k _).mp (owner_of_entry hlast)
  omega

theorem Ok.place_ne_last (h : a.Ok) (hlast : a.entries.getLast? = some (o, v)) (hk : o ≠ some k) :
    a.place k ≠ a.entries.length := by
  rw [List.getLast?_eq_getElem?] at hlast
  have hlt := (List.getElem?_eq_some_iff.mp hlast).1
  intro heq
  have howner := (h k (a.entries.length - 1)).mpr (by omega)
  rw [owners, List.getElem?_map, hlast] at howner
  exact hk (Option.some.inj howner)

end Values

section Operations

variable {κ : Type u} {ν : Type v} [DecidableEq κ]

/-- The value `v` is merged into what is there for `k`, or put behind it all. -/
def feed (merge : ν → ν → ν) (a : Agenda κ ν) (k : κ) (v : ν) : Agenda κ ν :=
  if a.place k ≠ 0 then { a with entries := a.entries.modify (a.place k - 1) fun e => (e.1, merge e.2 v) }
  else ⟨a.entries ++ [(some k, v)], Function.update a.place k (a.entries.length + 1)⟩

/-- The entry of `k` is for nobody from now on. -/
def cancel (a : Agenda κ ν) (k : κ) : Agenda κ ν :=
  if a.place k ≠ 0 then
    ⟨a.entries.modify (a.place k - 1) fun e => (none, e.2), Function.update a.place k 0⟩
  else a

/-- The last entry, which was for `o`, is taken. -/
def pop (a : Agenda κ ν) (o : Option κ) : Agenda κ ν where
  entries := a.entries.dropLast
  place := match o with
    | some k => Function.update a.place k 0
    | none => a.place

variable {a : Agenda κ ν} {k : κ} {v : ν} {merge : ν → ν → ν} {o : Option κ}

theorem feed_merge (hk : a.place k ≠ 0) (v : ν) :
    a.feed merge k v =
      { a with entries := a.entries.modify (a.place k - 1) fun e => (e.1, merge e.2 v) } := if_pos hk

theorem feed_append (hk : a.place k = 0) (v : ν) :
    a.feed merge k v =
      ⟨a.entries ++ [(some k, v)], Function.update a.place k (a.entries.length + 1)⟩ := by
  rw [feed, if_neg (not_not_intro hk)]

theorem cancel_place (hk : a.place k ≠ 0) :
    a.cancel k =
      ⟨a.entries.modify (a.place k - 1) fun e => (none, e.2), Function.update a.place k 0⟩ := if_pos hk

@[simp] theorem cancel_none (hk : a.place k = 0) : a.cancel k = a := by
  rw [cancel, if_neg (not_not_intro hk)]

theorem Ok.feed (h : a.Ok) (merge : ν → ν → ν) (k : κ) (v : ν) : (a.feed merge k v).Ok := by
  intro k' i
  by_cases hk : a.place k = 0
  · have hle := h.place_le k'
    have hlen : a.owners.length = a.entries.length := List.length_map _
    rw [feed_append hk, owners, List.map_append, List.getElem?_append]
    change (if i < a.owners.length then a.owners[i]? else _) = _ ↔ Function.update a.place k _ k' = _
    rw [hlen]
    by_cases hkk : k' = k
    · subst hkk
      rw [Function.update_self]
      by_cases hi : i < a.entries.length
      · rw [if_pos hi, h, hk]
        omega
      · rw [if_neg hi]
        by_cases heq : i = a.entries.length
        · simp [heq]
        · have hne : i - a.entries.length ≠ 0 := by omega
          simp [hne, Ne.symm heq]
    · rw [Function.update_of_ne hkk]
      by_cases hi : i < a.entries.length
      · rw [if_pos hi]
        exact h k' i
      · rw [if_neg hi, List.map_cons, List.map_nil, List.getElem?_singleton]
        constructor
        · intro heq
          split at heq
          · exact absurd (Option.some.inj (Option.some.inj heq)).symm hkk
          · exact absurd heq (by simp)
        · intro heq
          omega
  · have howners : (a.feed merge k v).owners = a.owners := by
      rw [feed_merge hk]
      exact @map_fst_modify _ _ (fun e => (e.1, merge e.2 v)) (fun _ => rfl) _ _
    rw [howners, feed_merge hk]
    exact h k' i

theorem value_feed (h : a.Ok) (merge : ν → ν → ν) (k : κ) (v : ν) :
    (a.feed merge k v).value =
      Function.update a.value k (some ((a.value k).elim v fun old => merge old v)) := by
  have hok := h.feed merge k v
  funext k'
  by_cases hk : a.place k = 0
  · rw [h.value_eq_none_iff.mpr hk]
    by_cases hkk : k' = k
    · subst hkk
      rw [Function.update_self]
      refine hok.value_eq_some (i := a.entries.length) ?_
      rw [feed_append hk]
      simp
    · have hle := h.place_le k'
      rw [Function.update_of_ne hkk, feed_append hk, value, value]
      simp only [Function.update_of_ne hkk]
      split
      · rfl
      · rw [List.getElem?_append_left (by omega)]
  · obtain ⟨old, hold⟩ := h.entry hk
    rw [h.value_eq_some hold]
    by_cases hkk : k' = k
    · subst hkk
      rw [Function.update_self]
      refine hok.value_eq_some (i := a.place k' - 1) ?_
      rw [feed_merge hk]
      simp [hold]
    · rw [Function.update_of_ne hkk, feed_merge hk, value, value]
      change (if a.place k' = 0 then none else _) = _
      split
      · rfl
      · rename_i hk'
        have hne : a.place k - 1 ≠ a.place k' - 1 := by
          intro heq
          exact hkk (h.place_inj hk' (by omega))
        simp only [List.getElem?_modify, if_neg hne, Option.map_eq_map, Option.map_id']

theorem Ok.cancel (h : a.Ok) (k : κ) : (a.cancel k).Ok := by
  by_cases hk : a.place k = 0
  · rwa [cancel_none hk]
  · intro k' i
    rw [cancel_place hk, owners, List.getElem?_map, List.getElem?_modify]
    change _ ↔ Function.update a.place k 0 k' = i + 1
    have howner := h k' i
    rw [owners, List.getElem?_map] at howner
    by_cases hi : a.place k - 1 = i
    · have hk' : Function.update a.place k 0 k' ≠ i + 1 := by
        by_cases hkk : k' = k
        · rw [hkk, Function.update_self]
          omega
        · rw [Function.update_of_ne hkk]
          intro heq
          exact hkk (h.place_inj (by omega) (by omega))
      simp only [if_pos hi, hk', iff_false]
      cases a.entries[i]? <;> simp
    · simp only [if_neg hi, Option.map_eq_map, Option.map_id']
      rw [howner]
      by_cases hkk : k' = k
      · rw [hkk, Function.update_self]
        omega
      · rw [Function.update_of_ne hkk]

theorem value_cancel (h : a.Ok) (k : κ) : (a.cancel k).value = Function.update a.value k none := by
  funext k'
  by_cases hk : a.place k = 0
  · rw [cancel_none hk]
    by_cases hkk : k' = k
    · rw [hkk, Function.update_self, h.value_eq_none_iff, hk]
    · rw [Function.update_of_ne hkk]
  · by_cases hkk : k' = k
    · rw [hkk, Function.update_self, (h.cancel k).value_eq_none_iff, cancel_place hk]
      exact Function.update_self _ _ _
    · rw [Function.update_of_ne hkk, cancel_place hk, value, value]
      simp only [Function.update_of_ne hkk]
      split
      · rfl
      · rename_i hk'
        have hne : a.place k - 1 ≠ a.place k' - 1 := by
          intro heq
          exact hkk (h.place_inj hk' (by omega))
        simp only [List.getElem?_modify, if_neg hne, Option.map_eq_map, Option.map_id']

theorem place_pop (a : Agenda κ ν) (o : Option κ) (k : κ) :
    (a.pop o).place k = if o = some k then 0 else a.place k := by
  cases o with
  | none => simp [pop]
  | some k' =>
    by_cases hk : k = k'
    · subst hk
      simp [pop]
    · simp [pop, hk, Ne.symm hk]

theorem Ok.pop (h : a.Ok) (hlast : a.entries.getLast? = some (o, v)) : (a.pop o).Ok := by
  intro k i
  rw [place_pop, owners, List.getElem?_map]
  change (a.entries.dropLast[i]?).map Prod.fst = _ ↔ _
  rw [List.getElem?_dropLast]
  have howner := h k i
  have hle := h.place_le k
  rw [owners, List.getElem?_map] at howner
  by_cases hk : o = some k
  · subst hk
    have hplace := h.place_last hlast
    rw [if_pos rfl]
    split
    · rw [howner]
      omega
    · simp
  · have hplace := h.place_ne_last hlast hk
    rw [if_neg hk]
    split
    · exact howner
    · simp only [Option.map_none, reduceCtorEq, false_iff]
      omega

/-- **What is taken is what is there for the key**, and nothing else is lost. -/
theorem value_pop (h : a.Ok) (hlast : a.entries.getLast? = some (o, v)) :
    (∀ k, o = some k → a.value k = some v) ∧
      ∀ k, (a.pop o).value k = if o = some k then none else a.value k := by
  have hget : a.entries[a.entries.length - 1]? = some (o, v) := by
    rw [← List.getLast?_eq_getElem?, hlast]
  refine ⟨fun k hk => h.value_eq_some (hk ▸ hget), fun k => ?_⟩
  by_cases hk : o = some k
  · rw [if_pos hk, (h.pop hlast).value_eq_none_iff, place_pop, if_pos hk]
  · have hplace := h.place_ne_last hlast hk
    have hle := h.place_le k
    rw [if_neg hk, value, value, place_pop, if_neg hk]
    change (if a.place k = 0 then none else (a.entries.dropLast[a.place k - 1]?).map Prod.snd) = _
    split
    · rfl
    · rw [List.getElem?_dropLast, if_pos (by omega)]

end Operations

end Agenda
