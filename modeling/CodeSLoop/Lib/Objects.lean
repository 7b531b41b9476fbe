import Mathlib.Data.List.Basic

/-!
# Arrays of objects in memory

An object is kept as `n` cells, which `rep` gives for it, and the objects of an array stand one
behind the other. Nothing may have been said of some of them yet (`none`), and there any cells
will do.

What is asked of the cells (`Encodes`) is asked place by place, so whatever a piece of code does
to them is judged by where the places that have been said end: `Encodes.resize` is for cells of
which the first ones are kept, and `Encodes.last_cell` tells where a place shows that they were
not enough.
-/

namespace Objects

universe u v

variable {T : Type u} {β : Type v}

/-- The cells of the object at the place `k`. -/
def place (n : Nat) (bs : List β) (k : Nat) : List β := (bs.drop (k * n)).take n

/-- The cells are those of the array, where it says something. -/
structure Encodes (rep : T → List β) (n : Nat) (xs : List (Option T)) (bs : List β) : Prop where
  length_eq : bs.length = xs.length * n
  said : ∀ k t, xs[k]? = some (some t) → place n bs k = rep t

/-- An array of `m` objects that keeps the first ones. -/
def resize (xs : List (Option T)) (m : Nat) : List (Option T) :=
  xs.take m ++ List.replicate (m - xs.length) none

/-- One that keeps them only when there are not to be more. -/
def resizeNocopy (xs : List (Option T)) (m : Nat) : List (Option T) :=
  if m ≤ xs.length then xs.take m else List.replicate m none

variable {rep : T → List β} {n m p k : Nat} {xs ys : List (Option T)} {ts us : List T} {bs cs : List β}

/-! ## Sizes -/

theorem length_resize (xs : List (Option T)) (m : Nat) : (resize xs m).length = m := by
  rw [resize, List.length_append, List.length_take, List.length_replicate]
  omega

/-- What is said of a resized array was said before. -/
theorem said_resize {t : T} (h : (resize xs m)[k]? = some (some t)) : k < m ∧ xs[k]? = some (some t) := by
  have hk : k < m := by
    have hlt := (List.getElem?_eq_some_iff.mp h).1
    rwa [length_resize] at hlt
  refine ⟨hk, ?_⟩
  rw [resize, List.getElem?_append] at h
  split at h
  · rwa [List.getElem?_take, if_pos hk] at h
  · rw [List.getElem?_replicate] at h
    split at h
    · cases h
    · cases h

theorem resize_said {t : T} (hk : k < m) (h : xs[k]? = some (some t)) :
    (resize xs m)[k]? = some (some t) := by
  have hlt := (List.getElem?_eq_some_iff.mp h).1
  rw [resize, List.getElem?_append_left, List.getElem?_take, if_pos hk, h]
  rw [List.length_take]
  omega

/-! ## Places -/

/-- A place within the cells that are kept. -/
theorem place_take_append (hp : (k + 1) * n ≤ p) (hle : (k + 1) * n ≤ bs.length) :
    place n (bs.take p ++ cs) k = place n bs k := by
  rw [Nat.succ_mul] at hp hle
  have hlen : (bs.take p).length = min p bs.length := List.length_take
  rw [place, place, List.drop_append_of_le_length (by omega), List.take_append_of_le_length, List.drop_take,
    List.take_take, Nat.min_eq_left (by omega)]
  rw [List.length_drop]
  omega

theorem place_zero_append (h : cs.length = n) : place n (cs ++ bs) 0 = cs := by
  rw [place, Nat.zero_mul, List.drop_zero, ← h, List.take_left]

theorem place_succ_append (h : cs.length = n) : place n (cs ++ bs) (k + 1) = place n bs k := by
  rw [place, place, Nat.succ_mul, Nat.add_comm, ← h, List.drop_append, List.drop_of_length_le (by omega),
    Nat.add_sub_cancel_left, List.nil_append]

/-- The last cell of a place. -/
theorem getElem?_place (hn : 0 < n) : (place n bs k)[n - 1]? = bs[(k + 1) * n - 1]? := by
  have hindex : k * n + (n - 1) = (k + 1) * n - 1 := by
    rw [Nat.succ_mul]
    omega
  rw [place, List.getElem?_take, if_pos (by omega), List.getElem?_drop, hindex]

/-! ## What the cells say -/

theorem encodes_nil : Encodes rep n [] [] := by
  refine ⟨(Nat.zero_mul n).symm, fun k t h => ?_⟩
  rw [List.getElem?_nil] at h
  cases h

theorem Encodes.cons {t : T} (hrep : (rep t).length = n) (h : Encodes rep n xs bs) :
    Encodes rep n (some t :: xs) (rep t ++ bs) := by
  refine ⟨?_, fun k u hk => ?_⟩
  · rw [List.length_append, List.length_cons, Nat.succ_mul, hrep, h.length_eq, Nat.add_comm]
  · cases k with
    | zero =>
      rw [place_zero_append hrep]
      cases hk
      rfl
    | succ k =>
      rw [place_succ_append hrep]
      exact h.said k u hk

/-- Everything is said. -/
theorem encodes_map (hrep : ∀ t, (rep t).length = n) (ts : List T) :
    Encodes rep n (ts.map some) (ts.flatMap rep) := by
  induction ts with
  | nil => exact encodes_nil
  | cons t ts ih => exact ih.cons (hrep t)

/-- Nothing is. -/
theorem encodes_replicate (h : bs.length = m * n) : Encodes rep n (List.replicate m none) bs := by
  refine ⟨by rw [h, List.length_replicate], fun k t hk => ?_⟩
  rw [List.getElem?_replicate] at hk
  split at hk
  · cases hk
  · cases hk

theorem Encodes.le_length {t : T} (h : Encodes rep n xs bs) (hk : xs[k]? = some (some t)) :
    (k + 1) * n ≤ bs.length := by
  rw [h.length_eq]
  exact Nat.mul_le_mul_right n (List.getElem?_eq_some_iff.mp hk).1

/-- The first `p` cells are enough when nothing that is to be kept ends behind them. -/
theorem Encodes.resize (h : Encodes rep n xs bs)
    (hkeep : ∀ k t, k < m → xs[k]? = some (some t) → (k + 1) * n ≤ p)
    (hlen : (bs.take p ++ cs).length = m * n) : Encodes rep n (resize xs m) (bs.take p ++ cs) := by
  refine ⟨by rw [hlen, length_resize], fun k t hk => ?_⟩
  obtain ⟨hkm, hx⟩ := said_resize hk
  rw [place_take_append (hkeep k t hkm hx) (h.le_length hx)]
  exact h.said k t hx

theorem Encodes.resizeNocopy (h : Encodes rep n xs bs) (hlen : cs.length = m * n)
    (hkeep : m ≤ xs.length → cs = bs.take (m * n)) : Encodes rep n (resizeNocopy xs m) cs := by
  rw [Objects.resizeNocopy]
  split
  · rename_i hle
    have hkept : (bs.take (m * n) ++ []).length = m * n := by rw [List.append_nil, ← hkeep hle, hlen]
    have hsize : m - xs.length = 0 := Nat.sub_eq_zero_of_le hle
    have hfirst := h.resize (fun k t hk _ => Nat.mul_le_mul_right n hk) hkept
    rwa [Objects.resize, hsize, List.replicate_zero, List.append_nil, List.append_nil, ← hkeep hle] at hfirst
  · exact encodes_replicate hlen

/-- A place that has been said has its last cell. -/
theorem Encodes.last_cell {t : T} (h : Encodes rep n xs bs) (hn : 0 < n) (hk : xs[k]? = some (some t)) :
    bs[(k + 1) * n - 1]? = (rep t)[n - 1]? := by
  rw [← h.said k t hk, getElem?_place hn]

/-- Cells that say everything. -/
theorem Encodes.eq_flatMap (hrep : ∀ t, (rep t).length = n) (h : Encodes rep n (ts.map some) bs) :
    bs = ts.flatMap rep := by
  induction ts generalizing bs with
  | nil =>
    have hlen := h.length_eq
    rw [List.map_nil, List.length_nil, Nat.zero_mul] at hlen
    exact List.length_eq_zero_iff.mp hlen
  | cons t ts ih =>
    have hfirst : bs.take n = rep t := by
      have hsaid := h.said 0 t rfl
      rwa [place, Nat.zero_mul, List.drop_zero] at hsaid
    have hrest : Encodes rep n (ts.map some) (bs.drop n) := by
      refine ⟨?_, fun k u hk => ?_⟩
      · rw [List.length_drop, h.length_eq, List.map_cons, List.length_cons, Nat.succ_mul,
          Nat.add_sub_cancel_right]
      · have hsaid := h.said (k + 1) u hk
        rwa [← List.take_append_drop n bs, place_succ_append (by rw [hfirst, hrep])] at hsaid
    rw [List.flatMap_cons, ← hfirst, ← ih hrest, List.take_append_drop]

theorem length_flatMap (hrep : ∀ t, (rep t).length = n) (ts : List T) :
    (ts.flatMap rep).length = ts.length * n := by
  rw [(encodes_map hrep ts).length_eq, List.length_map]

/-- The cells of the first objects. -/
theorem take_flatMap (hrep : ∀ t, (rep t).length = n) (ts : List T) (m : Nat) :
    (ts.flatMap rep).take (m * n) = (ts.take m).flatMap rep := by
  induction ts generalizing m with
  | nil => rw [List.flatMap_nil, List.take_nil, List.take_nil, List.flatMap_nil]
  | cons t ts ih =>
    cases m with
    | zero => rw [Nat.zero_mul, List.take_zero, List.take_zero, List.flatMap_nil]
    | succ m =>
      have hsplit : (m + 1) * n = (rep t).length + m * n := by rw [hrep, Nat.succ_mul, Nat.add_comm]
      rw [List.flatMap_cons, hsplit, List.take_length_add_append, ih, List.take_succ_cons, List.flatMap_cons]

/-- Equal cells are those of objects that have equal cells. -/
theorem flatMap_eq_iff (hrep : ∀ t, (rep t).length = n) (hn : 0 < n) :
    ts.flatMap rep = us.flatMap rep ↔ ts.map rep = us.map rep := by
  constructor
  · intro h
    induction ts generalizing us with
    | nil =>
      cases us with
      | nil => rfl
      | cons u us =>
        have hlen := congrArg List.length h
        rw [List.flatMap_cons, List.length_append, hrep, List.flatMap_nil, List.length_nil] at hlen
        omega
    | cons t ts ih =>
      cases us with
      | nil =>
        have hlen := congrArg List.length h
        rw [List.flatMap_cons, List.length_append, hrep, List.flatMap_nil, List.length_nil] at hlen
        omega
      | cons u us =>
        rw [List.flatMap_cons, List.flatMap_cons] at h
        obtain ⟨hfirst, hrest⟩ := List.append_inj h ((hrep t).trans (hrep u).symm)
        rw [List.map_cons, List.map_cons, hfirst, ih hrest]
  · intro h
    rw [List.flatMap_def, List.flatMap_def, h]

end Objects
