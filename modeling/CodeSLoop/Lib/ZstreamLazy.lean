import CodeSLoop.Lib.Zstream

/-!
# A codec from what its streams contain

A `Reader` says of every beginning of a stream what is in it, and whether it is a whole one. A
format comes from that, with a decompressor that takes the next symbol only when it has given all
that the last one brought, and from a way to write streams (`Packer`) a compressor that gives
nothing before it has to. Both are lawful.
-/

namespace Zstream

variable {α : Type}

/-- What is in the beginning of a stream, and is that all? Nothing for what is no beginning. -/
structure Reader (α : Type) where
  read : List α → Option (List α × Bool)
  read_nil : read [] = some ([], false)
  read_concat : ∀ {z b o e}, read (z ++ [b]) = some (o, e) →
    ∃ o', read z = some (o', false) ∧ o' <+: o

namespace Reader

variable (R : Reader α)

def plain (z : List α) : List α :=
  match R.read z with
  | some (o, _) => o
  | none => []

def Complete (z : List α) : Prop := ∃ o, R.read z = some (o, true)

variable {R} {a z r o o' x : List α} {b : α} {e : Bool} {g n : Nat}

theorem plain_eq (h : R.read z = some (o, e)) : R.plain z = o := by
  rw [plain, h]

/-- A part of the beginning of a stream is one, and no whole stream. -/
theorem read_append (h : R.read (z ++ r) = some (o, e)) (hr : r ≠ []) :
    ∃ o', R.read z = some (o', false) ∧ o' <+: o := by
  induction r using List.reverseRecOn generalizing o e with
  | nil => exact absurd rfl hr
  | append_singleton r b ih =>
    rw [← List.append_assoc] at h
    obtain ⟨o₁, h₁, hp₁⟩ := R.read_concat h
    by_cases hnil : r = []
    · rw [hnil, List.append_nil] at h₁
      exact ⟨o₁, h₁, hp₁⟩
    · obtain ⟨o₂, h₂, hp₂⟩ := ih h₁ hnil
      exact ⟨o₂, h₂, hp₂.trans hp₁⟩

theorem Complete.ends (h : R.Complete z) (h' : R.Complete (z ++ r)) : r = [] := by
  by_contra hr
  obtain ⟨o, h⟩ := h
  obtain ⟨o', h'⟩ := h'
  obtain ⟨o₁, h₁, -⟩ := read_append h' hr
  rw [h] at h₁
  cases h₁

theorem read_append_none (h : R.read z = none) : R.read (z ++ r) = none := by
  cases hz : R.read (z ++ r) with
  | none => rfl
  | some p =>
    by_cases hr : r = []
    · rw [hr, List.append_nil, h] at hz
      cases hz
    · obtain ⟨o₁, h₁, -⟩ := read_append (show _ = some (p.1, p.2) from hz) hr
      rw [h] at h₁
      cases h₁

/-- The format. -/
def format (R : Reader α) : Format α where
  plain := R.plain
  Complete := R.Complete
  Invalid z := R.read z = none ∧ ∀ z₁ r, z = z₁ ++ r → ¬ R.Complete z₁
  complete_nil := by
    rintro ⟨o, h⟩
    rw [R.read_nil] at h
    cases h
  ends h h' := h.ends h'
  valid h hi := hi.2 _ _ rfl h
  invalid := by
    intro z r h
    refine ⟨read_append_none h.1, fun z₁ r₁ he hz => ?_⟩
    rcases List.append_eq_append_iff.mp he with ⟨m, rfl, -⟩ | ⟨m, hm, -⟩
    · obtain ⟨o, ho⟩ := hz
      rw [read_append_none h.1] at ho
      cases ho
    · exact h.2 _ _ hm hz

/-! ## Decompression -/

/-- A call when `a` has been taken and `g` symbols have been given. -/
def pump (R : Reader α) (x a : List α) (g n : Nat) : Call (List α × Nat) α :=
  let out := ((R.plain a).drop g).take n
  if g + out.length < (R.plain a).length then ⟨(a, g + out.length), 0, out, .ok⟩
  else if (R.read a).any (·.2) then ⟨(a, g + out.length), 0, out, .streamEnd⟩
  else
    match x with
    | [] => ⟨(a, g + out.length), 0, out, .ok⟩
    | b :: x =>
      if (R.read (a ++ [b])).isNone then ⟨(a, g + out.length), 0, out, .dataError⟩
      else
        let r := pump R x (a ++ [b]) (g + out.length) (n - out.length)
        ⟨r.strm, r.used + 1, out ++ r.out, r.code⟩

/-- What a call does. -/
structure Pumped (R : Reader α) (x a : List α) (g n : Nat) (r : Call (List α × Nat) α) : Prop where
  used : r.used ≤ x.length
  room : r.out.length ≤ n
  strm : r.strm = (a ++ x.take r.used, g + r.out.length)
  out : ∃ o e, R.read (a ++ x.take r.used) = some (o, e) ∧ (R.plain a).take g ++ r.out <+: o ∧
    (r.code = .streamEnd ∧ e = true ∧ g + r.out.length = o.length ∨
      r.code = .dataError ∧ e = false ∧ (∃ b y, x.drop r.used = b :: y ∧
        R.read (a ++ x.take r.used ++ [b]) = none) ∨
      r.code = .ok ∧ ¬ (e = true ∧ g + r.out.length = o.length) ∧
        (x ≠ [] → 0 < n → 0 < r.used ∨ r.out ≠ []))

/-- What is given first, of the `o` that has been brought. -/
theorem take_drop_take (o : List α) (g n : Nat) :
    o.take g ++ (o.drop g).take n = o.take (g + n) := by
  rw [List.take_add]

/-- The call ends before a symbol is taken. -/
theorem pumped_of_read (h : R.read a = some (o, e)) {c : Code} {out : List α}
    (ho : out = (o.drop g).take n)
    (hc : c = .streamEnd ∧ e = true ∧ g + out.length = o.length ∨
      c = .dataError ∧ e = false ∧ (∃ b y, x = b :: y ∧ R.read (a ++ [b]) = none) ∨
      c = .ok ∧ ¬ (e = true ∧ g + out.length = o.length) ∧ (x ≠ [] → 0 < n → out ≠ [])) :
    Pumped R x a g n ⟨(a, g + out.length), 0, out, c⟩ := by
  refine ⟨Nat.zero_le _, ?_, ?_, ?_⟩
  · rw [ho, List.length_take]
    exact Nat.min_le_left ..
  · rw [List.take_zero, List.append_nil]
  · rw [List.take_zero, List.append_nil, plain_eq h]
    refine ⟨o, e, h, ?_, ?_⟩
    · rw [ho, take_drop_take]
      exact List.take_prefix ..
    · rcases hc with hc | ⟨hc, he, b, y, rfl, hn⟩ | ⟨hc, hne, hp⟩
      · exact .inl hc
      · exact .inr (.inl ⟨hc, he, b, y, rfl, hn⟩)
      · exact .inr (.inr ⟨hc, hne, fun hx hn => .inr (hp hx hn)⟩)

/-- The call takes a symbol, when all that the others bring has been given, and goes on. -/
theorem Pumped.cons {b : α} {p : List α × Bool} {r : Call (List α × Nat) α}
    (h : R.read a = some (o, e)) (hg : g ≤ o.length)
    (hall : g + ((o.drop g).take n).length = o.length) (hp : R.read (a ++ [b]) = some p)
    (hr : Pumped R x (a ++ [b]) o.length (n - ((o.drop g).take n).length) r) :
    Pumped R (b :: x) a g n ⟨r.strm, r.used + 1, (o.drop g).take n ++ r.out, r.code⟩ := by
  obtain ⟨o', h', hpre⟩ := R.read_concat (show _ = some (p.1, p.2) from hp)
  rw [h] at h'
  cases h'
  -- what has been given is all of `o`, so the rest goes on from its end
  have hgiven : o.take g ++ (o.drop g).take n = o := by
    have hpref : o.take g ++ (o.drop g).take n <+: o := by
      rw [take_drop_take]
      exact List.take_prefix ..
    refine hpref.eq_of_length ?_
    rw [List.length_append, List.length_take_of_le hg, hall]
  have hbrought : p.1.take o.length = o := List.prefix_iff_eq_take.mp hpre ▸ rfl
  have hroom : ((o.drop g).take n).length ≤ n := List.length_take ▸ Nat.min_le_left ..
  obtain ⟨o₂, e₂, h₂, hp₂, hc⟩ := hr.out
  rw [plain_eq hp, hbrought] at hp₂
  have hlen : g + ((o.drop g).take n ++ r.out).length = o.length + r.out.length := by
    rw [List.length_append, ← Nat.add_assoc, hall]
  refine ⟨Nat.succ_le_succ hr.used, ?_, ?_, o₂, e₂, ?_, ?_, ?_⟩
  · have := hr.room
    rw [List.length_append]
    omega
  · rw [hr.strm, hlen, List.take_succ_cons, List.append_assoc, List.singleton_append]
  · rw [List.take_succ_cons, ← List.singleton_append, ← List.append_assoc]
    exact h₂
  · rw [plain_eq h, ← List.append_assoc, hgiven]
    exact hp₂
  · dsimp only
    rw [hlen]
    rcases hc with hc | ⟨hc, he₂, b₂, y, hd, hn⟩ | ⟨hc, hne, -⟩
    · exact .inl hc
    · refine .inr (.inl ⟨hc, he₂, b₂, y, hd, ?_⟩)
      rw [List.take_succ_cons, ← List.singleton_append, ← List.append_assoc]
      exact hn
    · exact .inr (.inr ⟨hc, hne, fun _ _ => .inl (Nat.succ_pos _)⟩)

theorem pump_spec (h : R.read a = some (o, e)) (hg : g ≤ o.length) :
    Pumped R x a g n (R.pump x a g n) := by
  -- by the input: `pump` takes a symbol of it in each turn
  induction x generalizing a g n o e with
  | nil =>
    rw [pump, plain_eq h, h]
    split
    · rename_i hlt
      exact pumped_of_read h rfl (.inr (.inr ⟨rfl, fun hc => by omega, fun hx => absurd rfl hx⟩))
    · rename_i hle
      have hall : g + ((o.drop g).take n).length = o.length := by
        rw [List.length_take, List.length_drop] at hle ⊢
        omega
      split
      · rename_i he
        exact pumped_of_read h rfl (.inl ⟨rfl, he, hall⟩)
      · rename_i he
        exact pumped_of_read h rfl (.inr (.inr ⟨rfl, fun hc => he hc.1, fun hx => absurd rfl hx⟩))
  | cons b x ih =>
    rw [pump, plain_eq h, h]
    split
    -- not all is given yet, so there was room for some of it or there is no room
    · rename_i hlt
      refine pumped_of_read h rfl (.inr (.inr ⟨rfl, fun hc => by omega, fun _ hn hnil => ?_⟩))
      have hlen := congrArg List.length hnil
      rw [List.length_take, List.length_drop] at hlen hlt
      rw [List.length_nil] at hlen
      omega
    · rename_i hle
      have hall : g + ((o.drop g).take n).length = o.length := by
        rw [List.length_take, List.length_drop] at hle ⊢
        omega
      split
      · rename_i he
        exact pumped_of_read h rfl (.inl ⟨rfl, he, hall⟩)
      · rename_i he
        have hfalse : e = false := by
          cases e with
          | false => rfl
          | true => exact absurd rfl he
        dsimp only
        split
        · rename_i hnone
          exact pumped_of_read h rfl
            (.inr (.inl ⟨rfl, hfalse, b, x, rfl, Option.isNone_iff_eq_none.mp hnone⟩))
        · rename_i hsome
          obtain ⟨p, hp⟩ := Option.ne_none_iff_exists'.mp (mt Option.isNone_iff_eq_none.mpr hsome)
          obtain ⟨o', h', hpre⟩ := R.read_concat (show _ = some (p.1, p.2) from hp)
          rw [h] at h'
          cases h'
          have hr := @ih (a ++ [b]) p.1 p.2 o.length (n - ((o.drop g).take n).length) hp
            hpre.length_le
          rw [hall]
          exact .cons h hg hall hp hr

/-- The decompressor. -/
def inflater (R : Reader α) : Inflater α where
  σ := List α × Nat
  init := ([], 0)
  inflate s x n := R.pump x s.1 s.2 n

/-- What has been taken is the beginning of a stream, and what has been given is in it. -/
theorem fed_spec {s : R.inflater.σ} (h : R.inflater.Fed s a o) :
    s = (a, o.length) ∧ ∃ p e, R.read a = some (p, e) ∧ o <+: p := by
  induction h with
  | init => exact ⟨rfl, [], false, R.read_nil, List.prefix_refl _⟩
  | @call s a o x n hs hok ih =>
    obtain ⟨rfl, p, e, hp, hpre⟩ := ih
    have hr := pump_spec (n := n) (x := x) hp hpre.length_le
    obtain ⟨o₂, e₂, h₂, hp₂, -⟩ := hr.out
    rw [plain_eq hp, ← List.prefix_iff_eq_take.mp hpre] at hp₂
    refine ⟨?_, o₂, e₂, h₂, hp₂⟩
    rw [List.length_append]
    exact hr.strm

/-- After the end there is nothing to take or give. -/
theorem pump_ended (h : R.read a = some (o, true)) :
    R.pump x a o.length n = ⟨(a, o.length), 0, [], .streamEnd⟩ := by
  rw [pump.eq_def, plain_eq h, h]
  simp

/-- A call on a stream as it can be. -/
theorem fed_pump {s : R.inflater.σ} (h : R.inflater.Fed s a o) (x : List α) (n : Nat) :
    Pumped R x a o.length n (R.inflater.inflate s x n) ∧ (R.plain a).take o.length = o := by
  obtain ⟨rfl, p, e, hp, hpre⟩ := fed_spec h
  refine ⟨pump_spec hp hpre.length_le, ?_⟩
  rw [plain_eq hp, ← List.prefix_iff_eq_take.mp hpre]

theorem ended_spec {s : R.inflater.σ} (h : R.inflater.Ended s) :
    ∃ a o, s = (a, o.length) ∧ R.read a = some (o, true) := by
  induction h with
  | @last s a o x n hs hend =>
    have hr := (fed_pump hs x n).1
    obtain ⟨o₂, e₂, h₂, -, hc⟩ := hr.out
    rcases hc with ⟨-, rfl, hlen⟩ | ⟨hc, -⟩ | ⟨hc, -⟩
    · exact ⟨_, o₂, by rw [hr.strm, hlen], h₂⟩
    · rw [hend] at hc
      cases hc
    · rw [hend] at hc
      cases hc
  | @again s x n hs ih =>
    obtain ⟨a, o, rfl, h⟩ := ih
    exact ⟨a, o, congrArg Call.strm (pump_ended h), h⟩

/-- A symbol that does not go on with a stream. -/
theorem invalid_concat (h : R.read z = some (o, false)) (hn : R.read (z ++ [b]) = none) :
    R.format.Invalid (z ++ [b]) := by
  refine ⟨hn, fun z₁ r he hz => ?_⟩
  obtain ⟨o₁, h₁⟩ := hz
  rcases List.eq_nil_or_concat' r with rfl | ⟨r, b', rfl⟩
  · rw [List.append_nil] at he
    rw [he, h₁] at hn
    cases hn
  · rw [← List.append_assoc] at he
    obtain ⟨rfl, -⟩ := List.append_inj' he rfl
    by_cases hr : r = []
    · rw [hr, List.append_nil, h₁] at h
      cases h
    · obtain ⟨o₂, h₂, -⟩ := read_append h hr
      rw [h₁] at h₂
      cases h₂

/-- **The decompressor is lawful.** -/
theorem lawful (R : Reader α) : R.inflater.Lawful R.format where
  used_le x n h := (fed_pump h x n).1.used
  out_le x n h := (fed_pump h x n).1.room
  progress {s a o x n} h hx hn hok := by
    obtain ⟨o₂, e₂, -, -, hc⟩ := (fed_pump h x n).1.out
    rcases hc with ⟨hc, -⟩ | ⟨hc, -⟩ | ⟨-, -, hp⟩
    · rw [hok] at hc
      cases hc
    · rw [hok] at hc
      cases hc
    · exact hp hx hn
  output {s a o x n} h _ _ _ := by
    obtain ⟨hr, ho⟩ := fed_pump h x n
    obtain ⟨o₂, e₂, h₂, hp, -⟩ := hr.out
    rw [ho] at hp
    have hplain : R.format.plain _ = o₂ := plain_eq h₂
    rw [hplain]
    exact hp
  streamEnd {s a o x n} h _ _ hend := by
    obtain ⟨hr, ho⟩ := fed_pump h x n
    obtain ⟨o₂, e₂, h₂, hp, hc⟩ := hr.out
    rw [ho] at hp
    rcases hc with ⟨-, rfl, hlen⟩ | ⟨hc, -⟩ | ⟨hc, -⟩
    · refine ⟨⟨o₂, h₂⟩, (hp.eq_of_length ?_).trans (plain_eq h₂).symm⟩
      rw [List.length_append, hlen]
    · rw [hend] at hc
      cases hc
    · rw [hend] at hc
      cases hc
  reported {s a o x n} h _ _ hneg hz ho := by
    obtain ⟨o₂, e₂, h₂, -, hc⟩ := (fed_pump h x n).1.out
    obtain ⟨o₃, h₃⟩ := hz
    rw [h₂] at h₃
    cases h₃
    have hlen := congrArg List.length (ho.trans (plain_eq h₂))
    rw [List.length_append] at hlen
    rcases hc with ⟨hc, -⟩ | ⟨-, hc, -⟩ | ⟨-, hc, -⟩
    · exact hc
    · cases hc
    · exact absurd ⟨rfl, hlen⟩ hc
  again {s x n} h _ _ := by
    obtain ⟨a, o, rfl, ha⟩ := ended_spec h
    have hr : R.inflater.inflate (a, o.length) x n = _ := pump_ended ha
    rw [hr]
    exact ⟨rfl, rfl, rfl⟩
  invalid {s a o x n} h _ _ hneg := by
    obtain ⟨o₂, e₂, h₂, -, hc⟩ := (fed_pump h x n).1.out
    rcases hc with ⟨hc, -⟩ | ⟨-, he, b, y, hd, hn⟩ | ⟨hc, -⟩
    · exact absurd hc hneg.2
    · -- the symbol that is refused spoils the whole of the input
      have hsplit : a ++ x = a ++ x.take (R.inflater.inflate s x n).used ++ [b] ++ y := by
        rw [List.append_assoc, List.singleton_append, ← hd, List.append_assoc,
          List.take_append_drop]
      rw [hsplit]
      exact R.format.invalid (invalid_concat (he ▸ h₂) hn)
    · exact absurd hc hneg.1

/-! ### Calls that have room for all -/

/-- A call that has room for all that the input brings takes the input and gives that. -/
theorem pump_all {p : List α} (h : R.read (a ++ x) = some (p, e)) (hg : g ≤ (R.plain a).length)
    (hroom : p.length ≤ g + n) :
    R.pump x a g n = ⟨(a ++ x, p.length), x.length, p.drop g, if e then .streamEnd else .ok⟩ := by
  induction x generalizing a g n with
  | nil =>
    rw [List.append_nil] at h
    rw [plain_eq h] at hg
    have hout : (p.drop g).take n = p.drop g :=
      List.take_of_length_le (by rw [List.length_drop]; omega)
    have hall : g + (p.drop g).length = p.length := by
      rw [List.length_drop]
      omega
    rw [pump, plain_eq h, h, hout, hall, if_neg (Nat.lt_irrefl _), List.append_nil]
    cases e with
    | true => rfl
    | false => rfl
  | cons b x ih =>
    obtain ⟨o, ho, hpre⟩ := read_append h (List.cons_ne_nil b x)
    rw [plain_eq ho] at hg
    have hle := hpre.length_le
    have hout : (o.drop g).take n = o.drop g :=
      List.take_of_length_le (by rw [List.length_drop]; omega)
    have hall : g + (o.drop g).length = o.length := by
      rw [List.length_drop]
      omega
    rw [List.append_cons] at h
    cases hb : R.read (a ++ [b]) with
    | none =>
      rw [read_append_none hb] at h
      cases h
    | some q =>
      obtain ⟨o', ho', hpre'⟩ := R.read_concat (show _ = some (q.1, q.2) from hb)
      rw [ho] at ho'
      cases ho'
      have hnext := @ih (a ++ [b]) o.length (n - (o.drop g).length) h
        (by rw [plain_eq (show _ = some (q.1, q.2) from hb)]; exact hpre'.length_le)
        (by rw [List.length_drop]; omega)
      -- what is given now and what the rest brings
      have hsplit : o.drop g ++ p.drop o.length = p.drop g := by
        obtain ⟨t, rfl⟩ := hpre
        rw [List.drop_left, List.drop_append_of_le_length hg]
      rw [pump, plain_eq ho, ho, hout, hall, if_neg (Nat.lt_irrefl _), hb]
      simp only [Option.any_some, Bool.false_eq_true, if_false, Option.isNone_some]
      rw [hnext, hsplit, ← List.append_cons]
      rfl

/-- Pages of no more than `n` bytes are drained when none of them brings more than that. -/
theorem drains_pages {p x : List α} {pages : List (List α)}
    (h : R.read (a ++ (x ++ pages.flatten)) = some (p, true))
    (hroom : ∀ b y, b ++ y <+: a ++ (x ++ pages.flatten) → y = x ∨ y ∈ pages →
      (R.plain (b ++ y)).length ≤ (R.plain b).length + n)
    (hpages : ∀ q ∈ pages, q ≠ []) :
    R.inflater.Drains n (a, (R.plain a).length) x pages := by
  induction pages generalizing a x with
  | nil =>
    rw [List.flatten_nil, List.append_nil] at h
    have hfit := hroom a x (by rw [List.flatten_nil, List.append_nil]) (.inl rfl)
    rw [plain_eq h] at hfit
    have hcall : R.inflater.inflate (a, (R.plain a).length) x n = _ :=
      pump_all h (Nat.le_refl _) hfit
    refine .last ?_ ?_
    · rw [hcall]
      rfl
    · rw [hcall]
      exact List.drop_length
  | cons q qs ih =>
    have hq : q ++ qs.flatten ≠ [] :=
      List.append_ne_nil_of_left_ne_nil (hpages q (List.mem_cons_self ..)) _
    rw [List.flatten_cons, ← List.append_assoc] at h
    obtain ⟨o, ho, -⟩ := read_append h hq
    have hfit := hroom a x
      (by rw [← List.append_assoc]; exact List.prefix_append ..) (.inl rfl)
    rw [plain_eq ho] at hfit
    have hcall : R.inflater.inflate (a, (R.plain a).length) x n = _ :=
      pump_all ho (Nat.le_refl _) hfit
    have hturn : Inflater.Turn (x.drop x.length) (q :: qs) q qs := by
      rw [List.drop_length]
      exact .page
    refine .more ?_ (by rw [hcall]; exact hturn) ?_
    · rw [hcall]
      rfl
    · rw [hcall]
      dsimp only
      rw [← plain_eq ho]
      refine ih h (fun b y hb hy => hroom b y ?_ (.inr (List.mem_cons.mpr hy)))
        fun q' hq' => hpages q' (List.mem_cons_of_mem q hq')
      rw [List.flatten_cons, ← List.append_assoc a]
      exact hb

/-- All of a stream is drained when no page of it brings more than there is room for. -/
theorem drains_all {p : List α} {pages : List (List α)} (h : R.read pages.flatten = some (p, true))
    (hroom : ∀ b y, b ++ y <+: pages.flatten → y ∈ pages →
      (R.plain (b ++ y)).length ≤ (R.plain b).length + n)
    (hpages : ∀ q ∈ pages, q ≠ []) : R.inflater.DrainsAll n pages := by
  cases pages with
  | nil =>
    rw [List.flatten_nil, R.read_nil] at h
    cases h
  | cons q qs =>
    have hnil : (R.plain []).length = 0 := by
      rw [plain_eq R.read_nil]
      rfl
    have hd := @drains_pages α R [] n p q qs h
      (fun b y hb hy => hroom b y hb (List.mem_cons.mpr hy))
      fun q' hq' => hpages q' (List.mem_cons_of_mem q hq')
    rw [hnil] at hd
    exact hd

/-! ## Some formats -/

section Formats

variable {more stop : α}

/-- How the data is written symbol by symbol, each of them after `more`, with `stop` in the end. -/
def writeLiteral (more stop : α) (d : List α) : List α := d.flatMap (fun c => [more, c]) ++ [stop]

theorem length_writeLiteral (d : List α) :
    (writeLiteral more stop d).length = 2 * d.length + 1 := by
  rw [writeLiteral, List.length_append, List.length_flatMap, List.length_singleton]
  simp [Nat.mul_comm]

variable [DecidableEq α]

/-- The streams that are `word`, whose symbols each bring something. -/
def readWord : List (α × List α) → List α → Option (List α × Bool)
  | w, [] => some ([], w.isEmpty)
  | [], _ :: _ => none
  | (b, o) :: w, c :: z => if b = c then (readWord w z).map fun p => (o ++ p.1, p.2) else none

/-- The streams that are written so. -/
def readLiteral (more stop : α) : List α → Option (List α × Bool)
  | [] => some ([], false)
  | [b] => if b = stop then some ([], true) else if b = more then some ([], false) else none
  | b :: c :: z => if b = more then (readLiteral more stop z).map fun p => (c :: p.1, p.2) else none

theorem readWord_concat {w : List (α × List α)} (h : readWord w (z ++ [b]) = some (o, e)) :
    ∃ o', readWord w z = some (o', false) ∧ o' <+: o := by
  induction z generalizing w o e with
  | nil =>
    cases w with
    | nil => cases h
    | cons p w => exact ⟨[], rfl, List.nil_prefix⟩
  | cons c z ih =>
    cases w with
    | nil => cases h
    | cons p w =>
      rw [List.cons_append, readWord] at h
      split at h
      · rename_i hc
        obtain ⟨q, hq, he⟩ := Option.map_eq_some_iff.mp h
        cases he
        obtain ⟨o', ho', hpre⟩ := ih (show _ = some (q.1, q.2) from hq)
        refine ⟨p.2 ++ o', ?_, (List.prefix_append_right_inj p.2).mpr hpre⟩
        rw [readWord, if_pos hc, ho', Option.map_some]
      · cases h

/-- All of a word brings all that its symbols bring. -/
theorem readWord_all (w : List (α × List α)) :
    readWord w (w.map (·.1)) = some (w.flatMap (·.2), true) := by
  induction w with
  | nil => rfl
  | cons p w ih => rw [List.map_cons, readWord, if_pos rfl, ih, Option.map_some, List.flatMap_cons]

/-- A whole stream of it is the word. -/
theorem readWord_whole {w : List (α × List α)} (h : readWord w z = some (o, true)) :
    o = w.flatMap (·.2) := by
  induction w generalizing z o with
  | nil =>
    cases z with
    | nil =>
      cases h
      rfl
    | cons c z => cases h
  | cons p w ih =>
    cases z with
    | nil => cases h
    | cons c z =>
      rw [readWord] at h
      split at h
      · obtain ⟨⟨o', e'⟩, hq, he⟩ := Option.map_eq_some_iff.mp h
        cases he
        rw [List.flatMap_cons, ← ih hq]
      · cases h

def word (w : List (α × List α)) (hw : w ≠ []) : Reader α where
  read := readWord w
  read_nil := by
    cases w with
    | nil => exact absurd rfl hw
    | cons p w => rfl
  read_concat := readWord_concat

theorem readLiteral_concat (hne : stop ≠ more) : ∀ {z : List α} {b : α} {o : List α} {e : Bool},
    readLiteral more stop (z ++ [b]) = some (o, e) →
      ∃ o', readLiteral more stop z = some (o', false) ∧ o' <+: o
  | [], _, _, _, _ => ⟨[], rfl, List.nil_prefix⟩
  | [c], b, o, e, h => by
    rw [List.singleton_append, readLiteral] at h
    split at h
    · rename_i hc
      exact ⟨[], by rw [readLiteral, if_neg (hc ▸ hne.symm), if_pos hc], List.nil_prefix⟩
    · cases h
  | c :: d :: z, b, o, e, h => by
    rw [List.cons_append, List.cons_append, readLiteral] at h
    split at h
    · rename_i hc
      obtain ⟨q, hq, he⟩ := Option.map_eq_some_iff.mp h
      cases he
      obtain ⟨o', ho', hpre⟩ := readLiteral_concat hne (show _ = some (q.1, q.2) from hq)
      refine ⟨d :: o', ?_, (List.prefix_cons_inj d).mpr hpre⟩
      rw [readLiteral, if_pos hc, ho', Option.map_some]
    · cases h

def literal (more stop : α) (hne : stop ≠ more) : Reader α where
  read := readLiteral more stop
  read_nil := rfl
  read_concat := readLiteral_concat hne

/-- Two symbols of a stream bring one. -/
theorem length_readLiteral : ∀ {z : List α} {o : List α} {e : Bool},
    readLiteral more stop z = some (o, e) → o.length = z.length / 2
  | [], _, _, h => by
    cases h
    exact (Nat.zero_div 2).symm
  | [b], o, e, h => by
    rw [readLiteral] at h
    split at h
    · cases h
      exact (Nat.div_eq_of_lt Nat.one_lt_two).symm
    · split at h
      · cases h
        exact (Nat.div_eq_of_lt Nat.one_lt_two).symm
      · cases h
  | b :: c :: z, o, e, h => by
    rw [readLiteral] at h
    split at h
    · obtain ⟨q, hq, he⟩ := Option.map_eq_some_iff.mp h
      cases he
      have hlen := length_readLiteral (show _ = some (q.1, q.2) from hq)
      rw [List.length_cons, List.length_cons, List.length_cons, hlen]
      omega
    · cases h

theorem readLiteral_write (d : List α) :
    readLiteral more stop (writeLiteral more stop d) = some (d, true) := by
  induction d with
  | nil => exact if_pos rfl
  | cons c d ih =>
    rw [writeLiteral, List.flatMap_cons, List.append_assoc, List.cons_append, List.cons_append,
      List.nil_append, readLiteral, if_pos rfl]
    rw [writeLiteral] at ih
    rw [ih, Option.map_some]

/-- The streams of `R₁` that begin with `b`, and those of `R₂` that do not. -/
def dispatch (b : α) (R₁ R₂ : Reader α) : Reader α where
  read z := if z.head? = some b then R₁.read z else R₂.read z
  read_nil := R₂.read_nil
  read_concat := by
    intro z c o e h
    cases z with
    | nil => exact ⟨[], R₂.read_nil, List.nil_prefix⟩
    | cons d z =>
      rw [List.cons_append, List.head?_cons] at h
      rw [List.head?_cons]
      split at h
      · rename_i hd
        rw [if_pos hd]
        exact R₁.read_concat h
      · rename_i hd
        rw [if_neg hd]
        exact R₂.read_concat h

end Formats

end Reader

/-! ## Compression -/

/-- A way to write streams. -/
structure Packer (R : Reader α) where
  pack : List α → List α
  bound : Nat → Nat
  read_pack : ∀ d, R.read (pack d) = some (d, true)
  length_le : ∀ d, (pack d).length ≤ bound d.length

namespace Packer

variable {R : Reader α} (P : Packer R) {a w : List α} {f : Bool}

/-- The compressor. -/
def deflater : Deflater α where
  σ := List α × Nat
  init := ([], 0)
  deflate s flush x n :=
    match flush with
    | .noFlush => ⟨(s.1 ++ x, s.2), x.length, [], .ok⟩
    | .finish =>
      let out := ((P.pack s.1).drop s.2).take n
      ⟨(s.1, s.2 + out.length), 0, out,
        if s.2 + out.length < (P.pack s.1).length then .ok else .streamEnd⟩

/-- What has been written is a beginning of the stream, and nothing before the end of the data. -/
theorem fed_spec {s : P.deflater.σ} (h : P.deflater.Fed f s a w) :
    s = (a, w.length) ∧ w <+: P.pack a ∧ (f = false → w = []) := by
  induction h with
  | init => exact ⟨rfl, List.nil_prefix, fun _ => rfl⟩
  | @more s a w x n hs hok ih =>
    obtain ⟨rfl, -, hw⟩ := ih
    have hnil := hw rfl
    subst hnil
    refine ⟨?_, List.nil_prefix, fun _ => rfl⟩
    exact congrArg (fun y => (a ++ y, 0)) (List.take_length ..).symm
  | @finish f s a w n hs hok ih =>
    obtain ⟨rfl, hp, -⟩ := ih
    refine ⟨?_, ?_, fun hf => by cases hf⟩
    · rw [List.length_append]
      rfl
    · have hw : w = (P.pack a).take w.length := List.prefix_iff_eq_take.mp hp
      have hout : w ++ ((P.pack a).drop w.length).take n <+: P.pack a := by
        nth_rewrite 1 [hw]
        rw [Reader.take_drop_take]
        exact List.take_prefix ..
      exact hout

/-- **The compressor is lawful.** -/
theorem lawful : P.deflater.Lawful R.format P.bound where
  more {s a w} x n h hx hn := by
    exact ⟨rfl, Nat.le_refl _, Nat.zero_le _, .inl (List.length_pos_iff.mpr hx)⟩
  finish {f s a w} n h hn := by
    obtain ⟨rfl, hp, -⟩ := P.fed_spec h
    have hw : w = (P.pack a).take w.length := List.prefix_iff_eq_take.mp hp
    have hle := hp.length_le
    generalize hr : P.deflater.deflate (a, w.length) .finish [] n = r
    have hout : r.out = ((P.pack a).drop w.length).take n := hr ▸ rfl
    have hcode : r.code =
        if w.length + r.out.length < (P.pack a).length then .ok else .streamEnd := hr ▸ rfl
    have hlen : r.out.length = min n ((P.pack a).length - w.length) := by
      rw [hout, List.length_take, List.length_drop]
    split at hcode
    · exact .inl ⟨hcode, by omega⟩
    · have hall : w ++ r.out = P.pack a := by
        nth_rewrite 1 [hw]
        rw [hout, Reader.take_drop_take]
        exact List.take_of_length_le (by omega)
      rw [hall]
      exact .inr ⟨hcode, by omega, ⟨a, P.read_pack a⟩, Reader.plain_eq (P.read_pack a)⟩
  bounded {f s a w} h := (P.fed_spec h).2.1.length_le.trans (P.length_le a)

end Packer

end Zstream
