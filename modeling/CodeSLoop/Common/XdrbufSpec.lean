import CodeSLoop.Common.Xdrbuf

/-!
# What an `xdrbuf` reads

The iterator and `pos_` stand for one number, the *offset* of the reader in the bytes of the
`pbuf`; what is still to be read are the bytes from there on (`rest`). `getData_spec` says
what `get_data` does in these terms, whatever the pages: it takes the bytes asked for and
moves on by their number rounded up to a multiple of four, or takes all there is and ends at
`end()`. The rounding cannot carry a reader from one page to the next, since full pages have
a multiple of four bytes; on the last page it can carry `pos_` past the bytes there are.
-/

namespace CodeSLoop

open Bytes Codec Pages

universe u v

namespace Xdrbuf

variable {x : Xdrbuf} {n : Nat}

theorem mod_bufSize : Pbuf.bufSize % 4 = 0 := rfl

/-! ## Places in the pages -/

/-- Page `it` and position `pos` on it are a place a reader can stand at, and it is `m` bytes
    from the start: on a page, at a multiple of four and at most the rounding behind the last
    byte, or behind all pages. -/
structure Stands (ps : List Page8) (it pos m : Nat) : Prop where
  le : it ≤ ps.length
  off : (ps.take it).flatten.length + pos = m
  aligned : pos % 4 = 0
  page : ∀ p, ps[it]? = some p → pos ≤ round4 p.length
  atEnd : it = ps.length → pos = 0

section Stands

variable {p : Page8} {ps : List Page8} {it pos k m : Nat}

theorem Stands.cons (h : Stands ps it pos m) : Stands (p :: ps) (it + 1) pos (p.length + m) where
  le := Nat.succ_le_succ h.le
  off := by
    rw [List.take_succ_cons, List.flatten_cons, List.length_append, Nat.add_assoc, h.off]
  aligned := h.aligned
  page q hq := h.page q (by simpa using hq)
  atEnd he := h.atEnd (by simpa using he)

/-- A place seen from page `k` on is one seen from the start. -/
theorem Stands.of_drop (hk : k ≤ ps.length) (h : Stands (ps.drop k) it pos m) :
    Stands ps (k + it) pos ((ps.take k).flatten.length + m) where
  le := by
    have := h.le
    rw [List.length_drop] at this
    omega
  off := by
    rw [List.take_add, List.flatten_append, List.length_append, Nat.add_assoc, h.off]
  aligned := h.aligned
  page q hq := h.page q (by rw [List.getElem?_drop]; exact hq)
  atEnd he := h.atEnd (by rw [List.length_drop]; omega)

theorem stands_end : Stands ps ps.length 0 ps.flatten.length where
  le := Nat.le_refl _
  off := by rw [List.take_length, Nat.add_zero]
  aligned := rfl
  page _ _ := Nat.zero_le _
  atEnd _ := rfl

end Stands

/-! ## The loop -/

theorem round4_add_le {m n k : Nat} (hm : m % 4 = 0) (h : m + n ≤ k) : m + round4 n ≤ round4 k := by
  unfold round4; omega

/-- A round that ends on this page. -/
theorem scan_here {p : Page8} {ps : List Page8} {it pos n : Nat} (hn : n ≤ p.length - pos) :
    scan (p :: ps) it pos n =
      (it, pos + round4 n, if n = 0 then [] else [(p.drop pos).take n]) := by
  rw [scan]
  by_cases h0 : n = 0
  · subst h0; rfl
  · rw [if_neg h0, if_neg h0]
    exact if_pos hn

/-- A round that goes on to the next page. -/
theorem scan_next {p : Page8} {ps : List Page8} {it pos n : Nat} (hn : p.length - pos < n) :
    (scan (p :: ps) it pos n).1 = (scan ps (it + 1) 0 (n - (p.length - pos))).1 ∧
      (scan (p :: ps) it pos n).2.1 = (scan ps (it + 1) 0 (n - (p.length - pos))).2.1 ∧
      (scan (p :: ps) it pos n).2.2.flatten =
        p.drop pos ++ (scan ps (it + 1) 0 (n - (p.length - pos))).2.2.flatten := by
  rw [scan, if_neg (show n ≠ 0 by omega)]
  dsimp only
  rw [if_neg (show ¬ p.length - pos ≥ n by omega)]
  by_cases h0 : p.length - pos > 0
  · rw [if_pos h0]
    exact ⟨rfl, rfl, rfl⟩
  · rw [if_neg h0, show p.length - pos = 0 by omega, Nat.sub_zero,
      List.drop_eq_nil_of_le (by omega), List.nil_append]
    exact ⟨rfl, rfl, rfl⟩

/-- **The loop**, on the pages from `it_` on. What it meets are the bytes from `pos_` on, as many
    as asked for. When there are enough, it stops behind the last of them and its padding; else
    it stops behind the last page. -/
theorem scan_spec : ∀ {ps : List Page8} {it pos n : Nat}, Paged Pbuf.bufSize ps →
    pos % 4 = 0 → (∀ p ∈ ps.head?, pos ≤ p.length) → (ps = [] → pos = 0) →
    (scan ps it pos n).2.2.flatten = (ps.flatten.drop pos).take n ∧
    ∃ k, (scan ps it pos n).1 = it + k ∧
      if n ≤ ps.flatten.length - pos then
        Stands ps k (scan ps it pos n).2.1 (pos + round4 n) ∧ (0 < n → k < ps.length)
      else Stands ps k (scan ps it pos n).2.1 ps.flatten.length ∧ k = ps.length
  | [], it, pos, n, _, _, _, hnil => by
    have h0 := hnil rfl
    subst h0
    refine ⟨by simp [scan], 0, rfl, ?_⟩
    split
    · rename_i hn
      rw [List.flatten_nil, List.length_nil] at hn
      have hz : n = 0 := by omega
      subst hz
      exact ⟨stands_end, fun h => absurd h (Nat.lt_irrefl 0)⟩
    · exact ⟨stands_end, rfl⟩
  | p :: ps, it, pos, n, hpaged, hmod, hhead, _ => by
    have hpos : pos ≤ p.length := hhead p rfl
    have hdrop : (p :: ps).flatten.drop pos = p.drop pos ++ ps.flatten := by
      rw [List.flatten_cons, List.drop_append_of_le_length hpos]
    have htotal : (p :: ps).flatten.length = p.length + ps.flatten.length := by
      rw [List.flatten_cons, List.length_append]
    rw [hdrop, htotal]
    by_cases hn : n ≤ p.length - pos
    · -- the loop ends on this page
      rw [scan_here hn]
      refine ⟨?_, 0, rfl, ?_⟩
      · have hle : n ≤ (p.drop pos).length := by rw [List.length_drop]; exact hn
        rw [List.take_append_of_le_length hle]
        split
        · rename_i h0; rw [h0]; rfl
        · simp
      · rw [if_pos (by omega)]
        refine ⟨⟨Nat.zero_le _, by simp, ?_, fun q hq => ?_, fun he => by simp at he⟩,
          fun _ => by simp⟩
        · have := round4_mod n
          dsimp only
          omega
        · have hq : p = q := by simpa using hq
          subst hq
          exact round4_add_le hmod (by omega)
    · obtain ⟨h₁, h₂, h₃⟩ := @scan_next p ps it pos n (Nat.lt_of_not_le hn)
      obtain ⟨hbytes, k, hk, hstands⟩ := @scan_spec ps (it + 1) 0 (n - (p.length - pos))
        (paged_cons hpaged) (Nat.zero_mod 4) (fun _ _ => Nat.zero_le _) (fun _ => rfl)
      rw [h₁, h₂, h₃]
      refine ⟨?_, k + 1, by rw [hk]; omega, ?_⟩
      · have htake : (p.drop pos).take n = p.drop pos :=
          List.take_of_length_le (by rw [List.length_drop]; omega)
        rw [hbytes, List.drop_zero, List.take_append, List.length_drop, htake]
      · rw [Nat.sub_zero] at hstands
        by_cases hle : n - (p.length - pos) ≤ ps.flatten.length
        · rw [if_pos hle] at hstands
          obtain ⟨hs, hlt⟩ := hstands
          have hlt := hlt (by omega)
          -- this page is not the last, so it is full
          have hfull : p.length = Pbuf.bufSize := hpaged.full fun he => by
            rw [he] at hlt; exact absurd hlt (Nat.not_lt_zero k)
          have hts : (p.length - pos) % 4 = 0 := by
            have := mod_bufSize
            omega
          have hround : round4 n = (p.length - pos) + round4 (n - (p.length - pos)) := by
            rw [← round4_add hts]
            congr 1
            omega
          rw [if_pos (by omega), hround,
            show pos + (p.length - pos + round4 (n - (p.length - pos))) =
              p.length + (0 + round4 (n - (p.length - pos))) by omega]
          exact ⟨hs.cons, fun _ => Nat.succ_lt_succ hlt⟩
        · rw [if_neg hle] at hstands
          rw [if_neg (by omega)]
          exact ⟨hstands.1.cons, by rw [hstands.2, List.length_cons]⟩

/-! ## The offset -/

/-- The offset of the reader. -/
def off (x : Xdrbuf) : Nat := (x.b.pages.take x.it).flatten.length + x.pos

/-- The bytes still to be read. -/
def rest (x : Xdrbuf) : List UInt8 := x.b.bytes.drop x.off

/-- What holds of every reader. -/
def Ok (x : Xdrbuf) : Prop := Stands x.b.pages x.it x.pos x.off

theorem ok_new (b : Pbuf) : (new b).Ok := ⟨Nat.zero_le _, rfl, rfl, fun _ _ => Nat.zero_le _, fun _ => rfl⟩

theorem ok_of_stands {m : Nat} (h : Stands x.b.pages x.it x.pos m) : x.Ok ∧ x.off = m := by
  have hoff : x.off = m := h.off
  subst hoff
  exact ⟨h, rfl⟩

theorem Ok.position (h : x.Ok) : x.position = x.off := by
  unfold Xdrbuf.position off
  rw [List.length_flatten]
  split
  · rename_i he
    rw [h.atEnd he]
  · rfl

theorem Ok.off_atEnd (h : x.Ok) (he : x.AtEnd) : x.off = x.b.bytes.length := by
  have h0 : x.pos = 0 := h.atEnd he
  have he : x.it = x.b.pages.length := he
  rw [off, h0, he, List.take_length]
  rfl

theorem rest_length (x : Xdrbuf) : x.rest.length = x.b.bytes.length - x.off := List.length_drop

theorem Ok.rest_atEnd (h : x.Ok) (he : x.AtEnd) : x.rest = [] := by
  rw [rest, h.off_atEnd he, List.drop_length]

/-- The step forward, when the iterator is not at the end. -/
theorem settle_spec (h : x.Ok) (he : ¬ x.AtEnd) :
    ∃ y, x.settle = some y ∧ y.b = x.b ∧ y.useExc = x.useExc ∧ y.it ≤ x.b.pages.length ∧
      y.pos % 4 = 0 ∧ y.off = min x.off x.b.bytes.length ∧
      (∀ p ∈ (x.b.pages.drop y.it).head?, y.pos ≤ p.length) ∧
      (x.b.pages.drop y.it = [] → y.pos = 0) := by
  have hlt : x.it < x.b.pages.length := Nat.lt_of_le_of_ne h.le he
  obtain ⟨p, hp⟩ : ∃ p, x.b.pages[x.it]? = some p := ⟨_, List.getElem?_eq_getElem hlt⟩
  have htake : (x.b.pages.take (x.it + 1)).flatten.length =
      (x.b.pages.take x.it).flatten.length + p.length := by
    rw [List.take_add_one, hp, Option.toList_some, List.flatten_append, List.length_append]
    simp
  have htotal : (x.b.pages.take (x.it + 1)).flatten.length +
      (x.b.pages.drop (x.it + 1)).flatten.length = x.b.bytes.length := by
    rw [← List.length_append, ← List.flatten_append, List.take_append_drop]
    rfl
  have hdrop : x.b.pages.drop x.it = p :: x.b.pages.drop (x.it + 1) := by
    rw [List.drop_eq_getElem_cons hlt, ← List.getElem?_eq_some_iff.mp hp |>.2]
  have hpaged := x.b.paged.drop x.it
  rw [hdrop] at hpaged
  rw [settle, hp, Option.map_some]
  by_cases hpos : x.pos ≥ p.length
  · -- nothing is left on this page, and `pos_` is past it only when it is the last
    rw [if_pos hpos]
    refine ⟨_, rfl, rfl, rfl, hlt, rfl, ?_, fun _ _ => Nat.zero_le _, fun _ => rfl⟩
    show (x.b.pages.take (x.it + 1)).flatten.length + 0 = _
    by_cases hlast : x.b.pages.drop (x.it + 1) = []
    · rw [hlast, List.flatten_nil, List.length_nil] at htotal
      unfold off
      omega
    · have hfull := hpaged.full hlast
      have hle := h.page p hp
      have := mod_bufSize
      rw [round4_of_mod (by omega)] at hle
      unfold off
      omega
  · rw [if_neg hpos]
    refine ⟨x, rfl, rfl, rfl, h.le, h.aligned, ?_, fun q hq => ?_, fun hnil => ?_⟩
    · unfold off
      omega
    · rw [hdrop] at hq
      have hq : p = q := by simpa using hq
      subst hq
      omega
    · rw [hdrop] at hnil
      cases hnil

/-- How a reader `x` that is asked for `n` bytes moves to `y`. -/
structure Moves (x y : Xdrbuf) (n : Nat) : Prop where
  b : y.b = x.b
  useExc : y.useExc = x.useExc
  ok : y.Ok
  enough : n ≤ x.rest.length →
    y.off = min x.off x.b.bytes.length + round4 n ∧ (0 < n → ¬ y.AtEnd)
  short : x.rest.length < n → y.AtEnd

/-- The step forward and the loop together. -/
theorem scanFrom_spec (h : x.Ok) (he : ¬ x.AtEnd) :
    ∃ y, x.settle = some y ∧ Moves x (y.scanFrom n).1 n ∧
      (y.scanFrom n).2.flatten = x.rest.take n := by
  obtain ⟨⟨exc, b, it, pos⟩, hy, rfl, rfl, hle, hmod, hoff, hhead, hnil⟩ := settle_spec h he
  dsimp only at hle hmod hhead hnil
  obtain ⟨hbytes, k, hk, hstands⟩ :=
    @scan_spec (x.b.pages.drop it) it pos n (x.b.paged.drop it) hmod hhead hnil
  have hlen : (x.b.pages.take it).flatten.length + (x.b.pages.drop it).flatten.length =
      x.b.bytes.length := by
    rw [← List.length_append, ← List.flatten_append, List.take_append_drop]
    rfl
  have hoff : (x.b.pages.take it).flatten.length + pos = min x.off x.b.bytes.length := hoff
  have hrest : (x.b.pages.drop it).flatten.drop pos = x.rest := by
    have hsplit : x.b.bytes = (x.b.pages.take it).flatten ++ (x.b.pages.drop it).flatten := by
      rw [← List.flatten_append, List.take_append_drop]
      rfl
    have hmin : x.rest = x.b.bytes.drop (min x.off x.b.bytes.length) := by
      rw [rest]
      by_cases hle : x.off ≤ x.b.bytes.length
      · rw [Nat.min_eq_left hle]
      · have hge : x.b.bytes.length ≤ x.off := Nat.le_of_not_le hle
        rw [Nat.min_eq_right hge, List.drop_length, List.drop_eq_nil_of_le hge]
    rw [hmin, ← hoff, hsplit, List.drop_append, List.drop_eq_nil_of_le (Nat.le_add_right _ _),
      List.nil_append, Nat.add_sub_cancel_left]
  have hrl := rest_length x
  rw [hrest] at hbytes
  refine ⟨_, hy, ?_, hbytes⟩
  generalize hr : scan (x.b.pages.drop it) it pos n = r at hk hstands
  have hstep : (scanFrom ⟨x.useExc, x.b, it, pos⟩ n).1 = ⟨x.useExc, x.b, r.1, r.2.1⟩ := by
    simp only [scanFrom, hr]
  rw [hstep]
  have hdl : (x.b.pages.drop it).length = x.b.pages.length - it := List.length_drop
  by_cases hn : n ≤ (x.b.pages.drop it).flatten.length - pos
  · rw [if_pos hn] at hstands
    obtain ⟨hs, hlt⟩ := hstands
    have hs := hs.of_drop hle
    rw [← hk] at hs
    obtain ⟨hok, hoff'⟩ := ok_of_stands (x := ⟨x.useExc, x.b, r.1, r.2.1⟩) hs
    refine ⟨rfl, rfl, hok, fun _ => ⟨by rw [hoff']; omega, fun h0 hend => ?_⟩, fun hlt => ?_⟩
    · have hend : r.1 = x.b.pages.length := hend
      have := hlt h0
      omega
    · omega
  · rw [if_neg hn] at hstands
    obtain ⟨hs, hkl⟩ := hstands
    have hs := hs.of_drop hle
    rw [← hk] at hs
    obtain ⟨hok, -⟩ := ok_of_stands (x := ⟨x.useExc, x.b, r.1, r.2.1⟩) hs
    refine ⟨rfl, rfl, hok, fun hle' => ?_, fun _ => ?_⟩
    · omega
    · show r.1 = x.b.pages.length
      omega

/-- **`get_data`** takes as many of the bytes still to be read as it is asked for. -/
theorem getData_spec (h : x.Ok) (n : Nat) :
    Moves x (x.getData n).1 n ∧ (x.getData n).2 = x.rest.take n := by
  by_cases he : x.AtEnd
  · have hnone : x.settle = none := by
      rw [settle, show x.it = x.b.pages.length from he, List.getElem?_eq_none (Nat.le_refl _)]
      rfl
    have hget : x.getData n = (x, []) := by rw [getData, hnone]
    have hrest := h.rest_atEnd he
    rw [hget, hrest, List.take_nil]
    refine ⟨⟨rfl, rfl, h, fun hn => ?_, fun _ => he⟩, rfl⟩
    rw [hrest, List.length_nil] at hn
    have hz : n = 0 := by omega
    subst hz
    refine ⟨?_, fun h0 => absurd h0 (Nat.lt_irrefl 0)⟩
    rw [h.off_atEnd he, Nat.min_self]
    rfl
  · obtain ⟨y, hy, hmoves, hbytes⟩ := scanFrom_spec (n := n) h he
    rw [getData, hy]
    exact ⟨hmoves, hbytes⟩

theorem Moves.rest {y : Xdrbuf} (hm : Moves x y n) (hn : n ≤ x.rest.length) :
    y.rest = x.rest.drop (round4 n) := by
  rw [Xdrbuf.rest, hm.b, (hm.enough hn).1, Xdrbuf.rest, List.drop_drop]
  by_cases hle : x.off ≤ x.b.bytes.length
  · rw [Nat.min_eq_left hle]
  · rw [List.drop_eq_nil_of_le (by omega), List.drop_eq_nil_of_le (by omega)]

/-! ## Numbers -/

variable {α : Type u} {w : Nat}

theorem short_eq (x : Xdrbuf) (szrd : Nat) (a : α) : ∃ e, x.short n szrd a = x.thr e a := by
  unfold short
  split
  · exact ⟨_, rfl⟩
  · split
    · exact ⟨_, rfl⟩
    · exact ⟨_, rfl⟩

theorem readBytes_enough (h : x.Ok) (hn : w ≤ x.rest.length) :
    ∃ y, Moves x y w ∧ x.readBytes w = (y, .ret (some (x.rest.take w))) := by
  obtain ⟨hm, hbytes⟩ := getData_spec h w
  refine ⟨_, hm, ?_⟩
  rw [readBytes, hbytes, List.length_take, Nat.min_eq_left hn, if_pos rfl]

theorem readBytes_short (h : x.Ok) (hn : x.rest.length < w) :
    ∃ y e, Moves x y w ∧ x.readBytes w = (y, y.thr e none) := by
  obtain ⟨hm, hbytes⟩ := getData_spec h w
  have hlen : (x.getData w).2.length ≠ w := by
    rw [hbytes, List.length_take]
    omega
  obtain ⟨e, he⟩ := short_eq (n := w) (x.getData w).1 (x.getData w).2.length
    (none : Option (List UInt8))
  exact ⟨_, e, hm, by rw [readBytes, if_neg hlen, he]⟩

/-- The readers of a number, of `w` bytes that stand for it by `g`. -/
theorem readNumber_enough (h : x.Ok) (hn : w ≤ x.rest.length) (g : List UInt8 → α) :
    ∃ y, Moves x y w ∧ andThen (x.readBytes w) (fun x bs => (x, .ret (bs.map g))) =
      (y, .ret (some (g (x.rest.take w)))) := by
  obtain ⟨y, hm, he⟩ := readBytes_enough h hn
  exact ⟨y, hm, by rw [he]; rfl⟩

theorem readNumber_short (h : x.Ok) (hn : x.rest.length < w) (g : List UInt8 → α) :
    ∃ y e, Moves x y w ∧ andThen (x.readBytes w) (fun x bs => (x, .ret (bs.map g))) =
      (y, y.thr e none) := by
  obtain ⟨y, e, hm, he⟩ := readBytes_short h hn
  refine ⟨y, e, hm, ?_⟩
  rw [he]
  unfold thr
  split <;> rfl

/-- The length that stands next in the stream. -/
def announced (x : Xdrbuf) : UInt64 := UInt64.ofNat (ofBe (x.rest.take 8))

theorem readUInt64_enough (h : x.Ok) (hn : 8 ≤ x.rest.length) :
    ∃ y, Moves x y 8 ∧ x.readUInt64 = (y, .ret (some x.announced)) :=
  readNumber_enough h hn _

theorem readUInt64_short (h : x.Ok) (hn : x.rest.length < 8) :
    ∃ y e, Moves x y 8 ∧ x.readUInt64 = (y, y.thr e none) :=
  readNumber_short h hn _

end Xdrbuf

end CodeSLoop
