import Mathlib.Data.List.TakeWhile
import Mathlib.Data.List.Infix

/-!
# Compression in a stream

A codec that is called with some input and some room for output, again and again. It takes a part
of the input and gives a part of the output; what it has taken and not given yet it holds back.
This file says what is documented about such calls, over any format: which beginnings of a stream
there are, what they contain, and which streams are complete.

`Inflater.Drains` says of a decompressor that the call which takes the last of its input reports
the end, so that it has held nothing back; `Inflater.Rejects` that one of its calls reports an
error. An error can stay behind what has been taken as output can, so neither is a property of the
input alone.
-/

namespace Zstream

variable {α : Type}

/-- What a call returns. -/
inductive Code
  | ok | streamEnd | streamError | dataError | memError | bufError
deriving DecidableEq

/-- The codes of errors are negative. -/
abbrev Code.Negative (c : Code) : Prop := c ≠ .ok ∧ c ≠ .streamEnd

/-- A call: the stream after it, how much of the input it took, and what it gave. -/
structure Call (σ α : Type) where
  strm : σ
  used : Nat
  out : List α
  code : Code

/-- A format: what is in the beginning of a stream, which streams are complete, and what cannot be
    the beginning of one. A stream says itself where it ends, and what is behind it does not
    matter. -/
structure Format (α : Type) where
  plain : List α → List α
  Complete : List α → Prop
  Invalid : List α → Prop
  complete_nil : ¬ Complete []
  ends : ∀ {z r}, Complete z → Complete (z ++ r) → r = []
  valid : ∀ {z r}, Complete z → ¬ Invalid (z ++ r)
  invalid : ∀ {z r}, Invalid z → Invalid (z ++ r)

namespace Format

variable {F : Format α} {z r : List α}

/-- A stream with something behind it. -/
def Trailed (F : Format α) (z : List α) : Prop := ∃ z₁ r, z = z₁ ++ r ∧ r ≠ [] ∧ F.Complete z₁

theorem Complete.not_trailed (h : F.Complete z) : ¬ F.Trailed z := by
  rintro ⟨z₁, r, rfl, hr, hz⟩
  exact hr (F.ends hz h)

theorem Complete.not_invalid (h : F.Complete z) : ¬ F.Invalid z := by
  have hv := @Format.valid α F z [] h
  rw [List.append_nil] at hv
  exact hv

theorem Trailed.not_invalid (h : F.Trailed z) : ¬ F.Invalid z := by
  obtain ⟨z₁, r, rfl, -, hz⟩ := h
  exact F.valid hz

end Format

/-! ## Decompression -/

structure Inflater (α : Type) where
  σ : Type
  init : σ
  inflate : σ → List α → Nat → Call σ α

namespace Inflater

/-- The stream has taken `a` and given `o`. -/
inductive Fed (c : Inflater α) : c.σ → List α → List α → Prop
  | init : c.Fed c.init [] []
  | call {s : c.σ} {a o : List α} (x : List α) (n : Nat) : c.Fed s a o →
      (c.inflate s x n).code = .ok →
      c.Fed (c.inflate s x n).strm (a ++ x.take (c.inflate s x n).used) (o ++ (c.inflate s x n).out)

/-- The end of the stream has been reported. -/
inductive Ended (c : Inflater α) : c.σ → Prop
  | last {s : c.σ} {a o : List α} (x : List α) (n : Nat) : c.Fed s a o →
      (c.inflate s x n).code = .streamEnd → c.Ended (c.inflate s x n).strm
  | again {s : c.σ} (x : List α) (n : Nat) : c.Ended s → c.Ended (c.inflate s x n).strm

/-- What is documented about the calls that have input and room: they take and give no more than
    there is, and make progress; what they give is in what they took; the end is reported when the
    stream is complete and all of it given, and again after that, when nothing is taken; and an
    error is reported only for what is not in the format. -/
structure Lawful (c : Inflater α) (F : Format α) : Prop where
  used_le : ∀ {s a o} x n, c.Fed s a o → (c.inflate s x n).used ≤ x.length
  out_le : ∀ {s a o} x n, c.Fed s a o → (c.inflate s x n).out.length ≤ n
  progress : ∀ {s a o x n}, c.Fed s a o → x ≠ [] → 0 < n → (c.inflate s x n).code = .ok →
    0 < (c.inflate s x n).used ∨ (c.inflate s x n).out ≠ []
  output : ∀ {s a o x n}, c.Fed s a o → x ≠ [] → 0 < n → ¬ (c.inflate s x n).code.Negative →
    o ++ (c.inflate s x n).out <+: F.plain (a ++ x.take (c.inflate s x n).used)
  streamEnd : ∀ {s a o x n}, c.Fed s a o → x ≠ [] → 0 < n →
    (c.inflate s x n).code = .streamEnd → F.Complete (a ++ x.take (c.inflate s x n).used) ∧
      o ++ (c.inflate s x n).out = F.plain (a ++ x.take (c.inflate s x n).used)
  reported : ∀ {s a o x n}, c.Fed s a o → x ≠ [] → 0 < n → ¬ (c.inflate s x n).code.Negative →
    F.Complete (a ++ x.take (c.inflate s x n).used) →
    o ++ (c.inflate s x n).out = F.plain (a ++ x.take (c.inflate s x n).used) →
    (c.inflate s x n).code = .streamEnd
  again : ∀ {s x n}, c.Ended s → x ≠ [] → 0 < n → (c.inflate s x n).code = .streamEnd ∧
    (c.inflate s x n).used = 0 ∧ (c.inflate s x n).out = []
  invalid : ∀ {s a o x n}, c.Fed s a o → x ≠ [] → 0 < n → (c.inflate s x n).code.Negative →
    F.Invalid (a ++ x)

/-- What is there to take when `x` is left of a page: that, or the next page. -/
inductive Turn : List α → List (List α) → List α → List (List α) → Prop
  | rest {x : List α} {pages : List (List α)} : x ≠ [] → Turn x pages x pages
  | page {y : List α} {pages : List (List α)} : Turn [] (y :: pages) y pages

/-- With `n` bytes of room for each call, the rest of a page and the pages behind it are taken, and
    the call that takes the last of it reports the end. -/
inductive Drains (c : Inflater α) (n : Nat) : c.σ → List α → List (List α) → Prop
  | last {s : c.σ} {x : List α} : (c.inflate s x n).code = .streamEnd →
      x.drop (c.inflate s x n).used = [] → c.Drains n s x []
  | more {s : c.σ} {x y : List α} {pages qs : List (List α)} : (c.inflate s x n).code = .ok →
      Turn (x.drop (c.inflate s x n).used) pages y qs →
      c.Drains n (c.inflate s x n).strm y qs → c.Drains n s x pages

/-- So are all the pages. -/
def DrainsAll (c : Inflater α) (n : Nat) : List (List α) → Prop
  | [] => False
  | x :: pages => c.Drains n c.init x pages

/-- With `n` bytes of room for each call, one of them reports an error before all is taken. -/
inductive Rejects (c : Inflater α) (n : Nat) : c.σ → List α → List (List α) → Prop
  | now {s : c.σ} {x : List α} {pages : List (List α)} : (c.inflate s x n).code.Negative →
      c.Rejects n s x pages
  | later {s : c.σ} {x y : List α} {pages qs : List (List α)} : (c.inflate s x n).code = .ok →
      Turn (x.drop (c.inflate s x n).used) pages y qs →
      c.Rejects n (c.inflate s x n).strm y qs → c.Rejects n s x pages

/-- So it is with the pages. -/
def RejectsAll (c : Inflater α) (n : Nat) : List (List α) → Prop
  | [] => False
  | x :: pages => c.Rejects n c.init x pages

variable {c : Inflater α} {F : Format α} {s : c.σ} {x y y' a o : List α} {n : Nat}
  {pages qs qs' : List (List α)}

theorem Turn.flatten (h : Turn x pages y qs) : y ++ qs.flatten = x ++ pages.flatten := by
  cases h with
  | rest _ => rfl
  | page => rw [List.flatten_cons, List.nil_append]

/-- What is taken and what is left. -/
theorem rest_eq {k : Nat} (ht : Turn (x.drop k) pages y qs) :
    a ++ x.take k ++ (y ++ qs.flatten) = a ++ (x ++ pages.flatten) := by
  rw [ht.flatten, List.append_assoc, ← List.append_assoc (x.take k), List.take_append_drop]

theorem Turn.unique (h : Turn x pages y qs) (h' : Turn x pages y' qs') : y' = y ∧ qs' = qs := by
  cases h with
  | rest hx =>
    cases h' with
    | rest _ => exact ⟨rfl, rfl⟩
    | page => exact absurd rfl hx
  | page =>
    cases h' with
    | rest hx => exact absurd rfl hx
    | page => exact ⟨rfl, rfl⟩

theorem not_drains_nil (hc : (c.inflate s x n).code = .ok)
    (hu : x.drop (c.inflate s x n).used = []) : ¬ c.Drains n s x [] := by
  intro h
  cases h with
  | last he _ =>
    rw [hc] at he
    cases he
  | more _ ht _ =>
    rw [hu] at ht
    cases ht with
    | rest hx => exact hx rfl

theorem drains_more (hc : (c.inflate s x n).code = .ok)
    (ht : Turn (x.drop (c.inflate s x n).used) pages y qs) :
    c.Drains n s x pages ↔ c.Drains n (c.inflate s x n).strm y qs := by
  constructor
  · intro h
    cases h with
    | last he _ =>
      rw [hc] at he
      cases he
    | more _ ht' h =>
      obtain ⟨rfl, rfl⟩ := ht'.unique ht
      exact h
  · exact fun h => .more hc ht h

theorem Turn.ne_nil (h : Turn x pages y qs) (hpages : ∀ q ∈ pages, q ≠ []) :
    y ≠ [] ∧ ∀ q ∈ qs, q ≠ [] := by
  cases h with
  | rest hx => exact ⟨hx, hpages⟩
  | page =>
    exact ⟨hpages y (List.mem_cons_self ..), fun q hq => hpages q (List.mem_cons_of_mem y hq)⟩

theorem not_rejects_nil (hc : (c.inflate s x n).code = .ok)
    (hu : x.drop (c.inflate s x n).used = []) : ¬ c.Rejects n s x [] := by
  intro h
  cases h with
  | now hneg => exact hneg.1 hc
  | later _ ht _ =>
    rw [hu] at ht
    cases ht with
    | rest hx => exact hx rfl

theorem not_rejects_end (hc : (c.inflate s x n).code = .streamEnd) : ¬ c.Rejects n s x pages := by
  intro h
  cases h with
  | now hneg => exact hneg.2 hc
  | later hok _ _ =>
    rw [hc] at hok
    cases hok

theorem rejects_later (hc : (c.inflate s x n).code = .ok)
    (ht : Turn (x.drop (c.inflate s x n).used) pages y qs) :
    c.Rejects n s x pages ↔ c.Rejects n (c.inflate s x n).strm y qs := by
  constructor
  · intro h
    cases h with
    | now hneg => exact absurd hc hneg.1
    | later _ ht' h =>
      obtain ⟨rfl, rfl⟩ := ht'.unique ht
      exact h
  · exact fun h => .later hc ht h

/-- What is rejected is not in the format. -/
theorem Lawful.invalid_of_rejects (h : c.Lawful F) (hr : c.Rejects n s x pages)
    (hfed : c.Fed s a o) (hx : x ≠ []) (hn : 0 < n) (hpages : ∀ q ∈ pages, q ≠ []) :
    F.Invalid (a ++ (x ++ pages.flatten)) := by
  induction hr generalizing a o with
  | now hneg =>
    rw [← List.append_assoc]
    exact F.invalid (h.invalid hfed hx hn hneg)
  | later hok ht _ ih =>
    obtain ⟨hy, hqs⟩ := ht.ne_nil hpages
    have hi := ih (.call _ n hfed hok) hy hqs
    rw [rest_eq ht] at hi
    exact hi

/-- **A call**: it reports an error for what is no stream, or the end of the stream, or goes on. -/
theorem Lawful.call (h : c.Lawful F) (hfed : c.Fed s a o) (hx : x ≠ []) (hn : 0 < n) :
    ((c.inflate s x n).code.Negative ∧ F.Invalid (a ++ x)) ∨
    ((c.inflate s x n).code = .streamEnd ∧ F.Complete (a ++ x.take (c.inflate s x n).used) ∧
      o ++ (c.inflate s x n).out = F.plain (a ++ x.take (c.inflate s x n).used) ∧
      c.Ended (c.inflate s x n).strm) ∨
    ((c.inflate s x n).code = .ok ∧
      c.Fed (c.inflate s x n).strm (a ++ x.take (c.inflate s x n).used)
        (o ++ (c.inflate s x n).out) ∧
      o ++ (c.inflate s x n).out <+: F.plain (a ++ x.take (c.inflate s x n).used) ∧
      ¬ (F.Complete (a ++ x.take (c.inflate s x n).used) ∧
        o ++ (c.inflate s x n).out = F.plain (a ++ x.take (c.inflate s x n).used))) := by
  by_cases hneg : (c.inflate s x n).code.Negative
  · exact .inl ⟨hneg, h.invalid hfed hx hn hneg⟩
  · right
    by_cases hend : (c.inflate s x n).code = .streamEnd
    · obtain ⟨hz, ho⟩ := h.streamEnd hfed hx hn hend
      exact .inl ⟨hend, hz, ho, .last x n hfed hend⟩
    · have hok : (c.inflate s x n).code = .ok := by
        by_contra hne
        exact hneg ⟨hne, hend⟩
      refine .inr ⟨hok, .call x n hfed hok, h.output hfed hx hn hneg, ?_⟩
      exact fun ⟨hz, ho⟩ => hend (h.reported hfed hx hn hneg hz ho)

end Inflater

/-! ## Compression -/

inductive Flush
  | noFlush | finish
deriving DecidableEq

structure Deflater (α : Type) where
  σ : Type
  init : σ
  deflate : σ → Flush → List α → Nat → Call σ α

namespace Deflater

/-- The stream has taken `a` and given `w`; is it being finished? -/
inductive Fed (c : Deflater α) : Bool → c.σ → List α → List α → Prop
  | init : c.Fed false c.init [] []
  | more {s : c.σ} {a w : List α} (x : List α) (n : Nat) : c.Fed false s a w →
      (c.deflate s .noFlush x n).code = .ok →
      c.Fed false (c.deflate s .noFlush x n).strm (a ++ x.take (c.deflate s .noFlush x n).used)
        (w ++ (c.deflate s .noFlush x n).out)
  | finish {f : Bool} {s : c.σ} {a w : List α} (n : Nat) : c.Fed f s a w →
      (c.deflate s .finish [] n).code = .ok →
      c.Fed true (c.deflate s .finish [] n).strm a (w ++ (c.deflate s .finish [] n).out)

/-- What is documented about the calls: they take and give no more than there is, and make
    progress; when finishing, they fill the room as long as there is more to give, and what has
    been given is a stream for what was taken. The output is bounded by the input. -/
structure Lawful (c : Deflater α) (F : Format α) (bound : Nat → Nat) : Prop where
  more : ∀ {s a w} x n, c.Fed false s a w → x ≠ [] → 0 < n →
    (c.deflate s .noFlush x n).code = .ok ∧ (c.deflate s .noFlush x n).used ≤ x.length ∧
      (c.deflate s .noFlush x n).out.length ≤ n ∧
      (0 < (c.deflate s .noFlush x n).used ∨ (c.deflate s .noFlush x n).out ≠ [])
  finish : ∀ {f s a w} n, c.Fed f s a w → 0 < n →
    ((c.deflate s .finish [] n).code = .ok ∧ (c.deflate s .finish [] n).out.length = n) ∨
    ((c.deflate s .finish [] n).code = .streamEnd ∧ (c.deflate s .finish [] n).out.length ≤ n ∧
      F.Complete (w ++ (c.deflate s .finish [] n).out) ∧
      F.plain (w ++ (c.deflate s .finish [] n).out) = a)
  bounded : ∀ {f s a w}, c.Fed f s a w → w.length ≤ bound a.length

end Deflater

end Zstream
