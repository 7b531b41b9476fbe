import CodeSLoop.Lib.Pages

/-!
# `pbuf` — bytes in pages (`common/pbuf.hh`, `common/pbuf.cc`)

A `pbuf` holds bytes in pages of `buf_size` bytes. `append` fills the last page before it
takes a new one, so all pages but the last are full and none is empty; a value of `Pbuf`
carries that with it, and the count `size_`.
-/

namespace CodeSLoop

open Pages

/-- The used part of a page. -/
abbrev Page8 := List UInt8

/-- `pbuf::buf_size`. -/
def Pbuf.bufSize : Nat := 2048

/-- The members of `pbuf`. -/
structure Pbuf where
  pages : List Page8
  size : Nat
  paged : Paged Pbuf.bufSize pages
  size_eq : size = pages.flatten.length
deriving DecidableEq

namespace Pbuf

/-- `pbuf()`. -/
def init : Pbuf := ⟨[], 0, trivial, rfl⟩

/-- `buf::free_space()`. -/
def freeSpace (p : Page8) : Nat := bufSize - p.length

/-- `allocate(sz)` with something to store: the page to write to, and the pages before it. -/
def allocate (pages : List Page8) : List Page8 × Page8 :=
  match pages.getLast? with
  | none => ([], [])
  | some p => if 0 < freeSpace p then (pages.dropLast, p) else (pages, [])

/-- The loop of `append`, cut off after `fuel` pages: the pages, and what is left of the data. -/
def appendLoop : Nat → List Page8 → List UInt8 → List Page8 × List UInt8
  | 0, pages, dta => (pages, dta)
  | fuel + 1, pages, dta =>
    if dta = [] then (pages, dta)
    else
      let p := allocate pages
      let fsp := freeSpace p.2
      let fsp := if fsp > dta.length then dta.length else fsp
      appendLoop fuel (p.1 ++ [p.2 ++ dta.take fsp]) (dta.drop fsp)

variable {pages : List Page8} {dta : List UInt8}

/-- One round of the loop. -/
theorem allocate_spec (h : Paged bufSize pages) (hd : dta ≠ []) {n : Nat}
    (hn : n = min (freeSpace (allocate pages).2) dta.length) :
    0 < n ∧ Paged bufSize ((allocate pages).1 ++ [(allocate pages).2 ++ dta.take n]) ∧
      ((allocate pages).1 ++ [(allocate pages).2 ++ dta.take n]).flatten =
        pages.flatten ++ dta.take n := by
  have hlen := List.length_pos_iff.mpr hd
  have hcap : bufSize = 2048 := rfl
  rcases List.eq_nil_or_concat' pages with rfl | ⟨ps, p, rfl⟩
  · have hal : allocate [] = ([], []) := rfl
    rw [hal] at hn ⊢
    rw [freeSpace, List.length_nil] at hn
    refine ⟨by omega, paged_concat.mpr ⟨by simp, ?_, ?_⟩, by simp⟩
    · rw [List.nil_append]
      exact List.length_pos_iff.mp (by rw [List.length_take]; omega)
    · rw [List.nil_append, List.length_take]
      omega
  · rw [paged_concat] at h
    obtain ⟨hfull, hne, hle⟩ := h
    by_cases hfree : 0 < freeSpace p
    · have hal : allocate (ps ++ [p]) = (ps, p) := by
        simp [allocate, hfree]
      rw [hal] at hn ⊢
      dsimp only at hn ⊢
      refine ⟨by omega, paged_concat.mpr ⟨hfull, ?_, ?_⟩, by simp⟩
      · exact fun he => hne (List.append_eq_nil_iff.mp he).1
      · unfold freeSpace at hn
        rw [List.length_append, List.length_take]
        omega
    · have hal : allocate (ps ++ [p]) = (ps ++ [p], []) := by
        simp [allocate, hfree]
      unfold freeSpace at hfree
      rw [hal] at hn ⊢
      dsimp only at hn ⊢
      rw [freeSpace, List.length_nil] at hn
      refine ⟨by omega, paged_concat.mpr ⟨fun q hq => ?_, ?_, ?_⟩, by simp⟩
      · rw [List.mem_append, List.mem_singleton] at hq
        rcases hq with hq | rfl
        · exact hfull q hq
        · omega
      · rw [List.nil_append]
        exact List.length_pos_iff.mp (by rw [List.length_take]; omega)
      · rw [List.nil_append, List.length_take]
        omega

/-- The loop stores everything, in no more rounds than there are bytes. -/
theorem appendLoop_spec : ∀ {fuel : Nat} {pages : List Page8} {dta : List UInt8},
    Paged bufSize pages → dta.length ≤ fuel →
      Paged bufSize (appendLoop fuel pages dta).1 ∧
        (appendLoop fuel pages dta).1.flatten = pages.flatten ++ dta ∧
        (appendLoop fuel pages dta).2 = [] := by
  intro fuel
  induction fuel with
  | zero =>
    intro pages dta h hle
    have hnil : dta = [] := List.eq_nil_of_length_eq_zero (by omega)
    rw [hnil, appendLoop, List.append_nil]
    exact ⟨h, rfl, rfl⟩
  | succ n ih =>
    intro pages dta h hle
    rw [appendLoop]
    by_cases hd : dta = []
    · rw [if_pos hd, hd, List.append_nil]
      exact ⟨h, rfl, rfl⟩
    · rw [if_neg hd]
      dsimp only
      generalize hfsp : (if freeSpace (allocate pages).2 > dta.length then dta.length
        else freeSpace (allocate pages).2) = fsp
      have hmin : fsp = min (freeSpace (allocate pages).2) dta.length := by
        rw [← hfsp]
        split <;> omega
      obtain ⟨hpos, hpaged, hflat⟩ := allocate_spec h hd hmin
      obtain ⟨h₁, h₂, h₃⟩ := @ih _ (dta.drop fsp) hpaged (by rw [List.length_drop]; omega)
      refine ⟨h₁, ?_, h₃⟩
      rw [h₂, hflat, List.append_assoc, List.take_append_drop]

/-- `append(dta,sz)`, where `dta` points to `sz` bytes. -/
def append (b : Pbuf) (dta : List UInt8) : Pbuf × Bool :=
  let r := appendLoop dta.length b.pages dta
  (⟨r.1, b.size + (dta.length - r.2.length), (appendLoop_spec b.paged (Nat.le_refl _)).1, by
    obtain ⟨-, h₂, h₃⟩ := appendLoop_spec b.paged (Nat.le_refl dta.length)
    rw [h₂, h₃, List.length_append, ← b.size_eq, List.length_nil, Nat.sub_zero]⟩, r.2.isEmpty)

/-- The bytes stored. -/
def bytes (b : Pbuf) : List UInt8 := b.pages.flatten

@[simp] theorem bytes_init : init.bytes = [] := rfl

theorem paged_of_mem (b : Pbuf) {p : Page8} (hp : p ∈ b.pages) : ∃ ps, Paged bufSize (p :: ps) := by
  obtain ⟨l₁, l₂, he⟩ := List.append_of_mem hp
  have h := b.paged.drop l₁.length
  rw [he, List.drop_left] at h
  exact ⟨l₂, h⟩

theorem pages_ne_nil (b : Pbuf) : ∀ p ∈ b.pages, p ≠ [] := by
  intro p hp
  obtain ⟨ps, h⟩ := b.paged_of_mem hp
  exact h.ne_nil (by decide)

theorem length_page_le (b : Pbuf) : ∀ p ∈ b.pages, p.length ≤ bufSize := by
  intro p hp
  obtain ⟨ps, h⟩ := b.paged_of_mem hp
  exact h.le_cap

theorem size_eq_bytes (b : Pbuf) : b.size = b.bytes.length := b.size_eq

/-- **`append`** stores the data behind what is there, and never fails. -/
theorem append_spec (b : Pbuf) (dta : List UInt8) :
    (b.append dta).1.bytes = b.bytes ++ dta ∧ (b.append dta).2 = true := by
  obtain ⟨-, h₂, h₃⟩ := appendLoop_spec b.paged (Nat.le_refl dta.length)
  exact ⟨h₂, List.isEmpty_iff.mpr h₃⟩

@[simp] theorem bytes_append (b : Pbuf) (dta : List UInt8) :
    (b.append dta).1.bytes = b.bytes ++ dta := (b.append_spec dta).1

@[simp] theorem append_snd (b : Pbuf) (dta : List UInt8) : (b.append dta).2 = true :=
  (b.append_spec dta).2

/-- A `pbuf` is its bytes. -/
theorem ext_bytes {b c : Pbuf} (h : b.bytes = c.bytes) : b = c := by
  have hp : b.pages = c.pages := b.paged.eq_of_flatten (by decide) c.paged h
  have hs : b.size = c.size := by rw [b.size_eq_bytes, c.size_eq_bytes, h]
  cases b
  cases c
  cases hp
  cases hs
  rfl

end Pbuf

end CodeSLoop
