import CodeSLoop.Common.Zfile

/-!
# The loops of `ensure_file` and `ensure_zfile`

`ensure_zfile` is right (`ensureZfile_spec`): it drains the compressor page by page until the end of
the stream is reported. `ensure_file` calls `inflate` as long as there is input, and looks at
nothing else. So what is held back when the last byte has been taken is lost, a stream that is cut
off is taken for a complete one, and after the end of a stream it goes on for ever when there is
more.
-/

namespace CodeSLoop

open Zstream

namespace Zfile

variable {F : Format UInt8}

/-! ## Decompression -/

section Inflate

variable {c : Inflater UInt8} {s : c.σ} {x a o : List UInt8} {data data' : Pbuf} {fuel : Nat}
  {again : Bool} {pages : List Page8}

/-- With nothing in `tmp_buf`, all of the output is appended. -/
theorem put_eq (s : c.σ) (x : List UInt8) (data : Pbuf) (r : Call c.σ UInt8) :
    (⟨s, x, [], data⟩ : Inflating c).put r =
      ⟨r.strm, x.drop r.used, [], (data.append r.out).1⟩ := by
  unfold Inflating.put
  rw [List.nil_append]
  dsimp only
  split
  · rfl
  · rename_i hlen
    have hnil : r.out = [] := List.eq_nil_of_length_eq_zero (by omega)
    have hdata : data = (data.append r.out).1 :=
      Pbuf.ext_bytes (by rw [Pbuf.bytes_append, hnil, List.append_nil])
    rw [hnil] at hdata ⊢
    rw [← hdata]

theorem inflateLoop_call (hx : x ≠ []) :
    inflateLoop (fuel + 1) again ⟨s, x, [], data⟩ pages =
      if (c.inflate s x Pbuf.bufSize).code.Negative then some none
      else inflateLoop fuel
        (0 < (c.inflate s x Pbuf.bufSize).out.length ∧ (c.inflate s x Pbuf.bufSize).code = .ok ∧
          x.drop (c.inflate s x Pbuf.bufSize).used ≠ [])
        ⟨(c.inflate s x Pbuf.bufSize).strm, x.drop (c.inflate s x Pbuf.bufSize).used, [],
          (data.append (c.inflate s x Pbuf.bufSize).out).1⟩ pages := by
  rw [inflateLoop.eq_def]
  dsimp only
  rw [if_pos (.inr ⟨hx, by simp [Pbuf.bufSize]⟩)]
  simp only [List.length_nil, Nat.sub_zero, List.nil_append, put_eq]

/-- Between the calls: the loop ends, or there is more to take. -/
theorem inflateLoop_turn {r : Option Pbuf} (hpages : ∀ q ∈ pages, q ≠ [])
    (hagain : again = true → x ≠ [])
    (hr : inflateLoop fuel again ⟨s, x, [], data⟩ pages = some r) :
    (x = [] ∧ pages = [] ∧ r = some data) ∨ ∃ y qs again' fuel', Inflater.Turn x pages y qs ∧
      y ≠ [] ∧ (∀ q ∈ qs, q ≠ []) ∧ fuel' ≤ fuel ∧
      inflateLoop fuel' again' ⟨s, y, [], data⟩ qs = some r := by
  by_cases hx : x = []
  · subst hx
    have hfalse : again = false := by
      cases again with
      | false => rfl
      | true => exact absurd rfl (hagain rfl)
    subst hfalse
    cases fuel with
    | zero => cases hr
    | succ fuel =>
      cases pages with
      | nil =>
        rw [inflateLoop, if_neg (by simp)] at hr
        cases hr
        exact .inl ⟨rfl, rfl, rfl⟩
      | cons q qs =>
        rw [inflateLoop, if_neg (by simp)] at hr
        exact .inr ⟨q, qs, false, fuel, .page, hpages q (List.mem_cons_self ..),
          fun p hp => hpages p (List.mem_cons_of_mem q hp), Nat.le_succ fuel, hr⟩
  · exact .inr ⟨x, pages, again, fuel, .rest hx, hx, hpages, Nat.le_refl fuel, hr⟩

/-- After the end the loop does not end as long as there is input. -/
theorem inflateLoop_ended (h : c.Lawful F) {r : Option Pbuf} (hpages : ∀ q ∈ pages, q ≠ [])
    (hagain : again = true → x ≠ []) (hs : c.Ended s)
    (hr : inflateLoop fuel again ⟨s, x, [], data⟩ pages = some r) : x = [] ∧ pages = [] := by
  induction fuel using Nat.strong_induction_on generalizing again s x data pages with
  | _ fuel ih =>
    rcases inflateLoop_turn hpages hagain hr with ⟨hx, hp, -⟩ |
      ⟨y, qs, again', fuel', -, hy, hqs, hle, hr'⟩
    · exact ⟨hx, hp⟩
    · cases fuel' with
      | zero => cases hr'
      | succ fuel' =>
        obtain ⟨hcode, hused, hout⟩ := h.again hs hy (show 0 < Pbuf.bufSize by decide)
        rw [inflateLoop_call hy, if_neg (by simp [hcode]), hused, List.drop_zero] at hr'
        exact absurd (ih fuel' (by omega) hqs (fun _ => hy) (hs.again y Pbuf.bufSize) hr').1 hy

/-- What comes of the loop when it ends without an error, for a stream `z`: `b`. -/
structure Inflated (c : Inflater UInt8) (F : Format UInt8) (s : c.σ) (x : List UInt8)
    (pages : List Page8) (z b : List UInt8) : Prop where
  accepted : ¬ c.Rejects Pbuf.bufSize s x pages
  drains : c.Drains Pbuf.bufSize s x pages → F.Complete z ∧ b = F.plain z
  held : ¬ c.Drains Pbuf.bufSize s x pages → ¬ (F.Complete z ∧ b = F.plain z)

/-- **The loop, when it ends without an error.** -/
theorem inflateLoop_some (h : c.Lawful F) (hpages : ∀ q ∈ pages, q ≠ [])
    (hfed : c.Fed s a o) (hdata : data.bytes = o) (hx : x ≠ [])
    (hr : inflateLoop fuel again ⟨s, x, [], data⟩ pages = some (some data')) :
    Inflated c F s x pages (a ++ (x ++ pages.flatten)) data'.bytes := by
  induction fuel using Nat.strong_induction_on generalizing again s x a o data pages with
  | _ fuel ih =>
    cases fuel with
    | zero => cases hr
    | succ fuel =>
      rw [inflateLoop_call hx] at hr
      have hbytes : (data.append (c.inflate s x Pbuf.bufSize).out).1.bytes =
          o ++ (c.inflate s x Pbuf.bufSize).out := by rw [Pbuf.bytes_append, hdata]
      have hall : x.drop (c.inflate s x Pbuf.bufSize).used = [] →
          x.take (c.inflate s x Pbuf.bufSize).used = x :=
        fun hd => List.take_of_length_le (List.drop_eq_nil_iff.mp hd)
      rcases h.call hfed hx (show 0 < Pbuf.bufSize by decide) with ⟨hneg, -⟩ |
        ⟨hend, hz, ho, hended⟩ | ⟨hok, hnext, -, hheld⟩
      · rw [if_pos hneg] at hr
        cases hr
      · rw [if_neg (by simp [hend])] at hr
        obtain ⟨hd, rfl⟩ := inflateLoop_ended h hpages (by simp [hend]) hended hr
        rcases inflateLoop_turn hpages (by simp [hend]) hr with ⟨-, -, he⟩ | ⟨y, qs, -, -, ht, -⟩
        · cases he
          rw [hall hd] at hz ho
          rw [List.flatten_nil, List.append_nil, hbytes]
          have hdr : c.Drains Pbuf.bufSize s x [] := .last hend hd
          exact ⟨Inflater.not_rejects_end hend, fun _ => ⟨hz, ho⟩, fun hn => absurd hdr hn⟩
        · rw [hd] at ht
          cases ht with
          | rest hne => exact absurd rfl hne
      · rw [if_neg (by simp [hok])] at hr
        rcases inflateLoop_turn hpages (by simp) hr with ⟨hd, rfl, he⟩ |
          ⟨y, qs, again', fuel', ht, hy, hqs, hle', hr'⟩
        · cases he
          rw [hall hd] at hheld
          rw [List.flatten_nil, List.append_nil, hbytes]
          exact ⟨Inflater.not_rejects_nil hok hd,
            fun hdr => absurd hdr (Inflater.not_drains_nil hok hd), fun _ => hheld⟩
        · have hq := ih fuel' (by omega) hqs hnext hbytes hy hr'
          rw [Inflater.rest_eq ht] at hq
          have hiff := Inflater.drains_more hok ht
          exact ⟨mt (Inflater.rejects_later hok ht).mp hq.accepted, fun hd => hq.drains (hiff.mp hd),
            fun hd => hq.held (mt hiff.mpr hd)⟩

/-- **The loop, when an error is reported.** -/
theorem inflateLoop_none (h : c.Lawful F) (hpages : ∀ q ∈ pages, q ≠ []) (hfed : c.Fed s a o)
    (hx : x ≠ []) (hr : inflateLoop fuel again ⟨s, x, [], data⟩ pages = some none) :
    c.Rejects Pbuf.bufSize s x pages := by
  induction fuel using Nat.strong_induction_on generalizing again s x a o data pages with
  | _ fuel ih =>
    cases fuel with
    | zero => cases hr
    | succ fuel =>
      rw [inflateLoop_call hx] at hr
      rcases h.call hfed hx (show 0 < Pbuf.bufSize by decide) with ⟨hneg, -⟩ |
        ⟨hend, -, -, hended⟩ | ⟨hok, hnext, -⟩
      · exact .now hneg
      · rw [if_neg (by simp [hend])] at hr
        obtain ⟨hd, rfl⟩ := inflateLoop_ended h hpages (by simp [hend]) hended hr
        rcases inflateLoop_turn hpages (by simp [hend]) hr with ⟨-, -, he⟩ | ⟨y, qs, -, -, ht, -⟩
        · cases he
        · rw [hd] at ht
          cases ht with
          | rest hne => exact absurd rfl hne
      · rw [if_neg (by simp [hok])] at hr
        rcases inflateLoop_turn hpages (by simp) hr with ⟨-, -, he⟩ |
          ⟨y, qs, again', fuel', ht, hy, hqs, hle', hr'⟩
        · cases he
        · exact .later hok ht (ih fuel' (by omega) hqs hnext hy hr')

/-- There is more to take when not all is taken. -/
theorem exists_turn (hpages : ∀ q ∈ pages, q ≠ []) (hmore : x ++ pages.flatten ≠ []) :
    ∃ y qs, Inflater.Turn x pages y qs ∧ y ≠ [] ∧ ∀ q ∈ qs, q ≠ [] := by
  by_cases hx : x = []
  · subst hx
    cases pages with
    | nil => exact absurd rfl hmore
    | cons q qs =>
      exact ⟨q, qs, .page, hpages q (List.mem_cons_self ..),
        fun p hp => hpages p (List.mem_cons_of_mem q hp)⟩
  · exact ⟨x, pages, .rest hx, hx, hpages⟩

/-- The loop ends when it ends from the next turn on. -/
theorem inflateLoop_resume {y : List UInt8} {qs : List Page8} {r : Option Pbuf}
    (ht : Inflater.Turn x pages y qs) (hagain : again = true → x ≠ []) (hy : y ≠ [])
    (hr : inflateLoop fuel true ⟨s, y, [], data⟩ qs = some r) :
    ∃ fuel', inflateLoop fuel' again ⟨s, x, [], data⟩ pages = some r := by
  cases fuel with
  | zero => cases hr
  | succ fuel =>
    rw [inflateLoop_call hy] at hr
    cases ht with
    | rest _ => exact ⟨fuel + 1, by rw [inflateLoop_call hy]; exact hr⟩
    | page =>
      have hfalse : again = false := by
        cases again with
        | false => rfl
        | true => exact absurd rfl (hagain rfl)
      refine ⟨fuel + 1 + 1, ?_⟩
      rw [hfalse, inflateLoop, if_neg (by simp), inflateLoop_call hy]
      exact hr

/-- **The loop ends** unless there is something behind a stream. -/
theorem inflateLoop_ends (h : c.Lawful F) (hpages : ∀ q ∈ pages, q ≠ []) (hfed : c.Fed s a o)
    (hx : x ≠ []) (hno : ¬ F.Trailed (a ++ (x ++ pages.flatten))) :
    ∃ fuel r, inflateLoop fuel true ⟨s, x, [], data⟩ pages = some r := by
  -- bytes are taken, or without that some of the finitely many bytes held back are given
  generalize hn : (x ++ pages.flatten).length = n
  induction n using Nat.strong_induction_on generalizing s x a o data pages with
  | _ n ihn =>
    generalize hk : (F.plain a).length - o.length = k
    induction k using Nat.strong_induction_on generalizing s x o data pages with
    | _ k ihk =>
      have hle := h.used_le x Pbuf.bufSize hfed
      have hcase := h.call hfed hx (show 0 < Pbuf.bufSize by decide)
      have hagain : decide (0 < (c.inflate s x Pbuf.bufSize).out.length ∧
          (c.inflate s x Pbuf.bufSize).code = .ok ∧
          x.drop (c.inflate s x Pbuf.bufSize).used ≠ []) = true →
          x.drop (c.inflate s x Pbuf.bufSize).used ≠ [] := fun hd => (of_decide_eq_true hd).2.2
      by_cases hneg : (c.inflate s x Pbuf.bufSize).code.Negative
      · exact ⟨1, none, by rw [inflateLoop_call hx, if_pos hneg]⟩
      · -- from here on it is enough that the loop ends after the call
        suffices hrest : ∃ fuel r, inflateLoop fuel
            (0 < (c.inflate s x Pbuf.bufSize).out.length ∧ (c.inflate s x Pbuf.bufSize).code = .ok ∧
              x.drop (c.inflate s x Pbuf.bufSize).used ≠ [])
            ⟨(c.inflate s x Pbuf.bufSize).strm, x.drop (c.inflate s x Pbuf.bufSize).used, [],
              (data.append (c.inflate s x Pbuf.bufSize).out).1⟩ pages = some r by
          obtain ⟨fuel, r, hr⟩ := hrest
          exact ⟨fuel + 1, r, by rw [inflateLoop_call hx, if_neg hneg]; exact hr⟩
        by_cases hmore : x.drop (c.inflate s x Pbuf.bufSize).used ++ pages.flatten = []
        · obtain ⟨hd, hp⟩ := List.append_eq_nil_iff.mp hmore
          have hnil : pages = [] := by
            cases pages with
            | nil => rfl
            | cons q qs =>
              rw [List.flatten_cons] at hp
              exact absurd (List.append_eq_nil_iff.mp hp).1 (hpages q (List.mem_cons_self ..))
          refine ⟨1, some (data.append (c.inflate s x Pbuf.bufSize).out).1, ?_⟩
          rw [hnil, hd, inflateLoop, if_neg (by simp)]
        · rcases hcase with ⟨hneg', -⟩ | ⟨-, hz, -⟩ | ⟨hok, hnext, hout, -⟩
          · exact absurd hneg' hneg
          · refine absurd ⟨_, _, ?_, hmore, hz⟩ hno
            rw [List.append_assoc, ← List.append_assoc (x.take _), List.take_append_drop]
          · obtain ⟨y, qs, ht, hy, hqs⟩ := exists_turn hpages hmore
            have hrest := Inflater.rest_eq (a := a) ht
            have hlen : (y ++ qs.flatten).length + (c.inflate s x Pbuf.bufSize).used = n := by
              rw [ht.flatten, ← hn, List.length_append, List.length_append, List.length_drop]
              omega
            obtain ⟨fuel, r, hr⟩ : ∃ fuel r, inflateLoop fuel true
                ⟨(c.inflate s x Pbuf.bufSize).strm, y, [],
                  (data.append (c.inflate s x Pbuf.bufSize).out).1⟩ qs = some r := by
              rcases h.progress hfed hx (show 0 < Pbuf.bufSize by decide) hok with hu | hout'
              · exact ihn _ (by omega) hqs hnext hy (by rw [hrest]; exact hno) rfl
              · by_cases hu : (c.inflate s x Pbuf.bufSize).used = 0
                · rw [hu, List.take_zero, List.append_nil] at hnext hout hrest
                  have hpos := List.length_pos_iff.mpr hout'
                  have hbound := hout.length_le
                  rw [List.length_append] at hbound
                  refine ihk _ ?_ hqs hnext hy (by rw [hrest]; exact hno) (by omega) rfl
                  rw [List.length_append]
                  omega
                · exact ihn _ (by omega) hqs hnext hy (by rw [hrest]; exact hno) rfl
            obtain ⟨fuel', hr'⟩ := inflateLoop_resume ht hagain hy hr
            exact ⟨fuel', r, hr'⟩

theorem inflateLoop_mono {p : Inflating c} {r : Option Pbuf}
    (h : inflateLoop fuel again p pages = some r) (k : Nat) :
    inflateLoop (fuel + k) again p pages = some r := by
  induction fuel generalizing again p pages with
  | zero => cases h
  | succ fuel ih =>
    rw [Nat.add_right_comm]
    rw [inflateLoop.eq_def] at h ⊢
    dsimp only at h ⊢
    split
    · rename_i hcond
      rw [if_pos hcond] at h
      split
      · rename_i herr
        rw [if_pos herr] at h
        exact h
      · rename_i herr
        rw [if_neg herr] at h
        exact ih h
    · rename_i hcond
      rw [if_neg hcond] at h
      cases pages with
      | nil => exact h
      | cons q qs => exact ih h

end Inflate

/-! ## Compression -/

section Deflate

variable {c : Deflater UInt8} {bound : Nat → Nat} {p : Deflating c} {x a w : List UInt8}
  {fuel : Nat} {pages : List Page8}

/-- All that was written is in `p_zdata_` and `tmp_buf`, which has room. -/
structure Deflating.Holds (p : Deflating c) (w : List UInt8) : Prop where
  eq : p.zdata.bytes ++ p.tmp = w
  room : p.tmp.length < Pbuf.bufSize

theorem deflateLoop_call (hx : x ≠ []) (hp : p.tmp.length < Pbuf.bufSize)
    (hc : (c.deflate p.strm .noFlush x (Pbuf.bufSize - p.tmp.length)).code = .ok) :
    deflateLoop (fuel + 1) p x pages =
      let r := c.deflate p.strm .noFlush x (Pbuf.bufSize - p.tmp.length)
      deflateLoop fuel (if (p.tmp ++ r.out).length = Pbuf.bufSize
        then ⟨r.strm, [], (p.zdata.append (p.tmp ++ r.out)).1⟩
        else ⟨r.strm, p.tmp ++ r.out, p.zdata⟩) (x.drop r.used) pages := by
  rw [deflateLoop.eq_def]
  dsimp only
  rw [if_pos ⟨hx, by omega⟩, if_neg (by simp [hc])]

/-- **The loop over the pages** takes all of them. -/
theorem deflateLoop_ends (h : c.Lawful F bound) (hfed : c.Fed false p.strm a w) (hp : p.Holds w) :
    ∃ fuel p' w', deflateLoop fuel p x pages = some (some p') ∧
      c.Fed false p'.strm (a ++ (x ++ pages.flatten)) w' ∧ p'.Holds w' := by
  generalize hn : (x ++ pages.flatten).length + pages.length = n
  induction n using Nat.strong_induction_on generalizing p x a w pages with
  | _ n ihn =>
    generalize hk : bound a.length - w.length = k
    induction k using Nat.strong_induction_on generalizing p x w with
    | _ k ihk =>
      by_cases hx : x = []
      · subst hx
        cases pages with
        | nil =>
          refine ⟨1, p, w, by rw [deflateLoop, if_neg (by simp)], ?_, hp⟩
          rw [List.flatten_nil, List.append_nil, List.append_nil]
          exact hfed
        | cons q qs =>
          simp only [List.nil_append, List.flatten_cons, List.length_cons] at hn
          obtain ⟨fuel, p', w', hr, hrest⟩ := ihn ((q ++ qs.flatten).length + qs.length) (by omega)
            hfed hp rfl
          refine ⟨fuel + 1, p', w', ?_, by rw [List.flatten_cons, List.nil_append]; exact hrest⟩
          rw [deflateLoop, if_neg (by simp)]
          exact hr
      · have hroom := hp.room
        obtain ⟨hok, hle, hout, hprog⟩ := h.more x (Pbuf.bufSize - p.tmp.length) hfed hx (by omega)
        have hnext := hfed.more x (Pbuf.bufSize - p.tmp.length) hok
        have hbound := h.bounded hnext
        have hcall := @deflateLoop_call c p x
        generalize hr : c.deflate p.strm .noFlush x (Pbuf.bufSize - p.tmp.length) = r at *
        -- the page is full and goes to the buffer, or has still room
        obtain ⟨p₁, hp₁, hs₁, hh₁⟩ : ∃ p₁ : Deflating c, (if (p.tmp ++ r.out).length = Pbuf.bufSize
            then ⟨r.strm, [], (p.zdata.append (p.tmp ++ r.out)).1⟩
            else ⟨r.strm, p.tmp ++ r.out, p.zdata⟩) = p₁ ∧ p₁.strm = r.strm ∧
            p₁.Holds (w ++ r.out) := by
          by_cases hfull : (p.tmp ++ r.out).length = Pbuf.bufSize
          · refine ⟨_, if_pos hfull, rfl, ?_, show 0 < Pbuf.bufSize by decide⟩
            rw [List.append_nil, Pbuf.bytes_append, ← List.append_assoc, hp.eq]
          · refine ⟨_, if_neg hfull, rfl, ?_, ?_⟩
            · rw [← List.append_assoc, hp.eq]
            · rw [List.length_append] at hfull ⊢
              omega
        have hrest : a ++ x.take r.used ++ (x.drop r.used ++ pages.flatten) =
            a ++ (x ++ pages.flatten) := by
          rw [List.append_assoc, ← List.append_assoc (x.take _), List.take_append_drop]
        have hlen : (x.drop r.used ++ pages.flatten).length + pages.length + r.used = n := by
          rw [List.length_append, List.length_drop, ← hn, List.length_append]
          omega
        rw [← hs₁] at hnext
        obtain ⟨fuel, p', w', hloop, hspec⟩ : ∃ fuel p' w',
            deflateLoop fuel p₁ (x.drop r.used) pages = some (some p') ∧
            c.Fed false p'.strm (a ++ x.take r.used ++ (x.drop r.used ++ pages.flatten)) w' ∧
            p'.Holds w' := by
          by_cases hu : r.used = 0
          · have hne : r.out ≠ [] := hprog.resolve_left (by omega)
            have hpos := List.length_pos_iff.mpr hne
            rw [hu, List.take_zero, List.append_nil] at hnext hbound ⊢
            rw [hu] at hlen
            rw [List.length_append] at hbound
            refine ihk _ ?_ hnext hh₁ hlen rfl
            rw [List.length_append]
            omega
          · exact ihn _ (by omega) hnext hh₁ rfl
        rw [hrest] at hspec
        refine ⟨fuel + 1, p', w', ?_, hspec⟩
        rw [hcall hx hroom hok]
        dsimp only
        rw [hp₁]
        exact hloop

/-- **The loop that finishes**: what was written then is a stream for what was taken. -/
theorem finishLoop_ends (h : c.Lawful F bound) {f : Bool} (hfed : c.Fed f p.strm a w)
    (hp : p.Holds w) : ∃ fuel zdata, finishLoop fuel p = some (some zdata) ∧
      F.Complete zdata.bytes ∧ F.plain zdata.bytes = a := by
  generalize hk : bound a.length - w.length = k
  induction k using Nat.strong_induction_on generalizing f p w with
  | _ k ih =>
    have hroom := hp.room
    have hcall := h.finish (Pbuf.bufSize - p.tmp.length) hfed (by omega)
    have hnext := fun hok => hfed.finish (Pbuf.bufSize - p.tmp.length) hok
    generalize hr : c.deflate p.strm .finish [] (Pbuf.bufSize - p.tmp.length) = r at *
    have hall : p.zdata.bytes ++ (p.tmp ++ r.out) = w ++ r.out := by
      rw [← List.append_assoc, hp.eq]
    rcases hcall with ⟨hok, hlen⟩ | ⟨hend, hlen, hz, ha⟩
    · -- the page is full
      have hbound := h.bounded (hnext hok)
      have hpos : 0 < (p.tmp ++ r.out).length := by
        rw [List.length_append]
        omega
      have hh : (⟨r.strm, [], (p.zdata.append (p.tmp ++ r.out)).1⟩ : Deflating c).Holds
          (w ++ r.out) := by
        refine ⟨?_, show 0 < Pbuf.bufSize by decide⟩
        rw [List.append_nil, Pbuf.bytes_append, hall]
      rw [List.length_append] at hbound
      obtain ⟨fuel, zdata, hloop, hspec⟩ := ih (bound a.length - (w ++ r.out).length)
        (by rw [List.length_append]; omega) (hnext hok) hh rfl
      refine ⟨fuel + 1, zdata, ?_, hspec⟩
      rw [finishLoop, hr]
      dsimp only
      rw [if_neg (by simp [hok]), if_pos hpos, if_pos ⟨hpos, hok⟩]
      exact hloop
    · refine ⟨1, (p.zdata.append (p.tmp ++ r.out)).1, ?_, ?_⟩
      · rw [finishLoop, hr]
        dsimp only
        rw [if_neg (by simp [hend]), if_neg (by simp [hend])]
        split
        · rfl
        · rename_i hnil
          have hnil' : p.tmp ++ r.out = [] := List.eq_nil_of_length_eq_zero (by omega)
          have hsame : (p.zdata.append (p.tmp ++ r.out)).1 = p.zdata :=
            Pbuf.ext_bytes (by rw [Pbuf.bytes_append, hnil', List.append_nil])
          rw [hsame]
      · rw [Pbuf.bytes_append, hall]
        exact ⟨hz, ha⟩

theorem deflateLoop_mono {r : Option (Deflating c)} (h : deflateLoop fuel p x pages = some r)
    (k : Nat) : deflateLoop (fuel + k) p x pages = some r := by
  induction fuel generalizing p x pages with
  | zero => cases h
  | succ fuel ih =>
    rw [Nat.add_right_comm]
    rw [deflateLoop.eq_def] at h ⊢
    dsimp only at h ⊢
    split
    · rename_i hcond
      rw [if_pos hcond] at h
      split
      · rename_i herr
        rw [if_pos herr] at h
        exact h
      · rename_i herr
        rw [if_neg herr] at h
        exact ih h
    · rename_i hcond
      rw [if_neg hcond] at h
      cases pages with
      | nil => exact h
      | cons q qs => exact ih h

theorem finishLoop_mono {r : Option Pbuf} (h : finishLoop fuel p = some r) (k : Nat) :
    finishLoop (fuel + k) p = some r := by
  induction fuel generalizing p with
  | zero => cases h
  | succ fuel ih =>
    rw [Nat.add_right_comm]
    rw [finishLoop] at h ⊢
    dsimp only at h ⊢
    split
    · rename_i herr
      rw [if_pos herr] at h
      exact h
    · rename_i herr
      rw [if_neg herr] at h
      split
      · rename_i hmore
        rw [if_pos hmore] at h
        exact ih h
      · rename_i hmore
        rw [if_neg hmore] at h
        exact h

end Deflate

/-! ## `ensure_file` and `ensure_zfile` -/

section Ensure

variable {c : Inflater UInt8} {zf zf' : Zfile} {fuel : Nat} {b : Bool}

theorem size_eq_zero {p : Pbuf} : p.size = 0 ↔ p.bytes = [] := by
  rw [p.size_eq_bytes, List.length_eq_zero_iff]

theorem ensureFile_data (h : zf.pData.bytes ≠ []) : ensureFile c fuel zf = some (zf, true) := by
  rw [ensureFile, if_neg (mt size_eq_zero.mp h)]

theorem ensureFile_empty (h : zf.pData.bytes = []) (hz : zf.pZdata.bytes = []) :
    ensureFile c fuel zf = some (zf, false) := by
  rw [ensureFile, if_pos (size_eq_zero.mpr h), if_pos (size_eq_zero.mpr hz)]

/-- What `ensure_file` does with compressed data alone. -/
theorem ensureFile_zdata (h : zf.pData.bytes = []) (hz : zf.pZdata.bytes ≠ []) :
    ensureFile c fuel zf =
      (inflateLoop fuel false ⟨c.init, [], [], zf.pData⟩ zf.pZdata.pages).map zf.inflated := by
  rw [ensureFile, if_pos (size_eq_zero.mpr h), if_neg (mt size_eq_zero.mp hz)]

theorem ensureFile_mono {r : Zfile × Bool} (h : ensureFile c fuel zf = some r) (k : Nat) :
    ensureFile c (fuel + k) zf = some r := by
  unfold ensureFile at h ⊢
  split
  · rename_i hd
    rw [if_pos hd] at h
    split
    · rename_i hz
      rw [if_pos hz] at h
      exact h
    · rename_i hz
      rw [if_neg hz] at h
      obtain ⟨r', hr', he⟩ := Option.map_eq_some_iff.mp h
      rw [inflateLoop_mono hr' k, Option.map_some, he]
  · rename_i hd
    rw [if_neg hd] at h
    exact h

/-- The pages when there is compressed data. -/
theorem pages_cons {p : Pbuf} (h : p.bytes ≠ []) : ∃ q qs, p.pages = q :: qs ∧ q ≠ [] ∧
    (∀ q' ∈ qs, q' ≠ []) ∧ p.bytes = q ++ qs.flatten := by
  have hne := p.pages_ne_nil
  unfold Pbuf.bytes at h ⊢
  cases hp : p.pages with
  | nil =>
    rw [hp] at h
    exact absurd rfl h
  | cons q qs =>
    rw [hp] at hne
    exact ⟨q, qs, rfl, hne q (List.mem_cons_self ..),
      fun q' hq => hne q' (List.mem_cons_of_mem q hq), List.flatten_cons⟩

/-- **`ensure_file`, when it returns true.** It may be short of what is held back. -/
theorem ensureFile_true (hl : c.Lawful F) (h : zf.pData.bytes = []) (hz : zf.pZdata.bytes ≠ [])
    (hr : ensureFile c fuel zf = some (zf', true)) :
    zf'.pZdata = zf.pZdata ∧ ¬ c.RejectsAll Pbuf.bufSize zf.pZdata.pages ∧
      (c.DrainsAll Pbuf.bufSize zf.pZdata.pages ↔
        F.Complete zf.pZdata.bytes ∧ zf'.pData.bytes = F.plain zf.pZdata.bytes) := by
  obtain ⟨q, qs, hp, hq, hqs, hb⟩ := pages_cons hz
  rw [ensureFile_zdata h hz, Option.map_eq_some_iff] at hr
  obtain ⟨r, hr, he⟩ := hr
  cases r with
  | none => cases he
  | some data =>
    cases he
    rw [hp] at hr ⊢
    have hpages : ∀ q' ∈ q :: qs, q' ≠ [] := by
      intro q' hq'
      rcases List.mem_cons.mp hq' with rfl | hq'
      · exact hq
      · exact hqs q' hq'
    rcases inflateLoop_turn hpages (fun hf => by cases hf) hr with ⟨-, hnil, -⟩ |
      ⟨y, ys, again', fuel', ht, hy, hys, -, hr'⟩
    · cases hnil
    · cases ht with
      | rest hne => exact absurd rfl hne
      | page =>
        have hinf := inflateLoop_some hl hys .init h hy hr'
        rw [List.nil_append, ← hb] at hinf
        refine ⟨rfl, hinf.accepted, hinf.drains, fun hc => ?_⟩
        by_contra hd
        exact hinf.held hd hc

/-- **`ensure_file`, when it returns false.** -/
theorem ensureFile_false (hl : c.Lawful F) (h : zf.pData.bytes = []) (hz : zf.pZdata.bytes ≠ [])
    (hr : ensureFile c fuel zf = some (zf', false)) :
    zf' = zf.dropData.1 ∧ c.RejectsAll Pbuf.bufSize zf.pZdata.pages := by
  obtain ⟨q, qs, hp, -⟩ := pages_cons hz
  rw [ensureFile_zdata h hz, Option.map_eq_some_iff] at hr
  obtain ⟨r, hr, he⟩ := hr
  cases r with
  | some data => cases he
  | none =>
    cases he
    have hpages := zf.pZdata.pages_ne_nil
    rw [hp] at hr hpages ⊢
    rcases inflateLoop_turn hpages (fun hf => by cases hf) hr with ⟨-, hnil, -⟩ |
      ⟨y, ys, again', fuel', ht, hy, hys, -, hr'⟩
    · cases hnil
    · cases ht with
      | rest hne => exact absurd rfl hne
      | page => exact ⟨rfl, inflateLoop_none hl hys .init hy hr'⟩

/-- What is rejected is not in the format. -/
theorem invalid_of_rejectsAll (hl : c.Lawful F) (hr : c.RejectsAll Pbuf.bufSize zf.pZdata.pages) :
    F.Invalid zf.pZdata.bytes := by
  by_cases hz : zf.pZdata.bytes = []
  · have hnil : zf.pZdata.pages = [] := List.eq_nil_iff_forall_not_mem.mpr fun q hq =>
      zf.pZdata.pages_ne_nil q hq (List.flatten_eq_nil_iff.mp hz q hq)
    rw [hnil] at hr
    exact absurd hr id
  · obtain ⟨q, qs, hp, hq, hqs, hb⟩ := pages_cons hz
    rw [hp] at hr
    have hi := hl.invalid_of_rejects hr .init hq (show 0 < Pbuf.bufSize by decide) hqs
    rw [List.nil_append, ← hb] at hi
    exact hi

/-- **`ensure_file` returns** unless there is something behind a stream. -/
theorem ensureFile_ends (hl : c.Lawful F) (h : zf.pData.bytes = []) (hz : zf.pZdata.bytes ≠ [])
    (hno : ¬ F.Trailed zf.pZdata.bytes) : ∃ fuel r, ensureFile c fuel zf = some r := by
  obtain ⟨q, qs, hp, hq, hqs, hb⟩ := pages_cons hz
  have hq' := @inflateLoop_ends F c c.init q [] [] zf.pData qs hl hqs .init hq
    (by rw [List.nil_append, ← hb]; exact hno)
  obtain ⟨fuel, r, hr⟩ := hq'
  have hfalse : false = true → ([] : List UInt8) ≠ [] := fun hf => by cases hf
  obtain ⟨fuel', hr'⟩ := inflateLoop_resume .page hfalse hq hr
  exact ⟨fuel', zf.inflated r, by rw [ensureFile_zdata h hz, hp, hr', Option.map_some]⟩

theorem ensureZfile_zdata {c : Deflater UInt8} (h : zf.pZdata.bytes ≠ []) :
    ensureZfile c fuel zf = some (zf, true) := by
  rw [ensureZfile, if_neg (mt size_eq_zero.mp h)]

theorem ensureZfile_empty {c : Deflater UInt8} (h : zf.pData.bytes = [])
    (hz : zf.pZdata.bytes = []) : ensureZfile c fuel zf = some (zf, false) := by
  rw [ensureZfile, if_pos (size_eq_zero.mpr hz), if_pos (size_eq_zero.mpr h)]

theorem ensureZfile_mono {c : Deflater UInt8} {r : Zfile × Bool}
    (h : ensureZfile c fuel zf = some r) (k : Nat) : ensureZfile c (fuel + k) zf = some r := by
  unfold ensureZfile at h ⊢
  split
  · rename_i hz
    rw [if_pos hz] at h
    split
    · rename_i hd
      rw [if_pos hd] at h
      exact h
    · rename_i hd
      rw [if_neg hd] at h
      split at h
      · cases h
      · rename_i hloop
        rw [deflateLoop_mono hloop k]
        exact h
      · rename_i p hloop
        rw [deflateLoop_mono hloop k]
        obtain ⟨r', hr', he⟩ := Option.map_eq_some_iff.mp h
        dsimp only
        rw [finishLoop_mono hr' k, Option.map_some, he]
  · rename_i hz
    rw [if_neg hz] at h
    exact h

/-- **`ensure_zfile` compresses.** -/
theorem ensureZfile_spec {c : Deflater UInt8} {bound : Nat → Nat} (hl : c.Lawful F bound)
    (h : zf.pData.bytes ≠ []) (hz : zf.pZdata.bytes = []) :
    ∃ zf', (∃ fuel, ensureZfile c fuel zf = some (zf', true)) ∧
      (∀ fuel r, ensureZfile c fuel zf = some r → r = (zf', true)) ∧ zf'.pData = zf.pData ∧
      F.Complete zf'.pZdata.bytes ∧ F.plain zf'.pZdata.bytes = zf.pData.bytes := by
  have hp : (⟨c.init, [], zf.pZdata⟩ : Deflating c).Holds [] :=
    ⟨by rw [hz]; rfl, show 0 < Pbuf.bufSize by decide⟩
  obtain ⟨fuel₁, p, w, hloop, hfed, hh⟩ := @deflateLoop_ends F c _ _ [] _ _ zf.pData.pages hl
    .init hp
  have hflush : p.flush = p := if_neg (Nat.ne_of_lt hh.room)
  obtain ⟨fuel₂, zdata, hfin, hcomp, hplain⟩ := finishLoop_ends hl hfed hh
  have hens : ensureZfile c (fuel₁ + fuel₂) zf = some ({ zf with pZdata := zdata }, true) := by
    rw [ensureZfile, if_pos (size_eq_zero.mpr hz), if_neg (mt size_eq_zero.mp h),
      deflateLoop_mono hloop fuel₂]
    dsimp only
    rw [hflush, Nat.add_comm, finishLoop_mono hfin fuel₁, Option.map_some]
    rfl
  refine ⟨_, ⟨_, hens⟩, fun fuel r hr => ?_, rfl, hcomp, ?_⟩
  · have h₁ := ensureZfile_mono hens fuel
    have h₂ := ensureZfile_mono hr (fuel₁ + fuel₂)
    rw [Nat.add_comm fuel, h₁] at h₂
    exact (Option.some.inj h₂).symm
  · rw [hplain, List.nil_append, List.nil_append]
    rfl

end Ensure

end Zfile

end CodeSLoop
