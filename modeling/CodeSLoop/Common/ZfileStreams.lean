import CodeSLoop.Common.ZfilePump
import CodeSLoop.Lib.ZstreamLazy

/-!
# What comes back from compressed data

What `ensure_zfile` makes of some data is a stream for it, but `ensure_file` gives the data back
only if the decompressor holds nothing back when it takes the last byte (`round_trip`). And it
returns true for what is no whole stream unless `inflate` reports an error with a page of room for
each call, and never returns when there is something behind a stream (`ensures_properly`).

The codec at the end of the first part has two streams as zlib writes them, and all other data in a
form of its own.
-/

namespace CodeSLoop

open Zstream

namespace Zfile

variable {F : Format UInt8} {I : Inflater UInt8} {D : Deflater UInt8} {bound : Nat → Nat}
  {zf zf₁ zf₂ : Zfile} {d z : List UInt8}

/-! ## The round trip -/

/-- `get_zdata` after `put_data(d)` hands out `z`. -/
def Compresses (D : Deflater UInt8) (zf : Zfile) (d z : List UInt8) : Prop :=
  (zf.putData d).2 = true ∧
    ∃ zf', Returns (fun fuel => getZdata D fuel (zf.putData d).1) (zf', some z)

/-- `get_data` after `put_zdata(z)` hands out `d`. -/
def Restores (I : Inflater UInt8) (zf : Zfile) (z d : List UInt8) : Prop :=
  (zf.putZdata z).2 = true ∧
    ∃ zf', Returns (fun fuel => getData I fuel (zf.putZdata z).1) (zf', some d)

/-- Both, one after the other. -/
def RoundTrip (D : Deflater UInt8) (I : Inflater UInt8) (zf₁ zf₂ : Zfile) (d : List UInt8) : Prop :=
  ∃ z, Compresses D zf₁ d z ∧ Restores I zf₂ z d

theorem getData_mono {fuel : Nat} {r : Zfile × Option (List UInt8)}
    (h : getData I fuel zf = some r) (k : Nat) : getData I (fuel + k) zf = some r := by
  obtain ⟨r', hr', he⟩ := Option.map_eq_some_iff.mp h
  rw [getData, ensureFile_mono hr' k, Option.map_some, he]

theorem getZdata_mono {fuel : Nat} {r : Zfile × Option (List UInt8)}
    (h : getZdata D fuel zf = some r) (k : Nat) : getZdata D (fuel + k) zf = some r := by
  obtain ⟨r', hr', he⟩ := Option.map_eq_some_iff.mp h
  rw [getZdata, ensureZfile_mono hr' k, Option.map_some, he]

/-- **`get_zdata` compresses.** -/
theorem getZdata_spec (hD : D.Lawful F bound) (h : zf.pData.bytes ≠ [])
    (hz : zf.pZdata.bytes = []) :
    ∃ zf' z, Returns (fun fuel => getZdata D fuel zf) (zf', some z) ∧ zf'.pData = zf.pData ∧
      zf'.pZdata.bytes = z ∧ F.Complete z ∧ F.plain z = zf.pData.bytes := by
  obtain ⟨zf', ⟨fuel, hr⟩, -, hdata, hcomp, hplain⟩ := ensureZfile_spec hD h hz
  refine ⟨zf', zf'.pZdata.bytes, ?_, hdata, rfl, hcomp, hplain⟩
  have hget : getZdata D fuel zf = some (zf', some zf'.pZdata.bytes) := by
    rw [getZdata, hr, Option.map_some]
    rfl
  exact returns_of_mono (fun _ _ k h => getZdata_mono h k) hget

/-- **`get_data`** gives back a stream when nothing of it is held back, and only then. -/
theorem getData_iff (hI : I.Lawful F) (h : zf.pData.bytes = []) (hz : F.Complete zf.pZdata.bytes) :
    (∃ zf', Returns (fun fuel => getData I fuel zf) (zf', some (F.plain zf.pZdata.bytes))) ↔
      I.DrainsAll Pbuf.bufSize zf.pZdata.pages := by
  have hne : zf.pZdata.bytes ≠ [] := by
    intro hnil
    rw [hnil] at hz
    exact F.complete_nil hz
  obtain ⟨fuel, ⟨zf', b⟩, hr⟩ := ensureFile_ends hI h hne hz.not_trailed
  cases b with
  | false =>
    exact absurd (invalid_of_rejectsAll hI (ensureFile_false hI h hne hr).2) hz.not_invalid
  | true =>
    obtain ⟨-, -, hiff⟩ := ensureFile_true hI h hne hr
    have hget : getData I fuel zf = some (zf', some zf'.pData.bytes) := by
      rw [getData, hr, Option.map_some]
      rfl
    have hret := returns_of_mono (f := fun fuel => getData I fuel zf)
      (fun _ _ k h => getData_mono h k) hget
    rw [hiff]
    constructor
    · rintro ⟨zf'', h''⟩
      have heq := hret.unique h''
      rw [Prod.mk.injEq, Option.some.injEq] at heq
      exact ⟨hz, heq.2.symm⟩
    · rintro ⟨-, hb⟩
      rw [hb] at hret
      exact ⟨zf', hret⟩

/-- **The round trip.** There is a compressed form of the data, and the data comes back if and only
    if the decompressor holds nothing back when it takes the last byte of it. -/
theorem round_trip (hD : D.Lawful F bound) (hI : I.Lawful F) (zf₁ zf₂ : Zfile) (hd : d ≠ []) :
    ∃ z, Compresses D zf₁ d z ∧ F.Complete z ∧ F.plain z = d ∧
      (RoundTrip D I zf₁ zf₂ d ↔ I.DrainsAll Pbuf.bufSize (Pbuf.init.append z).1.pages) := by
  have hput : zf₁.putData d = _ := putData_eq hd
  have hbytes : (zf₁.putData d).1.pData.bytes = d := by
    rw [hput, Pbuf.bytes_append]
    rfl
  obtain ⟨zf', z, hret, -, -, hcomp, hplain⟩ := getZdata_spec hD
    (show (zf₁.putData d).1.pData.bytes ≠ [] by rw [hbytes]; exact hd) (by rw [hput]; rfl)
  rw [hbytes] at hplain
  have hz : z ≠ [] := by
    intro hnil
    rw [hnil] at hcomp
    exact F.complete_nil hcomp
  have hcz : Compresses D zf₁ d z := ⟨by rw [hput], zf', hret⟩
  have hiff := getData_iff hI (show (ofZdata z).pData.bytes = [] from rfl)
    (by rw [bytes_ofZdata]; exact hcomp)
  rw [bytes_ofZdata, hplain] at hiff
  refine ⟨z, hcz, hcomp, hplain, ?_⟩
  rw [← show (ofZdata z).pZdata = (Pbuf.init.append z).1 from rfl, ← hiff]
  constructor
  · rintro ⟨z', ⟨-, zf'', hret'⟩, -, hres⟩
    have heq := hret.unique hret'
    rw [Prod.mk.injEq, Option.some.injEq] at heq
    rw [heq.2, putZdata_eq hz] at hres
    exact hres
  · intro hres
    refine ⟨z, hcz, ?_⟩
    rw [Restores, putZdata_eq hz]
    exact ⟨rfl, hres⟩

/-! ### Two streams as zlib writes them -/

/-- The stream for 2049 zeros: its bytes, and what comes out when they are taken. -/
def zeros : List (UInt8 × List UInt8) :=
  [(0x63, 0), (0x60, 1), (0x18, 1), (0x05, 258), (0xa3, 0), (0x21, 0), (0x30, 258), (0x1a, 0),
    (0x02, 258), (0xa3, 0), (0x21, 0), (0x30, 258), (0x1a, 0), (0x02, 258), (0xa3, 0), (0x21, 0),
    (0x30, 258), (0x1a, 0), (0x02, 258), (0x23, 0), (0x2e, 0), (0x04, 0), (0x00, 241)].map
      fun p => (p.1, List.replicate p.2 0)

/-- The stream for an `A`. -/
def letterA : List (UInt8 × List UInt8) := [(0x73, []), (0x04, [0x41]), (0x00, [])]

theorem zeros_ne_nil : zeros ≠ [] := List.cons_ne_nil _ _

theorem letterA_ne_nil : letterA ≠ [] := List.cons_ne_nil _ _

theorem stop_ne_more : (0 : UInt8) ≠ 1 := by decide

/-- All other data is written as it is, with a byte before each. -/
def reader : Reader UInt8 :=
  .dispatch 0x63 (.word zeros zeros_ne_nil)
    (.dispatch 0x73 (.word letterA letterA_ne_nil) (.literal 1 0 stop_ne_more))

/-- What is written. -/
def pack (d : List UInt8) : List UInt8 :=
  if d = zeros.flatMap (·.2) then zeros.map (·.1)
  else if d = letterA.flatMap (·.2) then letterA.map (·.1)
  else Reader.writeLiteral 1 0 d

theorem head_writeLiteral (d : List UInt8) (b : UInt8) (h : b ≠ 1) (h' : b ≠ 0) :
    (Reader.writeLiteral 1 0 d).head? ≠ some b := by
  cases d with
  | nil => simpa [Reader.writeLiteral] using h'.symm
  | cons c d => simpa [Reader.writeLiteral] using h.symm

theorem read_pack (d : List UInt8) : reader.read (pack d) = some (d, true) := by
  unfold pack
  split
  · rename_i h
    rw [h]
    exact Reader.readWord_all zeros
  · split
    · rename_i h
      rw [h]
      exact Reader.readWord_all letterA
    · have h₁ := head_writeLiteral d 0x63 (by decide) (by decide)
      have h₂ := head_writeLiteral d 0x73 (by decide) (by decide)
      have hr : reader.read (Reader.writeLiteral 1 0 d) =
          Reader.readLiteral 1 0 (Reader.writeLiteral 1 0 d) := (if_neg h₁).trans (if_neg h₂)
      rw [hr, Reader.readLiteral_write]

theorem length_pack (d : List UInt8) : (pack d).length ≤ 2 * d.length + 23 := by
  unfold pack
  split
  · exact Nat.le_add_left ..
  · split
    · exact Nat.le_trans (by decide) (Nat.le_add_left 23 _)
    · rw [Reader.length_writeLiteral]
      omega

def packer : Packer reader := ⟨pack, fun n => 2 * n + 23, read_pack, length_pack⟩

/-- What `get_zdata` hands out is found by running it. -/
theorem Compresses.eq_of_run {fuel : Nat} {z' : List UInt8} (h : Compresses D zf d z)
    (hr : (getZdata D fuel (zf.putData d).1).map (·.2) = some (some z')) : z = z' := by
  obtain ⟨-, zf', hret⟩ := h
  obtain ⟨r, hr, he⟩ := Option.map_eq_some_iff.mp hr
  rw [hret.2 fuel r hr] at he
  exact Option.some.inj he

theorem Restores.eq_of_run {fuel : Nat} {d' : List UInt8} (h : Restores I zf z d)
    (hr : (getData I fuel (zf.putZdata z).1).map (·.2) = some (some d')) : d = d' := by
  obtain ⟨-, zf', hret⟩ := h
  obtain ⟨r, hr, he⟩ := Option.map_eq_some_iff.mp hr
  rw [hret.2 fuel r hr] at he
  exact Option.some.inj he

/-- A stream in the form of its own, when it is not for one of the two. -/
theorem readLiteral_of_read (h : reader.read z = some (d, true)) (hz : d ≠ zeros.flatMap (·.2))
    (hA : d ≠ letterA.flatMap (·.2)) : z.head? ≠ some 0x63 ∧ z.head? ≠ some 0x73 ∧
      Reader.readLiteral 1 0 z = some (d, true) := by
  have h₀ : (if z.head? = some 0x63 then Reader.readWord zeros z
      else if z.head? = some 0x73 then Reader.readWord letterA z
      else Reader.readLiteral 1 0 z) = some (d, true) := h
  split at h₀
  · exact absurd (Reader.readWord_whole h₀) hz
  · rename_i h₁
    split at h₀
    · exact absurd (Reader.readWord_whole h₀) hA
    · rename_i h₂
      exact ⟨h₁, h₂, h₀⟩

/-- What the beginnings of it bring. -/
theorem length_plain (h : reader.read z = some (d, true)) (hz : d ≠ zeros.flatMap (·.2))
    (hA : d ≠ letterA.flatMap (·.2)) {y : List UInt8} (hy : y <+: z) :
    (reader.plain y).length = y.length / 2 := by
  obtain ⟨h₁, h₂, hlit⟩ := readLiteral_of_read h hz hA
  obtain ⟨r, rfl⟩ := hy
  obtain ⟨o, e, hread⟩ : ∃ o e, reader.read y = some (o, e) := by
    by_cases hr : r = []
    · rw [hr, List.append_nil] at h
      exact ⟨d, true, h⟩
    · obtain ⟨o, ho, -⟩ := Reader.read_append h hr
      exact ⟨o, false, ho⟩
  have hsame : reader.read y = Reader.readLiteral 1 0 y := by
    cases y with
    | nil => rfl
    | cons b y => exact (if_neg h₁).trans (if_neg h₂)
  rw [Reader.plain_eq hread]
  rw [hsame] at hread
  exact Reader.length_readLiteral hread

/-- Three thousand bytes come back; there are three pages of them when they are compressed. -/
theorem round_trip_pages :
    RoundTrip packer.deflater reader.inflater .init .init
      ((List.range 3000).map UInt8.ofNat) := by
  have hlen : ((List.range 3000).map UInt8.ofNat).length = 3000 := by
    rw [List.length_map, List.length_range]
  generalize (List.range 3000).map UInt8.ofNat = d at hlen ⊢
  have hne : ∀ w : List UInt8, w.length ≠ 3000 → d ≠ w := by
    rintro w hw rfl
    exact hw hlen
  obtain ⟨z, -, ⟨o, hread⟩, hplain, hiff⟩ := round_trip packer.lawful reader.lawful .init .init
    (hne [] (by decide))
  have ho : o = d := (Reader.plain_eq hread).symm.trans hplain
  subst ho
  have hbytes : (Pbuf.init.append z).1.pages.flatten = z := Pbuf.bytes_append _ _
  rw [hiff]
  refine Reader.drains_all (by rw [hbytes]; exact hread) (fun b y hy hmem => ?_)
    (Pbuf.init.append z).1.pages_ne_nil
  -- a page brings no more than half of it
  rw [hbytes] at hy
  have hgrow := fun {y} => @length_plain _ _ hread (hne _ (by decide +kernel))
    (hne _ (by decide +kernel)) y
  have hpage : y.length ≤ Pbuf.bufSize := (Pbuf.init.append z).1.length_page_le y hmem
  rw [hgrow hy, hgrow ((List.prefix_append b y).trans hy), List.length_append]
  omega

/-- Of 2049 zeros the last one does not. -/
theorem round_trip_fails : packer.deflater.Lawful reader.format packer.bound ∧
    reader.inflater.Lawful reader.format ∧
    ¬ RoundTrip packer.deflater reader.inflater .init .init (List.replicate 2049 0) := by
  refine ⟨packer.lawful, reader.lawful, ?_⟩
  rintro ⟨z, hz, hd⟩
  have hz' := hz.eq_of_run (show (getZdata packer.deflater 9
    (init.putData (List.replicate 2049 0)).1).map (·.2) = some (some (zeros.map (·.1))) by
      decide +kernel)
  subst hz'
  have hd' := hd.eq_of_run (show (getData reader.inflater 9
    (init.putZdata (zeros.map (·.1))).1).map (·.2) = some (some (List.replicate 2048 0)) by
      decide +kernel)
  have hlen := congrArg List.length hd'
  rw [List.length_replicate, List.length_replicate] at hlen
  cases hlen

/-! ## Any bytes -/

/-- The ways to put compressed bytes. -/
inductive Put
  | data (z : List UInt8)
  | pbuf (dta : Arg)
  | file (f : Option (List (List UInt8)))

namespace Put

def apply (zf : Zfile) : Put → Zfile × Bool
  | data z => zf.putZdata z
  | pbuf dta => zf.putZdataPbuf dta
  | file f => zf.readZfile f

/-- The bytes that are put. -/
def bytes (zf : Zfile) : Put → List UInt8
  | data z => z
  | pbuf dta => (dta.pbuf zf).bytes
  | file f => (f.getD []).flatten

/-- What is there of them then: nothing when they were there before. -/
def left (zf : Zfile) : Put → List UInt8
  | pbuf .zdata => []
  | p => p.bytes zf

/-- Is the other buffer empty then? A `pbuf` leaves it as it is. -/
def Alone (zf : Zfile) : Put → Prop
  | pbuf _ => zf.pData.bytes = []
  | _ => True

theorem apply_spec {p : Put} (h : (p.apply zf).2 = true) :
    (p.apply zf).1.pZdata = (Pbuf.init.append (p.left zf)).1 ∧
      ((p.apply zf).1.pData.bytes = [] ↔ p.Alone zf) := by
  cases p with
  | data z =>
    by_cases hz : z = []
    · rw [apply, putZdata, if_pos hz] at h
      cases h
    · rw [apply, putZdata_eq hz]
      exact ⟨rfl, fun _ => trivial, fun _ => rfl⟩
  | pbuf dta =>
    rw [apply, putZdataPbuf] at h ⊢
    split at h
    · rename_i hs
      rw [if_pos hs]
      refine ⟨Pbuf.ext_bytes ?_, Iff.rfl⟩
      rw [Pbuf.bytes_append]
      cases dta with
      | data => rfl
      | zdata => rfl
      | other dta => rfl
    · cases h
  | file f =>
    cases f with
    | none => cases h
    | some f =>
      rw [apply, readZfile_eq]
      exact ⟨rfl, fun _ => trivial, fun _ => rfl⟩

/-- What is there is what was put, or there is nothing. -/
theorem left_eq (zf : Zfile) (p : Put) : p.left zf = p.bytes zf ∨ p.left zf = [] := by
  cases p with
  | data z => exact .inl rfl
  | pbuf dta =>
    cases dta with
    | data => exact .inl rfl
    | zdata => exact .inr rfl
    | other dta => exact .inl rfl
  | file f => exact .inl rfl

end Put

/-- `ensure_file` returns; it returns true for whole streams only, and for anything else it leaves
    no data behind. -/
def EnsuresProperly (I : Inflater UInt8) (F : Format UInt8) (zf : Zfile) (z : List UInt8) : Prop :=
  ∃ zf' b, Returns (fun fuel => ensureFile I fuel zf) (zf', b) ∧ (b = true → F.Complete z) ∧
    (¬ F.Complete z → b = false ∧ zf'.pData.bytes = [])

theorem returns_ensureFile {fuel : Nat} {r : Zfile × Bool} (h : ensureFile I fuel zf = some r) :
    Returns (fun fuel => ensureFile I fuel zf) r :=
  returns_of_mono (fun _ _ k h => ensureFile_mono h k) h

/-- Nothing is looked at as long as there is data. -/
theorem ensures_data (h : zf.pData.bytes ≠ []) :
    EnsuresProperly I F zf z ↔ F.Complete z := by
  have hret := returns_ensureFile (@ensureFile_data I zf 0 h)
  constructor
  · rintro ⟨zf', b, hret', htrue, -⟩
    have heq := hret.unique hret'
    cases heq
    exact htrue rfl
  · exact fun hz => ⟨zf, true, hret, fun _ => hz, fun hn => absurd hz hn⟩

/-- Otherwise an error that is reported is seen, and a whole stream is, but nothing else is. -/
theorem ensures_zdata (hI : I.Lawful F) (h : zf.pData.bytes = []) (hne : zf.pZdata.bytes ≠ []) :
    EnsuresProperly I F zf zf.pZdata.bytes ↔
      F.Complete zf.pZdata.bytes ∨ I.RejectsAll Pbuf.bufSize zf.pZdata.pages := by
  constructor
  · rintro ⟨zf', b, ⟨⟨fuel, hr⟩, -⟩, htrue, -⟩
    cases b with
    | true => exact .inl (htrue rfl)
    | false => exact .inr (ensureFile_false hI h hne hr).2
  · rintro (hz | hz)
    · obtain ⟨fuel, ⟨zf', b⟩, hr⟩ := ensureFile_ends hI h hne hz.not_trailed
      exact ⟨zf', b, returns_ensureFile hr, fun _ => hz, fun hn => absurd hz hn⟩
    · obtain ⟨fuel, ⟨zf', b⟩, hr⟩ :=
        ensureFile_ends hI h hne fun ht => ht.not_invalid (invalid_of_rejectsAll hI hz)
      cases b with
      | true => exact absurd hz (ensureFile_true hI h hne hr).2.1
      | false =>
        refine ⟨zf', false, returns_ensureFile hr, (fun hf => by cases hf), fun _ => ⟨rfl, ?_⟩⟩
        rw [(ensureFile_false hI h hne hr).1]
        rfl

theorem ensures_ofZdata (hI : I.Lawful F) (hz : z ≠ []) :
    EnsuresProperly I F (ofZdata z) z ↔
      F.Complete z ∨ I.RejectsAll Pbuf.bufSize (ofZdata z).pZdata.pages := by
  have h := ensures_zdata hI (show (ofZdata z).pData.bytes = [] from rfl)
    (by rw [bytes_ofZdata]; exact hz)
  rw [bytes_ofZdata] at h
  exact h

/-- **`ensure_file` on any bytes.** It is right on a whole stream; on anything else it is when there
    is no data already, and an error is reported with a page of room for each call or there is no
    byte at all. So it is not when a stream is cut off or has something behind it. -/
theorem ensures_properly (hI : I.Lawful F) (zf : Zfile) {p : Put} (h : (p.apply zf).2 = true) :
    EnsuresProperly I F (p.apply zf).1 (p.bytes zf) ↔
      F.Complete (p.bytes zf) ∨ p.Alone zf ∧
        (p.left zf = [] ∨
          I.RejectsAll Pbuf.bufSize (Pbuf.init.append (p.left zf)).1.pages) := by
  obtain ⟨hz, hd⟩ := Put.apply_spec h
  have hbytes : (p.apply zf).1.pZdata.bytes = p.left zf := by
    rw [hz, Pbuf.bytes_append]
    rfl
  rw [← hd]
  by_cases hdata : (p.apply zf).1.pData.bytes = []
  · by_cases hne : p.left zf = []
    · have hret := returns_ensureFile (@ensureFile_empty I _ 0 hdata (hbytes.trans hne))
      constructor
      · exact fun _ => .inr ⟨hdata, .inl hne⟩
      · exact fun _ => ⟨_, false, hret, (fun hf => by cases hf), fun _ => ⟨rfl, hdata⟩⟩
    · have hiff := ensures_zdata hI hdata (by rw [hbytes]; exact hne)
      have hleft := (p.left_eq zf).resolve_right hne
      rw [hbytes, hz, hleft] at hiff
      rw [hleft] at hne ⊢
      simp [hiff, hdata, hne]
  · rw [ensures_data hdata]
    simp [hdata]

/-- The stream of an `A` is taken, and a byte that no stream begins with is not. -/
theorem ensures_properly_letterA :
    EnsuresProperly reader.inflater reader.format (init.putZdata [0x73, 0x04, 0x00]).1
      [0x73, 0x04, 0x00] ∧
    EnsuresProperly reader.inflater reader.format (init.readZfile (some [[0xff]])).1 [0xff] := by
  constructor
  · exact (ensures_properly reader.lawful .init (p := .data [0x73, 0x04, 0x00]) rfl).mpr
      (.inl ⟨[0x41], by decide +kernel⟩)
  · have hpages : (Pbuf.init.append [0xff]).1.pages = [[0xff]] := by decide +kernel
    refine (ensures_properly reader.lawful .init (p := .file (some [[0xff]])) rfl).mpr
      (.inr ⟨trivial, .inr ?_⟩)
    show reader.inflater.RejectsAll Pbuf.bufSize (Pbuf.init.append [0xff]).1.pages
    rw [hpages]
    exact .now (by decide +kernel)

/-- A stream that is cut off is taken, and one with a byte behind it is never done with. -/
theorem ensures_properly_fails : reader.inflater.Lawful reader.format ∧
    ¬ EnsuresProperly reader.inflater reader.format (init.putZdata [0x73, 0x04]).1 [0x73, 0x04] ∧
    ¬ EnsuresProperly reader.inflater reader.format (init.putZdata [0x73, 0x04, 0x00, 0x00]).1
      [0x73, 0x04, 0x00, 0x00] := by
  have hA : reader.read [0x73, 0x04] = some ([0x41], false) := by decide +kernel
  have hz : reader.Complete [0x73, 0x04, 0x00] := ⟨[0x41], by decide +kernel⟩
  have hB : reader.read [0x73, 0x04, 0x00, 0x00] = none := by decide +kernel
  rw [putZdata_eq (by simp), putZdata_eq (by simp), ensures_ofZdata reader.lawful (by simp),
    ensures_ofZdata reader.lawful (by simp)]
  refine ⟨reader.lawful, ?_, ?_⟩
  · rintro (⟨o, ho⟩ | hrej)
    · rw [hA] at ho
      cases ho
    · have hinv := invalid_of_rejectsAll reader.lawful hrej
      rw [bytes_ofZdata] at hinv
      cases hA.symm.trans hinv.1
  · rintro (⟨o, ho⟩ | hrej)
    · rw [hB] at ho
      cases ho
    · have hinv := invalid_of_rejectsAll reader.lawful hrej
      rw [bytes_ofZdata] at hinv
      exact hinv.2 [0x73, 0x04, 0x00] [0x00] rfl hz

end Zfile

end CodeSLoop
