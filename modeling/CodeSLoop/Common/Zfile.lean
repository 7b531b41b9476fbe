import CodeSLoop.Common.Pbuf
import CodeSLoop.Lib.Zstream

/-!
# `zfile` — data and compressed data (`common/zfile.cc`)

A `zfile` has two buffers, one of them for data and the other for compressed data, and fills the
one from the other when it is asked for. zlib is not in the repository; it is given by two codecs
(`Lib/Zstream`). Their input is a page of a buffer at a time and their output goes through a page,
from which it is appended to the other buffer.

The loops need not end; they are cut off after `fuel` calls, and then there is no result. Memory is
taken to be there. Of the operations that read a buffer only one of each kind is here, and the flags
that only choose an allocator for zlib are left out.
-/

namespace CodeSLoop

open Zstream

/-- A function that is cut off after some number of rounds gives `b`, and never anything else. -/
def Returns {β : Type} (f : Nat → Option β) (b : β) : Prop :=
  (∃ fuel, f fuel = some b) ∧ ∀ fuel b', f fuel = some b' → b' = b

/-- When more rounds do not change what is given. -/
theorem returns_of_mono {β : Type} {f : Nat → Option β} {b : β} {fuel : Nat}
    (hmono : ∀ fuel b k, f fuel = some b → f (fuel + k) = some b) (h : f fuel = some b) :
    Returns f b := by
  refine ⟨⟨fuel, h⟩, fun fuel' b' h' => ?_⟩
  have h₁ := hmono fuel b fuel' h
  have h₂ := hmono fuel' b' fuel h'
  rw [Nat.add_comm fuel', h₁] at h₂
  exact (Option.some.inj h₂).symm

theorem Returns.unique {β : Type} {f : Nat → Option β} {b b' : β} (h : Returns f b)
    (h' : Returns f b') : b' = b := by
  obtain ⟨fuel, hf⟩ := h'.1
  exact h.2 fuel b' hf

/-- The buffers of `zfile::impl`. -/
structure Zfile where
  pData : Pbuf
  pZdata : Pbuf
deriving DecidableEq

namespace Zfile

/-- `zfile()`. -/
def init : Zfile := ⟨.init, .init⟩

/-- `drop_data`, and what it returns. -/
def dropData (zf : Zfile) : Zfile × Bool := ({ zf with pData := .init }, 0 < zf.pData.size)

/-- `drop_zdata`. -/
def dropZdata (zf : Zfile) : Zfile × Bool := ({ zf with pZdata := .init }, 0 < zf.pZdata.size)

/-- `reset_files`. -/
def resetFiles (zf : Zfile) : Zfile := zf.dropData.1.dropZdata.1

/-! ## Decompression -/

section Inflate

variable (c : Inflater UInt8)

/-- The stream with its input, what is in `tmp_buf`, and `p_data_`. -/
structure Inflating where
  strm : c.σ
  nextIn : List UInt8
  tmp : List UInt8
  data : Pbuf

variable {c}

/-- A call of `inflate`, and what is done with its output. -/
def Inflating.put (p : Inflating c) (r : Call c.σ UInt8) : Inflating c :=
  let tmp := p.tmp ++ r.out
  if 0 < tmp.length then ⟨r.strm, p.nextIn.drop r.used, [], (p.data.append tmp).1⟩
  else ⟨r.strm, p.nextIn.drop r.used, tmp, p.data⟩

/-- The loop over the pages with the two loops in it; `again` when the inner one goes on. There is
    no result when it is cut off, and no buffer when `inflate` reports an error. -/
def inflateLoop : Nat → Bool → Inflating c → List Page8 → Option (Option Pbuf)
  | 0, _, _, _ => none
  | fuel + 1, again, p, pages =>
    if again ∨ (p.nextIn ≠ [] ∧ Pbuf.bufSize - p.tmp.length ≠ 0) then
      let r := c.inflate p.strm p.nextIn (Pbuf.bufSize - p.tmp.length)
      if r.code.Negative then some none
      else
        let sz := (p.tmp ++ r.out).length
        let p := p.put r
        inflateLoop fuel (0 < sz ∧ r.code = .ok ∧ p.nextIn ≠ []) p pages
    else
      match pages with
      | [] => some (some p.data)
      | q :: qs => inflateLoop fuel false { p with nextIn := q, tmp := [] } qs

variable (c)

/-- What `ensure_file` leaves behind when its loop has ended, and what it returns. -/
def inflated (zf : Zfile) : Option Pbuf → Zfile × Bool
  | none => (zf.dropData.1, false)
  | some data => ({ zf with pData := data }, true)

/-- `ensure_file`. -/
def ensureFile (fuel : Nat) (zf : Zfile) : Option (Zfile × Bool) :=
  if zf.pData.size = 0 then
    if zf.pZdata.size = 0 then some (zf, false)
    else (inflateLoop fuel false ⟨c.init, [], [], zf.pData⟩ zf.pZdata.pages).map zf.inflated
  else some (zf, true)

/-- `get_data`, and what it hands out. -/
def getData (fuel : Nat) (zf : Zfile) : Option (Zfile × Option (List UInt8)) :=
  (ensureFile c fuel zf).map fun r => (r.1, if r.2 then some r.1.pData.bytes else none)

end Inflate

/-! ## Compression -/

section Deflate

variable (c : Deflater UInt8)

/-- The stream, what is in `tmp_buf`, and `p_zdata_`. -/
structure Deflating where
  strm : c.σ
  tmp : List UInt8
  zdata : Pbuf

variable {c}

/-- The loop over the pages. There is no state when `deflate` reports an error. -/
def deflateLoop : Nat → Deflating c → List UInt8 → List Page8 → Option (Option (Deflating c))
  | 0, _, _, _ => none
  | fuel + 1, p, nextIn, pages =>
    if nextIn ≠ [] ∧ Pbuf.bufSize - p.tmp.length ≠ 0 then
      let r := c.deflate p.strm .noFlush nextIn (Pbuf.bufSize - p.tmp.length)
      if r.code = .streamError then some none
      else
        let tmp := p.tmp ++ r.out
        let p := if tmp.length = Pbuf.bufSize then ⟨r.strm, [], (p.zdata.append tmp).1⟩
          else ⟨r.strm, tmp, p.zdata⟩
        deflateLoop fuel p (nextIn.drop r.used) pages
    else
      match pages with
      | [] => some (some p)
      | q :: qs => deflateLoop fuel p q qs

/-- The page is made free for what is to come. -/
def Deflating.flush (p : Deflating c) : Deflating c :=
  if p.tmp.length = Pbuf.bufSize then ⟨p.strm, [], (p.zdata.append p.tmp).1⟩ else p

/-- The loop that finishes the stream. -/
def finishLoop : Nat → Deflating c → Option (Option Pbuf)
  | 0, _ => none
  | fuel + 1, p =>
    let r := c.deflate p.strm .finish [] (Pbuf.bufSize - p.tmp.length)
    if r.code = .streamError then some none
    else
      let tmp := p.tmp ++ r.out
      let p := if 0 < tmp.length then ⟨r.strm, [], (p.zdata.append tmp).1⟩
        else ⟨r.strm, tmp, p.zdata⟩
      if 0 < tmp.length ∧ r.code = .ok then finishLoop fuel p else some (some p.zdata)

variable (c)

/-- What `ensure_zfile` leaves behind when its loops have ended, and what it returns. -/
def deflated (zf : Zfile) : Option Pbuf → Zfile × Bool
  | none => (zf.dropZdata.1, false)
  | some zdata => ({ zf with pZdata := zdata }, true)

/-- `ensure_zfile`. -/
def ensureZfile (fuel : Nat) (zf : Zfile) : Option (Zfile × Bool) :=
  if zf.pZdata.size = 0 then
    if zf.pData.size = 0 then some (zf, false)
    else
      match deflateLoop fuel ⟨c.init, [], zf.pZdata⟩ [] zf.pData.pages with
      | none => none
      | some none => some (zf.deflated none)
      | some (some p) => (finishLoop fuel p.flush).map zf.deflated
  else some (zf, true)

/-- `get_zdata`, and what it hands out. -/
def getZdata (fuel : Nat) (zf : Zfile) : Option (Zfile × Option (List UInt8)) :=
  (ensureZfile c fuel zf).map fun r => (r.1, if r.2 then some r.1.pZdata.bytes else none)

end Deflate

/-! ## Putting data

`put_data` and `put_zdata` come in two forms. The one with a pointer drops what both buffers have;
the one with a `pbuf` replaces its own buffer only. That `pbuf` can be one that `get_data` or
`get_zdata` has handed out by reference. A file is given by what is in it, and is `none` when it
cannot be opened.
-/

/-- A `pbuf` that is passed: one of the `zfile`'s own, or another. -/
inductive Arg
  | data
  | zdata
  | other (dta : Pbuf)
deriving DecidableEq

/-- What is in it. -/
def Arg.pbuf (zf : Zfile) : Arg → Pbuf
  | data => zf.pData
  | zdata => zf.pZdata
  | other dta => dta

/-- `pbuf::operator=`, which frees its own pages before it copies those of the other one. -/
def copyPbuf (same : Bool) (other : Pbuf) : Pbuf := if same then .init else other

/-- `put_data(data,len)`. -/
def putData (zf : Zfile) (d : List UInt8) : Zfile × Bool :=
  if d = [] then (zf, false)
  else ({ zf.resetFiles with pData := (zf.resetFiles.pData.append d).1 }, true)

/-- `put_zdata(data,len)`. -/
def putZdata (zf : Zfile) (z : List UInt8) : Zfile × Bool :=
  if z = [] then (zf, false)
  else ({ zf.resetFiles with pZdata := (zf.resetFiles.pZdata.append z).1 }, true)

/-- `put_data(const pbuf &)`. -/
def putDataPbuf (zf : Zfile) (dta : Arg) : Zfile × Bool :=
  if 0 < (dta.pbuf zf).size then
    ({ zf with pData := copyPbuf (dta = .data) (dta.pbuf zf) }, true)
  else (zf, false)

/-- `put_zdata(const pbuf &)`. -/
def putZdataPbuf (zf : Zfile) (dta : Arg) : Zfile × Bool :=
  if 0 < (dta.pbuf zf).size then
    ({ zf with pZdata := copyPbuf (dta = .zdata) (dta.pbuf zf) }, true)
  else (zf, false)

/-- The loop of `read_file_common`: the pages that `fread` gives. -/
def readPages (bf : Pbuf) (pages : List (List UInt8)) : Pbuf :=
  pages.foldl (fun bf tmp => (bf.append tmp).1) bf

/-- `read_file`, for a file that `fread` gives in these pieces. -/
def readFile (zf : Zfile) : Option (List (List UInt8)) → Zfile × Bool
  | none => (zf, false)
  | some f => ({ zf.resetFiles with pData := readPages zf.resetFiles.pData f }, true)

/-- `read_zfile`. -/
def readZfile (zf : Zfile) : Option (List (List UInt8)) → Zfile × Bool
  | none => (zf, false)
  | some f => ({ zf.resetFiles with pZdata := readPages zf.resetFiles.pZdata f }, true)

variable {zf : Zfile} {d z : List UInt8} {dta : Pbuf}

/-- A `zfile` with compressed data only. -/
def ofZdata (z : List UInt8) : Zfile := ⟨.init, (Pbuf.init.append z).1⟩

@[simp] theorem bytes_ofZdata : (ofZdata z).pZdata.bytes = z := by
  rw [ofZdata, Pbuf.bytes_append]
  rfl

theorem putData_eq (hd : d ≠ []) : zf.putData d = (⟨(Pbuf.init.append d).1, .init⟩, true) := by
  rw [putData, if_neg hd]
  rfl

theorem putZdata_eq (hz : z ≠ []) : zf.putZdata z = (ofZdata z, true) := by
  rw [putZdata, if_neg hz]
  rfl

theorem bytes_readPages (bf : Pbuf) (f : List (List UInt8)) :
    (readPages bf f).bytes = bf.bytes ++ f.flatten := by
  induction f generalizing bf with
  | nil => exact (List.append_nil _).symm
  | cons tmp f ih =>
    have hr : readPages bf (tmp :: f) = readPages (bf.append tmp).1 f := rfl
    rw [hr, ih, Pbuf.bytes_append, List.flatten_cons, List.append_assoc]

theorem readZfile_eq (f : List (List UInt8)) :
    zf.readZfile (some f) = (ofZdata f.flatten, true) := by
  have hb : readPages .init f = (Pbuf.init.append f.flatten).1 :=
    Pbuf.ext_bytes (by rw [bytes_readPages, Pbuf.bytes_append])
  exact congrArg (fun b => ((⟨.init, b⟩ : Zfile), true)) hb

end Zfile

end CodeSLoop
