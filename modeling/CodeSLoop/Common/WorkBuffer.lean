import CodeSLoop.Lib.Run
import CodeSLoop.Common.Tbuf

/-!
# `limited_work_buffer` and `rdbuf` (`common/limited_work_buffer.hh`, `common/rdbuf.hh`)

A byte queue over a `tbuf`: the bytes not yet taken are the `len_` bytes from `start_` on.
`reserve` makes room after them and hands out the room as a *part* (a pointer and a length),
`adjust` gives back what the caller did not fill, `get` hands out bytes from the front.

The two classes are the same code over two copies of the same result type
(`work_buffer_part`, `read_res`). They differ in one place: built for its tests
(`RDBUF_ASSERT_TESTING`), `rdbuf::adjust` checks its arguments with assertions that throw.

Sizes are 64-bit and their sums wrap, as they do in the source.
-/

namespace CodeSLoop

open Memory

/-- `work_buffer_part`, and `read_res`. -/
structure Part where
  data : UInt64
  bytes : UInt64
  timedOut : Bool
  failed : Bool
deriving DecidableEq, Repr

/-- A part after `reset()`. -/
def Part.reset : Part := ⟨0, 0, false, false⟩

/-- The members of both classes. -/
structure WorkBuffer (Preallocated MaxSize : UInt64) where
  buf : Tbuf Preallocated
  start : UInt64
  len : UInt64

namespace WorkBuffer

variable {Preallocated MaxSize : UInt64}

/-- The constructor. -/
def init (area : Block) (h : area.bytes.length = Preallocated.toNat) :
    WorkBuffer Preallocated MaxSize where
  buf := Tbuf.init area h
  start := 0
  len := 0

/-- `n_free()`. -/
def nFree (w : WorkBuffer Preallocated MaxSize) : UInt64 := MaxSize - w.len - w.start

/-- Hands out up to `sz` bytes from the front. -/
def get (w : WorkBuffer Preallocated MaxSize) (sz : UInt64) :
    WorkBuffer Preallocated MaxSize × Part :=
  if sz = 0 then (w, { Part.reset with failed := true })
  else if 0 < w.len then
    let retSize := if w.len > sz then sz else w.len
    let rr := { Part.reset with data := w.buf.data + w.start, bytes := retSize }
    let start := w.start + retSize
    let len := w.len - retSize
    ({ w with start := if len = 0 then 0 else start, len := len }, rr)
  else (w, Part.reset)

/-- Makes room for `sz` bytes behind the stored ones, or for as many as `MaxSize` allows. -/
def reserve (w : WorkBuffer Preallocated MaxSize) (m : Malloc) (sz : UInt64) :
    WorkBuffer Preallocated MaxSize × Part :=
  let newLen := w.start + w.len + sz
  if newLen > MaxSize then
    if w.start + w.len < MaxSize then
      let (buf, ptr) := w.buf.allocate m MaxSize
      ({ buf, start := w.start, len := MaxSize - w.start },
        { Part.reset with data := ptr + w.start + w.len, bytes := w.nFree })
    else (w, { Part.reset with failed := true })
  else if sz = 0 then (w, Part.reset)
  else
    -- the request leaves `start_` out
    let (buf, ptr) := w.buf.allocate m (w.len + sz)
    ({ buf, start := w.start, len := w.len + sz },
      { Part.reset with data := ptr + w.start + w.len, bytes := sz })

/-- Keeps the first `nSucceed` bytes of the last reserved part and gives back the rest. A part
    that is not the last reserved one, as far as can be told, is ignored. -/
def adjust (w : WorkBuffer Preallocated MaxSize) (m : Malloc) (rr : Part) (nSucceed : UInt64) :
    WorkBuffer Preallocated MaxSize × Part :=
  let startOffset := rr.data - w.buf.data
  if rr.bytes < nSucceed ∨ rr.data = 0 ∨ rr.failed = true ∨ w.len < rr.bytes ∨
      startOffset ≠ w.start + w.len - rr.bytes then (w, rr)
  else
    let adjustLen := rr.bytes - nSucceed
    let rr := { rr with bytes := nSucceed, data := if nSucceed = 0 then 0 else rr.data }
    let len := w.len - adjustLen
    if len = 0 then
      ({ buf := (w.buf.allocate m 0).1, start := 0, len := len }, rr)
    else if 0 < adjustLen then
      let (buf, p) := w.buf.allocate m (len + w.start)
      ({ buf, start := w.start, len := len },
        if 0 < nSucceed then { rr with data := p + startOffset } else rr)
    else ({ w with len := len }, rr)

/-- The calls of both classes, on any sizes and on any part. -/
inductive Op
  | get (sz : UInt64) | reserve (sz : UInt64) | adjust (rr : Part) (nSucceed : UInt64)
deriving DecidableEq, Repr

/-- What a trace records of a call: the call, the allocator it met, the part it answered. -/
structure Event where
  op : Op
  malloc : Malloc
  part : Part

/-- The trace of the given calls, made one after the other. -/
def replay
    (exec : WorkBuffer Preallocated MaxSize → Malloc → Op → WorkBuffer Preallocated MaxSize × Part)
    (w : WorkBuffer Preallocated MaxSize) :
    List (Op × Malloc) → List (Event × WorkBuffer Preallocated MaxSize)
  | [] => []
  | (op, m) :: ops =>
    (⟨op, m, (exec w m op).2⟩, (exec w m op).1) :: replay exec (exec w m op).1 ops

theorem run_replay
    (exec : WorkBuffer Preallocated MaxSize → Malloc → Op → WorkBuffer Preallocated MaxSize × Part)
    (ops : List (Op × Malloc)) : ∀ {w : WorkBuffer Preallocated MaxSize},
    Lts.Run (fun w (a : Event) w' => exec w a.malloc a.op = (w', a.part)) w
      (replay exec w ops) := by
  induction ops with
  | nil => exact .nil _
  | cons a ops ih => exact .cons rfl ih

end WorkBuffer

namespace LimitedWorkBuffer

variable {Preallocated MaxSize : UInt64}

def get (w : WorkBuffer Preallocated MaxSize) (sz : UInt64) := w.get sz

def reserve (w : WorkBuffer Preallocated MaxSize) (m : Malloc) (sz : UInt64) := w.reserve m sz

def adjust (w : WorkBuffer Preallocated MaxSize) (m : Malloc) (rr : Part) (nSucceed : UInt64) :=
  w.adjust m rr nSucceed

/-- One call. -/
def exec (w : WorkBuffer Preallocated MaxSize) (m : Malloc) :
    WorkBuffer.Op → WorkBuffer Preallocated MaxSize × Part
  | .get sz => get w sz
  | .reserve sz => reserve w m sz
  | .adjust rr n => adjust w m rr n

def Step (w : WorkBuffer Preallocated MaxSize) (a : WorkBuffer.Event)
    (w' : WorkBuffer Preallocated MaxSize) : Prop :=
  exec w a.malloc a.op = (w', a.part)

end LimitedWorkBuffer

namespace Rdbuf

variable {Preallocated MaxSize : UInt64}

def get (w : WorkBuffer Preallocated MaxSize) (sz : UInt64) := w.get sz

def reserve (w : WorkBuffer Preallocated MaxSize) (m : Malloc) (sz : UInt64) := w.reserve m sz

/-- The six assertions of `rdbuf::adjust`. -/
def Asserted (w : WorkBuffer Preallocated MaxSize) (rr : Part) (nSucceed : UInt64) : Prop :=
  nSucceed ≤ rr.bytes ∧ rr.data ≠ 0 ∧ rr.data - w.buf.data = w.start + w.len - rr.bytes ∧
    rr.bytes ≤ w.len ∧ rr.failed = false ∧ rr.timedOut = false

instance (w : WorkBuffer Preallocated MaxSize) (rr : Part) (n : UInt64) :
    Decidable (Asserted w rr n) := by
  unfold Asserted; infer_instance

/-- `adjust`, with the assertions that throw (`assertTesting`) or without. A failed assertion
    ends the call with `exc::rs_assert`, or gives the part back when exceptions are off;
    either way neither the buffer nor the part has been touched. -/
def adjust (assertTesting : Bool) (w : WorkBuffer Preallocated MaxSize) (m : Malloc) (rr : Part)
    (nSucceed : UInt64) : WorkBuffer Preallocated MaxSize × Part :=
  if assertTesting = true ∧ ¬ Asserted w rr nSucceed then (w, rr) else w.adjust m rr nSucceed

/-- One call. -/
def exec (assertTesting : Bool) (w : WorkBuffer Preallocated MaxSize) (m : Malloc) :
    WorkBuffer.Op → WorkBuffer Preallocated MaxSize × Part
  | .get sz => get w sz
  | .reserve sz => reserve w m sz
  | .adjust rr n => adjust assertTesting w m rr n

def Step (assertTesting : Bool) (w : WorkBuffer Preallocated MaxSize) (a : WorkBuffer.Event)
    (w' : WorkBuffer Preallocated MaxSize) : Prop :=
  exec assertTesting w a.malloc a.op = (w', a.part)

/-- Without the test build's assertions, `rdbuf` is `limited_work_buffer`; with them a call
    is either that or an `adjust` that does nothing. -/
theorem exec_cases (assertTesting : Bool) (w : WorkBuffer Preallocated MaxSize) (m : Malloc)
    (op : WorkBuffer.Op) :
    exec assertTesting w m op = LimitedWorkBuffer.exec w m op ∨
      ∃ rr n, op = .adjust rr n ∧ exec assertTesting w m op = (w, rr) := by
  cases op with
  | get | reserve => exact .inl rfl
  | adjust rr n =>
    by_cases h : assertTesting = true ∧ ¬ Asserted w rr n
    · exact .inr ⟨rr, n, rfl, if_pos h⟩
    · exact .inl (if_neg h)

end Rdbuf

end CodeSLoop
