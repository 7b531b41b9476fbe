import Mathlib.Algebra.Order.BigOperators.Group.List
import Mathlib.Algebra.Order.Ring.Nat
/-!
# Blocks of memory

A *block* is one contiguous piece of storage: the address of its first byte and the bytes in
it. A block is never at address zero and never wraps around the top of the address space, so
that the address of a byte of a block is never null and determines the byte's offset.

Storage is only ever touched in two ways: some bytes are *spliced* in at an offset, or the
bytes at an offset are *read*. The lemmas say how the two meet: a read at the place of a
splice gives the spliced bytes, a read that ends before a splice does not see it.

`Malloc` is an allocator's side of its contract, as a function from the number of bytes asked
for: it may refuse, and a block it gives has exactly that many bytes, of any value.
-/

namespace Memory

/-- A contiguous piece of storage. -/
structure Block where
  addr : UInt64
  bytes : List UInt8
  addr_ne : addr ≠ 0
  fits : addr.toNat + bytes.length < 2 ^ 64
deriving DecidableEq

namespace Block

/-- The storage of `b` with `bs` written at offset `off`. -/
def splice (b : Block) (off : Nat) (bs : List UInt8) (h : off + bs.length ≤ b.bytes.length) :
    Block where
  addr := b.addr
  bytes := b.bytes.take off ++ bs ++ b.bytes.drop (off + bs.length)
  addr_ne := b.addr_ne
  fits := by
    have := b.fits
    simp only [List.length_append, List.length_take, List.length_drop]
    omega

/-- The `n` bytes at offset `off`. -/
def read (b : Block) (off n : Nat) : List UInt8 := (b.bytes.drop off).take n

variable {b : Block} {off o n m : Nat} {bs : List UInt8}

@[simp] theorem addr_splice (h : off + bs.length ≤ b.bytes.length) :
    (b.splice off bs h).addr = b.addr := rfl

@[simp] theorem length_splice (h : off + bs.length ≤ b.bytes.length) :
    (b.splice off bs h).bytes.length = b.bytes.length := by
  simp only [splice, List.length_append, List.length_take, List.length_drop]
  omega

@[simp] theorem read_zero : b.read off 0 = [] := by simp [read]

/-- Reading on where the last read ended. -/
theorem read_add : b.read off (n + m) = b.read off n ++ b.read (off + n) m := by
  simp only [read, List.take_add, List.drop_drop]

/-- A read at the place of a splice gives back what was spliced in. -/
theorem read_splice_self (h : off + bs.length ≤ b.bytes.length) :
    (b.splice off bs h).read off bs.length = bs := by
  have hlen : (b.bytes.take off).length = off := by
    rw [List.length_take]; omega
  simp only [read, splice, List.append_assoc]
  rw [List.drop_append_of_le_length (by omega), List.drop_of_length_le (by omega),
    List.nil_append, List.take_left]

/-- What lies before a splice is not changed by it. -/
theorem read_splice_before (h : off + bs.length ≤ b.bytes.length) (hb : o + n ≤ off) :
    (b.splice off bs h).read o n = b.read o n := by
  have hlen : (b.bytes.take off).length = off := by
    rw [List.length_take]; omega
  simp only [read, splice, List.append_assoc]
  rw [List.drop_append_of_le_length (by omega),
    List.take_append_of_le_length (by rw [List.length_drop]; omega), List.drop_take,
    List.take_take, Nat.min_eq_left (by omega)]

/-- Two blocks whose first `k` bytes agree give the same reads among these. -/
theorem read_congr {b' : Block} {k : Nat} (h : b'.bytes.take k = b.bytes.take k)
    (hk : off + n ≤ k) : b'.read off n = b.read off n := by
  have key : ∀ l : List UInt8, (l.drop off).take n = ((l.take k).drop off).take n := by
    intro l
    rw [List.drop_take, List.take_take, Nat.min_eq_left (by omega)]
  simp only [read]
  rw [key b'.bytes, key b.bytes, h]

end Block

/-- An allocator's answers. -/
structure Malloc where
  answer : UInt64 → Option Block
  length_eq : ∀ {n : UInt64} {b : Block}, answer n = some b → b.bytes.length = n.toNat

/-- An allocator with nothing to give. -/
def Malloc.fail : Malloc := ⟨fun _ => none, by simp⟩

/-- An allocator that has `room` bytes of the value `c` left, at address `addr`. -/
def Malloc.within (addr : UInt64) (room : Nat) (c : UInt8) (hne : addr ≠ 0)
    (hfit : addr.toNat + room < 2 ^ 64) : Malloc where
  answer n :=
    if h : n.toNat ≤ room then
      some ⟨addr, List.replicate n.toNat c, hne, by rw [List.length_replicate]; omega⟩
    else none
  length_eq := by
    intro n b h
    split at h
    · cases h; exact List.length_replicate ..
    · cases h

end Memory
