/-
Where a field lies in the bytes of a buffer. The lowest bit has a byte
and a position in it; every byte the field touches contributes the bits
its mask selects, which move by a fixed distance between the byte and the
value of the field.
-/
import RegisterMap.Code.Type
import RegisterMap.Register.Field

namespace RegisterMap.Peripheral

open Code

/-- Type of the values of a field, the narrowest that holds them. -/
def storageType (f : Field) : Except Failure TypeRef := do
  let width ← f.width
  if width ≤ 1 then return .bool
  if width ≤ 8 then return .byte
  if width ≤ 16 then return .ushort
  if width ≤ 32 then return .uint
  if width ≤ 64 then return .ulong
  throw (.refused (.fieldTooWide f.name width))

/-- Position of a field relative to the bytes of its buffer. -/
structure Layout where
  width : Nat
  /-- Index of the byte that holds the lowest bit. -/
  firstByte : Nat
  /-- Position of the lowest bit in that byte. -/
  shift : Nat
  /-- Number of bytes the field touches. -/
  bytes : Nat
  deriving DecidableEq, Repr

namespace Layout

def ofField (f : Field) : Except Failure Layout := do
  let width ← f.width
  let shift := f.low % 8
  let reach ← Word.add positionBits shift width
  return { width, firstByte := f.low / 8, shift, bytes := Word.bytesFor reach }

/-- As many ones as the field has bits, at most those of a `ulong`. -/
def valueMask (l : Layout) : Nat := Word.ones (min l.width 64)

/-- The bits of byte `i`, counted from the first one, that belong to the
field. -/
def byteMask (l : Layout) (i : Nat) : Nat := Word.byteAt (l.valueMask <<< l.shift) i

/-- How far the bits of byte `i` move: to the right out of the first byte
and to the left out of every other one. -/
def byteShift (l : Layout) (i : Nat) : Nat :=
  if i = 0 then l.shift else (i - 1) * 8 + (8 - l.shift)

theorem byteMask_lt (l : Layout) (i : Nat) : l.byteMask i < 256 := Nat.mod_lt _ (by decide)

end Layout

end RegisterMap.Peripheral
