import PacketLayout.Text.Hex

/-!
# Host capabilities

Sizes, positions and composite types that the layout cannot know by itself are supplied from
outside. A capability is a behaviour together with the name by which definitions, plans and texts
refer to it.

* A `SizeFunction` computes a length from the buffer.
* A `PositionFunction` computes an offset from the buffer and the offset that the fields before
  imply.
* A `Composite` is a type built over a range of bytes and copied back into one by its `Codec`.

Behaviours are pure functions of the buffer.
-/

namespace PacketLayout

/-- Computes the length of a field from the buffer. -/
structure SizeFunction where
  name : String
  run : Bytes → Nat

/-- Computes the offset of a field from the buffer and the offset it would have by default. -/
structure PositionFunction where
  name : String
  run : Bytes → Nat → Nat

/-- Copy `value` over `destination`, when both have the same length. -/
def copyExact (value destination : Bytes) : Option Bytes :=
  if value.length = destination.length then some value else none

theorem length_copyExact {value destination result : Bytes}
    (h : copyExact value destination = some result) : result.length = destination.length := by
  unfold copyExact at h
  split at h
  · rename_i hlen
    exact Option.some.inj h ▸ hlen
  · contradiction

/-- How a composite type reads and writes its bytes. A codec says only its static size, if it has
one; the rest are rules for codecs without special needs. -/
structure Codec where
  /-- the size that every value of the type has -/
  staticSize : Option Nat
  /-- accept a range, and pick the bytes that the value views -/
  construct : Bytes → Option Bytes := some
  /-- the destination after a value is copied into it, or nothing when the value is refused -/
  copyInto : (value destination : Bytes) → Option Bytes := copyExact
  /-- a value in a summary -/
  format : Bytes → String := Hex.ofBytes ":"
  /-- a copy stays inside its destination -/
  length_copyInto : ∀ value destination result : Bytes,
      copyInto value destination = some result → result.length = destination.length := by
    exact fun _ _ _ h => length_copyExact h

/-- A named composite type. -/
structure Composite where
  name : String
  codec : Codec

namespace Codec

/-- A plain array of bytes, such as a hardware address: of one size, or of the size of its field. -/
def byteArray (size : Option Nat) : Codec where
  staticSize := size
  construct data :=
    match size with
    | some size => if size = data.length then some data else none
    | none => some data

end Codec

end PacketLayout
