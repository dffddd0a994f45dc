import PacketLayout.Schema.Capability
import PacketLayout.Schema.Enumeration

/-!
# Values

What a field holds in a concrete packet.
-/

namespace PacketLayout

/-- The value of a field. -/
inductive Value where
  | unsigned (value : UInt64)
  | signed (value : Int64)
  /-- a number, with its name if it has one -/
  | enumeration (raw : UInt64) (variant : Option String)
  /-- a range of bytes as it is -/
  | bytes (data : Bytes)
  /-- a host type, and the bytes that it views -/
  | composite (type : Composite) (data : Bytes)

namespace Value

/-- A number of an enumeration. -/
def ofEnumeration (type : Enumeration) (raw : UInt64) : Value := enumeration raw (type.nameOf? raw)

/-- The number without a sign, also of an enumeration. -/
def unsigned? : Value → Option UInt64
  | unsigned value => some value
  | enumeration raw _ => some raw
  | signed _ | bytes _ | composite .. => none

/-- The number with a sign. -/
def signed? : Value → Option Int64
  | signed value => some value
  | unsigned _ | enumeration .. | bytes _ | composite .. => none

/-- The bytes of a range or of a composite. -/
def bytes? : Value → Option Bytes
  | bytes data => some data
  | composite _ data => some data
  | unsigned _ | signed _ | enumeration .. => none

/-- The name of the number. -/
def variant? : Value → Option String
  | enumeration _ variant => variant
  | unsigned _ | signed _ | bytes _ | composite .. => none

/-- The value in a summary. -/
def text : Value → String
  | unsigned value => toString value.toNat
  | signed value => toString value.toInt
  | enumeration _ (some variant) => variant
  | enumeration raw none => toString raw.toNat
  | bytes data => s!"{data.length} bytes"
  | composite type data => type.codec.format data

end Value

end PacketLayout
