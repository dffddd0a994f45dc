import PacketLayout.Wire.Bytes

/-!
# Hexadecimal text

Bytes are written with two lower-case digits each, numbers with as many digits as they need.
-/

namespace PacketLayout.Hex

/-- The two digits of a byte. -/
def ofByte (byte : UInt8) : String :=
  String.ofList [Nat.digitChar (byte.toNat / 16), Nat.digitChar (byte.toNat % 16)]

/-- Every byte in turn, with `separator` between two of them. -/
def ofBytes (separator : String) (data : Bytes) : String :=
  separator.intercalate (data.map ofByte)

/-- A number in hexadecimal digits. -/
def ofNat (n : Nat) : String :=
  String.ofList (Nat.toDigits 16 n)

end PacketLayout.Hex
