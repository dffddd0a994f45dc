import PacketLayout.Wire.Bytes

/-!
# Integer kinds

The eight built-in integers of a packet. On the wire they are big-endian.
-/

namespace PacketLayout

/-- An integer of one, two, four or eight bytes, with or without a sign. -/
inductive IntKind where
  | u8
  | i8
  | u16
  | i16
  | u32
  | i32
  | u64
  | i64
  deriving DecidableEq, Repr

namespace IntKind

/-- Every kind, in order of width. -/
def all : List IntKind := [.u8, .i8, .u16, .i16, .u32, .i32, .u64, .i64]

/-- The width in bytes. -/
def width : IntKind → Nat
  | .u8 | .i8 => 1
  | .u16 | .i16 => 2
  | .u32 | .i32 => 4
  | .u64 | .i64 => 8

/-- The width in bits. -/
def bits (kind : IntKind) : Nat := 8 * kind.width

/-- Whether the integer has a sign. -/
def isSigned : IntKind → Bool
  | .i8 | .i16 | .i32 | .i64 => true
  | .u8 | .u16 | .u32 | .u64 => false

/-- The name by which definitions and texts refer to the kind. -/
def name : IntKind → String
  | .u8 => "u8"
  | .i8 => "i8"
  | .u16 => "u16"
  | .i16 => "i16"
  | .u32 => "u32"
  | .i32 => "i32"
  | .u64 => "u64"
  | .i64 => "i64"

/-- The kind of a name. -/
def ofName? (name : String) : Option IntKind :=
  all.find? (·.name = name)

/-- The largest bit pattern of the kind, read without a sign. -/
def maxRaw (kind : IntKind) : UInt64 := UInt64.ofNat ((1 <<< kind.bits) - 1)

theorem mem_all (kind : IntKind) : kind ∈ all := by
  cases kind <;> decide

theorem ofName?_name (kind : IntKind) : ofName? kind.name = some kind := by
  cases kind <;> decide

theorem width_pos (kind : IntKind) : 0 < kind.width := by
  cases kind <;> decide

theorem width_le (kind : IntKind) : kind.width ≤ 8 := by
  cases kind <;> decide

end IntKind

end PacketLayout
