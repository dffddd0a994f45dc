import PacketLayout.Wire.Bytes

/-!
# Bits of a shared unit

A bit-field is a run of bits inside a unit of bytes that it shares with its siblings. The unit is
read as one big-endian word; the first bit-field of a unit has its highest bits.

* `BitSlot.extract` and `BitSlot.insert` read and write the bits of a slot in a word.
* A slot that does not lie inside a word makes them fault on the shift.
-/

namespace PacketLayout

/-- The word with the low `width` bits set, or all bits from 64 on. -/
def lowMask (width : Nat) : UInt64 := UInt64.ofNat ((1 <<< min width 64) - 1)

/-- Where a bit-field lies in its unit. -/
structure BitSlot where
  /-- width of the shared unit in bytes -/
  unit : Nat
  /-- distance of the field's lowest bit from the lowest bit of the unit -/
  shift : Nat
  /-- width of the field in bits -/
  width : Nat
  /-- index of the unit among the units of its field list -/
  group : Nat
  deriving DecidableEq, Repr

namespace BitSlot

/-- The largest value of the field. -/
def mask (slot : BitSlot) : UInt64 := lowMask slot.width

/-- The bits of the field at their place in the unit. -/
def unitMask (slot : BitSlot) : Except Fault UInt64 :=
  if slot.shift < 64 then .ok (slot.mask <<< UInt64.ofNat slot.shift)
  else .error .shiftLeftOverflow

/-- The number of bits in the unit, as a 32-bit number. -/
def capacity (slot : BitSlot) : Except Fault Nat :=
  if slot.unit * 8 < wordLimit then .ok (slot.unit * 8 % UInt32.size) else .error .mulOverflow

/-- The value of the field in a unit. -/
def extract (slot : BitSlot) (word : UInt64) : Except Fault UInt64 :=
  if slot.shift < 64 then .ok ((word >>> UInt64.ofNat slot.shift) &&& slot.mask)
  else .error .shiftRightOverflow

/-- The unit with `value` in place of the field, or nothing when the value is too large. All other
bits stay as they are. -/
def insert (slot : BitSlot) (word value : UInt64) : Except Fault (Option UInt64) :=
  if slot.mask < value then .ok none
  else if slot.shift < 64 then
    let shift := UInt64.ofNat slot.shift
    .ok (some ((word &&& ~~~(slot.mask <<< shift)) ||| (value <<< shift)))
  else .error .shiftLeftOverflow

end BitSlot

end PacketLayout
