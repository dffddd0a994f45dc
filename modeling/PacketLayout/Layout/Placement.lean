import PacketLayout.Layout.Size

/-!
# Placement

Where each field of a list starts. Fields are placed in order of declaration by a `Frontier`, which
knows where the next sequential field would start and which unit of bit-fields is still open.

* A bit-field that follows an open unit joins it; every other field closes the unit.
* A unit is closed too once its bits are used up. It is as wide as the widest integer among its
  members, so their slots are settled only when all fields are placed (`UnitMember.slot`).
* A field whose size is unknown leaves the offset after it unknown, until a field with an explicit
  position sets a new start.

All sums are exact here. Whether they are 64-bit numbers is a question to the finished layout.
-/

namespace PacketLayout

/-- What placing a field takes: its declaration, and its size if it has one. -/
structure Sized where
  decl : Declaration
  size : Option Size

namespace Sized

/-- The bits of a bit-field. -/
def bitWidth? (field : Sized) : Option Nat := field.size.bind (·.bitWidth?)

/-- The width of the integer behind the field, which its unit must have at least. -/
def typeWidth (field : Sized) : Nat := (field.decl.kind?.map (·.width)).getD 1

end Sized

/-- A bit-field inside its unit, before the unit has its final width. -/
structure UnitMember where
  /-- index of the unit -/
  group : Nat
  /-- bits of the members before -/
  start : Nat
  /-- bits of the member itself -/
  width : Nat
  /-- width in bytes of the integer behind the member -/
  typeWidth : Nat
  deriving DecidableEq, Repr

/-- The slot of a member in a unit of `unit` bytes; the first member has the highest bits. -/
def UnitMember.slot (member : UnitMember) (unit : Nat) : BitSlot where
  unit := unit
  shift := 8 * unit - (member.start + member.width)
  width := member.width
  group := member.group

/-- Where a field was placed. -/
structure Placement where
  /-- the offset that the fields before imply, where it is known -/
  predicted : Option Expr
  offset : Expr
  member : Option UnitMember

/-- A unit of bit-fields that may take further members. -/
structure OpenUnit where
  group : Nat
  offset : Expr
  /-- bits of its members -/
  used : Nat
  /-- width in bytes of the widest integer among its members -/
  width : Nat
  /-- whether the unit sits at a known offset -/
  anchored : Bool

/-- Whether no bit of the unit is left. -/
def OpenUnit.isFull (unit : OpenUnit) : Bool := 8 * unit.width ≤ unit.used

/-- The state between two fields. -/
structure Frontier where
  /-- where a sequential field would start, if that is known and no unit is open -/
  next : Option Expr
  unit : Option OpenUnit
  /-- number of units opened so far -/
  units : Nat

/-- The default that a position starts from, put into effect. -/
def Position.offset (position : Position) (default : Expr) : Expr :=
  match position with
  | sequential => default
  | literal offset => .literal offset
  | computed function => .ofTerm (.position function default)

namespace Frontier

/-- Before the first field. -/
def initial : Frontier := ⟨some .zero, none, 0⟩

/-- Close the open unit, if there is one, and go on after it. -/
def close (frontier : Frontier) : Frontier :=
  match frontier.unit with
  | none => frontier
  | some unit =>
    { frontier with
      next := if unit.anchored then some (unit.offset.plusConstant unit.width) else none
      unit := none }

/-- Close the open unit if it is full. -/
def closeIfFull (frontier : Frontier) : Frontier :=
  match frontier.unit with
  | none => frontier
  | some unit => if unit.isFull then frontier.close else frontier

/-- Add `width` bits of an integer of `typeWidth` bytes to an open unit. -/
def join (frontier : Frontier) (unit : OpenUnit) (typeWidth width : Nat) : Placement × Frontier :=
  let placement :=
    { predicted := if unit.anchored then some unit.offset else none
      offset := unit.offset
      member := some ⟨unit.group, unit.used, width, typeWidth⟩ }
  let unit := { unit with used := unit.used + width, width := max unit.width typeWidth }
  (placement, { frontier with unit := some unit }.closeIfFull)

/-- Place a field behind all that is placed already, with no unit open. -/
def start (frontier : Frontier) (field : Sized) : Placement × Frontier :=
  let anchored := frontier.next.isSome || !field.decl.position.isSequential
  let offset := field.decl.position.offset (frontier.next.getD .zero)
  match field.bitWidth? with
  | some width =>
    let unit := ⟨frontier.units, offset, width, field.typeWidth, anchored⟩
    (⟨frontier.next, offset, some ⟨frontier.units, 0, width, field.typeWidth⟩⟩,
      { next := none, unit := some unit, units := frontier.units + 1 : Frontier }.closeIfFull)
  | none =>
    let stop := field.size.map fun size => offset.plus (size.expr field.decl.name offset none)
    (⟨frontier.next, offset, none⟩, { frontier with next := if anchored then stop else none })

/-- Place the next field. -/
def place (frontier : Frontier) (field : Sized) : Placement × Frontier :=
  match frontier.unit, field.bitWidth?, field.decl.position with
  | some unit, some width, .sequential => frontier.join unit field.typeWidth width
  | _, _, _ => frontier.close.start field

/-- Place fields in order. -/
def placeAll (frontier : Frontier) : List Sized → List Placement
  | [] => []
  | field :: fields =>
    let (placement, frontier) := frontier.place field
    placement :: frontier.placeAll fields

end Frontier

/-- The members of a unit in order. -/
def membersOf (placements : List Placement) (group : Nat) : List UnitMember :=
  (placements.filterMap (·.member)).filter (·.group = group)

/-- The width in bytes of a unit: that of the widest integer among its members. -/
def unitWidth (placements : List Placement) (group : Nat) : Nat :=
  (membersOf placements group).foldl (fun width member => max width member.typeWidth) 0

end PacketLayout
