import PacketLayout.Layout.Event
import PacketLayout.Layout.Placement

/-!
# Checks of a whole layout

What can be said only once every field has its place: whether explicit positions agree with the
fields before them, whether a field that takes the rest of the buffer is the last one, whether the
units hold their bit-fields, and how long a packet is.

Only fields with a shape take part; the others have been reported already.
-/

namespace PacketLayout

/-- A laid out field, with what the checks want to know about the way there. -/
structure Entry where
  field : PlannedField
  /-- the offset that the fields before imply, where it is known -/
  predicted : Option Expr
  /-- no field follows in the schema -/
  isLast : Bool

/-! ## Positions -/

/-- The offset implied for a field and its explicit position, where the two differ. -/
def Entry.mismatch? (entry : Entry) : Option (Nat × Nat) :=
  match entry.field.layout.position, entry.predicted.bind (·.static?) with
  | .literal actual, some expected => if expected = actual then none else some (expected, actual)
  | _, _ => none

/-- The diagnostic for an explicit position that differs from the implied one. -/
def Entry.mismatchDiagnostic? (entry : Entry) : Option Diagnostic :=
  entry.mismatch?.map fun (expected, actual) =>
    .ofLayout entry.field.name (.positionMismatch expected actual)

/-- What checking the position of a field has to tell. -/
def Entry.positionEvent? (policy : MismatchPolicy) (entry : Entry) : Option Event :=
  match entry.field.layout.position, entry.predicted.bind (·.static?), policy with
  | .literal _, none, _ => some (.literalAccepted entry.field.name)
  | .literal actual, some expected, .warn =>
    if expected = actual then none
    else some (.positionOverridden entry.field.name expected actual)
  | _, _, _ => none

/-! ## The rest of the buffer -/

/-- A field takes the rest of the buffer, and others follow. -/
def Entry.remainderDiagnostic? (entry : Entry) : Option Diagnostic :=
  if entry.field.size.isRemainder && !entry.isLast then
    some (.ofLayout entry.field.name .remainderNotLast)
  else none

/-! ## Units -/

/-- The bit-fields of one unit. -/
def unitMembers (fields : List PlannedField) (group : Nat) : List (PlannedField × BitSlot) :=
  fields.filterMap fun field =>
    match field.slot? with
    | some slot => if slot.group = group then some (field, slot) else none
    | none => none

/-- The members of a unit have more bits than the unit; the last of them is to blame. -/
def overflowDiagnostic? (members : List (PlannedField × BitSlot)) : Option Diagnostic :=
  match members.head?, members.getLast? with
  | some (_, first), some (last, _) =>
    let bits := members.foldl (fun bits member => bits + member.2.width) 0
    let capacity := 8 * first.unit
    if bits ≤ capacity then none
    else some (.ofLayout last.name (.bitOverflow (members.map (·.1.name)) bits capacity))
  | _, _ => none

/-- The diagnostics for units, given how many there are. -/
def unitDiagnostics (fields : List PlannedField) (units : Nat) : List Diagnostic :=
  (List.range units).filterMap fun group => overflowDiagnostic? (unitMembers fields group)

/-! ## Sizes -/

/-- The fields that count towards the size of a packet: of the bit-fields of a unit only the first.
The units in `seen` have been counted. -/
def countedFrom (seen : List Nat) : List PlannedField → List PlannedField
  | [] => []
  | field :: fields =>
    match field.slot? with
    | none => field :: countedFrom seen fields
    | some slot =>
      if slot.group ∈ seen then countedFrom seen fields
      else field :: countedFrom (slot.group :: seen) fields

/-- The fields that count towards the size of a packet. -/
def counted (fields : List PlannedField) : List PlannedField := countedFrom [] fields

/-- The size of a packet. -/
def totalSize (fields : List PlannedField) : Expr :=
  (counted fields).foldl (fun total field => total.plus field.sizeExpr) .zero

/-- The sum of all sizes known in advance. -/
def knownSum (fields : List PlannedField) : Nat :=
  (counted fields).foldl (fun sum field => sum + field.extent?.getD 0) 0

/-- Where a field ends on every buffer, if that is known. -/
def PlannedField.staticEnd? (field : PlannedField) : Option Nat :=
  match field.offset.static?, field.extent? with
  | some offset, some extent => some (offset + extent)
  | _, _ => none

/-- The furthest end that is known in advance. -/
def furthestEnd (fields : List PlannedField) : Nat :=
  (fields.filterMap (·.staticEnd?)).foldl max 0

/-- The length below which a buffer cannot hold the fields. -/
def minimumSize (fields : List PlannedField) : Nat :=
  max (knownSum fields) (furthestEnd fields)

end PacketLayout
