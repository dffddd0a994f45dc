import PacketLayout.Text.Quoted

/-!
# Diagnostics

What can be wrong with a schema. A defect is either of a single field, visible without its
neighbours, or of the layout, visible only once all fields are placed. A diagnostic attributes a
defect to a field; a field inside a union alternate is named by a dotted path.
-/

namespace PacketLayout

/-- A defect of one field. -/
inductive FieldDefect where
  /-- the type has no size of its own and the field gives none -/
  | ambiguousSize (typeName : String)
  /-- the bit width is zero or wider than the type -/
  | invalidBitWidth (width max : Nat)
  /-- bits of something that is no integer -/
  | bitFieldType (typeName : String)
  /-- a fixed-width value was given another number of bytes -/
  | scalarSizeMismatch (typeName : String) (expected actual : Nat)
  /-- a fixed-width value was given a size that only the buffer knows -/
  | dynamicScalar (typeName : String)
  /-- the rest of the buffer was asked for something other than bytes -/
  | remainderType (typeName : String)
  /-- the integer asked for is wider than the enumeration's own -/
  | enumBackingTooWide (requested natural : String)
  /-- another integer was asked for something that is no enumeration -/
  | enumBackingOnNonEnum (typeName : String)
  | unionAccessibility
  | unionBitField
  /-- a union anchor without alternates -/
  | emptyUnion
  /-- a name that is empty or stands twice in one list -/
  | invalidFieldName
  /-- a name that the registry does not know -/
  | unknownCapability (kind name : String)
  deriving DecidableEq, Repr

/-- The sentence for a defect of a field. -/
def FieldDefect.message : FieldDefect → String
  | .ambiguousSize typeName =>
    s!"type `{typeName}` has no intrinsic size and no explicit size"
  | .invalidBitWidth width max => s!"bit width {width} is outside 1..={max}"
  | .bitFieldType typeName =>
    s!"bit-fields require an integer or enum type, found `{typeName}`"
  | .scalarSizeMismatch typeName expected actual =>
    s!"`{typeName}` is {expected} bytes wide but the field is sized {actual}"
  | .dynamicScalar typeName => s!"`{typeName}` needs a fixed size"
  | .remainderType typeName =>
    s!"remainder size requires a byte range type, found `{typeName}`"
  | .enumBackingTooWide requested natural =>
    s!"enum backing `{requested}` is wider than the natural `{natural}`"
  | .enumBackingOnNonEnum typeName =>
    s!"enum backing override on non-enum type `{typeName}`"
  | .unionAccessibility => "union anchors do not carry accessibility"
  | .unionBitField => "union anchors cannot be bit-fields"
  | .emptyUnion => "union anchor declares no alternates"
  | .invalidFieldName => "field name is empty or duplicated"
  | .unknownCapability kind name => s!"unknown {kind} `{name}`"

/-- A defect of the layout as a whole. -/
inductive LayoutDefect where
  /-- a field takes the rest of the buffer and others follow -/
  | remainderNotLast
  /-- the rest of the buffer was asked for together with a size -/
  | conflictingRemainder
  /-- siblings need more bits than their unit has -/
  | bitOverflow (fields : List String) (bits capacity : Nat)
  /-- an explicit position differs from the one that the fields before imply -/
  | positionMismatch (expected actual : Nat)
  /-- an alternate does not fit into its anchor -/
  | alternateTooLarge (alternate : String) (required available : Nat)
  deriving DecidableEq, Repr

/-- The sentence for a defect of the layout. -/
def LayoutDefect.message : LayoutDefect → String
  | .remainderNotLast => "remainder field is not the last field"
  | .conflictingRemainder => "remainder field conflicts with an explicit size"
  | .bitOverflow fields bits capacity =>
    let shown := Text.quoteList fields
    s!"bit-fields {shown} need {bits} bits but the unit holds {capacity}"
  | .positionMismatch expected actual =>
    s!"explicit position {actual} disagrees with sequential position {expected}"
  | .alternateTooLarge alternate required available =>
    s!"alternate `{alternate}` needs {required} bytes but the anchor holds {available}"

/-- Something wrong with a schema. -/
inductive Defect where
  | field (defect : FieldDefect)
  | layout (defect : LayoutDefect)
  deriving DecidableEq, Repr

namespace Defect

/-- The sentence for a defect. -/
def message : Defect → String
  | field defect => defect.message
  | layout defect => defect.message

/-- Whether the defect is of the layout. -/
def isLayout : Defect → Bool
  | field _ => false
  | layout _ => true

end Defect

/-- A defect and the field it belongs to. -/
structure Diagnostic where
  /-- name of the field, with the anchors and alternates around it -/
  field : String
  defect : Defect
  deriving DecidableEq, Repr

namespace Diagnostic

/-- A defect of the field itself. -/
def ofField (field : String) (defect : FieldDefect) : Diagnostic := ⟨field, .field defect⟩

/-- A defect of the layout that shows at the field. -/
def ofLayout (field : String) (defect : LayoutDefect) : Diagnostic := ⟨field, .layout defect⟩

/-- The diagnostic as seen from outside of `path`. -/
def nested (path : String) (diagnostic : Diagnostic) : Diagnostic :=
  { diagnostic with field := path ++ "." ++ diagnostic.field }

/-- A diagnostic in one line. -/
def message (diagnostic : Diagnostic) : String :=
  diagnostic.field ++ ": " ++ diagnostic.defect.message

end Diagnostic

/-- Everything found wrong with one schema. -/
structure ResolveError where
  schema : String
  diagnostics : List Diagnostic
  deriving DecidableEq, Repr

namespace ResolveError

/-- A failed resolution in one line. -/
def message (error : ResolveError) : String :=
  let count := error.diagnostics.length
  s!"schema `{error.schema}` failed to resolve with {count} diagnostic(s)"

/-- The fields with defects, in order of report. -/
def fields (error : ResolveError) : List String := error.diagnostics.map (·.field)

/-- Whether a defect of the layout was found. -/
def hasLayoutDefect (error : ResolveError) : Bool := error.diagnostics.any (·.defect.isLayout)

/-- Whether a defect of a single field was found. -/
def hasFieldDefect (error : ResolveError) : Bool := error.diagnostics.any (!·.defect.isLayout)

end ResolveError

end PacketLayout
