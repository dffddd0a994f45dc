import PacketLayout.Schema.Basic

/-!
# Schema definitions

A definition describes a schema as plain data. It refers to enumerations, composites, position and
size functions by name; a registry gives the names their meaning (`PacketLayout.Definition.Lookup`),
and a definition can be read from and written as JSON (`PacketLayout.Definition.Json`).

Numbers have the range that the written form allows: offsets and sizes are 64-bit words, bit widths
are bytes.
-/

namespace PacketLayout

/-- What a field definition says besides its name and type. -/
structure FieldOptions where
  docLines : List String := []
  accessibility : Option Accessibility := none
  readOnly : Bool := false
  /-- an explicit offset -/
  position : Option UInt64 := none
  /-- a position function, which counts more than an explicit offset -/
  positionFunction : Option String := none
  size : Option UInt64 := none
  sizeFunction : Option String := none
  bits : Option UInt8 := none
  remainder : Bool := false
  enumBacking : Option IntKind := none
  deriving DecidableEq

mutual

/-- The definition of a field. -/
inductive FieldDefinition where
  | mk (name : String) (type : TypeDefinition) (options : FieldOptions)

/-- The declared type of a field. -/
inductive TypeDefinition where
  | integer (kind : IntKind)
  /-- an enumeration of the definition or the registry -/
  | enumeration (name : String)
  /-- a composite of the registry -/
  | composite (name : String)
  | bytes
  | byteArray (length : UInt64)
  /-- a union anchor -/
  | union (alternates : List AlternateDefinition)

/-- One interpretation of a union anchor. -/
inductive AlternateDefinition where
  | mk (name : String) (fields : List FieldDefinition)

end

/-- The definition of a schema. -/
structure Definition where
  name : String
  readOnly : Bool := false
  /-- enumerations of the definition itself; they hide those of the registry -/
  enumerations : List Enumeration := []
  fields : List FieldDefinition
  /-- the policy for mismatches, when the definition has settings -/
  policy? : Option MismatchPolicy := none

/-- The policy a definition is resolved with: that of its settings, or else to refuse mismatches. -/
def Definition.policy (definition : Definition) : MismatchPolicy := definition.policy?.getD .error

end PacketLayout
