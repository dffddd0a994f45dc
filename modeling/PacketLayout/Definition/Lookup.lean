import PacketLayout.Definition.Basic
import PacketLayout.Layout.Resolution

/-!
# Looking up the names of a definition

A registry holds the capabilities and enumerations that definitions refer to by name. A definition
becomes a schema when every name is known; otherwise each unknown reference is reported at the
dotted path of the field that makes it, in the order of the definition.

* `Scope` is a registry together with the enumerations of the definition.
* `Scope.field` builds a field and `Scope.unknownInField` lists what it refers to in vain.
-/

namespace PacketLayout

/-- Capabilities and enumerations by name. The latest registration of a name counts. -/
structure Registry where
  positions : List PositionFunction := []
  sizes : List SizeFunction := []
  composites : List Composite := []
  enumerations : List Enumeration := []

namespace Registry

/-- Register a position function. -/
def addPosition (registry : Registry) (function : PositionFunction) : Registry :=
  { registry with positions := function :: registry.positions }

/-- Register a size function. -/
def addSize (registry : Registry) (function : SizeFunction) : Registry :=
  { registry with sizes := function :: registry.sizes }

/-- Register a composite type. -/
def addComposite (registry : Registry) (type : Composite) : Registry :=
  { registry with composites := type :: registry.composites }

/-- Register an enumeration. -/
def addEnumeration (registry : Registry) (type : Enumeration) : Registry :=
  { registry with enumerations := type :: registry.enumerations }

/-- The position function of a name. -/
def position? (registry : Registry) (name : String) : Option PositionFunction :=
  registry.positions.find? (·.name = name)

/-- The size function of a name. -/
def size? (registry : Registry) (name : String) : Option SizeFunction :=
  registry.sizes.find? (·.name = name)

/-- The composite type of a name. -/
def composite? (registry : Registry) (name : String) : Option Composite :=
  registry.composites.find? (·.name = name)

/-- The enumeration of a name. -/
def enumeration? (registry : Registry) (name : String) : Option Enumeration :=
  registry.enumerations.find? (·.name = name)

end Registry

/-- What the names in a definition can refer to. -/
structure Scope where
  registry : Registry
  /-- enumerations of the definition itself -/
  enumerations : List Enumeration

namespace Scope

/-- The enumeration of a name: the first of the definition, or else that of the registry. -/
def enumeration? (scope : Scope) (name : String) : Option Enumeration :=
  scope.enumerations.find? (·.name = name) <|> scope.registry.enumeration? name

/-! ## Unknown names -/

/-- A reference that leads nowhere. -/
def unknown (path kind name : String) : Diagnostic :=
  .ofField path (.unknownCapability kind name)

/-- The reference of a kind, if it leads nowhere. -/
def unknownIf {α : Type} (path kind : String) (find : String → Option α) (name : String) :
    List Diagnostic :=
  if (find name).isSome then [] else [unknown path kind name]

/-- The functions that a field refers to in vain. -/
def unknownFunctions (scope : Scope) (path : String) (options : FieldOptions) : List Diagnostic :=
  (options.positionFunction.toList.flatMap
    (unknownIf path "position function" scope.registry.position?)) ++
  options.sizeFunction.toList.flatMap (unknownIf path "size function" scope.registry.size?)

/-- The path of a field, or of an alternate, below another path. -/
def below (outer : Option String) (name : String) : String :=
  match outer with
  | some path => path ++ "." ++ name
  | none => name

mutual

/-- The references of a field that lead nowhere: first those of its type. -/
def unknownInField (scope : Scope) (outer : Option String) : FieldDefinition → List Diagnostic
  | .mk name type options =>
    let path := below outer name
    scope.unknownInType path type ++ scope.unknownFunctions path options

/-- The references of a type that lead nowhere. -/
def unknownInType (scope : Scope) (path : String) : TypeDefinition → List Diagnostic
  | .enumeration name => unknownIf path "enum" scope.enumeration? name
  | .composite name => unknownIf path "composite" scope.registry.composite? name
  | .union alternates => scope.unknownInAlternates path alternates
  | .integer _ | .bytes | .byteArray _ => []

/-- The references of an alternate that lead nowhere. -/
def unknownInAlternate (scope : Scope) (path : String) : AlternateDefinition → List Diagnostic
  | .mk name fields => scope.unknownInFields (some (below (some path) name)) fields

/-- The references of fields that lead nowhere. -/
def unknownInFields (scope : Scope) (outer : Option String) :
    List FieldDefinition → List Diagnostic
  | [] => []
  | field :: fields => scope.unknownInField outer field ++ scope.unknownInFields outer fields

/-- The references of alternates that lead nowhere. -/
def unknownInAlternates (scope : Scope) (path : String) :
    List AlternateDefinition → List Diagnostic
  | [] => []
  | alternate :: alternates =>
    scope.unknownInAlternate path alternate ++ scope.unknownInAlternates path alternates

end

/-! ## Building fields -/

/-- The position that the options of a field ask for. A function counts more than an offset. -/
def position (scope : Scope) (options : FieldOptions) : Position :=
  match options.positionFunction.bind scope.registry.position?, options.position with
  | some function, _ => .computed function
  | none, some offset => .literal offset.toNat
  | none, none => .sequential

/-- What a field of some type says about itself. -/
def declaration (scope : Scope) (name : String) (type : FieldType) (options : FieldOptions) :
    Declaration where
  name := name
  type := type
  docLines := options.docLines
  accessibility := options.accessibility
  readOnly := options.readOnly
  position := scope.position options
  size := options.size.map (·.toNat)
  sizeFunction := options.sizeFunction.bind scope.registry.size?
  bits := options.bits.map (·.toNat)
  remainder := options.remainder
  enumBacking := options.enumBacking

mutual

/-- The field of a definition. A type that is not known counts as plain bytes. -/
def field (scope : Scope) : FieldDefinition → Field
  | .mk name (.integer kind) options => .plain (scope.declaration name (.integer kind) options)
  | .mk name (.enumeration ref) options =>
    let type := ((scope.enumeration? ref).map FieldType.enumeration).getD .bytes
    .plain (scope.declaration name type options)
  | .mk name (.composite ref) options =>
    let type := ((scope.registry.composite? ref).map FieldType.composite).getD .bytes
    .plain (scope.declaration name type options)
  | .mk name .bytes options => .plain (scope.declaration name .bytes options)
  | .mk name (.byteArray length) options =>
    .plain (scope.declaration name (.byteArray length.toNat) options)
  | .mk name (.union alternates) options =>
    .anchor (scope.declaration name .bytes options) (scope.alternates alternates)

/-- The fields of a definition. -/
def fields (scope : Scope) : List FieldDefinition → List Field
  | [] => []
  | definition :: definitions => scope.field definition :: scope.fields definitions

/-- The alternate of a definition. -/
def alternate (scope : Scope) : AlternateDefinition → Alternate
  | .mk name definitions => .mk name (scope.fields definitions)

/-- The alternates of a definition. -/
def alternates (scope : Scope) : List AlternateDefinition → List Alternate
  | [] => []
  | definition :: definitions => scope.alternate definition :: scope.alternates definitions

end

end Scope

namespace Definition

/-- What the names in the definition can refer to. -/
def scope (definition : Definition) (registry : Registry) : Scope :=
  ⟨registry, definition.enumerations⟩

/-- The references of the definition that lead nowhere. -/
def unknown (definition : Definition) (registry : Registry) : List Diagnostic :=
  (definition.scope registry).unknownInFields none definition.fields

/-- The schema of a definition, or all its references that lead nowhere. -/
def toSchema (definition : Definition) (registry : Registry) : Except ResolveError Schema :=
  let unknown := definition.unknown registry
  if unknown.isEmpty then
    .ok ⟨definition.name, definition.readOnly,
      (definition.scope registry).fields definition.fields⟩
  else .error ⟨definition.name, unknown⟩

/-- The plan of a definition, resolved with its own policy. -/
def resolve (definition : Definition) (registry : Registry) :
    Except (Failure ResolveError) Plan := do
  let schema ← Failure.ofError (definition.toSchema registry)
  schema.resolve definition.policy

end Definition

end PacketLayout
