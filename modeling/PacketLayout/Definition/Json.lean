import PacketLayout.Definition.Basic
import PacketLayout.Json.Number
import PacketLayout.Plan.Json

/-!
# Definitions as JSON

A definition is written with every key. It is read leniently where that does no harm: unknown keys
are ignored, even with a value that is unreadable, most keys may be missing, and those with nothing
to say may be null. Keys that matter are read strictly: a value of another kind refuses the
definition, and so does a second value. In place of an object there may be an array of the values in
the order of the keys, of which the last ones may be missing.
-/

namespace PacketLayout

namespace Json

/-- Whether none of the keys stands twice among the members. Other keys may. -/
def distinct (keys : List String) (members : List (String × Json)) : Bool :=
  decide ((members.map (·.1)).filter (· ∈ keys)).Nodup

/-- The members of a structure with these keys: those of an object, or the items of an array, which
stand for the keys in order. -/
def record? (keys : List String) : Json → Option (List (String × Json))
  | object members => if distinct keys members then some members else none
  | array items => if items.length ≤ keys.length then some (keys.zip items) else none
  | _ => none

/-- A value with a default: the key may be missing. -/
def orElse {α : Type} (members : List (String × Json)) (key : String) (default : α)
    (read : Json → Option α) : Option α :=
  match member? key members with
  | none => some default
  | some value => read value

/-- A value that may be absent: the key may be missing or null. -/
def optional {α : Type} (members : List (String × Json)) (key : String)
    (read : Json → Option α) : Option (Option α) :=
  match member? key members with
  | none | some null => some none
  | some value => (read value).map some

/-- A 64-bit number. -/
def word? (value : Json) : Option UInt64 := (value.natural? (UInt64.size - 1)).map UInt64.ofNat

/-- An 8-bit number. -/
def byte? (value : Json) : Option UInt8 := (value.natural? (UInt8.size - 1)).map UInt8.ofNat

/-- An array of strings. -/
def strings? (value : Json) : Option (List String) := value.array?.bind (·.mapM string?)

end Json

/-! ## Enumerations -/

/-- The integer kind that a value names. -/
def IntKind.ofJson? (value : Json) : Option IntKind := value.tag?.bind ofName?

/-- The entry of one key of the written form. The key spells a number. -/
def Variants.entryOfJson? (entry : String × Json) : Option (UInt64 × String) := do
  let value ← (← Json.ofNumber? entry.1.toList).word?
  let name ← entry.2.string?
  pure (value, name)

/-- Read names of values. -/
def Variants.ofJson? : Json → Option Variants
  | .object members => (members.mapM entryOfJson?).map ofList
  | _ => none

namespace Enumeration

/-- The keys of an enumeration. -/
def keys : List String := ["name", "backing", "variants"]

/-- Read an enumeration from its keys. -/
def ofMembers? (members : List (String × Json)) : Option Enumeration := do
  let name ← (← Json.member? "name" members).string?
  let backing ← IntKind.ofJson? (← Json.member? "backing" members)
  let variants ← Json.orElse members "variants" .empty Variants.ofJson?
  pure { name, backing, variants }

/-- Read an enumeration. -/
def ofJson? (value : Json) : Option Enumeration := (value.record? keys).bind ofMembers?

end Enumeration

/-! ## Fields -/

namespace FieldOptions

/-- The keys of the options of a field. -/
def keys : List String := [
  "doc", "accessibility", "read_only", "position", "position_function", "size", "size_function",
  "bits", "remainder", "enum_backing"]

/-- Read the options of a field from its keys. -/
def ofMembers? (members : List (String × Json)) : Option FieldOptions := do
  let docLines ← Json.orElse members "doc" [] Json.strings?
  let accessibility ←
    Json.optional members "accessibility" fun value => value.tag?.bind Accessibility.ofName?
  let readOnly ← Json.orElse members "read_only" false Json.bool?
  let position ← Json.optional members "position" Json.word?
  let positionFunction ← Json.optional members "position_function" Json.string?
  let size ← Json.optional members "size" Json.word?
  let sizeFunction ← Json.optional members "size_function" Json.string?
  let bits ← Json.optional members "bits" Json.byte?
  let remainder ← Json.orElse members "remainder" false Json.bool?
  let enumBacking ← Json.optional members "enum_backing" IntKind.ofJson?
  pure
    { docLines, accessibility, readOnly, position, positionFunction, size, sizeFunction, bits
      remainder, enumBacking }

/-- The options of a field with their keys. -/
def toMembers (options : FieldOptions) : List (String × Json) := [
  ("doc", .array (options.docLines.map .string)),
  ("accessibility", .ofOption (options.accessibility.map fun it => .string it.name)),
  ("read_only", .bool options.readOnly),
  ("position", .ofOption (options.position.map fun it => .ofNat it.toNat)),
  ("position_function", .ofOption (options.positionFunction.map .string)),
  ("size", .ofOption (options.size.map fun it => .ofNat it.toNat)),
  ("size_function", .ofOption (options.sizeFunction.map .string)),
  ("bits", .ofOption (options.bits.map fun it => .ofNat it.toNat)),
  ("remainder", .bool options.remainder),
  ("enum_backing", .ofOption (options.enumBacking.map (·.toJson)))]

end FieldOptions

/-- The keys of a field. -/
def FieldDefinition.keys : List String := "name" :: "type" :: FieldOptions.keys

/-- The keys of an alternate. -/
def AlternateDefinition.keys : List String := ["name", "fields"]

/-- Read a type that is no union from its tag and its content. -/
def TypeDefinition.ofTag? (tag : String) (content : Json) : Option TypeDefinition :=
  match tag with
  | "primitive" => (IntKind.ofJson? content).map integer
  | "enum" => content.string?.map enumeration
  | "composite" => content.string?.map composite
  | "bytes" =>
    match content with
    | .null => some bytes
    | _ => none
  | "byte_array" => content.word?.map byteArray
  | _ => none

mutual

/-- Read the definition of a field. -/
def FieldDefinition.ofJson? : Json → Option FieldDefinition
  | .object members =>
    if Json.distinct FieldDefinition.keys members then do
      let name ← (← Json.member? "name" members).string?
      let type ← FieldDefinition.typeOfMembers? members
      let options ← FieldOptions.ofMembers? members
      pure (.mk name type options)
    else none
  | .array (name :: type :: items) =>
    if items.length ≤ FieldOptions.keys.length then do
      let name ← name.string?
      let type ← TypeDefinition.ofJson? type
      let options ← FieldOptions.ofMembers? (FieldOptions.keys.zip items)
      pure (.mk name type options)
    else none
  | _ => none

/-- Read the type of a field from the keys of the field. -/
def FieldDefinition.typeOfMembers? : List (String × Json) → Option TypeDefinition
  | [] => none
  | (key, value) :: members =>
    if key = "type" then TypeDefinition.ofJson? value
    else FieldDefinition.typeOfMembers? members

/-- Read a type. -/
def TypeDefinition.ofJson? : Json → Option TypeDefinition
  | .string tag => if tag = "bytes" then some .bytes else none
  | .object [(tag, .array items)] =>
    if tag = "union" then (AlternateDefinition.listOfJson? items).map .union else none
  | .object [(tag, content)] => TypeDefinition.ofTag? tag content
  | _ => none

/-- Read an alternate. -/
def AlternateDefinition.ofJson? : Json → Option AlternateDefinition
  | .object members =>
    if Json.distinct AlternateDefinition.keys members then do
      let name ← (← Json.member? "name" members).string?
      let fields ← FieldDefinition.listOfMembers? members
      pure (.mk name fields)
    else none
  | .array [name, .array items] => do
    let name ← name.string?
    let fields ← FieldDefinition.listOfJson? items
    pure (.mk name fields)
  | _ => none

/-- Read the fields of a list from the keys of what holds it. -/
def FieldDefinition.listOfMembers? : List (String × Json) → Option (List FieldDefinition)
  | [] => none
  | (key, .array items) :: members =>
    if key = "fields" then FieldDefinition.listOfJson? items
    else FieldDefinition.listOfMembers? members
  | (key, _) :: members =>
    if key = "fields" then none else FieldDefinition.listOfMembers? members

/-- Read fields. -/
def FieldDefinition.listOfJson? : List Json → Option (List FieldDefinition)
  | [] => some []
  | item :: items => do
    let field ← FieldDefinition.ofJson? item
    let fields ← FieldDefinition.listOfJson? items
    pure (field :: fields)

/-- Read alternates. -/
def AlternateDefinition.listOfJson? : List Json → Option (List AlternateDefinition)
  | [] => some []
  | item :: items => do
    let alternate ← AlternateDefinition.ofJson? item
    let alternates ← AlternateDefinition.listOfJson? items
    pure (alternate :: alternates)

end

mutual

/-- The written form of a field. -/
def FieldDefinition.toJson : FieldDefinition → Json
  | .mk name type options =>
    .object (("name", .string name) :: ("type", type.toJson) :: options.toMembers)

/-- The written form of a type. -/
def TypeDefinition.toJson : TypeDefinition → Json
  | .integer kind => .tagged "primitive" kind.toJson
  | .enumeration name => .tagged "enum" (.string name)
  | .composite name => .tagged "composite" (.string name)
  | .bytes => .string "bytes"
  | .byteArray length => .tagged "byte_array" (.ofNat length.toNat)
  | .union alternates => .tagged "union" (.array (AlternateDefinition.listToJson alternates))

/-- The written form of an alternate. -/
def AlternateDefinition.toJson : AlternateDefinition → Json
  | .mk name fields =>
    .object [("name", .string name), ("fields", .array (FieldDefinition.listToJson fields))]

/-- The written forms of fields. -/
def FieldDefinition.listToJson : List FieldDefinition → List Json
  | [] => []
  | field :: fields => field.toJson :: FieldDefinition.listToJson fields

/-- The written forms of alternates. -/
def AlternateDefinition.listToJson : List AlternateDefinition → List Json
  | [] => []
  | alternate :: alternates => alternate.toJson :: AlternateDefinition.listToJson alternates

end

/-! ## Definitions -/

namespace MismatchPolicy

/-- The keys of the settings of a definition. -/
def keys : List String := ["position_mismatch"]

/-- Read the settings of a definition. -/
def ofSettings? (value : Json) : Option MismatchPolicy :=
  (value.record? keys).bind fun members =>
    Json.orElse members "position_mismatch" .error fun value => value.tag?.bind ofName?

/-- The settings of a definition in written form. -/
def toSettings (policy : MismatchPolicy) : Json :=
  .object [("position_mismatch", .string policy.name)]

end MismatchPolicy

namespace Definition

/-- The keys of a definition. -/
def keys : List String := ["name", "read_only", "enums", "fields", "config"]

/-- Read a definition from its keys. -/
def ofMembers? (members : List (String × Json)) : Option Definition := do
  let name ← (← Json.member? "name" members).string?
  let readOnly ← Json.orElse members "read_only" false Json.bool?
  let enumerations ←
    Json.orElse members "enums" [] fun value => value.array?.bind (·.mapM Enumeration.ofJson?)
  let fields ← FieldDefinition.listOfMembers? members
  let policy? ← Json.optional members "config" MismatchPolicy.ofSettings?
  pure { name, readOnly, enumerations, fields, policy? }

/-- Read a definition. -/
def ofJson? (value : Json) : Option Definition := (value.record? keys).bind ofMembers?

/-- The written form of a definition. -/
def toJson (definition : Definition) : Json :=
  .object [
    ("name", .string definition.name),
    ("read_only", .bool definition.readOnly),
    ("enums", .array (definition.enumerations.map (·.toJson))),
    ("fields", .array (FieldDefinition.listToJson definition.fields)),
    ("config", .ofOption (definition.policy?.map (·.toSettings)))]

end Definition

end PacketLayout
