import PacketLayout.Json.Basic
import PacketLayout.Plan.Basic

/-!
# Plans as JSON

The written form of a plan and of everything in it. A choice between forms is written as an object
with the name of the form as its only key, or as the bare name when the form holds nothing.
Capabilities are written by name. The warnings of a plan are not written.
-/

namespace PacketLayout

/-- The name of a form together with what it holds. -/
def Json.tagged (tag : String) (content : Json) : Json := .object [(tag, content)]

/-- The written form of an integer kind. -/
def IntKind.toJson (kind : IntKind) : Json := .string kind.name

/-- The written form of names of values, with the values as keys. -/
def Variants.toJson (variants : Variants) : Json :=
  .object (variants.entries.map fun (value, name) => (toString value.toNat, .string name))

/-- The written form of an enumeration. -/
def Enumeration.toJson (type : Enumeration) : Json :=
  .object [
    ("name", .string type.name),
    ("backing", type.backing.toJson),
    ("variants", type.variants.toJson)]

mutual

/-- The written form of an expression. -/
def Expr.toJson : Expr → Json
  | .sum constant terms =>
    .object [("constant", .ofNat constant), ("terms", .array (Term.listToJson terms))]

/-- The written form of a term. -/
def Term.toJson : Term → Json
  | .sizeOf field function =>
    .tagged "SizeOf" (.object [("field", .string field), ("function", .string function.name)])
  | .position function default =>
    .tagged "Position"
      (.object [("function", .string function.name), ("default", default.toJson)])
  | .remaining start => .tagged "Remaining" (.object [("from", start.toJson)])

/-- The written forms of terms. -/
def Term.listToJson : List Term → List Json
  | [] => []
  | term :: terms => term.toJson :: Term.listToJson terms

end

/-- The written form of a position. -/
def Position.toJson : Position → Json
  | sequential => .string "Sequential"
  | literal offset => .tagged "Literal" (.ofNat offset)
  | computed function => .tagged "Computed" (.string function.name)

/-- The written form of a size. -/
def Size.toJson : Size → Json
  | constant size => .tagged "Constant" (.ofNat size)
  | intrinsic size => .tagged "Intrinsic" (.ofNat size)
  | external size => .tagged "External" (.ofNat size)
  | computed function => .tagged "Computed" (.string function.name)
  | bitWidth width => .tagged "BitWidth" (.ofNat width)
  | remainder => .string "Remainder"

/-- The written form of a bit slot. -/
def BitSlot.toJson (slot : BitSlot) : Json :=
  .object [
    ("unit", .ofNat slot.unit),
    ("shift", .ofNat slot.shift),
    ("width", .ofNat slot.width),
    ("group", .ofNat slot.group)]

/-- The written form of a provider. -/
def Provider.toJson : Provider → Json
  | scalar kind => .tagged "Scalar" kind.toJson
  | enumeration type backing =>
    .tagged "Enum" (.object [("enumeration", type.toJson), ("backing", backing.toJson)])
  | bitField slot type =>
    .tagged "BitField"
      (.object [("slot", slot.toJson), ("enumeration", .ofOption (type.map (·.toJson)))])
  | composite type => .tagged "Composite" (.string type.name)
  | rawSlice => .string "RawSlice"

/-- The written form of a leaf. -/
def Leaf.toJson (leaf : Leaf) : Json :=
  .object [
    ("provider", leaf.provider.toJson),
    ("accessibility", .string leaf.accessibility.name),
    ("writable", .bool leaf.writable)]

mutual

/-- The written form of a plan. -/
def Plan.toJson : Plan → Json
  | .mk name readOnly fields minimumSize totalSize _ =>
    .object [
      ("name", .string name),
      ("read_only", .bool readOnly),
      ("fields", .array (PlannedField.listToJson fields)),
      ("minimum_size", .ofNat minimumSize),
      ("total_size", totalSize.toJson)]

/-- The written form of a field. -/
def PlannedField.toJson : PlannedField → Json
  | .mk layout shape =>
    .object [
      ("name", .string layout.name),
      ("position", layout.position.toJson),
      ("offset", layout.offset.toJson),
      ("size", layout.size.toJson),
      ("size_expr", layout.sizeExpr.toJson),
      ("doc_lines", .array (layout.docLines.map .string)),
      ("shape", shape.toJson)]

/-- The written form of what a field holds. -/
def Shape.toJson : Shape → Json
  | .leaf it => .tagged "Leaf" it.toJson
  | .union alternates =>
    .tagged "Union" (.object [("alternates", .array (AlternatePlan.listToJson alternates))])

/-- The written form of an alternate. -/
def AlternatePlan.toJson : AlternatePlan → Json
  | .mk name plan => .object [("name", .string name), ("plan", plan.toJson)]

/-- The written forms of fields. -/
def PlannedField.listToJson : List PlannedField → List Json
  | [] => []
  | field :: fields => field.toJson :: PlannedField.listToJson fields

/-- The written forms of alternates. -/
def AlternatePlan.listToJson : List AlternatePlan → List Json
  | [] => []
  | alternate :: alternates => alternate.toJson :: AlternatePlan.listToJson alternates

end

end PacketLayout
