import PacketLayout.Plan.Basic

/-!
# When two plans are the same

Plans are compared part by part, warnings included. Capabilities are the same when their names are:
a plan refers to them symbolically, and behaviours cannot be compared.
-/

namespace PacketLayout

mutual

/-- Whether two expressions are the same up to the behaviour of functions. -/
def Expr.same : Expr → Expr → Bool
  | .sum constant terms, .sum constant' terms' =>
    constant = constant' && Term.sameAll terms terms'

/-- Whether two terms are the same up to the behaviour of functions. -/
def Term.same : Term → Term → Bool
  | .sizeOf field function, .sizeOf field' function' =>
    field = field' && function.name = function'.name
  | .position function default, .position function' default' =>
    function.name = function'.name && default.same default'
  | .remaining start, .remaining start' => start.same start'
  | _, _ => false

/-- Whether two lists of terms are the same up to the behaviour of functions. -/
def Term.sameAll : List Term → List Term → Bool
  | [], [] => true
  | term :: terms, term' :: terms' => term.same term' && Term.sameAll terms terms'
  | _, _ => false

end

/-- Whether two positions are the same up to the behaviour of functions. -/
def Position.same : Position → Position → Bool
  | sequential, sequential => true
  | literal offset, literal offset' => offset = offset'
  | computed function, computed function' => function.name = function'.name
  | _, _ => false

/-- Whether two sizes are the same up to the behaviour of functions. -/
def Size.same : Size → Size → Bool
  | constant size, constant size' => size = size'
  | intrinsic size, intrinsic size' => size = size'
  | external size, external size' => size = size'
  | computed function, computed function' => function.name = function'.name
  | bitWidth width, bitWidth width' => width = width'
  | remainder, remainder => true
  | _, _ => false

/-- Whether two providers are the same up to the behaviour of codecs. -/
def Provider.same : Provider → Provider → Bool
  | scalar kind, scalar kind' => kind = kind'
  | enumeration type backing, enumeration type' backing' => type = type' && backing = backing'
  | bitField slot type, bitField slot' type' => slot = slot' && type = type'
  | composite type, composite type' => type.name = type'.name
  | rawSlice, rawSlice => true
  | _, _ => false

/-- Whether two fields lie at the same place. -/
def FieldLayout.same (layout layout' : FieldLayout) : Bool :=
  layout.name = layout'.name && layout.position.same layout'.position &&
  layout.offset.same layout'.offset && layout.size.same layout'.size &&
  layout.sizeExpr.same layout'.sizeExpr && layout.docLines = layout'.docLines

/-- Whether two leaves hold the same. -/
def Leaf.same (leaf leaf' : Leaf) : Bool :=
  leaf.provider.same leaf'.provider && leaf.accessibility = leaf'.accessibility &&
  leaf.writable = leaf'.writable

mutual

/-- Whether two plans are the same up to the behaviour of capabilities. -/
def Plan.same : Plan → Plan → Bool
  | .mk name readOnly fields minimumSize totalSize warnings,
    .mk name' readOnly' fields' minimumSize' totalSize' warnings' =>
    name = name' && readOnly = readOnly' && PlannedField.sameAll fields fields' &&
    minimumSize = minimumSize' && totalSize.same totalSize' && warnings = warnings'

/-- Whether two fields of plans are the same. -/
def PlannedField.same : PlannedField → PlannedField → Bool
  | .mk layout shape, .mk layout' shape' => layout.same layout' && shape.same shape'

/-- Whether two fields hold the same. -/
def Shape.same : Shape → Shape → Bool
  | .leaf it, .leaf it' => it.same it'
  | .union alternates, .union alternates' => AlternatePlan.sameAll alternates alternates'
  | _, _ => false

/-- Whether two alternates are the same. -/
def AlternatePlan.same : AlternatePlan → AlternatePlan → Bool
  | .mk name plan, .mk name' plan' => name = name' && plan.same plan'

/-- Whether two lists of fields are the same. -/
def PlannedField.sameAll : List PlannedField → List PlannedField → Bool
  | [], [] => true
  | field :: fields, field' :: fields' => field.same field' && PlannedField.sameAll fields fields'
  | _, _ => false

/-- Whether two lists of alternates are the same. -/
def AlternatePlan.sameAll : List AlternatePlan → List AlternatePlan → Bool
  | [], [] => true
  | alternate :: rest, alternate' :: rest' =>
    alternate.same alternate' && AlternatePlan.sameAll rest rest'
  | _, _ => false

end

end PacketLayout
