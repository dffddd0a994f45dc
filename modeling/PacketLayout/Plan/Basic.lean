import PacketLayout.Layout.Provider

/-!
# Layout plans

A plan is the resolved layout of a schema: the offset, the size and the way of reading of every
field. It holds no buffer. A union anchor has a plan for each of its alternates, with offsets
relative to the anchor.

* `Plan.at?` finds the plan below a path of anchors and alternates.
* `Plan.text` shows a plan, one line a field.
-/

namespace PacketLayout

/-- Where a field lies, whatever it holds. -/
structure FieldLayout where
  name : String
  position : Position
  offset : Expr
  size : Size
  /-- the bytes that the field spans; for a bit-field its whole unit -/
  sizeExpr : Expr
  docLines : List String

/-- What a leaf field holds. -/
structure Leaf where
  provider : Provider
  accessibility : Accessibility
  /-- false in read-only plans, for read-only fields and for raw slices -/
  writable : Bool

mutual

/-- The layout of a list of fields. -/
inductive Plan where
  | mk (name : String) (readOnly : Bool) (fields : List PlannedField) (minimumSize : Nat)
      (totalSize : Expr) (warnings : List Diagnostic)

/-- One field of a plan. -/
inductive PlannedField where
  | mk (layout : FieldLayout) (shape : Shape)

/-- A leaf with a value, or a union anchor with alternate plans. -/
inductive Shape where
  | leaf (leaf : Leaf)
  | union (alternates : List AlternatePlan)

/-- The plan of one alternate. -/
inductive AlternatePlan where
  | mk (name : String) (plan : Plan)

end

namespace AlternatePlan

def name : AlternatePlan → String
  | mk name _ => name

def plan : AlternatePlan → Plan
  | mk _ plan => plan

end AlternatePlan

namespace PlannedField

def layout : PlannedField → FieldLayout
  | mk layout _ => layout

def shape : PlannedField → Shape
  | mk _ shape => shape

def name (field : PlannedField) : String := field.layout.name

def offset (field : PlannedField) : Expr := field.layout.offset

def size (field : PlannedField) : Size := field.layout.size

def sizeExpr (field : PlannedField) : Expr := field.layout.sizeExpr

/-- The value of a leaf. -/
def leaf? (field : PlannedField) : Option Leaf :=
  match field.shape with
  | .leaf leaf => some leaf
  | .union _ => none

/-- The alternates of a union anchor. -/
def alternates? (field : PlannedField) : Option (List AlternatePlan) :=
  match field.shape with
  | .leaf _ => none
  | .union alternates => some alternates

/-- Whether the field is a union anchor. -/
def isUnion (field : PlannedField) : Bool := field.alternates?.isSome

/-- The slot of a bit-field. -/
def slot? (field : PlannedField) : Option BitSlot := field.leaf?.bind (·.provider.slot?)

/-- How to read the field, which a union anchor cannot say. -/
def provider (field : PlannedField) : Except UnionAccess Provider :=
  match field.leaf? with
  | some leaf => .ok leaf.provider
  | none => .error ⟨field.name, .value⟩

/-- Who may use the accessor, which a union anchor cannot say. -/
def accessibility (field : PlannedField) : Except UnionAccess Accessibility :=
  match field.leaf? with
  | some leaf => .ok leaf.accessibility
  | none => .error ⟨field.name, .accessibility⟩

/-- The number of bytes that the field or its unit has on every buffer, if there is one. -/
def extent? (field : PlannedField) : Option Nat :=
  field.size.fixed <|> field.slot?.map (·.unit)

/-- The plan of an alternate of the field. -/
def alternate? (field : PlannedField) (name : String) : Option Plan :=
  (field.alternates?.bind (·.find? (·.name = name))).map (·.plan)

end PlannedField

namespace Plan

def name : Plan → String
  | mk name .. => name

/-- Whether every write is refused. -/
def readOnly : Plan → Bool
  | mk _ readOnly .. => readOnly

/-- The fields in order of declaration. -/
def fields : Plan → List PlannedField
  | mk _ _ fields .. => fields

/-- The length that a buffer needs before any field is accessed. -/
def minimumSize : Plan → Nat
  | mk _ _ _ minimumSize .. => minimumSize

/-- The sum of all sizes, with each unit of bit-fields counted once. -/
def totalSize : Plan → Expr
  | mk _ _ _ _ totalSize _ => totalSize

/-- What was accepted although the schema says otherwise. -/
def warnings : Plan → List Diagnostic
  | mk _ _ _ _ _ warnings => warnings

/-- The field of a name. -/
def field? (plan : Plan) (name : String) : Option PlannedField :=
  plan.fields.find? (·.name = name)

/-- The plan below a path of anchors and alternates, outermost first. -/
def at? (plan : Plan) : List (String × String) → Option Plan
  | [] => some plan
  | (anchor, alternate) :: path =>
    ((plan.field? anchor).bind (·.alternate? alternate)).bind (at? · path)

end Plan

/-! ## Text -/

/-- A leaf in the text of a plan. -/
def Provider.text : Provider → Except Fault String
  | scalar kind => .ok kind.name
  | enumeration type backing => .ok (type.name ++ " as " ++ backing.name)
  | bitField slot _ => do
    let mask ← slot.unitMask
    pure s!"bits 0x{Hex.ofNat mask.toNat} >> {slot.shift}"
  | composite type => .ok type.name
  | rawSlice => .ok "bytes"

/-- What a field holds in the text of a plan. -/
def Shape.text : Shape → Except Fault String
  | .leaf it => it.provider.text
  | .union alternates => .ok ("union of " ++ " | ".intercalate (alternates.map (·.name)))

/-- A field in the text of a plan. -/
def PlannedField.text (field : PlannedField) : Except Fault String := do
  let shape ← field.shape.text
  pure s!"  {field.name} @ {field.offset.text} [{field.sizeExpr.text}] {shape}\n"

/-- A plan: a line of its own, then one for each field. -/
def Plan.text (plan : Plan) : Except Fault String := do
  let lines ← plan.fields.mapM (·.text)
  let head := s!"{plan.name} (minimum {plan.minimumSize} bytes, total {plan.totalSize.text})\n"
  pure (head ++ String.join lines)

end PacketLayout
