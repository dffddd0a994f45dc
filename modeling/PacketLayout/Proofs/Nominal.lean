import PacketLayout.Layout.Resolution
import PacketLayout.Plan.Same

/-!
# Capabilities by name

A schema without the behaviour of its capabilities: every size function, position function and codec
is replaced by one that does nothing but has the same name, and a codec keeps its static size. Two
schemas that are the same in this form differ at most in what their capabilities do.

* `Schema.nominal` is this form of a schema, `Plan.nominal` that of a plan.
* The other statements say that offsets, sizes and places are formed alike from both forms.
-/

namespace PacketLayout

/-! ## Capabilities -/

/-- The size function of the same name that finds nothing. -/
def SizeFunction.nominal (function : SizeFunction) : SizeFunction where
  name := function.name
  run _ := 0

/-- The position function of the same name that keeps the default. -/
def PositionFunction.nominal (function : PositionFunction) : PositionFunction where
  name := function.name
  run _ default := default

/-- The composite of the same name and static size, with the rules for codecs without special
needs. -/
def Composite.nominal (type : Composite) : Composite where
  name := type.name
  codec := { staticSize := type.codec.staticSize }

theorem SizeFunction.name_eq_of_nominal {f g : SizeFunction} (h : f.nominal = g.nominal) :
    f.name = g.name :=
  (SizeFunction.mk.inj h).1

theorem PositionFunction.name_eq_of_nominal {f g : PositionFunction} (h : f.nominal = g.nominal) :
    f.name = g.name :=
  (PositionFunction.mk.inj h).1

theorem Composite.name_eq_of_nominal {s t : Composite} (h : s.nominal = t.nominal) :
    s.name = t.name :=
  (Composite.mk.inj h).1

/-! ## Expressions -/

mutual

/-- The expression over capabilities by name. -/
def Expr.nominal : Expr → Expr
  | .sum constant terms => .sum constant (Term.nominalAll terms)

/-- The term over capabilities by name. -/
def Term.nominal : Term → Term
  | .sizeOf field function => .sizeOf field function.nominal
  | .position function default => .position function.nominal default.nominal
  | .remaining start => .remaining start.nominal

/-- The terms over capabilities by name. -/
def Term.nominalAll : List Term → List Term
  | [] => []
  | term :: terms => term.nominal :: Term.nominalAll terms

end

theorem Term.nominalAll_eq_map (terms : List Term) :
    Term.nominalAll terms = terms.map (·.nominal) := by
  induction terms with
  | nil => rfl
  | cons term terms ih => rw [Term.nominalAll, ih, List.map_cons]

namespace Expr

variable (a b : Expr)

@[simp] theorem constant_nominal : a.nominal.constant = a.constant := by
  cases a
  rfl

@[simp] theorem terms_nominal : a.nominal.terms = a.terms.map (·.nominal) := by
  cases a
  exact Term.nominalAll_eq_map _

@[simp] theorem nominal_literal (value : Nat) : (literal value).nominal = literal value := rfl

@[simp] theorem nominal_zero : zero.nominal = zero := rfl

@[simp] theorem nominal_ofTerm (term : Term) : (ofTerm term).nominal = ofTerm term.nominal := rfl

@[simp] theorem nominal_plus : (a.plus b).nominal = a.nominal.plus b.nominal :=
  eq_of_parts (by simp) (by simp)

@[simp] theorem nominal_plusConstant (value : Nat) :
    (a.plusConstant value).nominal = a.nominal.plusConstant value :=
  eq_of_parts (by simp) (by simp)

@[simp] theorem static?_nominal : a.nominal.static? = a.static? := by
  simp [static?, isStatic]

end Expr

mutual

/-- A formula tells capabilities by name only. -/
theorem Expr.text_nominal : (a : Expr) → a.nominal.text = a.text
  | .sum constant terms => by
    have hempty : (Term.nominalAll terms).isEmpty = terms.isEmpty := by
      rw [Term.nominalAll_eq_map, List.isEmpty_map]
    simp only [Expr.nominal, Expr.text, hempty, Term.texts_nominal terms]

theorem Term.text_nominal : (term : Term) → term.nominal.text = term.text
  | .sizeOf _ _ => rfl
  | .position _ default => by
    simp only [Term.nominal, Term.text, Expr.text_nominal default, PositionFunction.nominal]
  | .remaining start => by simp only [Term.nominal, Term.text, Expr.text_nominal start]

theorem Term.texts_nominal : (terms : List Term) →
    Term.texts (Term.nominalAll terms) = Term.texts terms
  | [] => rfl
  | term :: terms => by
    simp only [Term.nominalAll, Term.texts, Term.text_nominal term, Term.texts_nominal terms]

end

/-! ## Declarations -/

/-- The type with capabilities by name. -/
def FieldType.nominal : FieldType → FieldType
  | composite type => composite type.nominal
  | integer kind => integer kind
  | enumeration type => enumeration type
  | bytes => bytes
  | byteArray length => byteArray length

/-- The position with capabilities by name. -/
def Position.nominal : Position → Position
  | computed function => computed function.nominal
  | sequential => sequential
  | literal offset => literal offset

/-- The declaration with capabilities by name. -/
def Declaration.nominal (decl : Declaration) : Declaration :=
  { decl with
    type := decl.type.nominal
    position := decl.position.nominal
    sizeFunction := decl.sizeFunction.map (·.nominal) }

namespace Declaration

variable (decl : Declaration)

@[simp] theorem bits_nominal : decl.nominal.bits = decl.bits := rfl

@[simp] theorem size_nominal : decl.nominal.size = decl.size := rfl

@[simp] theorem remainder_nominal : decl.nominal.remainder = decl.remainder := rfl

@[simp] theorem type_nominal : decl.nominal.type = decl.type.nominal := rfl

@[simp] theorem sizeFunction_nominal :
    decl.nominal.sizeFunction = decl.sizeFunction.map (·.nominal) :=
  rfl

end Declaration

@[simp] theorem FieldType.name_nominal (type : FieldType) : type.nominal.name = type.name := by
  cases type <;> rfl

@[simp] theorem FieldType.kind?_nominal (type : FieldType) : type.nominal.kind? = type.kind? := by
  cases type <;> rfl

@[simp] theorem Declaration.kind?_nominal (decl : Declaration) :
    decl.nominal.kind? = decl.kind? := by
  cases decl with
  | mk name type => cases type <;> rfl

@[simp] theorem Position.isSequential_nominal (position : Position) :
    position.nominal.isSequential = position.isSequential := by
  cases position <;> rfl

@[simp] theorem Position.offset_nominal (position : Position) (default : Expr) :
    position.nominal.offset default.nominal = (position.offset default).nominal := by
  cases position <;> rfl

/-! ## Sizes -/

namespace Size

/-- The size with capabilities by name. -/
def nominal : Size → Size
  | computed function => computed function.nominal
  | constant size => constant size
  | intrinsic size => intrinsic size
  | external size => external size
  | bitWidth width => bitWidth width
  | remainder => remainder

variable (size : Size)

@[simp] theorem fixed_nominal : size.nominal.fixed = size.fixed := by
  cases size <;> rfl

@[simp] theorem isDynamic_nominal : size.nominal.isDynamic = size.isDynamic := by
  cases size <;> rfl

@[simp] theorem bitWidth?_nominal : size.nominal.bitWidth? = size.bitWidth? := by
  cases size <;> rfl

@[simp] theorem isRemainder_nominal : size.nominal.isRemainder = size.isRemainder := by
  cases size <;> rfl

@[simp] theorem expr_nominal (field : String) (offset : Expr) (slot : Option BitSlot) :
    size.nominal.expr field offset.nominal slot = (size.expr field offset slot).nominal := by
  cases size <;> rfl

theorem ofType_nominal (decl : Declaration) :
    resolve.ofType decl.nominal = (resolve.ofType decl).map nominal := by
  cases decl with
  | mk name type =>
    cases type with
    | composite type =>
      simp only [resolve.ofType, Declaration.nominal, FieldType.nominal, Composite.nominal]
      cases type.codec.staticSize <;> rfl
    | integer | enumeration | bytes | byteArray => rfl

theorem ofRemainder_nominal (type : FieldType) :
    resolve.ofRemainder type.nominal = (resolve.ofRemainder type).map nominal := by
  cases type <;> rfl

theorem ofBits_nominal (decl : Declaration) (isAnchor : Bool) (width : Nat) :
    resolve.ofBits decl.nominal isAnchor width =
      (resolve.ofBits decl isAnchor width).map nominal := by
  have hname : decl.nominal.type.name = decl.type.name := decl.type.name_nominal
  simp only [resolve.ofBits, Declaration.kind?_nominal, hname]
  split
  · rfl
  · split
    · rfl
    · split <;> rfl

/-- A size is found by the declaration alone. -/
theorem resolve_nominal (decl : Declaration) (isAnchor : Bool) :
    resolve decl.nominal isAnchor = (resolve decl isAnchor).map nominal := by
  simp only [resolve, Declaration.bits_nominal, Declaration.sizeFunction_nominal,
    Declaration.size_nominal, Declaration.remainder_nominal, Declaration.type_nominal,
    Option.isSome_map]
  split
  · rfl
  · cases decl.bits with
    | some width => exact ofBits_nominal decl isAnchor width
    | none =>
      cases decl.sizeFunction with
      | some function => rfl
      | none =>
        cases decl.size with
        | some size => rfl
        | none =>
          show (if decl.remainder then resolve.ofRemainder decl.type.nominal
              else resolve.ofType decl.nominal) =
            Except.map nominal (if decl.remainder then resolve.ofRemainder decl.type
              else resolve.ofType decl)
          rw [ofRemainder_nominal, ofType_nominal, apply_ite (Except.map nominal)]

end Size

/-! ## Providers -/

namespace Provider

/-- The provider with capabilities by name. -/
def nominal : Provider → Provider
  | composite type => composite type.nominal
  | scalar kind => scalar kind
  | enumeration type backing => enumeration type backing
  | bitField slot type => bitField slot type
  | rawSlice => rawSlice

@[simp] theorem isWritable_nominal (provider : Provider) :
    provider.nominal.isWritable = provider.isWritable := by
  cases provider <;> rfl

@[simp] theorem slot?_nominal (provider : Provider) : provider.nominal.slot? = provider.slot? := by
  cases provider <;> rfl

theorem checkBacking_nominal (decl : Declaration) :
    checkBacking decl.nominal = checkBacking decl := by
  cases decl with
  | mk name type _ _ _ _ _ _ _ _ enumBacking => cases enumBacking <;> cases type <;> rfl

@[simp] theorem checkWidth_nominal (typeName : String) (width : Nat) (size : Size) :
    checkWidth typeName width size.nominal = checkWidth typeName width size := by
  simp only [checkWidth, Size.isDynamic_nominal, Size.fixed_nominal]

/-- A provider is found by the declaration, the size and the slot alone. -/
theorem resolve_nominal (decl : Declaration) (size : Size) (slot : Option BitSlot) :
    resolve decl.nominal size.nominal slot = (resolve decl size slot).map nominal := by
  simp only [resolve, checkBacking_nominal, Size.bitWidth?_nominal]
  cases checkBacking decl with
  | error defect => rfl
  | ok =>
    cases decl with
    | mk name type =>
      cases size.bitWidth? with
      | some width => cases slot <;> cases type <;> rfl
      | none =>
        cases type with
        | integer kind =>
          simp only [Declaration.nominal, FieldType.nominal, checkWidth_nominal]
          cases checkWidth kind.name kind.width size <;> rfl
        | enumeration type =>
          simp only [Declaration.nominal, FieldType.nominal, checkWidth_nominal]
          cases checkWidth type.name _ size <;> rfl
        | composite | bytes | byteArray => rfl

end Provider

/-! ## Plans -/

/-- The layout with capabilities by name. -/
def FieldLayout.nominal (layout : FieldLayout) : FieldLayout :=
  { layout with
    position := layout.position.nominal
    offset := layout.offset.nominal
    size := layout.size.nominal
    sizeExpr := layout.sizeExpr.nominal }

/-- The leaf with capabilities by name. -/
def Leaf.nominal (leaf : Leaf) : Leaf := { leaf with provider := leaf.provider.nominal }

mutual

/-- The plan with capabilities by name. -/
def Plan.nominal : Plan → Plan
  | .mk name readOnly fields minimumSize totalSize warnings =>
    .mk name readOnly (PlannedField.nominalAll fields) minimumSize totalSize.nominal warnings

/-- The field of a plan with capabilities by name. -/
def PlannedField.nominal : PlannedField → PlannedField
  | .mk layout shape => .mk layout.nominal shape.nominal

/-- The shape with capabilities by name. -/
def Shape.nominal : Shape → Shape
  | .leaf it => .leaf it.nominal
  | .union alternates => .union (AlternatePlan.nominalAll alternates)

/-- The plan of an alternate with capabilities by name. -/
def AlternatePlan.nominal : AlternatePlan → AlternatePlan
  | .mk name plan => .mk name plan.nominal

/-- The fields with capabilities by name. -/
def PlannedField.nominalAll : List PlannedField → List PlannedField
  | [] => []
  | field :: fields => field.nominal :: PlannedField.nominalAll fields

/-- The alternates with capabilities by name. -/
def AlternatePlan.nominalAll : List AlternatePlan → List AlternatePlan
  | [] => []
  | alternate :: rest => alternate.nominal :: AlternatePlan.nominalAll rest

end

theorem PlannedField.nominalAll_eq_map (fields : List PlannedField) :
    PlannedField.nominalAll fields = fields.map (·.nominal) := by
  induction fields with
  | nil => rfl
  | cons field fields ih => rw [PlannedField.nominalAll, ih, List.map_cons]

theorem AlternatePlan.nominalAll_eq_map (alternates : List AlternatePlan) :
    AlternatePlan.nominalAll alternates = alternates.map (·.nominal) := by
  induction alternates with
  | nil => rfl
  | cons alternate rest ih => rw [AlternatePlan.nominalAll, ih, List.map_cons]

theorem Plan.nominal_mk (name : String) (readOnly : Bool) (fields : List PlannedField)
    (minimumSize : Nat) (totalSize : Expr) (warnings : List Diagnostic) :
    (mk name readOnly fields minimumSize totalSize warnings).nominal =
      mk name readOnly (fields.map (·.nominal)) minimumSize totalSize.nominal warnings := by
  rw [Plan.nominal, PlannedField.nominalAll_eq_map]

theorem Shape.nominal_union (alternates : List AlternatePlan) :
    (union alternates).nominal = union (alternates.map (·.nominal)) := by
  rw [Shape.nominal, AlternatePlan.nominalAll_eq_map]

namespace Plan

variable (plan : Plan)

@[simp] theorem fields_nominal : plan.nominal.fields = plan.fields.map (·.nominal) := by
  cases plan
  exact PlannedField.nominalAll_eq_map _

@[simp] theorem minimumSize_nominal : plan.nominal.minimumSize = plan.minimumSize := by
  cases plan
  rfl

@[simp] theorem warnings_nominal : plan.nominal.warnings = plan.warnings := by
  cases plan
  rfl

end Plan

@[simp] theorem AlternatePlan.name_nominal (alternate : AlternatePlan) :
    alternate.nominal.name = alternate.name := by
  cases alternate
  rfl

@[simp] theorem AlternatePlan.plan_nominal (alternate : AlternatePlan) :
    alternate.nominal.plan = alternate.plan.nominal := by
  cases alternate
  rfl

namespace PlannedField

variable (field : PlannedField)

@[simp] theorem layout_nominal : field.nominal.layout = field.layout.nominal := by
  cases field
  rfl

@[simp] theorem name_nominal : field.nominal.name = field.name := by
  cases field
  rfl

@[simp] theorem size_nominal : field.nominal.size = field.size.nominal := by
  cases field
  rfl

@[simp] theorem offset_nominal : field.nominal.offset = field.offset.nominal := by
  cases field
  rfl

@[simp] theorem sizeExpr_nominal : field.nominal.sizeExpr = field.sizeExpr.nominal := by
  cases field
  rfl

@[simp] theorem slot?_nominal : field.nominal.slot? = field.slot? := by
  cases field with
  | mk layout shape =>
    cases shape with
    | leaf leaf => exact leaf.provider.slot?_nominal
    | union alternates => rfl

@[simp] theorem extent?_nominal : field.nominal.extent? = field.extent? := by
  simp only [extent?, size_nominal, Size.fixed_nominal, slot?_nominal]

@[simp] theorem staticEnd?_nominal : field.nominal.staticEnd? = field.staticEnd? := by
  simp only [staticEnd?, offset_nominal, Expr.static?_nominal, extent?_nominal]

end PlannedField

/-! ## Schemas -/

mutual

/-- The field with capabilities by name. -/
def Field.nominal : Field → Field
  | .plain decl => .plain decl.nominal
  | .anchor decl alternates => .anchor decl.nominal (Alternate.nominalAll alternates)

/-- The fields with capabilities by name. -/
def Field.nominalAll : List Field → List Field
  | [] => []
  | field :: fields => field.nominal :: Field.nominalAll fields

/-- The alternate with capabilities by name. -/
def Alternate.nominal : Alternate → Alternate
  | .mk name fields => .mk name (Field.nominalAll fields)

/-- The alternates with capabilities by name. -/
def Alternate.nominalAll : List Alternate → List Alternate
  | [] => []
  | alternate :: rest => alternate.nominal :: Alternate.nominalAll rest

end

theorem Field.nominalAll_eq_map (fields : List Field) :
    Field.nominalAll fields = fields.map (·.nominal) := by
  induction fields with
  | nil => rfl
  | cons field fields ih => rw [Field.nominalAll, ih, List.map_cons]

/-- The schema with capabilities by name. Two schemas have the same form if they differ in nothing
but the behaviour of their capabilities. -/
def Schema.nominal (schema : Schema) : Schema :=
  { schema with fields := schema.fields.map (·.nominal) }

/-! ## Plans of the same form -/

mutual

theorem Expr.same_of_nominal : {a b : Expr} → a.nominal = b.nominal → a.same b = true
  | .sum _ _, .sum _ _, h => by
    obtain ⟨hconstant, hterms⟩ := Expr.sum.inj h
    simp only [Expr.same, hconstant, Term.sameAll_of_nominal hterms, decide_true, Bool.and_self]

theorem Term.same_of_nominal : {t u : Term} → t.nominal = u.nominal → t.same u = true
  | .sizeOf _ _, .sizeOf _ _, h => by
    obtain ⟨hfield, hfunction⟩ := Term.sizeOf.inj h
    simp only [Term.same, hfield, SizeFunction.name_eq_of_nominal hfunction, decide_true,
      Bool.and_self]
  | .position _ _, .position _ _, h => by
    obtain ⟨hfunction, hdefault⟩ := Term.position.inj h
    simp only [Term.same, PositionFunction.name_eq_of_nominal hfunction,
      Expr.same_of_nominal hdefault, decide_true, Bool.and_self]
  | .remaining _, .remaining _, h => Expr.same_of_nominal (Term.remaining.inj h)

theorem Term.sameAll_of_nominal : {ts us : List Term} →
    Term.nominalAll ts = Term.nominalAll us → Term.sameAll ts us = true
  | [], [], _ => rfl
  | _ :: _, _ :: _, h => by
    obtain ⟨hterm, hterms⟩ := List.cons.inj h
    simp only [Term.sameAll, Term.same_of_nominal hterm, Term.sameAll_of_nominal hterms,
      Bool.and_self]

end

theorem Position.same_of_nominal :
    {position position' : Position} → position.nominal = position'.nominal →
      position.same position' = true
  | .sequential, .sequential, _ => rfl
  | .literal _, .literal _, h => decide_eq_true (Position.literal.inj h)
  | .computed _, .computed _, h =>
    decide_eq_true (PositionFunction.name_eq_of_nominal (Position.computed.inj h))

theorem Size.same_of_nominal :
    {size size' : Size} → size.nominal = size'.nominal → size.same size' = true
  | .constant _, .constant _, h => decide_eq_true (Size.constant.inj h)
  | .intrinsic _, .intrinsic _, h => decide_eq_true (Size.intrinsic.inj h)
  | .external _, .external _, h => decide_eq_true (Size.external.inj h)
  | .computed _, .computed _, h =>
    decide_eq_true (SizeFunction.name_eq_of_nominal (Size.computed.inj h))
  | .bitWidth _, .bitWidth _, h => decide_eq_true (Size.bitWidth.inj h)
  | .remainder, .remainder, _ => rfl

theorem Provider.same_of_nominal :
    {provider provider' : Provider} → provider.nominal = provider'.nominal →
      provider.same provider' = true
  | .scalar _, .scalar _, h => decide_eq_true (Provider.scalar.inj h)
  | .enumeration _ _, .enumeration _ _, h => by
    simpa only [same, Bool.and_eq_true, decide_eq_true_eq] using Provider.enumeration.inj h
  | .bitField _ _, .bitField _ _, h => by
    simpa only [same, Bool.and_eq_true, decide_eq_true_eq] using Provider.bitField.inj h
  | .composite _, .composite _, h =>
    decide_eq_true (Composite.name_eq_of_nominal (Provider.composite.inj h))
  | .rawSlice, .rawSlice, _ => rfl

theorem FieldLayout.same_of_nominal {layout layout' : FieldLayout}
    (h : layout.nominal = layout'.nominal) : layout.same layout' = true := by
  obtain ⟨hname, hposition, hoffset, hsize, hsizeExpr, hdocLines⟩ := FieldLayout.mk.inj h
  simp only [same, hname, hdocLines, Position.same_of_nominal hposition,
    Expr.same_of_nominal hoffset, Size.same_of_nominal hsize, Expr.same_of_nominal hsizeExpr,
    decide_true, Bool.and_self]

theorem Leaf.same_of_nominal {leaf leaf' : Leaf} (h : leaf.nominal = leaf'.nominal) :
    leaf.same leaf' = true := by
  obtain ⟨hprovider, haccessibility, hwritable⟩ := Leaf.mk.inj h
  simp only [same, Provider.same_of_nominal hprovider, haccessibility, hwritable, decide_true,
    Bool.and_self]

mutual

/-- Plans of the same form are the same. -/
theorem Plan.same_of_nominal : {p q : Plan} → p.nominal = q.nominal → p.same q = true
  | .mk .., .mk .., h => by
    obtain ⟨hname, hreadOnly, hfields, hminimum, htotal, hwarnings⟩ := Plan.mk.inj h
    simp only [Plan.same, hname, hreadOnly, hminimum, hwarnings, decide_true, Bool.and_self,
      PlannedField.sameAll_of_nominal hfields, Expr.same_of_nominal htotal]

theorem PlannedField.same_of_nominal :
    {p q : PlannedField} → p.nominal = q.nominal → p.same q = true
  | .mk .., .mk .., h => by
    obtain ⟨hlayout, hshape⟩ := PlannedField.mk.inj h
    simp only [PlannedField.same, FieldLayout.same_of_nominal hlayout,
      Shape.same_of_nominal hshape, Bool.and_self]

theorem Shape.same_of_nominal : {p q : Shape} → p.nominal = q.nominal → p.same q = true
  | .leaf _, .leaf _, h => by
    rw [Shape.same]
    exact Leaf.same_of_nominal (Shape.leaf.inj h)
  | .union _, .union _, h => by
    rw [Shape.same]
    exact AlternatePlan.sameAll_of_nominal (Shape.union.inj h)

theorem AlternatePlan.same_of_nominal :
    {p q : AlternatePlan} → p.nominal = q.nominal → p.same q = true
  | .mk .., .mk .., h => by
    obtain ⟨hname, hplan⟩ := AlternatePlan.mk.inj h
    simp only [AlternatePlan.same, hname, Plan.same_of_nominal hplan, decide_true, Bool.and_self]

theorem PlannedField.sameAll_of_nominal : {ps qs : List PlannedField} →
    PlannedField.nominalAll ps = PlannedField.nominalAll qs → PlannedField.sameAll ps qs = true
  | [], [], _ => by rw [PlannedField.sameAll]
  | _ :: _, _ :: _, h => by
    obtain ⟨hfield, hfields⟩ := List.cons.inj h
    simp only [PlannedField.sameAll, PlannedField.same_of_nominal hfield,
      PlannedField.sameAll_of_nominal hfields, Bool.and_self]

theorem AlternatePlan.sameAll_of_nominal : {ps qs : List AlternatePlan} →
    AlternatePlan.nominalAll ps = AlternatePlan.nominalAll qs → AlternatePlan.sameAll ps qs = true
  | [], [], _ => by rw [AlternatePlan.sameAll]
  | _ :: _, _ :: _, h => by
    obtain ⟨halternate, hrest⟩ := List.cons.inj h
    simp only [AlternatePlan.sameAll, AlternatePlan.same_of_nominal halternate,
      AlternatePlan.sameAll_of_nominal hrest, Bool.and_self]

end

end PacketLayout
