import PacketLayout.Layout.Validation

/-!
# Resolution

A schema becomes a plan, or a list of everything that is wrong with it.

A field list is resolved in three steps. Every field is placed (`Frontier.placeAll`), every field is
given its shape (`Positioned.settle`), and the fields that have one are checked as a whole. The
alternates of a union anchor are resolved first, each as a field list of its own; an anchor takes
their plans over (`Field.prepare`).

* `Resolution.ofFields` resolves one list, given its alternates.
* `Schema.resolve` is the whole, and `Schema.trace` tells what happened on the way.
* All sums of offsets and sizes are exact. If one of them is no 64-bit number, the schema has
  neither a plan nor diagnostics but a fault (`Resolution.inRange`).
-/

namespace PacketLayout

/-- What became of a field list. -/
structure Resolution where
  /-- every offset, size and sum that was formed is a 64-bit number -/
  inRange : Bool
  events : List Event
  outcome : Except (List Diagnostic) Plan

/-- A field whose alternates have been resolved, each with its name. -/
structure Prepared where
  decl : Declaration
  alternates : Option (List (String × Resolution))

/-- The size of the field. -/
def Prepared.size (field : Prepared) : Except Defect Size :=
  Size.resolve field.decl field.alternates.isSome

/-- The field as far as placing it is concerned. -/
def Prepared.sized (field : Prepared) : Sized :=
  ⟨field.decl, field.size.toOption⟩

/-- A field in its place. -/
structure Positioned where
  field : Prepared
  placement : Placement
  /-- no field follows -/
  isLast : Bool

/-- Fields together with their places, both in order. -/
def Positioned.zip : List Prepared → List Placement → List Positioned
  | field :: fields, placement :: placements =>
    ⟨field, placement, fields.isEmpty⟩ :: Positioned.zip fields placements
  | _, _ => []

/-! ## Names -/

/-- The names in a list that are empty or were seen before. -/
def invalidNames (seen : List String) : List String → List String
  | [] => []
  | name :: names =>
    if name = "" ∨ name ∈ seen then name :: invalidNames seen names
    else invalidNames (name :: seen) names

/-! ## Shapes -/

/-- What giving a field its shape has to report. -/
structure Shaping where
  inRange : Bool := true
  events : List Event := []
  diagnostics : List Diagnostic := []
  warnings : List Diagnostic := []
  shape : Option Shape := none

/-- The shape of a field without alternates. -/
def shapeLeaf (readOnly : Bool) (decl : Declaration) (size : Size) (slot : Option BitSlot) :
    Shaping :=
  match Provider.resolve decl size slot with
  | .ok provider =>
    let writable := !readOnly && !decl.readOnly && provider.isWritable
    { shape := some (.leaf ⟨provider, decl.accessibility.getD .everyone, writable⟩) }
  | .error defect => { diagnostics := [.ofField decl.name defect] }

/-- What an alternate contributes to its anchor. -/
structure AlternateShaping where
  inRange : Bool := true
  events : List Event := []
  diagnostics : List Diagnostic := []
  plan : Option AlternatePlan := none

/-- An alternate with a good name, given the size of its anchor where that is fixed. -/
def shapeAlternate (anchor : String) (available : Option Nat) (name : String)
    (resolution : Resolution) : AlternateShaping :=
  let path := anchor ++ "." ++ name
  match resolution.outcome with
  | .error diagnostics =>
    { inRange := resolution.inRange
      events := resolution.events
      diagnostics := diagnostics.map (·.nested path) }
  | .ok plan =>
    match available.filter (· < plan.minimumSize) with
    | some available =>
      { inRange := resolution.inRange
        events := resolution.events
        diagnostics :=
          [.ofLayout anchor (.alternateTooLarge name plan.minimumSize available)] }
    | none =>
      { inRange := resolution.inRange
        events := resolution.events ++ [.alternateResolved anchor name plan.minimumSize]
        plan := some (.mk name plan) }

/-- The alternates of an anchor in order. One with an empty name, or with a name in `seen`, is
refused unseen. -/
def shapeAlternates (anchor : String) (available : Option Nat) (seen : List String) :
    List (String × Resolution) → List AlternateShaping
  | [] => []
  | (name, resolution) :: rest =>
    if name = "" ∨ name ∈ seen then
      { diagnostics := [.ofField (anchor ++ "." ++ name) .invalidFieldName] }
        :: shapeAlternates anchor available seen rest
    else
      shapeAlternate anchor available name resolution
        :: shapeAlternates anchor available (name :: seen) rest

/-- The warnings of alternates as their anchor's field list reports them. -/
def alternateWarnings (anchor : String) (alternates : List AlternatePlan) : List Diagnostic :=
  alternates.flatMap fun alternate =>
    alternate.plan.warnings.map (·.nested (anchor ++ "." ++ alternate.name))

/-- The shape of a union anchor. -/
def shapeUnion (decl : Declaration) (size : Size) (alternates : List (String × Resolution)) :
    Shaping :=
  let misuses :=
    (if decl.accessibility.isSome then [.ofField decl.name .unionAccessibility] else []) ++
    (if decl.enumBacking.isSome then
      [.ofField decl.name (.enumBackingOnNonEnum decl.type.name)] else [])
  let shaped := shapeAlternates decl.name size.fixed [] alternates
  let defects :=
    if alternates.isEmpty then [.ofField decl.name .emptyUnion]
    else shaped.flatMap (·.diagnostics)
  let plans := shaped.filterMap (·.plan)
  { inRange := shaped.all (·.inRange)
    events := shaped.flatMap (·.events)
    diagnostics := misuses ++ defects
    warnings := if defects.isEmpty then alternateWarnings decl.name plans else []
    shape := if defects.isEmpty then some (.union plans) else none }

/-! ## Fields -/

/-- What a field contributes to its list. -/
structure Settled where
  inRange : Bool := true
  events : List Event := []
  diagnostics : List Diagnostic := []
  warnings : List Diagnostic := []
  entry : Option Entry := none

/-- Give a placed field its shape. `unitWidth` tells the width of each unit of bit-fields. -/
def Positioned.settle (readOnly : Bool) (unitWidth : Nat → Nat) (field : Positioned) : Settled :=
  let decl := field.field.decl
  match field.field.size with
  | .error defect => { diagnostics := [⟨decl.name, defect⟩] }
  | .ok size =>
    let slot := field.placement.member.map fun member => member.slot (unitWidth member.group)
    let offset := field.placement.offset
    let sizeExpr := size.expr decl.name offset slot
    let shaping :=
      match field.field.alternates with
      | none => shapeLeaf readOnly decl size slot
      | some alternates => shapeUnion decl size alternates
    let layout :=
      { name := decl.name, position := decl.position, offset, size, sizeExpr
        docLines := decl.docLines }
    { inRange := shaping.inRange && decide (offset.constant + sizeExpr.constant < wordLimit)
      events :=
        if shaping.shape.isSome then
          shaping.events ++ [.fieldResolved decl.name offset.text sizeExpr.text]
        else shaping.events
      diagnostics := shaping.diagnostics
      warnings := shaping.warnings
      entry := shaping.shape.map fun shape =>
        ⟨.mk layout shape, field.placement.predicted, field.isLast⟩ }

/-! ## Field lists -/

/-- Resolve a field list whose alternates have been resolved. -/
def Resolution.ofFields (policy : MismatchPolicy) (readOnly : Bool) (name : String)
    (fields : List Prepared) : Resolution :=
  let placements := Frontier.initial.placeAll (fields.map (·.sized))
  let settled :=
    (Positioned.zip fields placements).map (·.settle readOnly (unitWidth placements))
  let entries := settled.filterMap (·.entry)
  let planned := entries.map (·.field)
  let mismatches := entries.filterMap (·.mismatchDiagnostic?)
  let diagnostics :=
    (invalidNames [] (fields.map (·.decl.name))).map (.ofField · .invalidFieldName) ++
    settled.flatMap (·.diagnostics) ++
    (match policy with
      | .error => mismatches
      | .warn => []) ++
    entries.filterMap (·.remainderDiagnostic?) ++
    unitDiagnostics planned fields.length
  let warnings :=
    settled.flatMap (·.warnings) ++
    (match policy with
      | .error => []
      | .warn => mismatches)
  { inRange := settled.all (·.inRange) && decide ((totalSize planned).constant < wordLimit)
    events := settled.flatMap (·.events) ++ entries.filterMap (·.positionEvent? policy)
    outcome :=
      if diagnostics.isEmpty then
        .ok (.mk name readOnly planned (minimumSize planned) (totalSize planned) warnings)
      else .error diagnostics }

mutual

/-- Resolve the alternates of a field. Below a read-only anchor everything is read-only. -/
def Field.prepare (policy : MismatchPolicy) (readOnly : Bool) : Field → Prepared
  | .plain decl => ⟨decl, none⟩
  | .anchor decl alternates =>
    ⟨decl, some (Alternate.resolveAll policy (readOnly || decl.readOnly) alternates)⟩

/-- Resolve the alternates of every field in a list. -/
def Field.prepareAll (policy : MismatchPolicy) (readOnly : Bool) : List Field → List Prepared
  | [] => []
  | field :: fields => field.prepare policy readOnly :: Field.prepareAll policy readOnly fields

/-- Resolve an alternate as a field list of its own. -/
def Alternate.resolve (policy : MismatchPolicy) (readOnly : Bool) : Alternate → String × Resolution
  | .mk name fields =>
    (name, .ofFields policy readOnly name (Field.prepareAll policy readOnly fields))

/-- Resolve every alternate in a list. -/
def Alternate.resolveAll (policy : MismatchPolicy) (readOnly : Bool) :
    List Alternate → List (String × Resolution)
  | [] => []
  | alternate :: rest =>
    alternate.resolve policy readOnly :: Alternate.resolveAll policy readOnly rest

end

theorem Field.prepareAll_eq_map (policy : MismatchPolicy) (readOnly : Bool)
    (fields : List Field) :
    Field.prepareAll policy readOnly fields = fields.map (·.prepare policy readOnly) := by
  induction fields with
  | nil => rfl
  | cons field fields ih => rw [Field.prepareAll, ih, List.map_cons]

theorem Alternate.resolveAll_eq_map (policy : MismatchPolicy) (readOnly : Bool)
    (alternates : List Alternate) :
    Alternate.resolveAll policy readOnly alternates =
      alternates.map (·.resolve policy readOnly) := by
  induction alternates with
  | nil => rfl
  | cons alternate alternates ih => rw [Alternate.resolveAll, ih, List.map_cons]

/-- Resolve a named field list with everything in it. -/
def resolveFields (policy : MismatchPolicy) (readOnly : Bool) (name : String)
    (fields : List Field) : Resolution :=
  .ofFields policy readOnly name (fields.map (·.prepare policy readOnly))

theorem Alternate.resolve_eq (policy : MismatchPolicy) (readOnly : Bool) (alternate : Alternate) :
    alternate.resolve policy readOnly =
      (alternate.name, resolveFields policy readOnly alternate.name alternate.fields) := by
  cases alternate
  rw [Alternate.resolve, Field.prepareAll_eq_map]
  rfl

/-! ## Schemas -/

namespace Schema

/-- What becomes of the field list of a schema. -/
def resolution (schema : Schema) (policy : MismatchPolicy) : Resolution :=
  resolveFields policy schema.readOnly schema.name schema.fields

/-- The plan of a schema, or everything that is wrong with it. -/
def resolve (schema : Schema) (policy : MismatchPolicy) : Except (Failure ResolveError) Plan :=
  let resolution := schema.resolution policy
  if resolution.inRange then
    match resolution.outcome with
    | .ok plan => .ok plan
    | .error diagnostics => .error (.error ⟨schema.name, diagnostics⟩)
  else .error (.fault .addOverflow)

/-- How a resolution ends. -/
def lastEvent : Except (List Diagnostic) Plan → Event
  | .ok plan => .schemaResolved plan.fields.length plan.minimumSize plan.warnings.length
  | .error diagnostics => .schemaRefused diagnostics.length

/-- What happens while a schema is resolved, in order. -/
def trace (schema : Schema) (policy : MismatchPolicy) : Except Fault (List Event) :=
  let resolution := schema.resolution policy
  if resolution.inRange then
    .ok (.entered schema.name :: resolution.events ++ [lastEvent resolution.outcome, .exited])
  else .error .addOverflow

end Schema

end PacketLayout
