import PacketLayout.Proofs.Nominal
import PacketLayout.Proofs.Placement
import PacketLayout.Proofs.Transport

/-!
# Resolution is blind to behaviour

What a capability does is asked only when there is a buffer. A resolution sees its name, and of a
codec the static size; two schemas that agree on these are resolved alike, whatever their functions
would return.

The argument goes through a resolution step by step: each step turns the nominal form of what it is
given into the nominal form of what it makes. Numbers, diagnostics and events have no capabilities
in them, so they come out the same.

* `Resolution.ofFields_nominal` is the step for one field list.
* `Schema.resolution_nominal` carries it through the alternates of a schema.
* `Schema.resolve_blind` compares two schemas of the same form.
-/

namespace PacketLayout

/-! ## Placement -/

/-- What placing takes, with capabilities by name. -/
def Sized.nominal (field : Sized) : Sized where
  decl := field.decl.nominal
  size := field.size.map (·.nominal)

/-- The place with capabilities by name. -/
def Placement.nominal (placement : Placement) : Placement :=
  { placement with
    predicted := placement.predicted.map (·.nominal)
    offset := placement.offset.nominal }

/-- The unit with capabilities by name. -/
def OpenUnit.nominal (unit : OpenUnit) : OpenUnit := { unit with offset := unit.offset.nominal }

/-- The frontier with capabilities by name. -/
def Frontier.nominal (frontier : Frontier) : Frontier :=
  { frontier with
    next := frontier.next.map (·.nominal)
    unit := frontier.unit.map (·.nominal) }

namespace Sized

variable (field : Sized)

@[simp] theorem bitWidth?_nominal : field.nominal.bitWidth? = field.bitWidth? := by
  cases field with
  | mk decl size =>
    cases size with
    | none => rfl
    | some size => exact size.bitWidth?_nominal

@[simp] theorem typeWidth_nominal : field.nominal.typeWidth = field.typeWidth :=
  congrArg (fun kind => (kind.map IntKind.width).getD 1) field.decl.kind?_nominal

@[simp] theorem isSequential_nominal :
    field.nominal.decl.position.isSequential = field.decl.position.isSequential :=
  field.decl.position.isSequential_nominal

@[simp] theorem continues_nominal : field.nominal.continues = field.continues := by
  simp only [continues, bitWidth?_nominal, isSequential_nominal]

end Sized

namespace Frontier

variable (frontier : Frontier) (field : Sized)

theorem close_nominal : frontier.nominal.close = frontier.close.nominal := by
  cases frontier with
  | mk next unit units =>
    cases unit with
    | none => rfl
    | some unit =>
      cases unit with
      | mk group offset used width anchored =>
        cases anchored with
        | true =>
          simp [close, nominal, OpenUnit.nominal]
        | false => rfl

theorem closeIfFull_nominal : frontier.nominal.closeIfFull = frontier.closeIfFull.nominal := by
  cases hunit : frontier.unit with
  | none => simp only [closeIfFull, nominal, hunit, Option.map_none]
  | some unit =>
    have hnominal : frontier.nominal.unit = some unit.nominal :=
      congrArg (Option.map OpenUnit.nominal) hunit
    cases hfull : unit.isFull with
    | true =>
      rw [closeIfFull_of_isFull hunit hfull, closeIfFull_of_isFull hnominal hfull, close_nominal]
    | false =>
      rw [closeIfFull_of_not_isFull hunit hfull, closeIfFull_of_not_isFull hnominal hfull]

theorem join_nominal (unit : OpenUnit) (typeWidth width : Nat) :
    frontier.nominal.join unit.nominal typeWidth width =
      (frontier.join unit typeWidth width).map Placement.nominal Frontier.nominal := by
  refine Prod.ext ?_ (closeIfFull_nominal ⟨frontier.next, some { unit with
    used := unit.used + width
    width := max unit.width typeWidth }, frontier.units⟩)
  cases unit with
  | mk group offset used width anchored => cases anchored <;> rfl

theorem getD_next_nominal :
    frontier.nominal.next.getD .zero = (frontier.next.getD .zero).nominal := by
  cases hnext : frontier.next <;> simp [nominal, hnext]

theorem start_nominal :
    frontier.nominal.start field.nominal =
      (frontier.start field).map Placement.nominal Frontier.nominal := by
  have hoffset : field.nominal.decl.position.offset (frontier.nominal.next.getD .zero) =
      (field.decl.position.offset (frontier.next.getD .zero)).nominal := by
    rw [getD_next_nominal]
    exact Position.offset_nominal ..
  have hanchored :
      (frontier.nominal.next.isSome || !field.nominal.decl.position.isSequential) =
        (frontier.next.isSome || !field.decl.position.isSequential) := by
    rw [Sized.isSequential_nominal, nominal, Option.isSome_map]
  cases hwidth : field.bitWidth? with
  | some width =>
    have hopened : frontier.nominal.opened field.nominal width =
        (frontier.opened field width).nominal := by
      simp only [opened, hoffset, hanchored, Sized.typeWidth_nominal]
      rfl
    rw [start_of_bitWidth hwidth, start_of_bitWidth (field.bitWidth?_nominal.trans hwidth),
      hopened, hoffset, Sized.typeWidth_nominal]
    exact Prod.ext rfl (closeIfFull_nominal ⟨none, some (frontier.opened field width), _⟩)
  | none =>
    simp only [start, hwidth, field.bitWidth?_nominal.trans hwidth, hoffset, hanchored]
    generalize field.decl.position.offset (frontier.next.getD .zero) = offset
    have hstop : field.nominal.size.map (fun size =>
          offset.nominal.plus (size.expr field.nominal.decl.name offset.nominal none)) =
        (field.size.map fun size =>
          offset.plus (size.expr field.decl.name offset none)).map (·.nominal) := by
      cases field with
      | mk decl size => cases size <;> simp [Sized.nominal, Declaration.nominal]
    rw [hstop]
    cases frontier.next.isSome || !field.decl.position.isSequential <;> rfl

theorem place_nominal :
    frontier.nominal.place field.nominal =
      (frontier.place field).map Placement.nominal Frontier.nominal := by
  cases hjoins : field.continues with
  | false =>
    rw [place_of_not_continues hjoins,
      place_of_not_continues (field.continues_nominal.trans hjoins), close_nominal, start_nominal]
  | true =>
    obtain ⟨⟨width, hwidth⟩, hposition⟩ := Sized.continues_eq_true_iff.1 hjoins
    have hposition' : field.nominal.decl.position = .sequential :=
      congrArg Position.nominal hposition
    cases hunit : frontier.unit with
    | none =>
      have hnominal : frontier.nominal.unit = none := congrArg (Option.map OpenUnit.nominal) hunit
      rw [place_of_none hunit, place_of_none hnominal, start_nominal]
    | some unit =>
      have hnominal : frontier.nominal.unit = some unit.nominal :=
        congrArg (Option.map OpenUnit.nominal) hunit
      rw [place_of_continues hunit hwidth hposition,
        place_of_continues hnominal (field.bitWidth?_nominal.trans hwidth) hposition',
        Sized.typeWidth_nominal, join_nominal]

theorem placeAll_nominal (fields : List Sized) :
    frontier.nominal.placeAll (fields.map (·.nominal)) =
      (frontier.placeAll fields).map (·.nominal) := by
  induction fields generalizing frontier with
  | nil => rfl
  | cons field fields ih =>
    rw [List.map_cons, placeAll, place_nominal, placeAll, List.map_cons]
    exact congrArg _ (ih _)

end Frontier

theorem membersOf_nominal (placements : List Placement) (group : Nat) :
    membersOf (placements.map (·.nominal)) group = membersOf placements group := by
  rw [membersOf, List.filterMap_map]
  rfl

@[simp] theorem unitWidth_nominal (placements : List Placement) :
    unitWidth (placements.map (·.nominal)) = unitWidth placements := by
  funext group
  rw [unitWidth, membersOf_nominal]
  rfl

/-! ## Shapes -/

/-- The resolution with capabilities by name. -/
def Resolution.nominal (resolution : Resolution) : Resolution :=
  { resolution with outcome := resolution.outcome.map (·.nominal) }

/-- The field with capabilities by name, also in its alternates. -/
def Prepared.nominal (field : Prepared) : Prepared where
  decl := field.decl.nominal
  alternates := field.alternates.map fun alternates =>
    alternates.map (Prod.map id Resolution.nominal)

/-- The field in its place with capabilities by name. -/
def Positioned.nominal (field : Positioned) : Positioned :=
  { field with
    field := field.field.nominal
    placement := field.placement.nominal }

/-- The entry with capabilities by name. -/
def Entry.nominal (entry : Entry) : Entry :=
  { entry with
    field := entry.field.nominal
    predicted := entry.predicted.map (·.nominal) }

/-- The shape with capabilities by name, and the same report. -/
def Shaping.nominal (shaping : Shaping) : Shaping :=
  { shaping with shape := shaping.shape.map (·.nominal) }

/-- The plan with capabilities by name, and the same report. -/
def AlternateShaping.nominal (shaping : AlternateShaping) : AlternateShaping :=
  { shaping with plan := shaping.plan.map (·.nominal) }

/-- The entry with capabilities by name, and the same report. -/
def Settled.nominal (settled : Settled) : Settled :=
  { settled with entry := settled.entry.map (·.nominal) }

theorem Prepared.size_nominal (field : Prepared) :
    field.nominal.size = field.size.map (·.nominal) := by
  simp only [Prepared.size, Prepared.nominal, Option.isSome_map, Size.resolve_nominal]

theorem Prepared.sized_nominal (field : Prepared) :
    field.nominal.sized = field.sized.nominal := by
  simp only [Prepared.sized, Prepared.size_nominal]
  cases field.size <;> rfl

theorem Positioned.zip_nominal (fields : List Prepared) (placements : List Placement) :
    zip (fields.map (·.nominal)) (placements.map (·.nominal)) =
      (zip fields placements).map (·.nominal) := by
  induction fields generalizing placements with
  | nil => rfl
  | cons field fields ih =>
    cases placements with
    | nil => rfl
    | cons placement placements =>
      simp only [List.map_cons, zip, ih, List.isEmpty_map]
      rfl

theorem shapeLeaf_nominal (readOnly : Bool) (decl : Declaration) (size : Size)
    (slot : Option BitSlot) :
    shapeLeaf readOnly decl.nominal size.nominal slot =
      (shapeLeaf readOnly decl size slot).nominal := by
  rw [shapeLeaf, Provider.resolve_nominal, shapeLeaf]
  cases Provider.resolve decl size slot with
  | error defect => rfl
  | ok provider =>
    simp only [Except.map, Provider.isWritable_nominal]
    rfl

theorem AlternatePlan.change_nominal :
    AlternatePlan.change (fun _ => Plan.nominal) = AlternatePlan.nominal := by
  funext alternate
  cases alternate
  rfl

theorem shapeAlternates_nominal (anchor : String) (available : Option Nat) (seen : List String)
    (alternates : List (String × Resolution)) :
    shapeAlternates anchor available seen (alternates.map (Prod.map id Resolution.nominal)) =
      (shapeAlternates anchor available seen alternates).map (·.nominal) := by
  have hchange := shapeAlternates_change (f := fun _ => Plan.nominal)
    (fun _ plan => plan.minimumSize_nominal) anchor available seen alternates
  simp only [AlternateShaping.change, AlternatePlan.change_nominal] at hchange
  exact hchange

theorem alternateWarnings_nominal (anchor : String) (alternates : List AlternatePlan) :
    alternateWarnings anchor (alternates.map (·.nominal)) =
      alternateWarnings anchor alternates := by
  rw [← AlternatePlan.change_nominal]
  exact alternateWarnings_change (fun _ plan => plan.warnings_nominal) anchor alternates

theorem shapeUnion_nominal (decl : Declaration) (size : Size)
    (alternates : List (String × Resolution)) :
    shapeUnion decl.nominal size.nominal (alternates.map (Prod.map id Resolution.nominal)) =
      (shapeUnion decl size alternates).nominal := by
  have hname : decl.nominal.type.name = decl.type.name := decl.type.name_nominal
  have hplans (shaped : List AlternateShaping) :
      (shaped.map (·.nominal)).filterMap (·.plan) =
        (shaped.filterMap (·.plan)).map (·.nominal) := by
    rw [List.filterMap_map, List.map_filterMap]
    rfl
  simp only [shapeUnion, Size.fixed_nominal, hname, List.isEmpty_map, shapeAlternates_nominal,
    hplans, List.all_map, List.flatMap_map, alternateWarnings_nominal, Shaping.nominal,
    apply_ite (Option.map Shape.nominal), Option.map_some, Option.map_none, Shape.nominal_union]
  rfl

/-! ## Fields -/

theorem Shaping.settled_nominal (shaping : Shaping) (layout : FieldLayout)
    (predicted : Option Expr) (isLast : Bool) :
    shaping.nominal.settled layout.nominal (predicted.map (·.nominal)) isLast =
      (shaping.settled layout predicted isLast).nominal := by
  simp only [settled, nominal, FieldLayout.nominal, Expr.constant_nominal, Expr.text_nominal,
    Option.isSome_map, Settled.nominal, Option.map_map]
  rfl

namespace Positioned

variable {readOnly : Bool} {unitWidth : Nat → Nat} {field : Positioned} {size : Size}

theorem layout_nominal :
    field.nominal.layout unitWidth size.nominal = (field.layout unitWidth size).nominal := by
  simp only [layout, FieldLayout.nominal, ← Size.expr_nominal]
  rfl

theorem settle_nominal :
    field.nominal.settle readOnly unitWidth = (field.settle readOnly unitWidth).nominal := by
  have hnominal : field.nominal.field.size = field.field.size.map (·.nominal) :=
    field.field.size_nominal
  cases hsize : field.field.size with
  | error defect =>
    rw [hsize] at hnominal
    rw [settle, hnominal, settle, hsize]
    rfl
  | ok size =>
    rw [hsize] at hnominal
    cases halternates : field.field.alternates with
    | none =>
      have hplain : field.nominal.field.alternates = none := congrArg (Option.map _) halternates
      rw [settle_of_plain hsize halternates, settle_of_plain hnominal hplain, layout_nominal,
        ← Shaping.settled_nominal, ← shapeLeaf_nominal]
      rfl
    | some alternates =>
      have hanchor : field.nominal.field.alternates =
          some (alternates.map (Prod.map id Resolution.nominal)) :=
        congrArg (Option.map _) halternates
      rw [settle_of_anchor hsize halternates, settle_of_anchor hnominal hanchor, layout_nominal,
        ← Shaping.settled_nominal, ← shapeUnion_nominal]
      rfl

end Positioned

/-! ## Checks of a whole layout -/

theorem PlannedField.keepsSlots_nominal : KeepsSlots PlannedField.nominal where
  name := PlannedField.name_nominal
  slot? := PlannedField.slot?_nominal

theorem unitDiagnostics_nominal (fields : List PlannedField) (units : Nat) :
    unitDiagnostics (fields.map (·.nominal)) units = unitDiagnostics fields units :=
  PlannedField.keepsSlots_nominal.unitDiagnostics_map fields units

theorem totalSize_nominal (fields : List PlannedField) :
    totalSize (fields.map (·.nominal)) = (totalSize fields).nominal :=
  PlannedField.keepsSlots_nominal.totalSize_map (fun field => field.sizeExpr_nominal) rfl
    Expr.nominal_plus fields

theorem minimumSize_nominal (fields : List PlannedField) :
    minimumSize (fields.map (·.nominal)) = minimumSize fields := by
  rw [minimumSize, furthestEnd_map PlannedField.staticEnd?_nominal,
    PlannedField.keepsSlots_nominal.knownSum_map PlannedField.extent?_nominal, minimumSize]

namespace Entry

variable (entry : Entry)

theorem position_nominal :
    entry.nominal.field.layout.position = entry.field.layout.position.nominal :=
  congrArg FieldLayout.position entry.field.layout_nominal

theorem static?_predicted_nominal :
    entry.nominal.predicted.bind (·.static?) = entry.predicted.bind (·.static?) := by
  cases hpredicted : entry.predicted <;> simp [nominal, hpredicted]

theorem mismatch?_nominal : entry.nominal.mismatch? = entry.mismatch? := by
  rw [mismatch?, position_nominal, static?_predicted_nominal, mismatch?]
  cases entry.field.layout.position <;> rfl

theorem mismatchDiagnostic?_nominal :
    entry.nominal.mismatchDiagnostic? = entry.mismatchDiagnostic? := by
  have hname : entry.nominal.field.name = entry.field.name := entry.field.name_nominal
  rw [mismatchDiagnostic?, mismatch?_nominal, hname]
  rfl

theorem positionEvent?_nominal (policy : MismatchPolicy) :
    entry.nominal.positionEvent? policy = entry.positionEvent? policy := by
  have hname : entry.nominal.field.name = entry.field.name := entry.field.name_nominal
  unfold positionEvent?
  rw [position_nominal, static?_predicted_nominal, hname]
  cases entry.field.layout.position <;> rfl

theorem remainderDiagnostic?_nominal :
    entry.nominal.remainderDiagnostic? = entry.remainderDiagnostic? := by
  simp only [remainderDiagnostic?, nominal, PlannedField.size_nominal, Size.isRemainder_nominal,
    PlannedField.name_nominal]

end Entry

/-! ## Field lists -/

namespace Prepared

variable (readOnly : Bool) (fields : List Prepared)

theorem placements_nominal :
    placements (fields.map (·.nominal)) = (placements fields).map (·.nominal) := by
  have hsized :
      (fields.map (·.nominal)).map (·.sized) = (fields.map (·.sized)).map (·.nominal) := by
    rw [List.map_map, List.map_map]
    exact List.map_congr_left fun field _ => field.sized_nominal
  rw [placements, hsized]
  exact Frontier.initial.placeAll_nominal _

theorem settled_nominal :
    settled readOnly (fields.map (·.nominal)) = (settled readOnly fields).map (·.nominal) := by
  rw [settled, positioned, placements_nominal, Positioned.zip_nominal, unitWidth_nominal,
    List.map_map, settled, positioned, List.map_map]
  exact List.map_congr_left fun field _ => field.settle_nominal

theorem entries_nominal :
    entries readOnly (fields.map (·.nominal)) = (entries readOnly fields).map (·.nominal) := by
  rw [entries, settled_nominal, List.filterMap_map, entries, List.map_filterMap]
  rfl

theorem planned_nominal :
    planned readOnly (fields.map (·.nominal)) = (planned readOnly fields).map (·.nominal) := by
  rw [planned, entries_nominal, List.map_map, planned, List.map_map]
  rfl

theorem mismatches_nominal :
    mismatches readOnly (fields.map (·.nominal)) = mismatches readOnly fields := by
  rw [mismatches, entries_nominal, List.filterMap_map]
  exact List.filterMap_congr fun entry _ => entry.mismatchDiagnostic?_nominal

theorem reported_nominal (policy : MismatchPolicy) :
    reported policy readOnly (fields.map (·.nominal)) = reported policy readOnly fields := by
  have hremainders :
      (entries readOnly (fields.map (·.nominal))).filterMap (·.remainderDiagnostic?) =
        (entries readOnly fields).filterMap (·.remainderDiagnostic?) := by
    rw [entries_nominal, List.filterMap_map]
    exact List.filterMap_congr fun entry _ => entry.remainderDiagnostic?_nominal
  simp only [reported, hremainders, mismatches_nominal, settled_nominal, planned_nominal,
    unitDiagnostics_nominal, List.map_map, List.flatMap_map, List.length_map]
  rfl

theorem tolerated_nominal (policy : MismatchPolicy) :
    tolerated policy readOnly (fields.map (·.nominal)) = tolerated policy readOnly fields := by
  simp only [tolerated, mismatches_nominal, settled_nominal, List.flatMap_map]
  rfl

end Prepared

namespace Resolution

/-- Resolutions are determined by their parts. -/
theorem eq_of_parts {r r' : Resolution} (hinRange : r.inRange = r'.inRange)
    (hevents : r.events = r'.events) (houtcome : r.outcome = r'.outcome) : r = r' := by
  cases r; cases r'
  cases hinRange; cases hevents; cases houtcome
  rfl

variable (policy : MismatchPolicy) (readOnly : Bool) (name : String) (fields : List Prepared)

theorem inRange_nominal :
    (ofFields policy readOnly name (fields.map (·.nominal))).inRange =
      (ofFields policy readOnly name fields).inRange := by
  rw [inRange_ofFields, inRange_ofFields, Prepared.settled_nominal, Prepared.planned_nominal,
    totalSize_nominal, Expr.constant_nominal, List.all_map]
  rfl

theorem events_ofFields :
    (ofFields policy readOnly name fields).events =
      (Prepared.settled readOnly fields).flatMap (·.events) ++
        (Prepared.entries readOnly fields).filterMap (·.positionEvent? policy) :=
  rfl

theorem events_nominal :
    (ofFields policy readOnly name (fields.map (·.nominal))).events =
      (ofFields policy readOnly name fields).events := by
  have hpositions :
      (Prepared.entries readOnly (fields.map (·.nominal))).filterMap (·.positionEvent? policy) =
        (Prepared.entries readOnly fields).filterMap (·.positionEvent? policy) := by
    rw [Prepared.entries_nominal, List.filterMap_map]
    exact List.filterMap_congr fun entry _ => entry.positionEvent?_nominal policy
  rw [events_ofFields, events_ofFields, hpositions, Prepared.settled_nominal, List.flatMap_map]
  rfl

theorem outcome_nominal :
    (ofFields policy readOnly name (fields.map (·.nominal))).outcome =
      (ofFields policy readOnly name fields).outcome.map (·.nominal) := by
  rw [outcome_ofFields, outcome_ofFields, Prepared.reported_nominal, Prepared.tolerated_nominal,
    Prepared.planned_nominal, minimumSize_nominal, totalSize_nominal, ← Plan.nominal_mk]
  split <;> rfl

/-- A field list in nominal form has the resolution of the list, in nominal form. -/
theorem ofFields_nominal :
    ofFields policy readOnly name (fields.map (·.nominal)) =
      (ofFields policy readOnly name fields).nominal :=
  eq_of_parts (inRange_nominal ..) (events_nominal ..) (outcome_nominal ..)

end Resolution

/-! ## Schemas -/

mutual

theorem Field.prepare_nominal (policy : MismatchPolicy) (readOnly : Bool) :
    (field : Field) →
      field.nominal.prepare policy readOnly = (field.prepare policy readOnly).nominal
  | .plain _ => rfl
  | .anchor decl alternates => by
    rw [Field.nominal, Field.prepare, Field.prepare, Alternate.resolveAll_nominal]
    rfl

theorem Field.prepareAll_nominal (policy : MismatchPolicy) (readOnly : Bool) :
    (fields : List Field) →
      Field.prepareAll policy readOnly (Field.nominalAll fields) =
        (Field.prepareAll policy readOnly fields).map (·.nominal)
  | [] => rfl
  | field :: fields => by
    rw [Field.nominalAll, Field.prepareAll, Field.prepare_nominal, Field.prepareAll_nominal,
      Field.prepareAll, List.map_cons]

theorem Alternate.resolve_nominal (policy : MismatchPolicy) (readOnly : Bool) :
    (alternate : Alternate) →
      alternate.nominal.resolve policy readOnly =
        (alternate.resolve policy readOnly).map id Resolution.nominal
  | .mk name fields => by
    rw [Alternate.nominal, Alternate.resolve, Field.prepareAll_nominal,
      Resolution.ofFields_nominal, Alternate.resolve, Prod.map_apply, id_eq]

theorem Alternate.resolveAll_nominal (policy : MismatchPolicy) (readOnly : Bool) :
    (alternates : List Alternate) →
      Alternate.resolveAll policy readOnly (Alternate.nominalAll alternates) =
        (Alternate.resolveAll policy readOnly alternates).map (Prod.map id Resolution.nominal)
  | [] => rfl
  | alternate :: rest => by
    rw [Alternate.nominalAll, Alternate.resolveAll, Alternate.resolve_nominal,
      Alternate.resolveAll_nominal, Alternate.resolveAll, List.map_cons]

end

/-- Two resolutions end alike: with plans that are the same up to the behaviour of capabilities, or
with the very same failure. -/
inductive SameOutcome :
    Except (Failure ResolveError) Plan → Except (Failure ResolveError) Plan → Prop
  | plans {plan plan' : Plan} (same : plan.same plan' = true) : SameOutcome (.ok plan) (.ok plan')
  | failure (failure : Failure ResolveError) : SameOutcome (.error failure) (.error failure)

theorem SameOutcome.of_nominal {result result' : Except (Failure ResolveError) Plan}
    (h : result.map (·.nominal) = result'.map (·.nominal)) : SameOutcome result result' := by
  cases result with
  | error failure =>
    cases result' with
    | error failure' =>
      obtain rfl := Except.error.inj h
      exact .failure failure
    | ok plan' => cases h
  | ok plan =>
    cases result' with
    | error failure' => cases h
    | ok plan' => exact .plans (Plan.same_of_nominal (Except.ok.inj h))

namespace Schema

variable (schema : Schema) (policy : MismatchPolicy)

theorem resolution_nominal :
    schema.nominal.resolution policy = (schema.resolution policy).nominal := by
  rw [resolution, resolution, resolveFields, resolveFields, nominal, ← Field.prepareAll_eq_map,
    ← Field.nominalAll_eq_map, Field.prepareAll_nominal, Resolution.ofFields_nominal,
    Field.prepareAll_eq_map]

theorem resolve_nominal :
    schema.nominal.resolve policy = (schema.resolve policy).map (·.nominal) := by
  rw [resolve, resolution_nominal, resolve]
  obtain ⟨inRange, events, outcome⟩ := schema.resolution policy
  cases inRange with
  | false => rfl
  | true => cases outcome <;> rfl

theorem lastEvent_nominal (outcome : Except (List Diagnostic) Plan) :
    lastEvent (outcome.map (·.nominal)) = lastEvent outcome := by
  cases outcome with
  | error diagnostics => rfl
  | ok plan => simp [lastEvent, Except.map]

theorem trace_nominal : schema.nominal.trace policy = schema.trace policy := by
  rw [trace, resolution_nominal, trace]
  simp only [Resolution.nominal, lastEvent_nominal]
  rfl

/-- Schemas that differ in nothing but the behaviour of their capabilities are resolved alike under
every policy, and the same happens on the way. -/
theorem resolve_blind {schema schema' : Schema} (h : schema.nominal = schema'.nominal)
    (policy : MismatchPolicy) :
    SameOutcome (schema.resolve policy) (schema'.resolve policy) ∧
      schema.trace policy = schema'.trace policy := by
  constructor
  · refine SameOutcome.of_nominal ?_
    rw [← resolve_nominal, ← resolve_nominal, h]
  · rw [← trace_nominal schema, h, trace_nominal]

end Schema

/-- A body as long as a function tells, and behind it, where another function tells, an anchor over
a composite of two bytes. -/
def guidedSchema (length : Bytes → Nat) (start : Bytes → Nat → Nat) (codec : Codec) : Schema where
  name := "Guided"
  fields :=
    [.plain { name := "body", type := .bytes, sizeFunction := some ⟨"body_length", length⟩ },
      .anchor { name := "tail", type := .byteArray 2, position := .computed ⟨"tail_start", start⟩ }
        [.mk "address" [.plain { name := "host", type := .composite ⟨"Address", codec⟩ }]]]

/-- The tail is one byte behind the body. -/
def behindSchema : Schema :=
  guidedSchema List.length (fun _ default => default + 1) (.byteArray (some 2))

/-- The tail is at the end of the buffer, and nothing can be read from it. -/
def beyondSchema : Schema :=
  guidedSchema (fun _ => 0) (fun data _ => data.length)
    { staticSize := some 2, construct := fun _ => none }

theorem behindSchema_blind :
    behindSchema.nominal = beyondSchema.nominal ∧
      ∃ plan plan', behindSchema.resolve .error = .ok plan ∧
        beyondSchema.resolve .error = .ok plan' ∧ plan.same plan' = true := by
  have hforms : behindSchema.nominal = beyondSchema.nominal := rfl
  refine ⟨hforms, ?_⟩
  obtain ⟨plan, hplan⟩ : ∃ plan, behindSchema.resolve .error = .ok plan := ⟨_, rfl⟩
  have hends := (Schema.resolve_blind hforms .error).1
  rw [hplan] at hends
  generalize beyondSchema.resolve .error = result at hends
  cases hends with
  | plans same => exact ⟨plan, _, hplan, rfl, same⟩

end PacketLayout
