import PacketLayout.Proofs.Blindness

/-!
# Positions written down

A schema may say explicitly where a field stands although the fields before it imply so. What is
written down where is a `Restatement`; it changes a schema, and in the same way a plan, in nothing
but positions.

* `Schema.restate` and `Plan.restate` write the positions down.
* `Resolution.ofFields_restate` says when a field list is resolved as before: its fields must be
  placed as before, and the positions must be the implied ones.
-/

namespace PacketLayout

/-- The fields that are given an explicit position, and which one: by the anchors and alternates
around the field, outermost first, and by its name. -/
abbrev Restatement : Type := (path : List (String × String)) → (name : String) → Option Nat

/-- What is written down in an alternate. -/
def Restatement.below (r : Restatement) (anchor alternate : String) : Restatement :=
  fun path => r ((anchor, alternate) :: path)

/-! ## Schemas -/

/-- The declaration with an explicit position, if there is one to write down. -/
def Declaration.restate (offset : Option Nat) (decl : Declaration) : Declaration :=
  { decl with position := offset.elim decl.position .literal }

mutual

/-- The field with what is written down about it, also in its alternates. -/
def Field.restate (r : Restatement) : Field → Field
  | .plain decl => .plain (decl.restate (r [] decl.name))
  | .anchor decl alternates =>
    .anchor (decl.restate (r [] decl.name)) (Alternate.restateAll (r.below decl.name) alternates)

/-- The fields with what is written down about them. -/
def Field.restateAll (r : Restatement) : List Field → List Field
  | [] => []
  | field :: fields => field.restate r :: Field.restateAll r fields

/-- The alternate with what is written down in it. -/
def Alternate.restate (r : String → Restatement) : Alternate → Alternate
  | .mk name fields => .mk name (Field.restateAll (r name) fields)

/-- The alternates with what is written down in each. -/
def Alternate.restateAll (r : String → Restatement) : List Alternate → List Alternate
  | [] => []
  | alternate :: rest => alternate.restate r :: Alternate.restateAll r rest

end

theorem Field.restateAll_eq_map (r : Restatement) (fields : List Field) :
    Field.restateAll r fields = fields.map (·.restate r) := by
  induction fields with
  | nil => rfl
  | cons field fields ih => rw [restateAll, ih, List.map_cons]

theorem Alternate.restateAll_eq_map (r : String → Restatement) (alternates : List Alternate) :
    Alternate.restateAll r alternates = alternates.map (·.restate r) := by
  induction alternates with
  | nil => rfl
  | cons alternate rest ih => rw [restateAll, ih, List.map_cons]

/-- The schema with the positions written down. -/
def Schema.restate (r : Restatement) (schema : Schema) : Schema :=
  { schema with fields := schema.fields.map (·.restate r) }

@[simp] theorem Field.decl_restate (r : Restatement) (field : Field) :
    (field.restate r).decl = field.decl.restate (r [] field.decl.name) := by
  cases field <;> rfl

/-! ## Plans -/

/-- The layout with an explicit position, if there is one to write down. -/
def FieldLayout.restate (offset : Option Nat) (layout : FieldLayout) : FieldLayout :=
  { layout with position := offset.elim layout.position .literal }

mutual

/-- The plan with the positions written down. -/
def Plan.restate (r : Restatement) : Plan → Plan
  | .mk name readOnly fields minimumSize totalSize warnings =>
    .mk name readOnly (PlannedField.restateAll r fields) minimumSize totalSize warnings

/-- The field of a plan with what is written down about it, also in its alternates. -/
def PlannedField.restate (r : Restatement) : PlannedField → PlannedField
  | .mk layout shape =>
    .mk (layout.restate (r [] layout.name)) (shape.restate (r.below layout.name))

/-- The shape with what is written down in its alternates. -/
def Shape.restate (r : String → Restatement) : Shape → Shape
  | .leaf it => .leaf it
  | .union alternates => .union (AlternatePlan.restateAll r alternates)

/-- The plan of an alternate with what is written down in it. -/
def AlternatePlan.restate (r : String → Restatement) : AlternatePlan → AlternatePlan
  | .mk name plan => .mk name (plan.restate (r name))

/-- The fields of a plan with what is written down about them. -/
def PlannedField.restateAll (r : Restatement) : List PlannedField → List PlannedField
  | [] => []
  | field :: fields => field.restate r :: PlannedField.restateAll r fields

/-- The plans of alternates with what is written down in each. -/
def AlternatePlan.restateAll (r : String → Restatement) : List AlternatePlan → List AlternatePlan
  | [] => []
  | alternate :: rest => alternate.restate r :: AlternatePlan.restateAll r rest

end

theorem PlannedField.restateAll_eq_map (r : Restatement) (fields : List PlannedField) :
    PlannedField.restateAll r fields = fields.map (·.restate r) := by
  induction fields with
  | nil => rfl
  | cons field fields ih => rw [restateAll, ih, List.map_cons]

theorem AlternatePlan.restateAll_eq_map (r : String → Restatement)
    (alternates : List AlternatePlan) :
    AlternatePlan.restateAll r alternates = alternates.map (·.restate r) := by
  induction alternates with
  | nil => rfl
  | cons alternate rest ih => rw [restateAll, ih, List.map_cons]

theorem AlternatePlan.change_restate (r : String → Restatement) :
    AlternatePlan.change (fun name => Plan.restate (r name)) = AlternatePlan.restate r := by
  funext alternate
  cases alternate
  rfl

theorem Shape.restate_union (r : String → Restatement) (alternates : List AlternatePlan) :
    (union alternates).restate r = union (alternates.map (·.restate r)) := by
  rw [Shape.restate, AlternatePlan.restateAll_eq_map]

theorem Plan.restate_mk (r : Restatement) (name : String) (readOnly : Bool)
    (fields : List PlannedField) (minimumSize : Nat) (totalSize : Expr)
    (warnings : List Diagnostic) :
    (mk name readOnly fields minimumSize totalSize warnings).restate r =
      mk name readOnly (fields.map (·.restate r)) minimumSize totalSize warnings := by
  rw [Plan.restate, PlannedField.restateAll_eq_map]

namespace Plan

variable (r : Restatement) (plan : Plan)

@[simp] theorem fields_restate : (plan.restate r).fields = plan.fields.map (·.restate r) := by
  cases plan
  exact PlannedField.restateAll_eq_map r _

@[simp] theorem minimumSize_restate : (plan.restate r).minimumSize = plan.minimumSize := by
  cases plan
  rfl

@[simp] theorem warnings_restate : (plan.restate r).warnings = plan.warnings := by
  cases plan
  rfl

end Plan

namespace PlannedField

variable (r : Restatement) (field : PlannedField)

@[simp] theorem layout_restate :
    (field.restate r).layout = field.layout.restate (r [] field.name) := by
  cases field
  rfl

@[simp] theorem name_restate : (field.restate r).name = field.name := by
  cases field
  rfl

@[simp] theorem size_restate : (field.restate r).size = field.size := by
  cases field
  rfl

@[simp] theorem offset_restate : (field.restate r).offset = field.offset := by
  cases field
  rfl

@[simp] theorem sizeExpr_restate : (field.restate r).sizeExpr = field.sizeExpr := by
  cases field
  rfl

@[simp] theorem slot?_restate : (field.restate r).slot? = field.slot? := by
  cases field with
  | mk layout shape => cases shape <;> rfl

@[simp] theorem extent?_restate : (field.restate r).extent? = field.extent? := by
  simp [extent?]

@[simp] theorem staticEnd?_restate : (field.restate r).staticEnd? = field.staticEnd? := by
  simp [staticEnd?]

theorem keepsSlots_restate : KeepsSlots (PlannedField.restate r) where
  name := name_restate r
  slot? := slot?_restate r

end PlannedField

/-! ## Shapes -/

/-- The prepared field with what is written down about it, also in its alternates. -/
def Prepared.restate (r : Restatement) (field : Prepared) : Prepared where
  decl := field.decl.restate (r [] field.decl.name)
  alternates := field.alternates.map fun alternates =>
    alternates.map fun alternate =>
      (alternate.1, alternate.2.change (Plan.restate (r.below field.decl.name alternate.1)))

/-- The placed field with what is written down about it, in the same place. -/
def Positioned.restate (r : Restatement) (field : Positioned) : Positioned :=
  { field with field := field.field.restate r }

/-- The entry with what is written down about its field. -/
def Entry.restate (r : Restatement) (entry : Entry) : Entry :=
  { entry with field := entry.field.restate r }

/-- The shape with what is written down in its alternates, and the same report. -/
def Shaping.restate (r : String → Restatement) (shaping : Shaping) : Shaping :=
  { shaping with shape := shaping.shape.map (·.restate r) }

/-- The entry with what is written down about its field, and the same report. -/
def Settled.restate (r : Restatement) (settled : Settled) : Settled :=
  { settled with entry := settled.entry.map (·.restate r) }

theorem shapeLeaf_restate (r : String → Restatement) (readOnly : Bool) (decl : Declaration)
    (size : Size) (slot : Option BitSlot) :
    (shapeLeaf readOnly decl size slot).restate r = shapeLeaf readOnly decl size slot := by
  unfold shapeLeaf
  split <;> rfl

theorem shapeUnion_restate (r : String → Restatement) (offset : Option Nat) (decl : Declaration)
    (size : Size) (alternates : List (String × Resolution)) :
    shapeUnion (decl.restate offset) size
        (alternates.map fun alternate =>
          (alternate.1, alternate.2.change (Plan.restate (r alternate.1)))) =
      (shapeUnion decl size alternates).restate r := by
  have hshaped := shapeAlternates_change (f := fun name => Plan.restate (r name))
    (fun name plan => plan.minimumSize_restate (r name)) decl.name size.fixed [] alternates
  have hwarnings (plans : List AlternatePlan) :
      alternateWarnings decl.name (plans.map (·.restate r)) =
        alternateWarnings decl.name plans := by
    rw [← AlternatePlan.change_restate]
    exact alternateWarnings_change (fun name plan => plan.warnings_restate (r name)) decl.name plans
  have hdecl : (decl.restate offset).name = decl.name := rfl
  simp only [shapeUnion, hdecl, hshaped, filterMap_plan_change, AlternatePlan.change_restate,
    hwarnings, List.isEmpty_map, List.all_map, List.flatMap_map, Shaping.restate,
    apply_ite (Option.map (Shape.restate r)), Option.map_some, Option.map_none,
    Shape.restate_union]
  rfl

/-! ## Fields -/

theorem Shaping.settled_restate (r : Restatement) (shaping : Shaping) (layout : FieldLayout)
    (predicted : Option Expr) (isLast : Bool) :
    (shaping.restate (r.below layout.name)).settled (layout.restate (r [] layout.name)) predicted
        isLast =
      (shaping.settled layout predicted isLast).restate r := by
  simp only [settled, restate, FieldLayout.restate, Option.isSome_map, Settled.restate,
    Option.map_map]
  rfl

theorem Prepared.size_restate (r : Restatement) (field : Prepared) :
    (field.restate r).size = field.size := by
  simp only [Prepared.size, Prepared.restate, Option.isSome_map]
  rfl

/-- What is written down about a field does not change what becomes of it in its place. -/
theorem Positioned.settle_restate {readOnly : Bool} {unitWidth : Nat → Nat} (r : Restatement)
    (field : Positioned) :
    (field.restate r).settle readOnly unitWidth = (field.settle readOnly unitWidth).restate r := by
  have hsame : (field.restate r).field.size = field.field.size := field.field.size_restate r
  cases hsize : field.field.size with
  | error defect =>
    rw [hsize] at hsame
    rw [settle, hsame, settle, hsize]
    rfl
  | ok size =>
    rw [hsize] at hsame
    cases halternates : field.field.alternates with
    | none =>
      have hplain : (field.restate r).field.alternates = none :=
        congrArg (Option.map _) halternates
      rw [settle_of_plain hsize halternates, settle_of_plain hsame hplain,
        ← Shaping.settled_restate, shapeLeaf_restate]
      rfl
    | some alternates =>
      have hanchor : (field.restate r).field.alternates = some (alternates.map fun alternate =>
          (alternate.1, alternate.2.change
            (Plan.restate (r.below field.field.decl.name alternate.1)))) :=
        congrArg (Option.map _) halternates
      rw [settle_of_anchor hsize halternates, settle_of_anchor hsame hanchor,
        ← Shaping.settled_restate]
      exact congrArg (Shaping.settled · _ _ _)
        (shapeUnion_restate (r.below field.field.decl.name) _ _ _ _)

/-! ## Explicit positions that are implied -/

/-- What is written down about the field of an entry is what the fields before imply for it. -/
def Entry.Implies (entry : Entry) (offset : Option Nat) : Prop :=
  ∀ actual, offset = some actual → entry.field.layout.position = .sequential ∧
    entry.predicted.bind (·.static?) = some actual

namespace Entry

variable {r : Restatement} {entry : Entry}

theorem mismatch?_restate (h : entry.Implies (r [] entry.field.name)) :
    (entry.restate r).mismatch? = entry.mismatch? := by
  cases hoffset : r [] entry.field.name with
  | none => simp [mismatch?, restate, FieldLayout.restate, hoffset]
  | some offset =>
    obtain ⟨hposition, hstatic⟩ := h offset hoffset
    simp [mismatch?, restate, FieldLayout.restate, hoffset, hposition, hstatic]

theorem mismatchDiagnostic?_restate (h : entry.Implies (r [] entry.field.name)) :
    (entry.restate r).mismatchDiagnostic? = entry.mismatchDiagnostic? := by
  have hname : (entry.restate r).field.name = entry.field.name := entry.field.name_restate r
  rw [mismatchDiagnostic?, mismatch?_restate h, hname, mismatchDiagnostic?]

theorem positionEvent?_restate (h : entry.Implies (r [] entry.field.name))
    (policy : MismatchPolicy) :
    (entry.restate r).positionEvent? policy = entry.positionEvent? policy := by
  cases hoffset : r [] entry.field.name with
  | none => simp [positionEvent?, restate, FieldLayout.restate, hoffset]
  | some offset =>
    obtain ⟨hposition, hstatic⟩ := h offset hoffset
    cases policy <;>
      simp [positionEvent?, restate, FieldLayout.restate, hoffset, hposition, hstatic]

theorem remainderDiagnostic?_restate (r : Restatement) (entry : Entry) :
    (entry.restate r).remainderDiagnostic? = entry.remainderDiagnostic? := by
  simp [remainderDiagnostic?, restate]

end Entry

/-! ## Field lists -/

theorem totalSize_restate (r : Restatement) (fields : List PlannedField) :
    totalSize (fields.map (·.restate r)) = totalSize fields :=
  (PlannedField.keepsSlots_restate r).totalSize_map (g := id)
    (fun field => field.sizeExpr_restate r) rfl (fun _ _ => rfl) fields

theorem minimumSize_restate (r : Restatement) (fields : List PlannedField) :
    minimumSize (fields.map (·.restate r)) = minimumSize fields := by
  rw [minimumSize, furthestEnd_map (PlannedField.staticEnd?_restate r),
    (PlannedField.keepsSlots_restate r).knownSum_map (PlannedField.extent?_restate r), minimumSize]

theorem Positioned.zip_restate (r : Restatement) (fields : List Prepared)
    (placements : List Placement) :
    zip (fields.map (·.restate r)) placements = (zip fields placements).map (·.restate r) := by
  induction fields generalizing placements with
  | nil => rfl
  | cons field fields ih =>
    cases placements with
    | nil => rfl
    | cons placement placements =>
      simp only [List.map_cons, zip, ih, List.isEmpty_map]
      rfl

namespace Prepared

variable {r : Restatement} {fields : List Prepared} {readOnly : Bool}

theorem settled_restate (h : placements (fields.map (·.restate r)) = placements fields) :
    settled readOnly (fields.map (·.restate r)) = (settled readOnly fields).map (·.restate r) := by
  rw [settled, positioned, h, Positioned.zip_restate, List.map_map, settled, positioned,
    List.map_map]
  exact List.map_congr_left fun field _ => field.settle_restate r

theorem entries_restate (h : placements (fields.map (·.restate r)) = placements fields) :
    entries readOnly (fields.map (·.restate r)) = (entries readOnly fields).map (·.restate r) := by
  rw [entries, settled_restate h, List.filterMap_map, entries, List.map_filterMap]
  rfl

theorem planned_restate (h : placements (fields.map (·.restate r)) = placements fields) :
    planned readOnly (fields.map (·.restate r)) = (planned readOnly fields).map (·.restate r) := by
  rw [planned, entries_restate h, List.map_map, planned, List.map_map]
  rfl

theorem mismatches_restate (h : placements (fields.map (·.restate r)) = placements fields)
    (hentries : ∀ entry ∈ entries readOnly fields, entry.Implies (r [] entry.field.name)) :
    mismatches readOnly (fields.map (·.restate r)) = mismatches readOnly fields := by
  rw [mismatches, entries_restate h, List.filterMap_map]
  exact List.filterMap_congr fun entry hentry =>
    Entry.mismatchDiagnostic?_restate (hentries entry hentry)

theorem reported_restate (policy : MismatchPolicy)
    (h : placements (fields.map (·.restate r)) = placements fields)
    (hentries : ∀ entry ∈ entries readOnly fields, entry.Implies (r [] entry.field.name)) :
    reported policy readOnly (fields.map (·.restate r)) = reported policy readOnly fields := by
  have hremainders :
      (entries readOnly (fields.map (·.restate r))).filterMap (·.remainderDiagnostic?) =
        (entries readOnly fields).filterMap (·.remainderDiagnostic?) := by
    rw [entries_restate h, List.filterMap_map]
    exact List.filterMap_congr fun entry _ => entry.remainderDiagnostic?_restate r
  have hunits := (PlannedField.keepsSlots_restate r).unitDiagnostics_map
    (planned readOnly fields) fields.length
  simp only [reported, hremainders, mismatches_restate h hentries, settled_restate h,
    planned_restate h, hunits, List.map_map, List.flatMap_map, List.length_map]
  rfl

theorem tolerated_restate (policy : MismatchPolicy)
    (h : placements (fields.map (·.restate r)) = placements fields)
    (hentries : ∀ entry ∈ entries readOnly fields, entry.Implies (r [] entry.field.name)) :
    tolerated policy readOnly (fields.map (·.restate r)) = tolerated policy readOnly fields := by
  simp only [tolerated, mismatches_restate h hentries, settled_restate h, List.flatMap_map]
  rfl

end Prepared

/-- Fields that are placed as before, at positions that are implied, are resolved as before. -/
theorem Resolution.ofFields_restate {r : Restatement} {fields : List Prepared} {readOnly : Bool}
    (policy : MismatchPolicy) (name : String)
    (h : Prepared.placements (fields.map (·.restate r)) = Prepared.placements fields)
    (hentries : ∀ entry ∈ Prepared.entries readOnly fields,
      entry.Implies (r [] entry.field.name)) :
    ofFields policy readOnly name (fields.map (·.restate r)) =
      (ofFields policy readOnly name fields).change (Plan.restate r) := by
  refine eq_of_parts ?_ ?_ ?_
  · show (ofFields policy readOnly name (fields.map (·.restate r))).inRange =
      (ofFields policy readOnly name fields).inRange
    rw [inRange_ofFields, inRange_ofFields, Prepared.settled_restate h, Prepared.planned_restate h,
      totalSize_restate, List.all_map]
    rfl
  · have hpositions :
        (Prepared.entries readOnly (fields.map (·.restate r))).filterMap
            (·.positionEvent? policy) =
          (Prepared.entries readOnly fields).filterMap (·.positionEvent? policy) := by
      rw [Prepared.entries_restate h, List.filterMap_map]
      exact List.filterMap_congr fun entry hentry =>
        Entry.positionEvent?_restate (hentries entry hentry) policy
    show (ofFields policy readOnly name (fields.map (·.restate r))).events =
      (ofFields policy readOnly name fields).events
    rw [events_ofFields, events_ofFields, hpositions, Prepared.settled_restate h,
      List.flatMap_map]
    rfl
  · show (ofFields policy readOnly name (fields.map (·.restate r))).outcome =
      (ofFields policy readOnly name fields).outcome.map (Plan.restate r)
    rw [outcome_ofFields, outcome_ofFields, Prepared.reported_restate policy h hentries,
      Prepared.tolerated_restate policy h hentries, Prepared.planned_restate h,
      minimumSize_restate, totalSize_restate, ← Plan.restate_mk]
    split <;> rfl

end PacketLayout
