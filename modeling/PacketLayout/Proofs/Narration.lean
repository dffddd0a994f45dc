import PacketLayout.Proofs.Acceptability
import PacketLayout.Proofs.Blindness
import PacketLayout.Proofs.Warnings

/-!
# What a resolution tells about its plan

The events of a resolution are emitted while the plan is still being put together, and the warnings
of a plan are collected by another route. Still, the events tell the plan in full: each part of it
once, inner parts first, and each warning once, in the order of the warnings.

* `Plan.account` is what there is to tell about the parts of a plan.
* `Tells` relates events to an account and to warnings; it is kept by joining and by nesting.
* `Schema.trace_tells` says what a trace consists of from its first event to the last.
-/

namespace PacketLayout

/-! ## Kinds of events -/

namespace Event

/-- Whether the event is one on the way: no bound of the span, and not the end of a resolution. -/
def isStep : Event → Bool
  | fieldResolved .. | alternateResolved .. | literalAccepted _ | positionOverridden .. => true
  | entered _ | schemaResolved .. | schemaRefused _ | exited => false

/-- Whether a part of the layout is done. -/
def isProgress : Event → Bool
  | fieldResolved .. | alternateResolved .. => true
  | entered _ | literalAccepted _ | positionOverridden .. | schemaResolved .. | schemaRefused _
  | exited => false

/-- Whether the event is a warning. -/
def isWarning (event : Event) : Bool := event.level? = some "WARN"

end Event

/-! ## What there is to tell -/

mutual

/-- What there is to tell about a plan: its fields in order. -/
def Plan.account : Plan → List Event
  | .mk _ _ fields _ _ _ => PlannedField.accountAll fields

/-- What there is to tell about fields in order. -/
def PlannedField.accountAll : List PlannedField → List Event
  | [] => []
  | field :: fields => field.account ++ PlannedField.accountAll fields

/-- What there is to tell about a field: everything inside it, then where it lies itself. -/
def PlannedField.account : PlannedField → List Event
  | .mk layout shape =>
    shape.account layout.name ++
      [.fieldResolved layout.name layout.offset.text layout.sizeExpr.text]

/-- What there is to tell about what is inside a field. -/
def Shape.account (anchor : String) : Shape → List Event
  | .leaf _ => []
  | .union alternates => AlternatePlan.accountAll anchor alternates

/-- What there is to tell about alternates in order. -/
def AlternatePlan.accountAll (anchor : String) : List AlternatePlan → List Event
  | [] => []
  | alternate :: rest => alternate.account anchor ++ AlternatePlan.accountAll anchor rest

/-- What there is to tell about an alternate: its plan, then the length that it needs. -/
def AlternatePlan.account (anchor : String) : AlternatePlan → List Event
  | .mk name plan => plan.account ++ [.alternateResolved anchor name plan.minimumSize]

end

theorem PlannedField.accountAll_eq_flatMap (fields : List PlannedField) :
    PlannedField.accountAll fields = fields.flatMap (·.account) := by
  induction fields with
  | nil => rfl
  | cons field fields ih => rw [accountAll, ih, List.flatMap_cons]

theorem AlternatePlan.accountAll_eq_flatMap (anchor : String) (alternates : List AlternatePlan) :
    AlternatePlan.accountAll anchor alternates = alternates.flatMap (·.account anchor) := by
  induction alternates with
  | nil => rfl
  | cons alternate alternates ih => rw [accountAll, ih, List.flatMap_cons]

theorem Plan.account_eq_flatMap (plan : Plan) : plan.account = plan.fields.flatMap (·.account) := by
  cases plan
  rw [Plan.account, PlannedField.accountAll_eq_flatMap]
  rfl

/-! ## Telling -/

/-- Among events those about parts are just `parts`, and those of warning stand for `warnings`. -/
structure Tells (R : Event → Diagnostic → Prop) (parts : List Event) (warnings : List Diagnostic)
    (events : List Event) : Prop where
  parts : events.filter (·.isProgress) = parts
  warnings : List.Forall₂ R (events.filter (·.isWarning)) warnings

namespace Tells

variable {R : Event → Diagnostic → Prop} {parts parts' events events' : List Event}
  {warnings warnings' : List Diagnostic}

theorem nil (R : Event → Diagnostic → Prop) : Tells R [] [] [] := ⟨rfl, .nil⟩

theorem append (h : Tells R parts warnings events) (h' : Tells R parts' warnings' events') :
    Tells R (parts ++ parts') (warnings ++ warnings') (events ++ events') := by
  constructor
  · rw [List.filter_append, h.parts, h'.parts]
  · rw [List.filter_append]
    exact List.rel_append h.warnings h'.warnings

/-- Something is told about a part after what is told already. -/
theorem snoc (h : Tells R parts warnings events) {event : Event}
    (hprogress : event.isProgress = true) (hwarning : event.isWarning = false) :
    Tells R (parts ++ [event]) warnings (events ++ [event]) := by
  have hlast : Tells R [event] [] [event] := by
    constructor
    · rw [List.filter_cons_of_pos hprogress, List.filter_nil]
    · rw [List.filter_cons_of_neg (by simp [hwarning]), List.filter_nil]
      exact .nil
  simpa using h.append hlast

theorem map {R' : Event → Diagnostic → Prop} {f : Diagnostic → Diagnostic}
    (h : Tells R parts warnings events) (hR : ∀ event warning, R event warning →
      R' event (f warning)) : Tells R' parts (warnings.map f) events := by
  refine ⟨h.parts, ?_⟩
  rw [List.forall₂_map_right_iff]
  exact h.warnings.imp hR

/-- What is told about each item of a list is told about the list. -/
theorem flatMap {α β : Type} {told : α → List Event} {account : β → List Event}
    {warned : β → List Diagnostic} {as : List α} {bs : List β}
    (h : List.Forall₂ (fun a b => Tells R (account b) (warned b) (told a)) as bs) :
    Tells R (bs.flatMap account) (bs.flatMap warned) (as.flatMap told) := by
  induction h with
  | nil => exact nil R
  | cons hfirst _ ih =>
    rw [List.flatMap_cons, List.flatMap_cons, List.flatMap_cons]
    exact hfirst.append ih

end Tells

/-! ## Explicit positions -/

theorem Entry.isStep_of_positionEvent? {policy : MismatchPolicy} {entry : Entry} {event : Event}
    (h : entry.positionEvent? policy = some event) : event.isStep = true := by
  unfold Entry.positionEvent? at h
  split at h
  · obtain rfl := Option.some.inj h
    rfl
  · split at h
    · cases h
    · obtain rfl := Option.some.inj h
      rfl
  · cases h

/-- Checking an explicit position tells of a mismatch, if there is one and it is tolerated. -/
theorem Entry.tells_positionEvent? (policy : MismatchPolicy) (entry : Entry)
    {R : Event → Diagnostic → Prop}
    (h : ∀ expected actual, entry.mismatch? = some (expected, actual) →
      R (.positionOverridden entry.field.name expected actual)
        (.ofLayout entry.field.name (.positionMismatch expected actual))) :
    Tells R [] (if policy = .warn then entry.mismatchDiagnostic?.toList else [])
      (entry.positionEvent? policy).toList := by
  unfold Entry.positionEvent? Entry.mismatchDiagnostic?
  unfold Entry.mismatch? at h ⊢
  cases hposition : entry.field.layout.position with
  | sequential | computed => cases policy <;> exact .nil R
  | literal actual =>
    cases hstatic : entry.predicted.bind (·.static?) with
    | none => cases policy <;> exact ⟨rfl, .nil⟩
    | some expected =>
      simp only [hposition, hstatic] at h
      by_cases hagree : expected = actual
      · cases policy <;> simp only [if_pos hagree] <;> exact .nil R
      · simp only [if_neg hagree, Option.some.injEq, Prod.mk.injEq] at h
        cases policy with
        | error => exact .nil R
        | warn =>
          simp only [if_neg hagree]
          exact ⟨rfl, .cons (h expected actual ⟨rfl, rfl⟩) .nil⟩

/-- Checking explicit positions tells of the mismatches that are tolerated, and of no parts. -/
theorem tells_positions (policy : MismatchPolicy) {entries : List Entry}
    {R : Event → Diagnostic → Prop}
    (h : ∀ entry ∈ entries, ∀ expected actual, entry.mismatch? = some (expected, actual) →
      R (.positionOverridden entry.field.name expected actual)
        (.ofLayout entry.field.name (.positionMismatch expected actual))) :
    Tells R [] (if policy = .warn then entries.filterMap (·.mismatchDiagnostic?) else [])
      (entries.filterMap (·.positionEvent? policy)) := by
  induction entries with
  | nil => cases policy <;> exact .nil R
  | cons entry entries ih =>
    rw [List.forall_mem_cons] at h
    have htells := (entry.tells_positionEvent? policy h.1).append (ih h.2)
    rw [filterMap_cons_eq_append, filterMap_cons_eq_append]
    cases policy with
    | error => exact htells
    | warn => exact htells

/-! ## Alternates -/

/-- What is told about accepted alternates, given what their field lists tell. -/
theorem tells_shapeAlternates {anchor : String} {available : Option Nat}
    {alternates : List (String × Resolution)} {plans : List AlternatePlan}
    {R : Event → Diagnostic → Prop} (hnamed : ∀ alternate ∈ alternates, alternate.1 ≠ "")
    (hdistinct : (alternates.map (·.1)).Nodup)
    (htells : List.Forall₂ (fun alternate plan => AlternateAccepted available alternate plan ∧
      Tells R plan.plan.account (plan.plan.warnings.map (·.nested (anchor ++ "." ++ plan.name)))
        alternate.2.events) alternates plans) :
    Tells R (AlternatePlan.accountAll anchor plans) (alternateWarnings anchor plans)
      ((shapeAlternates anchor available [] alternates).flatMap (·.events)) := by
  have hnames : ∀ alternate ∈ alternates, alternate.1 ≠ "" ∧ alternate.1 ∉ [] :=
    fun alternate hmem => ⟨hnamed alternate hmem, List.not_mem_nil⟩
  rw [shapeAlternates_eq_map hnames hdistinct, List.flatMap_map,
    AlternatePlan.accountAll_eq_flatMap, alternateWarnings]
  refine Tells.flatMap (htells.imp ?_)
  rintro alternate ⟨name, plan⟩ ⟨haccepted, hinner⟩
  rw [haccepted.shapeAlternate_eq]
  exact hinner.snoc rfl rfl

/-! ## Fields -/

/-- A field with a shape is told last, behind what its shape has to tell. -/
theorem Shaping.events_settled {shaping : Shaping} {shape : Shape} (h : shaping.shape = some shape)
    (layout : FieldLayout) (predicted : Option Expr) (isLast : Bool) :
    (shaping.settled layout predicted isLast).events =
      shaping.events ++ [.fieldResolved layout.name layout.offset.text layout.sizeExpr.text] := by
  simp [settled, h]

theorem events_shapeLeaf (readOnly : Bool) (decl : Declaration) (size : Size)
    (slot : Option BitSlot) : (shapeLeaf readOnly decl size slot).events = [] := by
  unfold shapeLeaf
  split <;> rfl

namespace Positioned.Becomes

variable {readOnly : Bool} {widths : Nat → Nat} {positioned : Positioned} {planned : PlannedField}

theorem name_eq (h : positioned.Becomes readOnly widths planned) :
    planned.name = positioned.field.decl.name :=
  congrArg FieldLayout.name h.layout

/-- The events of a settled field: those of its alternates, and one of its own. -/
theorem events_eq (h : positioned.Becomes readOnly widths planned) :
    (positioned.settle readOnly widths).events =
      (shapeAlternates planned.name planned.size.fixed []
        (positioned.field.alternates.getD [])).flatMap (·.events) ++
        [.fieldResolved planned.name planned.offset.text planned.sizeExpr.text] := by
  have hentry := h.entry
  cases halternates : positioned.field.alternates with
  | none =>
    rw [settle_of_plain h.size halternates] at hentry ⊢
    obtain ⟨shape, hshape, -⟩ := Option.map_eq_some_iff.1 hentry
    rw [Shaping.events_settled hshape, events_shapeLeaf, ← h.layout]
    rfl
  | some alternates =>
    rw [settle_of_anchor h.size halternates] at hentry ⊢
    obtain ⟨shape, hshape, -⟩ := Option.map_eq_some_iff.1 hentry
    rw [Shaping.events_settled hshape, ← h.layout, h.name_eq]
    exact congrArg (_ ++ [Event.fieldResolved · _ _]) h.name_eq

/-- What is told about a settled field: everything inside it, then where it lies itself. -/
theorem tells (h : positioned.Becomes readOnly widths planned) {R : Event → Diagnostic → Prop}
    (hbelow : ∀ alternates plans, positioned.field.alternates = some alternates →
      planned.alternates? = some plans → (plans.map (·.name)).Nodup →
        ∀ alternate ∈ alternates, ∀ plan ∈ plans, alternate.2.outcome = .ok plan.plan →
          Tells R plan.plan.account
            (plan.plan.warnings.map (·.nested (planned.name ++ "." ++ plan.name)))
            alternate.2.events) :
    Tells R planned.account planned.nestedWarnings (positioned.settle readOnly widths).events := by
  rw [h.events_eq]
  have hshapes := h.shapes
  obtain ⟨layout, shape⟩ := planned
  rw [PlannedField.account]
  refine Tells.snoc ?_ rfl rfl
  cases hshapes with
  | leaf plain =>
    rw [plain]
    exact .nil R
  | @union alternates plans anchor _ _ _ named distinct accepted =>
    rw [anchor]
    have hnames : plans.map (·.name) = alternates.map (·.1) :=
      map_eq_of_forall₂ accepted fun _ _ haccepted => haccepted.name
    refine tells_shapeAlternates named distinct ?_
    refine List.forall₂_iff_zip.2 ⟨accepted.length_eq, fun {alternate plan} hmem => ?_⟩
    have haccepted := List.forall₂_zip accepted hmem
    obtain ⟨halternate, hplan⟩ := List.of_mem_zip hmem
    exact ⟨haccepted, hbelow alternates plans anchor rfl (hnames ▸ distinct) alternate halternate
      plan hplan haccepted.outcome⟩

end Positioned.Becomes

/-! ## Events on the way -/

theorem mem_events_shapeAlternates {anchor : String} {available : Option Nat} {seen : List String}
    {alternates : List (String × Resolution)} {event : Event}
    (h : event ∈ (shapeAlternates anchor available seen alternates).flatMap (·.events)) :
    event.isStep = true ∨ ∃ alternate ∈ alternates, event ∈ alternate.2.events := by
  induction alternates generalizing seen with
  | nil => cases h
  | cons alternate rest ih =>
    obtain ⟨name, resolution⟩ := alternate
    have hfirst (h : event ∈ (shapeAlternate anchor available name resolution).events) :
        event.isStep = true ∨ event ∈ resolution.events := by
      unfold shapeAlternate at h
      split at h
      · exact .inr h
      · split at h
        · exact .inr h
        · rcases List.mem_append.1 h with h | h
          · exact .inr h
          · obtain rfl := List.mem_singleton.1 h
            exact .inl rfl
    have hrest {seen : List String}
        (h : event ∈ (shapeAlternates anchor available seen rest).flatMap (·.events)) :
        event.isStep = true ∨ ∃ alternate ∈ (name, resolution) :: rest,
          event ∈ alternate.2.events :=
      (ih h).imp_right fun ⟨other, hother, hevent⟩ =>
        ⟨other, List.mem_cons_of_mem _ hother, hevent⟩
    rw [shapeAlternates] at h
    split at h
    · exact hrest h
    · rw [List.flatMap_cons, List.mem_append] at h
      rcases h with h | h
      · exact (hfirst h).imp_right fun hevent => ⟨_, List.mem_cons_self, hevent⟩
      · exact hrest h

/-- Whatever becomes of a field, its events are on the way, or its alternates had them already. -/
theorem Positioned.mem_events_settle {readOnly : Bool} {widths : Nat → Nat}
    {positioned : Positioned} {event : Event}
    (h : event ∈ (positioned.settle readOnly widths).events) :
    event.isStep = true ∨
      ∃ alternate ∈ positioned.field.alternates.getD [], event ∈ alternate.2.events := by
  have hsettled {shaping : Shaping} {layout : FieldLayout} {predicted : Option Expr}
      {isLast : Bool} (h : event ∈ (shaping.settled layout predicted isLast).events) :
      event ∈ shaping.events ∨ event.isStep = true := by
    simp only [Shaping.settled] at h
    split at h
    · rcases List.mem_append.1 h with h | h
      · exact .inl h
      · obtain rfl := List.mem_singleton.1 h
        exact .inr rfl
    · exact .inl h
  cases hsize : positioned.field.size with
  | error defect =>
    rw [settle, hsize] at h
    cases h
  | ok size =>
    cases halternates : positioned.field.alternates with
    | none =>
      rw [settle_of_plain hsize halternates] at h
      rcases hsettled h with h | h
      · rw [events_shapeLeaf] at h
        cases h
      · exact .inl h
    | some alternates =>
      rw [settle_of_anchor hsize halternates] at h
      rcases hsettled h with h | h
      · exact mem_events_shapeAlternates h
      · exact .inl h

/-! ## Plans -/

/-- A warning is announced as soon as the explicit position is checked, by the name that the field
has in its own list. In the plan it stands under the path that leads there. -/
inductive Announces (plan : Plan) : Event → Diagnostic → Prop
  | at (path : List (String × String)) (name : String) {sub : Plan} {field : PlannedField}
      {expected actual : Nat}
      (below : plan.at? path = some sub)
      (named : sub.field? name = some field)
      (position : field.layout.position = .literal actual)
      (differs : expected ≠ actual) :
      Announces plan (.positionOverridden name expected actual)
        (.ofLayout (dotted path name) (.positionMismatch expected actual))

theorem Announces.nested {plan inner : Plan} {anchor alternate : String} {event : Event}
    {warning : Diagnostic} (h : Announces inner event warning)
    (hinner : (plan.field? anchor).bind (·.alternate? alternate) = some inner) :
    Announces plan event (warning.nested (anchor ++ "." ++ alternate)) := by
  cases h with
  | @«at» path name _ _ _ _ below named position differs =>
    refine Announces.at ((anchor, alternate) :: path) name ?_ named position differs
    rw [Plan.at?, hinner]
    exact below

namespace Schema

variable {schema : Schema} {policy : MismatchPolicy} {plan : Plan}

/-- The fields of a plan have different names. -/
theorem distinct_of_outcome (h : (schema.resolution policy).outcome = .ok plan) :
    (plan.fields.map (·.name)).Nodup := by
  obtain ⟨haccepted, hfields, -⟩ := Schema.accepted_of_outcome h
  have hnames : plan.fields.map (·.name) = (schema.prepared policy).map (·.decl.name) := by
    rw [hfields]
    exact map_eq_of_forall₂ (haccepted.realizes fun _ => Schema.explains_prepared)
      fun _ _ hrealizes => hrealizes.name
  exact hnames ▸ haccepted.distinct

/-- In a plan the name of a field finds it. -/
theorem field?_of_outcome (h : (schema.resolution policy).outcome = .ok plan)
    {field : PlannedField} (hmem : field ∈ plan.fields) : plan.field? field.name = some field :=
  find?_of_nodup (distinct_of_outcome h) hmem

theorem events_resolution (schema : Schema) (policy : MismatchPolicy) :
    (schema.resolution policy).events =
      (schema.placed policy).flatMap
          (fun positioned => (positioned.settle schema.readOnly (schema.widths policy)).events) ++
        (Prepared.entries schema.readOnly (schema.prepared policy)).filterMap
          (·.positionEvent? policy) := by
  rw [Schema.resolution, resolveFields, Resolution.events_ofFields, Prepared.settled,
    List.flatMap_map]
  rfl

/-- Every event of a resolution is one on the way, also if the schema is refused. -/
theorem isStep_of_mem_events {event : Event} (h : event ∈ (schema.resolution policy).events) :
    event.isStep = true := by
  induction schema using Schema.nested_induction with
  | step schema ih =>
    rw [events_resolution, List.mem_append] at h
    rcases h with h | h
    · obtain ⟨positioned, hpositioned, hevent⟩ := List.mem_flatMap.1 h
      rcases Positioned.mem_events_settle hevent with hstep | ⟨alternate, halternate, hinner⟩
      · exact hstep
      · obtain ⟨field, hfield, heq⟩ := exists_of_placed hpositioned
        rw [heq, Field.alternates_prepare] at halternate
        cases hown : field.alternates? with
        | none =>
          rw [hown] at halternate
          cases halternate
        | some own =>
          rw [hown] at halternate
          obtain ⟨inner, hmember, rfl⟩ := List.mem_map.1 halternate
          rw [Alternate.resolve_eq] at hinner
          exact ih field hfield own hown inner hmember hinner
    · obtain ⟨entry, -, hevent⟩ := List.mem_filterMap.1 h
      exact Entry.isStep_of_positionEvent? hevent

/-- The events of a resolution tell its plan. -/
theorem tells_of_outcome (h : (schema.resolution policy).outcome = .ok plan) :
    Tells (Announces plan) plan.account plan.warnings (schema.resolution policy).events := by
  induction schema using Schema.nested_induction generalizing plan with
  | step schema ih =>
    obtain ⟨-, hfields, hwarnings⟩ := Schema.accepted_of_outcome h
    have hbecomes := forall₂_becomes h
    have hinner : Tells (Announces plan) (plan.fields.flatMap (·.account))
        (plan.fields.flatMap (·.nestedWarnings))
        ((schema.placed policy).flatMap fun positioned =>
          (positioned.settle schema.readOnly (schema.widths policy)).events) := by
      refine Tells.flatMap (List.forall₂_iff_zip.2 ⟨hbecomes.length_eq, ?_⟩)
      intro positioned planned hmem
      obtain ⟨hpositioned, hplanned⟩ := List.of_mem_zip hmem
      obtain ⟨field, hfield, heq⟩ := exists_of_placed hpositioned
      refine (List.forall₂_zip hbecomes hmem).tells ?_
      intro alternates plans halternates hplans hdistinct alternate halternate sub hsub houtcome
      rw [heq, Field.alternates_prepare] at halternates
      obtain ⟨own, hown, rfl⟩ := Option.map_eq_some_iff.1 halternates
      obtain ⟨inner, hmember, rfl⟩ := List.mem_map.1 halternate
      rw [Alternate.resolve_eq] at houtcome ⊢
      refine (ih field hfield own hown inner hmember houtcome).map ?_
      intro event warning hannounces
      refine hannounces.nested ?_
      rw [field?_of_outcome h hplanned, Option.bind_some]
      exact PlannedField.alternate?_of_mem hplans hdistinct hsub
    have hown : Tells (Announces plan) []
        (if policy = .warn then Prepared.mismatches schema.readOnly (schema.prepared policy)
          else [])
        ((Prepared.entries schema.readOnly (schema.prepared policy)).filterMap
          (·.positionEvent? policy)) := by
      refine tells_positions policy fun entry hentry expected actual hmismatch => ?_
      obtain ⟨-, hposition, hdiffers⟩ := Entry.mismatch?_eq_some_iff.1 hmismatch
      refine Announces.at [] entry.field.name rfl (field?_of_outcome h ?_) hposition hdiffers
      rw [hfields]
      exact List.mem_map_of_mem hentry
    rw [events_resolution, Plan.account_eq_flatMap, hwarnings, Prepared.tolerated_eq, ← hfields]
    simpa using hinner.append hown

/-- A trace begins and ends with the bounds of the span, and says last how the resolution ended:
with the number of fields of the plan, its length and its number of warnings, or with the number of
diagnostics. What it says before tells the plan, if there is one, and never of an end. -/
theorem trace_tells (schema : Schema) (policy : MismatchPolicy) :
    (∀ plan, schema.resolve policy = .ok plan → ∃ events,
      schema.trace policy = .ok (.entered schema.name :: events ++
        [.schemaResolved plan.fields.length plan.minimumSize plan.warnings.length, .exited]) ∧
      (∀ event ∈ events, event.isStep = true) ∧
      Tells (Announces plan) plan.account plan.warnings events) ∧
    (∀ error, schema.resolve policy = .error (.error error) → ∃ events,
      schema.trace policy = .ok (.entered schema.name :: events ++
        [.schemaRefused error.diagnostics.length, .exited]) ∧
      ∀ event ∈ events, event.isStep = true) := by
  constructor
  · intro plan h
    obtain ⟨hrange, houtcome⟩ := Schema.resolve_eq_ok_iff.1 h
    refine ⟨(schema.resolution policy).events, ?_, fun _ => isStep_of_mem_events,
      tells_of_outcome houtcome⟩
    simp only [trace, hrange, if_true, houtcome, lastEvent]
  · intro error h
    obtain ⟨hrange, houtcome, -⟩ := Schema.resolve_eq_refused_iff.1 h
    refine ⟨(schema.resolution policy).events, ?_, fun _ => isStep_of_mem_events⟩
    simp only [trace, hrange, if_true, houtcome, lastEvent]

end Schema

/-- Two explicit positions that are not where the fields before end, one of them in an alternate. -/
def noticeSchema : Schema where
  name := "Notice"
  fields :=
    [.anchor { name := "body", type := .byteArray 4 }
      [.mk "pair" [.plain { name := "code", type := .integer .u16, position := .literal 1 }]],
      .plain { name := "mark", type := .integer .u8, position := .literal 6 }]

theorem noticeSchema_tells :
    (∃ plan events, noticeSchema.resolve .warn = .ok plan ∧
      noticeSchema.trace .warn = .ok (.entered "Notice" :: events ++
        [.schemaResolved 2 7 2, .exited]) ∧
      plan.account = [.fieldResolved "code" "1" "2", .alternateResolved "body" "pair" 3,
        .fieldResolved "body" "0" "4", .fieldResolved "mark" "6" "1"] ∧
      plan.warnings = [.ofLayout "body.pair.code" (.positionMismatch 0 1),
        .ofLayout "mark" (.positionMismatch 4 6)] ∧
      Tells (Announces plan) plan.account plan.warnings events) ∧
    ∃ error events, noticeSchema.resolve .error = .error (.error error) ∧
      noticeSchema.trace .error = .ok (.entered "Notice" :: events ++
        [.schemaRefused error.diagnostics.length, .exited]) := by
  constructor
  · obtain ⟨plan, hplan, haccount, hwarnings, hlast⟩ : ∃ plan,
        noticeSchema.resolve .warn = .ok plan ∧
        plan.account = [.fieldResolved "code" "1" "2", .alternateResolved "body" "pair" 3,
          .fieldResolved "body" "0" "4", .fieldResolved "mark" "6" "1"] ∧
        plan.warnings = [.ofLayout "body.pair.code" (.positionMismatch 0 1),
          .ofLayout "mark" (.positionMismatch 4 6)] ∧
        (plan.fields.length, plan.minimumSize, plan.warnings.length) = (2, 7, 2) :=
      ⟨_, rfl, by decide, by decide, rfl⟩
    obtain ⟨events, htrace, -, htells⟩ := (Schema.trace_tells noticeSchema .warn).1 plan hplan
    obtain ⟨hfields, hminimum, hcount⟩ := Prod.mk.inj hlast |>.imp_right Prod.mk.inj
    rw [hfields, hminimum, hcount] at htrace
    exact ⟨plan, events, hplan, htrace, haccount, hwarnings, htells⟩
  · obtain ⟨error, herror⟩ : ∃ error, noticeSchema.resolve .error = .error (.error error) :=
      ⟨_, rfl⟩
    obtain ⟨events, htrace, -⟩ := (Schema.trace_tells noticeSchema .error).2 error herror
    exact ⟨error, events, herror, htrace⟩

end PacketLayout
