import PacketLayout.Proofs.Extents
import PacketLayout.Proofs.Nesting

/-!
# The two mismatch policies

An explicit position that disagrees with the fields before it is refused under one policy and kept
with a warning under the other. Nothing else differs: without a mismatch, here or below an anchor,
both policies resolve a schema alike, down to the events on the way.

* `Schema.untroubled_of_outcome` says this of a schema that one of them resolves without a mismatch.
* `Overrides` is what a warning is about.
* `Schema.policies_differ_by_warnings` is the comparison of the two policies as a whole.
-/

namespace PacketLayout

/-! ## Mismatches -/

theorem Entry.positionEvent?_of_mismatch? {entry : Entry} (h : entry.mismatch? = none) :
    entry.positionEvent? .warn = entry.positionEvent? .error := by
  unfold Entry.mismatch? at h
  unfold Entry.positionEvent?
  cases hposition : entry.field.layout.position with
  | sequential | computed => rfl
  | literal actual =>
    cases hstatic : entry.predicted.bind (·.static?) with
    | none => rfl
    | some expected =>
      simp only [hposition, hstatic, ite_eq_left_iff, reduceCtorEq, imp_false, Decidable.not_not]
        at h
      exact if_pos h

/-- Without a mismatch of its own a field list is resolved alike under both policies. -/
theorem Resolution.ofFields_warn_eq {readOnly : Bool} {fields : List Prepared}
    (h : Prepared.mismatches readOnly fields = []) (name : String) :
    Resolution.ofFields .warn readOnly name fields =
      Resolution.ofFields .error readOnly name fields := by
  have hevents : (Prepared.entries readOnly fields).filterMap (·.positionEvent? .warn) =
      (Prepared.entries readOnly fields).filterMap (·.positionEvent? .error) := by
    refine List.filterMap_congr fun entry hentry => ?_
    have hnone := List.filterMap_eq_nil_iff.1 h entry hentry
    exact Entry.positionEvent?_of_mismatch? (Option.map_eq_none_iff.1 hnone)
  have houtcome : (Resolution.ofFields .warn readOnly name fields).outcome =
      (Resolution.ofFields .error readOnly name fields).outcome := by
    simp only [Resolution.outcome_ofFields, Prepared.reported, Prepared.tolerated, h]
  show Resolution.mk _ _ _ = Resolution.mk _ _ _
  exact congrArg₂ (Resolution.mk _) (congrArg (_ ++ ·) hevents) houtcome

/-! ## Warnings -/

namespace PlannedField

/-- The warnings that an anchor takes over from its alternates. -/
def nestedWarnings (field : PlannedField) : List Diagnostic :=
  alternateWarnings field.name (field.alternates?.getD [])

variable {field : PlannedField} {plans : List AlternatePlan}

theorem nestedWarnings_of_leaf (h : field.alternates? = none) : field.nestedWarnings = [] := by
  rw [nestedWarnings, h]
  rfl

theorem mem_nestedWarnings (h : field.alternates? = some plans) {warning : Diagnostic} :
    warning ∈ field.nestedWarnings ↔
      ∃ alternate ∈ plans, ∃ inner ∈ alternate.plan.warnings,
        inner.nested (field.name ++ "." ++ alternate.name) = warning := by
  simp [nestedWarnings, h, alternateWarnings, List.mem_flatMap]

theorem nestedWarnings_eq_nil_iff (h : field.alternates? = some plans) :
    field.nestedWarnings = [] ↔ ∀ alternate ∈ plans, alternate.plan.warnings = [] := by
  simp [nestedWarnings, h, alternateWarnings]

end PlannedField

/-- The only warnings of a settled field are those of its alternates. -/
theorem Positioned.warnings_settle (readOnly : Bool) (unitWidth : Nat → Nat) (field : Positioned) :
    (field.settle readOnly unitWidth).warnings =
      ((field.settle readOnly unitWidth).entry.map (·.field.nestedWarnings)).getD [] := by
  unfold Positioned.settle
  cases field.field.size with
  | error defect => rfl
  | ok size =>
    cases field.field.alternates with
    | none =>
      simp only [shapeLeaf]
      cases Provider.resolve field.field.decl size _ with
      | error defect => rfl
      | ok provider => rfl
    | some alternates =>
      -- an anchor with a defect has neither a shape nor warnings
      simp only [shapeUnion]
      generalize List.isEmpty (if alternates.isEmpty = true then _ else _) = flawless
      cases flawless <;> rfl

theorem Prepared.tolerated_eq (policy : MismatchPolicy) (readOnly : Bool) (fields : List Prepared) :
    Prepared.tolerated policy readOnly fields =
      (Prepared.planned readOnly fields).flatMap (·.nestedWarnings) ++
        if policy = .warn then Prepared.mismatches readOnly fields else [] := by
  have htaken : (Prepared.settled readOnly fields).flatMap (·.warnings) =
      (Prepared.planned readOnly fields).flatMap (·.nestedWarnings) := by
    rw [Prepared.planned, Prepared.entries, Prepared.settled]
    induction Prepared.positioned fields with
    | nil => rfl
    | cons field rest ih =>
      rw [List.map_cons, List.flatMap_cons, ih, List.filterMap_cons, Positioned.warnings_settle]
      cases (field.settle readOnly (unitWidth (Prepared.placements fields))).entry with
      | none => rfl
      | some entry => rfl
  cases policy with
  | error => exact congrArg (· ++ []) htaken
  | warn => exact congrArg (· ++ Prepared.mismatches readOnly fields) htaken

/-- An accepted list has no mismatch, unless it has a warning about it. -/
theorem Accepted.mismatches_eq_nil {policy : MismatchPolicy} {readOnly : Bool}
    {fields : List Prepared} (h : Accepted policy readOnly fields)
    (hclean : policy = .warn → Prepared.tolerated policy readOnly fields = []) :
    Prepared.mismatches readOnly fields = [] := by
  cases policy with
  | error =>
    refine List.filterMap_eq_nil_iff.2 fun entry hentry => ?_
    exact Option.map_eq_none_iff.2 (h.agreeing rfl entry hentry)
  | warn =>
    rw [Prepared.tolerated_eq] at hclean
    exact (List.append_eq_nil_iff.1 (hclean rfl)).2

/-! ## Plans without warnings -/

/-- A field is prepared alike under both policies if its alternates are. -/
theorem Field.prepare_warn_eq {readOnly : Bool} {field : Field}
    (h : ∀ alternates, field.alternates? = some alternates → ∀ alternate ∈ alternates,
      alternate.resolve .warn (readOnly || field.decl.readOnly) =
        alternate.resolve .error (readOnly || field.decl.readOnly)) :
    field.prepare .warn readOnly = field.prepare .error readOnly := by
  cases field with
  | plain decl => rfl
  | anchor decl alternates =>
    rw [Field.prepare, Field.prepare, Alternate.resolveAll_eq_map, Alternate.resolveAll_eq_map]
    exact congrArg (fun resolved => Prepared.mk decl (some resolved))
      (List.map_congr_left (h alternates rfl))

/-- Both policies resolve the schema alike, and its plan has no warnings. -/
def Schema.Untroubled (schema : Schema) (plan : Plan) : Prop :=
  schema.resolution .warn = schema.resolution .error ∧ plan.warnings = []

theorem Below.untroubled {policy : MismatchPolicy} {schema : Schema} {field : Field}
    {planned : PlannedField} (h : Below policy schema field planned)
    (hsub : ∀ alternates plans, field.alternates? = some alternates →
      planned.alternates? = some plans → ∀ alternate ∈ alternates, ∀ plan ∈ plans,
        ((schema.below field alternate).resolution policy).outcome = .ok plan.plan →
          (schema.below field alternate).Untroubled plan.plan) :
    field.prepare .warn schema.readOnly = field.prepare .error schema.readOnly ∧
      planned.nestedWarnings = [] := by
  cases h with
  | leaf plain leaf =>
    refine ⟨Field.prepare_warn_eq fun alternates hsome => ?_,
      PlannedField.nestedWarnings_of_leaf leaf⟩
    rw [plain] at hsome
    cases hsome
  | @union alternates plans declared hplans _ each =>
    constructor
    · refine Field.prepare_warn_eq fun own hown alternate hmem => ?_
      obtain rfl := Option.some.inj (declared.symm.trans hown)
      obtain ⟨plan, hplan, -, houtcome⟩ := exists_right_of_forall₂ each hmem
      rw [Alternate.resolve_eq, Alternate.resolve_eq]
      exact congrArg _ (hsub alternates plans declared hplans alternate hmem plan hplan houtcome).1
    · refine (PlannedField.nestedWarnings_eq_nil_iff hplans).2 fun plan hplan => ?_
      obtain ⟨alternate, hmem, -, houtcome⟩ := exists_left_of_forall₂ each hplan
      exact (hsub alternates plans declared hplans alternate hmem plan hplan houtcome).2

/-- A schema is resolved alike under both policies, and without a warning, if one of them finds no
mismatch: the strict one because there is a plan, the tolerant one because its plan has no
warnings. -/
theorem Schema.untroubled_of_outcome {policy : MismatchPolicy} {schema : Schema} {plan : Plan}
    (h : (schema.resolution policy).outcome = .ok plan)
    (hclean : policy = .warn → plan.warnings = []) : schema.Untroubled plan := by
  induction schema using Schema.nested_induction generalizing plan with
  | step schema ih =>
    obtain ⟨haccepted, hfields, hwarnings⟩ := Schema.accepted_of_outcome h
    have hmismatches := haccepted.mismatches_eq_nil fun hwarn => hwarnings ▸ hclean hwarn
    rw [Prepared.tolerated_eq, hmismatches, ite_self, List.append_nil, ← hfields] at hwarnings
    have hbelow := Schema.below_of_outcome h
    have hboth : List.Forall₂ (fun field planned =>
        field.prepare .warn schema.readOnly = field.prepare .error schema.readOnly ∧
          planned.nestedWarnings = []) schema.fields plan.fields := by
      refine List.forall₂_iff_zip.2 ⟨hbelow.length_eq, fun {field planned} hmem => ?_⟩
      refine (List.forall₂_zip hbelow hmem).untroubled ?_
      intro alternates plans halternates hplans alternate halternate sub hsub houtcome
      refine ih field (List.of_mem_zip hmem).1 alternates halternates alternate halternate houtcome
        fun hwarn => ?_
      -- warnings of the alternate would have been taken over
      have hnone := List.flatMap_eq_nil_iff.1 (hwarnings.symm.trans (hclean hwarn)) planned
        (List.of_mem_zip hmem).2
      exact (PlannedField.nestedWarnings_eq_nil_iff hplans).1 hnone sub hsub
    have hprepared : schema.prepared .warn = schema.prepared .error := by
      refine List.map_congr_left fun field hfield => ?_
      obtain ⟨planned, -, hsame, -⟩ := exists_right_of_forall₂ hboth hfield
      exact hsame
    have hstrict : schema.prepared .error = schema.prepared policy := by
      cases policy with
      | error => rfl
      | warn => exact hprepared.symm
    constructor
    · change Resolution.ofFields .warn schema.readOnly schema.name (schema.prepared .warn) =
        Resolution.ofFields .error schema.readOnly schema.name (schema.prepared .error)
      rw [hprepared, hstrict]
      exact Resolution.ofFields_warn_eq hmismatches schema.name
    · rw [hwarnings]
      refine List.flatMap_eq_nil_iff.2 fun planned hplanned => ?_
      obtain ⟨field, -, -, hnone⟩ := exists_left_of_forall₂ hboth hplanned
      exact hnone

/-! ## What a warning is about -/

/-- In a placed list a field with an explicit position stands there. -/
theorem Laid.offset_of_literal {next : Option Expr} {units : Nat} {list : List Positioned}
    (h : Laid next units list) {field : Positioned} (hmem : field ∈ list) {offset : Nat}
    (hposition : field.position = .literal offset) : field.placement.offset = .literal offset := by
  have hoffset : ∀ next, field.offsetFrom next = .literal offset := by
    intro next
    rw [Positioned.offsetFrom, hposition]
    rfl
  induction h with
  | nil => cases hmem
  | single _ place _ _ ih =>
    rcases List.mem_cons.1 hmem with rfl | hmem
    · rw [place]
      exact hoffset _
    · exact ih hmem
  | unit _ place joined _ _ ih =>
    rcases List.mem_append.1 hmem with hmem | hmem
    · rcases List.mem_cons.1 hmem with rfl | hmem
      · rw [place]
        exact hoffset _
      · rw [joined.position_eq hmem] at hposition
        cases hposition
    · exact ih hmem

/-- A mismatch is reported about a field that stands at its explicit position. -/
theorem Prepared.exists_of_mem_mismatches {readOnly : Bool} {fields : List Prepared}
    {warning : Diagnostic} (h : warning ∈ Prepared.mismatches readOnly fields) :
    ∃ planned ∈ Prepared.planned readOnly fields, ∃ expected actual,
      warning = .ofLayout planned.name (.positionMismatch expected actual) ∧ expected ≠ actual ∧
        planned.layout.position = .literal actual ∧ planned.offset = .literal actual := by
  obtain ⟨entry, hentry, hdiagnostic⟩ := List.mem_filterMap.1 h
  obtain ⟨⟨expected, actual⟩, hmismatch, rfl⟩ := Option.map_eq_some_iff.1 hdiagnostic
  obtain ⟨-, hposition, hne⟩ := Entry.mismatch?_eq_some_iff.1 hmismatch
  obtain ⟨settled, hsettled, hsome⟩ := List.mem_filterMap.1 hentry
  obtain ⟨positioned, hmem, rfl⟩ := List.mem_map.1 hsettled
  obtain ⟨size, shape, -, rfl⟩ := Positioned.entry_eq hsome
  exact ⟨_, List.mem_map_of_mem hentry, expected, actual, rfl, hne, hposition,
    (Prepared.laid_positioned fields).offset_of_literal hmem hposition⟩

/-- The name of a field with the anchors and alternates around it. -/
def dotted : (path : List (String × String)) → (name : String) → String
  | [], name => name
  | (anchor, alternate) :: path, name => anchor ++ "." ++ alternate ++ "." ++ dotted path name

/-- A warning is about a field of the plan, or of a plan below it, whose explicit offset is not the
one that was expected of it. -/
inductive Overrides (plan : Plan) : Diagnostic → Prop
  | at (path : List (String × String)) (name : String) {sub : Plan} {field : PlannedField}
      {expected actual : Nat}
      (below : plan.at? path = some sub)
      (named : sub.field? name = some field)
      (position : field.layout.position = .literal actual)
      (offset : field.offset = .literal actual)
      (differs : expected ≠ actual) :
      Overrides plan (.ofLayout (dotted path name) (.positionMismatch expected actual))

/-- Below an anchor a warning is about the same field, by a longer name. -/
theorem Overrides.nested {plan inner : Plan} {anchor alternate : String} {warning : Diagnostic}
    (h : Overrides inner warning)
    (hinner : (plan.field? anchor).bind (·.alternate? alternate) = some inner) :
    Overrides plan (warning.nested (anchor ++ "." ++ alternate)) := by
  cases h with
  | @«at» path name _ _ _ _ below named position offset differs =>
    refine Overrides.at ((anchor, alternate) :: path) name ?_ named position offset differs
    rw [Plan.at?, hinner]
    exact below

theorem PlannedField.alternate?_of_mem {field : PlannedField} {plans : List AlternatePlan}
    (hplans : field.alternates? = some plans) (hdistinct : (plans.map (·.name)).Nodup)
    {alternate : AlternatePlan} (hmem : alternate ∈ plans) :
    field.alternate? alternate.name = some alternate.plan := by
  rw [PlannedField.alternate?, hplans, Option.bind_some, find?_of_nodup hdistinct hmem]
  rfl

/-- Every warning of a plan is about an explicit offset that was kept. -/
theorem Schema.overrides_of_resolve {schema : Schema} {plan : Plan}
    (h : schema.resolve .warn = .ok plan) {warning : Diagnostic}
    (hwarning : warning ∈ plan.warnings) : Overrides plan warning := by
  induction schema using Schema.nested_induction generalizing plan warning with
  | step schema ih =>
    have hresolved := Schema.resolved h
    have houtcome := (Schema.resolve_eq_ok_iff.1 h).2
    obtain ⟨-, hfields, hwarnings⟩ := Schema.accepted_of_outcome houtcome
    rw [hwarnings, Prepared.tolerated_eq, if_pos rfl, ← hfields] at hwarning
    rcases List.mem_append.1 hwarning with htaken | hown
    · obtain ⟨planned, hplanned, hnested⟩ := List.mem_flatMap.1 htaken
      obtain ⟨field, hfield, hbelow⟩ :=
        exists_left_of_forall₂ (Schema.below_of_outcome houtcome) hplanned
      cases hbelow with
      | leaf _ leaf =>
        rw [PlannedField.nestedWarnings_of_leaf leaf] at hnested
        cases hnested
      | @union alternates plans declared hplans distinct each =>
        obtain ⟨sub, hsub, inner, hinner, rfl⟩ :=
          (PlannedField.mem_nestedWarnings hplans).1 hnested
        have hplan := hresolved.field?_of_mem hplanned
        have hfound := PlannedField.alternate?_of_mem hplans distinct hsub
        obtain ⟨origin, alternate, horigin, halternate, hresolve⟩ :=
          hresolved.resolve_below hplan hfound
        obtain ⟨own, hown, halternate⟩ := Option.bind_eq_some_iff.1 halternate
        have hinside := ih origin (List.mem_of_find?_eq_some horigin) own hown alternate
          (List.mem_of_find?_eq_some halternate) hresolve hinner
        exact hinside.nested (by rw [hplan, Option.bind_some, hfound])
    · obtain ⟨planned, hplanned, expected, actual, rfl, hne, hposition, hoffset⟩ :=
        Prepared.exists_of_mem_mismatches hown
      rw [← hfields] at hplanned
      exact .at [] planned.name rfl (hresolved.field?_of_mem hplanned) hposition hoffset hne

/-- Alternates pass their warnings on to the plan around them. -/
theorem Schema.sublist_warnings {policy : MismatchPolicy} {schema : Schema} {plan : Plan}
    (h : schema.resolve policy = .ok plan) {field : PlannedField} (hmem : field ∈ plan.fields)
    {alternates : List AlternatePlan} (halternates : field.alternates? = some alternates)
    {alternate : AlternatePlan} (halternate : alternate ∈ alternates) :
    (alternate.plan.warnings.map (·.nested (field.name ++ "." ++ alternate.name))).Sublist
      plan.warnings := by
  obtain ⟨-, hfields, hwarnings⟩ :=
    Schema.accepted_of_outcome (Schema.resolve_eq_ok_iff.1 h).2
  rw [hwarnings, Prepared.tolerated_eq, ← hfields]
  have hinner : (alternate.plan.warnings.map
      (·.nested (field.name ++ "." ++ alternate.name))).Sublist field.nestedWarnings := by
    rw [PlannedField.nestedWarnings, halternates, Option.getD_some, alternateWarnings,
      List.flatMap_def]
    exact List.sublist_flatten_of_mem (List.mem_map.2 ⟨alternate, halternate, rfl⟩)
  have houter : field.nestedWarnings.Sublist (plan.fields.flatMap (·.nestedWarnings)) := by
    rw [List.flatMap_def]
    exact List.sublist_flatten_of_mem (List.mem_map_of_mem hmem)
  exact (hinner.trans houter).trans (List.sublist_append_left _ _)

/-! ## The comparison -/

/-- A plan of the strict policy is a plan of the tolerant one without warnings, and the other way
round. A warning names a field that was left at an explicit offset although another one was
expected, and it is seen from every plan around that field. -/
theorem Schema.policies_differ_by_warnings {schema : Schema} {plan : Plan} :
    (schema.resolve .error = .ok plan ↔ schema.resolve .warn = .ok plan ∧ plan.warnings = []) ∧
      (schema.resolve .warn = .ok plan →
        (∀ warning ∈ plan.warnings, Overrides plan warning) ∧
        ∀ path sub, plan.at? path = some sub → ∀ field ∈ sub.fields, ∀ alternates,
          field.alternates? = some alternates → ∀ alternate ∈ alternates,
            (alternate.plan.warnings.map
              (·.nested (field.name ++ "." ++ alternate.name))).Sublist sub.warnings) := by
  refine ⟨⟨fun h => ?_, fun ⟨h, hclean⟩ => ?_⟩, fun h => ⟨fun warning hmem => ?_, ?_⟩⟩
  · obtain ⟨hrange, houtcome⟩ := Schema.resolve_eq_ok_iff.1 h
    obtain ⟨hsame, hclean⟩ := Schema.untroubled_of_outcome houtcome nofun
    refine ⟨Schema.resolve_eq_ok_iff.2 ?_, hclean⟩
    rw [hsame]
    exact ⟨hrange, houtcome⟩
  · obtain ⟨hrange, houtcome⟩ := Schema.resolve_eq_ok_iff.1 h
    obtain ⟨hsame, -⟩ := Schema.untroubled_of_outcome houtcome fun _ => hclean
    rw [Schema.resolve_eq_ok_iff, ← hsame]
    exact ⟨hrange, houtcome⟩
  · exact Schema.overrides_of_resolve h hmem
  · intro path sub hsub field hmem alternates halternates alternate halternate
    obtain ⟨part, -, hresolve⟩ := Schema.resolve_at? h hsub
    exact Schema.sublist_warnings hresolve hmem halternates halternate

/-- A number that skips two bytes, below two anchors. -/
def overrideSchema : Schema where
  name := "Override"
  fields :=
    [.anchor { name := "body", type := .byteArray 4 }
      [.mk "inner" [.anchor { name := "core", type := .byteArray 4 }
        [.mk "deep" [.plain { name := "code", type := .integer .u16, position := .literal 2 }]]]]]

theorem overrideSchema_policies :
    ∃ plan, overrideSchema.resolve .warn = .ok plan ∧
      plan.warnings = [.ofLayout "body.inner.core.deep.code" (.positionMismatch 0 2)] ∧
      overrideSchema.resolve .error ≠ .ok plan ∧
      ∀ warning ∈ plan.warnings, Overrides plan warning := by
  obtain ⟨plan, hplan, hwarnings⟩ : ∃ plan, overrideSchema.resolve .warn = .ok plan ∧
      plan.warnings = [.ofLayout "body.inner.core.deep.code" (.positionMismatch 0 2)] :=
    ⟨_, rfl, by decide⟩
  obtain ⟨hiff, hwarn⟩ := @Schema.policies_differ_by_warnings overrideSchema plan
  refine ⟨plan, hplan, hwarnings, fun hstrict => ?_, (hwarn hplan).1⟩
  have hclean := (hiff.1 hstrict).2
  rw [hwarnings] at hclean
  cases hclean

end PacketLayout
