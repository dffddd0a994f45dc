import PacketLayout.Proofs.Arrangement

/-!
# Resolved schemas

What a schema and its plan have to do with each other, in one place: `Resolved`. Later statements
about plans start from it and do not look at the resolution again.

* `Schema.resolved` says that every plan that resolution returns is related to its schema.
* `Schema.at?` finds the schema of an alternate below a path, and `Schema.resolve_at?` says that its
  plan is the one found there.
-/

namespace PacketLayout

/-! ## Alternates below a field -/

namespace Field

variable (policy : MismatchPolicy) (readOnly : Bool) (field : Field)

@[simp] theorem decl_prepare : (field.prepare policy readOnly).decl = field.decl := by
  cases field <;> rfl

theorem alternates_prepare :
    (field.prepare policy readOnly).alternates =
      field.alternates?.map fun alternates =>
        alternates.map (·.resolve policy (readOnly || field.decl.readOnly)) := by
  cases field with
  | plain decl => rfl
  | anchor decl alternates =>
    simp [prepare, alternates?, Alternate.resolveAll_eq_map, Field.decl]

theorem explains_prepare : (field.prepare policy readOnly).Explains := by
  intro alternates halternates alternate hmem diagnostics herror
  rw [alternates_prepare] at halternates
  obtain ⟨all, -, rfl⟩ := Option.map_eq_some_iff.1 halternates
  obtain ⟨origin, -, rfl⟩ := List.mem_map.1 hmem
  rw [Alternate.resolve_eq] at herror
  exact Resolution.explains_ofFields herror

end Field

/-- The fields of a schema with their alternates resolved. -/
def Schema.prepared (schema : Schema) (policy : MismatchPolicy) : List Prepared :=
  schema.fields.map (·.prepare policy schema.readOnly)

theorem Schema.map_decl_prepared (schema : Schema) (policy : MismatchPolicy) :
    (schema.prepared policy).map (·.decl) = schema.fields.map (·.decl) := by
  rw [Schema.prepared, List.map_map]
  refine List.map_congr_left fun field _ => ?_
  exact field.decl_prepare policy schema.readOnly

theorem Schema.map_name_prepared (schema : Schema) (policy : MismatchPolicy) :
    (schema.prepared policy).map (·.decl.name) = schema.fields.map (·.decl.name) := by
  have := congrArg (List.map Declaration.name) (schema.map_decl_prepared policy)
  rwa [List.map_map, List.map_map] at this

theorem Schema.explains_prepared {schema : Schema} {policy : MismatchPolicy} {prepared : Prepared}
    (h : prepared ∈ schema.prepared policy) : prepared.Explains := by
  obtain ⟨origin, -, rfl⟩ := List.mem_map.1 h
  exact origin.explains_prepare policy schema.readOnly

/-! ## Sums that stay in range -/

theorem shapeAlternates_inRange {anchor : String} {available : Option Nat} {seen : List String}
    {alternates : List (String × Resolution)}
    (h : (shapeAlternates anchor available seen alternates).all (·.inRange) = true)
    (hdistinct : (alternates.map (·.1)).Nodup)
    (hnames : ∀ alternate ∈ alternates, alternate.1 ≠ "" ∧ alternate.1 ∉ seen) :
    ∀ alternate ∈ alternates, alternate.2.inRange = true := by
  -- distinct names are needed: an alternate that repeats one is reported, but not looked into
  rw [shapeAlternates_eq_map hnames hdistinct, List.all_map, List.all_eq_true] at h
  intro alternate hmem
  have hinner := h alternate hmem
  rw [Function.comp_apply, shapeAlternate] at hinner
  split at hinner
  · exact hinner
  · split at hinner <;> exact hinner

/-- In a settled field every sum is in range, also below its alternates. -/
theorem Positioned.inRange_settle {readOnly : Bool} {unitWidth : Nat → Nat}
    {positioned : Positioned} {entry : Entry} {size : Size} {slot : Option BitSlot} {shape : Shape}
    (h : (positioned.settle readOnly unitWidth).inRange = true)
    (hentry : (positioned.settle readOnly unitWidth).entry = some entry)
    (hsize : positioned.field.size = .ok size)
    (hshapes : Shapes readOnly positioned.field size slot shape) :
    entry.field.offset.constant + entry.field.sizeExpr.constant < wordLimit ∧
      ∀ alternates, positioned.field.alternates = some alternates →
        ∀ alternate ∈ alternates, alternate.2.inRange = true := by
  simp only [Positioned.settle, hsize, Option.map_eq_some_iff, Bool.and_eq_true,
    decide_eq_true_eq] at h hentry
  obtain ⟨settled, -, rfl⟩ := hentry
  refine ⟨h.2, fun alternates halternates => ?_⟩
  have hinner := h.1
  rw [halternates] at hinner
  cases hshapes with
  | leaf plain =>
    rw [plain] at halternates
    cases halternates
  | union anchor _ _ _ named distinct =>
    obtain rfl := Option.some.inj (anchor.symm.trans halternates)
    exact shapeAlternates_inRange hinner distinct fun alternate hmem =>
      ⟨named alternate hmem, List.not_mem_nil⟩

/-! ## The relation -/

/-- The fields of a plan beside the declarations of its schema. -/
def Schema.pairs (schema : Schema) (plan : Plan) : List Pair :=
  (schema.fields.map (·.decl)).zip plan.fields

/-- A schema and its plan. -/
structure Resolved (policy : MismatchPolicy) (schema : Schema) (plan : Plan) : Prop where
  name : plan.name = schema.name
  readOnly : plan.readOnly = schema.readOnly
  distinct : (schema.fields.map (·.decl.name)).Nodup
  realizes : List.Forall₂ (Realizes schema.readOnly) (schema.prepared policy) plan.fields
  arranged : Arranged policy .zero 0 (schema.pairs plan)
  minimumSize_eq : plan.minimumSize = minimumSize plan.fields
  totalSize_eq : plan.totalSize = totalSize plan.fields
  bounded : ∀ field ∈ plan.fields, field.offset.constant + field.sizeExpr.constant < wordLimit
  total_bounded : plan.totalSize.constant < wordLimit
  alternates_inRange : ∀ field ∈ schema.prepared policy, ∀ alternates,
    field.alternates = some alternates → ∀ alternate ∈ alternates, alternate.2.inRange = true

theorem Schema.resolve_eq_ok_iff {schema : Schema} {policy : MismatchPolicy} {plan : Plan} :
    schema.resolve policy = .ok plan ↔
      (schema.resolution policy).inRange = true ∧
        (schema.resolution policy).outcome = .ok plan := by
  cases hrange : (schema.resolution policy).inRange with
  | false => simp [Schema.resolve, hrange]
  | true =>
    cases houtcome : (schema.resolution policy).outcome with
    | error diagnostics => simp [Schema.resolve, hrange, houtcome]
    | ok result => simp [Schema.resolve, hrange, houtcome]

theorem Schema.resolve_eq_refused_iff {schema : Schema} {policy : MismatchPolicy}
    {error : ResolveError} :
    schema.resolve policy = .error (.error error) ↔
      (schema.resolution policy).inRange = true ∧
        (schema.resolution policy).outcome = .error error.diagnostics ∧
          error.schema = schema.name := by
  cases error with
  | mk name diagnostics =>
    cases hrange : (schema.resolution policy).inRange with
    | false => simp [Schema.resolve, hrange]
    | true =>
      cases houtcome : (schema.resolution policy).outcome with
      | ok plan => simp [Schema.resolve, hrange, houtcome]
      | error found => simp [Schema.resolve, hrange, houtcome, and_comm, eq_comm]

/-- A schema without a plan is refused with everything that is reported about it. -/
theorem Schema.diagnostics_of_refused {schema : Schema} {policy : MismatchPolicy}
    {error : ResolveError} (h : schema.resolve policy = .error (.error error)) :
    error.diagnostics = Prepared.reported policy schema.readOnly (schema.prepared policy) := by
  obtain ⟨-, hrefused, -⟩ := Schema.resolve_eq_refused_iff.1 h
  have houtcome : (schema.resolution policy).outcome = _ :=
    Resolution.outcome_ofFields policy schema.readOnly schema.name (schema.prepared policy)
  rw [hrefused] at houtcome
  split at houtcome
  · cases houtcome
  · exact Except.error.inj houtcome

/-- Every plan that resolution returns is related to its schema. -/
theorem Schema.resolved {schema : Schema} {policy : MismatchPolicy} {plan : Plan}
    (h : schema.resolve policy = .ok plan) : Resolved policy schema plan := by
  obtain ⟨hrange, houtcome⟩ := Schema.resolve_eq_ok_iff.1 h
  obtain ⟨haccepted, rfl⟩ := Resolution.ofFields_accepted houtcome
  change Accepted policy schema.readOnly (schema.prepared policy) at haccepted
  have hexplains : ∀ field ∈ schema.prepared policy, field.Explains :=
    fun _ => Schema.explains_prepared
  have hsums := (Resolution.inRange_ofFields policy schema.readOnly schema.name
    (schema.prepared policy)).symm.trans hrange
  rw [Bool.and_eq_true, decide_eq_true_eq, List.all_eq_true] at hsums
  obtain ⟨hsettled, htotal⟩ := hsums
  have hinner : ∀ positioned ∈ Prepared.positioned (schema.prepared policy), ∀ entry,
      (positioned.settle schema.readOnly
        (unitWidth (Prepared.placements (schema.prepared policy)))).entry = some entry →
      entry.field.offset.constant + entry.field.sizeExpr.constant < wordLimit ∧
        ∀ alternates, positioned.field.alternates = some alternates →
          ∀ alternate ∈ alternates, alternate.2.inRange = true := by
    intro positioned hmem entry hentry
    have hsettles := haccepted.settles hexplains hmem
    obtain ⟨size, shape, hsize, hshapes, -⟩ :=
      Positioned.settle_accepted hsettles.unreported hsettles.explains
    exact Positioned.inRange_settle (hsettled _ (List.mem_map_of_mem hmem)) hentry hsize hshapes
  have harranged := haccepted.arranged hexplains
  rw [Prepared.pairs, schema.map_decl_prepared policy] at harranged
  refine ⟨rfl, rfl, ?_, haccepted.realizes hexplains, harranged, rfl, rfl, ?_, htotal, ?_⟩
  · rw [← schema.map_name_prepared policy]
    exact haccepted.distinct
  · intro field hfield
    obtain ⟨entry, hentry, rfl⟩ := List.mem_map.1 hfield
    obtain ⟨settled, hmem, hsome⟩ := List.mem_filterMap.1 hentry
    obtain ⟨positioned, hpositioned, rfl⟩ := List.mem_map.1 hmem
    exact (hinner positioned hpositioned entry hsome).1
  · intro field hfield alternates halternates
    rw [← Prepared.map_field_positioned (schema.prepared policy)] at hfield
    obtain ⟨positioned, hmem, rfl⟩ := List.mem_map.1 hfield
    have hsettles := haccepted.settles hexplains hmem
    obtain ⟨size, shape, -, -, hentry⟩ :=
      Positioned.settle_accepted hsettles.unreported hsettles.explains
    exact (hinner positioned hmem _ hentry).2 alternates halternates

/-! ## Below a path -/

/-- The field of a name. -/
def Schema.field? (schema : Schema) (name : String) : Option Field :=
  schema.fields.find? (·.decl.name = name)

/-- The alternate of a name. -/
def Field.alternate? (field : Field) (name : String) : Option Alternate :=
  field.alternates?.bind (·.find? (·.name = name))

/-- An alternate as a schema of its own. It is read-only if anything around it is. -/
def Schema.below (schema : Schema) (field : Field) (alternate : Alternate) : Schema :=
  ⟨alternate.name, schema.readOnly || field.decl.readOnly, alternate.fields⟩

/-- The schema below a path of anchors and alternates, outermost first. -/
def Schema.at? (schema : Schema) : List (String × String) → Option Schema
  | [] => some schema
  | (anchor, alternate) :: path =>
    (schema.field? anchor).bind fun field =>
      (field.alternate? alternate).bind fun alternate => (schema.below field alternate).at? path

/-- Corresponding lists have the same images where corresponding elements have. -/
theorem map_eq_of_forall₂ {α β γ : Type} {R : α → β → Prop} {f : α → γ} {g : β → γ}
    {as : List α} {bs : List β} (h : List.Forall₂ R as bs) (hfg : ∀ a b, R a b → g b = f a) :
    bs.map g = as.map f := by
  induction h with
  | nil => rfl
  | cons hab _ ih => rw [List.map_cons, List.map_cons, ih, hfg _ _ hab]

theorem exists_right_of_forall₂ {α β : Type} {R : α → β → Prop} {as : List α} {bs : List β}
    (h : List.Forall₂ R as bs) {a : α} (ha : a ∈ as) : ∃ b ∈ bs, R a b := by
  induction h with
  | nil => cases ha
  | @cons a' b as bs hab _ ih =>
    rcases List.mem_cons.1 ha with rfl | ha
    · exact ⟨b, List.mem_cons_self, hab⟩
    · obtain ⟨b', hmem, hR⟩ := ih ha
      exact ⟨b', List.mem_cons_of_mem _ hmem, hR⟩

theorem exists_left_of_forall₂ {α β : Type} {R : α → β → Prop} {as : List α} {bs : List β}
    (h : List.Forall₂ R as bs) {b : β} (hb : b ∈ bs) : ∃ a ∈ as, R a b :=
  exists_right_of_forall₂ (R := flip R) h.flip hb

/-- Where names are distinct, the name of an element finds it. -/
theorem find?_of_nodup {α κ : Type} [DecidableEq κ] {name : α → κ} {list : List α}
    (hdistinct : (list.map name).Nodup) {a : α} (hmem : a ∈ list) :
    list.find? (fun other => decide (name other = name a)) = some a := by
  induction list with
  | nil => cases hmem
  | cons first rest ih =>
    rw [List.map_cons, List.nodup_cons] at hdistinct
    rcases List.mem_cons.1 hmem with rfl | hmem
    · exact List.find?_cons_of_pos (decide_eq_true rfl)
    · rw [List.find?_cons_of_neg, ih hdistinct.2 hmem]
      intro heq
      refine hdistinct.1 (List.mem_map.2 ⟨a, hmem, ?_⟩)
      exact (of_decide_eq_true heq).symm

/-- What is found in one of two lists that correspond is found in the other. -/
theorem exists_find?_of_forall₂ {α β : Type} {R : α → β → Prop} {p : α → Bool} {q : β → Bool}
    {as : List α} {bs : List β} (h : List.Forall₂ R as bs) (hpq : ∀ a b, R a b → p a = q b)
    {b : β} (hb : bs.find? q = some b) : ∃ a, as.find? p = some a ∧ R a b := by
  induction h with
  | nil => cases hb
  | @cons a b' as bs hab _ ih =>
    cases hq : q b' with
    | true =>
      rw [List.find?_cons_of_pos hq] at hb
      obtain rfl := Option.some.inj hb
      exact ⟨a, List.find?_cons_of_pos ((hpq _ _ hab).trans hq), hab⟩
    | false =>
      rw [List.find?_cons_of_neg (by simp [hq])] at hb
      obtain ⟨a', ha', hR⟩ := ih hb
      refine ⟨a', ?_, hR⟩
      rwa [List.find?_cons_of_neg (by simp [hpq _ _ hab, hq])]

namespace Resolved

variable {policy : MismatchPolicy} {schema : Schema} {plan : Plan}

/-- The field that a planned field of a name stands for. -/
theorem exists_field? (h : Resolved policy schema plan) {name : String} {planned : PlannedField}
    (hfield : plan.field? name = some planned) :
    ∃ field, schema.field? name = some field ∧
      Realizes schema.readOnly (field.prepare policy schema.readOnly) planned := by
  obtain ⟨prepared, hfind, hrealizes⟩ := exists_find?_of_forall₂ h.realizes
    (p := fun field => decide (field.decl.name = name))
    (fun _ _ hrealizes => by rw [hrealizes.name]) hfield
  rw [Schema.prepared, List.find?_map] at hfind
  obtain ⟨field, hfield, rfl⟩ := Option.map_eq_some_iff.1 hfind
  refine ⟨field, ?_, hrealizes⟩
  rw [← hfield, Schema.field?]
  congr 1
  funext other
  simp

/-- The plan of an alternate is that of the alternate as a schema of its own. -/
theorem resolve_below (h : Resolved policy schema plan) {anchor name : String}
    {planned : PlannedField} {sub : Plan} (hfield : plan.field? anchor = some planned)
    (halternate : planned.alternate? name = some sub) :
    ∃ field alternate, schema.field? anchor = some field ∧
      field.alternate? name = some alternate ∧
      (schema.below field alternate).resolve policy = .ok sub := by
  obtain ⟨field, hfind, hrealizes⟩ := h.exists_field? hfield
  obtain ⟨slot, -, hshapes⟩ := hrealizes.shape
  obtain ⟨⟨planName, inner⟩, hplan, rfl⟩ := Option.map_eq_some_iff.1 halternate
  obtain ⟨plans, hplans, hplan⟩ := Option.bind_eq_some_iff.1 hplan
  unfold PlannedField.alternates? at hplans
  cases hshape : planned.shape with
  | leaf leaf =>
    rw [hshape] at hplans
    cases hplans
  | union alternates =>
    rw [hshape] at hplans hshapes
    obtain rfl := Option.some.inj hplans
    cases hshapes with
    | @union resolutions _ anchored _ _ _ _ _ accepted =>
      have hmember : field.prepare policy schema.readOnly ∈ schema.prepared policy :=
        List.mem_map.2 ⟨field, List.mem_of_find?_eq_some hfind, rfl⟩
      have hinRange := h.alternates_inRange _ hmember resolutions anchored
      obtain ⟨resolution, hfound, hok⟩ := exists_find?_of_forall₂ accepted
        (p := fun resolution => decide (resolution.1 = name))
        (fun _ _ hok => by rw [hok.name]) hplan
      have hranged := hinRange _ (List.mem_of_find?_eq_some hfound)
      -- the resolution that was found is that of a declared alternate, and this one is wanted
      rw [Field.alternates_prepare] at anchored
      obtain ⟨origins, horigins, rfl⟩ := Option.map_eq_some_iff.1 anchored
      rw [List.find?_map] at hfound
      obtain ⟨alternate, halternate, rfl⟩ := Option.map_eq_some_iff.1 hfound
      refine ⟨field, alternate, hfind, ?_, ?_⟩
      · rw [Field.alternate?, horigins, Option.bind_some, ← halternate]
        congr 1
        funext other
        simp [Alternate.resolve_eq]
      · rw [Alternate.resolve_eq] at hranged hok
        exact Schema.resolve_eq_ok_iff.2 ⟨hranged, hok.outcome⟩

end Resolved

/-- The plan below a path is that of the schema below the path. -/
theorem Schema.resolve_at? {schema : Schema} {policy : MismatchPolicy} {plan sub : Plan}
    {path : List (String × String)} (h : schema.resolve policy = .ok plan)
    (hsub : plan.at? path = some sub) :
    ∃ part, schema.at? path = some part ∧ part.resolve policy = .ok sub := by
  induction path generalizing schema plan with
  | nil =>
    obtain rfl := Option.some.inj hsub
    exact ⟨schema, rfl, h⟩
  | cons step path ih =>
    obtain ⟨anchor, name⟩ := step
    obtain ⟨inner, hinner, hsub⟩ := Option.bind_eq_some_iff.1 hsub
    obtain ⟨planned, hfield, halternate⟩ := Option.bind_eq_some_iff.1 hinner
    obtain ⟨field, alternate, hfind, hname, hresolve⟩ :=
      (Schema.resolved h).resolve_below hfield halternate
    obtain ⟨part, hpart, hok⟩ := ih hresolve hsub
    refine ⟨part, ?_, hok⟩
    rw [Schema.at?, hfind, Option.bind_some, hname, Option.bind_some]
    exact hpart

end PacketLayout
