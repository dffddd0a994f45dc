import PacketLayout.Proofs.Nesting
import PacketLayout.Proofs.UnitReports

/-!
# Which schemas are accepted

The rules for a schema, for its field lists and for all that is nested in them. They read the
declarations only: no field is placed, and nothing that another rule forbids is left out.

* `Acceptable` are the rules for a field list with everything below it.
* `Schema.resolve_iff_acceptable` says that just the schemas that follow them are resolved, and that
  every other one is refused with a reason.
-/

namespace PacketLayout

/-! ## The rules -/

namespace Field

/-- The field as far as placing it is concerned. -/
def sized (field : Field) : Sized :=
  ⟨field.decl, (Size.resolve field.decl field.alternates?.isSome).toOption⟩

/-- The length that a field list needs. -/
def leastSize (fields : List Field) : Nat := PacketLayout.leastSize (fields.map sized)

end Field

/-- The rules for a field by itself. -/
inductive FieldRules : Field → Prop
  | leaf {decl : Declaration} {size : Size}
      (sized : Size.resolve decl false = .ok size)
      (rules : LeafRules decl size) :
      FieldRules (.plain decl)
  | anchor {decl : Declaration} {alternates : List Alternate} {size : Size}
      (sized : Size.resolve decl true = .ok size)
      (accessibility : decl.accessibility = none)
      (backing : decl.enumBacking = none)
      (nonempty : alternates ≠ [])
      (named : ∀ alternate ∈ alternates, alternate.name ≠ "")
      (distinct : (alternates.map (·.name)).Nodup)
      (fits : ∀ available, size.fixed = some available → ∀ alternate ∈ alternates,
        Field.leastSize alternate.fields ≤ available) :
      FieldRules (.anchor decl alternates)

/-- The rules for the fields of a list together. -/
structure ListRules (policy : MismatchPolicy) (fields : List Field) : Prop where
  distinct : (fields.map (·.decl.name)).Nodup
  named : ∀ field ∈ fields, field.decl.name ≠ ""
  /-- nothing stands behind a field that takes the rest of the buffer -/
  remainder : ∀ before field after, fields = before ++ field :: after →
    field.sized.size = some .remainder → after = []
  /-- a unit holds its bit-fields -/
  units : ∀ stretch ∈ stretches (fields.map (·.sized)), stretch.bits ≤ 8 * stretch.width
  /-- an explicit position is the one that the fields before imply, where they imply any -/
  positions : policy = .error → ∀ before field after, fields = before ++ field :: after →
    ∀ expected actual, implied? (before.map (·.sized)) = some expected →
      field.decl.position = .literal actual → expected = actual

/-- A field list follows the rules, and so do all lists below it. -/
inductive Acceptable (policy : MismatchPolicy) : List Field → Prop
  | intro {fields : List Field}
      (list : ListRules policy fields)
      (each : ∀ field ∈ fields, FieldRules field)
      (below : ∀ field ∈ fields, ∀ alternates, field.alternates? = some alternates →
        ∀ alternate ∈ alternates, Acceptable policy alternate.fields) :
      Acceptable policy fields

/-! ## Lists side by side -/

/-- A list that has the same images as another is cut where that one is. -/
theorem exists_split_of_map_eq {α β γ : Type} {f : α → γ} {g : β → γ} {as before after : List α}
    {bs : List β} {a : α} (h : as.map f = bs.map g) (has : as = before ++ a :: after) :
    ∃ before' b after', bs = before' ++ b :: after' ∧ before.map f = before'.map g ∧ f a = g b ∧
      after.map f = after'.map g := by
  rw [has, List.map_append, List.map_cons] at h
  obtain ⟨before', rest, rfl, hbefore, hrest⟩ := List.map_eq_append_iff.1 h.symm
  obtain ⟨b, after', rfl, hb, hafter⟩ := List.map_eq_cons_iff.1 hrest
  exact ⟨before', b, after', rfl, hbefore.symm, hb.symm, hafter.symm⟩

theorem exists_forall₂ {α β : Type} {R : α → β → Prop} {as : List α}
    (h : ∀ a ∈ as, ∃ b, R a b) : ∃ bs, List.Forall₂ R as bs := by
  induction as with
  | nil => exact ⟨[], .nil⟩
  | cons a as ih =>
    rw [List.forall_mem_cons] at h
    obtain ⟨b, hb⟩ := h.1
    obtain ⟨bs, hbs⟩ := ih h.2
    exact ⟨b :: bs, .cons hb hbs⟩

/-! ## One field -/

/-- The rules decide about a schema, and tell the length that it needs. -/
structure Judged (policy : MismatchPolicy) (schema : Schema) : Prop where
  accepted : (∃ plan, (schema.resolution policy).outcome = .ok plan) ↔
    Acceptable policy schema.fields
  least : ∀ plan, (schema.resolution policy).outcome = .ok plan →
    plan.minimumSize = Field.leastSize schema.fields

theorem Field.sized_prepare (field : Field) (policy : MismatchPolicy) (readOnly : Bool) :
    (field.prepare policy readOnly).sized = field.sized := by
  cases field <;> rfl

theorem Schema.map_sized_prepared (schema : Schema) (policy : MismatchPolicy) :
    (schema.prepared policy).map (·.sized) = schema.fields.map (·.sized) := by
  rw [Schema.prepared, List.map_map]
  exact List.map_congr_left fun field _ => field.sized_prepare policy schema.readOnly

variable {policy : MismatchPolicy} {schema : Schema}

/-- An alternate has a plan that fits exactly when it is acceptable and needs no more than there
is. -/
theorem Judged.alternate_iff {field : Field} {alternate : Alternate}
    (h : Judged policy (schema.below field alternate)) (available : Option Nat) :
    (∃ plan, AlternateAccepted available
        (alternate.resolve policy (schema.readOnly || field.decl.readOnly)) plan) ↔
      Acceptable policy alternate.fields ∧
        ∀ size, available = some size → Field.leastSize alternate.fields ≤ size := by
  rw [Alternate.resolve_eq]
  constructor
  · rintro ⟨plan, -, houtcome, hfits⟩
    exact ⟨h.accepted.1 ⟨plan.plan, houtcome⟩, fun size hsize =>
      h.least plan.plan houtcome ▸ hfits size hsize⟩
  · rintro ⟨hacceptable, hfits⟩
    obtain ⟨plan, houtcome⟩ := h.accepted.2 hacceptable
    exact ⟨.mk alternate.name plan, rfl, houtcome, fun size hsize =>
      (h.least plan houtcome).symm ▸ hfits size hsize⟩

/-- A plain field has a size and a shape exactly when it follows the rules. -/
theorem Field.exists_shapes_plain_iff {decl : Declaration} {slot : Option BitSlot} {readOnly : Bool}
    (hslot : (Field.plain decl).sized.bitWidth?.isSome = true → slot.isSome = true) :
    (∃ size shape, Prepared.size ⟨decl, none⟩ = .ok size ∧
        Shapes readOnly ⟨decl, none⟩ size slot shape) ↔ FieldRules (.plain decl) := by
  have hplaced : ∀ size, Size.resolve decl false = .ok size →
      size.bitWidth?.isSome = true → slot.isSome = true := by
    intro size hsize hbits
    refine hslot ?_
    have hsized : (Field.plain decl).sized.size = some size := congrArg Except.toOption hsize
    rwa [Sized.bitWidth?, hsized]
  constructor
  · rintro ⟨size, shape, hsize, hshapes⟩
    cases hshapes with
    | leaf _ provided =>
      exact .leaf hsize ((Provider.exists_resolve_iff (hplaced size hsize)).1 ⟨_, provided⟩)
    | union anchor => cases anchor
  · intro hrules
    cases hrules with
    | @leaf _ size sized rules =>
      obtain ⟨provider, hprovider⟩ := (Provider.exists_resolve_iff (hplaced size sized)).2 rules
      exact ⟨size, _, sized, .leaf rfl hprovider⟩

theorem Alternate.name_resolve (alternate : Alternate) (policy : MismatchPolicy)
    (readOnly : Bool) : (alternate.resolve policy readOnly).1 = alternate.name := by
  rw [Alternate.resolve_eq]

theorem Alternate.map_name_resolve (alternates : List Alternate) (policy : MismatchPolicy)
    (readOnly : Bool) :
    (alternates.map (·.resolve policy readOnly)).map (·.1) = alternates.map (·.name) := by
  rw [List.map_map]
  exact List.map_congr_left fun alternate _ => alternate.name_resolve policy readOnly

/-- The alternates of an anchor have plans that fit exactly when each is acceptable and needs no
more than there is. -/
theorem Field.exists_plans_iff {decl : Declaration} {alternates : List Alternate}
    (hjudged : ∀ alternate ∈ alternates,
      Judged policy (schema.below (.anchor decl alternates) alternate)) (available : Option Nat) :
    (∃ plans, List.Forall₂ (AlternateAccepted available)
        (alternates.map (·.resolve policy (schema.readOnly || decl.readOnly))) plans) ↔
      ∀ alternate ∈ alternates, Acceptable policy alternate.fields ∧
        ∀ size, available = some size → Field.leastSize alternate.fields ≤ size := by
  constructor
  · rintro ⟨plans, hplans⟩ alternate hmem
    obtain ⟨plan, -, haccepted⟩ := exists_right_of_forall₂ hplans (List.mem_map_of_mem hmem)
    exact ((hjudged alternate hmem).alternate_iff available).1 ⟨plan, haccepted⟩
  · intro heach
    refine exists_forall₂ fun resolution hmem => ?_
    obtain ⟨alternate, halternate, rfl⟩ := List.mem_map.1 hmem
    exact ((hjudged alternate halternate).alternate_iff available).2 (heach alternate halternate)

/-- An anchor has a size and a shape exactly when it follows the rules and its alternates are
acceptable. -/
theorem Field.exists_shapes_anchor_iff {decl : Declaration} {alternates : List Alternate}
    {slot : Option BitSlot}
    (hjudged : ∀ alternate ∈ alternates,
      Judged policy (schema.below (.anchor decl alternates) alternate)) :
    (∃ size shape,
        (Field.prepare policy schema.readOnly (.anchor decl alternates)).size = .ok size ∧
        Shapes schema.readOnly (Field.prepare policy schema.readOnly (.anchor decl alternates)) size
          slot shape) ↔
      FieldRules (.anchor decl alternates) ∧
        ∀ alternate ∈ alternates, Acceptable policy alternate.fields := by
  have hprepared : (Field.prepare policy schema.readOnly (.anchor decl alternates)).alternates =
      some (alternates.map (·.resolve policy (schema.readOnly || decl.readOnly))) :=
    Field.alternates_prepare policy schema.readOnly (.anchor decl alternates)
  have hnames := Alternate.map_name_resolve alternates policy (schema.readOnly || decl.readOnly)
  constructor
  · rintro ⟨size, shape, hsize, hshapes⟩
    cases hshapes with
    | leaf plain => cases plain
    | @union resolutions plans anchor accessibility backing nonempty named distinct accepted =>
      obtain rfl := Option.some.inj (hprepared.symm.trans anchor)
      have heach := (Field.exists_plans_iff hjudged size.fixed).1 ⟨plans, accepted⟩
      refine ⟨.anchor hsize accessibility backing ?_ ?_ (hnames ▸ distinct) ?_, ?_⟩
      · exact fun hempty => nonempty (List.map_eq_nil_iff.2 hempty)
      · intro alternate hmem
        have hname := named _ (List.mem_map_of_mem hmem)
        rwa [Alternate.name_resolve] at hname
      · exact fun available hfixed alternate hmem => (heach alternate hmem).2 available hfixed
      · exact fun alternate hmem => (heach alternate hmem).1
  · rintro ⟨hrules, hacceptable⟩
    cases hrules with
    | @anchor _ _ size sized accessibility backing nonempty named distinct fits =>
      obtain ⟨plans, hplans⟩ := (Field.exists_plans_iff hjudged size.fixed).2
        fun alternate hmem => ⟨hacceptable alternate hmem, fun available hfixed =>
          fits available hfixed alternate hmem⟩
      refine ⟨size, _, sized, .union hprepared accessibility backing ?_ ?_ (hnames ▸ distinct)
        hplans⟩
      · exact fun hempty => nonempty (List.map_eq_nil_iff.1 hempty)
      · intro resolution hmem
        obtain ⟨alternate, halternate, rfl⟩ := List.mem_map.1 hmem
        rw [Alternate.name_resolve]
        exact named alternate halternate

/-- What is required of a field and of all that is below it. -/
def FieldAcceptable (policy : MismatchPolicy) (field : Field) : Prop :=
  FieldRules field ∧ ∀ alternates, field.alternates? = some alternates →
    ∀ alternate ∈ alternates, Acceptable policy alternate.fields

/-- The schemas of all alternates below a field are judged by the rules. -/
def Schema.JudgedBelow (schema : Schema) (policy : MismatchPolicy) (field : Field) : Prop :=
  ∀ alternates, field.alternates? = some alternates → ∀ alternate ∈ alternates,
    Judged policy (schema.below field alternate)

theorem Field.exists_shapes_iff {field : Field} {slot : Option BitSlot}
    (hbelow : schema.JudgedBelow policy field)
    (hslot : field.sized.bitWidth?.isSome = true → slot.isSome = true) :
    (∃ size shape, (field.prepare policy schema.readOnly).size = .ok size ∧
        Shapes schema.readOnly (field.prepare policy schema.readOnly) size slot shape) ↔
      FieldAcceptable policy field := by
  cases field with
  | plain decl =>
    exact (Field.exists_shapes_plain_iff hslot).trans ⟨fun h => ⟨h, nofun⟩, And.left⟩
  | anchor decl alternates =>
    refine (Field.exists_shapes_anchor_iff (hbelow alternates rfl)).trans ?_
    simp [FieldAcceptable, Field.alternates?]

/-! ## Field lists -/

theorem Positioned.isLast_of_zip {fields : List Prepared} {placements : List Placement}
    {before after : List Positioned} {field : Positioned}
    (hlength : placements.length = fields.length)
    (h : Positioned.zip fields placements = before ++ field :: after) :
    field.isLast = after.isEmpty := by
  induction fields generalizing placements before with
  | nil => cases before <;> cases h
  | cons first fields ih =>
    cases placements with
    | nil => cases hlength
    | cons placement placements =>
      cases before with
      | nil =>
        obtain ⟨rfl, hrest⟩ := List.cons.inj h
        rw [← hrest, Positioned.isEmpty_zip (Nat.succ.inj hlength)]
      | cons other before => exact ih (Nat.succ.inj hlength) (List.cons.inj h).2

/-- Just the placed bit-fields are members of units. -/
theorem Laid.isSome_member_iff {next : Option Expr} {units : Nat} {list : List Positioned}
    (h : Laid next units list) {field : Positioned} (hmem : field ∈ list) :
    field.placement.member.isSome = true ↔ field.bitWidth?.isSome = true := by
  induction h with
  | nil => cases hmem
  | single width_eq place _ _ ih =>
    rcases List.mem_cons.1 hmem with rfl | hmem
    · rw [place, width_eq]
      exact Iff.rfl
    · exact ih hmem
  | unit width_eq place joined _ _ ih =>
    rcases List.mem_append.1 hmem with hmem | hmem
    · rcases List.mem_cons.1 hmem with rfl | hmem
      · rw [place, width_eq]
        exact Iff.rfl
      · obtain ⟨_, member, hwidth, -, hmember, -⟩ := joined.exists_member hmem
        rw [hmember, hwidth]
        exact Iff.rfl
    · exact ih hmem

/-- What a placed field is in a plan. -/
structure Positioned.Becomes (readOnly : Bool) (widths : Nat → Nat) (positioned : Positioned)
    (planned : PlannedField) : Prop where
  size : positioned.field.size = .ok planned.size
  layout : planned.layout = positioned.layout widths planned.size
  shapes : Shapes readOnly positioned.field planned.size (positioned.slot widths) planned.shape
  entry : (positioned.settle readOnly widths).entry =
    some ⟨planned, positioned.placement.predicted, positioned.isLast⟩

theorem Positioned.Becomes.planned?_eq {readOnly : Bool} {widths : Nat → Nat}
    {positioned : Positioned} {planned : PlannedField}
    (h : positioned.Becomes readOnly widths planned) :
    positioned.planned? readOnly widths = some planned := by
  rw [Positioned.planned?, h.entry, Option.map_some]

namespace Schema

variable (schema : Schema) (policy : MismatchPolicy)

/-- The fields of a schema in their places. -/
def placed : List Positioned := Prepared.positioned (schema.prepared policy)

/-- The widths of the units in a schema. -/
def widths : Nat → Nat := unitWidth (Prepared.placements (schema.prepared policy))

theorem map_field_placed :
    (schema.placed policy).map (·.field) = schema.fields.map (·.prepare policy schema.readOnly) :=
  Prepared.map_field_positioned (schema.prepared policy)

theorem map_sized_placed :
    (schema.placed policy).map (·.field.sized) = schema.fields.map (·.sized) := by
  have := congrArg (List.map Prepared.sized) (schema.map_field_placed policy)
  rw [List.map_map, List.map_map] at this
  refine this.trans (List.map_congr_left fun field _ => ?_)
  exact field.sized_prepare policy schema.readOnly

theorem planned_eq_filterMap :
    Prepared.planned schema.readOnly (schema.prepared policy) =
      (schema.placed policy).filterMap (·.planned? schema.readOnly (schema.widths policy)) :=
  Prepared.planned_eq_filterMap schema.readOnly (schema.prepared policy)

variable {schema policy}

theorem exists_placed {field : Field} (hfield : field ∈ schema.fields) :
    ∃ positioned ∈ schema.placed policy,
      positioned.field = field.prepare policy schema.readOnly := by
  have hmem : field.prepare policy schema.readOnly ∈ (schema.placed policy).map (·.field) := by
    rw [schema.map_field_placed policy]
    exact List.mem_map_of_mem hfield
  obtain ⟨positioned, hmem, heq⟩ := List.mem_map.1 hmem
  exact ⟨positioned, hmem, heq⟩

theorem exists_of_placed {positioned : Positioned} (hmem : positioned ∈ schema.placed policy) :
    ∃ field ∈ schema.fields, positioned.field = field.prepare policy schema.readOnly := by
  have hfield := List.mem_map_of_mem (f := (·.field)) hmem
  rw [schema.map_field_placed policy] at hfield
  obtain ⟨field, hfield, heq⟩ := List.mem_map.1 hfield
  exact ⟨field, hfield, heq.symm⟩

/-- Every refusal of an alternate below a placed field says why. -/
theorem explains_of_placed {positioned : Positioned} (hmem : positioned ∈ schema.placed policy) :
    positioned.field.Explains := by
  obtain ⟨field, -, heq⟩ := exists_of_placed hmem
  exact heq ▸ field.explains_prepare policy schema.readOnly

/-- The fields of a plan are what becomes of the placed fields, in order. -/
theorem forall₂_becomes {plan : Plan} (h : (schema.resolution policy).outcome = .ok plan) :
    List.Forall₂ (Positioned.Becomes schema.readOnly (schema.widths policy))
      (schema.placed policy) plan.fields := by
  obtain ⟨haccepted, hfields, -⟩ := Schema.accepted_of_outcome h
  rw [hfields, Prepared.planned_eq_filterMap]
  refine forall₂_filterMap fun positioned hmem => ?_
  have hsettles := haccepted.settles (fun _ => Schema.explains_prepared) hmem
  obtain ⟨size, shape, hsize, hshapes, hentry⟩ :=
    Positioned.settle_accepted hsettles.unreported hsettles.explains
  refine ⟨.mk (positioned.layout _ size) shape, ?_, hsize, rfl, hshapes, hentry⟩
  rw [Positioned.planned?, hentry]
  rfl

/-- Nothing is reported about the fields one by one exactly when each is acceptable. -/
theorem settled_iff (hjudged : ∀ field ∈ schema.fields, schema.JudgedBelow policy field) :
    (∀ positioned ∈ schema.placed policy,
        (positioned.settle schema.readOnly (schema.widths policy)).diagnostics = []) ↔
      ∀ field ∈ schema.fields, FieldAcceptable policy field := by
  have hone : ∀ positioned ∈ schema.placed policy, ∀ field ∈ schema.fields,
      positioned.field = field.prepare policy schema.readOnly →
      ((positioned.settle schema.readOnly (schema.widths policy)).diagnostics = [] ↔
        FieldAcceptable policy field) := by
    intro positioned hpositioned field hfield heq
    have hexplains : positioned.field.Explains :=
      heq ▸ field.explains_prepare policy schema.readOnly
    rw [Positioned.unreported_iff hexplains, heq]
    refine Field.exists_shapes_iff (hjudged field hfield) fun hbits => ?_
    have hmember := ((Prepared.laid_positioned (schema.prepared policy)).isSome_member_iff
      hpositioned).2 (by rwa [Positioned.bitWidth?, heq, field.sized_prepare])
    rwa [Positioned.slot, Option.isSome_map]
  constructor
  · intro h field hfield
    obtain ⟨positioned, hmem, heq⟩ := exists_placed hfield
    exact (hone positioned hmem field hfield heq).1 (h positioned hmem)
  · intro h positioned hmem
    obtain ⟨field, hfield, heq⟩ := exists_of_placed hmem
    exact (hone positioned hmem field hfield heq).2 (h field hfield)

/-- The entries of a schema are those of its placed fields. -/
theorem mem_entries_iff {entry : Entry} :
    entry ∈ Prepared.entries schema.readOnly (schema.prepared policy) ↔
      ∃ positioned ∈ schema.placed policy,
        (positioned.settle schema.readOnly (schema.widths policy)).entry = some entry := by
  simp only [Prepared.entries, Prepared.settled, List.filterMap_map, List.mem_filterMap]
  rfl

/-- A field and its place, and what stands around them. -/
structure Cut (schema : Schema) (policy : MismatchPolicy) (before : List Field) (field : Field)
    (after : List Field) (before' : List Positioned) (positioned : Positioned) : Prop where
  fields : schema.fields = before ++ field :: after
  placed : ∃ after', schema.placed policy = before' ++ positioned :: after'
  sized : before'.map (·.field.sized) = before.map (·.sized)
  field_eq : positioned.field = field.prepare policy schema.readOnly
  last : positioned.isLast = after.isEmpty

namespace Cut

variable {before after : List Field} {field : Field} {before' after' : List Positioned}
  {positioned : Positioned}

theorem of_maps (hfields : schema.fields = before ++ field :: after)
    (hplaced : schema.placed policy = before' ++ positioned :: after')
    (hbefore : before'.map (·.field) = before.map (·.prepare policy schema.readOnly))
    (hfield : positioned.field = field.prepare policy schema.readOnly)
    (hafter : after'.map (·.field) = after.map (·.prepare policy schema.readOnly)) :
    Cut schema policy before field after before' positioned := by
  refine ⟨hfields, ⟨after', hplaced⟩, ?_, hfield, ?_⟩
  · have hsized := congrArg (List.map Prepared.sized) hbefore
    rw [List.map_map, List.map_map] at hsized
    exact hsized.trans (List.map_congr_left fun other _ =>
      other.sized_prepare policy schema.readOnly)
  · have hlength : (Prepared.placements (schema.prepared policy)).length =
        (schema.prepared policy).length := by
      rw [Prepared.placements, Frontier.length_placeAll, List.length_map]
    rw [Positioned.isLast_of_zip hlength hplaced, ← List.isEmpty_map (f := (·.field)), hafter,
      List.isEmpty_map]

/-- Where a list is cut, its places are cut too. -/
theorem exists_of_fields (h : schema.fields = before ++ field :: after) :
    ∃ before' positioned, Cut schema policy before field after before' positioned := by
  obtain ⟨before', positioned, after', hplaced, hbefore, hfield, hafter⟩ :=
    exists_split_of_map_eq (schema.map_field_placed policy).symm h
  exact ⟨before', positioned, .of_maps h hplaced hbefore.symm hfield.symm hafter.symm⟩

/-- Every place stands somewhere in the list. -/
theorem exists_of_placed (hmem : positioned ∈ schema.placed policy) :
    ∃ before field after before', Cut schema policy before field after before' positioned := by
  obtain ⟨before', after', hplaced⟩ := List.append_of_mem hmem
  obtain ⟨before, field, after, hfields, hbefore, hfield, hafter⟩ :=
    exists_split_of_map_eq (schema.map_field_placed policy) hplaced
  exact ⟨before, field, after, before', .of_maps hfields hplaced hbefore hfield hafter⟩

theorem mem_placed (h : Cut schema policy before field after before' positioned) :
    positioned ∈ schema.placed policy := by
  obtain ⟨after', hplaced⟩ := h.placed
  rw [hplaced]
  exact List.mem_append_right _ List.mem_cons_self

/-- What the entry of a field, if it has one, knows about it. -/
theorem of_entry (h : Cut schema policy before field after before' positioned) {entry : Entry}
    (hentry : (positioned.settle schema.readOnly (schema.widths policy)).entry = some entry) :
    field.sized.size = some entry.field.size ∧
      entry.field.layout.position = field.decl.position ∧
      entry.predicted = positioned.placement.predicted ∧ entry.isLast = after.isEmpty := by
  obtain ⟨size, shape, hsize, rfl⟩ := Positioned.entry_eq hentry
  refine ⟨?_, ?_, rfl, h.last⟩
  · have hsized : positioned.field.sized.size = some size := congrArg Except.toOption hsize
    rwa [h.field_eq, field.sized_prepare] at hsized
  · change positioned.field.decl.position = _
    rw [h.field_eq, Field.decl_prepare]

theorem name_of_entry (h : Cut schema policy before field after before' positioned)
    {entry : Entry}
    (hentry : (positioned.settle schema.readOnly (schema.widths policy)).entry = some entry) :
    entry.field.name = field.decl.name := by
  rw [Positioned.name_of_entry hentry, h.field_eq, Field.decl_prepare]

/-- A field about which nothing is reported has an entry for the checks of the whole list. -/
theorem exists_entry (h : Cut schema policy before field after before' positioned)
    (hunreported :
      (positioned.settle schema.readOnly (schema.widths policy)).diagnostics = []) :
    ∃ entry, (positioned.settle schema.readOnly (schema.widths policy)).entry = some entry := by
  have hexplains : positioned.field.Explains :=
    h.field_eq ▸ field.explains_prepare policy schema.readOnly
  obtain ⟨size, shape, -, -, hentry⟩ := Positioned.settle_accepted hunreported hexplains
  exact ⟨_, hentry⟩

/-- In front of a field with a position of its own is the offset behind the fields before. -/
theorem static?_predicted (h : Cut schema policy before field after before' positioned)
    (hposition : field.decl.position.isSequential = false) :
    positioned.placement.predicted.bind (·.static?) = implied? (before.map (·.sized)) := by
  have hlaid := Prepared.laid_positioned (schema.prepared policy)
  obtain ⟨after', hplaced⟩ := h.placed
  rw [show Prepared.positioned (schema.prepared policy) = _ from hplaced] at hlaid
  rw [hlaid.static?_predicted, h.sized]
  · rfl
  · rw [Positioned.position, h.field_eq, Field.decl_prepare, hposition]

end Cut

theorem Entry.remainderDiagnostic?_eq_none_iff {entry : Entry} :
    entry.remainderDiagnostic? = none ↔
      (entry.field.size = .remainder → entry.isLast = true) := by
  rw [Entry.remainderDiagnostic?]
  cases entry.field.size with
  | remainder => simp [Size.isRemainder]
  | constant | intrinsic | external | computed | bitWidth => simp [Size.isRemainder]

/-- What is checked of every entry is checked wherever the list is cut. -/
theorem forall_entries_iff
    (hsettled : ∀ positioned ∈ schema.placed policy,
      (positioned.settle schema.readOnly (schema.widths policy)).diagnostics = [])
    {check : Entry → Prop} {rule : List Field → Field → List Field → Prop}
    (hone : ∀ before field after before' positioned entry,
      Cut schema policy before field after before' positioned →
      field.sized.size = some entry.field.size →
      entry.field.layout.position = field.decl.position →
      entry.predicted = positioned.placement.predicted → entry.isLast = after.isEmpty →
      (check entry ↔ rule before field after)) :
    (∀ entry ∈ Prepared.entries schema.readOnly (schema.prepared policy), check entry) ↔
      ∀ before field after, schema.fields = before ++ field :: after →
        rule before field after := by
  constructor
  · intro h before field after hfields
    obtain ⟨before', positioned, hcut⟩ :
        ∃ before' positioned, Cut schema policy before field after before' positioned :=
      Cut.exists_of_fields hfields
    obtain ⟨entry, hentry⟩ := hcut.exists_entry (hsettled positioned hcut.mem_placed)
    obtain ⟨hsize, hposition, hpredicted, hlast⟩ := hcut.of_entry hentry
    refine (hone _ _ _ _ _ _ hcut hsize hposition hpredicted hlast).1 (h entry ?_)
    exact mem_entries_iff.2 ⟨positioned, hcut.mem_placed, hentry⟩
  · intro h entry hmem
    obtain ⟨positioned, hplaced, hentry⟩ := mem_entries_iff.1 hmem
    obtain ⟨before, field, after, before', hcut⟩ := Cut.exists_of_placed hplaced
    obtain ⟨hsize, hposition, hpredicted, hlast⟩ := hcut.of_entry hentry
    exact (hone _ _ _ _ _ _ hcut hsize hposition hpredicted hlast).2
      (h before field after hcut.fields)

/-- Nothing is reported about the rest of the buffer exactly when nothing stands behind a field that
takes it. -/
theorem remainders_iff
    (hsettled : ∀ positioned ∈ schema.placed policy,
      (positioned.settle schema.readOnly (schema.widths policy)).diagnostics = []) :
    (∀ entry ∈ Prepared.entries schema.readOnly (schema.prepared policy),
        entry.remainderDiagnostic? = none) ↔
      ∀ before field after, schema.fields = before ++ field :: after →
        field.sized.size = some .remainder → after = [] := by
  refine forall_entries_iff hsettled fun before field after _ _ entry _ hsize _ _ hlast => ?_
  rw [Entry.remainderDiagnostic?_eq_none_iff, hsize, hlast, List.isEmpty_iff, Option.some.injEq]

/-- The fields about which nothing is reported settle, whatever their positions. -/
theorem settles_of_remainders
    (hsettled : ∀ positioned ∈ schema.placed policy,
      (positioned.settle schema.readOnly (schema.widths policy)).diagnostics = [])
    (hremainders : ∀ entry ∈ Prepared.entries schema.readOnly (schema.prepared policy),
      entry.remainderDiagnostic? = none) :
    ∀ positioned ∈ schema.placed policy,
      Settles .warn schema.readOnly (schema.widths policy) positioned := by
  intro positioned hmem
  refine ⟨explains_of_placed hmem, hsettled positioned hmem, nofun, ?_⟩
  exact fun entry hentry => hremainders entry (mem_entries_iff.2 ⟨positioned, hmem, hentry⟩)

theorem spread_of_settles
    (hsettles : ∀ positioned ∈ schema.placed policy,
      Settles .warn schema.readOnly (schema.widths policy) positioned) :
    Spread (schema.widths policy) .zero 0 (schema.placed policy) := by
  refine Prepared.spread_positioned fun positioned hmem => ?_
  obtain ⟨field, -, hfield⟩ := (hsettles positioned hmem).settledAs
  exact ⟨field.size, hfield.sized⟩

/-- Nothing is reported about positions exactly when every explicit one is the implied one. -/
theorem agreeing_iff
    (hsettles : ∀ positioned ∈ schema.placed policy,
      Settles .warn schema.readOnly (schema.widths policy) positioned) :
    (∀ entry ∈ Prepared.entries schema.readOnly (schema.prepared policy),
        entry.mismatch? = none) ↔
      ∀ before field after, schema.fields = before ++ field :: after →
        ∀ expected actual, implied? (before.map (·.sized)) = some expected →
          field.decl.position = .literal actual → expected = actual := by
  refine forall_entries_iff (fun positioned hmem => (hsettles positioned hmem).unreported) ?_
  intro before field after before' positioned entry hcut _ hposition hpredicted _
  rw [Entry.mismatch?_eq_none_iff, hposition, hpredicted]
  constructor
  · intro h expected actual himplied hdeclared
    refine h expected actual ?_ hdeclared
    rwa [hcut.static?_predicted (by rw [hdeclared]; rfl)]
  · intro h expected actual hstatic hdeclared
    refine h expected actual ?_ hdeclared
    rwa [← hcut.static?_predicted (by rw [hdeclared]; rfl)]

theorem covers_of_settles
    (hsettles : ∀ positioned ∈ schema.placed policy,
      Settles .warn schema.readOnly (schema.widths policy) positioned) :
    Covers (some 0) 0 (stretches (schema.fields.map (·.sized)))
      (Prepared.planned schema.readOnly (schema.prepared policy)) := by
  rw [Prepared.planned_eq, ← schema.map_sized_placed policy]
  exact (spread_of_settles hsettles).covers hsettles

/-- Nothing is reported about units exactly when each holds its bit-fields. -/
theorem units_iff
    (hsettled : ∀ positioned ∈ schema.placed policy,
      (positioned.settle schema.readOnly (schema.widths policy)).diagnostics = []) :
    unitDiagnostics (Prepared.planned schema.readOnly (schema.prepared policy))
        (schema.prepared policy).length = [] ↔
      ∀ stretch ∈ stretches (schema.fields.map (·.sized)),
        stretch.bits ≤ 8 * stretch.width := by
  rw [Prepared.unitDiagnostics_eq_nil_iff, schema.map_sized_prepared]
  intro prepared hmem
  obtain ⟨field, hfield, rfl⟩ := List.mem_map.1 hmem
  obtain ⟨positioned, hplaced, heq⟩ : ∃ positioned ∈ schema.placed policy,
      positioned.field = field.prepare policy schema.readOnly := exists_placed hfield
  obtain ⟨_, _, -, hshapes, -⟩ :=
    Positioned.settle_accepted (hsettled positioned hplaced) (explains_of_placed hplaced)
  exact heq ▸ hshapes.isReadable

/-! ## Schemas -/

/-- Nothing is reported about a schema exactly when it follows the rules. -/
theorem accepted_iff_acceptable
    (hjudged : ∀ field ∈ schema.fields, schema.JudgedBelow policy field) :
    Accepted policy schema.readOnly (schema.prepared policy) ↔ Acceptable policy schema.fields := by
  have hnames := schema.map_name_prepared policy
  have hnamed : (∀ field ∈ schema.prepared policy, field.decl.name ≠ "") ↔
      ∀ field ∈ schema.fields, field.decl.name ≠ "" := by
    simp [Schema.prepared]
  constructor
  · intro h
    have hsettles := settles_of_remainders h.settled h.remainders
    have heach := (settled_iff hjudged).1 h.settled
    refine .intro ⟨hnames ▸ h.distinct, hnamed.1 h.named, (remainders_iff h.settled).1 h.remainders,
      (units_iff h.settled).1 h.units, fun hpolicy => ?_⟩ (fun field hmem => (heach field hmem).1)
      fun field hmem => (heach field hmem).2
    exact (agreeing_iff hsettles).1 (h.agreeing hpolicy)
  · rintro ⟨hlist, heach, hbelow⟩
    have hsettled := (settled_iff hjudged).2 fun field hmem => ⟨heach field hmem, hbelow field hmem⟩
    have hremainders := (remainders_iff hsettled).2 hlist.remainder
    have hsettles := settles_of_remainders hsettled hremainders
    refine ⟨hnames ▸ hlist.distinct, hnamed.2 hlist.named, hsettled, fun hpolicy => ?_, hremainders,
      (units_iff hsettled).2 hlist.units⟩
    exact (agreeing_iff hsettles).2 (hlist.positions hpolicy)

/-- The rules decide about every schema, and tell the length that it needs. -/
theorem judged (schema : Schema) (policy : MismatchPolicy) : Judged policy schema := by
  induction schema using Schema.nested_induction with
  | step schema ih =>
    have haccepted : Accepted policy schema.readOnly (schema.prepared policy) ↔
      Acceptable policy schema.fields := accepted_iff_acceptable ih
    refine ⟨Resolution.exists_outcome_iff.trans haccepted, fun plan houtcome => ?_⟩
    obtain ⟨h, rfl⟩ := Resolution.ofFields_accepted houtcome
    exact (covers_of_settles (settles_of_remainders h.settled h.remainders)).minimumSize_eq
      (Prepared.knownSum_planned _ _)

theorem inRange_of_no_fault {schema : Schema} {policy : MismatchPolicy}
    (h : ∀ fault, schema.resolve policy ≠ .error (.fault fault)) :
    (schema.resolution policy).inRange = true := by
  cases hrange : (schema.resolution policy).inRange with
  | true => rfl
  | false => exact absurd (by simp [Schema.resolve, hrange]) (h .addOverflow)

/-- Unless a sum is too large, a schema is resolved exactly when it follows the rules here and in
everything below, and otherwise it is refused with at least one diagnostic. -/
theorem resolve_iff_acceptable {schema : Schema} {policy : MismatchPolicy}
    (h : ∀ fault, schema.resolve policy ≠ .error (.fault fault)) :
    ((∃ plan, schema.resolve policy = .ok plan) ↔ Acceptable policy schema.fields) ∧
      (¬ Acceptable policy schema.fields →
        ∃ error, schema.resolve policy = .error (.error error) ∧ error.diagnostics ≠ []) := by
  have hjudged := (schema.judged policy).accepted
  have hrange := inRange_of_no_fault h
  refine ⟨?_, fun hrules => ?_⟩
  · rw [← hjudged]
    exact exists_congr fun plan => resolve_eq_ok_iff.trans (and_iff_right hrange)
  · cases houtcome : (schema.resolution policy).outcome with
    | ok plan => exact absurd (hjudged.1 ⟨plan, houtcome⟩) hrules
    | error diagnostics =>
      exact ⟨⟨schema.name, diagnostics⟩, resolve_eq_refused_iff.2 ⟨hrange, houtcome, rfl⟩,
        Resolution.explains_ofFields houtcome⟩

end Schema

/-- Two numbers in a shared unit, and a third one that skips a byte below an anchor. -/
def tagSchema : Schema where
  name := "Tag"
  fields :=
    [.plain { name := "kind", type := .integer .u8, bits := some 4 },
      .plain { name := "length", type := .integer .u16, bits := some 12 },
      .anchor { name := "body", type := .byteArray 3 }
        [.mk "code" [.plain { name := "value", type := .integer .u16, position := .literal 1 }]]]

theorem tagSchema_acceptable :
    (∀ policy fault, tagSchema.resolve policy ≠ .error (.fault fault)) ∧
      Acceptable .warn tagSchema.fields ∧ ¬ Acceptable .error tagSchema.fields ∧
      ∃ error, tagSchema.resolve .error = .error (.error error) ∧ error.diagnostics ≠ [] := by
  have hranges : ∀ policy fault, tagSchema.resolve policy ≠ .error (.fault fault) := by
    intro policy fault h
    cases policy <;> cases h
  obtain ⟨hwarn, -⟩ := Schema.resolve_iff_acceptable (hranges .warn)
  obtain ⟨hstrict, hrefused⟩ := Schema.resolve_iff_acceptable (hranges .error)
  have hunacceptable : ¬ Acceptable .error tagSchema.fields := by
    intro hrules
    obtain ⟨plan, hplan⟩ := hstrict.2 hrules
    cases hplan
  exact ⟨hranges, hwarn.1 ⟨_, rfl⟩, hunacceptable, hrefused hunacceptable⟩

end PacketLayout
