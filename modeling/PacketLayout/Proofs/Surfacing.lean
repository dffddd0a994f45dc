import PacketLayout.Proofs.Acceptability

/-!
# Which defects of a layout are reported

The checks of a whole layout see the fields that have a shape. A field that has none is reported
for the reason of that and nothing else, so a defect of the layout stays unseen as long as the field
that shows it, or too many bit-fields of its unit, have a defect of their own.

* `ShapeRules` are the rules for a field to have a shape, and `Surfaced` are the defects that are
  seen under them.
* `Schema.surfaces` says that just these are reported, all in one attempt.
* `crowdedSchema_masks` shows one defect of each kind that is not.
-/

namespace PacketLayout

/-! ## The rules -/

/-- The rules for a field to have a shape. An anchor may carry words that belong to leaves: they are
reported, but it takes part in the checks. -/
inductive ShapeRules (policy : MismatchPolicy) : Field → Prop
  | leaf {decl : Declaration} {size : Size}
      (sized : Size.resolve decl false = .ok size)
      (rules : LeafRules decl size) :
      ShapeRules policy (.plain decl)
  | anchor {decl : Declaration} {alternates : List Alternate} {size : Size}
      (sized : Size.resolve decl true = .ok size)
      (nonempty : alternates ≠ [])
      (named : ∀ alternate ∈ alternates, alternate.name ≠ "")
      (distinct : (alternates.map (·.name)).Nodup)
      (each : ∀ alternate ∈ alternates, Acceptable policy alternate.fields ∧
        ∀ available, size.fixed = some available →
          Field.leastSize alternate.fields ≤ available) :
      ShapeRules policy (.anchor decl alternates)

/-- The defects of a layout that show at fields with a shape. -/
inductive Surfaced (policy : MismatchPolicy) (fields : List Field) : Diagnostic → Prop
  /-- an explicit position is not the one that the fields before imply -/
  | position {before after : List Field} {field : Field} {expected actual : Nat}
      (cut : fields = before ++ field :: after)
      (shaped : ShapeRules policy field)
      (implied : implied? (before.map (·.sized)) = some expected)
      (position : field.decl.position = .literal actual)
      (differ : expected ≠ actual) :
      Surfaced policy fields (.ofLayout field.decl.name (.positionMismatch expected actual))
  /-- something stands behind a field that takes the rest of the buffer -/
  | remainder {before after : List Field} {field : Field}
      (cut : fields = before ++ field :: after)
      (shaped : ShapeRules policy field)
      (size : field.sized.size = some .remainder)
      (followed : after ≠ []) :
      Surfaced policy fields (.ofLayout field.decl.name .remainderNotLast)
  /-- the bit-fields of a unit, as far as they can be read, have more bits than it -/
  | unit {stretch : Stretch} {last : Sized}
      (mem : stretch ∈ stretches (fields.map (·.sized)))
      (last_eq : stretch.readable.getLast? = some last)
      (overfull : 8 * stretch.width < stretch.readableBits) :
      Surfaced policy fields (.ofLayout last.decl.name
        (.bitOverflow (stretch.readable.map (·.decl.name)) stretch.readableBits
          (8 * stretch.width)))

theorem Surfaced.of_overflow? {policy : MismatchPolicy} {fields : List Field} {stretch : Stretch}
    (hmem : stretch ∈ stretches (fields.map (·.sized))) {diagnostic : Diagnostic}
    (h : stretch.overflow? = some diagnostic) : Surfaced policy fields diagnostic := by
  obtain ⟨last, hlast, hoverfull, rfl⟩ := stretch.overflow?_eq_some_iff.1 h
  exact .unit hmem hlast hoverfull

theorem Size.isRemainder_eq_true_iff {size : Size} :
    size.isRemainder = true ↔ size = .remainder := by
  cases size <;> simp [Size.isRemainder]

/-! ## Fields with a shape -/

namespace Schema

variable {policy : MismatchPolicy} {schema : Schema} {before after : List Field} {field : Field}
  {before' : List Positioned} {positioned : Positioned}

/-- A field without a size has no entry. -/
theorem entry_of_error {defect : Defect} (h : positioned.field.size = .error defect) :
    (positioned.settle schema.readOnly (schema.widths policy)).entry = none := by
  rw [Positioned.settle, h]

theorem exists_entry_leaf_iff {decl : Declaration}
    (h : Cut schema policy before (.plain decl) after before' positioned) :
    (∃ entry, (positioned.settle schema.readOnly (schema.widths policy)).entry = some entry) ↔
      ShapeRules policy (.plain decl) := by
  have hplain : positioned.field.alternates = none := by
    rw [h.field_eq]
    rfl
  have hsize : positioned.field.size = Size.resolve decl false := by
    rw [h.field_eq]
    rfl
  cases hresolved : Size.resolve decl false with
  | error defect =>
    rw [entry_of_error (hsize.trans hresolved)]
    refine ⟨nofun, ?_⟩
    rintro ⟨sized⟩
    cases hresolved.symm.trans sized
  | ok size =>
    have hslot : size.bitWidth?.isSome = true →
        (positioned.slot (schema.widths policy)).isSome = true := by
      intro hbits
      have hmember := ((Prepared.laid_positioned (schema.prepared policy)).isSome_member_iff
        h.mem_placed).2 (by
          rw [Positioned.bitWidth?, Sized.bitWidth?, Prepared.sized, hsize, hresolved]
          exact hbits)
      rwa [Positioned.slot, Option.isSome_map]
    rw [Positioned.exists_entry_plain_iff (hsize.trans hresolved) hplain,
      Provider.exists_resolve_iff hslot, h.field_eq]
    refine ⟨.leaf hresolved, ?_⟩
    rintro ⟨sized, rules⟩
    obtain rfl := Except.ok.inj (hresolved.symm.trans sized)
    exact rules

theorem exists_entry_anchor_iff {decl : Declaration} {alternates : List Alternate}
    (h : Cut schema policy before (.anchor decl alternates) after before' positioned) :
    (∃ entry, (positioned.settle schema.readOnly (schema.widths policy)).entry = some entry) ↔
      ShapeRules policy (.anchor decl alternates) := by
  have hanchor : positioned.field.alternates =
      some (alternates.map (·.resolve policy (schema.readOnly || decl.readOnly))) := by
    rw [h.field_eq]
    exact Field.alternates_prepare policy schema.readOnly (.anchor decl alternates)
  have hsize : positioned.field.size = Size.resolve decl true := by
    rw [h.field_eq]
    rfl
  cases hresolved : Size.resolve decl true with
  | error defect =>
    rw [entry_of_error (hsize.trans hresolved)]
    refine ⟨nofun, ?_⟩
    rintro (_ | ⟨sized⟩)
    cases hresolved.symm.trans sized
  | ok size =>
    have hexplains : positioned.field.Explains :=
      h.field_eq ▸ (Field.anchor decl alternates).explains_prepare policy schema.readOnly
    have hjudged : ∀ alternate ∈ alternates,
        Judged policy (schema.below (.anchor decl alternates) alternate) :=
      fun alternate _ => judged _ policy
    have hentry : (∃ entry,
          (positioned.settle schema.readOnly (schema.widths policy)).entry = some entry) ↔
        ∃ shape, (shapeUnion positioned.field.decl size
          (alternates.map (·.resolve policy (schema.readOnly || decl.readOnly)))).shape =
            some shape := by
      rw [Positioned.settle_of_anchor (hsize.trans hresolved) hanchor]
      simp [Shaping.settled, Option.map_eq_some_iff]
    rw [hentry, exists_shapeUnion_iff (hexplains _ hanchor), Field.exists_plans_iff hjudged,
      Alternate.map_name_resolve, List.forall_mem_map]
    simp only [Alternate.name_resolve, ne_eq, List.map_eq_nil_iff]
    constructor
    · rintro ⟨nonempty, named, distinct, each⟩
      exact .anchor hresolved nonempty named distinct each
    · rintro (_ | ⟨sized, nonempty, named, distinct, each⟩)
      obtain rfl := Except.ok.inj (hresolved.symm.trans sized)
      exact ⟨nonempty, named, distinct, each⟩

/-- A field takes part in the checks of the whole layout exactly when it follows the rules for a
shape. -/
theorem Cut.exists_entry_iff (h : Cut schema policy before field after before' positioned) :
    (∃ entry, (positioned.settle schema.readOnly (schema.widths policy)).entry = some entry) ↔
      ShapeRules policy field := by
  cases field with
  | plain decl => exact exists_entry_leaf_iff h
  | anchor decl alternates => exact exists_entry_anchor_iff h

/-- What is found at the entries is found wherever the list is cut at a field with a shape. -/
theorem exists_entries_iff {check : Entry → Prop} {rule : List Field → Field → List Field → Prop}
    (hone : ∀ before field after before' positioned entry,
      Cut schema policy before field after before' positioned →
      (positioned.settle schema.readOnly (schema.widths policy)).entry = some entry →
      (check entry ↔ rule before field after)) :
    (∃ entry ∈ Prepared.entries schema.readOnly (schema.prepared policy), check entry) ↔
      ∃ before field after, schema.fields = before ++ field :: after ∧ ShapeRules policy field ∧
        rule before field after := by
  constructor
  · rintro ⟨entry, hmem, hcheck⟩
    obtain ⟨positioned, hplaced, hentry⟩ := mem_entries_iff.1 hmem
    obtain ⟨before, field, after, before', hcut⟩ := Cut.exists_of_placed hplaced
    exact ⟨before, field, after, hcut.fields, hcut.exists_entry_iff.1 ⟨entry, hentry⟩,
      (hone _ _ _ _ _ _ hcut hentry).1 hcheck⟩
  · rintro ⟨before, field, after, hfields, hshaped, hrule⟩
    obtain ⟨before', positioned, hcut⟩ :
        ∃ before' positioned, Cut schema policy before field after before' positioned :=
      Cut.exists_of_fields hfields
    obtain ⟨entry, hentry⟩ := hcut.exists_entry_iff.2 hshaped
    exact ⟨entry, mem_entries_iff.2 ⟨positioned, hcut.mem_placed, hentry⟩,
      (hone _ _ _ _ _ _ hcut hentry).2 hrule⟩

/-! ## What is reported -/

/-- What is reported about the names of a schema and about its fields one by one. -/
def ownDiagnostics (schema : Schema) (policy : MismatchPolicy) : List Diagnostic :=
  (invalidNames [] ((schema.prepared policy).map (·.decl.name))).map
    (.ofField · .invalidFieldName) ++
  (Prepared.settled schema.readOnly (schema.prepared policy)).flatMap (·.diagnostics)

/-- What the checks of the whole layout report, mismatches included. -/
def layoutDiagnostics (schema : Schema) (policy : MismatchPolicy) : List Diagnostic :=
  Prepared.mismatches schema.readOnly (schema.prepared policy) ++
  (Prepared.entries schema.readOnly (schema.prepared policy)).filterMap
    (·.remainderDiagnostic?) ++
  unitDiagnostics (Prepared.planned schema.readOnly (schema.prepared policy))
    (schema.prepared policy).length

variable {diagnostic : Diagnostic}

theorem mem_mismatches_iff :
    diagnostic ∈ Prepared.mismatches schema.readOnly (schema.prepared policy) ↔
      ∃ before field after, schema.fields = before ++ field :: after ∧ ShapeRules policy field ∧
        ∃ expected actual, implied? (before.map (·.sized)) = some expected ∧
          field.decl.position = .literal actual ∧ expected ≠ actual ∧
          .ofLayout field.decl.name (.positionMismatch expected actual) = diagnostic := by
  rw [Prepared.mismatches, List.mem_filterMap]
  refine exists_entries_iff fun before field after _ _ entry hcut hentry => ?_
  obtain ⟨-, hposition, hpredicted, -⟩ := hcut.of_entry hentry
  rw [Entry.mismatchDiagnostic?, Option.map_eq_some_iff, Prod.exists]
  refine exists_congr fun expected => exists_congr fun actual => ?_
  rw [Entry.mismatch?_eq_some_iff, hposition, hpredicted, hcut.name_of_entry hentry]
  constructor
  · rintro ⟨⟨hstatic, hliteral, hne⟩, heq⟩
    rw [hcut.static?_predicted (by rw [hliteral]; rfl)] at hstatic
    exact ⟨hstatic, hliteral, hne, heq⟩
  · rintro ⟨himplied, hliteral, hne, heq⟩
    rw [← hcut.static?_predicted (by rw [hliteral]; rfl)] at himplied
    exact ⟨⟨himplied, hliteral, hne⟩, heq⟩

theorem mem_remainders_iff :
    diagnostic ∈ (Prepared.entries schema.readOnly (schema.prepared policy)).filterMap
        (·.remainderDiagnostic?) ↔
      ∃ before field after, schema.fields = before ++ field :: after ∧ ShapeRules policy field ∧
        field.sized.size = some .remainder ∧ after ≠ [] ∧
        .ofLayout field.decl.name .remainderNotLast = diagnostic := by
  rw [List.mem_filterMap]
  refine exists_entries_iff fun before field after _ _ entry hcut hentry => ?_
  obtain ⟨hsize, -, -, hlast⟩ := hcut.of_entry hentry
  rw [Entry.remainderDiagnostic?, hcut.name_of_entry hentry, hsize, hlast,
    Option.ite_none_right_eq_some, Bool.and_eq_true, Size.isRemainder_eq_true_iff, and_assoc]
  simp

theorem mem_layoutDiagnostics_iff :
    diagnostic ∈ schema.layoutDiagnostics policy ↔ Surfaced policy schema.fields diagnostic := by
  have hunits : diagnostic ∈ unitDiagnostics
      (Prepared.planned schema.readOnly (schema.prepared policy))
        (schema.prepared policy).length ↔
      ∃ stretch ∈ stretches (schema.fields.map (·.sized)), stretch.overflow? = some diagnostic := by
    rw [Prepared.mem_unitDiagnostics_iff, schema.map_sized_prepared]
  rw [layoutDiagnostics, List.mem_append, List.mem_append, mem_mismatches_iff, mem_remainders_iff,
    hunits]
  constructor
  · rintro ((⟨_, _, _, cut, shaped, _, _, implied, position, differ, rfl⟩ |
      ⟨_, _, _, cut, shaped, size, followed, rfl⟩) | ⟨stretch, mem, hoverflow⟩)
    · exact .position cut shaped implied position differ
    · exact .remainder cut shaped size followed
    · exact .of_overflow? mem hoverflow
  · rintro (⟨cut, shaped, implied, position, differ⟩ | ⟨cut, shaped, size, followed⟩ |
      ⟨mem, last_eq, overfull⟩)
    · exact .inl (.inl ⟨_, _, _, cut, shaped, _, _, implied, position, differ, rfl⟩)
    · exact .inl (.inr ⟨_, _, _, cut, shaped, size, followed, rfl⟩)
    · exact .inr ⟨_, mem, (Stretch.overflow?_eq_some_iff _).2 ⟨_, last_eq, overfull, rfl⟩⟩

theorem reported_eq (schema : Schema) :
    Prepared.reported .error schema.readOnly (schema.prepared .error) =
      schema.ownDiagnostics .error ++ schema.layoutDiagnostics .error := by
  simp only [Prepared.reported, ownDiagnostics, layoutDiagnostics, List.append_assoc]

/-- Unless a sum is too large, all defects of the layout that show at fields with a shape are
reported in one attempt, and besides them nothing but what is wrong with the fields one by one. -/
theorem surfaces {schema : Schema}
    (h : ∀ fault, schema.resolve .error ≠ .error (.fault fault)) :
    (∀ diagnostic, Surfaced .error schema.fields diagnostic →
      ∃ error, schema.resolve .error = .error (.error error) ∧ diagnostic ∈ error.diagnostics) ∧
    ∀ error, schema.resolve .error = .error (.error error) →
      error.diagnostics = schema.ownDiagnostics .error ++ schema.layoutDiagnostics .error ∧
        ∀ diagnostic, diagnostic ∈ schema.layoutDiagnostics .error ↔
          Surfaced .error schema.fields diagnostic := by
  have houtcome : (schema.resolution .error).outcome = _ :=
    Resolution.outcome_ofFields .error schema.readOnly schema.name (schema.prepared .error)
  rw [reported_eq] at houtcome
  constructor
  · intro diagnostic hsurfaced
    have hmem : diagnostic ∈ schema.ownDiagnostics .error ++ schema.layoutDiagnostics .error :=
      List.mem_append_right _ (mem_layoutDiagnostics_iff.2 hsurfaced)
    rw [if_neg (List.isEmpty_iff.not.2 (List.ne_nil_of_mem hmem))] at houtcome
    exact ⟨⟨schema.name, _⟩,
      resolve_eq_refused_iff.2 ⟨inRange_of_no_fault h, houtcome, rfl⟩, hmem⟩
  · intro error herror
    refine ⟨?_, fun diagnostic => mem_layoutDiagnostics_iff⟩
    obtain ⟨-, hrefused, -⟩ := resolve_eq_refused_iff.1 herror
    rw [houtcome] at hrefused
    split at hrefused
    · cases hrefused
    · exact (Except.error.inj hrefused).symm

end Schema

/-- A unit with too many bits, a number behind a gap, and bytes to the end that do not end the
packet. The fields that show these defects may ask for another integer in vain. -/
def crowdedSchema (backing : Option IntKind) : Schema where
  name := "Crowded"
  fields :=
    [.plain { name := "high", type := .integer .u8, bits := some 6, enumBacking := backing },
      .plain { name := "low", type := .integer .u8, bits := some 6 },
      .plain { name := "mark", type := .integer .u16, position := .literal 9,
               enumBacking := backing },
      .plain { name := "rest", type := .bytes, enumBacking := backing },
      .plain { name := "tail", type := .integer .u8 }]

theorem crowdedSchema_surfaces :
    ∃ error, (crowdedSchema none).resolve .error = .error (.error error) ∧
      .ofLayout "mark" (.positionMismatch 1 9) ∈ error.diagnostics ∧
      .ofLayout "rest" .remainderNotLast ∈ error.diagnostics ∧
      .ofLayout "low" (.bitOverflow ["high", "low"] 12 8) ∈ error.diagnostics := by
  have hmark : Surfaced .error (crowdedSchema none).fields
      (.ofLayout "mark" (.positionMismatch 1 9)) := by
    refine .position (show _ = [_, _] ++ _ :: _ from rfl) (.leaf rfl ⟨nofun, ?_⟩) rfl rfl
      (by decide)
    rintro _ _ ⟨⟩
    rfl
  have hrest : Surfaced .error (crowdedSchema none).fields
      (.ofLayout "rest" .remainderNotLast) :=
    .remainder (show _ = [_, _, _] ++ _ :: _ from rfl) (.leaf rfl ⟨nofun, nofun⟩) rfl
      (List.cons_ne_nil _ _)
  have hlow : ∃ stretch ∈ stretches ((crowdedSchema none).fields.map (·.sized)),
      stretch.overflow? = some (.ofLayout "low" (.bitOverflow ["high", "low"] 12 8)) :=
    ⟨_, List.mem_cons_self, rfl⟩
  obtain ⟨unit, hmem, hoverflow⟩ := hlow
  obtain ⟨error, herror⟩ :
      ∃ error, (crowdedSchema none).resolve .error = .error (.error error) := ⟨_, rfl⟩
  have hrange : ∀ fault, (crowdedSchema none).resolve .error ≠ .error (.fault fault) := nofun
  obtain ⟨hdiagnostics, hlayout⟩ := (Schema.surfaces hrange).2 error herror
  refine ⟨error, herror, ?_⟩
  simp only [hdiagnostics, List.mem_append, hlayout]
  exact ⟨.inr hmark, .inr hrest, .inr (.of_overflow? hmem hoverflow)⟩

/-- With a backing that no field of the schema can have, the same three defects stay unseen. -/
theorem crowdedSchema_masks :
    ∃ error, (crowdedSchema (some .u8)).resolve .error = .error (.error error) ∧
      (∃ before field after expected actual,
        (crowdedSchema (some .u8)).fields = before ++ field :: after ∧
        implied? (before.map (·.sized)) = some expected ∧
        field.decl.position = .literal actual ∧ expected ≠ actual ∧
        .ofLayout field.decl.name (.positionMismatch expected actual) ∉ error.diagnostics) ∧
      (∃ before field after, (crowdedSchema (some .u8)).fields = before ++ field :: after ∧
        field.sized.size = some .remainder ∧ after ≠ [] ∧
        .ofLayout field.decl.name .remainderNotLast ∉ error.diagnostics) ∧
      ∃ stretch ∈ stretches ((crowdedSchema (some .u8)).fields.map (·.sized)),
        stretch.isUnit = true ∧ 8 * stretch.width < stretch.bits ∧
        ∀ field names bits capacity,
          .ofLayout field (.bitOverflow names bits capacity) ∉ error.diagnostics := by
  refine ⟨⟨"Crowded", [.ofField "high" (.enumBackingOnNonEnum "u8"),
    .ofField "mark" (.enumBackingOnNonEnum "u16"),
    .ofField "rest" (.enumBackingOnNonEnum "bytes")]⟩, rfl, ?_, ?_, ?_⟩
  · exact ⟨[_, _], _, _, 1, 9, rfl, rfl, rfl, by decide, by decide⟩
  · exact ⟨[_, _, _], _, _, rfl, rfl, List.cons_ne_nil _ _, by decide⟩
  · refine ⟨_, List.mem_cons_self, rfl, by decide, ?_⟩
    simp [Diagnostic.ofLayout, Diagnostic.ofField]

end PacketLayout
