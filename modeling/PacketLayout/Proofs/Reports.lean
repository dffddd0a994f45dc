import PacketLayout.Proofs.Composition

/-!
# Where a report comes from

A refusal lists what is wrong with the fields one by one, then the explicit positions, then the
fields that take the rest of the buffer, then the units. What is listed first is about a field by
itself or was said about an alternate before, so a position or a unit in it is one of an alternate.

* `Schema.diagnostics_eq` takes the report about a refused schema apart.
* `Schema.isLocal_or_passesOn` says where its first part comes from.
-/

namespace PacketLayout

/-! ## The parts of a report -/

/-- The report about the explicit position of a field. -/
def Positioned.mismatch? (readOnly : Bool) (widths : Nat → Nat) (field : Positioned) :
    Option Diagnostic :=
  (field.settle readOnly widths).entry.bind (·.mismatchDiagnostic?)

/-- Whether the diagnostic is about an explicit position that was not expected. -/
def Diagnostic.IsMismatch (diagnostic : Diagnostic) : Prop :=
  ∃ expected actual, diagnostic.defect = .layout (.positionMismatch expected actual)

/-- Whether the diagnostic is about bit-fields that need more bits than there are. -/
def Diagnostic.IsOverflow (diagnostic : Diagnostic) : Prop :=
  ∃ fields bits capacity, diagnostic.defect = .layout (.bitOverflow fields bits capacity)

namespace Schema

variable {schema : Schema} {policy : MismatchPolicy} {diagnostic : Diagnostic}

/-- The reports about the explicit positions in a schema, in order. -/
def positionReports (schema : Schema) (policy : MismatchPolicy) : List Diagnostic :=
  (schema.placed policy).filterMap (·.mismatch? schema.readOnly (schema.widths policy))

/-- What is reported about the fields that take the rest of the buffer. -/
def remainderReports (schema : Schema) (policy : MismatchPolicy) : List Diagnostic :=
  (Prepared.entries schema.readOnly (schema.prepared policy)).filterMap (·.remainderDiagnostic?)

/-- What is reported about the units of a schema. -/
def unitReports (schema : Schema) (policy : MismatchPolicy) : List Diagnostic :=
  unitDiagnostics (Prepared.planned schema.readOnly (schema.prepared policy))
    (schema.prepared policy).length

/-- The reports about positions are those of the checks. -/
theorem positionReports_eq (schema : Schema) (policy : MismatchPolicy) :
    schema.positionReports policy =
      Prepared.mismatches schema.readOnly (schema.prepared policy) := by
  rw [Prepared.mismatches, Prepared.entries, Prepared.settled, List.filterMap_map,
    List.filterMap_filterMap]
  rfl

/-- A refused schema is reported in four parts, the second of them only under the strict policy. -/
theorem diagnostics_eq {error : ResolveError}
    (h : schema.resolve policy = .error (.error error)) :
    error.diagnostics = schema.ownDiagnostics policy ++
      (if policy = .error then schema.positionReports policy else []) ++
        schema.remainderReports policy ++ schema.unitReports policy := by
  rw [diagnostics_of_refused h, positionReports_eq]
  cases policy with
  | error =>
    simp only [Prepared.reported, ownDiagnostics, remainderReports, unitReports, List.append_assoc,
      if_pos]
  | warn =>
    simp only [Prepared.reported, ownDiagnostics, remainderReports, unitReports, List.append_assoc,
      reduceCtorEq, if_false]

theorem defect_of_remainderReports (h : diagnostic ∈ schema.remainderReports policy) :
    diagnostic.defect = .layout .remainderNotLast := by
  obtain ⟨_, _, _, -, -, -, -, rfl⟩ := mem_remainders_iff.1 h
  rfl

theorem isOverflow_of_unitReports (h : diagnostic ∈ schema.unitReports policy) :
    diagnostic.IsOverflow := by
  obtain ⟨stretch, -, hoverflow⟩ := (Prepared.mem_unitDiagnostics_iff _ _ _).1 h
  obtain ⟨_, -, -, rfl⟩ := (Stretch.overflow?_eq_some_iff _).1 hoverflow
  exact ⟨_, _, _, rfl⟩

end Schema

/-! ## Fields one by one -/

/-- The defects that show at a field without its neighbours: its own ones, two words about the rest
of the buffer that contradict each other, and an alternate that is too large for it. -/
inductive Defect.IsLocal : Defect → Prop
  | own (defect : FieldDefect) : IsLocal (.field defect)
  | remainder : IsLocal (.layout .conflictingRemainder)
  | alternate (name : String) (required available : Nat) :
      IsLocal (.layout (.alternateTooLarge name required available))

theorem Diagnostic.IsMismatch.not_isLocal {diagnostic : Diagnostic} (h : diagnostic.IsMismatch) :
    ¬ diagnostic.defect.IsLocal := by
  obtain ⟨expected, actual, hdefect⟩ := h
  rw [hdefect]
  nofun

theorem Diagnostic.IsOverflow.not_isLocal {diagnostic : Diagnostic} (h : diagnostic.IsOverflow) :
    ¬ diagnostic.defect.IsLocal := by
  obtain ⟨fields, bits, capacity, hdefect⟩ := h
  rw [hdefect]
  nofun

theorem Diagnostic.IsOf.isLocal {diagnostic : Diagnostic} {name : String}
    (h : diagnostic.IsOf name) : diagnostic.defect.IsLocal := by
  obtain ⟨defect, rfl⟩ := h
  exact .own defect

theorem Size.isLocal_of_resolve {decl : Declaration} {isAnchor : Bool} {defect : Defect}
    (h : resolve decl isAnchor = .error defect) : defect.IsLocal := by
  have hown {own : Defect} (h : ∃ defect, own = .field defect) : own.IsLocal := by
    obtain ⟨defect, rfl⟩ := h
    exact .own defect
  simp only [resolve] at h
  split at h
  · obtain rfl := Except.error.inj h
    exact .remainder
  · refine hown ?_
    split at h
    · unfold resolve.ofBits at h
      grind
    · cases h
    · cases h
    · split at h
      · unfold resolve.ofRemainder at h
        grind
      · unfold resolve.ofType at h
        grind

namespace Schema

/-- The diagnostic is one of an alternate that was refused, by the name it has outside. -/
def PassesOn (schema : Schema) (policy : MismatchPolicy) (field : Field)
    (diagnostic : Diagnostic) : Prop :=
  ∃ alternates, field.alternates? = some alternates ∧ ∃ alternate ∈ alternates,
    ∃ error, (schema.below field alternate).resolve policy = .error (.error error) ∧
      ∃ inner ∈ error.diagnostics,
        diagnostic = inner.nested (field.decl.name ++ "." ++ alternate.name)

variable {schema : Schema} {policy : MismatchPolicy} {diagnostic : Diagnostic}

theorem isLocal_or_passesOn_of_alternateReports {anchor : Field} {size : Size}
    {earlier : List String} {alternates own : List Alternate} {reports : List (List Diagnostic)}
    (h : AlternateReports policy schema anchor size earlier alternates reports)
    (hown : anchor.alternates? = some own) (hmem : ∀ alternate ∈ alternates, alternate ∈ own)
    (hreport : diagnostic ∈ reports.flatten) :
    diagnostic.defect.IsLocal ∨ schema.PassesOn policy anchor diagnostic := by
  induction h with
  | nil => cases hreport
  | unnamed _ _ ih =>
    rw [List.flatten_cons, List.mem_append] at hreport
    rcases hreport with hreport | hreport
    · obtain rfl := List.mem_singleton.1 hreport
      exact .inl (.own _)
    · exact ih (fun other hother => hmem other (List.mem_cons_of_mem _ hother)) hreport
  | @named _ alternate _ _ _ _ contributes _ ih =>
    rw [List.flatten_cons, List.mem_append] at hreport
    rcases hreport with hreport | hreport
    · cases contributes with
      | refused refused =>
        obtain ⟨inner, hinner, rfl⟩ := List.mem_map.1 hreport
        exact .inr ⟨own, hown, alternate, hmem alternate List.mem_cons_self, _, refused, inner,
          hinner, rfl⟩
      | tooLarge =>
        obtain rfl := List.mem_singleton.1 hreport
        exact .inl (.alternate _ _ _)
      | fits => cases hreport
    · exact ih (fun other hother => hmem other (List.mem_cons_of_mem _ hother)) hreport

theorem isLocal_or_passesOn_of_fieldReport {field : Field} {report : List Diagnostic}
    (h : FieldReport policy schema field report) (hreport : diagnostic ∈ report) :
    diagnostic.defect.IsLocal ∨ schema.PassesOn policy field diagnostic := by
  cases h with
  | sizeless sizeless =>
    obtain rfl := List.mem_singleton.1 hreport
    exact .inl (Size.isLocal_of_resolve sizeless)
  | leaf _ own => exact .inl (own _ hreport).isLocal
  | anchor _ own each =>
    rcases List.mem_append.1 hreport with hreport | hreport
    · exact .inl (own _ hreport).isLocal
    · exact isLocal_or_passesOn_of_alternateReports each rfl (fun _ hmem => hmem) hreport

/-- What is reported about the names of a schema and about its fields one by one shows at a field by
itself, unless it was reported about an alternate. -/
theorem isLocal_or_passesOn (hrange : (schema.resolution policy).inRange = true)
    (h : diagnostic ∈ schema.ownDiagnostics policy) :
    diagnostic.defect.IsLocal ∨
      ∃ field ∈ schema.fields, schema.PassesOn policy field diagnostic := by
  rcases List.mem_append.1 h with h | h
  · obtain ⟨name, -, rfl⟩ := List.mem_map.1 h
    exact .inl (.own _)
  · rw [List.flatMap_def, List.mem_flatten] at h
    obtain ⟨report, hreport, hmem⟩ := h
    obtain ⟨field, hfield, hown⟩ := exists_left_of_forall₂ (forall₂_fieldReport hrange) hreport
    exact (isLocal_or_passesOn_of_fieldReport hown hmem).imp_right fun hpasses =>
      ⟨field, hfield, hpasses⟩

/-- In front of the other parts of a report a defect of several fields is one of an alternate. -/
theorem passesOn_of_refused {error : ResolveError}
    (herror : schema.resolve policy = .error (.error error))
    (h : diagnostic ∈ schema.ownDiagnostics policy) (hlocal : ¬ diagnostic.defect.IsLocal) :
    ∃ field ∈ schema.fields, schema.PassesOn policy field diagnostic :=
  (isLocal_or_passesOn (resolve_eq_refused_iff.1 herror).1 h).resolve_left hlocal

theorem not_passesOn_of_plain (hplain : ∀ field ∈ schema.fields, field.alternates? = none) :
    ¬ ∃ field ∈ schema.fields, schema.PassesOn policy field diagnostic := by
  rintro ⟨field, hfield, alternates, halternates, -⟩
  cases (hplain field hfield).symm.trans halternates

end Schema

end PacketLayout
