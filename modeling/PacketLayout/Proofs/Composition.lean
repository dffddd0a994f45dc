import PacketLayout.Proofs.Surfacing
import PacketLayout.Proofs.ReadOnly

/-!
# Alternates as schemas of their own

An alternate is resolved as if nothing stood around it. Its plan below an anchor is the plan of the
alternate as a schema, and what is reported about it there is what is reported about that schema, by
longer names.

* `Schema.isSome_at?` says that each path through a resolved schema leads to a plan.
* `Report` takes the report about a refused schema apart, down to what each alternate contributes,
  and `Report.contributes` finds what it says of one alternate by the names in front of it.
* `Schema.resolves_by_alternates` is the statement about a schema as a whole.
-/

namespace PacketLayout

variable {policy : MismatchPolicy} {schema : Schema}

/-! ## Plans below a path -/

namespace Resolved

variable {plan : Plan}

/-- The planned field that stands for the field of a name. -/
theorem exists_planned? (h : Resolved policy schema plan) {name : String} {field : Field}
    (hfield : schema.field? name = some field) :
    ∃ planned, plan.field? name = some planned ∧
      Realizes schema.readOnly (field.prepare policy schema.readOnly) planned := by
  have hprepared : (schema.prepared policy).find? (·.decl.name = name) =
      some (field.prepare policy schema.readOnly) := by
    rw [Schema.prepared, List.find?_map, ← Option.map_some, ← hfield, Schema.field?]
    congr 2
    funext other
    simp
  obtain ⟨planned, hplanned, hrealizes⟩ := exists_find?_of_forall₂ h.realizes.flip
    (p := fun planned => decide (planned.name = name))
    (fun _ _ (hrealizes : Realizes _ _ _) => by rw [hrealizes.name]) hprepared
  exact ⟨planned, hplanned, hrealizes⟩

/-- Every alternate of a resolved schema has a plan. -/
theorem exists_alternate? (h : Resolved policy schema plan) {anchor name : String} {field : Field}
    {alternate : Alternate} (hfield : schema.field? anchor = some field)
    (halternate : field.alternate? name = some alternate) :
    ∃ planned sub, plan.field? anchor = some planned ∧ planned.alternate? name = some sub := by
  obtain ⟨planned, hplanned, hrealizes⟩ := h.exists_planned? hfield
  obtain ⟨alternates, halternates, hfind⟩ := Option.bind_eq_some_iff.1 halternate
  cases hrealizes.below with
  | leaf plain =>
    rw [plain] at halternates
    cases halternates
  | @union declared plans hdeclared hplans _ each =>
    obtain rfl := Option.some.inj (hdeclared.symm.trans halternates)
    obtain ⟨found, hfound, -⟩ := exists_find?_of_forall₂ each.flip
      (p := fun plan => decide (plan.name = name)) (fun _ _ heach => by rw [heach.1]) hfind
    refine ⟨planned, found.plan, hplanned, ?_⟩
    rw [PlannedField.alternate?, hplans, Option.bind_some, hfound, Option.map_some]

end Resolved

/-- Below every path that leads somewhere in a resolved schema there is a plan. -/
theorem Schema.isSome_at? {plan : Plan} {path : List (String × String)}
    (h : schema.resolve policy = .ok plan) :
    (plan.at? path).isSome = (schema.at? path).isSome := by
  induction path generalizing schema plan with
  | nil => rfl
  | cons step path ih =>
    obtain ⟨anchor, name⟩ := step
    have hresolved := Schema.resolved h
    rw [Bool.eq_iff_iff, Option.isSome_iff_exists, Option.isSome_iff_exists]
    constructor
    · rintro ⟨sub, hsub⟩
      obtain ⟨part, hpart, -⟩ := Schema.resolve_at? h hsub
      exact ⟨part, hpart⟩
    · rintro ⟨part, hpart⟩
      obtain ⟨field, hfield, hpart⟩ := Option.bind_eq_some_iff.1 hpart
      obtain ⟨alternate, halternate, hpart⟩ := Option.bind_eq_some_iff.1 hpart
      obtain ⟨planned, inner, hplanned, hinner⟩ := hresolved.exists_alternate? hfield halternate
      obtain ⟨field', alternate', hfield', halternate', hresolve⟩ :=
        hresolved.resolve_below hplanned hinner
      obtain rfl := Option.some.inj (hfield.symm.trans hfield')
      obtain rfl := Option.some.inj (halternate.symm.trans halternate')
      rw [Plan.at?, hplanned, Option.bind_some, hinner, Option.bind_some,
        ← Option.isSome_iff_exists, ih hresolve, hpart]
      rfl

/-! ## Reports in parts -/

/-- What an alternate with a good name adds to the report, given the size of its anchor. `part` is
the alternate as a schema of its own. -/
inductive Contributes (policy : MismatchPolicy) (anchor : String) (size : Size) (part : Schema) :
    List Diagnostic → Prop
  | refused {error : ResolveError} (refused : part.resolve policy = .error (.error error)) :
      Contributes policy anchor size part
        (error.diagnostics.map (·.nested (anchor ++ "." ++ part.name)))
  | tooLarge {plan : Plan} {available : Nat} (resolved : part.resolve policy = .ok plan)
      (fixed : size.fixed = some available) (large : available < plan.minimumSize) :
      Contributes policy anchor size part
        [.ofLayout anchor (.alternateTooLarge part.name plan.minimumSize available)]
  | fits {plan : Plan} (resolved : part.resolve policy = .ok plan)
      (fits : ∀ available, size.fixed = some available → plan.minimumSize ≤ available) :
      Contributes policy anchor size part []

/-- The reports about the alternates of an anchor, one after the other. Those before have the names
`earlier`. -/
inductive AlternateReports (policy : MismatchPolicy) (schema : Schema) (anchor : Field)
    (size : Size) : (earlier : List String) → List Alternate → List (List Diagnostic) → Prop
  | nil (earlier : List String) : AlternateReports policy schema anchor size earlier [] []
  /-- an alternate without a name, or with that of another one, is not looked into -/
  | unnamed {earlier : List String} {alternate : Alternate} {rest : List Alternate}
      {reports : List (List Diagnostic)}
      (bad : alternate.name = "" ∨ alternate.name ∈ earlier)
      (more : AlternateReports policy schema anchor size (alternate.name :: earlier) rest reports) :
      AlternateReports policy schema anchor size earlier (alternate :: rest)
        ([.ofField (anchor.decl.name ++ "." ++ alternate.name) .invalidFieldName] :: reports)
  | named {earlier : List String} {alternate : Alternate} {rest : List Alternate}
      {report : List Diagnostic} {reports : List (List Diagnostic)}
      (good : alternate.name ≠ "" ∧ alternate.name ∉ earlier)
      (contributes :
        Contributes policy anchor.decl.name size (schema.below anchor alternate) report)
      (more : AlternateReports policy schema anchor size (alternate.name :: earlier) rest reports) :
      AlternateReports policy schema anchor size earlier (alternate :: rest) (report :: reports)

/-- A diagnostic is about a single field and names it. -/
def Diagnostic.IsOf (field : String) (diagnostic : Diagnostic) : Prop :=
  ∃ defect, diagnostic = .ofField field defect

/-- The report about one field. -/
inductive FieldReport (policy : MismatchPolicy) (schema : Schema) : Field → List Diagnostic → Prop
  | sizeless {field : Field} {defect : Defect}
      (sizeless : Size.resolve field.decl field.alternates?.isSome = .error defect) :
      FieldReport policy schema field [⟨field.decl.name, defect⟩]
  | leaf {decl : Declaration} {size : Size} {report : List Diagnostic}
      (sized : Size.resolve decl false = .ok size)
      (own : ∀ diagnostic ∈ report, diagnostic.IsOf decl.name) :
      FieldReport policy schema (.plain decl) report
  | anchor {decl : Declaration} {alternates : List Alternate} {size : Size}
      {misuses : List Diagnostic} {reports : List (List Diagnostic)}
      (sized : Size.resolve decl true = .ok size)
      (own : ∀ diagnostic ∈ misuses, diagnostic.IsOf decl.name)
      (each : AlternateReports policy schema (.anchor decl alternates) size [] alternates reports) :
      FieldReport policy schema (.anchor decl alternates) (misuses ++ reports.flatten)

/-- What is reported about the fields of a list together. -/
inductive ListReport (fields : List Field) : Diagnostic → Prop
  | name {field : Field} (mem : field ∈ fields) :
      ListReport fields (.ofField field.decl.name .invalidFieldName)
  | position {field : Field} (mem : field ∈ fields) (expected actual : Nat) :
      ListReport fields (.ofLayout field.decl.name (.positionMismatch expected actual))
  | remainder {field : Field} (mem : field ∈ fields) :
      ListReport fields (.ofLayout field.decl.name .remainderNotLast)
  | unit {field : Field} (mem : field ∈ fields) (names : List String) (bits capacity : Nat) :
      ListReport fields (.ofLayout field.decl.name (.bitOverflow names bits capacity))

/-- The report about a schema: its names, then the fields one by one, then their layout. -/
inductive Report (policy : MismatchPolicy) (schema : Schema) : List Diagnostic → Prop
  | intro {names layout : List Diagnostic} {reports : List (List Diagnostic)}
      (named : ∀ diagnostic ∈ names, ListReport schema.fields diagnostic)
      (each : List.Forall₂ (FieldReport policy schema) schema.fields reports)
      (together : ∀ diagnostic ∈ layout, ListReport schema.fields diagnostic) :
      Report policy schema (names ++ reports.flatten ++ layout)

/-! ## Taking a report apart -/

theorem contributes_of_shapeAlternate {anchor : String} {size : Size} (part : Schema)
    (h : (shapeAlternate anchor size.fixed part.name (part.resolution policy)).inRange = true) :
    Contributes policy anchor size part
      (shapeAlternate anchor size.fixed part.name (part.resolution policy)).diagnostics := by
  unfold shapeAlternate at h ⊢
  cases houtcome : (part.resolution policy).outcome with
  | error diagnostics =>
    simp only [houtcome] at h ⊢
    have hrefused : part.resolve policy = .error (.error ⟨part.name, diagnostics⟩) :=
      Schema.resolve_eq_refused_iff.2 ⟨h, houtcome, rfl⟩
    exact .refused hrefused
  | ok plan =>
    simp only [houtcome] at h ⊢
    cases hfit : size.fixed.filter (· < plan.minimumSize) with
    | none =>
      simp only [hfit] at h ⊢
      refine .fits (Schema.resolve_eq_ok_iff.2 ⟨h, houtcome⟩) fun available hfixed => ?_
      rw [Option.filter_eq_none_iff] at hfit
      exact Nat.le_of_not_lt fun hlt => hfit available hfixed (decide_eq_true hlt)
    | some available =>
      simp only [hfit] at h ⊢
      obtain ⟨hfixed, hlarge⟩ := Option.filter_eq_some_iff.1 hfit
      exact .tooLarge (Schema.resolve_eq_ok_iff.2 ⟨h, houtcome⟩) hfixed
        (of_decide_eq_true hlarge)

theorem alternateReports_of_shapeAlternates (anchor : Field) {size : Size}
    {seen earlier : List String} {alternates : List Alternate}
    (h : (shapeAlternates anchor.decl.name size.fixed seen
      (alternates.map (·.resolve policy (schema.readOnly || anchor.decl.readOnly)))).all
        (·.inRange) = true)
    (hseen : ∀ name, name ≠ "" → (name ∈ seen ↔ name ∈ earlier)) :
    AlternateReports policy schema anchor size earlier alternates
      ((shapeAlternates anchor.decl.name size.fixed seen
        (alternates.map (·.resolve policy (schema.readOnly || anchor.decl.readOnly)))).map
          (·.diagnostics)) := by
  -- only good names are kept as seen, so they are compared with all earlier names up to the empty
  -- one
  induction alternates generalizing seen earlier with
  | nil => exact .nil _
  | cons alternate rest ih =>
    rw [List.map_cons, Alternate.resolve_eq] at h ⊢
    rw [shapeAlternates] at h ⊢
    split at h
    · rename_i hbad
      rw [if_pos hbad, List.map_cons]
      rw [List.all_cons, Bool.and_eq_true] at h
      refine .unnamed ?_ (ih h.2 fun name hname => ?_)
      · rw [or_iff_not_imp_left] at hbad ⊢
        exact fun hname => (hseen _ hname).1 (hbad hname)
      · rw [hseen name hname, List.mem_cons, or_iff_right_of_imp]
        rintro rfl
        exact (hseen _ hname).1 (hbad.resolve_left hname)
    · rename_i hgood
      rw [if_neg hgood, List.map_cons]
      rw [not_or] at hgood
      rw [List.all_cons, Bool.and_eq_true] at h
      refine .named ⟨hgood.1, fun hmem => hgood.2 ((hseen _ hgood.1).2 hmem)⟩ ?_
        (ih h.2 fun name hname => ?_)
      · exact contributes_of_shapeAlternate (schema.below anchor alternate) h.1
      · rw [List.mem_cons, List.mem_cons, hseen name hname]

/-- What is wrong with an anchor whatever its alternates are: it says what only leaves may say, or
it has no alternates. -/
def Declaration.misuses (decl : Declaration) (isEmpty : Bool) : List Diagnostic :=
  (if decl.accessibility.isSome then [.ofField decl.name .unionAccessibility] else []) ++
  (if decl.enumBacking.isSome then [.ofField decl.name (.enumBackingOnNonEnum decl.type.name)]
    else []) ++
  (if isEmpty then [.ofField decl.name .emptyUnion] else [])

theorem Declaration.isOf_of_mem_misuses {decl : Declaration} {isEmpty : Bool}
    {diagnostic : Diagnostic} (h : diagnostic ∈ decl.misuses isEmpty) :
    diagnostic.IsOf decl.name := by
  rw [misuses, List.mem_append, List.mem_append] at h
  rcases h with (h | h) | h
  all_goals
    split at h
    · exact ⟨_, List.mem_singleton.1 h⟩
    · cases h

theorem diagnostics_shapeUnion (decl : Declaration) (size : Size)
    (alternates : List (String × Resolution)) :
    (shapeUnion decl size alternates).diagnostics =
      decl.misuses alternates.isEmpty ++
        ((shapeAlternates decl.name size.fixed [] alternates).map (·.diagnostics)).flatten := by
  cases alternates with
  | nil =>
    rw [shapeAlternates, List.map_nil, List.flatten_nil, List.append_nil]
    rfl
  | cons alternate rest =>
    rw [← List.flatMap_def]
    exact congrArg (· ++ _) (List.append_nil _).symm

/-- What is reported about a placed field is a report about the field. -/
theorem fieldReport_of_settle {field : Field} {positioned : Positioned} {widths : Nat → Nat}
    (hfield : positioned.field = field.prepare policy schema.readOnly)
    (h : (positioned.settle schema.readOnly widths).inRange = true) :
    FieldReport policy schema field (positioned.settle schema.readOnly widths).diagnostics := by
  have hsize : positioned.field.size = Size.resolve field.decl field.alternates?.isSome := by
    rw [hfield]
    cases field <;> rfl
  cases hresolved : Size.resolve field.decl field.alternates?.isSome with
  | error defect =>
    rw [Positioned.settle, hsize.trans hresolved, hfield, Field.decl_prepare]
    exact .sizeless hresolved
  | ok size =>
    cases field with
    | plain decl =>
      have hplain : positioned.field.alternates = none := by
        rw [hfield]
        rfl
      have hdecl : positioned.field.decl = decl := by
        rw [hfield]
        rfl
      rw [Positioned.settle_of_plain (hsize.trans hresolved) hplain, hdecl]
      refine .leaf hresolved fun diagnostic hmem => ?_
      rw [Shaping.settled, shapeLeaf] at hmem
      cases hprovider : Provider.resolve decl size (positioned.slot widths) with
      | ok provider =>
        rw [hprovider] at hmem
        cases hmem
      | error defect =>
        rw [hprovider] at hmem
        exact ⟨defect, List.mem_singleton.1 hmem⟩
    | anchor decl alternates =>
      have hanchor : positioned.field.alternates =
          some (alternates.map (·.resolve policy (schema.readOnly || decl.readOnly))) := by
        rw [hfield]
        exact Field.alternates_prepare policy schema.readOnly (.anchor decl alternates)
      have hdecl : positioned.field.decl = decl := by
        rw [hfield]
        rfl
      rw [Positioned.settle_of_anchor (hsize.trans hresolved) hanchor, hdecl] at h ⊢
      rw [Shaping.settled, Bool.and_eq_true] at h
      rw [Shaping.settled, diagnostics_shapeUnion]
      exact .anchor hresolved (fun _ hmem => Declaration.isOf_of_mem_misuses hmem) <|
        alternateReports_of_shapeAlternates (.anchor decl alternates) h.1
          fun _ _ => Iff.rfl

/-! ## The report about a schema -/

theorem mem_of_mem_invalidNames {seen names : List String} {name : String}
    (h : name ∈ invalidNames seen names) : name ∈ names := by
  induction names generalizing seen with
  | nil => cases h
  | cons first rest ih =>
    rw [invalidNames] at h
    split at h
    · exact (List.mem_cons.1 h).elim (fun heq => heq ▸ List.mem_cons_self)
        fun hmem => List.mem_cons_of_mem _ (ih hmem)
    · exact List.mem_cons_of_mem _ (ih h)

namespace Schema

/-- The entries of a schema have the names of its fields. -/
theorem exists_name_of_entry {entry : Entry}
    (h : entry ∈ Prepared.entries schema.readOnly (schema.prepared policy)) :
    ∃ field ∈ schema.fields, entry.field.name = field.decl.name := by
  obtain ⟨positioned, hmem, hentry⟩ := mem_entries_iff.1 h
  obtain ⟨field, hfield, heq⟩ := exists_of_placed hmem
  refine ⟨field, hfield, ?_⟩
  rw [Positioned.name_of_entry hentry, heq, Field.decl_prepare]

/-- The fields of a schema beside what is reported about them. -/
theorem forall₂_fieldReport (h : (schema.resolution policy).inRange = true) :
    List.Forall₂ (FieldReport policy schema) schema.fields
      ((Prepared.settled schema.readOnly (schema.prepared policy)).map (·.diagnostics)) := by
  have hsums := (Resolution.inRange_ofFields policy schema.readOnly schema.name
    (schema.prepared policy)).symm.trans h
  rw [Bool.and_eq_true, List.all_eq_true] at hsums
  have hplaced : List.Forall₂ (fun field positioned =>
      positioned.field = field.prepare policy schema.readOnly) schema.fields
      (schema.placed policy) := by
    have hmaps := schema.map_field_placed policy
    rw [← List.forall₂_eq_eq_eq, List.forall₂_map_left_iff, List.forall₂_map_right_iff] at hmaps
    exact hmaps.flip
  rw [Prepared.settled, List.map_map, List.forall₂_map_right_iff]
  refine List.forall₂_iff_zip.2 ⟨hplaced.length_eq, fun {field positioned} hmem => ?_⟩
  refine fieldReport_of_settle (List.forall₂_zip hplaced hmem) (hsums.1 _ ?_)
  exact List.mem_map_of_mem (List.of_mem_zip hmem).2

/-- What the checks of the whole layout report is about fields of the list. -/
theorem listReport_of_layout (policy : MismatchPolicy) {diagnostic : Diagnostic}
    (h : diagnostic ∈ schema.layoutDiagnostics policy) : ListReport schema.fields diagnostic := by
  rw [layoutDiagnostics, List.mem_append, List.mem_append] at h
  rcases h with (h | h) | h
  · obtain ⟨entry, hentry, hdiagnostic⟩ := List.mem_filterMap.1 h
    obtain ⟨⟨expected, actual⟩, -, rfl⟩ := Option.map_eq_some_iff.1 hdiagnostic
    obtain ⟨field, hfield, hname⟩ := exists_name_of_entry hentry
    rw [hname]
    exact .position hfield expected actual
  · obtain ⟨entry, hentry, hdiagnostic⟩ := List.mem_filterMap.1 h
    rw [Entry.remainderDiagnostic?] at hdiagnostic
    obtain ⟨-, hdiagnostic⟩ := Option.ite_none_right_eq_some.1 hdiagnostic
    obtain rfl := Option.some.inj hdiagnostic
    obtain ⟨field, hfield, hname⟩ := exists_name_of_entry hentry
    rw [hname]
    exact .remainder hfield
  · rw [Prepared.mem_unitDiagnostics_iff, schema.map_sized_prepared] at h
    obtain ⟨stretch, hstretch, hoverflow⟩ := h
    obtain ⟨last, hlast, -, rfl⟩ := (Stretch.overflow?_eq_some_iff _).1 hoverflow
    have hmem := List.mem_of_mem_filter (List.mem_of_getLast? hlast)
    obtain ⟨field, hfield, rfl⟩ := List.mem_map.1 (mem_of_mem_stretches hstretch hmem)
    exact .unit hfield _ _ _

/-- The report about a refused schema falls into parts. -/
theorem report_of_refused {error : ResolveError}
    (h : schema.resolve policy = .error (.error error)) :
    Report policy schema error.diagnostics := by
  obtain ⟨hrange, -, -⟩ := resolve_eq_refused_iff.1 h
  rw [diagnostics_of_refused h]
  unfold Prepared.reported
  rw [List.append_assoc, List.append_assoc, List.flatMap_def]
  refine .intro (fun diagnostic hmem => ?_) (forall₂_fieldReport hrange) fun diagnostic hmem => ?_
  · obtain ⟨name, hname, rfl⟩ := List.mem_map.1 hmem
    have hmem := mem_of_mem_invalidNames hname
    rw [schema.map_name_prepared policy] at hmem
    obtain ⟨field, hfield, rfl⟩ := List.mem_map.1 hmem
    exact .name hfield
  · refine listReport_of_layout policy ?_
    rw [layoutDiagnostics, List.append_assoc]
    rcases List.mem_append.1 hmem with hmem | hmem
    · refine List.mem_append_left _ ?_
      cases policy with
      | error => exact hmem
      | warn => cases hmem
    · exact List.mem_append_right _ hmem

end Schema

/-! ## Finding an alternate in a report -/

/-- Whether the diagnostic is about something below a path. -/
def Diagnostic.isBelow (path : String) (diagnostic : Diagnostic) : Bool :=
  (path ++ ".").toList.isPrefixOf diagnostic.field.toList

/-- Whether the diagnostic says of an anchor that an alternate is too large for it. -/
def Diagnostic.saysTooLarge (anchor alternate : String) (diagnostic : Diagnostic) : Bool :=
  match diagnostic.defect with
  | .layout (.alternateTooLarge name _ _) => diagnostic.field = anchor && name = alternate
  | _ => false

/-- Whether the diagnostic is about an alternate of an anchor, or about something in it. -/
def Diagnostic.concerns (anchor alternate : String) (diagnostic : Diagnostic) : Bool :=
  diagnostic.isBelow (anchor ++ "." ++ alternate) || diagnostic.saysTooLarge anchor alternate

/-- An alternate that is looked into: its anchor has a size, and no alternate before it has its
name. -/
structure Schema.Tries (schema : Schema) (anchor : Field) (size : Size) (alternate : Alternate) :
    Prop where
  mem : anchor ∈ schema.fields
  sized : Size.resolve anchor.decl true = .ok size
  named : alternate.name ≠ ""
  first : ∃ before after, anchor.alternates? = some (before ++ alternate :: after) ∧
    alternate.name ∉ before.map (·.name)

/-- Names by which the anchor and its alternates are found again in a dotted path. -/
structure Schema.NamesApart (schema : Schema) (anchor : Field) : Prop where
  distinct : (schema.fields.map (·.decl.name)).Nodup
  fields : ∀ field ∈ schema.fields, '.' ∉ field.decl.name.toList
  alternates : ∀ alternates, anchor.alternates? = some alternates →
    ∀ alternate ∈ alternates, '.' ∉ alternate.name.toList

/-- Parts in front of the first dot are compared as a whole. -/
theorem prefix_of_cons_prefix {dot : Char} {a b s t : List Char} (ha : dot ∉ a) (hb : dot ∉ b)
    (h : a ++ dot :: s <+: b ++ dot :: t) : a = b ∧ s <+: t := by
  induction a generalizing b with
  | nil =>
    cases b with
    | nil => exact ⟨rfl, (List.cons_prefix_cons.1 h).2⟩
    | cons c b =>
      obtain ⟨rfl, -⟩ := List.cons_prefix_cons.1 h
      exact absurd List.mem_cons_self hb
  | cons c a ih =>
    cases b with
    | nil =>
      obtain ⟨rfl, -⟩ := List.cons_prefix_cons.1 h
      exact absurd List.mem_cons_self ha
    | cons c' b =>
      obtain ⟨rfl, hrest⟩ := List.cons_prefix_cons.1 h
      obtain ⟨rfl, hstarts⟩ := ih (fun hmem => ha (List.mem_cons_of_mem _ hmem))
        (fun hmem => hb (List.mem_cons_of_mem _ hmem)) hrest
      exact ⟨rfl, hstarts⟩

namespace Diagnostic

variable {anchor alternate name : String} {diagnostic : Diagnostic}

theorem isBelow_iff :
    diagnostic.isBelow (anchor ++ "." ++ alternate) = true ↔
      anchor.toList ++ '.' :: (alternate.toList ++ ['.']) <+: diagnostic.field.toList := by
  rw [isBelow, List.isPrefixOf_iff_prefix]
  simp

/-- Behind the name of an anchor a path goes on with the name of the alternate. -/
theorem isBelow_iff_of_anchor {rest : String} (h : diagnostic.field = anchor ++ "." ++ rest) :
    diagnostic.isBelow (anchor ++ "." ++ alternate) = true ↔
      alternate.toList ++ ['.'] <+: rest.toList := by
  have hfield : diagnostic.field.toList = anchor.toList ++ '.' :: rest.toList := by simp [h]
  rw [isBelow_iff, hfield, List.prefix_append_right_inj, List.cons_prefix_cons,
    and_iff_right rfl]

theorem field_nested (anchor alternate : String) (diagnostic : Diagnostic) :
    (diagnostic.nested (anchor ++ "." ++ alternate)).field =
      anchor ++ "." ++ (alternate ++ "." ++ diagnostic.field) := by
  simp only [nested, String.append_assoc]

theorem isBelow_nested (path : String) (diagnostic : Diagnostic) :
    (diagnostic.nested path).isBelow path = true := by
  rw [isBelow, List.isPrefixOf_iff_prefix]
  show (path ++ ".").toList <+: ((path ++ ".") ++ diagnostic.field).toList
  rw [String.toList_append (t := diagnostic.field)]
  exact List.prefix_append _ _

/-- Nothing without a dot is below a path. -/
theorem isBelow_of_not_mem (h : '.' ∉ diagnostic.field.toList) :
    diagnostic.isBelow (anchor ++ "." ++ alternate) = false := by
  rw [← Bool.not_eq_true, isBelow_iff]
  exact fun hstarts => h (hstarts.subset (by simp))

theorem saysTooLarge_of_ne (h : diagnostic.field ≠ anchor) :
    diagnostic.saysTooLarge anchor alternate = false := by
  rw [saysTooLarge]
  split
  · rw [decide_eq_false h, Bool.false_and]
  · rfl

theorem filter_concerns_eq_nil {report : List Diagnostic}
    (h : ∀ diagnostic ∈ report, diagnostic.concerns anchor alternate = false) :
    report.filter (·.concerns anchor alternate) = [] := by
  refine List.filter_eq_nil_iff.2 fun diagnostic hmem => ?_
  rw [h diagnostic hmem]
  exact Bool.false_ne_true

/-- The diagnostic is about a field of a list, or about something below it. -/
def StartsAt (name : String) (diagnostic : Diagnostic) : Prop :=
  diagnostic.field = name ∨ ∃ rest, diagnostic.field = name ++ "." ++ rest

/-- What starts at another field does not concern the alternates of an anchor. -/
theorem StartsAt.concerns_eq_false (h : diagnostic.StartsAt name) (hne : name ≠ anchor)
    (hname : '.' ∉ name.toList) (hanchor : '.' ∉ anchor.toList) :
    diagnostic.concerns anchor alternate = false := by
  rw [concerns, Bool.or_eq_false_iff]
  constructor
  · rcases h with h | ⟨rest, h⟩
    · exact isBelow_of_not_mem (by rwa [h])
    · rw [← Bool.not_eq_true, isBelow_iff, h]
      intro hstarts
      simp only [String.toList_append, List.append_assoc] at hstarts
      obtain ⟨heq, -⟩ := prefix_of_cons_prefix hanchor hname hstarts
      exact hne (String.toList_injective heq.symm)
  · refine saysTooLarge_of_ne fun heq => ?_
    rcases h with h | ⟨rest, h⟩
    · exact hne (h.symm.trans heq)
    · rw [h] at heq
      exact hanchor (heq ▸ by simp)

end Diagnostic

/-! ### The parts that concern an alternate -/

theorem Diagnostic.IsOf.startsAt {name : String} {diagnostic : Diagnostic}
    (h : diagnostic.IsOf name) : diagnostic.StartsAt name := by
  obtain ⟨defect, rfl⟩ := h
  exact .inl rfl

/-- What is about a single field concerns no alternate. -/
theorem Diagnostic.IsOf.concerns_eq_false {name anchor alternate : String}
    {diagnostic : Diagnostic} (h : diagnostic.IsOf name) (hname : '.' ∉ name.toList) :
    diagnostic.concerns anchor alternate = false := by
  obtain ⟨defect, rfl⟩ := h
  rw [concerns, isBelow_of_not_mem hname]
  rfl

theorem ListReport.concerns_eq_false {fields : List Field} {anchor alternate : String}
    {diagnostic : Diagnostic} (h : ListReport fields diagnostic)
    (hnames : ∀ field ∈ fields, '.' ∉ field.decl.name.toList) :
    diagnostic.concerns anchor alternate = false := by
  cases h with
  | name mem | position mem | remainder mem | unit mem =>
    rw [Diagnostic.concerns, Diagnostic.isBelow_of_not_mem (hnames _ mem)]
    rfl

section Contributions

variable {anchor : String} {size : Size} {part : Schema} {report : List Diagnostic}

theorem Contributes.startsAt (h : Contributes policy anchor size part report)
    {diagnostic : Diagnostic} (hmem : diagnostic ∈ report) : diagnostic.StartsAt anchor := by
  cases h with
  | refused =>
    obtain ⟨inner, -, rfl⟩ := List.mem_map.1 hmem
    exact .inr ⟨_, Diagnostic.field_nested _ _ _⟩
  | tooLarge =>
    obtain rfl := List.mem_singleton.1 hmem
    exact .inl rfl
  | fits => cases hmem

/-- All that an alternate contributes concerns it. -/
theorem Contributes.filter_eq_self (h : Contributes policy anchor size part report) :
    report.filter (·.concerns anchor part.name) = report := by
  refine List.filter_eq_self.2 fun diagnostic hmem => ?_
  cases h with
  | refused =>
    obtain ⟨inner, -, rfl⟩ := List.mem_map.1 hmem
    rw [Diagnostic.concerns, Diagnostic.isBelow_nested, Bool.true_or]
  | tooLarge =>
    obtain rfl := List.mem_singleton.1 hmem
    simp [Diagnostic.concerns, Diagnostic.saysTooLarge, Diagnostic.ofLayout]
  | fits => cases hmem

/-- What an alternate contributes does not concern another one. -/
theorem Contributes.filter_eq_nil {other : String} (h : Contributes policy anchor size part report)
    (hanchor : '.' ∉ anchor.toList) (hpart : '.' ∉ part.name.toList) (hother : '.' ∉ other.toList)
    (hne : part.name ≠ other) : report.filter (·.concerns anchor other) = [] := by
  refine Diagnostic.filter_concerns_eq_nil fun diagnostic hmem => ?_
  rw [Diagnostic.concerns, Bool.or_eq_false_iff]
  cases h with
  | refused =>
    obtain ⟨inner, -, rfl⟩ := List.mem_map.1 hmem
    constructor
    · rw [← Bool.not_eq_true, Diagnostic.isBelow_iff_of_anchor (Diagnostic.field_nested _ _ _)]
      intro hstarts
      simp only [String.toList_append, List.append_assoc] at hstarts
      obtain ⟨heq, -⟩ := prefix_of_cons_prefix hother hpart hstarts
      exact hne (String.toList_injective heq.symm)
    · refine Diagnostic.saysTooLarge_of_ne fun heq => hanchor ?_
      rw [← heq]
      simp [Diagnostic.nested]
  | tooLarge =>
    obtain rfl := List.mem_singleton.1 hmem
    refine ⟨Diagnostic.isBelow_of_not_mem hanchor, ?_⟩
    simp [Diagnostic.saysTooLarge, Diagnostic.ofLayout, hne]
  | fits => cases hmem

end Contributions

section Reports

variable {anchor : Field} {size : Size} {earlier : List String} {alternates : List Alternate}
  {reports : List (List Diagnostic)}

theorem AlternateReports.startsAt
    (h : AlternateReports policy schema anchor size earlier alternates reports)
    {diagnostic : Diagnostic} (hmem : diagnostic ∈ reports.flatten) :
    diagnostic.StartsAt anchor.decl.name := by
  induction h with
  | nil => cases hmem
  | unnamed _ _ ih =>
    rcases List.mem_append.1 hmem with hmem | hmem
    · obtain rfl := List.mem_singleton.1 hmem
      exact .inr ⟨_, rfl⟩
    · exact ih hmem
  | named _ contributes _ ih =>
    rcases List.mem_append.1 hmem with hmem | hmem
    · exact contributes.startsAt hmem
    · exact ih hmem

theorem concerns_invalidName {anchor alternate other : String}
    (halternate : '.' ∉ alternate.toList) :
    (Diagnostic.ofField (anchor ++ "." ++ alternate) .invalidFieldName).concerns anchor other =
      false := by
  rw [Diagnostic.concerns, Bool.or_eq_false_iff]
  refine ⟨?_, rfl⟩
  rw [← Bool.not_eq_true, Diagnostic.isBelow_iff_of_anchor rfl]
  exact fun hstarts => halternate (hstarts.subset (by simp))

/-- After an alternate of a name nothing more concerns that name. -/
theorem AlternateReports.filter_eq_nil {name : String}
    (h : AlternateReports policy schema anchor size earlier alternates reports)
    (hname : name ∈ earlier ∨ name ∉ alternates.map (·.name))
    (hanchor : '.' ∉ anchor.decl.name.toList) (hdot : '.' ∉ name.toList)
    (hnames : ∀ alternate ∈ alternates, '.' ∉ alternate.name.toList) :
    reports.flatten.filter (·.concerns anchor.decl.name name) = [] := by
  induction h with
  | nil => rfl
  | @unnamed earlier alternate rest reports _ _ ih =>
    rw [List.forall_mem_cons] at hnames
    rw [List.flatten_cons, List.filter_append, List.filter_singleton,
      concerns_invalidName hnames.1, ih ?_ hnames.2]
    · rfl
    · exact hname.imp (List.mem_cons_of_mem _) fun hnot hmem => hnot (List.mem_cons_of_mem _ hmem)
  | @named earlier alternate rest report reports good contributes _ ih =>
    rw [List.forall_mem_cons] at hnames
    have hne : alternate.name ≠ name := by
      rintro rfl
      exact hname.elim good.2 fun hnot => hnot List.mem_cons_self
    rw [List.flatten_cons, List.filter_append,
      contributes.filter_eq_nil hanchor hnames.1 hdot hne, ih ?_ hnames.2]
    · rfl
    · exact hname.imp (List.mem_cons_of_mem _) fun hnot hmem => hnot (List.mem_cons_of_mem _ hmem)

/-- What concerns the first alternate of a name is what this alternate contributes. -/
theorem AlternateReports.contributes {before after : List Alternate} {alternate : Alternate}
    (h : AlternateReports policy schema anchor size earlier (before ++ alternate :: after) reports)
    (hnamed : alternate.name ≠ "") (hfirst : alternate.name ∉ earlier)
    (hbefore : alternate.name ∉ before.map (·.name))
    (hanchor : '.' ∉ anchor.decl.name.toList)
    (hnames : ∀ other ∈ before ++ alternate :: after, '.' ∉ other.name.toList) :
    Contributes policy anchor.decl.name size (schema.below anchor alternate)
      (reports.flatten.filter (·.concerns anchor.decl.name alternate.name)) := by
  have hdot : '.' ∉ alternate.name.toList :=
    hnames alternate (List.mem_append_right _ List.mem_cons_self)
  -- the alternates before have other names; behind it `filter_eq_nil` knows its name as taken
  induction before generalizing earlier reports with
  | nil =>
    rw [List.nil_append] at h hnames
    rw [List.forall_mem_cons] at hnames
    cases h with
    | unnamed bad => exact absurd bad (not_or.2 ⟨hnamed, hfirst⟩)
    | @named _ _ _ report reports _ contributes more =>
      rw [List.flatten_cons, List.filter_append,
        more.filter_eq_nil (.inl List.mem_cons_self) hanchor hdot hnames.2, List.append_nil]
      have hself := contributes.filter_eq_self
      rw [show (schema.below anchor alternate).name = alternate.name from rfl] at hself
      rw [hself]
      exact contributes
  | cons other before ih =>
    rw [List.cons_append] at h hnames
    rw [List.forall_mem_cons] at hnames
    rw [List.map_cons, List.mem_cons, not_or] at hbefore
    have hlater : alternate.name ∉ other.name :: earlier := by
      rw [List.mem_cons, not_or]
      exact ⟨hbefore.1, hfirst⟩
    cases h with
    | unnamed _ more =>
      rw [List.flatten_cons, List.filter_append, List.filter_singleton,
        concerns_invalidName hnames.1]
      exact ih more hlater hbefore.2 hnames.2
    | named _ contributes more =>
      rw [List.flatten_cons, List.filter_append,
        contributes.filter_eq_nil hanchor hnames.1 hdot (Ne.symm hbefore.1)]
      exact ih more hlater hbefore.2 hnames.2

theorem FieldReport.startsAt {field : Field} {report : List Diagnostic}
    (h : FieldReport policy schema field report) {diagnostic : Diagnostic}
    (hmem : diagnostic ∈ report) : diagnostic.StartsAt field.decl.name := by
  cases h with
  | sizeless =>
    obtain rfl := List.mem_singleton.1 hmem
    exact .inl rfl
  | leaf _ own => exact (own diagnostic hmem).startsAt
  | anchor _ own each =>
    rcases List.mem_append.1 hmem with hmem | hmem
    · exact (own diagnostic hmem).startsAt
    · exact each.startsAt hmem

end Reports

/-- Fields of other names report nothing that concerns the alternates of an anchor. -/
theorem filter_eq_nil_of_forall₂ {fields : List Field} {reports : List (List Diagnostic)}
    {anchor alternate : String} (h : List.Forall₂ (FieldReport policy schema) fields reports)
    (hother : ∀ field ∈ fields, field.decl.name ≠ anchor ∧ '.' ∉ field.decl.name.toList)
    (hanchor : '.' ∉ anchor.toList) :
    reports.flatten.filter (·.concerns anchor alternate) = [] := by
  refine Diagnostic.filter_concerns_eq_nil fun diagnostic hmem => ?_
  obtain ⟨report, hreport, hmem⟩ := List.mem_flatten.1 hmem
  obtain ⟨field, hfield, hof⟩ := exists_left_of_forall₂ h hreport
  obtain ⟨hne, hdot⟩ := hother field hfield
  exact (hof.startsAt hmem).concerns_eq_false hne hdot hanchor

/-- What the report about an anchor has to say of an alternate is what the alternate contributes. -/
theorem FieldReport.contributes {anchor : Field} {report : List Diagnostic} {size : Size}
    {alternate : Alternate} (h : FieldReport policy schema anchor report)
    (htries : schema.Tries anchor size alternate) (hapart : schema.NamesApart anchor) :
    Contributes policy anchor.decl.name size (schema.below anchor alternate)
      (report.filter (·.concerns anchor.decl.name alternate.name)) := by
  obtain ⟨before, after, halternates, hbefore⟩ := htries.first
  have hdot := hapart.fields anchor htries.mem
  cases h with
  | sizeless sizeless =>
    rw [halternates] at sizeless
    cases sizeless.symm.trans htries.sized
  | leaf => cases halternates
  | @anchor decl alternates size' misuses reports sized own each =>
    obtain rfl := Option.some.inj halternates
    obtain rfl := Except.ok.inj (sized.symm.trans htries.sized)
    have hmisuses : misuses.filter (·.concerns decl.name alternate.name) = [] :=
      Diagnostic.filter_concerns_eq_nil fun diagnostic hmem =>
        (own diagnostic hmem).concerns_eq_false hdot
    rw [List.filter_append]
    exact hmisuses ▸ each.contributes htries.named List.not_mem_nil hbefore hdot
      (hapart.alternates _ rfl)

theorem contributes_of_forall₂ {anchor : Field} {size : Size} {alternate : Alternate}
    (htries : schema.Tries anchor size alternate) (hapart : schema.NamesApart anchor)
    {fields : List Field} {reports : List (List Diagnostic)}
    (h : List.Forall₂ (FieldReport policy schema) fields reports) (hmem : anchor ∈ fields)
    (hdistinct : (fields.map (·.decl.name)).Nodup)
    (hdots : ∀ field ∈ fields, '.' ∉ field.decl.name.toList) :
    Contributes policy anchor.decl.name size (schema.below anchor alternate)
      (reports.flatten.filter (·.concerns anchor.decl.name alternate.name)) := by
  have hdot := hapart.fields anchor htries.mem
  -- other fields report under other names, whether they stand before the anchor or behind it
  induction h with
  | nil => cases hmem
  | @cons field report fields reports hfield hfields ih =>
    rw [List.map_cons, List.nodup_cons] at hdistinct
    rw [List.forall_mem_cons] at hdots
    rw [List.flatten_cons, List.filter_append]
    rcases List.mem_cons.1 hmem with rfl | hmem
    · rw [filter_eq_nil_of_forall₂ hfields ?_ hdot, List.append_nil]
      · exact hfield.contributes htries hapart
      · refine fun other hother => ⟨fun heq => hdistinct.1 ?_, hdots.2 other hother⟩
        exact List.mem_map.2 ⟨other, hother, heq⟩
    · have hne : field.decl.name ≠ anchor.decl.name := fun heq =>
        hdistinct.1 (List.mem_map.2 ⟨anchor, hmem, heq.symm⟩)
      have hnil : report.filter (·.concerns anchor.decl.name alternate.name) = [] :=
        Diagnostic.filter_concerns_eq_nil fun diagnostic hmem =>
          (hfield.startsAt hmem).concerns_eq_false hne hdots.1 hdot
      rw [hnil, List.nil_append]
      exact ih hmem hdistinct.2 hdots.2

/-- In the report about a whole schema just that concerns an alternate which the alternate
contributes. -/
theorem Report.contributes {diagnostics : List Diagnostic} {anchor : Field} {size : Size}
    {alternate : Alternate} (h : Report policy schema diagnostics)
    (htries : schema.Tries anchor size alternate) (hapart : schema.NamesApart anchor) :
    Contributes policy anchor.decl.name size (schema.below anchor alternate)
      (diagnostics.filter (·.concerns anchor.decl.name alternate.name)) := by
  obtain ⟨hnames, heach, hlayout⟩ := h
  have hlist : ∀ list : List Diagnostic, (∀ diagnostic ∈ list,
      ListReport schema.fields diagnostic) →
      list.filter (·.concerns anchor.decl.name alternate.name) = [] := fun list hreport =>
    Diagnostic.filter_concerns_eq_nil fun diagnostic hmem =>
      (hreport diagnostic hmem).concerns_eq_false hapart.fields
  rw [List.filter_append, List.filter_append, hlist _ hnames, hlist _ hlayout, List.append_nil,
    List.nil_append]
  exact contributes_of_forall₂ htries hapart heach htries.mem hapart.distinct hapart.fields

/-! ## The whole -/

/-- Nothing around an alternate changes how it is resolved. In a resolved schema every path of
anchors and alternates that the schema has leads to a plan: that of the alternate at its end as a
schema of its own, which is read-only if the schema or an anchor on the path is. The report about a
refused schema falls into parts, one for each alternate that is looked into: what is reported about
the alternate by itself, by names below the anchor, or that it is too large for the anchor. Where
names can be told apart in a path, the whole report says nothing else about the alternate. -/
theorem Schema.resolves_by_alternates {schema : Schema} {policy : MismatchPolicy} :
    (∀ plan, schema.resolve policy = .ok plan → ∀ path,
      (plan.at? path).isSome = (schema.at? path).isSome ∧
      ∀ sub, plan.at? path = some sub → ∃ part, schema.at? path = some part ∧
        part.resolve policy = .ok sub ∧
        part.readOnly = (schema.readOnly || (schema.anchorsOn path).any (·.decl.readOnly))) ∧
    ∀ error, schema.resolve policy = .error (.error error) →
      Report policy schema error.diagnostics ∧
      ∀ anchor size alternate, schema.Tries anchor size alternate → schema.NamesApart anchor →
        Contributes policy anchor.decl.name size (schema.below anchor alternate)
          (error.diagnostics.filter (·.concerns anchor.decl.name alternate.name)) := by
  refine ⟨fun plan h path => ⟨isSome_at? h, fun sub hsub => ?_⟩, fun error herror => ?_⟩
  · obtain ⟨part, hpart, hresolve⟩ := resolve_at? h hsub
    exact ⟨part, hpart, hresolve, readOnly_at? hpart⟩
  · have hreport := report_of_refused herror
    exact ⟨hreport, fun _ _ _ htries hapart => hreport.contributes htries hapart⟩

/-- A read-only anchor of two bytes over a number at some position and over some bytes. -/
def parcelSchema (position : Position) (length : Nat) : Schema where
  name := "Parcel"
  fields :=
    [.anchor { name := "body", type := .byteArray 2, readOnly := true }
      [.mk "mark" [.plain { name := "code", type := .integer .u8, position := position }],
        .mk "rest" [.plain { name := "tail", type := .byteArray length }]]]

theorem parcelSchema_parts :
    (∃ plan sub part, (parcelSchema .sequential 2).resolve .error = .ok plan ∧
      plan.at? [("body", "mark")] = some sub ∧
      (parcelSchema .sequential 2).at? [("body", "mark")] = some part ∧
      part.resolve .error = .ok sub ∧ part.readOnly = true) ∧
    ∃ anchor mark rest error, (parcelSchema (.literal 1) 4).fields = [anchor] ∧
      anchor.alternates? = some [mark, rest] ∧
      (parcelSchema (.literal 1) 4).resolve .error = .error (.error error) ∧
      error.diagnostics =
        [.ofLayout "body.mark.code" (.positionMismatch 0 1),
          .ofLayout "body" (.alternateTooLarge "rest" 4 2)] ∧
      Contributes .error "body" (.constant 2) ((parcelSchema (.literal 1) 4).below anchor mark)
        [.ofLayout "body.mark.code" (.positionMismatch 0 1)] ∧
      Contributes .error "body" (.constant 2) ((parcelSchema (.literal 1) 4).below anchor rest)
        [.ofLayout "body" (.alternateTooLarge "rest" 4 2)] := by
  constructor
  · obtain ⟨plan, hplan⟩ : ∃ plan, (parcelSchema .sequential 2).resolve .error = .ok plan :=
      ⟨_, rfl⟩
    obtain ⟨sub, hsub⟩ : ∃ sub, plan.at? [("body", "mark")] = some sub := by
      cases hplan
      exact ⟨_, rfl⟩
    obtain ⟨part, hpart, hresolve, hreadOnly⟩ :=
      ((Schema.resolves_by_alternates.1 plan hplan) [("body", "mark")]).2 sub hsub
    exact ⟨plan, sub, part, hplan, hsub, hpart, hresolve, hreadOnly⟩
  · have hparts := (@Schema.resolves_by_alternates (parcelSchema (.literal 1) 4) .error).2
      ⟨"Parcel", [.ofLayout "body.mark.code" (.positionMismatch 0 1),
        .ofLayout "body" (.alternateTooLarge "rest" 4 2)]⟩ rfl
    refine ⟨_, _, _, _, rfl, rfl, rfl, rfl, ?_, ?_⟩
    · exact hparts.2 _ _ _ ⟨List.mem_cons_self, rfl, by decide, [], _, rfl, List.not_mem_nil⟩
        ⟨by decide, by decide, by rintro _ ⟨⟩; decide⟩
    · exact hparts.2 _ _ _ ⟨List.mem_cons_self, rfl, by decide, [_], _, rfl, by decide⟩
        ⟨by decide, by decide, by rintro _ ⟨⟩; decide⟩

end PacketLayout
