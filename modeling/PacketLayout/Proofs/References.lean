import PacketLayout.Definition.Lookup
import PacketLayout.Proofs.Policies

/-!
# The references of a definition

A definition refers to enumerations, composites and functions by name. `Definition.references`
lists these references in document order, each with the anchors and alternates around it, whatever
the names may stand for. Looking the names up splits this list in two: the references that lead
nowhere are reported, and the others become the capabilities of the schema.

* `Scope.Knows` is when a reference leads somewhere, and `Scope.Means` where it leads.
* `Scope.unknownInFields_eq` and `Scope.listUses_fields` follow the two halves of the list.
* `Definition.toSchema_resolves_references` is the whole.
-/

namespace PacketLayout

/-! ## References -/

/-- What a name is looked up as. -/
inductive ReferenceKind where
  | enumeration
  | composite
  | position
  | size
  deriving DecidableEq

/-- The word for a kind in diagnostics. -/
def ReferenceKind.word : ReferenceKind → String
  | enumeration => "enum"
  | composite => "composite"
  | position => "position function"
  | size => "size function"

/-- A name in a definition, and the field that makes use of it. -/
structure Reference where
  /-- anchors and alternates around the field, outermost first -/
  path : List (String × String)
  field : String
  kind : ReferenceKind
  name : String

/-- The report about a reference that leads nowhere. -/
def Reference.unknown (reference : Reference) : Diagnostic :=
  .ofField (dotted reference.path reference.field)
    (.unknownCapability reference.kind.word reference.name)

/-- The functions that a field refers to: first that for its position. -/
def FieldOptions.references (path : List (String × String)) (field : String)
    (options : FieldOptions) : List Reference :=
  options.positionFunction.toList.map (⟨path, field, .position, ·⟩) ++
    options.sizeFunction.toList.map (⟨path, field, .size, ·⟩)

mutual

/-- The references of a field: those of its type, then its functions. -/
def FieldDefinition.references (path : List (String × String)) : FieldDefinition → List Reference
  | .mk name type options => type.references path name ++ options.references path name

/-- The references of the type of a field. For a union those of all its alternates. -/
def TypeDefinition.references (path : List (String × String)) (field : String) :
    TypeDefinition → List Reference
  | .enumeration name => [⟨path, field, .enumeration, name⟩]
  | .composite name => [⟨path, field, .composite, name⟩]
  | .union alternates => AlternateDefinition.listReferences path field alternates
  | .integer _ | .bytes | .byteArray _ => []

/-- The references of an alternate. -/
def AlternateDefinition.references (path : List (String × String)) (anchor : String) :
    AlternateDefinition → List Reference
  | .mk name fields => FieldDefinition.listReferences (path ++ [(anchor, name)]) fields

/-- The references of fields in order. -/
def FieldDefinition.listReferences (path : List (String × String)) :
    List FieldDefinition → List Reference
  | [] => []
  | field :: fields => field.references path ++ FieldDefinition.listReferences path fields

/-- The references of alternates in order. -/
def AlternateDefinition.listReferences (path : List (String × String)) (anchor : String) :
    List AlternateDefinition → List Reference
  | [] => []
  | alternate :: alternates =>
    alternate.references path anchor ++ AlternateDefinition.listReferences path anchor alternates

end

/-- The references of a definition in document order. -/
def Definition.references (definition : Definition) : List Reference :=
  FieldDefinition.listReferences [] definition.fields

/-! ## What references lead to -/

/-- What a name can stand for. -/
inductive Capability where
  | enumeration (type : Enumeration)
  | composite (type : Composite)
  | position (function : PositionFunction)
  | size (function : SizeFunction)

/-- The entry of a registry for a name. -/
def Registry.capability? (registry : Registry) : ReferenceKind → String → Option Capability
  | .enumeration, name => (registry.enumeration? name).map .enumeration
  | .composite, name => (registry.composite? name).map .composite
  | .position, name => (registry.position? name).map .position
  | .size, name => (registry.size? name).map .size

namespace Scope

/-- A reference leads somewhere: to an enumeration of the definition, or into the registry. -/
def Knows (scope : Scope) (reference : Reference) : Prop :=
  match reference.kind with
  | .enumeration =>
    (∃ type ∈ scope.enumerations, type.name = reference.name) ∨
      ∃ type ∈ scope.registry.enumerations, type.name = reference.name
  | .composite => ∃ type ∈ scope.registry.composites, type.name = reference.name
  | .position => ∃ function ∈ scope.registry.positions, function.name = reference.name
  | .size => ∃ function ∈ scope.registry.sizes, function.name = reference.name

/-- A reference is looked up in the registry: no enumeration of the definition hides it. -/
def Consults (scope : Scope) (reference : Reference) : Prop :=
  reference.kind = .enumeration → ∀ type ∈ scope.enumerations, type.name ≠ reference.name

/-- Where a reference leads: to the first enumeration of the definition with its name, and
otherwise to the entry of the registry. -/
inductive Means (scope : Scope) (reference : Reference) : Capability → Prop
  | inline {type : Enumeration} (kind : reference.kind = .enumeration)
      (first : scope.enumerations.find? (·.name = reference.name) = some type) :
      Means scope reference (.enumeration type)
  | registered {capability : Capability} (consults : scope.Consults reference)
      (entry : scope.registry.capability? reference.kind reference.name = some capability) :
      Means scope reference capability

/-- What a name stands for. -/
def capability? (scope : Scope) : ReferenceKind → String → Option Capability
  | .enumeration, name => (scope.enumeration? name).map .enumeration
  | kind, name => scope.registry.capability? kind name

theorem knows_iff {scope : Scope} {reference : Reference} :
    scope.Knows reference ↔ (scope.capability? reference.kind reference.name).isSome = true := by
  obtain ⟨path, field, kind, name⟩ := reference
  cases kind <;>
    simp [Knows, capability?, enumeration?, Registry.capability?, Registry.enumeration?,
      Registry.composite?, Registry.position?, Registry.size?]

instance (scope : Scope) (reference : Reference) : Decidable (scope.Knows reference) :=
  decidable_of_iff _ knows_iff.symm

theorem capability?_of_consults {scope : Scope} {reference : Reference}
    (h : scope.Consults reference) :
    scope.capability? reference.kind reference.name =
      scope.registry.capability? reference.kind reference.name := by
  obtain ⟨path, field, kind, name⟩ := reference
  cases kind with
  | enumeration =>
    have hnone : scope.enumerations.find? (·.name = name) = none := by
      simpa using h rfl
    rw [capability?, enumeration?, hnone]
    rfl
  | composite | position | size => rfl

/-- An enumeration of the definition is found before the registry is asked. -/
theorem exists_inline_of_hidden {scope : Scope} {reference : Reference}
    (h : ¬ scope.Consults reference) :
    reference.kind = .enumeration ∧ ∃ type,
      scope.enumerations.find? (·.name = reference.name) = some type ∧
        scope.capability? reference.kind reference.name = some (.enumeration type) := by
  obtain ⟨hkind, hhidden⟩ := Classical.not_imp.1 h
  obtain ⟨type, hfirst⟩ : ∃ type,
      scope.enumerations.find? (·.name = reference.name) = some type := by
    rw [← Option.isSome_iff_exists]
    simpa using hhidden
  refine ⟨hkind, type, hfirst, ?_⟩
  rw [hkind, capability?, enumeration?, hfirst]
  rfl

theorem means_iff {scope : Scope} {reference : Reference} {capability : Capability} :
    scope.Means reference capability ↔
      scope.capability? reference.kind reference.name = some capability := by
  constructor
  · intro h
    cases h with
    | inline kind first =>
      rw [kind, capability?, enumeration?, first]
      rfl
    | registered consults entry => rw [capability?_of_consults consults, entry]
  · intro h
    by_cases hconsults : scope.Consults reference
    · exact .registered hconsults (capability?_of_consults hconsults ▸ h)
    · obtain ⟨hkind, type, hfirst, htype⟩ := exists_inline_of_hidden hconsults
      obtain rfl := Option.some.inj (htype.symm.trans h)
      exact .inline hkind hfirst

end Scope

/-! ## The capabilities of a schema -/

/-- A capability in a schema, and the field that makes use of it. -/
structure Use where
  /-- anchors and alternates around the field, outermost first -/
  path : List (String × String)
  field : String
  capability : Capability

/-- The capability behind a type. -/
def FieldType.capability? : FieldType → Option Capability
  | .enumeration type => some (.enumeration type)
  | .composite type => some (.composite type)
  | .integer _ | .bytes | .byteArray _ => none

/-- The function behind a position. -/
def Position.capability? : Position → Option Capability
  | computed function => some (.position function)
  | sequential | literal _ => none

/-- The functions of a field: first that for its position. -/
def Declaration.functions (path : List (String × String)) (decl : Declaration) : List Use :=
  decl.position.capability?.toList.map (⟨path, decl.name, ·⟩) ++
    decl.sizeFunction.toList.map (⟨path, decl.name, .size ·⟩)

mutual

/-- The capabilities of a field: that of its type, then its functions. -/
def Field.uses (path : List (String × String)) : Field → List Use
  | .plain decl =>
    decl.type.capability?.toList.map (⟨path, decl.name, ·⟩) ++ decl.functions path
  | .anchor decl alternates =>
    Alternate.listUses path decl.name alternates ++ decl.functions path

/-- The capabilities of an alternate. -/
def Alternate.uses (path : List (String × String)) (anchor : String) : Alternate → List Use
  | .mk name fields => Field.listUses (path ++ [(anchor, name)]) fields

/-- The capabilities of fields in order. -/
def Field.listUses (path : List (String × String)) : List Field → List Use
  | [] => []
  | field :: fields => field.uses path ++ Field.listUses path fields

/-- The capabilities of alternates in order. -/
def Alternate.listUses (path : List (String × String)) (anchor : String) :
    List Alternate → List Use
  | [] => []
  | alternate :: alternates =>
    alternate.uses path anchor ++ Alternate.listUses path anchor alternates

end

/-- The capabilities of a schema in order. -/
def Schema.uses (schema : Schema) : List Use := Field.listUses [] schema.fields

/-- What becomes of a reference in a schema. -/
def Scope.use? (scope : Scope) (reference : Reference) : Option Use :=
  (scope.capability? reference.kind reference.name).map (⟨reference.path, reference.field, ·⟩)

/-! ## Lists -/

section

variable (path : List (String × String)) (anchor : String) (scope : Scope)

theorem FieldDefinition.listReferences_eq (fields : List FieldDefinition) :
    listReferences path fields = fields.flatMap (·.references path) := by
  induction fields with
  | nil => rfl
  | cons field fields ih => rw [listReferences, ih, List.flatMap_cons]

theorem AlternateDefinition.listReferences_eq (alternates : List AlternateDefinition) :
    listReferences path anchor alternates = alternates.flatMap (·.references path anchor) := by
  induction alternates with
  | nil => rfl
  | cons alternate alternates ih => rw [listReferences, ih, List.flatMap_cons]

theorem Field.listUses_eq (fields : List Field) :
    listUses path fields = fields.flatMap (·.uses path) := by
  induction fields with
  | nil => rfl
  | cons field fields ih => rw [listUses, ih, List.flatMap_cons]

theorem Alternate.listUses_eq (alternates : List Alternate) :
    listUses path anchor alternates = alternates.flatMap (·.uses path anchor) := by
  induction alternates with
  | nil => rfl
  | cons alternate alternates ih => rw [listUses, ih, List.flatMap_cons]

namespace Scope

theorem unknownInFields_eq_flatMap (outer : Option String) (fields : List FieldDefinition) :
    scope.unknownInFields outer fields = fields.flatMap (scope.unknownInField outer) := by
  induction fields with
  | nil => rfl
  | cons field fields ih => rw [unknownInFields, ih, List.flatMap_cons]

theorem unknownInAlternates_eq_flatMap (outer : String) (alternates : List AlternateDefinition) :
    scope.unknownInAlternates outer alternates =
      alternates.flatMap (scope.unknownInAlternate outer) := by
  induction alternates with
  | nil => rfl
  | cons alternate alternates ih => rw [unknownInAlternates, ih, List.flatMap_cons]

theorem fields_eq_map (fields : List FieldDefinition) :
    scope.fields fields = fields.map scope.field := by
  induction fields with
  | nil => rfl
  | cons field fields ih => rw [Scope.fields, ih, List.map_cons]

theorem alternates_eq_map (alternates : List AlternateDefinition) :
    scope.alternates alternates = alternates.map scope.alternate := by
  induction alternates with
  | nil => rfl
  | cons alternate alternates ih => rw [Scope.alternates, ih, List.map_cons]

end Scope

end

/-- A statement holds of every field definition if each one inherits it from the fields of its
alternates. -/
@[elab_as_elim]
theorem FieldDefinition.nested_induction {motive : FieldDefinition → Prop}
    (step : ∀ name type options, (∀ alternates, type = .union alternates →
      ∀ alternate fields, .mk alternate fields ∈ alternates → ∀ field ∈ fields, motive field) →
        motive (.mk name type options)) (field : FieldDefinition) : motive field :=
  match field with
  | .mk name type options => step name type options fun alternates htype alternate fields hmem
      inner hinner =>
    have : sizeOf inner < sizeOf type := by
      have hfields := List.sizeOf_lt_of_mem hinner
      have halternates := List.sizeOf_lt_of_mem hmem
      subst htype
      simp only [AlternateDefinition.mk.sizeOf_spec, TypeDefinition.union.sizeOf_spec]
        at halternates ⊢
      omega
    FieldDefinition.nested_induction step inner
termination_by sizeOf field
decreasing_by
  simp only [FieldDefinition.mk.sizeOf_spec]
  omega

/-! ## Unknown names -/

theorem dotted_append (path : List (String × String)) (anchor alternate name : String) :
    dotted (path ++ [(anchor, alternate)]) name =
      dotted path anchor ++ "." ++ alternate ++ "." ++ name := by
  induction path with
  | nil => rfl
  | cons first path ih =>
    obtain ⟨outer, inner⟩ := first
    rw [List.cons_append, dotted, ih, dotted]
    simp only [String.append_assoc]

namespace Scope

/-- The reports about those of some references that lead nowhere. -/
def unresolved (scope : Scope) (references : List Reference) : List Diagnostic :=
  (references.filter fun reference => ¬ scope.Knows reference).map (·.unknown)

variable (scope : Scope)

theorem unresolved_append (references others : List Reference) :
    scope.unresolved (references ++ others) =
      scope.unresolved references ++ scope.unresolved others := by
  simp [unresolved]

theorem unresolved_flatMap {α : Type} (f : α → List Reference) (list : List α) :
    scope.unresolved (list.flatMap f) = list.flatMap fun a => scope.unresolved (f a) := by
  induction list with
  | nil => rfl
  | cons a list ih => rw [List.flatMap_cons, List.flatMap_cons, unresolved_append, ih]

theorem unresolved_singleton (reference : Reference) :
    scope.unresolved [reference] =
      if (scope.capability? reference.kind reference.name).isSome then [] else
        [reference.unknown] := by
  by_cases h : scope.Knows reference
  · rw [if_pos (knows_iff.1 h)]
    simp [unresolved, h]
  · rw [if_neg (mt knows_iff.2 h)]
    simp [unresolved, h]

theorem unknownIf_eq {α : Type} (reference : Reference) {find : String → Option α}
    (h : (find reference.name).isSome =
      (scope.capability? reference.kind reference.name).isSome) :
    unknownIf (dotted reference.path reference.field) reference.kind.word find reference.name =
      scope.unresolved [reference] := by
  rw [unresolved_singleton, unknownIf, h]
  rfl

theorem unknownFunctions_eq (path : List (String × String)) (field : String)
    (options : FieldOptions) :
    scope.unknownFunctions (dotted path field) options =
      scope.unresolved (options.references path field) := by
  have hposition : ∀ name, unknownIf (dotted path field) "position function"
      scope.registry.position? name = scope.unresolved [⟨path, field, .position, name⟩] :=
    fun name => scope.unknownIf_eq ⟨path, field, .position, name⟩
      (by simp [capability?, Registry.capability?])
  have hsize : ∀ name, unknownIf (dotted path field) "size function"
      scope.registry.size? name = scope.unresolved [⟨path, field, .size, name⟩] :=
    fun name => scope.unknownIf_eq ⟨path, field, .size, name⟩
      (by simp [capability?, Registry.capability?])
  rw [unknownFunctions, FieldOptions.references, unresolved_append]
  cases options.positionFunction <;> cases options.sizeFunction <;>
    simp [hposition, hsize] <;> simp [unresolved]

/-- The reports about a field are about its references, each at the path of the field. -/
theorem unknownInField_eq (field : FieldDefinition) {outer : Option String}
    {path : List (String × String)} (houter : ∀ name, below outer name = dotted path name) :
    scope.unknownInField outer field = scope.unresolved (field.references path) := by
  induction field using FieldDefinition.nested_induction generalizing outer path with
  | step name type options ih =>
    rw [unknownInField, houter, FieldDefinition.references, unresolved_append, unknownFunctions_eq]
    congr 1
    cases type with
    | integer | bytes | byteArray => rfl
    | enumeration ref =>
      exact scope.unknownIf_eq ⟨path, name, .enumeration, ref⟩ (by simp [capability?])
    | composite ref =>
      exact scope.unknownIf_eq ⟨path, name, .composite, ref⟩
        (by simp [capability?, Registry.capability?])
    | union alternates =>
      rw [unknownInType, TypeDefinition.references, unknownInAlternates_eq_flatMap,
        AlternateDefinition.listReferences_eq, unresolved_flatMap]
      refine List.flatMap_congr fun alternate halternate => ?_
      obtain ⟨inner, fields⟩ := alternate
      rw [unknownInAlternate, AlternateDefinition.references, unknownInFields_eq_flatMap,
        FieldDefinition.listReferences_eq, unresolved_flatMap]
      refine List.flatMap_congr fun field hfield => ?_
      refine ih alternates rfl inner fields halternate field hfield fun name' => ?_
      rw [dotted_append]
      rfl

/-! ## Known names -/

theorem uses_functions (path : List (String × String)) (name : String) (type : FieldType)
    (options : FieldOptions) :
    (scope.declaration name type options).functions path =
      (options.references path name).filterMap scope.use? := by
  have hposition : (scope.position options).capability? =
      options.positionFunction.bind (scope.capability? .position) := by
    rw [Scope.position]
    cases options.positionFunction with
    | none => cases options.position <;> rfl
    | some ref =>
      have hlookup : scope.capability? .position ref =
        (scope.registry.position? ref).map .position := rfl
      rw [Option.bind_some, Option.bind_some, hlookup]
      cases scope.registry.position? ref with
      | none => cases options.position <;> rfl
      | some function => rfl
  have hfunctions : (scope.declaration name type options).functions path =
      (scope.position options).capability?.toList.map (Use.mk path name) ++
        (options.sizeFunction.bind scope.registry.size?).toList.map
          fun function => ⟨path, name, .size function⟩ := rfl
  rw [hfunctions, hposition, FieldOptions.references, List.filterMap_append]
  congr 1
  · cases options.positionFunction with
    | none => rfl
    | some ref => cases h : scope.capability? .position ref <;> simp [use?, h]
  · cases options.sizeFunction with
    | none => rfl
    | some ref =>
      cases h : scope.registry.size? ref <;> simp [use?, capability?, Registry.capability?, h]

/-- The capabilities of a field are what its references lead to. One that leads nowhere leaves
nothing behind. -/
theorem uses_field (field : FieldDefinition) (path : List (String × String)) :
    (scope.field field).uses path = (field.references path).filterMap scope.use? := by
  -- a type whose name leads nowhere becomes that of plain bytes, which uses nothing
  induction field using FieldDefinition.nested_induction generalizing path with
  | step name type options ih =>
    rw [FieldDefinition.references, List.filterMap_append]
    cases type with
    | integer | bytes | byteArray => exact scope.uses_functions path name _ options
    | enumeration ref =>
      rw [Scope.field, Field.uses, uses_functions]
      congr 1
      cases h : scope.enumeration? ref <;>
        simp [TypeDefinition.references, use?, capability?, declaration, FieldType.capability?, h]
    | composite ref =>
      rw [Scope.field, Field.uses, uses_functions]
      congr 1
      cases h : scope.registry.composite? ref <;>
        simp [TypeDefinition.references, use?, capability?, Registry.capability?, declaration,
          FieldType.capability?, h]
    | union alternates =>
      rw [Scope.field, Field.uses, uses_functions, TypeDefinition.references, Alternate.listUses_eq,
        AlternateDefinition.listReferences_eq, alternates_eq_map, List.flatMap_map,
        List.filterMap_flatMap]
      congr 1
      refine List.flatMap_congr fun alternate halternate => ?_
      obtain ⟨inner, fields⟩ := alternate
      rw [Scope.alternate, Alternate.uses, AlternateDefinition.references, Field.listUses_eq,
        FieldDefinition.listReferences_eq, fields_eq_map, List.flatMap_map, List.filterMap_flatMap]
      refine List.flatMap_congr fun field hfield => ?_
      exact ih alternates rfl inner fields halternate field hfield _

/-! ## Registries that agree -/

theorem unresolved_congr {scope scope' : Scope} {references : List Reference}
    (h : ∀ reference ∈ references, scope.capability? reference.kind reference.name =
      scope'.capability? reference.kind reference.name) :
    scope.unresolved references = scope'.unresolved references := by
  have hfilter : references.filter (fun reference => ¬ scope.Knows reference) =
      references.filter fun reference => ¬ scope'.Knows reference := by
    refine List.filter_congr fun reference hmem => ?_
    rw [decide_eq_decide, knows_iff, knows_iff, h reference hmem]
  rw [unresolved, unresolved, hfilter]

theorem declaration_congr {scope scope' : Scope} {path : List (String × String)} {name : String}
    {options : FieldOptions}
    (h : ∀ reference ∈ options.references path name,
      scope.capability? reference.kind reference.name =
        scope'.capability? reference.kind reference.name) (type : FieldType) :
    scope.declaration name type options = scope'.declaration name type options := by
  have hposition : options.positionFunction.bind scope.registry.position? =
      options.positionFunction.bind scope'.registry.position? := by
    cases href : options.positionFunction with
    | none => rfl
    | some ref =>
      have hmem : (⟨path, name, .position, ref⟩ : Reference) ∈ options.references path name := by
        simp [FieldOptions.references, href]
      exact Option.map_injective (fun _ _ => Capability.position.inj) (h _ hmem)
  have hsize : options.sizeFunction.bind scope.registry.size? =
      options.sizeFunction.bind scope'.registry.size? := by
    cases href : options.sizeFunction with
    | none => rfl
    | some ref =>
      have hmem : (⟨path, name, .size, ref⟩ : Reference) ∈ options.references path name := by
        simp [FieldOptions.references, href]
      exact Option.map_injective (fun _ _ => Capability.size.inj) (h _ hmem)
  rw [declaration, declaration, Scope.position, Scope.position, hposition, hsize]

/-- The field of a definition depends only on what its references lead to. -/
theorem field_congr {scope scope' : Scope} (field : FieldDefinition)
    (path : List (String × String))
    (h : ∀ reference ∈ field.references path, scope.capability? reference.kind reference.name =
      scope'.capability? reference.kind reference.name) :
    scope.field field = scope'.field field := by
  induction field using FieldDefinition.nested_induction generalizing path with
  | step name type options ih =>
    rw [FieldDefinition.references, List.forall_mem_append] at h
    obtain ⟨htype, hoptions⟩ := h
    have hdeclaration := declaration_congr hoptions
    cases type with
    | integer | bytes | byteArray => exact congrArg Field.plain (hdeclaration _)
    | enumeration ref =>
      have href : scope.enumeration? ref = scope'.enumeration? ref :=
        Option.map_injective (fun _ _ => Capability.enumeration.inj)
          (htype _ List.mem_cons_self)
      rw [Scope.field, Scope.field, href, hdeclaration]
    | composite ref =>
      have href : scope.registry.composite? ref = scope'.registry.composite? ref :=
        Option.map_injective (fun _ _ => Capability.composite.inj) (htype _ List.mem_cons_self)
      rw [Scope.field, Scope.field, href, hdeclaration]
    | union alternates =>
      rw [TypeDefinition.references, AlternateDefinition.listReferences_eq] at htype
      rw [Scope.field, Scope.field, hdeclaration, alternates_eq_map, alternates_eq_map]
      congr 1
      refine List.map_congr_left fun alternate halternate => ?_
      obtain ⟨inner, fields⟩ := alternate
      rw [Scope.alternate, Scope.alternate, fields_eq_map, fields_eq_map]
      congr 1
      refine List.map_congr_left fun field hfield => ?_
      have hinner : ∀ reference ∈ field.references (path ++ [(name, inner)]),
          scope.capability? reference.kind reference.name =
            scope'.capability? reference.kind reference.name := by
        refine fun reference hmem => htype reference (List.mem_flatMap.2 ⟨_, halternate, ?_⟩)
        rw [AlternateDefinition.references, FieldDefinition.listReferences_eq]
        exact List.mem_flatMap.2 ⟨field, hfield, hmem⟩
      exact ih alternates rfl inner fields halternate field hfield _ hinner

end Scope

/-! ## Definitions -/

namespace Definition

variable (definition : Definition) (registry : Registry)

theorem unknown_eq :
    definition.unknown registry =
      (definition.scope registry).unresolved definition.references := by
  rw [unknown, references, Scope.unknownInFields_eq_flatMap, FieldDefinition.listReferences_eq,
    Scope.unresolved_flatMap]
  exact List.flatMap_congr fun field _ => Scope.unknownInField_eq _ field fun _ => rfl

theorem toSchema_eq :
    definition.toSchema registry =
      if ∀ reference ∈ definition.references, (definition.scope registry).Knows reference then
        .ok ⟨definition.name, definition.readOnly,
          (definition.scope registry).fields definition.fields⟩
      else .error ⟨definition.name,
        (definition.scope registry).unresolved definition.references⟩ := by
  have hempty : (definition.unknown registry).isEmpty = true ↔
      ∀ reference ∈ definition.references, (definition.scope registry).Knows reference := by
    rw [unknown_eq, List.isEmpty_iff, Scope.unresolved, List.map_eq_nil_iff, List.filter_eq_nil_iff]
    simp
  rw [toSchema]
  by_cases h : ∀ reference ∈ definition.references, (definition.scope registry).Knows reference
  · rw [if_pos h]
    exact if_pos (hempty.2 h)
  · rw [if_neg h]
    refine (if_neg (mt hempty.1 h)).trans ?_
    rw [unknown_eq]

/-- Each reference of a known definition becomes a capability of the schema. -/
theorem forall₂_uses
    (h : ∀ reference ∈ definition.references, (definition.scope registry).Knows reference) :
    List.Forall₂ (fun reference use => use.path = reference.path ∧ use.field = reference.field ∧
        (definition.scope registry).Means reference use.capability)
      definition.references
      (Field.listUses [] ((definition.scope registry).fields definition.fields)) := by
  have huses : Field.listUses [] ((definition.scope registry).fields definition.fields) =
      definition.references.filterMap (definition.scope registry).use? := by
    rw [Field.listUses_eq, Scope.fields_eq_map, List.flatMap_map, references,
      FieldDefinition.listReferences_eq, List.filterMap_flatMap]
    exact List.flatMap_congr fun field _ => Scope.uses_field _ field []
  rw [huses]
  refine forall₂_filterMap fun reference hmem => ?_
  obtain ⟨capability, hcapability⟩ := Option.isSome_iff_exists.1 (Scope.knows_iff.1 (h _ hmem))
  exact ⟨_, by rw [Scope.use?, hcapability, Option.map_some], rfl, rfl,
    Scope.means_iff.2 hcapability⟩

/-- Registries that agree on what a definition looks up give the same schema. -/
theorem toSchema_congr {registry registry' : Registry}
    (h : ∀ reference ∈ definition.references, (definition.scope registry).Consults reference →
      registry'.capability? reference.kind reference.name =
        registry.capability? reference.kind reference.name) :
    definition.toSchema registry' = definition.toSchema registry := by
  have hlookup : ∀ reference ∈ definition.references,
      (definition.scope registry').capability? reference.kind reference.name =
        (definition.scope registry).capability? reference.kind reference.name := by
    intro reference hmem
    by_cases hconsults : (definition.scope registry).Consults reference
    · have hentry := h reference hmem hconsults
      have hconsults' : (definition.scope registry').Consults reference := hconsults
      rw [Scope.capability?_of_consults hconsults, Scope.capability?_of_consults hconsults']
      exact hentry
    · -- a name that the definition itself declares never reaches the registry
      obtain ⟨-, type, hfirst, htype⟩ := Scope.exists_inline_of_hidden hconsults
      have hconsults' : ¬ (definition.scope registry').Consults reference := hconsults
      obtain ⟨-, type', hfirst', htype'⟩ := Scope.exists_inline_of_hidden hconsults'
      rw [htype, htype', Option.some.inj (hfirst.symm.trans hfirst')]
  have hfields : (definition.scope registry').fields definition.fields =
      (definition.scope registry).fields definition.fields := by
    rw [Scope.fields_eq_map, Scope.fields_eq_map]
    refine List.map_congr_left fun field hfield => ?_
    refine Scope.field_congr field [] fun reference hmem => hlookup reference ?_
    rw [references, FieldDefinition.listReferences_eq]
    exact List.mem_flatMap.2 ⟨field, hfield, hmem⟩
  rw [toSchema, toSchema, unknown_eq, unknown_eq, Scope.unresolved_congr hlookup, hfields]

/-- A definition has a schema exactly when each of its references leads somewhere. Otherwise those
that lead nowhere are reported, in document order and at the dotted paths of their fields. The
schema uses what the references lead to, and sees nothing of a registry but what is looked up. -/
theorem toSchema_resolves_references :
    ((∃ schema, definition.toSchema registry = .ok schema) ↔
        ∀ reference ∈ definition.references, (definition.scope registry).Knows reference) ∧
      (∀ error, definition.toSchema registry = .error error →
        error = ⟨definition.name, (definition.references.filter fun reference =>
          ¬ (definition.scope registry).Knows reference).map (·.unknown)⟩) ∧
      (∀ schema, definition.toSchema registry = .ok schema →
        List.Forall₂ (fun reference use => use.path = reference.path ∧
            use.field = reference.field ∧
            (definition.scope registry).Means reference use.capability)
          definition.references schema.uses) ∧
      ∀ registry', (∀ reference ∈ definition.references,
          (definition.scope registry).Consults reference →
            registry'.capability? reference.kind reference.name =
              registry.capability? reference.kind reference.name) →
        definition.toSchema registry' = definition.toSchema registry := by
  refine ⟨?_, fun error herror => ?_, fun schema hschema => ?_,
    fun registry' h => definition.toSchema_congr h⟩
  · rw [toSchema_eq]
    split
    · exact iff_of_true ⟨_, rfl⟩ ‹_›
    · exact iff_of_false nofun ‹_›
  · rw [toSchema_eq] at herror
    split at herror
    · cases herror
    · exact (Except.error.inj herror).symm
  · rw [toSchema_eq] at hschema
    split at hschema
    · rename_i hknown
      obtain rfl := Except.ok.inj hschema
      exact definition.forall₂_uses registry hknown
    · cases hschema

end Definition

/-- An enumeration of its own, an address below a union, and a rest of computed length. -/
def frameDefinition : Definition where
  name := "Frame"
  enumerations := [{ name := "Kind", backing := .u8 }]
  fields := [
    .mk "kind" (.enumeration "Kind") {},
    .mk "body" (.union [.mk "Address" [.mk "mac" (.composite "Eui48") {}]]) { size := some 6 },
    .mk "rest" .bytes { sizeFunction := some "rest_length" }]

/-- All that `frameDefinition` does not bring along. -/
def frameRegistry : Registry where
  composites := [⟨"Eui48", .byteArray (some 6)⟩]
  sizes := [⟨"rest_length", List.length⟩]

/-- Without a registry two names are unknown, one of them below the union; and a registered
enumeration does not replace that of the definition. -/
theorem frameDefinition_looked_up :
    frameDefinition.toSchema {} = .error ⟨"Frame",
      [.ofField "body.Address.mac" (.unknownCapability "composite" "Eui48"),
        .ofField "rest" (.unknownCapability "size function" "rest_length")]⟩ ∧
    ∃ schema, frameDefinition.toSchema frameRegistry = .ok schema ∧
      frameDefinition.toSchema
        (frameRegistry.addEnumeration { name := "Kind", backing := .u16 }) = .ok schema ∧
      List.Forall₂ (fun reference use => use.path = reference.path ∧
          use.field = reference.field ∧
          (frameDefinition.scope frameRegistry).Means reference use.capability)
        frameDefinition.references schema.uses := by
  obtain ⟨-, hreport, -⟩ := frameDefinition.toSchema_resolves_references {}
  obtain ⟨-, -, huses, hagree⟩ := frameDefinition.toSchema_resolves_references frameRegistry
  obtain ⟨error, herror⟩ : ∃ error, frameDefinition.toSchema {} = .error error := ⟨_, rfl⟩
  obtain ⟨schema, hschema⟩ : ∃ schema, frameDefinition.toSchema frameRegistry = .ok schema :=
    ⟨_, rfl⟩
  refine ⟨?_, schema, hschema, (hagree _ ?_).trans hschema, huses schema hschema⟩
  · rw [herror, hreport error herror]
    exact congrArg Except.error (by decide)
  · intro reference hmem hconsults
    have hreferences : frameDefinition.references =
      [⟨[], "kind", .enumeration, "Kind"⟩, ⟨[("body", "Address")], "mac", .composite, "Eui48"⟩,
        ⟨[], "rest", .size, "rest_length"⟩] := rfl
    simp only [hreferences, List.mem_cons, List.not_mem_nil, or_false] at hmem
    obtain rfl | rfl | rfl := hmem
    · -- the definition hides this name
      exact absurd rfl (hconsults rfl _ List.mem_cons_self)
    · rfl
    · rfl

end PacketLayout
