import PacketLayout.Proofs.Extents
import PacketLayout.Proofs.Ranges

/-!
# The rules for one field

What a field must satisfy by itself to be given a shape, said without looking at the checks: a rule
for the integer behind a leaf, and rules for the alternates of an anchor. The checks report nothing
exactly when the rules hold.

* `LeafRules` are the rules for a leaf; `Provider.exists_resolve_iff` says that they are enough.
* `Positioned.unreported_iff` says that a placed field is reported unless it has a size and a shape.
-/

namespace PacketLayout

/-! ## Leaves -/

/-- The rules for the integer behind a leaf of a given size. -/
structure LeafRules (decl : Declaration) (size : Size) : Prop where
  /-- another integer is asked for only behind an enumeration, and none that is wider -/
  backing : ∀ requested, decl.enumBacking = some requested →
    ∃ type, decl.type = .enumeration type ∧ requested.width ≤ type.backing.width
  /-- an integer that is no bit-field has just the bytes of its width -/
  exact : size.bitWidth? = none → ∀ kind, decl.kind? = some kind → size.fixed = some kind.width

namespace Provider

theorem checkBacking_eq_ok_iff {decl : Declaration} :
    checkBacking decl = .ok () ↔ ∀ requested, decl.enumBacking = some requested →
      ∃ type, decl.type = .enumeration type ∧ requested.width ≤ type.backing.width := by
  unfold checkBacking
  cases hbacking : decl.enumBacking with
  | none => simp
  | some requested =>
    cases htype : decl.type with
    | enumeration type =>
      simp only [Option.some.injEq, FieldType.enumeration.injEq, exists_eq_left', forall_eq']
      split
      · rename_i hwider
        exact ⟨nofun, fun hle => absurd hwider (Nat.not_lt.2 hle)⟩
      · rename_i hle
        exact ⟨fun _ => Nat.not_lt.1 hle, fun _ => rfl⟩
    | integer | composite | bytes | byteArray => simp

theorem checkWidth_eq_ok_iff {typeName : String} {width : Nat} {size : Size}
    (hbytes : size.bitWidth? = none) :
    checkWidth typeName width size = .ok () ↔ size.fixed = some width := by
  refine ⟨fun h => fixed_of_checkWidth h hbytes, fun h => ?_⟩
  cases size with
  | constant | intrinsic | external =>
    obtain rfl := Option.some.inj h
    exact if_pos rfl
  | computed | bitWidth | remainder => cases h

/-- A leaf has a provider exactly when it follows the rules, if every bit-field has a slot. -/
theorem exists_resolve_iff {decl : Declaration} {size : Size} {slot : Option BitSlot}
    (hslot : size.bitWidth?.isSome = true → slot.isSome = true) :
    (∃ provider, resolve decl size slot = .ok provider) ↔ LeafRules decl size := by
  -- both sides ask for the backing first, so only the bytes of the number are left to compare
  suffices hexact : (∃ provider, resolve decl size slot = .ok provider) ↔
      checkBacking decl = .ok () ∧ (size.bitWidth? = none → ∀ kind, decl.kind? = some kind →
        size.fixed = some kind.width) by
    rw [hexact, checkBacking_eq_ok_iff]
    exact ⟨fun ⟨backing, exact⟩ => ⟨backing, exact⟩, fun h => ⟨h.backing, h.exact⟩⟩
  simp only [resolve, bind_eq_ok_iff]
  rw [exists_comm]
  simp only [exists_and_left]
  refine ⟨fun ⟨_, hbacking, hprovider⟩ => ⟨hbacking, ?_⟩,
    fun ⟨hbacking, hexact⟩ => ⟨(), hbacking, ?_⟩⟩
  · intro hbytes kind hkind
    simp only [hbytes] at hprovider
    obtain ⟨provider, hprovider⟩ := hprovider
    unfold Declaration.kind? at hkind
    cases htype : decl.type with
    | integer own =>
      simp only [htype, FieldType.kind?, Option.some.injEq, bind_eq_ok_iff] at hkind hprovider
      obtain ⟨_, hwidth, -⟩ := hprovider
      exact hkind ▸ fixed_of_checkWidth hwidth hbytes
    | enumeration type =>
      simp only [htype, Option.some.injEq, bind_eq_ok_iff] at hkind hprovider
      obtain ⟨_, hwidth, -⟩ := hprovider
      exact hkind ▸ fixed_of_checkWidth hwidth hbytes
    | composite | bytes | byteArray => simp [htype, FieldType.kind?] at hkind
  · cases hbits : size.bitWidth? with
    | some width =>
      obtain ⟨place, rfl⟩ := Option.isSome_iff_exists.1 (hslot (by rw [hbits]; rfl))
      cases decl.type <;> exact ⟨_, rfl⟩
    | none =>
      have hwidth := hexact hbits
      unfold Declaration.kind? at hwidth
      cases htype : decl.type with
      | integer kind =>
        simp only [htype, FieldType.kind?, Option.some.injEq, forall_eq'] at hwidth
        simp only [bind_eq_ok_iff]
        exact ⟨_, (), (checkWidth_eq_ok_iff hbits).2 hwidth, rfl⟩
      | enumeration type =>
        simp only [htype, Option.some.injEq, forall_eq'] at hwidth
        simp only [bind_eq_ok_iff]
        exact ⟨_, (), (checkWidth_eq_ok_iff hbits).2 hwidth, rfl⟩
      | composite | bytes | byteArray => exact ⟨_, rfl⟩

end Provider

/-! ## Anchors -/

/-- Nothing is reported about alternates that are resolved and fit. -/
theorem shapeAlternates_of_accepted {anchor : String} {available : Option Nat} {seen : List String}
    {alternates : List (String × Resolution)} {plans : List AlternatePlan}
    (hnames : ∀ alternate ∈ alternates, alternate.1 ≠ "" ∧ alternate.1 ∉ seen)
    (hdistinct : (alternates.map (·.1)).Nodup)
    (h : List.Forall₂ (AlternateAccepted available) alternates plans) :
    (shapeAlternates anchor available seen alternates).flatMap (·.diagnostics) = [] := by
  rw [shapeAlternates_eq_map hnames hdistinct, List.flatMap_map, List.flatMap_eq_nil_iff]
  intro alternate hmem
  obtain ⟨plan, -, haccepted⟩ := exists_right_of_forall₂ h hmem
  rw [haccepted.shapeAlternate_eq]

/-- An anchor has a shape when its alternates have distinct names and plans that fit. Words on it
that belong to leaves are reported, but do not stand in the way. -/
theorem exists_shapeUnion_iff {decl : Declaration} {size : Size}
    {alternates : List (String × Resolution)}
    (hexplains : ∀ alternate ∈ alternates, ∀ diagnostics,
      alternate.2.outcome = .error diagnostics → diagnostics ≠ []) :
    (∃ shape, (shapeUnion decl size alternates).shape = some shape) ↔
      alternates ≠ [] ∧ (∀ alternate ∈ alternates, alternate.1 ≠ "") ∧
        (alternates.map (·.1)).Nodup ∧
          ∃ plans, List.Forall₂ (AlternateAccepted size.fixed) alternates plans := by
  simp only [shapeUnion, Option.ite_none_right_eq_some, Option.some.injEq, exists_and_left,
    exists_eq', and_true, List.isEmpty_iff]
  cases alternates with
  | nil => simp
  | cons first rest =>
    simp only [if_neg (List.cons_ne_nil first rest)]
    constructor
    · intro h
      obtain ⟨⟨hdistinct, hnames⟩, hplans⟩ := shapeAlternates_accepted h hexplains
      exact ⟨List.cons_ne_nil _ _, fun alternate hmem => (hnames alternate hmem).1, hdistinct, _,
        hplans⟩
    · rintro ⟨-, hnamed, hdistinct, plans, hplans⟩
      exact shapeAlternates_of_accepted
        (fun alternate hmem => ⟨hnamed alternate hmem, List.not_mem_nil⟩) hdistinct hplans

/-! ## Placed fields -/

/-- A placed field is reported unless it has a size and a shape. -/
theorem Positioned.unreported_iff {readOnly : Bool} {unitWidth : Nat → Nat} {field : Positioned}
    (hexplains : field.field.Explains) :
    (field.settle readOnly unitWidth).diagnostics = [] ↔
      ∃ size shape, field.field.size = .ok size ∧
        Shapes readOnly field.field size (field.slot unitWidth) shape := by
  constructor
  · intro h
    obtain ⟨size, shape, hsize, hshapes, -⟩ := Positioned.settle_accepted h hexplains
    exact ⟨size, shape, hsize, hshapes⟩
  · rintro ⟨size, shape, hsize, hshapes⟩
    obtain ⟨⟨decl, alternates⟩, placement, isLast⟩ := field
    simp only [Positioned.settle, hsize]
    cases hshapes with
    | leaf plain provided =>
      subst plain
      change (shapeLeaf readOnly decl size
        (Positioned.slot unitWidth ⟨⟨decl, none⟩, placement, isLast⟩)).diagnostics = []
      rw [shapeLeaf, provided]
    | @union alternates _ anchor accessibility backing nonempty named distinct accepted =>
      subst anchor
      change (shapeUnion decl size alternates).diagnostics = []
      have hnames : ∀ alternate ∈ alternates, alternate.1 ≠ "" ∧ alternate.1 ∉ [] :=
        fun alternate hmem => ⟨named alternate hmem, List.not_mem_nil⟩
      have hempty : alternates.isEmpty = false := List.isEmpty_eq_false_iff.2 nonempty
      simp only [shapeUnion, hempty, show decl.accessibility = none from accessibility,
        show decl.enumBacking = none from backing,
        shapeAlternates_of_accepted hnames distinct accepted]
      rfl

end PacketLayout
