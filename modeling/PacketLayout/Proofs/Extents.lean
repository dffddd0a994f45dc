import PacketLayout.Proofs.BitUnits

/-!
# The bytes of a planned field

What is known in advance about the bytes that a field spans, from the way in which the field was
accepted.

* `Provider.wordWidth?` is the width of the word behind a number; `Resolved.sizeExpr_of_wordWidth?`
  says that the field spans just this word.
* `Resolved.extent?_of_not_dynamic` says that a size which does not depend on the buffer is known.
* `Resolved.slot_fits` says that bit-fields lie inside their words.
-/

namespace PacketLayout

/-! ## Sizes -/

namespace Size

theorem expr_of_fixed {size : Size} {count : Nat} (h : size.fixed = some count) (field : String)
    (offset : Expr) (slot : Option BitSlot) : size.expr field offset slot = .literal count := by
  cases size with
  | constant | intrinsic | external =>
    obtain rfl := Option.some.inj h
    rfl
  | computed | bitWidth | remainder => cases h

theorem fixed_of_bitWidth? {size : Size} {width : Nat} (h : size.bitWidth? = some width) :
    size.fixed = none := by
  cases size with
  | bitWidth => rfl
  | constant | intrinsic | external | computed | remainder => cases h

/-- A size that does not depend on the buffer is a number of bytes or of bits. -/
theorem fixed_or_bitWidth? {size : Size} (h : size.isDynamic = false) :
    (∃ count, size.fixed = some count) ∨ ∃ width, size.bitWidth? = some width := by
  cases size with
  | constant count | intrinsic count | external count => exact .inl ⟨count, rfl⟩
  | bitWidth width => exact .inr ⟨width, rfl⟩
  | computed | remainder => cases h

end Size

/-! ## Words -/

namespace Provider

/-- The bytes of the word behind a number: an integer, an enumeration or the unit of a bit-field. -/
def wordWidth? : Provider → Option Nat
  | scalar kind | enumeration _ kind => some kind.width
  | bitField slot _ => some slot.unit
  | composite _ | rawSlice => none

theorem wordWidth?_of_slot? {provider : Provider} {slot : BitSlot}
    (h : provider.slot? = some slot) : provider.wordWidth? = some slot.unit := by
  cases provider with
  | bitField =>
    obtain rfl := Option.some.inj h
    rfl
  | scalar | enumeration | composite | rawSlice => cases h

/-- A number spans its word. -/
theorem Source.expr_of_wordWidth? {decl : Declaration} {size : Size} {slot : Option BitSlot}
    {provider : Provider} {width : Nat} (h : Source decl size slot provider)
    (hwidth : provider.wordWidth? = some width) (field : String) (offset : Expr) :
    size.expr field offset slot = .literal width := by
  cases h with
  | scalar _ _ exact | enumeration _ _ exact =>
    obtain rfl := Option.some.inj hwidth
    exact Size.expr_of_fixed exact field offset slot
  | bitField bits slot_eq =>
    obtain rfl := Option.some.inj hwidth
    rw [slot_eq]
    exact Size.expr_of_bitWidth?_eq_some bits field offset _
  | composite | rawSlice => cases hwidth

/-- The size of a number does not depend on the buffer. -/
theorem Source.isDynamic_eq {decl : Declaration} {size : Size} {slot : Option BitSlot}
    {provider : Provider} {width : Nat} (h : Source decl size slot provider)
    (hwidth : provider.wordWidth? = some width) : size.isDynamic = false := by
  cases h with
  | scalar _ _ exact | enumeration _ _ exact =>
    cases size with
    | constant | intrinsic | external | bitWidth => rfl
    | computed | remainder => cases exact
  | bitField bits =>
    cases size with
    | constant | intrinsic | external | bitWidth => rfl
    | computed | remainder => cases bits
  | composite | rawSlice => cases hwidth

end Provider

/-! ## Fields -/

namespace Realizes

variable {readOnly : Bool} {field : Prepared} {planned : PlannedField}

/-- The leaf of a planned field has a provider that suits its size. -/
theorem source_of_leaf? (h : Realizes readOnly field planned) {leaf : Leaf}
    (hleaf : planned.leaf? = some leaf) :
    ∃ slot, planned.sizeExpr = planned.size.expr planned.name planned.offset slot ∧
      Provider.Source field.decl planned.size slot leaf.provider := by
  obtain ⟨slot, hexpr, hshapes⟩ := h.shape
  refine ⟨slot, hexpr, ?_⟩
  unfold PlannedField.leaf? at hleaf
  generalize planned.shape = shape at hleaf hshapes
  cases hshapes with
  | leaf plain provided =>
    obtain rfl := Option.some.inj hleaf
    exact Provider.source_of_resolve provided
  | union => cases hleaf

theorem sizeExpr_of_wordWidth? (h : Realizes readOnly field planned) {leaf : Leaf} {width : Nat}
    (hleaf : planned.leaf? = some leaf) (hwidth : leaf.provider.wordWidth? = some width) :
    planned.sizeExpr = .literal width := by
  obtain ⟨slot, hexpr, hsource⟩ := h.source_of_leaf? hleaf
  rw [hexpr]
  exact hsource.expr_of_wordWidth? hwidth _ _

theorem sizeExpr_of_slot? (h : Realizes readOnly field planned) {slot : BitSlot}
    (hslot : planned.slot? = some slot) : planned.sizeExpr = .literal slot.unit := by
  obtain ⟨leaf, hleaf, hprovider⟩ := Option.bind_eq_some_iff.1 hslot
  exact h.sizeExpr_of_wordWidth? hleaf (Provider.wordWidth?_of_slot? hprovider)

theorem sizeExpr_of_fixed (h : Realizes readOnly field planned) {count : Nat}
    (hfixed : planned.size.fixed = some count) : planned.sizeExpr = .literal count := by
  obtain ⟨slot, hexpr, -⟩ := h.shape
  rw [hexpr]
  exact Size.expr_of_fixed hfixed _ _ _

/-- A field with a size in bits has a slot for them. -/
theorem exists_slot? (h : Realizes readOnly field planned) {width : Nat}
    (hbits : planned.size.bitWidth? = some width) : ∃ slot, planned.slot? = some slot := by
  have hsource := Size.source_of_resolve h.size
  obtain ⟨slot, -, hshapes⟩ := h.shape
  unfold PlannedField.slot? PlannedField.leaf?
  generalize planned.shape = shape at hshapes
  cases hshapes with
  | leaf plain provided =>
    cases Provider.source_of_resolve provided with
    | @bitField _ place => exact ⟨place, rfl⟩
    | scalar bytes | enumeration bytes | composite bytes | rawSlice bytes =>
      rw [hbits] at bytes
      cases bytes
  | union anchor =>
    rw [hsource.bitWidth?] at hbits
    have hplain := (hsource.of_bits hbits).1
    rw [anchor] at hplain
    cases hplain

/-- A field whose size does not depend on the buffer spans a number of bytes that is known. -/
theorem extent?_of_not_dynamic (h : Realizes readOnly field planned)
    (hsize : planned.size.isDynamic = false) :
    ∃ count, planned.extent? = some count ∧ planned.sizeExpr = .literal count := by
  rcases Size.fixed_or_bitWidth? hsize with ⟨count, hfixed⟩ | ⟨width, hbits⟩
  · refine ⟨count, ?_, h.sizeExpr_of_fixed hfixed⟩
    rw [PlannedField.extent?, hfixed]
    rfl
  · obtain ⟨slot, hslot⟩ := h.exists_slot? hbits
    refine ⟨slot.unit, ?_, h.sizeExpr_of_slot? hslot⟩
    rw [PlannedField.extent?, Size.fixed_of_bitWidth? hbits, hslot]
    rfl

end Realizes

/-! ## Plans -/

theorem Plan.mem_of_field? {plan : Plan} {name : String} {field : PlannedField}
    (h : plan.field? name = some field) : field ∈ plan.fields :=
  List.mem_of_find?_eq_some h

theorem Plan.name_of_field? {plan : Plan} {name : String} {field : PlannedField}
    (h : plan.field? name = some field) : field.name = name := by
  have hname := List.find?_some h
  simpa using hname

namespace Resolved

variable {policy : MismatchPolicy} {schema : Schema} {plan : Plan} {planned : PlannedField}

theorem length_eq (h : Resolved policy schema plan) :
    schema.fields.length = plan.fields.length := by
  have hlength := congrArg List.length (schema.map_decl_prepared policy)
  rw [List.length_map, List.length_map] at hlength
  rw [← hlength, h.realizes.length_eq]

theorem map_fst_pairs (h : Resolved policy schema plan) :
    (schema.pairs plan).map (·.1) = schema.fields.map (·.decl) := by
  refine List.map_fst_zip (Nat.le_of_eq ?_)
  rw [List.length_map, h.length_eq]

theorem map_snd_pairs (h : Resolved policy schema plan) :
    (schema.pairs plan).map (·.2) = plan.fields := by
  refine List.map_snd_zip (Nat.le_of_eq ?_)
  rw [List.length_map, h.length_eq]

/-- Every planned field stands beside a declaration. -/
theorem exists_pair (h : Resolved policy schema plan) (hmem : planned ∈ plan.fields) :
    ∃ pair ∈ schema.pairs plan, pair.2 = planned := by
  rw [← h.map_snd_pairs] at hmem
  exact List.mem_map.1 hmem

theorem mem_of_pair (h : Resolved policy schema plan) {pair : Pair}
    (hpair : pair ∈ schema.pairs plan) : pair.2 ∈ plan.fields :=
  h.map_snd_pairs ▸ List.mem_map_of_mem hpair

/-- The name of a planned field is its own. -/
theorem field?_of_mem (h : Resolved policy schema plan) (hmem : planned ∈ plan.fields) :
    plan.field? planned.name = some planned := by
  have hdistinct : (plan.fields.map (·.name)).Nodup := h.names ▸ h.distinct
  exact find?_of_nodup hdistinct hmem

theorem realizes_of_pair (h : Resolved policy schema plan) {pair : Pair}
    (hpair : pair ∈ schema.pairs plan) :
    ∃ field, field.decl = pair.1 ∧ Realizes schema.readOnly field pair.2 := by
  rw [Schema.pairs, ← schema.map_decl_prepared policy, List.zip_map_left] at hpair
  obtain ⟨⟨field, planned⟩, hmem, rfl⟩ := List.mem_map.1 hpair
  exact ⟨field, rfl, List.forall₂_zip h.realizes hmem⟩

theorem realizes_of_mem (h : Resolved policy schema plan) (hmem : planned ∈ plan.fields) :
    ∃ field, Realizes schema.readOnly field planned := by
  obtain ⟨pair, hpair, rfl⟩ := h.exists_pair hmem
  obtain ⟨field, -, hrealizes⟩ := h.realizes_of_pair hpair
  exact ⟨field, hrealizes⟩

/-- A planned field has the position of its declaration. -/
theorem position_of_pair (h : Resolved policy schema plan) {pair : Pair}
    (hpair : pair ∈ schema.pairs plan) : pair.1.position = pair.2.layout.position := by
  obtain ⟨field, hdecl, hrealizes⟩ := h.realizes_of_pair hpair
  rw [← hdecl, hrealizes.position]

theorem sizeExpr_of_isRemainder (h : Resolved policy schema plan) (hmem : planned ∈ plan.fields)
    (hrest : planned.size.isRemainder = true) :
    planned.sizeExpr = .ofTerm (.remaining planned.offset) := by
  obtain ⟨field, hrealizes⟩ := h.realizes_of_mem hmem
  obtain ⟨slot, hexpr, -⟩ := hrealizes.shape
  rw [hexpr]
  cases hsize : planned.size with
  | remainder => rfl
  | constant | intrinsic | external | computed | bitWidth =>
    rw [hsize] at hrest
    cases hrest

/-- A bit-field lies inside its word. -/
theorem slot_fits (h : Resolved policy schema plan) (hmem : planned ∈ plan.fields)
    {slot : BitSlot} (hslot : planned.slot? = some slot) :
    slot.Fits ∧ slot.unit ≤ 8 ∧ slot.shift + slot.width ≤ 8 * slot.unit := by
  obtain ⟨pair, hpair, rfl⟩ := h.exists_pair hmem
  exact h.arranged.slot_fits hpair hslot

end Resolved

/-! ## Known ends -/

theorem le_foldl_max (list : List Nat) (start : Nat) :
    start ≤ list.foldl max start ∧ ∀ value ∈ list, value ≤ list.foldl max start := by
  induction list generalizing start with
  | nil => exact ⟨Nat.le_refl _, fun _ hmem => absurd hmem List.not_mem_nil⟩
  | cons value list ih =>
    obtain ⟨hstart, hlist⟩ := ih (max start value)
    refine ⟨Nat.le_trans (Nat.le_max_left _ _) hstart, fun other hmem => ?_⟩
    rcases List.mem_cons.1 hmem with rfl | hmem
    · exact Nat.le_trans (Nat.le_max_right _ _) hstart
    · exact hlist other hmem

/-- The minimum size of a plan reaches every end that is known in advance. -/
theorem Resolved.staticEnd_le {policy : MismatchPolicy} {schema : Schema} {plan : Plan}
    {planned : PlannedField} (h : Resolved policy schema plan) (hmem : planned ∈ plan.fields)
    {stop : Nat} (hstop : planned.staticEnd? = some stop) : stop ≤ plan.minimumSize := by
  rw [h.minimumSize_eq, minimumSize]
  -- the sum of the sizes alone would not do: fields may overlap or leave gaps
  refine Nat.le_trans ?_ (Nat.le_max_right _ _)
  exact (le_foldl_max _ 0).2 stop (List.mem_filterMap.2 ⟨planned, hmem, hstop⟩)

end PacketLayout
