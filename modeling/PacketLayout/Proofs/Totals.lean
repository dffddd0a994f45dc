import Mathlib.Algebra.BigOperators.Group.Finset.Basic
import Mathlib.Order.Bounds.Basic
import PacketLayout.Proofs.BitFields
import PacketLayout.Proofs.Stretches

/-!
# Total and minimum size

The two sizes of a plan, read off its fields. A unit of bit-fields counts once in a sum, while each
of its members ends where the unit ends.

* `sumOfSizes` is a sum over fields and units, and `Arranged.sum_counted` says that the fields which
  count towards the total size are enough to compute it.
* `Expr.eval_foldl_plus` evaluates the total size on a buffer.
* `Tiled.ends_le` and `Tiled.exists_end` compare the ends of the fields with their sum, in a
  list without gaps.
* `Schema.sums_of_resolve` is the statement about plans.
-/

namespace PacketLayout

/-! ## Sums over fields -/

/-- The units of bit-fields, each with its number and its bytes. -/
def bitUnits (fields : List PlannedField) : Finset (Nat × Nat) :=
  (fields.filterMap fun field => field.slot?.map fun slot => (slot.group, slot.unit)).toFinset

/-- The sum of the sizes of all fields, where a unit of bit-fields counts once. -/
def sumOfSizes (size : PlannedField → Nat) (fields : List PlannedField) : Nat :=
  ((fields.filter (·.slot?.isNone)).map size).sum + ∑ unit ∈ bitUnits fields, unit.2

theorem mem_bitUnits {fields : List PlannedField} {unit : Nat × Nat} :
    unit ∈ bitUnits fields ↔
      ∃ field ∈ fields, ∃ slot, field.slot? = some slot ∧ (slot.group, slot.unit) = unit := by
  simp only [bitUnits, List.mem_toFinset, List.mem_filterMap, Option.map_eq_some_iff]

/-- Only the sizes of fields that are not bit-fields matter to a sum. -/
theorem sumOfSizes_congr {size size' : PlannedField → Nat} {fields : List PlannedField}
    (h : ∀ field ∈ fields, field.slot? = none → size field = size' field) :
    sumOfSizes size fields = sumOfSizes size' fields := by
  rw [sumOfSizes, sumOfSizes]
  congr 2
  refine List.map_congr_left fun field hmem => ?_
  obtain ⟨hfield, hslot⟩ := List.mem_filter.1 hmem
  exact h field hfield (Option.isNone_iff_eq_none.1 hslot)

theorem sumOfSizes_cons {field : PlannedField} (h : field.slot? = none)
    (size : PlannedField → Nat) (fields : List PlannedField) :
    sumOfSizes size (field :: fields) = size field + sumOfSizes size fields := by
  have hunits : bitUnits (field :: fields) = bitUnits fields := by
    rw [bitUnits, List.filterMap_cons, h]
    rfl
  have hfilter : (field :: fields).filter (·.slot?.isNone) =
      field :: fields.filter (·.slot?.isNone) :=
    List.filter_cons_of_pos (Option.isNone_iff_eq_none.2 h)
  rw [sumOfSizes, sumOfSizes, hunits, hfilter, List.map_cons, List.sum_cons, Nat.add_assoc]

namespace Packed

variable {group unit used widest used' widest' : Nat} {offset : Expr} {first : Pair}
  {members : List Pair}

theorem unit_eq (h : Packed group offset unit used widest members used' widest') {pair : Pair}
    (hmem : pair ∈ members) {slot : BitSlot} (hslot : pair.2.slot? = some slot) :
    (slot.group, slot.unit) = (group, unit) := by
  induction h with
  | nil => cases hmem
  | cons _ _ _ _ _ _ slot_eq _ ih =>
    rcases List.mem_cons.1 hmem with rfl | hmem
    · obtain rfl := Option.some.inj (slot_eq.symm.trans hslot)
      rfl
    · exact ih hmem

/-- All members together are one unit. -/
theorem bitUnits_append
    (h : Packed group offset unit used widest (first :: members) used' widest')
    (rest : List PlannedField) :
    bitUnits ((first :: members).map (·.2) ++ rest) = insert (group, unit) (bitUnits rest) := by
  ext other
  rw [Finset.mem_insert, mem_bitUnits, mem_bitUnits]
  constructor
  · rintro ⟨field, hmem, slot, hslot, hother⟩
    rcases List.mem_append.1 hmem with hmem | hmem
    · obtain ⟨pair, hpair, rfl⟩ := List.mem_map.1 hmem
      exact .inl (hother.symm.trans (h.unit_eq hpair hslot))
    · exact .inr ⟨field, hmem, slot, hslot, hother⟩
  · rintro (rfl | ⟨field, hmem, hunit⟩)
    · obtain ⟨slot, hslot, -, -⟩ := h.exists_slot? List.mem_cons_self
      exact ⟨first.2, List.mem_cons_self, slot, hslot, h.unit_eq List.mem_cons_self hslot⟩
    · exact ⟨field, List.mem_append_right _ hmem, hunit⟩

/-- A unit adds its bytes to a sum. -/
theorem sumOfSizes_append
    (h : Packed group offset unit used widest (first :: members) used' widest')
    {rest : List PlannedField} (hrest : (group, unit) ∉ bitUnits rest)
    (size : PlannedField → Nat) :
    sumOfSizes size ((first :: members).map (·.2) ++ rest) = unit + sumOfSizes size rest := by
  have hmembers : ((first :: members).map (·.2)).filter (·.slot?.isNone) = [] := by
    refine List.filter_eq_nil_iff.2 fun field hmem hnone => ?_
    obtain ⟨pair, hpair, rfl⟩ := List.mem_map.1 hmem
    obtain ⟨slot, hslot, -, -⟩ := h.exists_slot? hpair
    rw [hslot] at hnone
    cases hnone
  rw [sumOfSizes, h.bitUnits_append, Finset.sum_insert hrest, List.filter_append, hmembers,
    List.nil_append, sumOfSizes, Nat.add_left_comm]

end Packed

namespace Arranged

variable {policy : MismatchPolicy} {next : Expr} {units : Nat} {pairs : List Pair}

/-- The fields that count towards the total size stand for all fields and units. -/
theorem sum_counted (h : Arranged policy next units pairs) {size : PlannedField → Nat}
    (hsize : ∀ pair ∈ pairs, ∀ slot, pair.2.slot? = some slot → size pair.2 = slot.unit)
    {seen : List Nat} (hseen : ∀ group ∈ seen, group < units) :
    ((countedFrom seen (pairs.map (·.2))).map size).sum = sumOfSizes size (pairs.map (·.2)) := by
  induction h generalizing seen with
  | nil => rfl
  | single _ slot _ _ _ _ _ _ ih =>
    have hrest := ih (fun pair hmem => hsize pair (List.mem_cons_of_mem _ hmem)) hseen
    rw [List.map_cons, countedFrom, slot, sumOfSizes_cons slot, ← hrest]
    rfl
  | @unit next units used width decl field members rest _ _ packed _ more ih =>
    have hseen' : ∀ group ∈ units :: seen, group < units + 1 := List.forall_mem_cons.2
      ⟨Nat.lt_succ_self _, fun group hmem => Nat.lt_succ_of_lt (hseen group hmem)⟩
    -- the units behind have greater numbers
    have hnew : (units, width) ∉ bitUnits (rest.map (·.2)) := by
      intro hmem
      obtain ⟨other, hother, slot, hslot, heq⟩ := mem_bitUnits.1 hmem
      obtain ⟨pair, hpair, rfl⟩ := List.mem_map.1 hother
      have hgroup : slot.group = units := congrArg Prod.fst heq
      have := more.units_le_group hpair hslot
      omega
    have hrest := ih (fun pair hmem => hsize pair (List.mem_append_right _ hmem)) hseen'
    obtain ⟨slot, hslot, -, -⟩ := packed.exists_slot? List.mem_cons_self
    have hfirst : size field = width :=
      (hsize _ List.mem_cons_self slot hslot).trans
        (congrArg Prod.snd (packed.unit_eq List.mem_cons_self hslot))
    rw [List.map_append, packed.countedFrom_append hseen, packed.sumOfSizes_append hnew, ← hrest,
      List.map_cons, List.sum_cons, hfirst]

/-- No two units have the same number. -/
theorem injOn_bitUnits (h : Arranged policy next units pairs) :
    Set.InjOn Prod.fst (bitUnits (pairs.map (·.2)) : Set (Nat × Nat)) := by
  intro a ha b hb heq
  obtain ⟨field, hfield, slot, hslot, rfl⟩ := mem_bitUnits.1 (Finset.mem_coe.1 ha)
  obtain ⟨other, hother, slot', hslot', rfl⟩ := mem_bitUnits.1 (Finset.mem_coe.1 hb)
  obtain ⟨pair, hpair, rfl⟩ := List.mem_map.1 hfield
  obtain ⟨offset, used, members, hpacked, -, -, -, hmembers⟩ := h.exists_packed hpair hslot
  have hmem : (other, slot') ∈ unitMembers (pairs.map (·.2)) slot.group :=
    mem_unitMembers.2 ⟨hother, hslot', heq.symm⟩
  rw [hmembers] at hmem
  obtain ⟨sibling, hsibling, rfl⟩ := List.mem_map.1 (mem_unitMembers.1 hmem).1
  exact (hpacked.unit_eq hsibling hslot').symm

end Arranged

/-! ## Terms -/

/-- The part of the total size that a field of dynamic size adds. -/
def PlannedField.dynamicTerm? (field : PlannedField) : Option Term :=
  match field.size with
  | .computed function => some (.sizeOf field.name function)
  | .remainder => some (.remaining field.offset)
  | .constant _ | .intrinsic _ | .external _ | .bitWidth _ => none

theorem PlannedField.isSome_dynamicTerm? (field : PlannedField) :
    field.dynamicTerm?.isSome = field.size.isDynamic := by
  unfold dynamicTerm?
  cases field.size <;> rfl

namespace Realizes

variable {readOnly : Bool} {field : Prepared} {planned : PlannedField}

theorem terms_sizeExpr (h : Realizes readOnly field planned) :
    planned.sizeExpr.terms = planned.dynamicTerm?.toList := by
  obtain ⟨slot, hexpr, -⟩ := h.shape
  rw [hexpr, PlannedField.dynamicTerm?]
  cases planned.size <;> rfl

theorem bitWidth?_of_slot? (h : Realizes readOnly field planned) (hslot : planned.slot? = none) :
    planned.size.bitWidth? = none := by
  cases hbits : planned.size.bitWidth? with
  | none => rfl
  | some width =>
    obtain ⟨slot, hsome⟩ := h.exists_slot? hbits
    rw [hslot] at hsome
    cases hsome

theorem constant_sizeExpr (h : Realizes readOnly field planned) (hslot : planned.slot? = none) :
    planned.sizeExpr.constant = planned.size.fixed.getD 0 := by
  obtain ⟨slot, hexpr, -⟩ := h.shape
  rw [hexpr]
  exact Size.constant_expr (h.bitWidth?_of_slot? hslot) _ _ _

/-- The extent of a field is its size in bytes, or that of its unit. -/
theorem extent?_eq_some_iff (h : Realizes readOnly field planned) {count : Nat} :
    planned.extent? = some count ↔
      planned.size.fixed = some count ∨ planned.slot?.map (·.unit) = some count := by
  rw [PlannedField.extent?]
  cases hfixed : planned.size.fixed with
  | none => simp
  | some bytes =>
    refine ⟨.inl, ?_⟩
    rintro (hcount | hunit)
    · exact hcount
    · obtain ⟨slot, hslot, rfl⟩ := Option.map_eq_some_iff.1 hunit
      have hexpr := (h.sizeExpr_of_fixed hfixed).symm.trans (h.sizeExpr_of_slot? hslot)
      exact congrArg some (Expr.literal_inj hexpr)

theorem extent?_of_slot? (h : Realizes readOnly field planned) {slot : BitSlot}
    (hslot : planned.slot? = some slot) : planned.extent? = some slot.unit :=
  h.extent?_eq_some_iff.2 (.inr (congrArg (Option.map (·.unit)) hslot))

theorem sizeExpr_of_extent? (h : Realizes readOnly field planned) {count : Nat}
    (hextent : planned.extent? = some count) : planned.sizeExpr = .literal count := by
  rcases h.extent?_eq_some_iff.1 hextent with hfixed | hunit
  · exact h.sizeExpr_of_fixed hfixed
  · obtain ⟨slot, hslot, rfl⟩ := Option.map_eq_some_iff.1 hunit
    exact h.sizeExpr_of_slot? hslot

/-- Nothing is known in advance about a field whose size depends on the buffer. -/
theorem of_dynamic (h : Realizes readOnly field planned) (hsize : planned.size.isDynamic = true) :
    planned.extent? = none ∧ planned.sizeExpr.constant = 0 := by
  have hfixed : planned.size.fixed = none := by
    cases hcount : planned.size.fixed with
    | none => rfl
    | some count =>
      rw [Size.isDynamic_of_fixed hcount] at hsize
      cases hsize
  have hslot : planned.slot? = none := by
    cases hplanned : planned.slot? with
    | none => rfl
    | some slot =>
      have hterms := h.terms_sizeExpr
      rw [h.sizeExpr_of_slot? hplanned, Expr.terms_literal] at hterms
      rw [← planned.isSome_dynamicTerm?, Option.toList_eq_nil_iff.1 hterms.symm] at hsize
      cases hsize
  constructor
  · rw [PlannedField.extent?, hfixed, hslot]
    rfl
  · rw [h.constant_sizeExpr hslot, hfixed]
    rfl

/-- What is known in advance of the bytes of a field is the constant of its size. -/
theorem getD_extent? (h : Realizes readOnly field planned) :
    planned.extent?.getD 0 = planned.sizeExpr.constant := by
  cases hdynamic : planned.size.isDynamic with
  | true =>
    obtain ⟨hextent, hconstant⟩ := h.of_dynamic hdynamic
    rw [hextent, hconstant]
    rfl
  | false =>
    obtain ⟨count, hextent, hsize⟩ := h.extent?_of_not_dynamic hdynamic
    rw [hextent, hsize]
    rfl

/-- The end of a field is known where its offset and its size are. -/
theorem staticEnd?_eq_some_iff (h : Realizes readOnly field planned) {stop : Nat} :
    planned.staticEnd? = some stop ↔ planned.offset.plus planned.sizeExpr = .literal stop := by
  rw [PlannedField.staticEnd?_eq, Option.bind_eq_some_iff]
  constructor
  · rintro ⟨start, hstart, hstop⟩
    obtain ⟨count, hextent, rfl⟩ := Option.map_eq_some_iff.1 hstop
    exact Expr.plus_eq_literal (Expr.static?_eq_some_iff.1 hstart) (h.sizeExpr_of_extent? hextent)
  · intro hplus
    have hterms := congrArg Expr.terms hplus
    rw [Expr.terms_plus, Expr.terms_literal, List.append_eq_nil_iff, h.terms_sizeExpr] at hterms
    obtain ⟨hoffset, hsize⟩ := hterms
    have hstatic : planned.size.isDynamic = false := by
      rw [← planned.isSome_dynamicTerm?, Option.toList_eq_nil_iff.1 hsize]
      rfl
    obtain ⟨count, hextent, hcount⟩ := h.extent?_of_not_dynamic hstatic
    have hstart : planned.offset.static? = some planned.offset.constant :=
      if_pos (List.isEmpty_iff.2 hoffset)
    have hconstant := congrArg Expr.constant hplus
    rw [hcount] at hconstant
    exact ⟨_, hstart, Option.map_eq_some_iff.2 ⟨count, hextent, hconstant⟩⟩

end Realizes

/-- The terms of a sum of expressions are theirs, in order. -/
theorem Expr.terms_foldl_plus {α : Type} (summand : α → Expr) (list : List α) (start : Expr) :
    (list.foldl (fun total a => total.plus (summand a)) start).terms =
      start.terms ++ list.flatMap fun a => (summand a).terms := by
  induction list generalizing start with
  | nil => exact (List.append_nil _).symm
  | cons a list ih =>
    rw [List.foldl_cons, ih, Expr.terms_plus, List.flatMap_cons, List.append_assoc]

/-- Nothing is lost with the fields that do not count, if bit-fields add nothing. -/
theorem flatMap_countedFrom {α : Type} {f : PlannedField → List α} {fields : List PlannedField}
    (h : ∀ field ∈ fields, ∀ slot, field.slot? = some slot → f field = []) (seen : List Nat) :
    (countedFrom seen fields).flatMap f = fields.flatMap f := by
  induction fields generalizing seen with
  | nil => rfl
  | cons field fields ih =>
    rw [List.forall_mem_cons] at h
    rw [countedFrom, List.flatMap_cons]
    cases hslot : field.slot? with
    | none => exact congrArg (f field ++ ·) (ih h.2 seen)
    | some slot =>
      rw [h.1 slot hslot, List.nil_append]
      by_cases hseen : slot.group ∈ seen
      · simp only [hseen, if_true]
        exact ih h.2 seen
      · simp only [hseen, if_false]
        rw [List.flatMap_cons, h.1 slot hslot, List.nil_append, ih h.2]

/-! ## Evaluation -/

/-- A sum of expressions is the sum of their numbers, if it is in range. -/
theorem Expr.eval_foldl_plus {α : Type} {data : Bytes} {summand : α → Expr} {number : α → Nat}
    {list : List α} (h : ∀ a ∈ list, (summand a).eval data = .ok (number a)) {start : Expr}
    {first : Nat} (hstart : start.eval data = .ok first)
    (hlt : first + (list.map number).sum < wordLimit) :
    (list.foldl (fun total a => total.plus (summand a)) start).eval data =
      .ok (first + (list.map number).sum) := by
  induction list generalizing start first with
  | nil => exact hstart
  | cons a list ih =>
    rw [List.forall_mem_cons] at h
    rw [List.map_cons, List.sum_cons, ← Nat.add_assoc] at hlt ⊢
    exact ih h.2 (Expr.eval_plus hstart h.1 (Nat.lt_of_le_of_lt (Nat.le_add_right _ _) hlt)) hlt

/-! ## Ends in a list without gaps -/

/-- A list in which every field stands at the implied offset has no gaps. -/
theorem Arranged.tiled_of_sequential {policy : MismatchPolicy} {next : Expr} {units : Nat}
    {pairs : List Pair} (h : Arranged policy next units pairs)
    (hsequential : ∀ pair ∈ pairs, pair.1.position = .sequential) :
    ∃ stop, Tiled next units pairs stop := by
  induction h with
  | nil next units => exact ⟨next, .nil next units⟩
  | @single next units decl isAnchor field rest _ slot _ _ offset_eq _ last _ ih =>
    have hoffset : field.offset = next := by
      rw [offset_eq, hsequential _ List.mem_cons_self]
      rfl
    obtain ⟨stop, hmore⟩ := ih fun pair hmem => hsequential pair (List.mem_cons_of_mem _ hmem)
    rw [hoffset] at hmore
    exact ⟨stop, .single slot hoffset last hmore⟩
  | @unit next units used width decl field members rest offset_eq _ packed fits _ ih =>
    have hoffset : field.offset = next := by
      rw [offset_eq, hsequential _ List.mem_cons_self]
      rfl
    rw [hoffset] at packed ih
    obtain ⟨stop, hmore⟩ := ih fun pair hmem => hsequential pair (List.mem_append_right _ hmem)
    exact ⟨stop, .unit packed fits hmore⟩

namespace Tiled

variable {next stop : Expr} {units : Nat} {pairs : List Pair}

/-- As far as the sizes are known, no field ends behind the list. -/
theorem ends_le (h : Tiled next units pairs stop) :
    next.constant ≤ stop.constant ∧
      ∀ pair ∈ pairs, pair.2.offset.constant + pair.2.sizeExpr.constant ≤ stop.constant := by
  induction h with
  | nil next => exact ⟨Nat.le_refl _, fun _ hmem => absurd hmem List.not_mem_nil⟩
  | @single next stop units decl field rest _ offset_eq _ _ ih =>
    obtain ⟨hnext, hrest⟩ := ih
    rw [Expr.constant_plus] at hnext
    refine ⟨Nat.le_of_add_right_le hnext, fun pair hmem => ?_⟩
    rcases List.mem_cons.1 hmem with rfl | hmem
    · rw [offset_eq]
      exact hnext
    · exact hrest pair hmem
  | @unit next stop units used width first members rest packed _ _ ih =>
    obtain ⟨hnext, hrest⟩ := ih
    rw [Expr.constant_plusConstant] at hnext
    refine ⟨Nat.le_of_add_right_le hnext, fun pair hmem => ?_⟩
    rcases List.mem_append.1 hmem with hmem | hmem
    · obtain ⟨-, -, -, hsize⟩ := packed.exists_slot? hmem
      rw [packed.offset_eq pair hmem, hsize]
      exact hnext
    · exact hrest pair hmem

variable {readOnly : Bool}

/-- Fields whose sizes all depend on the buffer add nothing that is known in advance. -/
theorem constant_of_dynamic (h : Tiled next units pairs stop)
    (hrealizes : ∀ pair ∈ pairs, ∃ field, Realizes readOnly field pair.2)
    (hdynamic : ∀ pair ∈ pairs, pair.2.size.isDynamic = true) :
    stop.constant = next.constant := by
  induction h with
  | nil => rfl
  | single _ _ _ _ ih =>
    obtain ⟨field, hfield⟩ := hrealizes _ List.mem_cons_self
    rw [ih (fun pair hmem => hrealizes pair (List.mem_cons_of_mem _ hmem))
      (fun pair hmem => hdynamic pair (List.mem_cons_of_mem _ hmem)), Expr.constant_plus,
      (hfield.of_dynamic (hdynamic _ List.mem_cons_self)).2, Nat.add_zero]
  | unit packed =>
    -- the bytes of a unit are known
    obtain ⟨field, hfield⟩ := hrealizes _ List.mem_cons_self
    obtain ⟨slot, hslot, -, -⟩ := packed.exists_slot? List.mem_cons_self
    have hextent := hfield.extent?_of_slot? hslot
    rw [(hfield.of_dynamic (hdynamic _ List.mem_cons_self)).1] at hextent
    cases hextent

/-- A field ends at the sum of all known sizes, if no field of known size stands behind one whose
size depends on the buffer. -/
theorem exists_end (h : Tiled next units pairs stop) {first : Nat} (hnext : next = .literal first)
    (hrealizes : ∀ pair ∈ pairs, ∃ field, Realizes readOnly field pair.2)
    (hpairs : pairs.Pairwise fun a b =>
      a.2.size.isDynamic = true → b.2.size.isDynamic = true) :
    stop.constant = first ∨ ∃ pair ∈ pairs, pair.2.staticEnd? = some stop.constant := by
  induction h generalizing first with
  | nil => exact .inl (congrArg Expr.constant hnext)
  | @single next stop units decl field rest _ offset_eq _ more ih =>
    have hrest : ∀ pair ∈ rest, ∃ field, Realizes readOnly field pair.2 := fun pair hmem =>
      hrealizes pair (List.mem_cons_of_mem _ hmem)
    obtain ⟨hhead, htail⟩ := List.pairwise_cons.1 hpairs
    obtain ⟨origin, horigin⟩ := hrealizes _ List.mem_cons_self
    cases hsize : field.size.isDynamic with
    | true =>
      left
      rw [more.constant_of_dynamic hrest fun pair hmem => hhead pair hmem hsize,
        Expr.constant_plus, (horigin.of_dynamic hsize).2, hnext]
      rfl
    | false =>
      obtain ⟨count, -, hcount⟩ := horigin.extent?_of_not_dynamic hsize
      have hafter := Expr.plus_eq_literal hnext hcount
      right
      rcases ih hafter hrest htail with hstop | ⟨pair, hmem, hend⟩
      · rw [← offset_eq] at hafter
        exact ⟨_, List.mem_cons_self, hstop ▸ horigin.staticEnd?_eq_some_iff.2 hafter⟩
      · exact ⟨pair, List.mem_cons_of_mem _ hmem, hend⟩
  | @unit next stop units used width head members rest packed _ more ih =>
    obtain ⟨-, htail, -⟩ := List.pairwise_append.1 hpairs
    have hafter : next.plusConstant width = .literal (first + width) := hnext ▸ rfl
    right
    rcases ih hafter (fun pair hmem => hrealizes pair (List.mem_append_right _ hmem)) htail with
      hstop | ⟨pair, hmem, hend⟩
    · obtain ⟨origin, horigin⟩ := hrealizes head List.mem_cons_self
      obtain ⟨-, -, -, hsize⟩ := packed.exists_slot? List.mem_cons_self
      rw [← Expr.plus_literal, ← hsize, ← packed.offset_eq head List.mem_cons_self] at hafter
      exact ⟨head, List.mem_cons_self, hstop ▸ horigin.staticEnd?_eq_some_iff.2 hafter⟩
    · exact ⟨pair, List.mem_append_right _ hmem, hend⟩

end Tiled

/-! ## The largest of some numbers -/

theorem foldl_max_eq_or_mem (list : List Nat) (start : Nat) :
    list.foldl max start = start ∨ list.foldl max start ∈ list := by
  induction list generalizing start with
  | nil => exact .inl rfl
  | cons value list ih =>
    rw [List.foldl_cons]
    rcases ih (max start value) with hmax | hmem
    · rw [hmax]
      rcases max_choice start value with hstart | hvalue
      · exact .inl hstart
      · exact .inr (hvalue.symm ▸ List.mem_cons_self)
    · exact .inr (List.mem_cons_of_mem _ hmem)

theorem isGreatest_foldl_max (list : List Nat) (start : Nat) :
    IsGreatest (insert start {value | value ∈ list}) (list.foldl max start) := by
  obtain ⟨hstart, hlist⟩ := le_foldl_max list start
  refine ⟨foldl_max_eq_or_mem list start, ?_⟩
  rintro value (rfl | hmem)
  · exact hstart
  · exact hlist value hmem

/-! ## Plans -/

/-- Where the fields of a list end, as far as it is known in advance: at an offset and a size, or
the bytes of a unit, that do not depend on the buffer. -/
def knownEnds (fields : List PlannedField) : Set Nat :=
  {stop | ∃ field ∈ fields, ∃ start count, field.offset = .literal start ∧
    (field.size.fixed = some count ∨ field.slot?.map (·.unit) = some count) ∧ stop = start + count}

/-- The sizes of a plan are sums and ends of its fields. -/
structure Plan.Sums (plan : Plan) : Prop where
  /-- no two units have the same number, so each is in a sum once -/
  units : Set.InjOn Prod.fst (bitUnits plan.fields : Set (Nat × Nat))
  constant : plan.totalSize.constant = sumOfSizes (·.size.fixed.getD 0) plan.fields
  terms : plan.totalSize.terms = plan.fields.filterMap (·.dynamicTerm?)
  minimumSize : IsGreatest (insert plan.totalSize.constant (knownEnds plan.fields)) plan.minimumSize
  sequential : (∀ field ∈ plan.fields, field.layout.position = .sequential) →
    plan.minimumSize = plan.totalSize.constant
  /-- without a field of known size behind one of dynamic size, the last known end is the sum -/
  furthestEnd : (∀ field ∈ plan.fields, field.layout.position = .sequential) →
    (plan.fields.Pairwise fun a b => a.size.isDynamic = true → b.size.isDynamic = true) →
    IsGreatest (insert 0 (knownEnds plan.fields)) plan.totalSize.constant
  evaluated : ∀ (data : Bytes) (size : PlannedField → Nat),
    (∀ field ∈ plan.fields, field.sizeExpr.eval data = .ok (size field)) →
    sumOfSizes size plan.fields < wordLimit →
    View.totalSize ⟨plan, data⟩ = .ok (sumOfSizes size plan.fields)

namespace Resolved

variable {policy : MismatchPolicy} {schema : Schema} {plan : Plan}

theorem mem_knownEnds (h : Resolved policy schema plan) {stop : Nat} :
    stop ∈ knownEnds plan.fields ↔ stop ∈ plan.fields.filterMap (·.staticEnd?) := by
  rw [List.mem_filterMap]
  constructor
  · rintro ⟨field, hmem, start, count, hoffset, hcount, rfl⟩
    obtain ⟨origin, hrealizes⟩ := h.realizes_of_mem hmem
    refine ⟨field, hmem, ?_⟩
    rw [PlannedField.staticEnd?, hoffset, Expr.static?_eq_some_iff.2 rfl,
      hrealizes.extent?_eq_some_iff.2 hcount]
  · rintro ⟨field, hmem, hstop⟩
    obtain ⟨origin, hrealizes⟩ := h.realizes_of_mem hmem
    rw [PlannedField.staticEnd?] at hstop
    split at hstop
    · rename_i start count hoffset hcount
      exact ⟨field, hmem, start, count, Expr.static?_eq_some_iff.1 hoffset,
        hrealizes.extent?_eq_some_iff.1 hcount, (Option.some.inj hstop).symm⟩
    · cases hstop

/-- The total size at the sizes of the fields that count. -/
theorem sum_counted (h : Resolved policy schema plan) {size : PlannedField → Nat}
    (hsize : ∀ field ∈ plan.fields, ∀ slot, field.slot? = some slot → size field = slot.unit) :
    ((counted plan.fields).map size).sum = sumOfSizes size plan.fields := by
  rw [← h.map_snd_pairs]
  exact h.arranged.sum_counted (fun pair hmem => hsize pair.2 (h.mem_of_pair hmem)) fun _ hmem =>
    absurd hmem List.not_mem_nil

theorem constant_totalSize (h : Resolved policy schema plan) :
    plan.totalSize.constant = sumOfSizes (·.size.fixed.getD 0) plan.fields := by
  rw [h.totalSize_eq, PacketLayout.constant_totalSize, h.sum_counted]
  · refine sumOfSizes_congr fun field hmem hslot => ?_
    obtain ⟨origin, hrealizes⟩ := h.realizes_of_mem hmem
    exact hrealizes.constant_sizeExpr hslot
  · intro field hmem slot hslot
    obtain ⟨origin, hrealizes⟩ := h.realizes_of_mem hmem
    exact congrArg Expr.constant (hrealizes.sizeExpr_of_slot? hslot)

theorem terms_totalSize (h : Resolved policy schema plan) :
    plan.totalSize.terms = plan.fields.filterMap (·.dynamicTerm?) := by
  have hterms : ∀ field ∈ plan.fields, field.sizeExpr.terms = field.dynamicTerm?.toList := by
    intro field hmem
    obtain ⟨origin, hrealizes⟩ := h.realizes_of_mem hmem
    exact hrealizes.terms_sizeExpr
  calc plan.totalSize.terms
      = (counted plan.fields).flatMap fun field => field.sizeExpr.terms := by
        rw [h.totalSize_eq, totalSize, Expr.terms_foldl_plus]
        rfl
    _ = plan.fields.flatMap fun field => field.sizeExpr.terms := by
        refine flatMap_countedFrom (fun field hmem slot hslot => ?_) []
        obtain ⟨origin, hrealizes⟩ := h.realizes_of_mem hmem
        rw [hrealizes.sizeExpr_of_slot? hslot, Expr.terms_literal]
    _ = plan.fields.filterMap (·.dynamicTerm?) := by
        rw [List.filterMap_eq_flatMap_toList]
        exact List.flatMap_congr hterms

theorem isGreatest_furthestEnd (h : Resolved policy schema plan) :
    IsGreatest (insert 0 (knownEnds plan.fields)) (PacketLayout.furthestEnd plan.fields) := by
  have hends : knownEnds plan.fields = {stop | stop ∈ plan.fields.filterMap (·.staticEnd?)} :=
    Set.ext fun _ => h.mem_knownEnds
  rw [hends]
  exact isGreatest_foldl_max _ 0

theorem isGreatest_minimumSize (h : Resolved policy schema plan) :
    IsGreatest (insert plan.totalSize.constant (knownEnds plan.fields)) plan.minimumSize := by
  have hmax : plan.minimumSize =
      max plan.totalSize.constant (PacketLayout.furthestEnd plan.fields) := by
    have hknown : knownSum plan.fields = (totalSize plan.fields).constant := by
      refine knownSum_eq_constant fun field hfield => ?_
      obtain ⟨origin, hrealizes⟩ := h.realizes_of_mem hfield
      exact hrealizes.getD_extent?
    rw [h.minimumSize_eq, PacketLayout.minimumSize, hknown, ← h.totalSize_eq]
  obtain ⟨hmem, hle⟩ := h.isGreatest_furthestEnd.insert plan.totalSize.constant
  rw [← hmax] at hmem hle
  refine ⟨?_, fun stop hstop => hle ?_⟩
  · rcases hmem with hconstant | hzero | hend
    · exact .inl hconstant
    · -- a minimum of nothing is the constant
      have hconstant := hle (Set.mem_insert _ _)
      rw [hzero] at hconstant ⊢
      exact .inl (Nat.le_zero.1 hconstant).symm
    · exact .inr hend
  · exact Set.insert_subset_insert (Set.subset_insert _ _) hstop

/-- A minimum size is a 64-bit number. -/
theorem minimumSize_lt (h : Resolved policy schema plan) : plan.minimumSize < wordLimit := by
  rcases h.isGreatest_minimumSize.1 with hconstant | hend
  · rw [hconstant]
    exact h.total_bounded
  · obtain ⟨field, hmem, hstop⟩ := List.mem_filterMap.1 (h.mem_knownEnds.1 hend)
    obtain ⟨origin, hrealizes⟩ := h.realizes_of_mem hmem
    have hbound := h.bounded field hmem
    have hplus := congrArg Expr.constant (hrealizes.staticEnd?_eq_some_iff.1 hstop)
    rw [Expr.constant_plus, Expr.constant_literal] at hplus
    rwa [hplus] at hbound

/-- A plan in which every field stands at the implied offset has no gaps. -/
theorem tiled_of_sequential (h : Resolved policy schema plan)
    (hsequential : ∀ field ∈ plan.fields, field.layout.position = .sequential) :
    Tiled .zero 0 (schema.pairs plan) plan.totalSize := by
  obtain ⟨stop, htiled⟩ := h.arranged.tiled_of_sequential fun pair hmem =>
    (h.position_of_pair hmem).trans (hsequential pair.2 (h.mem_of_pair hmem))
  have hstop := htiled.totalSize_eq
  rw [h.map_snd_pairs, ← h.totalSize_eq] at hstop
  rw [hstop]
  exact htiled

/-- No known end lies behind the sum of all known sizes, in a plan without gaps. -/
theorem knownEnds_le (h : Resolved policy schema plan)
    (hsequential : ∀ field ∈ plan.fields, field.layout.position = .sequential) :
    ∀ stop ∈ knownEnds plan.fields, stop ≤ plan.totalSize.constant := by
  rintro _ ⟨field, hmem, start, count, hoffset, hcount, rfl⟩
  obtain ⟨pair, hpair, rfl⟩ := h.exists_pair hmem
  obtain ⟨origin, hrealizes⟩ := h.realizes_of_mem hmem
  have hsize := hrealizes.sizeExpr_of_extent? (hrealizes.extent?_eq_some_iff.2 hcount)
  have hle := (h.tiled_of_sequential hsequential).ends_le.2 pair hpair
  rwa [hoffset, hsize] at hle

/-- The sum of all known sizes is a known end, if no field of known size stands behind one whose
size depends on the buffer. -/
theorem constant_mem_knownEnds (h : Resolved policy schema plan)
    (hsequential : ∀ field ∈ plan.fields, field.layout.position = .sequential)
    (hdynamic : plan.fields.Pairwise fun a b =>
      a.size.isDynamic = true → b.size.isDynamic = true) :
    plan.totalSize.constant ∈ insert 0 (knownEnds plan.fields) := by
  rw [← h.map_snd_pairs, List.pairwise_map] at hdynamic
  have hrealizes : ∀ pair ∈ schema.pairs plan, ∃ field, Realizes schema.readOnly field pair.2 :=
    fun pair hmem => h.realizes_of_mem (h.mem_of_pair hmem)
  rcases (h.tiled_of_sequential hsequential).exists_end rfl hrealizes hdynamic with
    hzero | ⟨pair, hmem, hend⟩
  · exact .inl hzero
  · exact .inr (h.mem_knownEnds.2 (List.mem_filterMap.2 ⟨pair.2, h.mem_of_pair hmem, hend⟩))

/-- The total size on a buffer on which all sizes are known. -/
theorem eval_totalSize (h : Resolved policy schema plan) {data : Bytes}
    {size : PlannedField → Nat}
    (hsize : ∀ field ∈ plan.fields, field.sizeExpr.eval data = .ok (size field))
    (hlt : sumOfSizes size plan.fields < wordLimit) :
    plan.totalSize.eval data = .ok (sumOfSizes size plan.fields) := by
  have hsum : ((counted plan.fields).map size).sum = sumOfSizes size plan.fields := by
    refine h.sum_counted fun field hmem slot hslot => ?_
    obtain ⟨origin, hrealizes⟩ := h.realizes_of_mem hmem
    have hunit := hsize field hmem
    rw [hrealizes.sizeExpr_of_slot? hslot, Expr.eval_literal] at hunit
    exact (Except.ok.inj hunit).symm
  have hcounted : ∀ field ∈ counted plan.fields, field.sizeExpr.eval data = .ok (size field) :=
    fun field hmem => hsize field ((countedFrom_sublist [] plan.fields).subset hmem)
  rw [← hsum] at hlt ⊢
  rw [h.totalSize_eq, totalSize, Expr.zero,
    Expr.eval_foldl_plus hcounted (Expr.eval_literal data 0) (by rwa [Nat.zero_add]), Nat.zero_add]

end Resolved

/-- For every plan that a schema resolves to, and below its anchors: the total size has the sum of
all known sizes as its constant and a term for each other field, and it evaluates to the sum of all
sizes. The minimum size is that constant or the last known end. -/
theorem Schema.sums_of_resolve {schema : Schema} {policy : MismatchPolicy} {plan sub : Plan}
    {path : List (String × String)} (h : schema.resolve policy = .ok plan)
    (hsub : plan.at? path = some sub) : sub.Sums := by
  obtain ⟨part, -, hresolve⟩ := Schema.resolve_at? h hsub
  have hresolved := Schema.resolved hresolve
  refine ⟨?_, hresolved.constant_totalSize, hresolved.terms_totalSize,
    hresolved.isGreatest_minimumSize, fun hsequential => ?_, fun hsequential hdynamic => ?_,
    fun data size hsize hlt => hresolved.eval_totalSize hsize hlt⟩
  · rw [← hresolved.map_snd_pairs]
    exact hresolved.arranged.injOn_bitUnits
  · have hle := hresolved.knownEnds_le hsequential
    refine hresolved.isGreatest_minimumSize.unique ⟨Set.mem_insert _ _, ?_⟩
    rintro stop (rfl | hmem)
    · exact Nat.le_refl _
    · exact hle stop hmem
  · constructor
    · exact hresolved.constant_mem_knownEnds hsequential hdynamic
    · rintro stop (rfl | hmem)
      · exact Nat.zero_le _
      · exact hresolved.knownEnds_le hsequential stop hmem

/-- A length, a unit of two bit-fields, as many bytes as the length says, a checksum behind them,
and the rest. -/
def invoiceSchema : Schema where
  name := "Invoice"
  fields :=
    [.plain { name := "length", type := .integer .u8 },
      .plain { name := "kind", type := .integer .u16, bits := some 9 },
      .plain { name := "flags", type := .integer .u8, bits := some 3 },
      .plain { name := "body", type := .bytes
               sizeFunction := some ⟨"first", fun data => (data.headD 0).toNat⟩ },
      .plain { name := "checksum", type := .integer .u16 },
      .plain { name := "rest", type := .bytes }]

theorem invoiceSchema_sums :
    ∃ plan size, invoiceSchema.resolve .error = .ok plan ∧ plan.Sums ∧
      bitUnits plan.fields = {(0, 2)} ∧ plan.fields.map size = [1, 2, 2, 1, 2, 2] ∧
      plan.totalSize.constant = 5 ∧ plan.minimumSize = plan.totalSize.constant ∧
      View.totalSize ⟨plan, [1, 2, 3, 4, 5, 6, 7, 8]⟩ = .ok (sumOfSizes size plan.fields) := by
  obtain ⟨plan, hplan⟩ : ∃ plan, invoiceSchema.resolve .error = .ok plan := ⟨_, rfl⟩
  let size : PlannedField → Nat := fun field =>
    ((field.sizeExpr.eval [1, 2, 3, 4, 5, 6, 7, 8]).toOption).getD 0
  have hself : plan.at? [] = some plan := rfl
  have hsums := Schema.sums_of_resolve hplan hself
  have hsequential : ∀ field ∈ plan.fields, field.layout.position = .sequential := by
    have hall : plan.fields.all (·.layout.position.isSequential) = true := by
      cases hplan
      rfl
    intro field hmem
    have hsequential := List.all_eq_true.1 hall field hmem
    cases hposition : field.layout.position with
    | sequential => rfl
    | literal | computed =>
      rw [hposition] at hsequential
      cases hsequential
  have hsize : ∀ field ∈ plan.fields,
      field.sizeExpr.eval [1, 2, 3, 4, 5, 6, 7, 8] = .ok (size field) := by
    have hall : plan.fields.all (fun field =>
        (field.sizeExpr.eval [1, 2, 3, 4, 5, 6, 7, 8]).toOption.isSome) = true := by
      cases hplan
      decide
    intro field hmem
    have hsome := List.all_eq_true.1 hall field hmem
    cases heval : field.sizeExpr.eval [1, 2, 3, 4, 5, 6, 7, 8] with
    | ok count => simp [size, heval, Except.toOption]
    | error error => simp [heval, Except.toOption] at hsome
  have hlt : sumOfSizes size plan.fields < wordLimit := by
    cases hplan
    decide
  refine ⟨plan, size, hplan, hsums, ?_, ?_, ?_, hsums.sequential hsequential,
    hsums.evaluated _ size hsize hlt⟩
  · cases hplan
    decide
  · cases hplan
    decide
  · cases hplan
    decide

end PacketLayout
