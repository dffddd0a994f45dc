import PacketLayout.Proofs.Extents

/-!
# Lists without gaps

In a list that is accepted under the strict policy, where every explicit position can be checked,
each field starts exactly where the fields before it end.

* `Tiled` describes such a list, and `Arranged.tiled` finds it.
* `Tiled.totalSize_eq` says that the total size of the fields is where the list ends.
-/

namespace PacketLayout

/-! ## Positions -/

namespace Position

/-- Whether the field is at a fixed offset. -/
def isLiteral : Position → Bool
  | literal _ => true
  | sequential | computed _ => false

/-- Whether the offset is a function of the buffer. -/
def isComputed : Position → Bool
  | computed _ => true
  | sequential | literal _ => false

/-- An explicit position that was checked is the implied one. -/
theorem offset_eq_of_agrees {position : Position} {next : Expr} (h : position.Agrees next)
    (hcomputed : position.isComputed = false)
    (hstatic : next.isStatic = false → position.isLiteral = false) :
    position.offset next = next := by
  cases position with
  | sequential => rfl
  | computed function => cases hcomputed
  | literal actual =>
    cases hnext : next.isStatic with
    | false => cases hstatic hnext
    | true =>
      have hconstant : next.static? = some next.constant := if_pos hnext
      have hliteral := Expr.static?_eq_some_iff.1 hconstant
      rw [offset, ← h next.constant actual hconstant rfl]
      exact hliteral.symm

end Position

/-- The size function of a field that has one. -/
def Size.function? : Size → Option SizeFunction
  | computed function => some function
  | constant _ | intrinsic _ | external _ | bitWidth _ | remainder => none

/-! ## Tilings -/

/-- Fields from the offset `next` and the unit `units` on, up to the offset `stop`. Each starts
where those before it end; the bit-fields of a unit start together. -/
inductive Tiled : (next : Expr) → (units : Nat) → List Pair → (stop : Expr) → Prop
  | nil (next : Expr) (units : Nat) : Tiled next units [] next
  | single {next stop : Expr} {units : Nat} {decl : Declaration} {field : PlannedField}
      {rest : List Pair}
      (slot : field.slot? = none)
      (offset_eq : field.offset = next)
      (last : field.size.isRemainder = true → rest = [])
      (more : Tiled (next.plus field.sizeExpr) units rest stop) :
      Tiled next units ((decl, field) :: rest) stop
  | unit {next stop : Expr} {units used width : Nat} {first : Pair} {members rest : List Pair}
      (packed : Packed units next width 0 0 (first :: members) used width)
      (fits : used ≤ 8 * width)
      (more : Tiled (next.plusConstant width) (units + 1) rest stop) :
      Tiled next units (first :: members ++ rest) stop

theorem Expr.isStatic_plus_literal (next : Expr) (count : Nat) :
    (next.plus (.literal count)).isStatic = next.isStatic := by
  simp [Expr.isStatic]

/-- Behind a known offset and a known size the offset is known. -/
theorem Expr.plus_eq_literal {next size : Expr} {start count : Nat} (hnext : next = .literal start)
    (hsize : size = .literal count) : next.plus size = .literal (start + count) := by
  rw [hnext, hsize, plus_literal]
  rfl

/-- Behind a field the offset depends on the buffer only if it did before, or if the field has a
size function, or if nothing follows. -/
theorem Size.Source.isStatic_plus {decl : Declaration} {isAnchor : Bool} {size : Size}
    (h : Source decl isAnchor size) (hbits : decl.bits = none) {name : String} {next : Expr}
    (hstatic : (next.plus (size.expr name next none)).isStatic = false) :
    next.isStatic = false ∨ size.function?.isSome = true ∨ size.isRemainder = true := by
  cases h with
  | bits bits =>
    rw [bits] at hbits
    cases hbits
  | function => exact .inr (.inl rfl)
  | rest => exact .inr (.inr rfl)
  | explicit | array | integer | composite =>
    rw [Size.expr, Expr.isStatic_plus_literal] at hstatic
    exact .inl hstatic

/-- A list that is accepted under the strict policy has no gaps, if no position is computed and
every explicit one can be checked. -/
theorem Arranged.tiled {next : Expr} {units : Nat} {pairs : List Pair}
    (h : Arranged .error next units pairs)
    (hcomputed : ∀ pair ∈ pairs, pair.1.position.isComputed = false)
    (hnext : next.isStatic = false → ∀ pair ∈ pairs, pair.1.position.isLiteral = false)
    (hpairs : pairs.Pairwise fun a b =>
      a.2.size.function?.isSome = true → b.1.position.isLiteral = false) :
    ∃ stop, Tiled next units pairs stop := by
  induction h with
  | nil next units => exact ⟨next, .nil next units⟩
  | @single next units decl isAnchor field rest bits slot source size_eq offset_eq agrees last more
      ih =>
    rw [List.pairwise_cons] at hpairs
    have hoffset : field.offset = next := offset_eq.trans
      (Position.offset_eq_of_agrees (agrees rfl) (hcomputed _ List.mem_cons_self)
        fun hstatic => hnext hstatic _ List.mem_cons_self)
    -- the offset behind depends on the buffer in three cases, and each excludes later literals
    obtain ⟨stop, hmore⟩ := ih
      (fun pair hmem => hcomputed pair (List.mem_cons_of_mem _ hmem))
      (fun hstatic pair hmem => by
        rw [size_eq, hoffset] at hstatic
        rcases source.isStatic_plus bits hstatic with hbefore | hfunction | hremainder
        · exact hnext hbefore pair (List.mem_cons_of_mem _ hmem)
        · exact hpairs.1 pair hmem hfunction
        · rw [last hremainder] at hmem
          cases hmem)
      hpairs.2
    rw [hoffset] at hmore
    exact ⟨stop, .single slot hoffset last hmore⟩
  | @unit next units used width decl field members rest offset_eq agrees packed fits more ih =>
    rw [List.pairwise_append] at hpairs
    have hoffset : field.offset = next := offset_eq.trans
      (Position.offset_eq_of_agrees (agrees rfl) (hcomputed _ List.mem_cons_self)
        fun hstatic => hnext hstatic _ List.mem_cons_self)
    rw [hoffset] at packed ih
    obtain ⟨stop, hmore⟩ := ih
      (fun pair hmem => hcomputed pair (List.mem_append_right _ hmem))
      (fun hstatic pair hmem => hnext hstatic pair (List.mem_append_right _ hmem))
      hpairs.2.1
    exact ⟨stop, .unit packed fits hmore⟩

/-- The plan of a schema has no gaps, if no position is computed and none is explicit behind a size
function. -/
theorem Resolved.exists_tiled {schema : Schema} {plan : Plan} (h : Resolved .error schema plan)
    (hcomputed : ∀ field ∈ schema.fields, field.decl.position.isComputed = false)
    (hliteral : (schema.pairs plan).Pairwise fun a b =>
      a.2.size.function?.isSome = true → b.1.position.isLiteral = false) :
    ∃ stop, Tiled .zero 0 (schema.pairs plan) stop := by
  refine h.arranged.tiled ?_ ?_ hliteral
  · intro pair hmem
    have hdecl : pair.1 ∈ schema.fields.map (·.decl) := h.map_fst_pairs ▸ List.mem_map_of_mem hmem
    obtain ⟨field, hfield, heq⟩ := List.mem_map.1 hdecl
    rw [← heq]
    exact hcomputed field hfield
  · intro hstatic
    cases hstatic

/-- Only a declared size function makes a size computed. -/
theorem Resolved.pairwise_pairs {policy : MismatchPolicy} {schema : Schema} {plan : Plan}
    (h : Resolved policy schema plan)
    (hliteral : schema.fields.Pairwise fun a b =>
      a.decl.sizeFunction.isSome = true → b.decl.position.isLiteral = false) :
    (schema.pairs plan).Pairwise fun a b =>
      a.2.size.function?.isSome = true → b.1.position.isLiteral = false := by
  have hdecls : (schema.pairs plan).Pairwise fun a b =>
      a.1.sizeFunction.isSome = true → b.1.position.isLiteral = false := by
    rw [← List.pairwise_map (f := fun pair : Pair => pair.1)
      (R := fun a b => a.sizeFunction.isSome = true → b.position.isLiteral = false),
      h.map_fst_pairs, List.pairwise_map]
    exact hliteral
  refine hdecls.imp_of_mem fun {a b} ha _ hab hfunction => hab ?_
  obtain ⟨field, hdecl, hrealizes⟩ := h.realizes_of_pair ha
  have hsource := Size.source_of_resolve hrealizes.size
  rw [hdecl] at hsource
  generalize a.2.size = size at hsource hfunction
  cases hsource with
  | function _ function_eq =>
    rw [function_eq]
    rfl
  | bits | explicit | rest | array | integer | composite => cases hfunction

namespace Tiled

variable {next stop : Expr} {units : Nat} {pairs : List Pair}

theorem units_le_group (h : Tiled next units pairs stop) {pair : Pair} (hmem : pair ∈ pairs)
    {slot : BitSlot} (hslot : pair.2.slot? = some slot) : units ≤ slot.group := by
  induction h with
  | nil => cases hmem
  | single slot_eq _ _ _ ih =>
    rcases List.mem_cons.1 hmem with rfl | hmem
    · rw [slot_eq] at hslot
      cases hslot
    · exact ih hmem
  | unit packed _ _ ih =>
    rcases List.mem_append.1 hmem with hmem | hmem
    · exact Nat.le_of_eq (packed.group_eq hmem hslot).symm
    · exact Nat.le_of_succ_le (ih hmem)

end Tiled

/-! ## The total size -/

/-- Fields that count are some of the fields. -/
theorem countedFrom_sublist (seen : List Nat) (fields : List PlannedField) :
    (countedFrom seen fields).Sublist fields := by
  induction fields generalizing seen with
  | nil => exact .slnil
  | cons field fields ih =>
    rw [countedFrom]
    split
    · exact (ih _).cons_cons field
    · split
      · exact (ih _).cons field
      · exact (ih _).cons_cons field

/-- Bit-fields of units that have been counted do not count. -/
theorem countedFrom_append {seen : List Nat} {fields : List PlannedField}
    (h : ∀ field ∈ fields, ∃ slot, field.slot? = some slot ∧ slot.group ∈ seen)
    (rest : List PlannedField) : countedFrom seen (fields ++ rest) = countedFrom seen rest := by
  induction fields with
  | nil => rfl
  | cons field fields ih =>
    obtain ⟨slot, hslot, hseen⟩ := h field List.mem_cons_self
    rw [List.cons_append, countedFrom, hslot]
    simp only [hseen, if_true]
    exact ih fun other hother => h other (List.mem_cons_of_mem _ hother)

theorem Packed.exists_slot? {group unit used widest used' widest' : Nat} {offset : Expr}
    {pairs : List Pair} (h : Packed group offset unit used widest pairs used' widest') {pair : Pair}
    (hmem : pair ∈ pairs) :
    ∃ slot, pair.2.slot? = some slot ∧ slot.group = group ∧ pair.2.sizeExpr = .literal unit := by
  induction h with
  | nil => cases hmem
  | cons _ _ _ _ _ size_eq slot _ ih =>
    rcases List.mem_cons.1 hmem with rfl | hmem
    · exact ⟨_, slot, rfl, size_eq⟩
    · exact ih hmem

/-- The first member counts for its whole unit, unless the unit has been counted. -/
theorem Packed.countedFrom_append {group unit used widest : Nat} {offset : Expr} {first : Pair}
    {members : List Pair} (h : Packed group offset unit 0 0 (first :: members) used widest)
    {seen : List Nat} (hseen : ∀ counted ∈ seen, counted < group) (rest : List PlannedField) :
    countedFrom seen ((first :: members).map (·.2) ++ rest) =
      first.2 :: countedFrom (group :: seen) rest := by
  obtain ⟨slot, hslot, rfl, -⟩ := h.exists_slot? List.mem_cons_self
  have hnew : slot.group ∉ seen := fun hmem => Nat.lt_irrefl _ (hseen _ hmem)
  have hmembers : ∀ field ∈ members.map (·.2), ∃ slot', field.slot? = some slot' ∧
      slot'.group ∈ slot.group :: seen := by
    intro field hfield
    obtain ⟨pair, hmem, rfl⟩ := List.mem_map.1 hfield
    obtain ⟨slot', hslot', hgroup, -⟩ := h.exists_slot? (List.mem_cons_of_mem _ hmem)
    exact ⟨slot', hslot', hgroup ▸ List.mem_cons_self⟩
  rw [List.map_cons, List.cons_append, countedFrom, hslot]
  simp only [hnew, if_false]
  rw [PacketLayout.countedFrom_append hmembers]

namespace Tiled

variable {next stop : Expr} {units : Nat} {pairs : List Pair}

theorem foldl_counted (h : Tiled next units pairs stop) {seen : List Nat}
    (hseen : ∀ group ∈ seen, group < units) :
    (countedFrom seen (pairs.map (·.2))).foldl (fun total field => total.plus field.sizeExpr) next =
      stop := by
  induction h generalizing seen with
  | nil => rfl
  | single slot _ _ _ ih =>
    rw [List.map_cons, countedFrom, slot]
    exact ih hseen
  | @unit next stop units used width first members rest packed _ _ ih =>
    obtain ⟨-, -, -, hsize⟩ := packed.exists_slot? List.mem_cons_self
    rw [List.map_append, packed.countedFrom_append hseen, List.foldl_cons, hsize, Expr.plus_literal]
    refine ih fun group hmem => ?_
    rcases List.mem_cons.1 hmem with rfl | hmem
    · exact Nat.lt_succ_self _
    · exact Nat.lt_succ_of_lt (hseen group hmem)

/-- The total size is where a list without gaps ends. -/
theorem totalSize_eq (h : Tiled .zero 0 pairs stop) : totalSize (pairs.map (·.2)) = stop :=
  h.foldl_counted fun _ hmem => absurd hmem List.not_mem_nil

end Tiled

/-! ## Lists of known sizes -/

/-- One field ends before the other starts, in every buffer. -/
def Before (a b : PlannedField) : Prop :=
  ∃ start count later, a.offset = .literal start ∧ a.sizeExpr = .literal count ∧
    b.offset = .literal later ∧ start + count ≤ later

/-- Two bit-fields of one word that have no bit in common. -/
structure Siblings (a b : PlannedField) : Prop where
  offset : a.offset = b.offset
  sizeExpr : a.sizeExpr = b.sizeExpr
  apart : ∃ slot slot', a.slot? = some slot ∧ b.slot? = some slot' ∧ slot.Apart slot'

/-- Two fields have no byte in common, or no bit. -/
def Separate (a b : PlannedField) : Prop := Before a b ∨ Before b a ∨ Siblings a b

theorem Siblings.symm {a b : PlannedField} (h : Siblings a b) : Siblings b a := by
  obtain ⟨slot, slot', hslot, hslot', hapart⟩ := h.apart
  exact ⟨h.offset.symm, h.sizeExpr.symm, slot', slot, hslot', hslot, hapart.symm⟩

theorem Separate.symm {a b : PlannedField} (h : Separate a b) : Separate b a := by
  rcases h with h | h | h
  · exact .inr (.inl h)
  · exact .inl h
  · exact .inr (.inr h.symm)

namespace Tiled

variable {next stop : Expr} {units first : Nat} {pairs : List Pair}

/-- Behind a known offset all offsets are known, if all sizes but that of a remainder are. -/
theorem exists_offset (h : Tiled next units pairs stop) (hnext : next = .literal first)
    (hsizes : ∀ pair ∈ pairs, pair.2.size.isRemainder = false →
      ∃ count, pair.2.sizeExpr = .literal count) :
    ∀ pair ∈ pairs, ∃ start, pair.2.offset = .literal start ∧ first ≤ start := by
  induction h generalizing first with
  | nil => exact fun _ hmem => absurd hmem List.not_mem_nil
  | @single next stop units decl field rest _ offset_eq last _ ih =>
    intro pair hmem
    rcases List.mem_cons.1 hmem with rfl | hmem
    · exact ⟨first, offset_eq.trans hnext, Nat.le_refl _⟩
    · have hrest : ¬ field.size.isRemainder = true := mt last (List.ne_nil_of_mem hmem)
      obtain ⟨count, hcount⟩ := hsizes _ List.mem_cons_self (Bool.eq_false_iff.2 hrest)
      have hafter := Expr.plus_eq_literal hnext hcount
      obtain ⟨start, hstart, hle⟩ := ih hafter
        (fun other hother => hsizes other (List.mem_cons_of_mem _ hother)) pair hmem
      exact ⟨start, hstart, Nat.le_of_add_right_le hle⟩
  | @unit next stop units used width head members rest packed _ _ ih =>
    intro pair hmem
    rcases List.mem_append.1 hmem with hmem | hmem
    · exact ⟨first, (packed.offset_eq pair hmem).trans hnext, Nat.le_refl _⟩
    · have hafter : next.plusConstant width = .literal (first + width) := hnext ▸ rfl
      obtain ⟨start, hstart, hle⟩ := ih hafter
        (fun other hother => hsizes other (List.mem_append_right _ hother)) pair hmem
      exact ⟨start, hstart, Nat.le_of_add_right_le hle⟩

/-- No two fields have anything in common. -/
theorem pairwise_separate (h : Tiled next units pairs stop) (hnext : next = .literal first)
    (hsizes : ∀ pair ∈ pairs, pair.2.size.isRemainder = false →
      ∃ count, pair.2.sizeExpr = .literal count) :
    pairs.Pairwise fun a b => Separate a.2 b.2 := by
  induction h generalizing first with
  | nil => exact .nil
  | @single next stop units decl field rest _ offset_eq last more ih =>
    have hrest : ∀ pair ∈ rest, pair.2.size.isRemainder = false →
        ∃ count, pair.2.sizeExpr = .literal count := fun pair hmem =>
      hsizes pair (List.mem_cons_of_mem _ hmem)
    cases hremainder : field.size.isRemainder with
    | true =>
      rw [last hremainder]
      exact List.pairwise_singleton _ _
    | false =>
      obtain ⟨count, hcount⟩ := hsizes _ List.mem_cons_self hremainder
      have hafter := Expr.plus_eq_literal hnext hcount
      refine .cons (fun pair hmem => .inl ?_) (ih hafter hrest)
      obtain ⟨later, hlater, hle⟩ := more.exists_offset hafter hrest pair hmem
      exact ⟨first, count, later, offset_eq.trans hnext, hcount, hlater, hle⟩
  | @unit next stop units used width head members rest packed fits more ih =>
    have hrest : ∀ pair ∈ rest, pair.2.size.isRemainder = false →
        ∃ count, pair.2.sizeExpr = .literal count := fun pair hmem =>
      hsizes pair (List.mem_append_right _ hmem)
    have hafter : next.plusConstant width = .literal (first + width) := hnext ▸ rfl
    refine List.pairwise_append.2 ⟨?_, ih hafter hrest, fun a ha b hb => .inl ?_⟩
    · refine (packed.pairwise_apart fits).imp_of_mem fun {a b} ha hb hapart => .inr (.inr ?_)
      obtain ⟨slot, hslot, -, hsize⟩ := packed.exists_slot? ha
      obtain ⟨slot', hslot', -, hsize'⟩ := packed.exists_slot? hb
      refine ⟨?_, hsize.trans hsize'.symm, slot, slot', hslot, hslot', hapart _ _ hslot hslot'⟩
      rw [packed.offset_eq a ha, packed.offset_eq b hb]
    · obtain ⟨-, -, -, hsize⟩ := packed.exists_slot? ha
      obtain ⟨later, hlater, hle⟩ := more.exists_offset hafter hrest b hb
      exact ⟨first, width, later, (packed.offset_eq a ha).trans hnext, hsize, hlater, hle⟩

end Tiled

/-- If only a remainder depends on the buffer, every offset of a plan is known and no two of its
fields have anything in common. -/
theorem Resolved.separate {schema : Schema} {plan : Plan} (h : Resolved .error schema plan)
    (hcomputed : ∀ field ∈ schema.fields, field.decl.position.isComputed = false)
    (hstatic : ∀ field ∈ plan.fields, field.size.isDynamic = true → field.size.isRemainder = true) :
    (∀ field ∈ plan.fields, ∃ start, field.offset = .literal start) ∧
      ∀ a ∈ plan.fields, ∀ b ∈ plan.fields, a ≠ b → Separate a b := by
  have hfields : ∀ pair ∈ schema.pairs plan, pair.2 ∈ plan.fields := fun pair hmem =>
    h.map_snd_pairs ▸ List.mem_map_of_mem hmem
  have hliteral : (schema.pairs plan).Pairwise fun a b =>
      a.2.size.function?.isSome = true → b.1.position.isLiteral = false := by
    refine List.Pairwise.imp_of_mem (fun {a b} ha _ _ hfunction => ?_)
      (List.pairwise_of_forall (R := fun _ _ => True) fun _ _ => trivial)
    have hremainder := hstatic a.2 (hfields a ha)
    generalize a.2.size = size at hfunction hremainder
    cases size with
    | computed => cases hremainder rfl
    | constant | intrinsic | external | bitWidth | remainder => cases hfunction
  have hsizes : ∀ pair ∈ schema.pairs plan, pair.2.size.isRemainder = false →
      ∃ count, pair.2.sizeExpr = .literal count := by
    intro pair hmem hremainder
    obtain ⟨field, -, hrealizes⟩ := h.realizes_of_pair hmem
    have hsize : pair.2.size.isDynamic = false := by
      refine Bool.eq_false_iff.2 fun hdynamic => ?_
      rw [hstatic _ (hfields pair hmem) hdynamic] at hremainder
      cases hremainder
    obtain ⟨count, -, hcount⟩ := hrealizes.extent?_of_not_dynamic hsize
    exact ⟨count, hcount⟩
  obtain ⟨stop, htiled⟩ := h.exists_tiled hcomputed hliteral
  constructor
  · intro field hmem
    obtain ⟨pair, hpair, rfl⟩ := h.exists_pair hmem
    obtain ⟨start, hstart, -⟩ := htiled.exists_offset rfl hsizes pair hpair
    exact ⟨start, hstart⟩
  · have hpairwise := htiled.pairwise_separate rfl hsizes
    rw [← List.pairwise_map (f := fun pair : Pair => pair.2) (R := Separate),
      h.map_snd_pairs] at hpairwise
    intro a ha b hb hne
    obtain ⟨i, hi, rfl⟩ := List.getElem_of_mem ha
    obtain ⟨j, hj, rfl⟩ := List.getElem_of_mem hb
    rcases Nat.lt_trichotomy i j with hlt | rfl | hlt
    · exact List.pairwise_iff_getElem.1 hpairwise i j hi hj hlt
    · exact absurd rfl hne
    · exact (List.pairwise_iff_getElem.1 hpairwise j i hj hi hlt).symm

end PacketLayout
