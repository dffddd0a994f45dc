import PacketLayout.Proofs.Resolved
import PacketLayout.Proofs.Slots

/-!
# Units of bit-fields

In every plan the bit-fields come in units. The members of a unit are neighbours, share an offset
and a width, and fill the unit from its highest bit downwards without sharing a bit; units are
numbered in order.

* `IsUnit` says what a unit looks like, and `Numbered` that a list of fields has units only.
* `Schema.bitUnits_of_resolve` says so about every plan, also below anchors.
-/

namespace PacketLayout

/-! ## What a unit is -/

/-- The bits that declarations ask for. -/
def declaredBits (pairs : List Pair) : Nat := (pairs.map fun pair => pair.1.bits.getD 0).sum

theorem declaredBits_cons (pair : Pair) (pairs : List Pair) :
    declaredBits (pair :: pairs) = pair.1.bits.getD 0 + declaredBits pairs := by
  rw [declaredBits, List.map_cons, List.sum_cons, declaredBits]

theorem declaredBits_take_one {pair : Pair} {width : Nat} (h : pair.1.bits = some width)
    (pairs : List Pair) : declaredBits ((pair :: pairs).take 1) = width := by
  rw [List.take_succ_cons, List.take_zero, declaredBits_cons, h]
  rfl

/-- The masks of two bit-fields have no bit in common. -/
def MasksDisjoint (a b : Pair) : Prop :=
  ∃ slot slot' mask mask', a.2.slot? = some slot ∧ b.2.slot? = some slot' ∧
    slot.unitMask = .ok mask ∧ slot'.unitMask = .ok mask' ∧ mask &&& mask' = 0

/-- All members of the unit `group`, which has `width` bytes at `offset`. -/
structure IsUnit (group width : Nat) (offset : Expr) (members : List Pair) : Prop where
  nonempty : members ≠ []
  /-- only these are widths of integers -/
  width_mem : width ∈ [1, 2, 4, 8]
  /-- every member is an integer inside the unit -/
  holds : ∀ pair ∈ members, ∃ kind, pair.1.kind? = some kind ∧ kind.width ≤ width
  /-- the unit is not wider than it has to be -/
  attained : ∃ pair ∈ members, ∃ kind, pair.1.kind? = some kind ∧ kind.width = width
  offset_eq : ∀ pair ∈ members, pair.2.offset = offset
  /-- a member lies right below the bits of those before it, and the unit has that many bits -/
  slot : ∀ i pair, members[i]? = some pair → ∃ slot, pair.2.slot? = some slot ∧
    slot.group = group ∧ slot.unit = width ∧ pair.1.bits = some slot.width ∧
    slot.shift = 8 * width - declaredBits (members.take (i + 1)) ∧
    declaredBits (members.take (i + 1)) ≤ 8 * width ∧
    slot.shift + slot.width ≤ 8 * slot.unit
  /-- the first member owns the highest bit -/
  highest : ∀ pair, members.head? = some pair → ∃ slot, pair.2.slot? = some slot ∧
    slot.shift + slot.width = 8 * width
  disjoint : members.Pairwise MasksDisjoint

/-- The bit-fields of the list form the units from `first` up to, but without, `stop`: all members
of a unit side by side, those of units before in front of them and those of later ones behind. -/
structure Numbered (first stop : Nat) (pairs : List Pair) : Prop where
  le : first ≤ stop
  group : ∀ pair ∈ pairs, ∀ slot, pair.2.slot? = some slot → first ≤ slot.group ∧ slot.group < stop
  declared : ∀ pair ∈ pairs, pair.2.slot?.map (·.width) = pair.1.bits
  unit : ∀ group, first ≤ group → group < stop → ∃ before members after width offset,
    pairs = before ++ members ++ after ∧ IsUnit group width offset members ∧
    (∀ pair ∈ before, ∀ slot, pair.2.slot? = some slot → slot.group < group) ∧
    (∀ pair ∈ after, ∀ slot, pair.2.slot? = some slot → group < slot.group)

/-! ## Members -/

namespace Packed

variable {group unit used widest used' widest' : Nat} {offset : Expr} {pairs : List Pair}

theorem widest_le (h : Packed group offset unit used widest pairs used' widest') :
    widest ≤ widest' := by
  induction h with
  | nil => exact Nat.le_refl _
  | cons _ _ _ _ _ _ _ _ ih => exact Nat.le_trans (Nat.le_max_left _ _) ih

theorem holds (h : Packed group offset unit used widest pairs used' widest') :
    ∀ pair ∈ pairs, ∃ kind, pair.1.kind? = some kind ∧ kind.width ≤ widest' := by
  induction h with
  | nil => exact fun _ hmem => absurd hmem List.not_mem_nil
  | cons _ integer _ _ _ _ _ more ih =>
    intro pair hmem
    rcases List.mem_cons.1 hmem with rfl | hmem
    · exact ⟨_, integer, Nat.le_trans (Nat.le_max_right _ _) more.widest_le⟩
    · exact ih pair hmem

/-- The widest integer is one from before or that of a member. -/
theorem attained (h : Packed group offset unit used widest pairs used' widest') :
    widest' = widest ∨ ∃ pair ∈ pairs, ∃ kind, pair.1.kind? = some kind ∧ kind.width = widest' := by
  induction h with
  | nil => exact .inl rfl
  | @cons used widest width used' widest' kind decl field rest _ integer _ _ _ _ _ _ ih =>
    rcases ih with heq | ⟨pair, hmem, hkind⟩
    · -- nothing behind is wider, so the member itself or what was there before is widest
      rcases Nat.le_total widest kind.width with hle | hle
      · refine .inr ⟨_, List.mem_cons_self, kind, integer, ?_⟩
        rw [heq, Nat.max_eq_right hle]
      · rw [Nat.max_eq_left hle] at heq
        exact .inl heq
    · exact .inr ⟨pair, List.mem_cons_of_mem _ hmem, hkind⟩

theorem offset_eq (h : Packed group offset unit used widest pairs used' widest') :
    ∀ pair ∈ pairs, pair.2.offset = offset := by
  induction h with
  | nil => exact fun _ hmem => absurd hmem List.not_mem_nil
  | cons _ _ _ _ offset_eq _ _ _ ih =>
    intro pair hmem
    rcases List.mem_cons.1 hmem with rfl | hmem
    · exact offset_eq
    · exact ih pair hmem

theorem declaredBits_eq (h : Packed group offset unit used widest pairs used' widest') :
    used + declaredBits pairs = used' := by
  induction h with
  | nil => rfl
  | cons bits _ _ _ _ _ _ _ ih =>
    rw [declaredBits_cons, bits, Option.getD_some, ← Nat.add_assoc]
    exact ih

/-- The slot of each member, counted from the bits that are used before the first. -/
theorem slot_getElem? (h : Packed group offset unit used widest pairs used' widest') :
    ∀ i pair, pairs[i]? = some pair → ∃ slot, pair.2.slot? = some slot ∧
      slot.group = group ∧ slot.unit = unit ∧ pair.1.bits = some slot.width ∧ 0 < slot.width ∧
      slot.shift = 8 * unit - (used + declaredBits (pairs.take (i + 1))) ∧
      slot.width ≤ declaredBits (pairs.take (i + 1)) ∧
      used + declaredBits (pairs.take (i + 1)) ≤ used' := by
  induction h with
  | nil => exact fun _ _ hget => by cases hget
  | cons bits _ positive _ _ _ slot more ih =>
    intro i pair hget
    cases i with
    | zero =>
      obtain rfl := Option.some.inj hget
      have hused := more.declaredBits_eq
      rw [Nat.zero_add, declaredBits_take_one bits]
      exact ⟨_, slot, rfl, rfl, bits, positive, rfl, Nat.le_refl _, by omega⟩
    | succ i =>
      obtain ⟨slot, hslot, hgroup, hunit, hbits, hpos, hshift, hwidth, hused⟩ := ih i pair hget
      rw [List.take_succ_cons, declaredBits_cons, bits, Option.getD_some, ← Nat.add_assoc]
      exact ⟨slot, hslot, hgroup, hunit, hbits, hpos, hshift, Nat.le_add_left_of_le hwidth, hused⟩

/-- A member lies inside its unit. -/
theorem fits (h : Packed group offset unit used widest pairs used' widest')
    (hfits : used' ≤ 8 * unit) (hunit : unit ≤ 8) {pair : Pair} (hmem : pair ∈ pairs)
    {slot : BitSlot} (hslot : pair.2.slot? = some slot) :
    slot.Fits ∧ slot.unit = unit ∧ slot.shift + slot.width ≤ 8 * unit := by
  obtain ⟨i, hget⟩ := List.getElem?_of_mem hmem
  obtain ⟨slot', hslot', -, hunit', -, hpos, hshift, hwidth, hused⟩ := h.slot_getElem? i pair hget
  obtain rfl := Option.some.inj (hslot.symm.trans hslot')
  exact ⟨⟨hpos, by omega⟩, hunit', by omega⟩

/-- No bit belongs to two members. -/
theorem pairwise_apart (h : Packed group offset unit used widest pairs used' widest')
    (hfits : used' ≤ 8 * unit) :
    pairs.Pairwise fun a b => ∀ slot slot', a.2.slot? = some slot → b.2.slot? = some slot' →
      slot.Apart slot' := by
  induction h with
  | nil => exact .nil
  | cons _ _ _ _ _ _ slot_eq more ih =>
    refine .cons (fun pair hmem slot slot' hslot hslot' => ?_) (ih hfits)
    obtain ⟨i, hget⟩ := List.getElem?_of_mem hmem
    obtain ⟨other, hother, -, -, -, -, hshift, hwidth, hused⟩ := more.slot_getElem? i pair hget
    obtain rfl := Option.some.inj (hslot'.symm.trans hother)
    obtain rfl := Option.some.inj (slot_eq.symm.trans hslot)
    -- what comes later lies below, and nothing saturates because all of it fits
    refine Or.inr ?_
    rw [hshift]
    show _ ≤ 8 * unit - _
    omega

/-- A unit is as wide as the integer of one of its members. -/
theorem attained_member (h : Packed group offset unit 0 0 pairs used' widest') (hne : pairs ≠ []) :
    ∃ pair ∈ pairs, ∃ kind, pair.1.kind? = some kind ∧ kind.width = widest' := by
  rcases h.attained with hzero | hattained
  · -- a width of zero is excluded, because every integer has a byte
    obtain ⟨pair, hmem⟩ := List.exists_mem_of_ne_nil pairs hne
    obtain ⟨kind, -, hle⟩ := h.holds pair hmem
    have := kind.width_pos
    omega
  · exact hattained

theorem width_le (h : Packed group offset unit 0 0 pairs used' widest') (hne : pairs ≠ []) :
    widest' ≤ 8 := by
  obtain ⟨_, _, kind, -, hwidth⟩ := h.attained_member hne
  exact hwidth ▸ kind.width_le

/-- The members of a unit that is as wide as its widest integer, and wide enough for them all. -/
theorem isUnit {width : Nat} (h : Packed group offset width 0 0 pairs used width)
    (hne : pairs ≠ []) (hfits : used ≤ 8 * width) : IsUnit group width offset pairs := by
  obtain ⟨widestMember, hmem, kind, hkind, hwidth⟩ := h.attained_member hne
  have hwidth_le := h.width_le hne
  refine ⟨hne, ?_, h.holds, ⟨widestMember, hmem, kind, hkind, hwidth⟩, h.offset_eq, ?_, ?_, ?_⟩
  · rw [← hwidth]
    cases kind <;> decide
  · intro i pair hget
    obtain ⟨slot, hslot, hgroup, hunit, hbits, -, hshift, -, hused⟩ := h.slot_getElem? i pair hget
    rw [Nat.zero_add] at hshift hused
    refine ⟨slot, hslot, hgroup, hunit, hbits, hshift, Nat.le_trans hused hfits, ?_⟩
    rw [hunit]
    exact (h.fits hfits hwidth_le (List.mem_of_getElem? hget) hslot).2.2
  · intro pair hhead
    rw [List.head?_eq_getElem?] at hhead
    obtain ⟨slot, hslot, -, -, hbits, -, hshift, hle, hused⟩ := h.slot_getElem? 0 pair hhead
    refine ⟨slot, hslot, ?_⟩
    obtain ⟨first, rest, rfl⟩ := List.exists_cons_of_ne_nil hne
    obtain rfl := Option.some.inj hhead
    rw [Nat.zero_add, Nat.zero_add, declaredBits_take_one hbits] at hshift hused
    omega
  · refine (h.pairwise_apart hfits).imp_of_mem fun {a b} ha hb hapart => ?_
    obtain ⟨i, hget⟩ := List.getElem?_of_mem ha
    obtain ⟨j, hget'⟩ := List.getElem?_of_mem hb
    obtain ⟨slot, hslot, -⟩ := h.slot_getElem? i a hget
    obtain ⟨slot', hslot', -⟩ := h.slot_getElem? j b hget'
    obtain ⟨mask, mask', hmask, hmask', hdisjoint⟩ :=
      BitSlot.unitMask_disjoint (h.fits hfits hwidth_le ha hslot).1
        (h.fits hfits hwidth_le hb hslot').1 (hapart slot slot' hslot hslot')
    exact ⟨slot, slot', mask, mask', hslot, hslot', hmask, hmask', hdisjoint⟩

end Packed

/-! ## Whole lists -/

namespace Numbered

variable {first stop : Nat} {pairs : List Pair}

theorem nil (units : Nat) : Numbered units units [] where
  le := Nat.le_refl _
  group := fun _ hmem => absurd hmem List.not_mem_nil
  declared := fun _ hmem => absurd hmem List.not_mem_nil
  unit := fun _ hle hlt => absurd hle (Nat.not_le.2 hlt)

/-- A field that is not a bit-field stands in front of all units. -/
theorem cons (h : Numbered first stop pairs) {pair : Pair} (hbits : pair.1.bits = none)
    (hslot : pair.2.slot? = none) : Numbered first stop (pair :: pairs) where
  le := h.le
  group := by
    intro other hmem slot hother
    rcases List.mem_cons.1 hmem with rfl | hmem
    · rw [hslot] at hother
      cases hother
    · exact h.group other hmem slot hother
  declared := by
    intro other hmem
    rcases List.mem_cons.1 hmem with rfl | hmem
    · rw [hslot, hbits]
      rfl
    · exact h.declared other hmem
  unit := by
    intro group hle hlt
    obtain ⟨before, members, after, width, offset, rfl, hunit, hbefore, hafter⟩ :=
      h.unit group hle hlt
    refine ⟨pair :: before, members, after, width, offset, rfl, hunit, ?_, hafter⟩
    intro other hmem slot hother
    rcases List.mem_cons.1 hmem with rfl | hmem
    · rw [hslot] at hother
      cases hother
    · exact hbefore other hmem slot hother

theorem declared_of_isUnit {group width : Nat} {offset : Expr} {members : List Pair}
    (h : IsUnit group width offset members) {pair : Pair} (hmem : pair ∈ members) :
    ∃ slot, pair.2.slot? = some slot ∧ slot.group = group ∧ pair.1.bits = some slot.width := by
  obtain ⟨i, hget⟩ := List.getElem?_of_mem hmem
  obtain ⟨slot, hslot, hgroup, -, hbits, -⟩ := h.slot i pair hget
  exact ⟨slot, hslot, hgroup, hbits⟩

/-- A unit stands in front of those with higher numbers. -/
theorem append {width : Nat} {offset : Expr} {members : List Pair}
    (hunit : IsUnit first width offset members) (h : Numbered (first + 1) stop pairs) :
    Numbered first stop (members ++ pairs) where
  le := Nat.le_of_succ_le h.le
  group := by
    intro pair hmem slot hslot
    rcases List.mem_append.1 hmem with hmem | hmem
    · obtain ⟨slot', hslot', rfl, -⟩ := declared_of_isUnit hunit hmem
      obtain rfl := Option.some.inj (hslot.symm.trans hslot')
      exact ⟨Nat.le_refl _, h.le⟩
    · obtain ⟨hle, hlt⟩ := h.group pair hmem slot hslot
      exact ⟨Nat.le_of_succ_le hle, hlt⟩
  declared := by
    intro pair hmem
    rcases List.mem_append.1 hmem with hmem | hmem
    · obtain ⟨slot, hslot, -, hbits⟩ := declared_of_isUnit hunit hmem
      rw [hslot, hbits]
      rfl
    · exact h.declared pair hmem
  unit := by
    intro group hle hlt
    -- the unit in front is the first one, and later ones are found behind it
    rcases Nat.eq_or_lt_of_le hle with rfl | hlater
    · refine ⟨[], members, pairs, width, offset, rfl, hunit, ?_, ?_⟩
      · exact fun _ hmem => absurd hmem List.not_mem_nil
      · exact fun pair hmem slot hslot => (h.group pair hmem slot hslot).1
    · obtain ⟨before, others, after, width', offset', rfl, hother, hbefore, hafter⟩ :=
        h.unit group hlater hlt
      refine ⟨members ++ before, others, after, width', offset', ?_, hother, ?_, hafter⟩
      · rw [List.append_assoc, List.append_assoc, List.append_assoc]
      · intro pair hmem slot hslot
        rcases List.mem_append.1 hmem with hmem | hmem
        · obtain ⟨slot', hslot', rfl, -⟩ := declared_of_isUnit hunit hmem
          obtain rfl := Option.some.inj (hslot.symm.trans hslot')
          exact hlater
        · exact hbefore pair hmem slot hslot

end Numbered

theorem Arranged.numbered {policy : MismatchPolicy} {next : Expr} {units : Nat} {pairs : List Pair}
    (h : Arranged policy next units pairs) : ∃ stop, Numbered units stop pairs := by
  induction h with
  | nil next units => exact ⟨units, .nil units⟩
  | single bits slot _ _ _ _ _ _ ih =>
    obtain ⟨stop, hrest⟩ := ih
    exact ⟨stop, hrest.cons bits slot⟩
  | unit _ _ packed fits _ ih =>
    obtain ⟨stop, hrest⟩ := ih
    exact ⟨stop, .append (packed.isUnit (List.cons_ne_nil _ _) fits) hrest⟩

/-- A bit-field of an arranged list lies inside its word. -/
theorem Arranged.slot_fits {policy : MismatchPolicy} {next : Expr} {units : Nat} {pairs : List Pair}
    (h : Arranged policy next units pairs) {pair : Pair} (hmem : pair ∈ pairs) {slot : BitSlot}
    (hslot : pair.2.slot? = some slot) :
    slot.Fits ∧ slot.unit ≤ 8 ∧ slot.shift + slot.width ≤ 8 * slot.unit := by
  induction h with
  | nil => cases hmem
  | single _ slot_eq _ _ _ _ _ _ ih =>
    rcases List.mem_cons.1 hmem with rfl | hmem
    · rw [slot_eq] at hslot
      cases hslot
    · exact ih hmem
  | unit _ _ packed fits _ ih =>
    rcases List.mem_append.1 hmem with hmem | hmem
    · obtain ⟨hfits, hunit, hinside⟩ :=
        packed.fits fits (packed.width_le (List.cons_ne_nil _ _)) hmem hslot
      rw [hunit]
      exact ⟨hfits, packed.width_le (List.cons_ne_nil _ _), hinside⟩
    · exact ih hmem

/-- The fields of a plan carry the names of the fields they stand for. -/
theorem Resolved.names {policy : MismatchPolicy} {schema : Schema} {plan : Plan}
    (h : Resolved policy schema plan) :
    plan.fields.map (·.name) = schema.fields.map (·.decl.name) := by
  rw [map_eq_of_forall₂ (f := (·.decl.name)) h.realizes fun _ _ hrealizes => hrealizes.name]
  exact schema.map_name_prepared policy

/-- In every plan that resolution returns, and in every plan below it, the bit-fields form units
that are numbered from zero on, under both policies. -/
theorem Schema.bitUnits_of_resolve {schema : Schema} {policy : MismatchPolicy} {plan sub : Plan}
    {path : List (String × String)} (h : schema.resolve policy = .ok plan)
    (hsub : plan.at? path = some sub) :
    ∃ part, schema.at? path = some part ∧
      sub.fields.map (·.name) = part.fields.map (·.decl.name) ∧
      ∃ count, Numbered 0 count (part.pairs sub) := by
  obtain ⟨part, hpart, hresolve⟩ := Schema.resolve_at? h hsub
  have hresolved := Schema.resolved hresolve
  exact ⟨part, hpart, hresolved.names, hresolved.arranged.numbered⟩

/-- A byte of bits and a byte that a counter widens, before an anchor with a unit of its own. -/
def flagsSchema : Schema where
  name := "Flags"
  fields :=
    [.plain { name := "version", type := .integer .u8, bits := some 3 },
      .plain { name := "flags", type := .integer .u8, bits := some 5 },
      .plain { name := "kind", type := .integer .u8, bits := some 4 },
      .plain { name := "count", type := .integer .u16, bits := some 12 },
      .anchor { name := "body", type := .byteArray 2 }
        [.mk "pair" [.plain { name := "code", type := .integer .u16, bits := some 9 }]]]

/-- Two units of two members, the second as wide as its counter, and one below the anchor. -/
theorem flagsSchema_bitUnits :
    ∃ plan sub part, flagsSchema.resolve .error = .ok plan ∧
      plan.fields.map (·.name) = ["version", "flags", "kind", "count", "body"] ∧
      plan.fields.map (·.slot?) =
        [some ⟨1, 5, 3, 0⟩, some ⟨1, 0, 5, 0⟩, some ⟨2, 12, 4, 1⟩, some ⟨2, 0, 12, 1⟩, none] ∧
      (∃ count, Numbered 0 count (flagsSchema.pairs plan)) ∧
      plan.at? [("body", "pair")] = some sub ∧ flagsSchema.at? [("body", "pair")] = some part ∧
      sub.fields.map (·.name) = part.fields.map (·.decl.name) ∧
      ∃ count, Numbered 0 count (part.pairs sub) := by
  obtain ⟨plan, hplan, hslots⟩ : ∃ plan, flagsSchema.resolve .error = .ok plan ∧
      plan.fields.map (·.slot?) =
        [some ⟨1, 5, 3, 0⟩, some ⟨1, 0, 5, 0⟩, some ⟨2, 12, 4, 1⟩, some ⟨2, 0, 12, 1⟩, none] :=
    ⟨_, rfl, rfl⟩
  obtain ⟨sub, hsub⟩ : ∃ sub, plan.at? [("body", "pair")] = some sub := by
    cases hplan
    exact ⟨_, rfl⟩
  obtain ⟨whole, hwhole, hfields, hnumbered⟩ :=
    Schema.bitUnits_of_resolve hplan (show plan.at? [] = some plan from rfl)
  obtain rfl := Option.some.inj hwhole
  obtain ⟨part, hpart, hnames, hunits⟩ := Schema.bitUnits_of_resolve hplan hsub
  exact ⟨plan, sub, part, hplan, hfields, hslots, hnumbered, hsub, hpart, hnames, hunits⟩

end PacketLayout
