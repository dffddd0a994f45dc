import Mathlib.Data.List.Pairwise
import PacketLayout.Proofs.Anchors
import PacketLayout.Proofs.Tiling

/-!
# Reading and writing bit-fields

A bit-field is written by a change of its unit. In every plan, wherever the unit lies, this changes
the bits of the field and nothing else.

* `Bytes.bit?` is a single bit of a buffer, and `BitSlot.OwnsAt` says whether it belongs to a slot.
* `Arranged.exists_packed` finds the siblings of a bit-field, and `Packed.toNat_mod_eq` says that
  the word of a unit which is used up is made of their numbers.
* `Schema.setUnsigned_bitField` is the statement about plans.
-/

namespace PacketLayout

/-! ## Bits of a buffer -/

namespace BigEndian

/-- The bits of a word are those of its bytes, the lowest ones in the last byte. -/
theorem testBit_word {data : Bytes} (h : data.length ≤ 8) {i b : Nat} (hb : b < 8) {byte : UInt8}
    (hbyte : data[i]? = some byte) :
    (word data).toNat.testBit (8 * (data.length - 1 - i) + b) = byte.toNat.testBit b := by
  induction data using List.reverseRecOn with
  | nil => cases hbyte
  | append_singleton data last ih =>
    have hlength : (data ++ [last]).length = data.length + 1 := by simp
    have hlast : last.toNat < 2 ^ 8 := last.toNat_lt
    rw [hlength] at h ⊢
    rw [toNat_word_concat (by omega), Nat.testBit_two_pow_mul_add _ hlast]
    rcases Nat.lt_trichotomy i data.length with hlt | rfl | hgt
    · rw [List.getElem?_append_left hlt] at hbyte
      rw [if_neg (by omega), ← ih (by omega) hbyte]
      congr 1
      omega
    · rw [List.getElem?_concat_length] at hbyte
      obtain rfl := Option.some.inj hbyte
      rw [if_pos (by omega)]
      congr 1
      omega
    · rw [List.getElem?_eq_none (by omega)] at hbyte
      cases hbyte

end BigEndian

/-- Bit `b` of byte `i`; bit zero is the lowest one of its byte. -/
def Bytes.bit? (data : Bytes) (i b : Nat) : Option Bool := data[i]?.map (·.toNat.testBit b)

/-- Bit `b` of byte `i` belongs to the slot, in a buffer where the unit begins at byte `start`. -/
def BitSlot.OwnsAt (slot : BitSlot) (start i b : Nat) : Prop :=
  start ≤ i ∧ i < start + slot.unit ∧ slot.Owns (8 * (start + slot.unit - 1 - i) + b)

/-- A bit of a buffer is one of the word around it. -/
theorem Bytes.bit?_eq_testBit {data : Bytes} {start width i b : Nat} (hwidth : width ≤ 8)
    (hinside : start + width ≤ data.length) (hstart : start ≤ i) (hstop : i < start + width)
    (hb : b < 8) :
    data.bit? i b =
      some ((data.wordAt start width).toNat.testBit (8 * (start + width - 1 - i) + b)) := by
  have hlength : ((data.drop start).take width).length = width := by
    rw [List.length_take, List.length_drop]
    omega
  have hbyte : ((data.drop start).take width)[i - start]? = some data[i] := by
    rw [List.getElem?_take_of_lt (by omega), List.getElem?_drop, Nat.add_sub_of_le hstart]
    exact List.getElem?_eq_getElem _
  have hword := BigEndian.testBit_word (Nat.le_trans (Nat.le_of_eq hlength) hwidth) hb hbyte
  have hplace : start + width - 1 - i = width - 1 - (i - start) := by omega
  rw [hlength] at hword
  rw [Bytes.bit?, List.getElem?_eq_getElem (by omega), Option.map_some, Bytes.wordAt, hplace, hword]

/-- The two buffers differ in bits of the slot only, where its unit begins at byte `start`. -/
structure BitSlot.Changes (slot : BitSlot) (start : Nat) (before after : Bytes) : Prop where
  length : after.length = before.length
  bit? : ∀ i b, b < 8 → ¬ slot.OwnsAt start i b → after.bit? i b = before.bit? i b

/-- A word that took up a value changes the buffer in the bits of the slot. -/
theorem BitSlot.changes_of_wordAt {slot : BitSlot} {start : Nat} {before after : Bytes}
    {value : UInt64} (h : slot.Fits) (hunit : slot.unit ≤ 8)
    (hinside : start + slot.unit ≤ before.length) (hvalue : value.toNat < 2 ^ slot.width)
    (hagree : Bytes.AgreeOutside start (start + slot.unit) before after)
    (hword : after.wordAt start slot.unit = slot.put (before.wordAt start slot.unit) value) :
    slot.Changes start before after := by
  have hlength := hagree.length
  refine ⟨hlength, fun i b hb howns => ?_⟩
  by_cases hout : i < start ∨ start + slot.unit ≤ i
  · rw [Bytes.bit?, Bytes.bit?, hagree.agree i hout]
  · have hbit : ¬ slot.Owns (8 * (start + slot.unit - 1 - i) + b) :=
      fun hbit => howns ⟨by omega, by omega, hbit⟩
    have hstart : start ≤ i := by omega
    have hstop : i < start + slot.unit := by omega
    rw [Bytes.bit?_eq_testBit hunit (by rwa [hlength]) hstart hstop hb,
      Bytes.bit?_eq_testBit hunit hinside hstart hstop hb, hword, BitSlot.testBit_put h hvalue,
      if_neg hbit]

/-! ## Siblings -/

theorem BitSlot.toNat_read {slot : BitSlot} (h : slot.Fits) (word : UInt64) :
    (slot.read word).toNat = word.toNat / 2 ^ slot.shift % 2 ^ slot.width := by
  refine Nat.eq_of_testBit_eq fun i => ?_
  rw [testBit_read h, Nat.testBit_mod_two_pow, Nat.testBit_div_two_pow, Nat.add_comm]

/-- A unit that is used up from its bit `used` on holds the numbers of its members, each at its
place, and nothing else. -/
theorem Packed.toNat_mod_eq {group unit used widest used' widest' : Nat} {offset : Expr}
    {pairs : List Pair} (h : Packed group offset unit used widest pairs used' widest')
    (hfull : used' = 8 * unit) (hunit : unit ≤ 8) (word : UInt64) :
    word.toNat % 2 ^ (8 * unit - used) =
      ((unitMembers (pairs.map (·.2)) group).map fun member =>
        (member.2.read word).toNat * 2 ^ member.2.shift).sum := by
  induction h with
  | nil => rw [hfull, Nat.sub_self, Nat.pow_zero, Nat.mod_one, List.map_nil, unitMembers]; rfl
  | @cons used widest width used' widest' kind decl field rest _ _ positive _ _ _ slot more ih =>
    have hused := more.declaredBits_eq
    have hfits : BitSlot.Fits ⟨unit, 8 * unit - (used + width), width, group⟩ :=
      ⟨positive, by show 8 * unit - (used + width) + width ≤ 64; omega⟩
    have hsplit : 8 * unit - used = 8 * unit - (used + width) + width := by omega
    have hmembers := unitMembers_cons (rest.map (·.2)) slot
    -- the bits of the first member stand above those of the others
    rw [List.map_cons, hmembers, List.map_cons, List.sum_cons, ← ih hfull, hsplit, Nat.pow_add,
      Nat.mod_mul, ← BitSlot.toNat_read hfits]
    exact (Nat.add_comm _ _).trans (congrArg (· + _) (Nat.mul_comm _ _))

/-- The siblings of a bit-field in an arranged list. -/
theorem Arranged.exists_packed {policy : MismatchPolicy} {next : Expr} {units : Nat}
    {pairs : List Pair} (h : Arranged policy next units pairs) {pair : Pair} (hmem : pair ∈ pairs)
    {slot : BitSlot} (hslot : pair.2.slot? = some slot) :
    ∃ offset used members, Packed slot.group offset slot.unit 0 0 members used slot.unit ∧
      used ≤ 8 * slot.unit ∧ slot.unit ≤ 8 ∧ pair ∈ members ∧
      unitMembers (pairs.map (·.2)) slot.group = unitMembers (members.map (·.2)) slot.group := by
  induction h with
  | nil => cases hmem
  | single _ slot_eq _ _ _ _ _ _ ih =>
    rcases List.mem_cons.1 hmem with rfl | hmem
    · rw [slot_eq] at hslot
      cases hslot
    · obtain ⟨offset, used, members, hpacked, hfits, hwidth, hpair, hmembers⟩ := ih hmem
      refine ⟨offset, used, members, hpacked, hfits, hwidth, hpair, ?_⟩
      rw [List.map_cons, ← hmembers]
      simp [unitMembers, slot_eq]
  | @unit next units used width decl field members rest _ _ packed fits more ih =>
    rw [List.map_append, unitMembers_append]
    rcases List.mem_append.1 hmem with hmem | hmem
    · -- units behind have other numbers
      have hwidth := packed.width_le (List.cons_ne_nil _ _)
      obtain rfl := packed.group_eq hmem hslot
      obtain ⟨-, rfl, -⟩ := packed.fits fits hwidth hmem hslot
      have hrest : unitMembers (rest.map (·.2)) slot.group = [] := by
        refine unitMembers_eq_nil fun other hother slot' hslot' => ?_
        obtain ⟨pair', hpair', rfl⟩ := List.mem_map.1 hother
        exact Nat.ne_of_gt (more.units_le_group hpair' hslot')
      rw [hrest, List.append_nil]
      exact ⟨_, used, _, packed, fits, hwidth, hmem, rfl⟩
    · obtain ⟨offset, used', members', hpacked, hfits, hwidth, hpair, hmembers⟩ := ih hmem
      have hle := more.units_le_group hmem hslot
      have hfront : unitMembers (((decl, field) :: members).map (·.2)) slot.group = [] := by
        refine unitMembers_eq_nil fun other hother slot' hslot' hgroup => ?_
        obtain ⟨pair', hpair', rfl⟩ := List.mem_map.1 hother
        have := packed.group_eq hpair' hslot'
        omega
      rw [hfront, List.nil_append]
      exact ⟨offset, used', members', hpacked, hfits, hwidth, hpair, hmembers⟩

/-- The siblings of a bit-field in a plan. -/
theorem Resolved.exists_packed {policy : MismatchPolicy} {schema : Schema} {plan : Plan}
    (h : Resolved policy schema plan) {field : PlannedField} (hmem : field ∈ plan.fields)
    {slot : BitSlot} (hslot : field.slot? = some slot) :
    ∃ offset used members pair, Packed slot.group offset slot.unit 0 0 members used slot.unit ∧
      used ≤ 8 * slot.unit ∧ slot.unit ≤ 8 ∧ pair ∈ members ∧ pair.2 = field ∧
      unitMembers plan.fields slot.group = unitMembers (members.map (·.2)) slot.group := by
  obtain ⟨pair, hpair, rfl⟩ := h.exists_pair hmem
  obtain ⟨offset, used, members, hpacked, hfits, hwidth, hin, hmembers⟩ :=
    h.arranged.exists_packed hpair hslot
  rw [h.map_snd_pairs] at hmembers
  exact ⟨offset, used, members, pair, hpacked, hfits, hwidth, hin, rfl, hmembers⟩

theorem mem_unitMembers {fields : List PlannedField} {group : Nat} {field : PlannedField}
    {slot : BitSlot} :
    (field, slot) ∈ unitMembers fields group ↔
      field ∈ fields ∧ field.slot? = some slot ∧ slot.group = group := by
  rw [unitMembers, List.mem_filterMap]
  constructor
  · rintro ⟨other, hmem, hother⟩
    split at hother
    · rename_i found hfound
      split at hother
      · rename_i hgroup
        obtain ⟨rfl, rfl⟩ := Prod.mk.inj (Option.some.inj hother)
        exact ⟨hmem, hfound, hgroup⟩
      · cases hother
    · cases hother
  · rintro ⟨hmem, hslot, hgroup⟩
    exact ⟨field, hmem, by rw [hslot]; simp only; rw [if_pos hgroup]⟩

/-! ## Units in a buffer -/

/-- The number without a sign that a field holds. -/
def View.unsigned? (view : View) (name : String) : Option UInt64 :=
  (view.get name).toOption.bind (·.unsigned?)

/-- A bit-field of a plan whose unit begins at byte `start` of a buffer. -/
structure UnitAt (plan : Plan) (data : Bytes) (field : PlannedField) (slot : BitSlot)
    (start : Nat) : Prop where
  mem : field ∈ plan.fields
  slot? : field.slot? = some slot
  locate : View.locate ⟨plan, data⟩ field = .ok ⟨start, start + slot.unit⟩

/-- Only a bit-field has a slot. -/
theorem Provider.eq_bitField {provider : Provider} {slot : BitSlot}
    (h : provider.slot? = some slot) : ∃ type, provider = .bitField slot type := by
  cases provider with
  | bitField place type =>
    obtain rfl := Option.some.inj h
    exact ⟨type, rfl⟩
  | scalar | enumeration | composite | rawSlice => cases h

namespace UnitAt

variable {policy : MismatchPolicy} {schema : Schema} {plan : Plan} {data after : Bytes}
  {field other : PlannedField} {slot slot' : BitSlot} {start : Nat}

/-- Two bit-fields of a group are found at one place, and no bit belongs to both. -/
theorem sibling (h : Resolved policy schema plan) (hunit : UnitAt plan data field slot start)
    (hmem : other ∈ plan.fields) (hslot : other.slot? = some slot')
    (hgroup : slot'.group = slot.group) :
    UnitAt plan data other slot' start ∧ slot'.unit = slot.unit ∧
      (other ≠ field → slot'.Apart slot) := by
  obtain ⟨offset, used, members, pair, hpacked, hfits, hle, hin, rfl, hmembers⟩ :=
    h.exists_packed hunit.mem hunit.slot?
  -- the other field is one of the members too
  have hother := mem_unitMembers.2 ⟨hmem, hslot, hgroup⟩
  rw [hmembers] at hother
  obtain ⟨pair', hin', rfl⟩ := List.mem_map.1 (mem_unitMembers.1 hother).1
  have hoffset : pair'.2.offset = pair.2.offset :=
    (hpacked.offset_eq pair' hin').trans (hpacked.offset_eq pair hin).symm
  obtain ⟨_, -, -, hsize⟩ := hpacked.exists_slot? hin
  obtain ⟨_, -, -, hsize'⟩ := hpacked.exists_slot? hin'
  obtain ⟨-, hwidth, -⟩ := hpacked.fits hfits hle hin' hslot
  have hlocate := hunit.locate
  refine ⟨⟨hmem, hslot, ?_⟩, hwidth, fun hne => ?_⟩
  · rw [View.locate, hoffset, hsize', ← hsize, hwidth]
    exact hlocate
  · have hsymm : Std.Symm fun a b : Pair => ∀ slot slot', a.2.slot? = some slot →
        b.2.slot? = some slot' → slot.Apart slot' :=
      ⟨fun a b hab slot slot' ha hb => (hab slot' slot hb ha).symm⟩
    have hapart := (hpacked.pairwise_apart hfits).forall hin' hin (mt (congrArg Prod.snd) hne)
    exact hapart slot' slot hslot hunit.slot?

/-- The word of the unit lies inside the buffer. -/
theorem reaches (h : Resolved policy schema plan) (hunit : UnitAt plan data field slot start)
    {leaf : Leaf} (hleaf : field.leaf? = some leaf) (hprovider : leaf.provider.slot? = some slot) :
    View.Reaches ⟨plan, data⟩ ⟨start, start + slot.unit⟩ leaf.provider slot.unit :=
  (h.reaches_of_locate hunit.mem hleaf (Provider.wordWidth?_of_slot? hprovider)
    hunit.locate).1

/-- A bit-field is read from the word of its unit. -/
theorem get_eq (h : Resolved policy schema plan) (hunit : UnitAt plan data field slot start)
    {leaf : Leaf} (hleaf : field.leaf? = some leaf) (hprovider : leaf.provider.slot? = some slot) :
    View.get ⟨plan, data⟩ field.name =
      .ok (leaf.provider.valueOf (slot.read (data.wordAt start slot.unit))) := by
  have hreaches := hunit.reaches h hleaf hprovider
  rw [View.get_eq (h.field?_of_mem hunit.mem) hleaf hunit.locate hreaches]
  obtain ⟨type, hbits⟩ := Provider.eq_bitField hprovider
  rw [hbits]
  rfl

theorem unsigned?_eq (h : Resolved policy schema plan) (hunit : UnitAt plan data field slot start) :
    View.unsigned? ⟨plan, data⟩ field.name = some (slot.read (data.wordAt start slot.unit)) := by
  obtain ⟨leaf, hleaf, hprovider⟩ := Option.bind_eq_some_iff.1 hunit.slot?
  obtain ⟨type, hbits⟩ := Provider.eq_bitField hprovider
  rw [View.unsigned?, hunit.get_eq h hleaf hprovider, hbits]
  cases type <;> rfl

/-- The word of a unit that is used up is the sum of the numbers of its members, each moved to its
place. -/
theorem exists_sum_eq (h : Resolved policy schema plan) (hunit : UnitAt plan data field slot start)
    (hfull : ((unitMembers plan.fields slot.group).map (·.2.width)).sum = 8 * slot.unit) :
    ∃ number : PlannedField → UInt64,
      (∀ member ∈ unitMembers plan.fields slot.group,
        View.unsigned? ⟨plan, data⟩ member.1.name = some (number member.1)) ∧
      (data.wordAt start slot.unit).toNat =
        ((unitMembers plan.fields slot.group).map fun member =>
          (number member.1).toNat * 2 ^ member.2.shift).sum := by
  have hread : ∀ member ∈ unitMembers plan.fields slot.group,
      View.unsigned? ⟨plan, data⟩ member.1.name =
        some (member.2.read (data.wordAt start slot.unit)) := by
    intro member hmember
    obtain ⟨hmem, hslot, hgroup⟩ := mem_unitMembers.1 hmember
    obtain ⟨hother, hwidth, -⟩ := hunit.sibling h hmem hslot hgroup
    rw [hother.unsigned?_eq h, hwidth]
  have hnumber : ∀ member ∈ unitMembers plan.fields slot.group,
      (View.unsigned? ⟨plan, data⟩ member.1.name).getD 0 =
        member.2.read (data.wordAt start slot.unit) := by
    intro member hmember
    rw [hread member hmember, Option.getD_some]
  refine ⟨fun other => (View.unsigned? ⟨plan, data⟩ other.name).getD 0,
    fun member hmember => ?_, ?_⟩
  · exact (hread member hmember).trans (congrArg some (hnumber member hmember).symm)
  obtain ⟨offset, used, members, pair, hpacked, -, hle, -, -, hmembers⟩ :=
    h.exists_packed hunit.mem hunit.slot?
  have hused : used = 8 * slot.unit := by
    rw [← hfull, hmembers, List.sum_eq_foldl, List.foldl_map]
    exact hpacked.foldl_width.symm
  have hword : (data.wordAt start slot.unit).toNat < 2 ^ (8 * slot.unit) := by
    rw [← Provider.pow_eq]
    exact Bytes.toNat_wordAt_lt start slot.unit
  have hsum := hpacked.toNat_mod_eq hused hle (data.wordAt start slot.unit)
  rw [Nat.sub_zero, Nat.mod_eq_of_lt hword, ← hmembers] at hsum
  rw [hsum]
  refine congrArg List.sum (List.map_congr_left fun member hmember => ?_)
  rw [← hnumber member hmember]

/-- The unit is found where it was, in a buffer of the same length that gives its offset the same
number. -/
theorem of_eval (h : Resolved policy schema plan) (hunit : UnitAt plan data field slot start)
    (hlength : after.length = data.length)
    (hoffset : field.offset.eval after = field.offset.eval data) :
    UnitAt plan after field slot start := by
  obtain ⟨leaf, hleaf, hprovider⟩ := Option.bind_eq_some_iff.1 hunit.slot?
  exact ⟨hunit.mem, hunit.slot?, h.locate_of_eval hunit.mem hleaf
    (Provider.wordWidth?_of_slot? hprovider) hunit.locate hlength hoffset⟩

/-- A number that has no more bits than the field is put into the word; any other is refused. -/
theorem setUnsigned_eq (h : Resolved policy schema plan) (hunit : UnitAt plan data field slot start)
    {leaf : Leaf} (hleaf : field.leaf? = some leaf) (hwritable : leaf.writable = true)
    (value : UInt64) :
    View.setUnsigned ⟨plan, data⟩ field.name value =
      if value.toNat < 2 ^ slot.width then
        .ok (data.overwrite start
          (BigEndian.bytes slot.unit (slot.put (data.wordAt start slot.unit) value)))
      else .error (.error (.invalidValue field.name)) := by
  have hprovider : leaf.provider.slot? = some slot := by
    have hslot := hunit.slot?
    rwa [PlannedField.slot?, hleaf] at hslot
  have hreaches := hunit.reaches h hleaf hprovider
  have htarget : View.target ⟨plan, data⟩ field.name =
      .ok (leaf.provider, ⟨start, start + slot.unit⟩) :=
    View.target_eq (h.field?_of_mem hunit.mem) hleaf hwritable hunit.locate
  obtain ⟨type, hbits⟩ := Provider.eq_bitField hprovider
  have hwidth : (Provider.bitField slot type).bits = slot.width := rfl
  rw [View.setUnsigned_eq htarget hreaches, View.outcome, Provider.numberOf?, hbits, hwidth]
  by_cases hlt : value.toNat < 2 ^ slot.width
  · rw [if_pos hlt, if_pos hlt]
    rfl
  · rw [if_neg hlt, if_neg hlt]
    rfl

/-- What a write that succeeds leaves behind. -/
theorem of_setUnsigned (h : Resolved policy schema plan)
    (hunit : UnitAt plan data field slot start) {leaf : Leaf} (hleaf : field.leaf? = some leaf)
    (hwritable : leaf.writable = true) {value : UInt64}
    (hset : View.setUnsigned ⟨plan, data⟩ field.name value = .ok after) :
    value.toNat < 2 ^ slot.width ∧ slot.Changes start data after ∧
      after.wordAt start slot.unit = slot.put (data.wordAt start slot.unit) value := by
  obtain ⟨hfits, hle, hinside⟩ := h.slot_fits hunit.mem hunit.slot?
  obtain ⟨count, hat⟩ := View.exists_locatedAt hunit.locate
  have hstop : start + slot.unit ≤ data.length := hat.inside
  rw [hunit.setUnsigned_eq h hleaf hwritable] at hset
  split at hset
  · rename_i hlt
    obtain rfl := Except.ok.inj hset
    have hput : (slot.put (data.wordAt start slot.unit) value).toNat < 256 ^ slot.unit := by
      rw [Provider.pow_eq]
      refine BitSlot.toNat_put_lt hfits hlt hinside ?_
      rw [← Provider.pow_eq]
      exact Bytes.toNat_wordAt_lt start slot.unit
    have hword := Bytes.wordAt_overwrite hstop hput
    refine ⟨hlt, BitSlot.changes_of_wordAt hfits hle hstop hlt ?_ hword, hword⟩
    exact Bytes.agreeOutside_overwrite (Nat.le_of_eq (by rw [BigEndian.length_bytes])) hstop
  · cases hset

end UnitAt

/-- A number is written into a bit-field just if it has no more bits than the field. Only bits of
the field change. If the unit is still found where it was, the number is read again and the siblings
read as before. The word of a unit that is used up is always made of the numbers of its members. -/
theorem Schema.setUnsigned_bitField {schema : Schema} {policy : MismatchPolicy} {plan sub : Plan}
    {path : List (String × String)} (h : schema.resolve policy = .ok plan)
    (hsub : plan.at? path = some sub) {field : PlannedField} (hmem : field ∈ sub.fields)
    {slot : BitSlot} (hslot : field.slot? = some slot) {data : Bytes} {span : Span}
    (hspan : View.range ⟨sub, data⟩ field.name = .ok span) :
    (((unitMembers sub.fields slot.group).map (·.2.width)).sum = 8 * slot.unit →
      ∃ number : PlannedField → UInt64,
        (∀ member ∈ unitMembers sub.fields slot.group,
          View.unsigned? ⟨sub, data⟩ member.1.name = some (number member.1)) ∧
        (data.wordAt span.start slot.unit).toNat =
          ((unitMembers sub.fields slot.group).map fun member =>
            (number member.1).toNat * 2 ^ member.2.shift).sum) ∧
    ∀ leaf, field.leaf? = some leaf → leaf.writable = true → ∀ value : UInt64,
      ((∃ after, View.setUnsigned ⟨sub, data⟩ field.name value = .ok after) ↔
        value.toNat < 2 ^ slot.width) ∧
      (2 ^ slot.width ≤ value.toNat →
        View.setUnsigned ⟨sub, data⟩ field.name value =
          .error (.error (.invalidValue field.name))) ∧
      ∀ after, View.setUnsigned ⟨sub, data⟩ field.name value = .ok after →
        slot.Changes span.start data after ∧
        (field.offset.eval after = field.offset.eval data →
          View.unsigned? ⟨sub, after⟩ field.name = some value ∧
          ∀ other ∈ sub.fields, other ≠ field →
            other.slot?.map (·.group) = some slot.group →
            ∃ read, View.get ⟨sub, data⟩ other.name = .ok read ∧
              View.get ⟨sub, after⟩ other.name = .ok read) := by
  obtain ⟨part, -, hresolve⟩ := Schema.resolve_at? h hsub
  have hresolved := Schema.resolved hresolve
  have hunit : UnitAt sub data field slot span.start := by
    obtain ⟨found, hfound, hlocate⟩ := bind_eq_ok_iff.1 hspan
    have hfield := (hresolved.field?_of_mem hmem).symm.trans (View.lookup_eq_ok_iff.1 hfound)
    obtain rfl := Option.some.inj hfield
    obtain ⟨origin, hrealizes⟩ := hresolved.realizes_of_mem hmem
    obtain ⟨length, hat⟩ := View.exists_locatedAt hlocate
    have hsize := hat.size
    rw [hrealizes.sizeExpr_of_slot? hslot, Expr.eval_literal] at hsize
    obtain rfl := Except.ok.inj hsize
    refine ⟨hmem, hslot, ?_⟩
    rw [← hat.stop]
    exact hlocate
  refine ⟨hunit.exists_sum_eq hresolved, fun leaf hleaf hwritable value => ⟨?_, ?_, ?_⟩⟩
  · rw [hunit.setUnsigned_eq hresolved hleaf hwritable]
    by_cases hlt : value.toNat < 2 ^ slot.width
    · rw [if_pos hlt]
      exact ⟨fun _ => hlt, fun _ => ⟨_, rfl⟩⟩
    · rw [if_neg hlt]
      refine ⟨?_, fun hlt' => absurd hlt' hlt⟩
      rintro ⟨after, hset⟩
      cases hset
  · intro hle
    rw [hunit.setUnsigned_eq hresolved hleaf hwritable, if_neg (Nat.not_lt.2 hle)]
  · intro after hset
    obtain ⟨hlt, hchanges, hword⟩ := hunit.of_setUnsigned hresolved hleaf hwritable hset
    refine ⟨hchanges, fun hoffset => ?_⟩
    have hafter := hunit.of_eval hresolved hchanges.length hoffset
    obtain ⟨hfits, -, -⟩ := hresolved.slot_fits hmem hslot
    constructor
    · rw [hafter.unsigned?_eq hresolved, hword, BitSlot.read_put hfits hlt]
    · intro other hother hne hgroup
      obtain ⟨slot', hslot', hgroup⟩ := Option.map_eq_some_iff.1 hgroup
      obtain ⟨hbefore, hwidth, hapart⟩ := hunit.sibling hresolved hother hslot' hgroup
      obtain ⟨hthen, -, -⟩ := hafter.sibling hresolved hother hslot' hgroup
      obtain ⟨hfits', -, -⟩ := hresolved.slot_fits hother hslot'
      obtain ⟨leaf', hleaf', hprovider'⟩ := Option.bind_eq_some_iff.1 hslot'
      refine ⟨_, hbefore.get_eq hresolved hleaf' hprovider', ?_⟩
      rw [hthen.get_eq hresolved hleaf' hprovider', hwidth, hword,
        BitSlot.read_put_apart hfits' hfits (hapart hne) hlt]

/-- A byte that tells how many bytes follow it, and behind them a unit of two integers of different
widths. -/
def tallySchema : Schema where
  name := "Tally"
  fields :=
    [.plain { name := "length", type := .integer .u8 },
      .plain { name := "options", type := .bytes, sizeFunction := some countSize },
      .plain { name := "kind", type := .integer .u8, bits := some 4 },
      .plain { name := "count", type := .integer .u16, bits := some 12 }]

theorem tallySchema_setUnsigned :
    ∃ plan field other slot, tallySchema.resolve .warn = .ok plan ∧
      plan.field? "count" = some field ∧ field.slot? = some slot ∧
      plan.field? "kind" = some other ∧
      View.setUnsigned ⟨plan, [1, 9, 0x5a, 0xbc]⟩ field.name 0x123 = .ok [1, 9, 0x51, 0x23] ∧
      slot.Changes 2 [1, 9, 0x5a, 0xbc] [1, 9, 0x51, 0x23] ∧
      View.unsigned? ⟨plan, [1, 9, 0x51, 0x23]⟩ field.name = some 0x123 ∧
      (∃ read, View.get ⟨plan, [1, 9, 0x5a, 0xbc]⟩ other.name = .ok read ∧
        View.get ⟨plan, [1, 9, 0x51, 0x23]⟩ other.name = .ok read) ∧
      ∃ number : PlannedField → UInt64,
        (Bytes.wordAt [1, 9, 0x5a, 0xbc] 2 slot.unit).toNat =
          ((unitMembers plan.fields slot.group).map fun member =>
            (number member.1).toNat * 2 ^ member.2.shift).sum := by
  obtain ⟨plan, hplan⟩ : ∃ plan, tallySchema.resolve .warn = .ok plan := ⟨_, rfl⟩
  obtain ⟨field, leaf, slot, hfield, hleaf, hwritable, hslot⟩ : ∃ field leaf slot,
      plan.field? "count" = some field ∧ field.leaf? = some leaf ∧ leaf.writable = true ∧
        field.slot? = some slot := by
    cases hplan
    exact ⟨_, _, _, rfl, rfl, rfl, rfl⟩
  obtain ⟨other, hother, hne, hgroup, hfull⟩ : ∃ other, plan.field? "kind" = some other ∧
      other.name ≠ field.name ∧ other.slot?.map (·.group) = some slot.group ∧
        ((unitMembers plan.fields slot.group).map (·.2.width)).sum = 8 * slot.unit := by
    cases hplan
    cases hfield
    cases hslot
    exact ⟨_, rfl, by decide, rfl, rfl⟩
  obtain ⟨hspan, hset, hoffset⟩ :
      View.range ⟨plan, [1, 9, 0x5a, 0xbc]⟩ field.name = .ok ⟨2, 4⟩ ∧
      View.setUnsigned ⟨plan, [1, 9, 0x5a, 0xbc]⟩ field.name 0x123 = .ok [1, 9, 0x51, 0x23] ∧
      field.offset.eval [1, 9, 0x51, 0x23] = field.offset.eval [1, 9, 0x5a, 0xbc] := by
    cases hplan
    cases hfield
    exact ⟨rfl, rfl, rfl⟩
  have hsub : plan.at? [] = some plan := rfl
  obtain ⟨hsum, hwrite⟩ :=
    Schema.setUnsigned_bitField hplan hsub (Plan.mem_of_field? hfield) hslot hspan
  obtain ⟨-, -, hafter⟩ := hwrite leaf hleaf hwritable 0x123
  obtain ⟨hchanges, hread⟩ := hafter _ hset
  obtain ⟨hvalue, hsiblings⟩ := hread hoffset
  obtain ⟨number, -, hnumber⟩ := hsum hfull
  have hkind := hsiblings other (Plan.mem_of_field? hother) (fun heq => hne (heq ▸ rfl)) hgroup
  exact ⟨plan, field, other, slot, hplan, hfield, hslot, hother, hset, hchanges, hvalue, hkind,
    number, hnumber⟩

end PacketLayout
