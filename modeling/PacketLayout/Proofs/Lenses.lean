import PacketLayout.Proofs.Faults

/-!
# Slots as lenses

A slot looks at a part of a word. What is put into it is read from it, what is read from it can be
put back, and of two values put into it the later one counts. Slots whose masks are disjoint do not
notice each other.

* `BitSlot.put_read` and `BitSlot.put_put` are the laws beside `BitSlot.read_put`.
* `BitSlot.apart_of_disjoint` reads the places of two slots off their masks.
* `BitSlot.IsLens` and `BitSlot.Independent` are the laws of one slot and of two.
* `BitSlot.lens_of_fits` is the statement about all slots that lie inside a word.
-/

namespace PacketLayout

namespace BitSlot

variable {slot other : BitSlot} {word value : UInt64}

/-! ## One slot -/

/-- What is read from a slot has no more bits than the slot. -/
theorem toNat_read_lt (h : slot.Fits) (word : UInt64) :
    (slot.read word).toNat < 2 ^ slot.width := by
  refine Nat.lt_pow_two_of_testBit _ fun i hi => ?_
  rw [testBit_read h, decide_eq_false (Nat.not_lt.2 hi), Bool.false_and]

/-- What is read from a slot is there already. -/
theorem put_read (h : slot.Fits) (word : UInt64) : slot.put word (slot.read word) = word := by
  refine eq_of_testBit fun i _ => ?_
  rw [testBit_put h (toNat_read_lt h word), testBit_read h]
  by_cases howns : slot.Owns i
  · obtain ⟨hle, hlt⟩ := howns
    have hsub : i - slot.shift < slot.width := by omega
    rw [if_pos ⟨hle, hlt⟩, decide_eq_true hsub, Bool.true_and, Nat.add_sub_of_le hle]
  · rw [if_neg howns]

/-- Of two values put into a slot the later one counts. -/
theorem put_put (h : slot.Fits) (hfits : value.toNat < 2 ^ slot.width) {value' : UInt64}
    (hfits' : value'.toNat < 2 ^ slot.width) :
    slot.put (slot.put word value) value' = slot.put word value' := by
  refine eq_of_testBit fun i _ => ?_
  rw [testBit_put h hfits', testBit_put h hfits', testBit_put h hfits]
  by_cases howns : slot.Owns i
  · rw [if_pos howns, if_pos howns]
  · rw [if_neg howns, if_neg howns, if_neg howns]

theorem insert_eq_none_iff (h : slot.Fits) :
    slot.insert word value = .ok none ↔ 2 ^ slot.width ≤ value.toNat := by
  rw [insert_eq h]
  split <;> simp_all

theorem insert_eq_some_iff (h : slot.Fits) {after : UInt64} :
    slot.insert word value = .ok (some after) ↔
      value.toNat < 2 ^ slot.width ∧ slot.put word value = after := by
  rw [insert_eq h]
  by_cases hlarge : 2 ^ slot.width ≤ value.toNat
  · simp [hlarge, Nat.not_lt.2 hlarge]
  · simp [hlarge, Nat.lt_of_not_le hlarge]

/-! ## Two slots -/

/-- Slots with disjoint masks share no bit. -/
theorem apart_of_disjoint (h : slot.Fits) (hother : other.Fits) {mask otherMask : UInt64}
    (hmask : slot.unitMask = .ok mask) (hotherMask : other.unitMask = .ok otherMask)
    (hdisjoint : mask &&& otherMask = 0) : slot.Apart other := by
  have hnone : ∀ i, ¬ (slot.Owns i ∧ other.Owns i) := by
    rintro i ⟨howns, hotherOwns⟩
    have hbit := congrArg (·.toNat.testBit i) hdisjoint
    simp [testBit_unitMask h hmask, testBit_unitMask hother hotherMask, howns, hotherOwns] at hbit
  have hpos := h.positive
  have hotherPos := hother.positive
  -- the lowest bits of the slots are tried: the higher one would belong to both
  have hlow := hnone slot.shift
  have hotherLow := hnone other.shift
  unfold Owns at hlow hotherLow
  unfold Apart
  omega

/-- The word with values put into two fields, one after the other, or nothing when one of the values
is too large. -/
def insertBoth (slot other : BitSlot) (word value value' : UInt64) :
    Except Fault (Option UInt64) := do
  match ← slot.insert word value with
  | some after => other.insert after value'
  | none => pure none

theorem insertBoth_eq (h : slot.Fits) (hother : other.Fits) (value' : UInt64) :
    slot.insertBoth other word value value' =
      .ok (if value.toNat < 2 ^ slot.width ∧ value'.toNat < 2 ^ other.width
        then some (other.put (slot.put word value) value') else none) := by
  unfold insertBoth
  rw [insert_eq h]
  by_cases hlarge : 2 ^ slot.width ≤ value.toNat
  · rw [if_pos hlarge, if_neg fun hboth => Nat.not_lt.2 hlarge hboth.1]
    rfl
  · rw [if_neg hlarge]
    show other.insert _ value' = _
    rw [insert_eq hother]
    by_cases hlarge' : 2 ^ other.width ≤ value'.toNat
    · rw [if_pos hlarge', if_neg fun hboth => Nat.not_lt.2 hlarge' hboth.2]
    · rw [if_neg hlarge', if_pos ⟨Nat.lt_of_not_le hlarge, Nat.lt_of_not_le hlarge'⟩]

/-! ## Laws -/

/-- The laws of a slot with this mask. -/
structure IsLens (slot : BitSlot) (mask : UInt64) : Prop where
  /-- the mask covers the bits of the slot -/
  covers : ∀ i, mask.toNat.testBit i = decide (slot.Owns i)
  /-- only a value with more bits than the slot is refused -/
  refuses : ∀ word value, slot.insert word value = .ok none ↔ 2 ^ slot.width ≤ value.toNat
  accepts : ∀ word value, value.toNat < 2 ^ slot.width →
    ∃ after, slot.insert word value = .ok (some after)
  extract_insert : ∀ word value after, slot.insert word value = .ok (some after) →
    slot.extract after = .ok value
  /-- the bits that the mask does not cover stay as they are -/
  outside : ∀ word value after, slot.insert word value = .ok (some after) →
    ∀ i, mask.toNat.testBit i = false → after.toNat.testBit i = word.toNat.testBit i
  /-- of two values the later one counts -/
  insert_insert : ∀ word value after, slot.insert word value = .ok (some after) →
    ∀ value', slot.insert after value' = slot.insert word value'
  insert_extract : ∀ word, ∃ value, slot.extract word = .ok value ∧
    slot.insert word value = .ok (some word)

/-- Slots that do not notice each other. -/
structure Independent (slot other : BitSlot) : Prop where
  extract : ∀ word value after, slot.insert word value = .ok (some after) →
    other.extract after = other.extract word
  insert_comm : ∀ word value value',
    slot.insertBoth other word value value' = other.insertBoth slot word value' value

theorem isLens (h : slot.Fits) {mask : UInt64} (hmask : slot.unitMask = .ok mask) :
    slot.IsLens mask := by
  have hbits := testBit_unitMask h hmask
  refine ⟨hbits, fun word value => insert_eq_none_iff h,
    fun word value hlt => ⟨_, (insert_eq_some_iff h).2 ⟨hlt, rfl⟩⟩, ?_, ?_, ?_, ?_⟩
  · intro word value after hinsert
    obtain ⟨hlt, rfl⟩ := (insert_eq_some_iff h).1 hinsert
    rw [extract_eq h, read_put h hlt]
  · intro word value after hinsert i hi
    obtain ⟨hlt, rfl⟩ := (insert_eq_some_iff h).1 hinsert
    rw [testBit_put h hlt, if_neg (of_decide_eq_false ((hbits i).symm.trans hi))]
  · intro word value after hinsert value'
    obtain ⟨hlt, rfl⟩ := (insert_eq_some_iff h).1 hinsert
    rw [insert_eq h, insert_eq h]
    split
    · rfl
    · rename_i hsmall
      rw [put_put h hlt (Nat.lt_of_not_le hsmall)]
  · intro word
    exact ⟨slot.read word, extract_eq h word,
      (insert_eq_some_iff h).2 ⟨toNat_read_lt h word, put_read h word⟩⟩

theorem Apart.independent (hapart : slot.Apart other) (h : slot.Fits) (hother : other.Fits) :
    slot.Independent other := by
  refine ⟨fun word value after hinsert => ?_, fun word value value' => ?_⟩
  · obtain ⟨hlt, rfl⟩ := (insert_eq_some_iff h).1 hinsert
    rw [extract_eq hother, extract_eq hother, read_put_apart hother h hapart.symm hlt]
  · rw [insertBoth_eq h hother, insertBoth_eq hother h]
    by_cases hboth : value.toNat < 2 ^ slot.width ∧ value'.toNat < 2 ^ other.width
    · rw [if_pos hboth, if_pos hboth.symm, put_comm h hother hapart hboth.1 hboth.2]
    · rw [if_neg hboth, if_neg fun hswapped => hboth hswapped.symm]

/-- Every slot that has bits and lies inside a word is a lens, with the mask that is computed for
its width, moved to its place; and slots of which the masks are disjoint do not notice each
other. -/
theorem lens_of_fits (h : slot.Fits) :
    checkedMask slot.width = .ok slot.mask ∧
    ∃ mask, slot.unitMask = .ok mask ∧ slot.IsLens mask ∧
      ∀ (other : BitSlot) (otherMask : UInt64), other.Fits → other.unitMask = .ok otherMask →
        mask &&& otherMask = 0 → slot.Independent other := by
  obtain ⟨mask, hmask, -⟩ := unitMask_eq h
  refine ⟨checkedMask_eq slot.width, mask, hmask, isLens h hmask, ?_⟩
  intro other otherMask hother hotherMask hdisjoint
  exact (apart_of_disjoint h hother hmask hotherMask hdisjoint).independent h hother

end BitSlot

/-- The highest three bits of a word. -/
def highSlot : BitSlot := ⟨8, 61, 3, 0⟩

/-- All bits of a word but the highest three. -/
def lowSlot : BitSlot := ⟨8, 0, 61, 0⟩

theorem highSlot_lens :
    highSlot.Fits ∧ lowSlot.Fits ∧ highSlot.IsLens 0xe000000000000000 ∧
      highSlot.Independent lowSlot ∧
      highSlot.insert 0x3fffffffffffffff 6 = .ok (some 0xdfffffffffffffff) ∧
      highSlot.extract 0xdfffffffffffffff = .ok 6 ∧
      lowSlot.extract 0xdfffffffffffffff = lowSlot.extract 0x3fffffffffffffff := by
  have hhigh : highSlot.Fits := ⟨by decide, by decide⟩
  have hlow : lowSlot.Fits := ⟨by decide, by decide⟩
  have hmask : highSlot.unitMask = .ok 0xe000000000000000 := by rfl
  have hinsert : highSlot.insert 0x3fffffffffffffff 6 = .ok (some 0xdfffffffffffffff) := by rfl
  obtain ⟨-, mask, hfound, hlens, hdisjoint⟩ := BitSlot.lens_of_fits hhigh
  obtain rfl := Except.ok.inj (hmask.symm.trans hfound)
  have hindependent := hdisjoint lowSlot 0x1fffffffffffffff hlow (by rfl) (by rfl)
  exact ⟨hhigh, hlow, hlens, hindependent, hinsert, hlens.extract_insert _ _ _ hinsert,
    hindependent.extract _ _ _ hinsert⟩

end PacketLayout
