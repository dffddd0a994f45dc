import Mathlib.Algebra.Ring.Nat
import PacketLayout.Wire.BitSlot

/-!
# Slots as parts of a word

Every operation of a slot that lies inside a word is described bit by bit: what is read are the bits
of the slot moved down, what is written replaces those bits and no others.

* `BitSlot.Fits` says that a slot lies inside a word.
* `BitSlot.read_put` and `BitSlot.read_put_apart` say what a slot reads after a value was put into
  it, or into another slot; `BitSlot.put_comm` compares the orders of two values.
* `BitSlot.unitMask_disjoint` says that slots which share no bit have disjoint masks.
-/

namespace PacketLayout

/-! ## Bits of a word -/

theorem testBit_of_le {word : UInt64} {i : Nat} (h : 64 ≤ i) : word.toNat.testBit i = false :=
  Nat.testBit_lt_two_pow (Nat.lt_of_lt_of_le word.toNat_lt (Nat.pow_le_pow_right (by decide) h))

/-- Words with the same 64 bits are the same. -/
theorem eq_of_testBit {a b : UInt64} (h : ∀ i < 64, a.toNat.testBit i = b.toNat.testBit i) :
    a = b := by
  apply UInt64.toNat.inj
  apply Nat.eq_of_testBit_eq
  intro i
  rcases Nat.lt_or_ge i 64 with hi | hi
  · exact h i hi
  · rw [testBit_of_le hi, testBit_of_le hi]

theorem toNat_ofNat_mod {shift : Nat} (h : shift < 64) :
    (UInt64.ofNat shift).toNat % 64 = shift := by
  rw [UInt64.toNat_ofNat']
  omega

theorem testBit_shiftLeft {shift : Nat} (h : shift < 64) (word : UInt64) (i : Nat) :
    (word <<< UInt64.ofNat shift).toNat.testBit i =
      (decide (i < 64) && decide (shift ≤ i) && word.toNat.testBit (i - shift)) := by
  rw [UInt64.toNat_shiftLeft, toNat_ofNat_mod h, Nat.testBit_mod_two_pow, Nat.testBit_shiftLeft,
    Bool.and_assoc]

theorem testBit_shiftRight {shift : Nat} (h : shift < 64) (word : UInt64) (i : Nat) :
    (word >>> UInt64.ofNat shift).toNat.testBit i = word.toNat.testBit (shift + i) := by
  rw [UInt64.toNat_shiftRight, toNat_ofNat_mod h, Nat.testBit_shiftRight]

theorem testBit_not (word : UInt64) (i : Nat) :
    (~~~word).toNat.testBit i = (decide (i < 64) && !word.toNat.testBit i) := by
  rw [UInt64.toNat_not, show UInt64.size - 1 - word.toNat = 2 ^ 64 - (word.toNat + 1) by
    rw [UInt64.size]; omega]
  exact Nat.testBit_two_pow_sub_succ word.toNat_lt i

theorem toNat_lowMask (width : Nat) : (lowMask width).toNat = 2 ^ min width 64 - 1 := by
  have h : 2 ^ min width 64 ≤ 2 ^ 64 := Nat.pow_le_pow_right (by decide) (Nat.min_le_right _ _)
  rw [lowMask, Nat.one_shiftLeft, UInt64.toNat_ofNat']
  exact Nat.mod_eq_of_lt (by omega)

theorem testBit_lowMask (width i : Nat) :
    (lowMask width).toNat.testBit i = decide (i < min width 64) := by
  rw [toNat_lowMask, Nat.testBit_two_pow_sub_one]

/-! ## Slots -/

namespace BitSlot

variable {slot other : BitSlot} {word value : UInt64}

/-- The slot has bits, and they are bits of a word. -/
structure Fits (slot : BitSlot) : Prop where
  positive : 0 < slot.width
  inside : slot.shift + slot.width ≤ 64

/-- A bit of the word that belongs to the slot. -/
def Owns (slot : BitSlot) (i : Nat) : Prop := slot.shift ≤ i ∧ i < slot.shift + slot.width

instance (slot : BitSlot) (i : Nat) : Decidable (slot.Owns i) :=
  inferInstanceAs (Decidable (_ ∧ _))

/-- No bit belongs to both slots. -/
def Apart (slot other : BitSlot) : Prop :=
  slot.shift + slot.width ≤ other.shift ∨ other.shift + other.width ≤ slot.shift

theorem Apart.symm (h : slot.Apart other) : other.Apart slot := Or.symm h

theorem Apart.not_owns (h : slot.Apart other) {i : Nat} (hi : slot.Owns i) : ¬ other.Owns i := by
  obtain ⟨hle, hlt⟩ := hi
  rintro ⟨hle', hlt'⟩
  rcases h with h | h <;> omega

theorem Fits.shift_lt (h : slot.Fits) : slot.shift < 64 := by
  have := h.positive
  have := h.inside
  omega

/-- The value of the field in a word. -/
def read (slot : BitSlot) (word : UInt64) : UInt64 :=
  (word >>> UInt64.ofNat slot.shift) &&& slot.mask

/-- The word with a value in place of the field. -/
def put (slot : BitSlot) (word value : UInt64) : UInt64 :=
  (word &&& ~~~(slot.mask <<< UInt64.ofNat slot.shift)) ||| (value <<< UInt64.ofNat slot.shift)

theorem extract_eq (h : slot.Fits) (word : UInt64) : slot.extract word = .ok (slot.read word) :=
  if_pos h.shift_lt

theorem mask_lt_iff (h : slot.Fits) : slot.mask < value ↔ 2 ^ slot.width ≤ value.toNat := by
  have hmin : min slot.width 64 = slot.width := Nat.min_eq_left (by have := h.inside; omega)
  have hpos := Nat.two_pow_pos slot.width
  rw [UInt64.lt_iff_toNat_lt, mask, toNat_lowMask, hmin]
  omega

/-- A value is put into the field if it has no more bits than the field. -/
theorem insert_eq (h : slot.Fits) (word value : UInt64) :
    slot.insert word value =
      .ok (if 2 ^ slot.width ≤ value.toNat then none else some (slot.put word value)) := by
  unfold insert
  by_cases hlt : slot.mask < value
  · rw [if_pos hlt, if_pos ((mask_lt_iff h).1 hlt)]
  · rw [if_neg hlt, if_neg (mt (mask_lt_iff h).2 hlt)]
    exact if_pos h.shift_lt

theorem testBit_read (h : slot.Fits) (word : UInt64) (i : Nat) :
    (slot.read word).toNat.testBit i =
      (decide (i < slot.width) && word.toNat.testBit (slot.shift + i)) := by
  have hmin : min slot.width 64 = slot.width := Nat.min_eq_left (by have := h.inside; omega)
  rw [read, UInt64.toNat_and, Nat.testBit_and, testBit_shiftRight h.shift_lt, mask,
    testBit_lowMask, hmin, Bool.and_comm]

theorem testBit_put (h : slot.Fits) (hfits : value.toNat < 2 ^ slot.width) (i : Nat) :
    (slot.put word value).toNat.testBit i =
      if slot.Owns i then value.toNat.testBit (i - slot.shift) else word.toNat.testBit i := by
  have hinside := h.inside
  have hmin : min slot.width 64 = slot.width := Nat.min_eq_left (by omega)
  rw [put, UInt64.toNat_or, Nat.testBit_or, UInt64.toNat_and, Nat.testBit_and, testBit_not,
    testBit_shiftLeft h.shift_lt, testBit_shiftLeft h.shift_lt, mask, testBit_lowMask, hmin]
  by_cases howns : slot.Owns i
  · obtain ⟨hle, hlt⟩ := howns
    have hi : i < 64 := by omega
    have hsub : i - slot.shift < slot.width := by omega
    rw [if_pos ⟨hle, hlt⟩]
    simp [hi, hle, hsub]
  · rw [if_neg howns]
    -- above the slot the value has no bits, below it neither mask nor value reaches
    rcases Nat.lt_or_ge i 64 with hi | hi
    · by_cases hle : slot.shift ≤ i
      · have hge : ¬ i - slot.shift < slot.width := fun hlt => howns ⟨hle, by omega⟩
        have hvalue : value.toNat.testBit (i - slot.shift) = false :=
          Nat.testBit_lt_two_pow (Nat.lt_of_lt_of_le hfits
            (Nat.pow_le_pow_right (by decide) (Nat.le_of_not_lt hge)))
        simp [hi, hge, hvalue]
      · simp [hi, hle]
    · simp [Nat.not_lt.2 hi, testBit_of_le hi]

/-- A word does not grow when a value is put into a slot inside it. -/
theorem toNat_put_lt (h : slot.Fits) (hfits : value.toNat < 2 ^ slot.width) {count : Nat}
    (hinside : slot.shift + slot.width ≤ count) (hword : word.toNat < 2 ^ count) :
    (slot.put word value).toNat < 2 ^ count := by
  refine Nat.lt_pow_two_of_testBit _ fun i hi => ?_
  have houtside : ¬ slot.Owns i := by
    rintro ⟨-, hlt⟩
    omega
  rw [testBit_put h hfits, if_neg houtside]
  exact Nat.testBit_lt_two_pow (Nat.lt_of_lt_of_le hword (Nat.pow_le_pow_right (by decide) hi))

/-- What was put into a slot is read from it. -/
theorem read_put (h : slot.Fits) (hfits : value.toNat < 2 ^ slot.width) :
    slot.read (slot.put word value) = value := by
  refine eq_of_testBit fun i _ => ?_
  rw [testBit_read h, testBit_put h hfits]
  rcases Nat.lt_or_ge i slot.width with hi | hi
  · rw [if_pos ⟨by omega, by omega⟩, Nat.add_sub_cancel_left]
    simp [hi]
  · rw [Nat.testBit_lt_two_pow (Nat.lt_of_lt_of_le hfits (Nat.pow_le_pow_right (by decide) hi))]
    simp [Nat.not_lt.2 hi]

/-- A slot reads the same after a value was put into another one. -/
theorem read_put_apart (h : slot.Fits) (hother : other.Fits) (hapart : slot.Apart other)
    (hfits : value.toNat < 2 ^ other.width) :
    slot.read (other.put word value) = slot.read word := by
  refine eq_of_testBit fun i _ => ?_
  rw [testBit_read h, testBit_read h, testBit_put hother hfits]
  rcases Nat.lt_or_ge i slot.width with hi | hi
  · rw [if_neg (hapart.not_owns ⟨by omega, by omega⟩)]
  · simp [Nat.not_lt.2 hi]

/-- Values are put into slots that share no bit in either order. -/
theorem put_comm (h : slot.Fits) (hother : other.Fits) (hapart : slot.Apart other)
    {value' : UInt64} (hfits : value.toNat < 2 ^ slot.width)
    (hfits' : value'.toNat < 2 ^ other.width) :
    other.put (slot.put word value) value' = slot.put (other.put word value') value := by
  refine eq_of_testBit fun i _ => ?_
  rw [testBit_put hother hfits', testBit_put h hfits, testBit_put h hfits,
    testBit_put hother hfits']
  by_cases howns : slot.Owns i
  · rw [if_neg (hapart.not_owns howns), if_pos howns, if_pos howns]
  · rw [if_neg howns, if_neg howns]

/-- The mask of a slot has the bits that belong to it. -/
theorem unitMask_eq (h : slot.Fits) :
    ∃ mask, slot.unitMask = .ok mask ∧ ∀ i, mask.toNat.testBit i = decide (slot.Owns i) := by
  refine ⟨_, if_pos h.shift_lt, fun i => ?_⟩
  have hinside := h.inside
  have hmin : min slot.width 64 = slot.width := Nat.min_eq_left (by omega)
  rw [testBit_shiftLeft h.shift_lt, mask, testBit_lowMask, hmin, Bool.eq_iff_iff]
  simp only [Bool.and_eq_true, decide_eq_true_eq]
  constructor
  · rintro ⟨⟨_, hle⟩, hlt⟩
    exact ⟨hle, by omega⟩
  · rintro ⟨hle, hlt⟩
    exact ⟨⟨by omega, hle⟩, by omega⟩

theorem testBit_unitMask (h : slot.Fits) {mask : UInt64} (hmask : slot.unitMask = .ok mask)
    (i : Nat) : mask.toNat.testBit i = decide (slot.Owns i) := by
  obtain ⟨found, hfound, hbits⟩ := unitMask_eq h
  obtain rfl := Except.ok.inj (hmask.symm.trans hfound)
  exact hbits i

/-- A value that is put into a slot changes bits under its mask only. -/
theorem put_and_not_unitMask (h : slot.Fits) (hfits : value.toNat < 2 ^ slot.width) {mask : UInt64}
    (hmask : slot.unitMask = .ok mask) : slot.put word value &&& ~~~mask = word &&& ~~~mask := by
  refine eq_of_testBit fun i _ => ?_
  rw [UInt64.toNat_and, Nat.testBit_and, UInt64.toNat_and, Nat.testBit_and, testBit_not,
    testBit_unitMask h hmask, testBit_put h hfits]
  by_cases howns : slot.Owns i
  · simp [howns]
  · rw [if_neg howns]

/-- The masks of slots that share no bit are disjoint. -/
theorem unitMask_disjoint (h : slot.Fits) (hother : other.Fits) (hapart : slot.Apart other) :
    ∃ a b, slot.unitMask = .ok a ∧ other.unitMask = .ok b ∧ a &&& b = 0 := by
  obtain ⟨a, ha, hbits⟩ := unitMask_eq h
  obtain ⟨b, hb, hbits'⟩ := unitMask_eq hother
  refine ⟨a, b, ha, hb, eq_of_testBit fun i _ => ?_⟩
  rw [UInt64.toNat_and, Nat.testBit_and, hbits, hbits', UInt64.toNat_zero, Nat.zero_testBit]
  by_cases howns : slot.Owns i
  · simp [hapart.not_owns howns]
  · simp [howns]

end BitSlot

end PacketLayout
