import Mathlib.Algebra.Ring.Int.Defs
import PacketLayout.Access.Edit
import PacketLayout.Proofs.Extents
import PacketLayout.Proofs.Ranges
import PacketLayout.Proofs.Words

/-!
# Reading and writing numbers

An integer, an enumeration and a bit-field all hold a number inside a word of the buffer. Reading
takes the number out of the word and gives it a meaning; an edit puts another number in, or is
refused.

* `Provider.number`, `Provider.put` and `Provider.valueOf` are the three steps.
* `Provider.numberOf?` is the number that an edit asks for, if the field can hold it.
* `View.get_eq` and `View.apply_eq` say that a view reads and writes in this way.
-/

namespace PacketLayout

namespace Provider

/-! ## Numbers inside words -/

/-- The bits of the number. -/
def bits : Provider → Nat
  | scalar kind | enumeration _ kind => kind.bits
  | bitField slot _ => slot.width
  | composite _ | rawSlice => 0

/-- The number inside a word. -/
def number : Provider → (word : UInt64) → UInt64
  | bitField slot _, word => slot.read word
  | _, word => word

/-- The word with another number inside. -/
def put : Provider → (word number : UInt64) → UInt64
  | bitField slot _, word, number => slot.put word number
  | _, _, number => number

/-- Whether numbers are read with a sign. -/
def isSigned : Provider → Bool
  | scalar kind => kind.isSigned
  | enumeration .. | bitField .. | composite _ | rawSlice => false

/-- The names of the numbers. -/
def enumeration? : Provider → Option Enumeration
  | enumeration type _ => some type
  | bitField _ type => type
  | scalar _ | composite _ | rawSlice => none

/-- The value that a number stands for: in two's complement where there is a sign, with its name
where there are names. -/
def valueOf (provider : Provider) (number : UInt64) : Value :=
  match provider.enumeration? with
  | some type => .ofEnumeration type number
  | none =>
    if provider.isSigned then
      .signed (Int64.ofInt ((number.toNat : Int).bmod (2 ^ provider.bits)))
    else .unsigned number

/-- The number that an edit asks for, if it asks for one that the field can hold. -/
def numberOf? (provider : Provider) : Edit → Option UInt64
  | .unsigned _ value => if value.toNat < 2 ^ provider.bits then some value else none
  | .signed _ value =>
    if provider.isSigned then
      let bound : Int := 2 ^ (provider.bits - 1)
      if value.toInt < -bound ∨ bound ≤ value.toInt then none
      else some (UInt64.ofInt (value.toInt % 2 ^ provider.bits))
    else if value.toInt < 0 then none
    else if value.toUInt64.toNat < 2 ^ provider.bits then some value.toUInt64
    else none
  | .variant _ variant =>
    (provider.enumeration?.bind (·.valueOf? variant)).filter (·.toNat < 2 ^ provider.bits)
  | .bytes .. => none

/-- The value that an edit stands for in a field. A number with a sign stands for itself where
numbers have a sign. -/
def meaning? (provider : Provider) : Edit → Option Value
  | .unsigned _ value => some (provider.valueOf value)
  | .signed _ value =>
    some (if provider.isSigned then .signed value else provider.valueOf value.toUInt64)
  | .variant _ variant =>
    (provider.enumeration?.bind (·.valueOf? variant)).map provider.valueOf
  | .bytes .. => none

theorem bits_pos_of_isSigned {provider : Provider} (h : provider.isSigned = true) :
    0 < provider.bits ∧ provider.bits ≤ 64 ∧ provider.enumeration? = none := by
  cases provider with
  | scalar kind => exact ⟨by cases kind <;> decide, by cases kind <;> decide, rfl⟩
  | enumeration | bitField | composite | rawSlice => cases h

theorem toNat_ofInt_emod {bits : Nat} (hbits : bits ≤ 64) (value : Int) :
    ((UInt64.ofInt (value % 2 ^ bits)).toNat : Int) = value % 2 ^ bits := by
  have hpos : (0 : Int) < 2 ^ bits := Int.pow_pos (by decide)
  have hnonneg := Int.emod_nonneg value (Int.ne_of_gt hpos)
  have hlt : value % 2 ^ bits < 2 ^ 64 :=
    Int.lt_of_lt_of_le (Int.emod_lt_of_pos value hpos)
      (by exact_mod_cast Nat.pow_le_pow_right (by decide : 0 < 2) hbits)
  rw [UInt64.ofInt, UInt64.toNat_ofNat', Int.emod_eq_of_lt hnonneg hlt]
  omega

/-- Two's complement keeps a number that has enough bits. -/
theorem ofInt_bmod_ofInt_emod {bits : Nat} (hpos : 0 < bits) (hbits : bits ≤ 64) {value : Int64}
    (hlow : -2 ^ (bits - 1) ≤ value.toInt) (hhigh : value.toInt < 2 ^ (bits - 1)) :
    Int64.ofInt (((UInt64.ofInt (value.toInt % 2 ^ bits)).toNat : Int).bmod (2 ^ bits)) =
      value := by
  obtain ⟨count, rfl⟩ : ∃ count, bits = count + 1 := ⟨bits - 1, by omega⟩
  rw [Nat.add_sub_cancel] at hlow hhigh
  have hcast : ((2 ^ (count + 1) : Nat) : Int) = 2 ^ (count + 1) := by
    push_cast
    rfl
  -- the balanced remainder of a number in the range of the sign is the number itself
  have hkeep : (value.toInt % 2 ^ (count + 1)).bmod (2 ^ (count + 1)) = value.toInt := by
    rw [← hcast, Int.emod_bmod]
    refine Int.bmod_eq_of_le_mul_two ?_ ?_ <;> rw [hcast, Int.pow_succ] <;> omega
  rw [toNat_ofInt_emod hbits]
  rw [hkeep]
  exact Int64.ofInt_toInt value

/-- A number that is put in stands for what the edit stands for. -/
theorem meaning?_of_numberOf? {provider : Provider} {edit : Edit} {number : UInt64}
    (h : provider.numberOf? edit = some number) :
    provider.meaning? edit = some (provider.valueOf number) := by
  cases edit with
  | unsigned field value =>
    simp only [numberOf?, Option.ite_none_right_eq_some, Option.some.injEq] at h
    rw [meaning?, h.2]
  | signed field value =>
    cases hsigned : provider.isSigned with
    | true =>
      obtain ⟨hpos, hbits, hnames⟩ := bits_pos_of_isSigned hsigned
      simp only [numberOf?, hsigned, if_true, Option.ite_none_left_eq_some, Option.some.injEq,
        not_or, Int.not_lt, Int.not_le] at h
      obtain ⟨⟨hlow, hhigh⟩, rfl⟩ := h
      simp only [meaning?, valueOf, hnames, hsigned, if_true]
      rw [ofInt_bmod_ofInt_emod hpos hbits hlow hhigh]
    | false =>
      simp only [numberOf?, hsigned, Bool.false_eq_true, if_false, Option.ite_none_left_eq_some,
        Option.ite_none_right_eq_some, Option.some.injEq] at h
      obtain ⟨-, -, rfl⟩ := h
      simp only [meaning?, hsigned, Bool.false_eq_true, if_false]
  | variant field variant =>
    simp only [numberOf?, Option.filter_eq_some_iff] at h
    rw [meaning?, h.1, Option.map_some]
  | bytes => cases h

/-- Only numbers that the field can hold are asked for. -/
theorem numberOf?_lt {provider : Provider} {edit : Edit} {number : UInt64}
    (h : provider.numberOf? edit = some number) : number.toNat < 2 ^ provider.bits := by
  cases edit with
  | unsigned field value =>
    simp only [numberOf?, Option.ite_none_right_eq_some, Option.some.injEq] at h
    exact h.2 ▸ h.1
  | signed field value =>
    cases hsigned : provider.isSigned with
    | true =>
      obtain ⟨-, hbits, -⟩ := bits_pos_of_isSigned hsigned
      simp only [numberOf?, hsigned, if_true, Option.ite_none_left_eq_some,
        Option.some.injEq] at h
      obtain ⟨-, rfl⟩ := h
      have hnumber := toNat_ofInt_emod hbits value.toInt
      have hpos : (0 : Int) < 2 ^ provider.bits := Int.pow_pos (by decide)
      have hlt := Int.emod_lt_of_pos value.toInt hpos
      rw [← hnumber] at hlt
      exact_mod_cast hlt
    | false =>
      simp only [numberOf?, hsigned, Bool.false_eq_true, if_false, Option.ite_none_left_eq_some,
        Option.ite_none_right_eq_some, Option.some.injEq] at h
      obtain ⟨-, hlt, rfl⟩ := h
      exact hlt
  | variant field variant =>
    simp only [numberOf?, Option.filter_eq_some_iff, decide_eq_true_eq] at h
    exact h.2
  | bytes => cases h

/-! ## Numbers and their words -/

/-- The number of a provider is a part of its word. -/
structure Fits (provider : Provider) (width : Nat) : Prop where
  wordWidth? : provider.wordWidth? = some width
  slot : ∀ slot, provider.slot? = some slot →
    slot.Fits ∧ slot.shift + slot.width ≤ 8 * slot.unit

theorem pow_eq (count : Nat) : 256 ^ count = 2 ^ (8 * count) := by
  rw [Nat.pow_mul]

/-- A number that was put into a word is found there. -/
theorem number_put {provider : Provider} {width : Nat} (h : provider.Fits width)
    {number : UInt64} (hnumber : number.toNat < 2 ^ provider.bits) (word : UInt64) :
    provider.number (provider.put word number) = number := by
  cases provider with
  | bitField slot type => exact BitSlot.read_put (h.slot slot rfl).1 hnumber
  | scalar | enumeration | composite | rawSlice => rfl

/-- A number stays as it is when another one is put into the same word, apart from it. -/
theorem number_put_apart {provider other : Provider} {slot slot' : BitSlot} {width width' : Nat}
    (h : provider.Fits width) (h' : other.Fits width') (hslot : provider.slot? = some slot)
    (hslot' : other.slot? = some slot') (hapart : slot.Apart slot') {number : UInt64}
    (hnumber : number.toNat < 2 ^ other.bits) (word : UInt64) :
    provider.number (other.put word number) = provider.number word := by
  cases provider with
  | scalar | enumeration | composite | rawSlice => cases hslot
  | bitField =>
    cases other with
    | scalar | enumeration | composite | rawSlice => cases hslot'
    | bitField =>
      obtain rfl := Option.some.inj hslot
      obtain rfl := Option.some.inj hslot'
      exact BitSlot.read_put_apart (h.slot _ rfl).1 (h'.slot _ rfl).1 hapart hnumber

/-- Numbers that lie apart from each other are put into a word in either order. -/
theorem put_comm {provider other : Provider} {slot slot' : BitSlot} {width width' : Nat}
    (h : provider.Fits width) (h' : other.Fits width') (hslot : provider.slot? = some slot)
    (hslot' : other.slot? = some slot') (hapart : slot.Apart slot') {number number' : UInt64}
    (hnumber : number.toNat < 2 ^ provider.bits) (hnumber' : number'.toNat < 2 ^ other.bits)
    (word : UInt64) :
    other.put (provider.put word number) number' =
      provider.put (other.put word number') number := by
  cases provider with
  | scalar | enumeration | composite | rawSlice => cases hslot
  | bitField =>
    cases other with
    | scalar | enumeration | composite | rawSlice => cases hslot'
    | bitField =>
      obtain rfl := Option.some.inj hslot
      obtain rfl := Option.some.inj hslot'
      exact BitSlot.put_comm (h.slot _ rfl).1 (h'.slot _ rfl).1 hapart hnumber hnumber'

/-- The word that takes up a number has no more bytes than before. -/
theorem toNat_put_lt {provider : Provider} {width : Nat} (h : provider.Fits width)
    {number : UInt64} (hnumber : number.toNat < 2 ^ provider.bits) {word : UInt64}
    (hword : word.toNat < 256 ^ width) : (provider.put word number).toNat < 256 ^ width := by
  have hwidth := h.wordWidth?
  rw [pow_eq] at hword ⊢
  cases provider with
  | scalar | enumeration =>
    obtain rfl := Option.some.inj hwidth
    exact hnumber
  | bitField slot type =>
    obtain rfl := Option.some.inj hwidth
    obtain ⟨hfits, hinside⟩ := h.slot slot rfl
    exact BitSlot.toNat_put_lt hfits hnumber hinside hword
  | composite | rawSlice => cases hwidth

/-- Why an edit that asks for no number is refused. -/
def refusal (provider : Provider) : Edit → WriteError
  | .unsigned field _ | .signed field _ => .invalidValue field
  | .variant field _ =>
    if provider.enumeration?.isSome then .invalidValue field else .typeMismatch field
  | .bytes field _ => .typeMismatch field

end Provider

/-! ## Numbers in views -/

namespace View

/-- The word behind a number lies inside the buffer. -/
structure Reaches (view : View) (span : Span) (provider : Provider) (width : Nat) : Prop where
  fits : provider.Fits width
  inside : span.start + width ≤ view.data.length

/-- The word behind a number. -/
def wordOf (view : View) (span : Span) (width : Nat) : UInt64 :=
  view.data.wordAt span.start width

/-- The buffer with another number in place of the one at a range. -/
def stored (view : View) (span : Span) (width : Nat) (provider : Provider) (number : UInt64) :
    Bytes :=
  view.data.overwrite span.start
    (BigEndian.bytes width (provider.put (view.wordOf span width) number))

variable {view : View} {span : Span} {provider : Provider} {width : Nat}

theorem word_eq (h : span.start + width ≤ view.data.length) :
    view.word span width = .ok (view.wordOf span width) :=
  BigEndian.read_eq_ok h

theorem putWord_eq (h : span.start + width ≤ view.data.length) (word : UInt64) :
    view.putWord span width word =
      .ok (view.data.overwrite span.start (BigEndian.bytes width word)) := by
  rw [putWord, BigEndian.write_eq_ok word h]
  rfl

theorem decode_eq (h : view.Reaches span provider width) :
    view.decode span provider =
      .ok (provider.valueOf (provider.number (view.wordOf span width))) := by
  have hword := word_eq h.inside
  have hwidth := h.fits.wordWidth?
  cases provider with
  | scalar kind =>
    obtain rfl := Option.some.inj hwidth
    rw [decode, hword]
    cases hsigned : kind.isSigned with
    | true =>
      -- an integer has between one and 64 bits, so its sign can be extended
      have hextend : BigEndian.signExtend (view.wordOf span kind.width) kind.bits =
          .ok (Int64.ofInt (((view.wordOf span kind.width).toNat : Int).bmod (2 ^ kind.bits))) := by
        rw [BigEndian.signExtend, if_neg (by cases kind <;> decide),
          if_neg (by cases kind <;> decide), Nat.one_shiftLeft]
      simp [hsigned, hextend, bind, Except.bind, pure, Except.pure, Provider.valueOf,
        Provider.enumeration?, Provider.isSigned, Provider.number, Provider.bits]
    | false =>
      simp [hsigned, bind, Except.bind, pure, Except.pure, Provider.valueOf,
        Provider.enumeration?, Provider.isSigned, Provider.number]
  | enumeration type kind =>
    obtain rfl := Option.some.inj hwidth
    rw [decode, hword]
    rfl
  | bitField slot type =>
    obtain rfl := Option.some.inj hwidth
    rw [decode, hword]
    have hextract := BitSlot.extract_eq (h.fits.slot slot rfl).1 (view.wordOf span slot.unit)
    cases type <;>
      simp [hextract, bind, Except.bind, pure, Except.pure, Provider.valueOf,
        Provider.enumeration?, Provider.isSigned, Provider.number]
  | composite | rawSlice => cases hwidth

theorem cast_one_shiftLeft (count : Nat) : ((1 <<< count : Nat) : Int) = 2 ^ count := by
  rw [Nat.one_shiftLeft]
  push_cast
  rfl

theorem toNat_maxRaw (kind : IntKind) : kind.maxRaw.toNat = 2 ^ kind.bits - 1 := by
  cases kind <;> rfl

theorem maxRaw_lt_iff (kind : IntKind) (value : UInt64) :
    kind.maxRaw < value ↔ 2 ^ kind.bits ≤ value.toNat := by
  have hpos := Nat.two_pow_pos kind.bits
  rw [UInt64.lt_iff_toNat_lt, toNat_maxRaw]
  omega

theorem putUnsigned_of_lt (h : view.Reaches span provider width) (name : String) {value : UInt64}
    (hvalue : value.toNat < 2 ^ provider.bits) :
    view.putUnsigned name span value provider = .ok (view.stored span width provider value) := by
  have hwidth := h.fits.wordWidth?
  cases provider with
  | scalar kind | enumeration _ kind =>
    obtain rfl := Option.some.inj hwidth
    have hmax : ¬ kind.maxRaw < value := mt (maxRaw_lt_iff kind value).1 (Nat.not_le.2 hvalue)
    rw [putUnsigned, if_neg hmax]
    exact putWord_eq h.inside value
  | bitField slot type =>
    obtain rfl := Option.some.inj hwidth
    have hinsert := BitSlot.insert_eq (h.fits.slot slot rfl).1 (view.wordOf span slot.unit) value
    have hfits : ¬ 2 ^ slot.width ≤ value.toNat := Nat.not_le.2 hvalue
    rw [if_neg hfits] at hinsert
    simp only [putUnsigned, word_eq h.inside, hinsert, bind, Except.bind, Failure.ofError_ok,
      Failure.ofRead_ok, Failure.ofFault_ok]
    exact putWord_eq h.inside _
  | composite | rawSlice => cases hwidth

theorem putUnsigned_of_le (h : view.Reaches span provider width) (name : String) {value : UInt64}
    (hvalue : 2 ^ provider.bits ≤ value.toNat) :
    view.putUnsigned name span value provider = .error (.error (.invalidValue name)) := by
  have hwidth := h.fits.wordWidth?
  cases provider with
  | scalar kind | enumeration _ kind =>
    rw [putUnsigned, if_pos ((maxRaw_lt_iff kind value).2 hvalue)]
    rfl
  | bitField slot type =>
    obtain rfl := Option.some.inj hwidth
    have hinsert := BitSlot.insert_eq (h.fits.slot slot rfl).1 (view.wordOf span slot.unit) value
    have hlarge : 2 ^ slot.width ≤ value.toNat := hvalue
    rw [if_pos hlarge] at hinsert
    simp only [putUnsigned, word_eq h.inside, hinsert, bind, Except.bind, Failure.ofError_ok,
      Failure.ofRead_ok, Failure.ofFault_ok]
    rfl
  | composite | rawSlice => cases hwidth

/-- What an edit of a number does: it puts in the number that it asks for, or says why not. -/
def outcome (view : View) (span : Span) (width : Nat) (provider : Provider) (edit : Edit) :
    Write Bytes :=
  match provider.numberOf? edit with
  | some number => .ok (view.stored span width provider number)
  | none => .error (.error (provider.refusal edit))

section

variable {name : String} (htarget : view.target name = .ok (provider, span))
  (h : view.Reaches span provider width)

include htarget h

theorem setUnsigned_eq (value : UInt64) :
    view.setUnsigned name value = view.outcome span width provider (.unsigned name value) := by
  rw [setUnsigned, htarget, outcome, Provider.numberOf?]
  by_cases hvalue : value.toNat < 2 ^ provider.bits
  · rw [if_pos hvalue]
    exact putUnsigned_of_lt h name hvalue
  · rw [if_neg hvalue]
    exact putUnsigned_of_le h name (Nat.not_lt.1 hvalue)

theorem setNatural_eq (hsigned : provider.isSigned = false) (value : Int64) :
    view.setNatural name value = view.outcome span width provider (.signed name value) := by
  rw [setNatural, setUnsigned_eq htarget h, outcome, outcome, Provider.numberOf?,
    Provider.numberOf?, hsigned, if_neg Bool.false_ne_true]
  by_cases hnegative : value.toInt < 0
  · rw [if_pos hnegative, if_pos hnegative]
    rfl
  · rw [if_neg hnegative, if_neg hnegative]
    rfl

theorem setSigned_eq (value : Int64) :
    view.setSigned name value = view.outcome span width provider (.signed name value) := by
  have hnatural := setNatural_eq htarget h
  rw [setSigned, htarget]
  cases provider with
  | scalar kind =>
    have hwidth := h.fits.wordWidth?
    obtain rfl := Option.some.inj hwidth
    cases hsigned : kind.isSigned with
    | false =>
      rw [← hnatural hsigned value]
      simp [hsigned, bind, Except.bind]
    | true =>
      have hprovider : (Provider.scalar kind).isSigned = true := hsigned
      simp only [bind, Except.bind, Failure.ofError_ok, hsigned, if_true, outcome,
        Provider.numberOf?, hprovider, cast_one_shiftLeft]
      by_cases hrange : value.toInt < -2 ^ (kind.bits - 1) ∨ 2 ^ (kind.bits - 1) ≤ value.toInt
      · have hrange' : value.toInt < -2 ^ ((Provider.scalar kind).bits - 1) ∨
          2 ^ ((Provider.scalar kind).bits - 1) ≤ value.toInt := hrange
        rw [if_pos hrange, if_pos hrange']
        rfl
      · have hrange' : ¬ (value.toInt < -2 ^ ((Provider.scalar kind).bits - 1) ∨
          2 ^ ((Provider.scalar kind).bits - 1) ≤ value.toInt) := hrange
        rw [if_neg hrange, if_neg hrange']
        exact putWord_eq h.inside _
  | enumeration | bitField => exact hnatural rfl value
  | composite | rawSlice => cases h.fits.wordWidth?

theorem setVariant_eq (variant : String) :
    view.setVariant name variant = view.outcome span width provider (.variant name variant) := by
  -- a name is a number of the enumeration, or an error
  have hnumber : ∀ type, provider.enumeration? = some type →
      (match type.valueOf? variant with
        | some value => view.setUnsigned name value
        | none => throw (.error (.invalidValue name)) : Write Bytes) =
      view.outcome span width provider (.variant name variant) := by
    intro type htype
    rw [outcome, Provider.numberOf?, Provider.refusal, htype, Option.bind_some]
    cases hvalue : type.valueOf? variant with
    | none => rfl
    | some value =>
      simp only [setUnsigned_eq htarget h, outcome, Provider.numberOf?, Option.filter_some,
        decide_eq_true_eq]
      split <;> rfl
  rw [setVariant, htarget]
  cases provider with
  | enumeration type kind => exact hnumber type rfl
  | bitField slot type =>
    cases type with
    | none => rfl
    | some type => exact hnumber type rfl
  | scalar => rfl
  | composite | rawSlice => cases h.fits.wordWidth?

theorem setBytes_eq (data : Bytes) :
    view.setBytes name data = view.outcome span width provider (.bytes name data) := by
  rw [setBytes, htarget]
  have hwidth := h.fits.wordWidth?
  cases provider with
  | composite => cases hwidth
  | scalar | enumeration | bitField | rawSlice => rfl

end

/-- An edit of a number has its outcome, whatever kind it is of. -/
theorem apply_eq {edit : Edit} (htarget : view.target edit.field = .ok (provider, span))
    (h : view.Reaches span provider width) :
    view.apply edit = view.outcome span width provider edit := by
  cases edit with
  | unsigned field value => exact setUnsigned_eq htarget h value
  | signed field value => exact setSigned_eq htarget h value
  | variant field variant => exact setVariant_eq htarget h variant
  | bytes field data => exact setBytes_eq htarget h data

/-- The word of a number that is stored is the one that took it up. -/
theorem wordAt_stored (h : view.Reaches span provider width) {number : UInt64}
    (hnumber : number.toNat < 2 ^ provider.bits) :
    (view.stored span width provider number).wordAt span.start width =
      provider.put (view.wordOf span width) number := by
  have hword : (view.wordOf span width).toNat < 256 ^ width :=
    Bytes.toNat_wordAt_lt span.start width
  rw [stored, Bytes.wordAt_overwrite h.inside (Provider.toNat_put_lt h.fits hnumber hword)]

/-- A leaf that holds a number is read through its word. -/
theorem get_eq {name : String} {field : PlannedField} {leaf : Leaf}
    (hfield : view.plan.field? name = some field) (hleaf : field.leaf? = some leaf)
    (hspan : view.locate field = .ok span) (h : view.Reaches span leaf.provider width) :
    view.get name =
      .ok (leaf.provider.valueOf (leaf.provider.number (view.wordOf span width))) := by
  simp only [get, lookup, hfield, PlannedField.provider, hleaf, mapError_ok, hspan, bind,
    Except.bind, Failure.ofError_ok]
  exact decode_eq h

/-- A leaf that may be written is the target of its name. -/
theorem target_eq {name : String} {field : PlannedField} {leaf : Leaf}
    (hfield : view.plan.field? name = some field) (hleaf : field.leaf? = some leaf)
    (hwritable : leaf.writable = true) (hspan : view.locate field = .ok span) :
    view.target name = .ok (leaf.provider, span) := by
  simp only [target, lookup, hfield, hleaf, mapError_ok, hwritable, hspan, bind, Except.bind,
    if_true]
  rfl

end View

end PacketLayout
