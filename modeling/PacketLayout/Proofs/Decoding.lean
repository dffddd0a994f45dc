import PacketLayout.Proofs.BitFields
import PacketLayout.Proofs.Positional
import PacketLayout.Proofs.Signs

/-!
# Fields are decoded from their bytes

A view finds the range of a field and then reads as many bytes as its provider asks for. In a plan
the two are the same bytes, so what a field reads is settled by its provider and its own bytes: the
buffer around them, its length and the place in it do not matter.

* `Provider.Reads` says what the bytes of a leaf are decoded to, and `Provider.Reads.unique` that
  there is one result only.
* `Resolved.exists_reads` says that a field which is found is decoded from its range.
* `Schema.decodes_raw` is the statement about plans.
-/

namespace PacketLayout

/-! ## Decoding -/

/-- What a leaf reads if `part` are its bytes: the number that they spell, in two's complement if
the integer has a sign, or the bits of a slot of it; or what a codec makes of them. -/
inductive Provider.Reads : Provider → (part : Bytes) → Read Value → Prop
  | unsigned {kind : IntKind} {part : Bytes} {value : UInt64} (plain : kind.isSigned = false)
      (number : value.toNat = part.number) :
      Reads (.scalar kind) part (.ok (.unsigned value))
  | signed {kind : IntKind} {part : Bytes} {value : Int64} (signed : kind.isSigned = true)
      (low : -2 ^ (kind.bits - 1) ≤ value.toInt) (high : value.toInt < 2 ^ (kind.bits - 1))
      (number : value.toInt ≡ part.number [ZMOD 2 ^ kind.bits]) :
      Reads (.scalar kind) part (.ok (.signed value))
  | enumeration {type : Enumeration} {kind : IntKind} {part : Bytes} {value : UInt64}
      (number : value.toNat = part.number) :
      Reads (.enumeration type kind) part (.ok (.enumeration value (type.nameOf? value)))
  | bits {slot : BitSlot} {part : Bytes} {value : UInt64}
      (number : value.toNat = part.number / 2 ^ slot.shift % 2 ^ slot.width) :
      Reads (.bitField slot none) part (.ok (.unsigned value))
  | namedBits {slot : BitSlot} {type : Enumeration} {part : Bytes} {value : UInt64}
      (number : value.toNat = part.number / 2 ^ slot.shift % 2 ^ slot.width) :
      Reads (.bitField slot (some type)) part (.ok (.enumeration value (type.nameOf? value)))
  | composite {type : Composite} {part viewed : Bytes}
      (built : type.codec.construct part = some viewed) :
      Reads (.composite type) part (.ok (.composite type viewed))
  | refused {type : Composite} {part : Bytes} (refused : type.codec.construct part = none) :
      Reads (.composite type) part (.error (.error (.composite type.name)))
  | rawSlice {part : Bytes} : Reads .rawSlice part (.ok (.bytes part))

namespace Provider

/-- The bytes of a leaf are decoded to one result. -/
theorem Reads.unique {provider : Provider} {part : Bytes} {first second : Read Value}
    (h : provider.Reads part first) (h' : provider.Reads part second) : first = second := by
  cases h with
  | unsigned plain number =>
    cases h' with
    | unsigned _ number' => rw [UInt64.toNat.inj (number.trans number'.symm)]
    | signed signed => rw [plain] at signed; cases signed
  | @signed kind _ value signed low high number =>
    cases h' with
    | unsigned plain => rw [plain] at signed; cases signed
    | signed _ low' high' number' =>
      -- only one number in the range of the sign has the remainder
      have hpos : 0 < kind.bits := by cases kind <;> decide
      have hvalue := (eq_bmod_iff hpos _ _).1 ⟨low, high, number⟩
      have hvalue' := (eq_bmod_iff hpos _ _).1 ⟨low', high', number'⟩
      rw [Int64.toInt_inj.1 (hvalue.trans hvalue'.symm)]
  | enumeration number =>
    cases h' with
    | enumeration number' => rw [UInt64.toNat.inj (number.trans number'.symm)]
  | bits number =>
    cases h' with
    | bits number' => rw [UInt64.toNat.inj (number.trans number'.symm)]
  | namedBits number =>
    cases h' with
    | namedBits number' => rw [UInt64.toNat.inj (number.trans number'.symm)]
  | composite built =>
    cases h' with
    | composite built' => rw [Option.some.inj (built.symm.trans built')]
    | refused refused => rw [refused] at built; cases built
  | refused refused =>
    cases h' with
    | composite built => rw [refused] at built; cases built
    | refused => rfl
  | rawSlice =>
    cases h' with
    | rawSlice => rfl

/-- The word behind a number is decoded to the value of the number. -/
theorem reads_of_fits {provider : Provider} {width : Nat} (h : provider.Fits width)
    (hwidth : width ≤ 8) {part : Bytes} (hpart : part.length = width) :
    provider.Reads part (.ok (provider.valueOf (provider.number (BigEndian.word part)))) := by
  have hword : (BigEndian.word part).toNat = part.number := BigEndian.toNat_word (by omega)
  cases provider with
  | scalar kind =>
    cases hsigned : kind.isSigned with
    | false =>
      rw [valueOf_unsigned hsigned]
      exact .unsigned hsigned hword
    | true =>
      have hpos : 0 < kind.bits := by cases kind <;> decide
      have hle : kind.bits ≤ 64 := by cases kind <;> decide
      rw [valueOf_signed hsigned]
      obtain ⟨hlow, hhigh, hmod⟩ := (eq_bmod_iff hpos part.number _).2 rfl
      have hvalue := toInt_ofInt_bmod hpos hle part.number
      simp only [number, hword]
      refine .signed hsigned ?_ ?_ ?_
      · rwa [hvalue]
      · rwa [hvalue]
      · rwa [hvalue]
  | enumeration type kind => exact .enumeration hword
  | bitField slot type =>
    have hread : (slot.read (BigEndian.word part)).toNat =
        part.number / 2 ^ slot.shift % 2 ^ slot.width := by
      rw [BitSlot.toNat_read (h.slot slot rfl).1, hword]
    cases type with
    | none => exact .bits hread
    | some type => exact .namedBits hread
  | composite | rawSlice => cases h.wordWidth?

end Provider

/-! ## Views -/

namespace View

variable {view : View} {field : PlannedField} {leaf : Leaf} {span : Span}

/-- A field that is not found is neither cut out nor read, for the same reason. -/
theorem raw_and_get_of_error (hfield : view.plan.field? field.name = some field)
    (hleaf : field.leaf? = some leaf) {error : ReadError}
    (hrange : view.range field.name = .error error) :
    view.raw field.name = .error (.error error) ∧ view.get field.name = .error (.error error) := by
  constructor
  · rw [raw, hrange]
    rfl
  · rw [range_eq hfield] at hrange
    simp only [get, lookup, hfield, PlannedField.provider, hleaf, mapError_ok, hrange, bind,
      Except.bind, Failure.ofError_ok]
    rfl

/-- The bytes of a field are those of its range. -/
theorem raw_eq_ok_iff {name : String} {part : Bytes} :
    view.raw name = .ok part ↔ ∃ span, view.range name = .ok span ∧
      view.data.slice span.start span.stop = .ok part := by
  refine bind_eq_ok_iff.trans (exists_congr fun span => ?_)
  rw [Failure.ofError_eq_ok_iff, Failure.ofFault_eq_ok_iff, cut]

/-- A field that is found is decoded where it lies. -/
theorem get_eq_decode (hfield : view.plan.field? field.name = some field)
    (hleaf : field.leaf? = some leaf) (hspan : view.range field.name = .ok span) :
    view.get field.name = view.decode span leaf.provider := by
  rw [range_eq hfield] at hspan
  simp only [get, lookup, hfield, PlannedField.provider, hleaf, mapError_ok, hspan, bind,
    Except.bind, Failure.ofError_ok]

/-- What holds no number is decoded from the bytes that are cut out. -/
theorem reads_decode_of_wordless {provider : Provider} (hwidth : provider.wordWidth? = none)
    {part : Bytes} (hslice : view.data.slice span.start span.stop = .ok part) :
    provider.Reads part (view.decode span provider) := by
  have hcut : view.cut span = .ok part := hslice
  cases provider with
  | composite type =>
    simp only [decode, hcut, Failure.ofFault_ok, bind, Except.bind]
    cases hbuilt : type.codec.construct part with
    | some viewed => exact .composite hbuilt
    | none => exact .refused hbuilt
  | rawSlice =>
    rw [decode, hcut]
    exact .rawSlice
  | scalar | enumeration | bitField => cases hwidth

end View

namespace Resolved

variable {policy : MismatchPolicy} {schema : Schema} {plan : Plan} {field : PlannedField}
  {leaf : Leaf}

/-- The word behind a number has at most eight bytes. -/
theorem wordWidth_le (h : Resolved policy schema plan) (hmem : field ∈ plan.fields)
    (hleaf : field.leaf? = some leaf) {width : Nat}
    (hwidth : leaf.provider.wordWidth? = some width) : width ≤ 8 := by
  cases hprovider : leaf.provider with
  | scalar kind | enumeration _ kind =>
    rw [hprovider] at hwidth
    exact Option.some.inj hwidth ▸ kind.width_le
  | bitField slot type =>
    have hslot : field.slot? = some slot := by
      rw [PlannedField.slot?, hleaf, Option.bind_some, hprovider]
      rfl
    rw [hprovider] at hwidth
    exact Option.some.inj hwidth ▸ (h.slot_fits hmem hslot).2.1
  | composite | rawSlice =>
    rw [hprovider] at hwidth
    cases hwidth

/-- A field that is found is decoded from the bytes of its range. If it holds a number, these are
the bytes of one word. -/
theorem exists_reads (h : Resolved policy schema plan) (hmem : field ∈ plan.fields)
    (hleaf : field.leaf? = some leaf) {data : Bytes} {span : Span}
    (hspan : View.range ⟨plan, data⟩ field.name = .ok span) :
    ∃ part, data.slice span.start span.stop = .ok part ∧
      leaf.provider.Reads part (View.get ⟨plan, data⟩ field.name) ∧
      ∀ width, leaf.provider.wordWidth? = some width → part.length = width := by
  have hfield := h.field?_of_mem hmem
  obtain ⟨hordered, hinside⟩ := View.ordered_of_range hspan
  have hslice := Bytes.slice_eq_ok hordered hinside
  have hlength := Bytes.length_of_slice hslice
  rw [View.get_eq_decode hfield hleaf hspan]
  rw [View.range_eq hfield] at hspan
  refine ⟨_, hslice, ?_, fun width hwidth => ?_⟩
  · cases hwidth : leaf.provider.wordWidth? with
    | none => exact View.reads_decode_of_wordless hwidth hslice
    | some width =>
      obtain ⟨hreaches, hstop⟩ := h.reaches_of_locate hmem hleaf hwidth hspan
      have hpart : span.stop - span.start = width := by omega
      rw [View.decode_eq hreaches, View.wordOf, Bytes.wordAt, ← hpart]
      exact Provider.reads_of_fits hreaches.fits (h.wordWidth_le hmem hleaf hwidth)
        (hlength.trans hpart)
  · obtain ⟨-, hstop⟩ := h.reaches_of_locate hmem hleaf hwidth hspan
    omega

end Resolved

/-! ## Plans -/

/-- What reading a leaf has to do with its bytes, in every buffer. -/
structure Plan.Decodes (plan : Plan) (field : PlannedField) (provider : Provider) : Prop where
  /-- a field that is not found is not read, for the same reason -/
  lost : ∀ data error, View.range ⟨plan, data⟩ field.name = .error error →
    View.raw ⟨plan, data⟩ field.name = .error (.error error) ∧
      View.get ⟨plan, data⟩ field.name = .error (.error error)
  found : ∀ data span, View.range ⟨plan, data⟩ field.name = .ok span →
    ∃ part, data.slice span.start span.stop = .ok part ∧
      View.raw ⟨plan, data⟩ field.name = .ok part ∧
      provider.Reads part (View.get ⟨plan, data⟩ field.name)
  length : ∀ data part width, provider.wordWidth? = some width →
    View.raw ⟨plan, data⟩ field.name = .ok part → part.length = width
  /-- the same bytes are read alike, wherever they are found -/
  agree : ∀ data data' part, View.raw ⟨plan, data⟩ field.name = .ok part →
    View.raw ⟨plan, data'⟩ field.name = .ok part →
    View.get ⟨plan, data⟩ field.name = View.get ⟨plan, data'⟩ field.name

/-- Every leaf of a plan, here and below its anchors, is decoded from its own bytes: if it is not
found, it cannot be read, for the same reason; otherwise its bytes say what is read, and nothing
else in the buffer does. A number has just the bytes of its word. -/
theorem Schema.decodes_raw {schema : Schema} {policy : MismatchPolicy} {plan sub : Plan}
    {path : List (String × String)} (h : schema.resolve policy = .ok plan)
    (hsub : plan.at? path = some sub) {field : PlannedField} (hmem : field ∈ sub.fields)
    {leaf : Leaf} (hleaf : field.leaf? = some leaf) : sub.Decodes field leaf.provider := by
  obtain ⟨part, -, hresolve⟩ := Schema.resolve_at? h hsub
  have hresolved := Schema.resolved hresolve
  have hfield := hresolved.field?_of_mem hmem
  have hreads : ∀ data part, View.raw ⟨sub, data⟩ field.name = .ok part →
      leaf.provider.Reads part (View.get ⟨sub, data⟩ field.name) ∧
        ∀ width, leaf.provider.wordWidth? = some width → part.length = width := by
    intro data part hraw
    obtain ⟨span, hspan, hslice⟩ := View.raw_eq_ok_iff.1 hraw
    obtain ⟨bytes, hbytes, hread⟩ := hresolved.exists_reads hmem hleaf hspan
    obtain rfl := Except.ok.inj (hbytes.symm.trans hslice)
    exact hread
  refine ⟨fun data error hrange => View.raw_and_get_of_error hfield hleaf hrange,
    fun data span hspan => ?_,
    fun data part width hwidth hraw => (hreads data part hraw).2 _ hwidth,
    fun data data' part hraw hraw' => ?_⟩
  · obtain ⟨bytes, hbytes, hread, -⟩ := hresolved.exists_reads hmem hleaf hspan
    exact ⟨bytes, hbytes, View.raw_eq_ok_iff.2 ⟨span, hspan, hbytes⟩, hread⟩
  · exact (hreads data part hraw).1.unique (hreads data' part hraw').1

/-- As many options as the first byte says, and behind them a number with a sign. -/
def driftSchema : Schema where
  name := "Drift"
  fields :=
    [.plain { name := "count", type := .integer .u8 },
      .plain { name := "options", type := .bytes, sizeFunction := some countSize },
      .plain { name := "drift", type := .integer .i16 }]

theorem driftSchema_decodes :
    ∃ plan field, driftSchema.resolve .error = .ok plan ∧ plan.field? "drift" = some field ∧
      plan.Decodes field (.scalar .i16) ∧
      View.raw ⟨plan, [1, 9, 0xff, 0xfe]⟩ field.name = .ok [0xff, 0xfe] ∧
      View.raw ⟨plan, [0, 0xff, 0xfe]⟩ field.name = .ok [0xff, 0xfe] ∧
      View.get ⟨plan, [1, 9, 0xff, 0xfe]⟩ field.name =
        View.get ⟨plan, [0, 0xff, 0xfe]⟩ field.name ∧
      View.get ⟨plan, [3, 9]⟩ field.name = .error (.error (.outOfBounds 4 6 2)) := by
  obtain ⟨plan, hplan⟩ : ∃ plan, driftSchema.resolve .error = .ok plan := ⟨_, rfl⟩
  obtain ⟨field, leaf, hfield, hleaf, hprovider⟩ : ∃ field leaf,
      plan.field? "drift" = some field ∧ field.leaf? = some leaf ∧
        leaf.provider = .scalar .i16 := by
    cases hplan
    exact ⟨_, _, rfl, rfl, rfl⟩
  obtain ⟨hfirst, hsecond, hlost⟩ :
      View.raw ⟨plan, [1, 9, 0xff, 0xfe]⟩ field.name = .ok [0xff, 0xfe] ∧
      View.raw ⟨plan, [0, 0xff, 0xfe]⟩ field.name = .ok [0xff, 0xfe] ∧
      View.range ⟨plan, [3, 9]⟩ field.name = .error (.outOfBounds 4 6 2) := by
    cases hplan
    cases hfield
    exact ⟨rfl, rfl, rfl⟩
  have hself : plan.at? [] = some plan := rfl
  have hdecodes := Schema.decodes_raw hplan hself (Plan.mem_of_field? hfield) hleaf
  exact ⟨plan, field, hplan, hfield, hprovider ▸ hdecodes, hfirst, hsecond,
    hdecodes.agree _ _ _ hfirst hsecond, (hdecodes.lost _ _ hlost).2⟩

end PacketLayout
