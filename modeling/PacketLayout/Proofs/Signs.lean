import Mathlib.Data.Int.ModEq
import PacketLayout.Proofs.NumberWrites

/-!
# Writes with and without a sign

A number may be written with a sign or without one. On an integer that has a sign both ways lead to
the same words, in two's complement; everywhere else a number with a sign is one that must not be
negative.

* `eq_bmod_iff` says what two's complement makes of a word.
* `UnsignedWrites`, `SignedWrites` and `NaturalWrites` are the laws of the two kinds of writes.
* `Schema.signed_and_unsigned` is the statement about plans.
-/

namespace PacketLayout

/-! ## Two's complement -/

/-- The balanced remainder is the only number in the range of a sign with the same remainder. -/
theorem eq_bmod_iff {bits : Nat} (hpos : 0 < bits) (a b : Int) :
    (-2 ^ (bits - 1) ≤ b ∧ b < 2 ^ (bits - 1) ∧ b ≡ a [ZMOD 2 ^ bits]) ↔
      b = a.bmod (2 ^ bits) := by
  obtain ⟨count, rfl⟩ : ∃ count, bits = count + 1 := ⟨bits - 1, by omega⟩
  have hcast : ((2 ^ (count + 1) : Nat) : Int) = 2 ^ (count + 1) := by
    push_cast
    rfl
  have hdouble : (2 : Int) ^ (count + 1) = 2 ^ count * 2 := Int.pow_succ 2 count
  rw [Nat.add_sub_cancel]
  constructor
  · rintro ⟨hlow, hhigh, hmod⟩
    have hkeep : b.bmod (2 ^ (count + 1)) = b := by
      refine Int.bmod_eq_of_le_mul_two ?_ ?_ <;> rw [hcast, hdouble] <;> omega
    rw [← hkeep, ← Int.emod_bmod, ← Int.emod_bmod (x := a), hcast, hmod]
  · rintro rfl
    have hlow := Int.le_bmod (x := a) (Nat.two_pow_pos (count + 1))
    have hhigh := Int.bmod_lt (x := a) (Nat.two_pow_pos (count + 1))
    rw [hcast, hdouble] at hlow hhigh
    refine ⟨by omega, by omega, ?_⟩
    rw [Int.ModEq, ← hcast, Int.bmod_emod]

/-- No more than 64 bits with a sign are kept. -/
theorem toInt_ofInt_bmod {bits : Nat} (hpos : 0 < bits) (hbits : bits ≤ 64) (a : Int) :
    (Int64.ofInt (a.bmod (2 ^ bits))).toInt = a.bmod (2 ^ bits) := by
  obtain ⟨hlow, hhigh, -⟩ := (eq_bmod_iff hpos a _).2 rfl
  have hpow : (2 : Int) ^ (bits - 1) ≤ 2 ^ 63 := by
    exact_mod_cast Nat.pow_le_pow_right (by decide : 0 < 2) (by omega : bits - 1 ≤ 63)
  exact Int64.toInt_ofInt_of_le (by omega) (by omega)

theorem toUInt64_eq {value : Int64} {word : UInt64} (h : (word.toNat : Int) = value.toInt) :
    value.toUInt64 = word := by
  have hbmod : value.toInt = (value.toUInt64.toNat : Int).bmod (2 ^ 64) :=
    BitVec.toInt_eq_toNat_bmod value.toBitVec
  have hword := word.toNat_lt
  have hvalue := value.toUInt64.toNat_lt
  -- both are below 2 ^ 64 and have the same remainder
  have hmod := congrArg (· % ((2 ^ 64 : Nat) : Int)) (h.trans hbmod)
  simp only [Int.bmod_emod] at hmod
  apply UInt64.toNat.inj
  omega

/-! ## Values -/

theorem Provider.valueOf_unsigned {kind : IntKind} (h : kind.isSigned = false) (value : UInt64) :
    (scalar kind).valueOf value = .unsigned value := by
  simp [valueOf, enumeration?, isSigned, h]

theorem Provider.valueOf_signed {kind : IntKind} (h : kind.isSigned = true) (value : UInt64) :
    (scalar kind).valueOf value =
      .signed (Int64.ofInt ((value.toNat : Int).bmod (2 ^ kind.bits))) := by
  simp [valueOf, enumeration?, isSigned, bits, h]

/-! ## Laws -/

/-- Writes without a sign to an integer. They are read in two's complement if it has a sign. -/
structure UnsignedWrites (plan : Plan) (data : Bytes) (field : PlannedField) (kind : IntKind) :
    Prop where
  succeeds : ∀ value : UInt64,
    (∃ after, (plan.performUnsigned field.name value).exec data = (.ok (), after)) ↔
      value.toNat < 2 ^ kind.bits
  get_unsigned : kind.isSigned = false → ∀ (value : UInt64) (after : Bytes),
    (plan.performUnsigned field.name value).exec data = (.ok (), after) →
    field.offset.eval after = field.offset.eval data →
    View.get ⟨plan, after⟩ field.name = .ok (.unsigned value)
  get_signed : kind.isSigned = true → ∀ (value : UInt64) (after : Bytes),
    (plan.performUnsigned field.name value).exec data = (.ok (), after) →
    field.offset.eval after = field.offset.eval data →
    ∃ number : Int64, View.get ⟨plan, after⟩ field.name = .ok (.signed number) ∧
      ∀ x : Int, (-2 ^ (kind.bits - 1) ≤ x ∧ x < 2 ^ (kind.bits - 1) ∧
        x ≡ value.toNat [ZMOD 2 ^ kind.bits]) ↔ x = number.toInt

/-- Writes with a sign to an integer of so many bits that has one. -/
structure SignedWrites (plan : Plan) (data : Bytes) (field : PlannedField) (bits : Nat) :
    Prop where
  succeeds : ∀ value : Int64,
    (∃ after, (plan.performSigned field.name value).exec data = (.ok (), after)) ↔
      -2 ^ (bits - 1) ≤ value.toInt ∧ value.toInt < 2 ^ (bits - 1)
  get : ∀ (value : Int64) (after : Bytes),
    (plan.performSigned field.name value).exec data = (.ok (), after) →
    field.offset.eval after = field.offset.eval data →
    View.get ⟨plan, after⟩ field.name = .ok (.signed value)
  unsigned : ∀ (value : Int64) (after : Bytes),
    (plan.performSigned field.name value).exec data = (.ok (), after) →
    ∃ word : UInt64, (word.toNat : Int) = value.toInt % 2 ^ bits ∧
      (plan.performUnsigned field.name word).exec data = (.ok (), after)

/-- Writes with a sign to a number that has none. -/
structure NaturalWrites (plan : Plan) (data : Bytes) (field : PlannedField) : Prop where
  negative : ∀ value : Int64, value.toInt < 0 →
    (plan.performSigned field.name value).exec data =
      (.error (.error (.invalidValue field.name)), data)
  natural : ∀ (value : Int64) (word : UInt64), (word.toNat : Int) = value.toInt →
    (plan.performSigned field.name value).exec data =
      (plan.performUnsigned field.name word).exec data

namespace NumberAt

variable {policy : MismatchPolicy} {schema : Schema} {plan : Plan} {data : Bytes}
  {field : PlannedField} {leaf : Leaf} {span : Span} {width : Nat}

theorem unsignedWrites (hat : NumberAt plan data field leaf span width)
    (h : Resolved policy schema plan) {kind : IntKind} (hkind : leaf.provider = .scalar kind) :
    UnsignedWrites plan data field kind := by
  have hread : ∀ (value : UInt64) (after : Bytes),
      (plan.performUnsigned field.name value).exec data = (.ok (), after) →
      field.offset.eval after = field.offset.eval data →
      View.get ⟨plan, after⟩ field.name = .ok (Provider.valueOf (.scalar kind) value) := by
    intro value after hrun hoffset
    rw [hat.exec_performUnsigned h] at hrun
    obtain ⟨number, hnumber, hget⟩ := hat.get_of_ending h hrun hoffset
    simp only [Provider.numberOf?, Option.ite_none_right_eq_some, Option.some.injEq] at hnumber
    rw [hget, hkind, hnumber.2]
  refine ⟨fun value => ?_, fun hsigned value after hrun hoffset => ?_,
    fun hsigned value after hrun hoffset => ?_⟩
  · rw [hat.exec_performUnsigned h, exists_ending_iff, hkind, Provider.numberOf?, Provider.bits]
    simp
  · rw [hread value after hrun hoffset, Provider.valueOf_unsigned hsigned]
  · have hpos : 0 < kind.bits := by cases kind <;> decide
    have hle : kind.bits ≤ 64 := by cases kind <;> decide
    refine ⟨_, (hread value after hrun hoffset).trans
      (congrArg Except.ok (Provider.valueOf_signed hsigned value)), fun x => ?_⟩
    rw [toInt_ofInt_bmod hpos hle]
    exact eq_bmod_iff hpos _ x

theorem signedWrites (hat : NumberAt plan data field leaf span width)
    (h : Resolved policy schema plan) (hsigned : leaf.provider.isSigned = true) :
    SignedWrites plan data field leaf.provider.bits := by
  obtain ⟨-, hbits, -⟩ := Provider.bits_pos_of_isSigned hsigned
  refine ⟨fun value => ?_, fun value after hrun hoffset => ?_, fun value after hrun => ?_⟩
  · rw [hat.exec_performSigned h, exists_ending_iff, Provider.numberOf?, hsigned]
    simp only [if_true, Option.ite_none_left_eq_some, Option.some.injEq, not_or, Int.not_lt,
      Int.not_le, exists_and_left, exists_eq', and_true]
  · rw [hat.exec_performSigned h] at hrun
    obtain ⟨number, hnumber, hget⟩ := hat.get_of_ending h hrun hoffset
    have hmeaning := Provider.meaning?_of_numberOf? hnumber
    rw [Provider.meaning?, hsigned] at hmeaning
    rw [hget, ← Option.some.inj hmeaning]
    rfl
  · -- the word that is put in is the one that a write without a sign asks for
    rw [hat.exec_performSigned h, InPlace.ending_eq_ok_iff, View.outcome] at hrun
    cases hnumber : leaf.provider.numberOf? (.signed field.name value) with
    | none =>
      rw [hnumber] at hrun
      cases hrun
    | some number =>
      rw [hnumber] at hrun
      have hlt := Provider.numberOf?_lt hnumber
      have hunsigned : leaf.provider.numberOf? (.unsigned field.name number) = some number :=
        if_pos hlt
      refine ⟨number, ?_, ?_⟩
      · rw [Provider.numberOf?, hsigned] at hnumber
        simp only [if_true, Option.ite_none_left_eq_some, Option.some.injEq] at hnumber
        rw [← hnumber.2, Provider.toNat_ofInt_emod hbits]
      · rw [hat.exec_performUnsigned h, InPlace.ending_eq_ok_iff, View.outcome, hunsigned]
        exact hrun

theorem naturalWrites (hat : NumberAt plan data field leaf span width)
    (h : Resolved policy schema plan) (hsigned : leaf.provider.isSigned = false) :
    NaturalWrites plan data field := by
  refine ⟨fun value hnegative => ?_, fun value word hword => ?_⟩
  · rw [hat.exec_performSigned h, View.outcome, Provider.numberOf?, hsigned]
    simp only [Bool.false_eq_true, if_false, if_pos hnegative]
    rfl
  · have hnatural : ¬ value.toInt < 0 := by
      rw [← hword]
      exact Int.not_lt.2 (Int.natCast_nonneg _)
    rw [hat.exec_performSigned h, hat.exec_performUnsigned h, View.outcome, View.outcome,
      Provider.numberOf?, Provider.numberOf?, hsigned, toUInt64_eq hword]
    simp only [Bool.false_eq_true, if_false, if_neg hnatural]
    rfl

end NumberAt

/-! ## Plans -/

/-- For every number of a plan, here and below its anchors, that may be written and is found in a
buffer: a write without a sign to an integer succeeds just if the number has no more bits than the
integer, and a write with a sign to one that has a sign just if the number is in its range; what was
written is read, and both ways lead to the same buffers. To every other number a write with a sign
is one without, unless it is negative and refused. -/
theorem Schema.signed_and_unsigned {schema : Schema} {policy : MismatchPolicy} {plan sub : Plan}
    {path : List (String × String)} (h : schema.resolve policy = .ok plan)
    (hsub : plan.at? path = some sub) {field : PlannedField} (hmem : field ∈ sub.fields)
    {leaf : Leaf} (hleaf : field.leaf? = some leaf) (hwritable : leaf.writable = true)
    (hnumber : leaf.provider.wordWidth?.isSome = true) {data : Bytes} {span : Span}
    (hspan : View.range ⟨sub, data⟩ field.name = .ok span) :
    (∀ kind, leaf.provider = .scalar kind →
      UnsignedWrites sub data field kind ∧
        (kind.isSigned = true → SignedWrites sub data field kind.bits)) ∧
    ((∀ kind, leaf.provider = .scalar kind → kind.isSigned = false) →
      NaturalWrites sub data field) := by
  obtain ⟨part, -, hresolve⟩ := Schema.resolve_at? h hsub
  have hresolved := Schema.resolved hresolve
  obtain ⟨width, hwidth⟩ := Option.isSome_iff_exists.1 hnumber
  have hat : NumberAt sub data field leaf span width :=
    .of_range hresolved hmem hleaf hwritable hwidth hspan
  refine ⟨fun kind hkind => ⟨hat.unsignedWrites hresolved hkind, fun hsigned => ?_⟩,
    fun hkinds => hat.naturalWrites hresolved ?_⟩
  · have hprovider : leaf.provider.isSigned = true := by
      rw [hkind]
      exact hsigned
    have hbits : leaf.provider.bits = kind.bits := by
      rw [hkind]
      rfl
    exact hbits ▸ hat.signedWrites hresolved hprovider
  · cases hprovider : leaf.provider with
    | scalar kind => exact hkinds kind hprovider
    | enumeration | bitField | composite | rawSlice => rfl

/-- A number with a sign, and three bits that have none although their type does. -/
def gaugeSchema : Schema where
  name := "Gauge"
  fields :=
    [.plain { name := "delta", type := .integer .i16 },
      .plain { name := "level", type := .integer .i8, bits := some 3 }]

theorem gaugeSchema_signs :
    ∃ plan delta level, gaugeSchema.resolve .error = .ok plan ∧
      plan.fields.map (·.name) = ["delta", "level"] ∧ plan.fields = [delta, level] ∧
      UnsignedWrites plan [0, 0, 0] delta .i16 ∧ SignedWrites plan [0, 0, 0] delta 16 ∧
      NaturalWrites plan [0, 0, 0] level ∧
      (plan.performSigned "delta" (-2)).exec [0, 0, 0] = (.ok (), [0xff, 0xfe, 0]) ∧
      (plan.performUnsigned "delta" 0xfffe).exec [0, 0, 0] = (.ok (), [0xff, 0xfe, 0]) ∧
      View.get ⟨plan, [0xff, 0xfe, 0]⟩ "delta" = .ok (.signed (-2)) := by
  obtain ⟨plan, hplan⟩ : ∃ plan, gaugeSchema.resolve .error = .ok plan := ⟨_, rfl⟩
  obtain ⟨delta, level, hfields, hnames, leaf, leaf', hdelta, hlevel⟩ :
      ∃ delta level, plan.fields = [delta, level] ∧
        plan.fields.map (·.name) = ["delta", "level"] ∧ ∃ leaf leaf',
          (delta.leaf? = some leaf ∧ leaf.writable = true ∧ leaf.provider = .scalar .i16 ∧
            View.range ⟨plan, [0, 0, 0]⟩ delta.name = .ok ⟨0, 2⟩) ∧
          level.leaf? = some leaf' ∧ leaf'.writable = true ∧
            leaf'.provider = .bitField ⟨1, 5, 3, 0⟩ none ∧
            View.range ⟨plan, [0, 0, 0]⟩ level.name = .ok ⟨2, 3⟩ := by
    cases hplan
    exact ⟨_, _, rfl, rfl, _, _, ⟨rfl, rfl, rfl, rfl⟩, rfl, rfl, rfl, rfl⟩
  have hself : plan.at? [] = some plan := rfl
  obtain ⟨hleaf, hwritable, hprovider, hrange⟩ := hdelta
  obtain ⟨hleaf', hwritable', hprovider', hrange'⟩ := hlevel
  obtain ⟨hunsigned, hsigned⟩ := (Schema.signed_and_unsigned hplan hself
    (hfields ▸ List.mem_cons_self) hleaf hwritable (by rw [hprovider]; rfl) hrange).1 .i16 hprovider
  have hnatural := (Schema.signed_and_unsigned hplan hself
    (hfields ▸ List.mem_cons_of_mem _ List.mem_cons_self) hleaf' hwritable'
    (by rw [hprovider']; rfl) hrange').2 fun kind hkind => by
      rw [hprovider'] at hkind
      cases hkind
  obtain ⟨hname, hput, hput', hmoved⟩ : delta.name = "delta" ∧
      (plan.performSigned "delta" (-2)).exec [0, 0, 0] = (.ok (), [0xff, 0xfe, 0]) ∧
      (plan.performUnsigned "delta" 0xfffe).exec [0, 0, 0] = (.ok (), [0xff, 0xfe, 0]) ∧
      delta.offset.eval [0xff, 0xfe, 0] = delta.offset.eval [0, 0, 0] := by
    cases hplan
    cases hfields
    exact ⟨rfl, rfl, rfl, rfl⟩
  have hget := (hsigned rfl).get (-2) [0xff, 0xfe, 0] (hname ▸ hput) hmoved
  rw [hname] at hget
  exact ⟨plan, delta, level, hplan, hnames, hfields, hunsigned, hsigned rfl, hnatural, hput, hput',
    hget⟩

end PacketLayout
