import Mathlib.Order.Bounds.Basic
import PacketLayout.Proofs.NumberWrites

/-!
# Writes by name

A number may be written by one of its names. Several numbers may have the same name, and not all of
them fit into a field that is narrower than the enumeration; the smallest one is written.

* `Enumeration.valueOf?_eq_some_iff` says which number a name stands for, and
  `Enumeration.nameOf?_eq_some_iff` which name a number has.
* `VariantWrites` are the laws of such writes.
* `Schema.variants_round_trip` is the statement about plans.
-/

namespace PacketLayout

/-! ## Names and numbers -/

namespace Enumeration

/-- A number has the name that stands beside it. -/
theorem nameOf?_eq_some_iff {type : Enumeration} {value : UInt64} {name : String} :
    type.nameOf? value = some name ↔ (value, name) ∈ type.variants.entries := by
  rw [nameOf?, Option.map_eq_some_iff]
  constructor
  · rintro ⟨⟨found, name'⟩, hfound, rfl⟩
    have hvalue : found = value := by simpa using List.find?_some hfound
    exact hvalue ▸ List.mem_of_find?_eq_some hfound
  · intro hmem
    have hdistinct : (type.variants.entries.map (·.1)).Nodup :=
      List.pairwise_map.2 (type.variants.ascending.imp UInt64.ne_of_lt)
    exact ⟨(value, name), find?_of_nodup hdistinct hmem, rfl⟩

/-- A name stands for the smallest number that has it. -/
theorem valueOf?_eq_some_iff {type : Enumeration} {name : String} {value : UInt64} :
    type.valueOf? name = some value ↔
      IsLeast {value | (value, name) ∈ type.variants.entries} value := by
  have hleast : ∀ found, type.valueOf? name = some found →
      IsLeast {value | (value, name) ∈ type.variants.entries} found := by
    intro found h
    obtain ⟨⟨_, name'⟩, hentry, rfl⟩ := Option.map_eq_some_iff.1 h
    obtain ⟨hname, before, after, hentries, hbefore⟩ := List.find?_eq_some_iff_append.1 hentry
    obtain rfl : name' = name := of_decide_eq_true hname
    refine ⟨List.mem_of_find?_eq_some hentry, fun other hother => ?_⟩
    -- the entries in front have other names, and those behind have greater numbers
    have hascending := type.variants.ascending
    rw [Ascending, hentries] at hascending
    change (other, name') ∈ type.variants.entries at hother
    rw [hentries] at hother
    rcases List.mem_append.1 hother with hfront | hback
    · have hne := hbefore _ hfront
      simp at hne
    · rcases List.mem_cons.1 hback with heq | hbehind
      · exact UInt64.le_of_eq (congrArg Prod.fst heq).symm
      · have hcons := (List.pairwise_append.1 hascending).2.1
        exact UInt64.le_of_lt ((List.pairwise_cons.1 hcons).1 _ hbehind)
  refine ⟨hleast value, fun h => ?_⟩
  cases hfound : type.valueOf? name with
  | none =>
    rw [valueOf?, Option.map_eq_none_iff, List.find?_eq_none] at hfound
    exact absurd (decide_eq_true rfl) (hfound _ h.1)
  | some found =>
    have hmin := hleast found hfound
    exact congrArg some (UInt64.le_antisymm (hmin.2 h.1) (h.2 hmin.1))

end Enumeration

namespace Provider

/-- The largest number that a field can hold: all bits of its integer, or of its bit-field. -/
def largest : Provider → UInt64
  | scalar kind | enumeration _ kind => kind.maxRaw
  | bitField slot _ => slot.mask
  | composite _ | rawSlice => 0

theorem le_largest_iff {provider : Provider} {width : Nat} (h : provider.Fits width)
    (value : UInt64) : value ≤ provider.largest ↔ value.toNat < 2 ^ provider.bits := by
  rw [← UInt64.not_lt, ← Nat.not_le]
  refine not_congr ?_
  cases provider with
  | scalar kind | enumeration _ kind => exact View.maxRaw_lt_iff kind value
  | bitField slot type => exact BitSlot.mask_lt_iff (h.slot slot rfl).1
  | composite | rawSlice => cases h.wordWidth?

/-- The smallest number of a name is written if it fits, and then any other would do. -/
theorem numberOf?_variant_eq_some_iff {provider : Provider} {width : Nat} (h : provider.Fits width)
    {type : Enumeration} (htype : provider.enumeration? = some type) {field variant : String}
    {number : UInt64} :
    provider.numberOf? (.variant field variant) = some number ↔
      IsLeast {value | (value, variant) ∈ type.variants.entries} number ∧
        number ≤ provider.largest := by
  rw [numberOf?, htype, Option.bind_some, Option.filter_eq_some_iff,
    Enumeration.valueOf?_eq_some_iff, le_largest_iff h, decide_eq_true_eq]

/-- A name is written just if any number of the name fits. -/
theorem exists_numberOf?_variant_iff {provider : Provider} {width : Nat} (h : provider.Fits width)
    {type : Enumeration} (htype : provider.enumeration? = some type) {field variant : String} :
    (∃ number, provider.numberOf? (.variant field variant) = some number) ↔
      ∃ value, (value, variant) ∈ type.variants.entries ∧ value ≤ provider.largest := by
  constructor
  · rintro ⟨number, hnumber⟩
    obtain ⟨hleast, hle⟩ := (numberOf?_variant_eq_some_iff h htype).1 hnumber
    exact ⟨number, hleast.1, hle⟩
  · rintro ⟨value, hmem, hle⟩
    obtain ⟨least, hfound⟩ : ∃ least, type.valueOf? variant = some least := by
      cases hfound : type.valueOf? variant with
      | some least => exact ⟨least, rfl⟩
      | none =>
        rw [Enumeration.valueOf?, Option.map_eq_none_iff, List.find?_eq_none] at hfound
        exact absurd (decide_eq_true rfl) (hfound _ hmem)
    have hleast := Enumeration.valueOf?_eq_some_iff.1 hfound
    exact ⟨least, (numberOf?_variant_eq_some_iff h htype).2
      ⟨hleast, UInt64.le_trans (hleast.2 hmem) hle⟩⟩

end Provider

/-! ## Plans -/

/-- Writes by name to a number whose names are those of an enumeration. -/
structure VariantWrites (plan : Plan) (data : Bytes) (field : PlannedField) (type : Enumeration)
    (largest : UInt64) : Prop where
  succeeds : ∀ variant : String,
    (∃ after, (plan.performVariant field.name variant).exec data = (.ok (), after)) ↔
      ∃ value, (value, variant) ∈ type.variants.entries ∧ value ≤ largest
  get : ∀ (variant : String) (after : Bytes),
    (plan.performVariant field.name variant).exec data = (.ok (), after) →
    field.offset.eval after = field.offset.eval data →
    ∃ value, View.get ⟨plan, after⟩ field.name = .ok (.enumeration value (some variant)) ∧
      IsLeast {value | (value, variant) ∈ type.variants.entries} value
  refused : ∀ variant : String,
    (∀ value, (value, variant) ∈ type.variants.entries → largest < value) →
    (plan.performVariant field.name variant).exec data =
      (.error (.error (.invalidValue field.name)), data)

/-- For every number with names of a plan, here and below its anchors, that may be written and is
found in a buffer: a write by name succeeds just if some number of the name fits, however narrow the
field is. The smallest number of the name is written, and both are read again. Any other name is
refused, and the buffer stays as it was. -/
theorem Schema.variants_round_trip {schema : Schema} {policy : MismatchPolicy} {plan sub : Plan}
    {path : List (String × String)} (h : schema.resolve policy = .ok plan)
    (hsub : plan.at? path = some sub) {field : PlannedField} (hmem : field ∈ sub.fields)
    {leaf : Leaf} (hleaf : field.leaf? = some leaf) (hwritable : leaf.writable = true)
    {type : Enumeration} (htype : leaf.provider.enumeration? = some type) {data : Bytes}
    {span : Span} (hspan : View.range ⟨sub, data⟩ field.name = .ok span) :
    VariantWrites sub data field type leaf.provider.largest := by
  obtain ⟨part, -, hresolve⟩ := Schema.resolve_at? h hsub
  have hresolved := Schema.resolved hresolve
  obtain ⟨width, hwidth⟩ : ∃ width, leaf.provider.wordWidth? = some width := by
    cases hprovider : leaf.provider with
    | enumeration | bitField | scalar => exact ⟨_, rfl⟩
    | composite | rawSlice =>
      rw [hprovider] at htype
      cases htype
  have hat : NumberAt sub data field leaf span width :=
    .of_range hresolved hmem hleaf hwritable hwidth hspan
  have hfits := (hat.reaches hresolved).fits
  refine ⟨fun variant => ?_, fun variant after hrun hoffset => ?_, fun variant hlarge => ?_⟩
  · rw [hat.exec_performVariant hresolved, NumberAt.exists_ending_iff,
      Provider.exists_numberOf?_variant_iff hfits htype]
  · rw [hat.exec_performVariant hresolved] at hrun
    obtain ⟨number, hnumber, hget⟩ := hat.get_of_ending hresolved hrun hoffset
    obtain ⟨hleast, -⟩ := (Provider.numberOf?_variant_eq_some_iff hfits htype).1 hnumber
    have hname := Enumeration.nameOf?_eq_some_iff.2 hleast.1
    refine ⟨number, ?_, hleast⟩
    rw [hget, Provider.valueOf, htype]
    simp only [Value.ofEnumeration, hname]
  · have hnone : leaf.provider.numberOf? (.variant field.name variant) = none := by
      rw [Option.eq_none_iff_forall_ne_some]
      intro number hnumber
      obtain ⟨hleast, hle⟩ := (Provider.numberOf?_variant_eq_some_iff hfits htype).1 hnumber
      exact UInt64.not_lt.2 hle (hlarge number hleast.1)
    rw [hat.exec_performVariant hresolved, View.outcome, hnone, Provider.refusal, htype]
    rfl

/-- Three names for four numbers. One of the numbers does not fit into a byte, and none of those
above seven into three bits. -/
def signal : Enumeration where
  name := "Signal"
  backing := .u16
  variants := .ofList [(3, "slow"), (0x10, "fast"), (5, "slow"), (0x1ff, "off")]

/-- A signal in a byte, and one in three bits. -/
def signalSchema : Schema where
  name := "Signals"
  fields :=
    [.plain { name := "main", type := .enumeration signal, enumBacking := some .u8 },
      .plain { name := "side", type := .enumeration signal, bits := some 3 }]

theorem signalSchema_round_trip :
    ∃ plan main side, signalSchema.resolve .error = .ok plan ∧ plan.fields = [main, side] ∧
      VariantWrites plan [0, 0, 0] main signal 0xff ∧ VariantWrites plan [0, 0, 0] side signal 7 ∧
      (plan.performVariant "main" "fast").exec [0, 0, 0] = (.ok (), [0x10, 0, 0]) ∧
      View.get ⟨plan, [0x10, 0, 0]⟩ "main" = .ok (.enumeration 0x10 (some "fast")) ∧
      (plan.performVariant "main" "off").exec [0, 0, 0] =
        (.error (.error (.invalidValue "main")), [0, 0, 0]) ∧
      (plan.performVariant "side" "slow").exec [0, 0, 0] = (.ok (), [0, 0x60, 0]) := by
  obtain ⟨plan, hplan⟩ : ∃ plan, signalSchema.resolve .error = .ok plan := ⟨_, rfl⟩
  obtain ⟨main, side, hfields, leaf, leaf', hmain, hside⟩ :
      ∃ main side, plan.fields = [main, side] ∧ ∃ leaf leaf',
        (main.leaf? = some leaf ∧ leaf.writable = true ∧
          leaf.provider = .enumeration signal .u8 ∧
          View.range ⟨plan, [0, 0, 0]⟩ main.name = .ok ⟨0, 1⟩) ∧
        side.leaf? = some leaf' ∧ leaf'.writable = true ∧
          leaf'.provider = .bitField ⟨2, 13, 3, 0⟩ (some signal) ∧
          View.range ⟨plan, [0, 0, 0]⟩ side.name = .ok ⟨1, 3⟩ := by
    cases hplan
    exact ⟨_, _, rfl, _, _, ⟨rfl, rfl, rfl, rfl⟩, rfl, rfl, rfl, rfl⟩
  have hself : plan.at? [] = some plan := rfl
  obtain ⟨hleaf, hwritable, hprovider, hrange⟩ := hmain
  obtain ⟨hleaf', hwritable', hprovider', hrange'⟩ := hside
  have hnames : leaf.provider.enumeration? = some signal := by rw [hprovider]; rfl
  have hnames' : leaf'.provider.enumeration? = some signal := by rw [hprovider']; rfl
  have hwrites := Schema.variants_round_trip hplan hself (hfields ▸ List.mem_cons_self)
    hleaf hwritable hnames hrange
  have hwrites' := Schema.variants_round_trip hplan hself
    (hfields ▸ List.mem_cons_of_mem _ List.mem_cons_self) hleaf' hwritable' hnames' hrange'
  rw [hprovider] at hwrites
  rw [hprovider'] at hwrites'
  obtain ⟨hname, hput, hmoved, hoff, hput'⟩ : main.name = "main" ∧
      (plan.performVariant "main" "fast").exec [0, 0, 0] = (.ok (), [0x10, 0, 0]) ∧
      main.offset.eval [0x10, 0, 0] = main.offset.eval [0, 0, 0] ∧
      (plan.performVariant "main" "off").exec [0, 0, 0] =
        (.error (.error (.invalidValue "main")), [0, 0, 0]) ∧
      (plan.performVariant "side" "slow").exec [0, 0, 0] = (.ok (), [0, 0x60, 0]) := by
    cases hplan
    cases hfields
    exact ⟨rfl, rfl, rfl, rfl, rfl⟩
  obtain ⟨value, hget, hleast⟩ := hwrites.get "fast" [0x10, 0, 0] (hname ▸ hput) hmoved
  have hvalue : some value = some 0x10 := (Enumeration.valueOf?_eq_some_iff.2 hleast).symm
  rw [hname, Option.some.inj hvalue] at hget
  exact ⟨plan, main, side, hplan, hfields, hwrites, hwrites', hput, hget, hoff, hput'⟩

end PacketLayout
