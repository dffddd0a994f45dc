import Mathlib.Data.List.TakeDrop
import Mathlib.Data.List.TakeWhile
import PacketLayout.Definition.Json

/-!
# Reading what was written

Every definition is read back from its written form, whatever is nested in it.

* `Json.ofNumber?_toString` reads a decimal numeral, which is what the keys of an enumeration are.
* `Definition.ofJson?_toJson` is the statement for whole definitions.

The written form is meant as a JSON value here. Texts are for `PacketLayout.Proofs.Texts`.
-/

namespace PacketLayout

/-! ## Numerals -/

/-- The numeral of a positive number does not start with a zero. -/
theorem exists_toDigits_of_pos {n : Nat} (h : 0 < n) :
    ∃ first rest, Nat.toDigits 10 n = first :: rest ∧ first ≠ '0' := by
  induction n using Nat.strongRecOn with
  | ind n ih =>
    rcases Nat.lt_or_ge n 10 with hlt | hge
    · have hfirst : ∀ digit < 10, 0 < digit → Nat.digitChar digit ≠ '0' := by decide
      exact ⟨_, _, Nat.toDigits_of_lt_base hlt, hfirst n hlt h⟩
    · obtain ⟨first, rest, hdigits, hfirst⟩ := ih (n / 10) (by omega) (by omega)
      rw [Nat.toDigits_of_base_le (by decide) hge, hdigits]
      exact ⟨first, _, rfl, hfirst⟩

namespace Json

theorem isWholePart_toDigits (n : Nat) : isWholePart (Nat.toDigits 10 n) = true := by
  rcases Nat.eq_zero_or_pos n with rfl | hpos
  · rfl
  · obtain ⟨first, rest, hdigits, hfirst⟩ := exists_toDigits_of_pos hpos
    rw [hdigits, isWholePart.eq_3 _ _ (fun h _ => hfirst h)]
    exact decide_eq_true hfirst

theorem takeDigits_toDigits (n : Nat) :
    takeDigits (Nat.toDigits 10 n) = (Nat.toDigits 10 n, []) := by
  have hdigits : ∀ c ∈ Nat.toDigits 10 n, c.isDigit = true := fun c hc =>
    Nat.isDigit_of_mem_toDigits (by decide) (by decide) hc
  rw [takeDigits, List.span_eq_takeWhile_dropWhile, List.takeWhile_eq_self_iff.2 hdigits,
    List.dropWhile_eq_nil_iff.2 hdigits]

/-- A decimal numeral is read as its number. -/
theorem ofNumber?_toString (n : Nat) : ofNumber? (toString n).toList = some (.ofNat n) := by
  rw [Nat.toString_eq_repr, Nat.toList_repr, ofNumber?]
  · rw [takeDigits_toDigits]
    simp only [isWholePart_toDigits, Nat.ofDigitChars_toDigits (by decide : 1 < 10) (by decide)]
    rfl
  · -- a numeral has no sign
    intro rest hsign
    have hmem : '-' ∈ Nat.toDigits 10 n := hsign ▸ List.mem_cons_self
    have hdigit := Nat.isDigit_of_mem_toDigits (by decide) (by decide) hmem
    exact absurd hdigit (by decide)

end Json

/-! ## Members of objects -/

/-- What is written item by item is read item by item. -/
theorem mapM_map {α β : Type} {write : α → β} {read : β → Option α}
    (h : ∀ a, read (write a) = some a) (list : List α) :
    (list.map write).mapM read = some list := by
  induction list with
  | nil => rfl
  | cons a list ih => simp [List.mapM_cons, h, ih]

namespace Json

@[simp] theorem member?_cons (key : String) (member : String × Json)
    (members : List (String × Json)) :
    member? key (member :: members) =
      if member.1 = key then some member.2 else member? key members := by
  by_cases h : member.1 = key <;> simp [member?, h]

theorem natural?_ofNat (max : Nat) {n : Nat} (h : n ≤ max) : natural? max (.ofNat n) = some n :=
  if_pos h

@[simp] theorem word?_ofNat (word : UInt64) : word? (.ofNat word.toNat) = some word := by
  rw [word?, natural?_ofNat (UInt64.size - 1) (Nat.le_pred_of_lt word.toNat_lt)]
  exact congrArg some UInt64.ofNat_toNat

@[simp] theorem byte?_ofNat (byte : UInt8) : byte? (.ofNat byte.toNat) = some byte := by
  rw [byte?, natural?_ofNat (UInt8.size - 1) (Nat.le_pred_of_lt byte.toNat_lt)]
  exact congrArg some UInt8.ofNat_toNat

theorem strings?_array (list : List String) :
    strings? (.array (list.map .string)) = some list := by
  have hread : ∀ text : String, string? (.string text) = some text := fun _ => rfl
  exact mapM_map hread list

theorem record?_object {keys : List String} {members : List (String × Json)}
    (h : distinct keys members = true) : record? keys (.object members) = some members :=
  if_pos h

/-- An option is written as its value or as null, and no value is written as null. -/
theorem optional_ofOption {α : Type} (write : α → Json) {read : Json → Option α}
    (h : ∀ a, write a ≠ .null ∧ read (write a) = some a) {members : List (String × Json)}
    {key : String} {option : Option α}
    (hmember : member? key members = some (.ofOption (option.map write))) :
    optional members key read = some option := by
  rw [optional, hmember]
  cases option with
  | none => rfl
  | some a =>
    obtain ⟨hnull, hread⟩ := h a
    rw [Option.map_some, ofOption]
    split
    · rename_i heq
      cases heq
    · rename_i heq
      exact absurd (Option.some.inj heq) hnull
    · rename_i heq
      obtain rfl := Option.some.inj heq
      rw [hread, Option.map_some]

end Json

/-! ## Enumerations -/

@[simp] theorem IntKind.ofJson?_toJson (kind : IntKind) : ofJson? kind.toJson = some kind :=
  kind.ofName?_name

namespace Variants

theorem insertEntry_of_lt {value : UInt64} {name : String} {entries : List (UInt64 × String)}
    (h : ∀ entry ∈ entries, entry.1 < value) :
    insertEntry value name entries = entries ++ [(value, name)] := by
  induction entries with
  | nil => rfl
  | cons entry rest ih =>
    have hlt := h entry List.mem_cons_self
    rw [insertEntry, if_neg (UInt64.lt_asymm hlt), if_neg (UInt64.ne_of_lt hlt).symm,
      ih fun other hother => h other (List.mem_cons_of_mem _ hother), List.cons_append]

theorem entries_foldl_insert (variants : Variants) {entries : List (UInt64 × String)}
    (h : Ascending (variants.entries ++ entries)) :
    (entries.foldl (fun variants entry => variants.insert entry.1 entry.2) variants).entries =
      variants.entries ++ entries := by
  induction entries generalizing variants with
  | nil => simp
  | cons entry rest ih =>
    have hinsert : (variants.insert entry.1 entry.2).entries = variants.entries ++ [entry] := by
      refine insertEntry_of_lt fun other hother => ?_
      exact (List.pairwise_append.1 h).2.2 other hother entry List.mem_cons_self
    rw [List.foldl_cons, ih, hinsert, List.append_assoc, List.singleton_append]
    rwa [hinsert, List.append_assoc, List.singleton_append]

theorem eq_of_entries {variants variants' : Variants} (h : variants.entries = variants'.entries) :
    variants = variants' := by
  cases variants
  cases variants'
  cases h
  rfl

/-- The map of the entries of a map is that map. -/
theorem ofList_entries (variants : Variants) : ofList variants.entries = variants :=
  eq_of_entries (empty.entries_foldl_insert variants.ascending)

theorem ofJson?_toJson (variants : Variants) : ofJson? variants.toJson = some variants := by
  have hentry : ∀ entry : UInt64 × String,
      entryOfJson? (toString entry.1.toNat, .string entry.2) = some entry := by
    intro entry
    rw [entryOfJson?, Json.ofNumber?_toString]
    simp only [Json.word?_ofNat, Option.bind_eq_bind, Option.bind_some]
    rfl
  rw [toJson, ofJson?, mapM_map hentry, Option.map_some, ofList_entries]

end Variants

@[simp] theorem Enumeration.ofJson?_toJson (type : Enumeration) :
    ofJson? type.toJson = some type := by
  rw [toJson, ofJson?, Json.record?_object rfl]
  simp [ofMembers?, Json.orElse, Json.string?, Variants.ofJson?_toJson]

/-! ## Fields -/

/-- The options of a field are read from among its members. -/
theorem FieldOptions.ofMembers?_toMembers (options : FieldOptions) (name type : Json) :
    ofMembers? (("name", name) :: ("type", type) :: options.toMembers) = some options := by
  obtain ⟨members, hmembers⟩ : ∃ members, members =
    ("name", name) :: ("type", type) :: options.toMembers := ⟨_, rfl⟩
  have hdoc : Json.orElse members "doc" [] Json.strings? = some options.docLines := by
    simp [Json.orElse, hmembers, toMembers, Json.strings?_array]
  have haccessibility : Json.optional members "accessibility"
      (fun value => value.tag?.bind Accessibility.ofName?) = some options.accessibility :=
    Json.optional_ofOption (fun it => .string it.name) (fun it => ⟨nofun, it.ofName?_name⟩)
      (by simp [hmembers, toMembers])
  have hreadOnly : Json.orElse members "read_only" false Json.bool? = some options.readOnly := by
    simp [Json.orElse, hmembers, toMembers, Json.bool?]
  have hposition : Json.optional members "position" Json.word? = some options.position :=
    Json.optional_ofOption (fun it => .ofNat it.toNat) (fun it => ⟨nofun, Json.word?_ofNat it⟩)
      (by simp [hmembers, toMembers])
  have hpositionFunction :
      Json.optional members "position_function" Json.string? = some options.positionFunction :=
    Json.optional_ofOption .string (fun _ => ⟨nofun, rfl⟩) (by simp [hmembers, toMembers])
  have hsize : Json.optional members "size" Json.word? = some options.size :=
    Json.optional_ofOption (fun it => .ofNat it.toNat) (fun it => ⟨nofun, Json.word?_ofNat it⟩)
      (by simp [hmembers, toMembers])
  have hsizeFunction :
      Json.optional members "size_function" Json.string? = some options.sizeFunction :=
    Json.optional_ofOption .string (fun _ => ⟨nofun, rfl⟩) (by simp [hmembers, toMembers])
  have hbits : Json.optional members "bits" Json.byte? = some options.bits :=
    Json.optional_ofOption (fun it => .ofNat it.toNat) (fun it => ⟨nofun, Json.byte?_ofNat it⟩)
      (by simp [hmembers, toMembers])
  have hremainder : Json.orElse members "remainder" false Json.bool? = some options.remainder := by
    simp [Json.orElse, hmembers, toMembers, Json.bool?]
  have hbacking : Json.optional members "enum_backing" IntKind.ofJson? = some options.enumBacking :=
    Json.optional_ofOption (·.toJson) (fun it => ⟨by simp [IntKind.toJson], it.ofJson?_toJson⟩)
      (by simp [hmembers, toMembers])
  rw [← hmembers, ofMembers?, hdoc, haccessibility, hreadOnly, hposition, hpositionFunction, hsize,
    hsizeFunction, hbits, hremainder, hbacking]
  rfl

theorem TypeDefinition.ofJson?_tagged {tag : String} {content : Json}
    (h : content.array? = none) : ofJson? (.tagged tag content) = ofTag? tag content := by
  cases content with
  | array items => cases h
  | null | bool | integer | decimal | string | object | unreadable => rfl

theorem FieldDefinition.typeOfMembers?_eq (members : List (String × Json)) :
    typeOfMembers? members = (Json.member? "type" members).bind TypeDefinition.ofJson? := by
  induction members with
  | nil => rfl
  | cons member members ih =>
    rw [typeOfMembers?, Json.member?_cons, ih]
    split <;> rfl

theorem FieldDefinition.listOfMembers?_eq (members : List (String × Json)) :
    listOfMembers? members =
      ((Json.member? "fields" members).bind Json.array?).bind listOfJson? := by
  induction members with
  | nil => rfl
  | cons member members ih =>
    obtain ⟨key, value⟩ := member
    rw [Json.member?_cons]
    by_cases h : key = "fields"
    · cases value <;> simp [listOfMembers?, h, Json.array?]
    · cases value <;> simp [listOfMembers?, h, ih]

mutual

theorem FieldDefinition.ofJson?_toJson :
    ∀ field : FieldDefinition, FieldDefinition.ofJson? field.toJson = some field
  | .mk name type options => by
    have hdistinct : Json.distinct FieldDefinition.keys
        (("name", .string name) :: ("type", type.toJson) :: options.toMembers) = true := rfl
    rw [FieldDefinition.toJson, FieldDefinition.ofJson?, if_pos hdistinct,
      FieldDefinition.typeOfMembers?_eq, options.ofMembers?_toMembers]
    simp [Json.string?, TypeDefinition.ofJson?_toJson type]

theorem TypeDefinition.ofJson?_toJson :
    ∀ type : TypeDefinition, TypeDefinition.ofJson? type.toJson = some type
  | .integer kind => by
    rw [TypeDefinition.toJson, TypeDefinition.ofJson?_tagged rfl]
    simp [TypeDefinition.ofTag?]
  | .enumeration name => rfl
  | .composite name => rfl
  | .bytes => rfl
  | .byteArray length => by
    rw [TypeDefinition.toJson, TypeDefinition.ofJson?_tagged rfl]
    simp [TypeDefinition.ofTag?]
  | .union alternates => by
    simp [TypeDefinition.toJson, TypeDefinition.ofJson?, Json.tagged,
      AlternateDefinition.listOfJson?_listToJson alternates]

theorem AlternateDefinition.ofJson?_toJson :
    ∀ alternate : AlternateDefinition, AlternateDefinition.ofJson? alternate.toJson = some alternate
  | .mk name fields => by
    have hdistinct : Json.distinct AlternateDefinition.keys
        [("name", .string name), ("fields", .array (FieldDefinition.listToJson fields))] = true :=
      rfl
    rw [AlternateDefinition.toJson, AlternateDefinition.ofJson?, if_pos hdistinct]
    simp [Json.string?, FieldDefinition.listOfMembers?_eq, Json.array?,
      FieldDefinition.listOfJson?_listToJson fields]

theorem FieldDefinition.listOfJson?_listToJson :
    ∀ fields : List FieldDefinition,
      FieldDefinition.listOfJson? (FieldDefinition.listToJson fields) = some fields
  | [] => rfl
  | field :: fields => by
    simp [FieldDefinition.listToJson, FieldDefinition.listOfJson?,
      FieldDefinition.ofJson?_toJson field, FieldDefinition.listOfJson?_listToJson fields]

theorem AlternateDefinition.listOfJson?_listToJson :
    ∀ alternates : List AlternateDefinition,
      AlternateDefinition.listOfJson? (AlternateDefinition.listToJson alternates) = some alternates
  | [] => rfl
  | alternate :: alternates => by
    simp [AlternateDefinition.listToJson, AlternateDefinition.listOfJson?,
      AlternateDefinition.ofJson?_toJson alternate,
      AlternateDefinition.listOfJson?_listToJson alternates]

end

/-! ## Definitions -/

theorem MismatchPolicy.ofSettings?_toSettings (policy : MismatchPolicy) :
    ofSettings? policy.toSettings = some policy := by
  rw [toSettings, ofSettings?, Json.record?_object rfl]
  simp [Json.orElse, Json.tag?, ofName?_name]

/-- A definition is read back from its written form. -/
theorem Definition.ofJson?_toJson (definition : Definition) :
    ofJson? definition.toJson = some definition := by
  have henums : (definition.enumerations.map (·.toJson)).mapM Enumeration.ofJson? =
      some definition.enumerations := mapM_map Enumeration.ofJson?_toJson _
  rw [toJson, ofJson?, Json.record?_object rfl, Option.bind_some, ofMembers?,
    Json.optional_ofOption (·.toSettings)
    (fun policy => ⟨by simp [MismatchPolicy.toSettings], policy.ofSettings?_toSettings⟩)
    (by simp; rfl)]
  simp [Json.orElse, Json.string?, Json.bool?, Json.array?, henums,
    FieldDefinition.listOfMembers?_eq, FieldDefinition.listOfJson?_listToJson]

end PacketLayout
