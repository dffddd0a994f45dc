import Mathlib.Data.List.Nodup
import Mathlib.Logic.Relation
import PacketLayout.Proofs.RoundTrip

/-!
# Keys that say nothing

Most keys of a definition may be missing, and then a value is assumed for them. It makes no
difference whether such a key is left out or stands there with the assumed value, at the top or
deeply nested in unions.

* `Place` names the objects that the written form of a definition consists of, and
  `Place.assumed?` what is assumed at each of them.
* `Padded` adds one key that says nothing, anywhere.
* `Place.alike_array` says that an array of values is read as the object that has them.
* `Definition.json_roundTrip` puts this beside the round trip of `PacketLayout.Proofs.RoundTrip`.
-/

namespace PacketLayout

/-! ## The places of a definition -/

/-- What a part of the written form of a definition stands for. -/
inductive Place where
  | definition
  | settings
  | enumeration
  | field
  | type
  | alternate

namespace Place

/-- Two values are read alike at a place, or are refused both. -/
def Alike : Place → Json → Json → Prop
  | definition, a, b => Definition.ofJson? a = Definition.ofJson? b
  | settings, a, b => MismatchPolicy.ofSettings? a = MismatchPolicy.ofSettings? b
  | enumeration, a, b => Enumeration.ofJson? a = Enumeration.ofJson? b
  | field, a, b => FieldDefinition.ofJson? a = FieldDefinition.ofJson? b
  | type, a, b => TypeDefinition.ofJson? a = TypeDefinition.ofJson? b
  | alternate, a, b => AlternateDefinition.ofJson? a = AlternateDefinition.ofJson? b

/-- The value that is assumed for a key of an object when the key is missing. -/
def assumed? : Place → String → Option Json
  | definition, "read_only" => some (.bool false)
  | definition, "enums" => some (.array [])
  | definition, "config" => some .null
  | settings, "position_mismatch" => some (.string "error")
  | enumeration, "variants" => some (.object [])
  | field, "doc" => some (.array [])
  | field, "accessibility" => some .null
  | field, "read_only" => some (.bool false)
  | field, "position" => some .null
  | field, "position_function" => some .null
  | field, "size" => some .null
  | field, "size_function" => some .null
  | field, "bits" => some .null
  | field, "remainder" => some (.bool false)
  | field, "enum_backing" => some .null
  | _, _ => none

/-- The value of a key has a place of its own. -/
inductive Holds : Place → String → Place → Prop
  | config : Holds definition "config" settings
  | type : Holds field "type" type

/-- The value of a key is an array, and its items have a place of their own. -/
inductive Lists : Place → String → Place → Prop
  | enums : Lists definition "enums" enumeration
  | fields : Lists definition "fields" field
  | alternates : Lists type "union" alternate
  | inner : Lists alternate "fields" field

end Place

/-- The second value is the first one with one more key, somewhere at or below an object at
`place`. The key was missing, and it has the value that was assumed for it. -/
inductive Padded : Place → Json → Json → Prop
  | add {place : Place} {key : String} {value : Json} (pre post : List (String × Json))
      (assumed : place.assumed? key = some value)
      (missing : Json.member? key (pre ++ post) = none) :
      Padded place (.object (pre ++ post)) (.object (pre ++ (key, value) :: post))
  | inside {place inner : Place} {key : String} {value value' : Json}
      (pre post : List (String × Json)) (holds : place.Holds key inner)
      (padded : Padded inner value value') :
      Padded place (.object (pre ++ (key, value) :: post))
        (.object (pre ++ (key, value') :: post))
  | among {place inner : Place} {key : String} {value value' : Json}
      (pre post : List (String × Json)) (before after : List Json)
      (lists : place.Lists key inner) (padded : Padded inner value value') :
      Padded place (.object (pre ++ (key, .array (before ++ value :: after)) :: post))
        (.object (pre ++ (key, .array (before ++ value' :: after)) :: post))

/-! ## Members before and after -/

namespace Json

theorem member?_append (key : String) (pre post : List (String × Json)) :
    member? key (pre ++ post) = (member? key pre).or (member? key post) := by
  rw [member?, List.find?_append]
  cases h : pre.find? (·.1 = key) <;> simp [member?, h]

/-- Two lists of members that differ in the value of `key` at most, which changes from `before` to
`after`. -/
structure Changes (key : String) (before after : Option Json)
    (members members' : List (String × Json)) : Prop where
  others : ∀ other, other ≠ key → member? other members = member? other members'
  here : member? key members = member? key members' ∨
    member? key members = before ∧ member? key members' = after
  distinct : ∀ keys, Json.distinct keys members = Json.distinct keys members'

theorem not_mem_of_member?_eq_none {key : String} {members : List (String × Json)}
    (h : member? key members = none) : key ∉ members.map (·.1) := by
  rw [member?, Option.map_eq_none_iff, List.find?_eq_none] at h
  intro hmem
  obtain ⟨member, hmember, rfl⟩ := List.mem_map.1 hmem
  exact h member hmember (decide_eq_true rfl)

/-- A key that was missing stands there once when it is added. -/
theorem distinct_add {pre post : List (String × Json)} {key : String} (value : Json)
    (missing : member? key (pre ++ post) = none) (keys : List String) :
    distinct keys (pre ++ post) = distinct keys (pre ++ (key, value) :: post) := by
  have hmissing := not_mem_of_member?_eq_none missing
  rw [List.map_append] at hmissing
  rw [distinct, distinct, List.map_append, List.map_append, List.map_cons, List.filter_append,
    List.filter_append, List.filter_cons]
  split
  · rw [decide_eq_decide, List.nodup_middle, List.nodup_cons, ← List.filter_append]
    exact (and_iff_right fun hmem => hmissing (List.mem_filter.1 hmem).1).symm
  · rfl

theorem Changes.of_add {pre post : List (String × Json)} {key : String} (value : Json)
    (missing : member? key (pre ++ post) = none) :
    Changes key none (some value) (pre ++ post) (pre ++ (key, value) :: post) := by
  refine ⟨fun other hother => ?_, .inr ⟨missing, ?_⟩, distinct_add value missing⟩
  · rw [member?_append, member?_append, member?_cons, if_neg hother.symm]
  · rw [member?_append, Option.or_eq_none_iff] at missing
    rw [member?_append, missing.1, member?_cons, if_pos rfl, Option.none_or]

theorem Changes.of_replace (pre post : List (String × Json)) (key : String) (value value' : Json) :
    Changes key (some value) (some value') (pre ++ (key, value) :: post)
      (pre ++ (key, value') :: post) := by
  refine ⟨fun other hother => ?_, ?_, fun keys => ?_⟩
  · rw [member?_append, member?_append, member?_cons, member?_cons, if_neg hother.symm,
      if_neg hother.symm]
  · rw [member?_append, member?_append, member?_cons, member?_cons, if_pos rfl, if_pos rfl]
    cases member? key pre with
    | none => exact .inr ⟨rfl, rfl⟩
    | some first => exact .inl rfl
  · rw [Json.distinct, Json.distinct, List.map_append, List.map_append, List.map_cons,
      List.map_cons]

section

variable {α : Type} {key : String} {before after : Option Json}
  {members members' : List (String × Json)} {read : Json → Option α}

/-- Whatever is told from the value of one key is the same for both lists, if the change makes no
difference to it. -/
theorem Changes.congr (h : Changes key before after members members') (tell : Option Json → α)
    (other : String) (hsame : other = key → tell before = tell after) :
    tell (member? other members) = tell (member? other members') := by
  by_cases hother : other = key
  · subst hother
    rcases h.here with heq | ⟨hbefore, hafter⟩
    · rw [heq]
    · rw [hbefore, hafter]
      exact hsame rfl
  · rw [h.others other hother]

theorem orElse_eq_elim (members : List (String × Json)) (key : String) (default : α)
    (read : Json → Option α) :
    orElse members key default read = (member? key members).elim (some default) read := by
  rw [orElse]
  cases member? key members <;> rfl

theorem Changes.orElse_eq (h : Changes key before after members members') (other : String)
    (default : α) (read : Json → Option α)
    (hsame : other = key → before.elim (some default) read = after.elim (some default) read) :
    orElse members other default read = orElse members' other default read := by
  rw [orElse_eq_elim, orElse_eq_elim]
  exact h.congr (·.elim (some default) read) other hsame

theorem Changes.orElse_eq_of_ne (h : Changes key before after members members') (other : String)
    (hne : other ≠ key) {default : α} :
    orElse members other default read = orElse members' other default read := by
  rw [orElse, orElse, h.others other hne]

/-- A structure is read alike from both lists, if its members are. -/
theorem Changes.bind_record?_eq (h : Changes key before after members members')
    (keys : List String) {read : List (String × Json) → Option α}
    (hread : read members = read members') :
    (record? keys (.object members)).bind read = (record? keys (.object members')).bind read := by
  rw [record?, record?, h.distinct]
  split
  · exact hread
  · rfl

/-- What is read from the value of a key that may be left out. -/
def optionalValue (read : Json → Option α) : Option Json → Option (Option α)
  | none | some null => some none
  | some value => (read value).map some

theorem optional_eq_optionalValue (members : List (String × Json)) (key : String)
    (read : Json → Option α) :
    optional members key read = optionalValue read (member? key members) := rfl

theorem Changes.optional_eq (h : Changes key before after members members') (other : String)
    (hsame : other = key → before = none ∧ after = some .null ∨
      ∃ own own', before = some (.object own) ∧ after = some (.object own') ∧
        read (.object own) = read (.object own')) :
    optional members other read = optional members' other read := by
  rw [optional_eq_optionalValue, optional_eq_optionalValue]
  refine h.congr (optionalValue read) other fun hother => ?_
  rcases hsame hother with ⟨rfl, rfl⟩ | ⟨own, own', rfl, rfl, hread⟩
  · rfl
  · exact congrArg (Option.map some) hread

theorem Changes.optional_eq_of_ne (h : Changes key before after members members') (other : String)
    (hne : other ≠ key) : optional members other read = optional members' other read := by
  rw [optional, optional, h.others other hne]

end

end Json

/-- An array is read item by item. -/
theorem mapM_replace {α : Type} {read : Json → Option α} {value value' : Json}
    (h : read value = read value') (before after : List Json) :
    (before ++ value :: after).mapM read = (before ++ value' :: after).mapM read := by
  rw [List.mapM_append, List.mapM_append, List.mapM_cons, List.mapM_cons, h]

theorem FieldDefinition.listOfJson?_eq_mapM (items : List Json) :
    listOfJson? items = items.mapM FieldDefinition.ofJson? := by
  induction items with
  | nil => rfl
  | cons item items ih => rw [listOfJson?, List.mapM_cons, ih]

theorem AlternateDefinition.listOfJson?_eq_mapM (items : List Json) :
    listOfJson? items = items.mapM AlternateDefinition.ofJson? := by
  induction items with
  | nil => rfl
  | cons item items ih => rw [listOfJson?, List.mapM_cons, ih]

/-- A type is no object of two keys. -/
theorem TypeDefinition.ofJson?_of_two (first second : String × Json)
    (rest : List (String × Json)) : ofJson? (.object (first :: second :: rest)) = none := by
  obtain ⟨tag, content⟩ := first
  cases content <;> rfl

/-! ## Reading padded values -/

/-- A change of members keeps what is assumed at a place: if the key is one that may be missing,
it is added with the value assumed for it. -/
structure Keeps (place : Place) (key : String) (before after : Option Json)
    (members members' : List (String × Json)) : Prop where
  changes : Json.Changes key before after members members'
  assumed : ∀ value, place.assumed? key = some value → before = none ∧ after = some value

namespace Keeps

variable {α : Type} {place : Place} {key : String} {before after : Option Json}
  {members members' : List (String × Json)} {read : Json → Option α}

theorem orElse_eq (h : Keeps place key before after members members') (other : String)
    (default : α) (read : Json → Option α) (value : Json)
    (hassumed : place.assumed? other = some value)
    (hread : read value = some default) :
    Json.orElse members other default read = Json.orElse members' other default read := by
  refine h.changes.orElse_eq other default read fun hother => ?_
  obtain ⟨rfl, rfl⟩ := h.assumed value (hother ▸ hassumed)
  exact hread.symm

theorem optional_eq (h : Keeps place key before after members members') (other : String)
    (hassumed : place.assumed? other = some .null) :
    Json.optional members other read = Json.optional members' other read :=
  h.changes.optional_eq other fun hother => .inl (h.assumed .null (hother ▸ hassumed))

end Keeps

theorem FieldOptions.ofMembers?_eq {key : String} {before after : Option Json}
    {members members' : List (String × Json)}
    (h : Keeps .field key before after members members') :
    ofMembers? members = ofMembers? members' := by
  rw [ofMembers?, ofMembers?, h.orElse_eq "doc" [] Json.strings? (.array []) rfl rfl,
    h.optional_eq "accessibility" rfl,
    h.orElse_eq "read_only" false Json.bool? (.bool false) rfl rfl,
    h.optional_eq "position" rfl, h.optional_eq "position_function" rfl,
    h.optional_eq "size" rfl, h.optional_eq "size_function" rfl, h.optional_eq "bits" rfl,
    h.orElse_eq "remainder" false Json.bool? (.bool false) rfl rfl,
    h.optional_eq "enum_backing" rfl]

/-- A key that says nothing may be added to an object. -/
theorem Place.alike_of_add {place : Place} {pre post : List (String × Json)} {key : String}
    {value : Json} (assumed : place.assumed? key = some value)
    (missing : Json.member? key (pre ++ post) = none) :
    place.Alike (.object (pre ++ post)) (.object (pre ++ (key, value) :: post)) := by
  have h : Keeps place key none (some value) (pre ++ post) (pre ++ (key, value) :: post) :=
    ⟨.of_add value missing, fun _ hassumed => ⟨rfl, assumed.symm.trans hassumed⟩⟩
  have hother : ∀ other, place.assumed? other = none →
      Json.member? other (pre ++ post) = Json.member? other (pre ++ (key, value) :: post) := by
    refine fun other hnone => h.changes.others other ?_
    rintro rfl
    cases hnone.symm.trans assumed
  cases place with
  | definition =>
    refine h.changes.bind_record?_eq Definition.keys ?_
    rw [Definition.ofMembers?, Definition.ofMembers?, hother "name" rfl,
      h.orElse_eq "read_only" false Json.bool? (.bool false) rfl rfl,
      h.orElse_eq "enums" [] _ (.array []) rfl rfl, FieldDefinition.listOfMembers?_eq,
      FieldDefinition.listOfMembers?_eq, hother "fields" rfl, h.optional_eq "config" rfl]
  | settings =>
    refine h.changes.bind_record?_eq MismatchPolicy.keys ?_
    exact h.orElse_eq "position_mismatch" MismatchPolicy.error _ (.string "error") rfl rfl
  | enumeration =>
    refine h.changes.bind_record?_eq Enumeration.keys ?_
    rw [Enumeration.ofMembers?, Enumeration.ofMembers?, hother "name" rfl, hother "backing" rfl,
      h.orElse_eq "variants" .empty Variants.ofJson? (.object []) rfl rfl]
  | field =>
    rw [Alike, FieldDefinition.ofJson?, FieldDefinition.ofJson?, h.changes.distinct,
      hother "name" rfl,
      FieldDefinition.typeOfMembers?_eq, FieldDefinition.typeOfMembers?_eq, hother "type" rfl,
      FieldOptions.ofMembers?_eq h]
  | type | alternate => cases assumed

/-- An object that stands for the value of a key may be replaced by one that is read alike. -/
theorem Place.alike_of_holds {place inner : Place} {key : String} (holds : place.Holds key inner)
    {own own' : List (String × Json)} (h : inner.Alike (.object own) (.object own'))
    (pre post : List (String × Json)) :
    place.Alike (.object (pre ++ (key, .object own) :: post))
      (.object (pre ++ (key, .object own') :: post)) := by
  have hchanges := Json.Changes.of_replace pre post key (.object own) (.object own')
  cases holds with
  | config =>
    refine hchanges.bind_record?_eq Definition.keys ?_
    rw [Definition.ofMembers?, Definition.ofMembers?, hchanges.others "name" (by decide),
      hchanges.orElse_eq_of_ne "read_only" (by decide),
      hchanges.orElse_eq_of_ne "enums" (by decide),
      FieldDefinition.listOfMembers?_eq, FieldDefinition.listOfMembers?_eq,
      hchanges.others "fields" (by decide),
      hchanges.optional_eq "config" fun _ => .inr ⟨own, own', rfl, rfl, h⟩]
  | type =>
    have hkeeps : Keeps .field "type" (some (.object own)) (some (.object own')) _ _ :=
      ⟨hchanges, fun _ hassumed => by cases hassumed⟩
    rw [Alike, FieldDefinition.ofJson?, FieldDefinition.ofJson?, hchanges.distinct,
      hchanges.others "name" (by decide), FieldDefinition.typeOfMembers?_eq,
      FieldDefinition.typeOfMembers?_eq,
      hchanges.congr (·.bind TypeDefinition.ofJson?) "type" fun _ => h,
      FieldOptions.ofMembers?_eq hkeeps]

/-- An item of the array that stands for the value of a key may be replaced by one that is read
alike. -/
theorem Place.alike_of_lists {place inner : Place} {key : String} (lists : place.Lists key inner)
    {value value' : Json} (h : inner.Alike value value') (pre post : List (String × Json))
    (before after : List Json) :
    place.Alike (.object (pre ++ (key, .array (before ++ value :: after)) :: post))
      (.object (pre ++ (key, .array (before ++ value' :: after)) :: post)) := by
  have hchanges := Json.Changes.of_replace pre post key (.array (before ++ value :: after))
    (.array (before ++ value' :: after))
  cases lists with
  | enums =>
    have hitems := mapM_replace h before after
    refine hchanges.bind_record?_eq Definition.keys ?_
    rw [Definition.ofMembers?, Definition.ofMembers?, hchanges.others "name" (by decide),
      hchanges.orElse_eq_of_ne "read_only" (by decide),
      hchanges.orElse_eq "enums" [] (fun value => value.array?.bind (·.mapM Enumeration.ofJson?))
        fun _ => hitems,
      FieldDefinition.listOfMembers?_eq, FieldDefinition.listOfMembers?_eq,
      hchanges.others "fields" (by decide), hchanges.optional_eq_of_ne "config" (by decide)]
  | fields =>
    have hitems := mapM_replace h before after
    rw [← FieldDefinition.listOfJson?_eq_mapM, ← FieldDefinition.listOfJson?_eq_mapM] at hitems
    refine hchanges.bind_record?_eq Definition.keys ?_
    rw [Definition.ofMembers?, Definition.ofMembers?, hchanges.others "name" (by decide),
      hchanges.orElse_eq_of_ne "read_only" (by decide),
      hchanges.orElse_eq_of_ne "enums" (by decide),
      FieldDefinition.listOfMembers?_eq, FieldDefinition.listOfMembers?_eq,
      hchanges.congr (fun value? => (value?.bind Json.array?).bind FieldDefinition.listOfJson?)
        "fields" fun _ => hitems,
      hchanges.optional_eq_of_ne "config" (by decide)]
  | inner =>
    have hitems := mapM_replace h before after
    rw [← FieldDefinition.listOfJson?_eq_mapM, ← FieldDefinition.listOfJson?_eq_mapM] at hitems
    rw [Alike, AlternateDefinition.ofJson?, AlternateDefinition.ofJson?, hchanges.distinct,
      hchanges.others "name" (by decide), FieldDefinition.listOfMembers?_eq,
      FieldDefinition.listOfMembers?_eq,
      hchanges.congr (fun value? => (value?.bind Json.array?).bind FieldDefinition.listOfJson?)
        "fields" fun _ => hitems]
  | alternates =>
    have hitems := mapM_replace h before after
    rw [← AlternateDefinition.listOfJson?_eq_mapM, ← AlternateDefinition.listOfJson?_eq_mapM]
      at hitems
    -- a type has one key only, so with another key both are refused
    rcases pre with _ | ⟨_, _ | _⟩
    · rcases post with _ | _
      · rw [Alike, List.nil_append, List.nil_append, TypeDefinition.ofJson?,
          TypeDefinition.ofJson?, hitems]
      · exact (TypeDefinition.ofJson?_of_two _ _ _).trans
          (TypeDefinition.ofJson?_of_two _ _ _).symm
    all_goals
      exact (TypeDefinition.ofJson?_of_two _ _ _).trans (TypeDefinition.ofJson?_of_two _ _ _).symm

/-- Padding makes no difference to what is read. -/
theorem Padded.alike {place : Place} {json json' : Json} (h : Padded place json json') :
    place.Alike json json' := by
  induction h with
  | add pre post assumed missing => exact Place.alike_of_add assumed missing
  | among pre post before after lists _ ih =>
    exact Place.alike_of_lists lists ih pre post before after
  | inside pre post holds padded ih =>
    -- only objects are padded
    cases padded <;> exact Place.alike_of_holds holds ih pre post

/-! ## Arrays in place of objects -/

namespace Json

variable {keys : List String} {items : List Json}

theorem map_fst_zip_sublist (keys : List String) (items : List Json) :
    ((keys.zip items).map (·.1)).Sublist keys := by
  induction keys generalizing items with
  | nil => exact List.Sublist.refl _
  | cons key keys ih =>
    cases items with
    | nil => exact List.nil_sublist _
    | cons item items => exact (ih items).cons_cons key

theorem distinct_zip (hkeys : keys.Nodup) (items : List Json) :
    distinct keys (keys.zip items) = true :=
  decide_eq_true (((map_fst_zip_sublist keys items).nodup hkeys).filter _)

/-- The items of an array stand for the keys in order. -/
theorem record?_array (hkeys : keys.Nodup) (h : items.length ≤ keys.length) :
    record? keys (.array items) = record? keys (.object (keys.zip items)) := by
  rw [record?_object (distinct_zip hkeys items)]
  exact if_pos h

end Json

/-- The options of a field do not depend on other keys. -/
theorem FieldOptions.ofMembers?_cons {key : String} (h : key ∉ keys) (value : Json)
    (members : List (String × Json)) :
    ofMembers? ((key, value) :: members) = ofMembers? members := by
  have hother : ∀ other ∈ keys,
      Json.member? other ((key, value) :: members) = Json.member? other members := by
    intro other hmem
    rw [Json.member?_cons, if_neg]
    rintro rfl
    exact h hmem
  simp only [keys, List.forall_mem_cons] at hother
  simp only [ofMembers?, Json.orElse, Json.optional, hother]

theorem FieldDefinition.ofJson?_array {items : List Json} (h : items.length ≤ keys.length) :
    ofJson? (.array items) = ofJson? (.object (keys.zip items)) := by
  have hkeys : keys.Nodup := by decide
  rw [ofJson?.eq_1, if_pos (Json.distinct_zip hkeys items), typeOfMembers?_eq]
  match items, h with
  | [], _ => rfl
  | [name], _ => cases name <;> rfl
  | name :: type :: items, h =>
    have hitems : items.length ≤ FieldOptions.keys.length :=
      Nat.le_of_succ_le_succ (Nat.le_of_succ_le_succ h)
    rw [ofJson?, if_pos hitems, keys, List.zip_cons_cons, List.zip_cons_cons,
      FieldOptions.ofMembers?_cons (by decide), FieldOptions.ofMembers?_cons (by decide)]
    simp [Json.member?_cons]

theorem AlternateDefinition.ofJson?_array {items : List Json} (h : items.length ≤ keys.length) :
    ofJson? (.array items) = ofJson? (.object (keys.zip items)) := by
  have hkeys : keys.Nodup := by decide
  rw [ofJson?.eq_1, if_pos (Json.distinct_zip hkeys items), FieldDefinition.listOfMembers?_eq]
  match items, h with
  | [], _ => rfl
  | [name], _ => cases name <;> rfl
  | [name, fields], _ =>
    cases fields with
    | array items => rw [ofJson?]; simp [keys, Json.array?]
    | null | bool | integer | decimal | string | object | unreadable =>
      simp [ofJson?, keys, Json.array?]

/-- The keys of an object at a place, in the order in which an array has their values. A type is
never an array. -/
def Place.keys? : Place → Option (List String)
  | definition => some Definition.keys
  | settings => some MismatchPolicy.keys
  | enumeration => some Enumeration.keys
  | field => some FieldDefinition.keys
  | alternate => some AlternateDefinition.keys
  | type => none

/-- An array is read as the object with the values that stand in it. -/
theorem Place.alike_array {place : Place} {keys : List String} (hkeys : place.keys? = some keys)
    {items : List Json} (h : items.length ≤ keys.length) :
    place.Alike (.array items) (.object (keys.zip items)) := by
  cases place with
  | type => cases hkeys
  | definition =>
    obtain rfl := Option.some.inj hkeys
    rw [Alike, Definition.ofJson?, Json.record?_array (by decide) h, Definition.ofJson?]
  | settings =>
    obtain rfl := Option.some.inj hkeys
    rw [Alike, MismatchPolicy.ofSettings?, Json.record?_array (by decide) h,
      MismatchPolicy.ofSettings?]
  | enumeration =>
    obtain rfl := Option.some.inj hkeys
    rw [Alike, Enumeration.ofJson?, Json.record?_array (by decide) h, Enumeration.ofJson?]
  | field =>
    obtain rfl := Option.some.inj hkeys
    exact FieldDefinition.ofJson?_array h
  | alternate =>
    obtain rfl := Option.some.inj hkeys
    exact AlternateDefinition.ofJson?_array h

/-! ## The written form of a definition -/

/-- A definition is read back from its written form, so writing what was read and reading it again
changes nothing; and values that differ in keys that say nothing are read alike. -/
theorem Definition.json_roundTrip :
    (∀ definition : Definition, ofJson? definition.toJson = some definition) ∧
      (∀ json, (ofJson? json).bind (fun definition => ofJson? definition.toJson) = ofJson? json) ∧
      ∀ json json', Relation.EqvGen (Padded .definition) json json' →
        ofJson? json = ofJson? json' := by
  refine ⟨ofJson?_toJson, fun json => ?_, fun json json' h => ?_⟩
  · cases ofJson? json with
    | none => rfl
    | some definition => exact definition.ofJson?_toJson
  · induction h with
    | rel _ _ padded => exact padded.alike
    | refl _ => rfl
    | symm _ _ _ ih => exact ih.symm
    | trans _ _ _ _ _ ih ih' => exact ih.trans ih'

/-- A union of bytes, with further keys at the top and in the field below the union. -/
def unionJson (top bottom : List (String × Json)) : Json :=
  .object (("name", .string "Sparse") :: top ++
    [("fields", .array [.object [
      ("name", .string "body"),
      ("type", .object [("union", .array [.object [
        ("name", .string "raw"),
        ("fields", .array [
          .object (("name", .string "rest") :: bottom ++ [("type", .string "bytes")])])]])])]])])

theorem padded_unionJson :
    Relation.EqvGen (Padded .definition) (unionJson [("config", .null)] [])
      (unionJson [] [("remainder", .bool false)]) := by
  have htop : Padded .definition (unionJson [] []) (unionJson [("config", .null)] []) :=
    .add [("name", .string "Sparse")] _ rfl rfl
  have hfield : Padded .field
      (.object [("name", .string "rest"), ("type", .string "bytes")])
      (.object [("name", .string "rest"), ("remainder", .bool false), ("type", .string "bytes")]) :=
    .add [("name", .string "rest")] _ rfl rfl
  have hbottom : Padded .definition (unionJson [] []) (unionJson [] [("remainder", .bool false)]) :=
    .among [_] [] [] [] .fields <| .inside [_] [] .type <| .among [] [] [] [] .alternates <|
      .among [_] [] [] [] .inner hfield
  exact .trans _ _ _ (.symm _ _ (.rel _ _ htop)) (.rel _ _ hbottom)

theorem unionJson_agrees :
    ∃ definition, Definition.ofJson? (unionJson [("config", .null)] []) = some definition ∧
      Definition.ofJson? (unionJson [] [("remainder", .bool false)]) = some definition :=
  ⟨_, rfl, (Definition.json_roundTrip.2.2 _ _ padded_unionJson).symm⟩

end PacketLayout
