import PacketLayout.Json.Reader
import PacketLayout.Proofs.Spelling

/-!
# Reading a written text

A value is read back from its text, unless it nests deeper than the reader of the text allows.

* `Json.Fits.run_tokens` puts the tokens of a value together, inside of the containers that are
  open.
* `Json.Fits.parse?_write` is the statement for values, and `Definition.ofJson?_of_write` that for
  definitions: it is the unions in each other that count.
-/

namespace PacketLayout

namespace Json

/-! ## Keys -/

theorem isPlain_of_isNumeric {c : Char} (h : isNumeric c = true) : isPlain c = true := by
  have hprintable : ¬ c.toNat < 0x20 := by
    simp only [isNumeric, Bool.or_eq_true, decide_eq_true_eq] at h
    rcases h with ((((hdigit | rfl) | rfl) | rfl) | rfl) | rfl
    · have hzero : 48 ≤ c.toNat := (Char.isDigit_iff_toNat.1 hdigit).1
      omega
    all_goals decide
  refine decide_eq_true ?_
  unfold writeChar
  split
  · cases h
  · cases h
  · cases h
  · cases h
  · cases h
  · exact if_neg hprintable

namespace Unfinished

/-- A key that spells a number is written without escapes, so it has its value. -/
theorem addMember_spelling (done : List (String × Json)) (key : String) (value : Json) :
    addMember (some done) (spelling key) value = some ((key, value) :: done) := by
  have hplain : (ofNumber? key.toList).isSome = true → (spelling key).isPlain = true := by
    intro hnumber
    obtain ⟨number, hnumber⟩ := Option.isSome_iff_exists.1 hnumber
    exact List.all_eq_true.2 fun c hc =>
      isPlain_of_isNumeric (isNumeric_of_ofNumber? hnumber c hc)
  have hvalue : (if (ofNumber? key.toList).isSome && !(spelling key).isPlain then .unreadable
      else value) = value := by
    refine if_neg fun h => ?_
    rw [Bool.and_eq_true, Bool.not_eq_true'] at h
    cases (hplain h.1).symm.trans h.2
  rw [addMember]
  exact congrArg (fun value => some ((key, value) :: done)) hvalue

/-! ## Values inside of containers -/

variable {depth : Nat} {frames : List Frame}

/-- Take tokens one after the other. -/
def run (depth : Nat) (state : Unfinished) (tokens : List Token) : Option Unfinished :=
  tokens.foldlM (step depth) state

theorem run_append (state : Unfinished) (tokens more : List Token) :
    run depth state (tokens ++ more) = (run depth state tokens).bind (run depth · more) :=
  List.foldlM_append

theorem run_cons {state next : Unfinished} {token : Token} (h : step depth state token = some next)
    (tokens : List Token) : run depth state (token :: tokens) = run depth next tokens := by
  rw [run, List.foldlM_cons, h]
  rfl

theorem run_singleton (state : Unfinished) (token : Token) :
    run depth state [token] = step depth state token := by
  rw [run, List.foldlM_cons]
  cases step depth state token <;> rfl

/-- Inside of these containers the tokens of a value are taken as that value. -/
def Taken (depth : Nat) (frames : List Frame) (json : Json) : Prop :=
  ∀ expected, expected = .valueOrClose ∨ expected = .value →
    run depth { frames, expected } json.tokens = complete frames json

theorem orElse_none {α : Type} (option : Option α) : (option <|> none) = option := by
  cases option <;> rfl

theorem close_eq_none {token : Token} (harray : token ≠ .closeArray)
    (hobject : token ≠ .closeObject) : close depth frames token = none := by
  unfold close
  split <;> first | contradiction | rfl

/-- What begins a value ends no container. -/
theorem step_value {expected : Expected} (h : expected = .valueOrClose ∨ expected = .value)
    {token : Token} (harray : token ≠ .closeArray) (hobject : token ≠ .closeObject) :
    step depth { frames, expected } token = openValue frames token := by
  rcases h with rfl | rfl
  · change (close depth frames token <|> openValue frames token) = _
    rw [close_eq_none harray hobject]
    rfl
  · rfl

theorem taken_word {value : Json} (h : value.tokens = [.word value]) :
    Taken depth frames value := by
  intro expected hexpected
  rw [h, run_singleton]
  exact step_value hexpected nofun nofun

theorem taken_string (value : String) : Taken depth frames (.string value) := by
  intro expected hexpected
  rw [tokens, run_singleton]
  exact step_value hexpected nofun nofun

/-- Parts with a comma between any two of them are taken one after the other. -/
theorem run_intercalate {α : Type} (frame : List α → Frame) {partTokens : α → List Token}
    {first later : Expected} {parts : List α} (hparts : parts ≠ [])
    (hcomma : ∀ done,
      step depth { frames := frame done :: frames, expected := .commaOrClose } .comma =
        some { frames := frame done :: frames, expected := later })
    (hpart : ∀ part ∈ parts, ∀ done expected, expected = first ∨ expected = later →
      run depth { frames := frame done :: frames, expected } (partTokens part) =
        some { frames := frame (part :: done) :: frames, expected := .commaOrClose })
    (done : List α) {expected : Expected} (hexpected : expected = first ∨ expected = later) :
    run depth { frames := frame done :: frames, expected }
        ([Token.comma].intercalate (parts.map partTokens)) =
      some { frames := frame (parts.reverse ++ done) :: frames, expected := .commaOrClose } := by
  induction parts generalizing done expected with
  | nil => cases hparts rfl
  | cons part parts ih =>
    rw [List.forall_mem_cons] at hpart
    have hfirst := hpart.1 done expected hexpected
    cases parts with
    | nil => rw [List.map_singleton, List.intercalate_singleton, hfirst]; rfl
    | cons next parts =>
      rw [List.map_cons, List.map_cons, List.intercalate_cons_cons, ← List.map_cons, run_append,
        run_append, hfirst, Option.bind_some, run_singleton, hcomma, Option.bind_some,
        ih (List.cons_ne_nil _ _) hpart.2 (part :: done) (.inr rfl), List.reverse_cons,
        List.reverse_cons, List.reverse_cons, List.append_assoc, List.append_assoc,
        List.append_assoc]
      rfl

/-- A container inside of no more than `depth` containers, itself included, is readable. -/
theorem within_eq {frame : Frame} (h : frames.length + 1 ≤ depth) (value : Json) :
    within depth (frame :: frames) value = value := by
  refine if_pos ?_
  rw [List.drop_eq_nil_of_le h]
  rfl

theorem itemTokens_eq (items : List Json) : itemTokens items = items.map (·.tokens) := by
  induction items with
  | nil => rfl
  | cons item items ih => rw [itemTokens, ih, List.map_cons]

theorem memberTokens_eq (members : List (String × Json)) :
    memberTokens members =
      members.map fun member => .text (spelling member.1) :: .colon :: member.2.tokens := by
  induction members with
  | nil => rfl
  | cons member members ih => rw [memberTokens, ih, List.map_cons]

theorem taken_array {items : List Json} (hdepth : frames.length + 1 ≤ depth)
    (h : ∀ item ∈ items, ∀ done, Taken depth (.array done :: frames) item) :
    Taken depth frames (.array items) := by
  intro expected hexpected
  have hopen : step depth { frames, expected } .openArray =
      some { frames := .array [] :: frames, expected := .valueOrClose } :=
    step_value hexpected nofun nofun
  have hclose : close depth (.array items.reverse :: frames) .closeArray =
      complete frames (.array items) := by
    rw [close, within_eq hdepth, List.reverse_reverse]
  rw [tokens, run_cons hopen, itemTokens_eq]
  cases items with
  | nil =>
    rw [List.map_nil, List.intercalate_nil, List.nil_append, run_singleton]
    exact (orElse_none _).trans hclose
  | cons item items =>
    rw [run_append, run_intercalate .array (List.cons_ne_nil _ _) (fun _ => rfl)
      (fun part hpart done expected hexpected => (h part hpart done expected hexpected).trans rfl)
      [] (.inl rfl), Option.bind_some, run_singleton, List.append_nil]
    exact hclose

/-- A member is taken from its key on. -/
theorem run_member {expected : Expected} (h : expected = .keyOrClose ∨ expected = .key)
    {done : List (String × Json)} {member : String × Json}
    (hvalue : Taken depth (.object (some done) (some (spelling member.1)) :: frames) member.2) :
    run depth { frames := .object (some done) none :: frames, expected }
        (.text (spelling member.1) :: .colon :: member.2.tokens) =
      some { frames := .object (some (member :: done)) none :: frames
             expected := .commaOrClose } := by
  have hkey : step depth { frames := .object (some done) none :: frames, expected }
        (.text (spelling member.1)) =
      some { frames := .object (some done) (some (spelling member.1)) :: frames
             expected := .colon } := by
    rcases h with rfl | rfl <;> rfl
  have hcolon : step depth { frames := .object (some done) (some (spelling member.1)) :: frames
                             expected := .colon } .colon =
      some { frames := .object (some done) (some (spelling member.1)) :: frames
             expected := .value } := rfl
  rw [run_cons hkey, run_cons hcolon, hvalue .value (.inr rfl), complete, addMember_spelling]

theorem taken_object {members : List (String × Json)} (hdepth : frames.length + 1 ≤ depth)
    (h : ∀ member ∈ members, ∀ done key, Taken depth (.object done key :: frames) member.2) :
    Taken depth frames (.object members) := by
  intro expected hexpected
  have hopen : step depth { frames, expected } .openObject =
      some { frames := .object (some []) none :: frames, expected := .keyOrClose } :=
    step_value hexpected nofun nofun
  have hclose : close depth (.object (some members.reverse) none :: frames) .closeObject =
      complete frames (.object members) := by
    rw [close, within_eq hdepth, List.reverse_reverse]
  rw [tokens, run_cons hopen, memberTokens_eq]
  cases members with
  | nil =>
    rw [List.map_nil, List.intercalate_nil, List.nil_append, run_singleton]
    exact (orElse_none _).trans hclose
  | cons member members =>
    rw [run_append, run_intercalate (fun done => .object (some done) none)
      (List.cons_ne_nil _ _) (fun _ => rfl)
      (fun part hpart done expected hexpected => run_member hexpected (h part hpart _ _))
      [] (.inl rfl), Option.bind_some, run_singleton, List.append_nil]
    exact hclose

end Unfinished

/-- The tokens of a value are taken as that value, as long as there are not too many containers
around it. -/
theorem Fits.run_tokens {n depth : Nat} {json : Json} (h : json.Fits n) {frames : List Frame}
    (hdepth : frames.length + n ≤ depth) : Unfinished.Taken depth frames json := by
  induction h generalizing frames with
  | null | bool | integer | decimal => exact Unfinished.taken_word rfl
  | string _ value => exact Unfinished.taken_string value
  | array _ ih =>
    refine Unfinished.taken_array (by omega) fun item hitem done => ih item hitem ?_
    rw [List.length_cons]
    omega
  | object _ ih =>
    refine Unfinished.taken_object (by omega) fun member hmember done key => ih member hmember ?_
    rw [List.length_cons]
    omega

/-- A value is read back from its text, if the reader allows as many containers in each other as the
value has. -/
theorem Fits.parse?_write {depth : Nat} {json : Json} (h : json.Fits depth) :
    parse? depth json.write = some json := by
  have hrun : (json.tokens.foldlM (Unfinished.step depth) {}).bind (·.result) = some json :=
    congrArg (·.bind (·.result)) (h.run_tokens (Nat.le_of_eq (Nat.zero_add _)) .value (.inr rfl))
  rw [parse?, Token.scan_of_spells h.spells]
  exact hrun

theorem Fits.mono {n depth : Nat} {json : Json} (h : json.Fits n) (hle : n ≤ depth) :
    json.Fits depth := by
  induction h generalizing depth with
  | null => exact .null depth
  | bool _ value => exact .bool depth value
  | integer _ value => exact .integer depth value
  | decimal _ spelled => exact .decimal depth spelled
  | string _ value => exact .string depth value
  | array _ ih =>
    obtain ⟨depth, rfl⟩ := Nat.exists_eq_add_of_le' (Nat.le_of_add_left_le hle)
    exact .array fun item hitem => ih item hitem (Nat.le_of_add_le_add_right hle)
  | object _ ih =>
    obtain ⟨depth, rfl⟩ := Nat.exists_eq_add_of_le' (Nat.le_of_add_left_le hle)
    exact .object fun member hmember => ih member hmember (Nat.le_of_add_le_add_right hle)

end Json

/-! ## Definitions -/

mutual

/-- How many unions there are in each other at most. -/
def FieldDefinition.unionDepth : FieldDefinition → Nat
  | .mk _ type _ => type.unionDepth

/-- How many unions there are in each other at most, this one included. -/
def TypeDefinition.unionDepth : TypeDefinition → Nat
  | .union alternates => AlternateDefinition.listUnionDepth alternates + 1
  | .integer _ | .enumeration _ | .composite _ | .bytes | .byteArray _ => 0

/-- How many unions there are in each other at most. -/
def AlternateDefinition.unionDepth : AlternateDefinition → Nat
  | .mk _ fields => FieldDefinition.listUnionDepth fields

def FieldDefinition.listUnionDepth : List FieldDefinition → Nat
  | [] => 0
  | field :: fields => max field.unionDepth (FieldDefinition.listUnionDepth fields)

def AlternateDefinition.listUnionDepth : List AlternateDefinition → Nat
  | [] => 0
  | alternate :: alternates =>
    max alternate.unionDepth (AlternateDefinition.listUnionDepth alternates)

end

namespace Json

theorem Fits.ofOption {depth : Nat} {option : Option Json}
    (h : ∀ value, option = some value → value.Fits depth) : (Json.ofOption option).Fits depth := by
  cases option with
  | none => exact .null depth
  | some value => exact h value rfl

theorem Fits.tagged {depth : Nat} {content : Json} (tag : String) (h : content.Fits depth) :
    (Json.tagged tag content).Fits (depth + 1) :=
  .object (List.forall_mem_singleton.2 h)

end Json

theorem Enumeration.fits_toJson (type : Enumeration) : type.toJson.Fits 2 := by
  refine .object ?_
  simp only [List.forall_mem_cons]
  refine ⟨.string 1 _, .string 1 _, .object fun member hmember => ?_, List.forall_mem_nil _⟩
  obtain ⟨entry, -, rfl⟩ := List.mem_map.1 hmember
  exact .string 0 _

theorem FieldOptions.fits_toMembers (options : FieldOptions) :
    ∀ member ∈ options.toMembers, member.2.Fits 1 := by
  have hdoc : (Json.array (options.docLines.map .string)).Fits 1 :=
    .array (List.forall_mem_map.2 fun line _ => .string 0 line)
  have hoption {α : Type} (option : Option α) {write : α → Json} (h : ∀ a, (write a).Fits 1) :
      (Json.ofOption (option.map write)).Fits 1 := by
    refine .ofOption fun value hvalue => ?_
    obtain ⟨a, -, rfl⟩ := Option.map_eq_some_iff.1 hvalue
    exact h a
  simp only [toMembers, List.forall_mem_cons]
  exact ⟨hdoc, hoption _ fun it => .string 1 it.name, .bool 1 _,
    hoption _ fun it => .integer 1 it.toNat, hoption _ fun it => .string 1 it,
    hoption _ fun it => .integer 1 it.toNat, hoption _ fun it => .string 1 it,
    hoption _ fun it => .integer 1 it.toNat, .bool 1 _, hoption _ fun it => .string 1 it.name,
    List.forall_mem_nil _⟩

-- A union puts its fields five containers deeper: its type with its tag, its alternates, one of
-- these, that one's fields, and one of these.
mutual

theorem FieldDefinition.fits_toJson :
    ∀ field : FieldDefinition, field.toJson.Fits (2 + 5 * field.unionDepth)
  | .mk name type options => by
    rw [FieldDefinition.toJson, FieldDefinition.unionDepth,
      show 2 + 5 * type.unionDepth = 1 + 5 * type.unionDepth + 1 by omega]
    refine .object (List.forall_mem_cons.2 ⟨.string _ name, List.forall_mem_cons.2 ⟨?_, ?_⟩⟩)
    · exact TypeDefinition.fits_toJson type
    · exact fun member hmember => (options.fits_toMembers member hmember).mono (by omega)

theorem TypeDefinition.fits_toJson :
    ∀ type : TypeDefinition, type.toJson.Fits (1 + 5 * type.unionDepth)
  | .integer kind => .tagged "primitive" (.string 0 kind.name)
  | .enumeration name => .tagged "enum" (.string 0 name)
  | .composite name => .tagged "composite" (.string 0 name)
  | .bytes => .string 1 "bytes"
  | .byteArray length => .tagged "byte_array" (.integer 0 length.toNat)
  | .union alternates => by
    rw [TypeDefinition.toJson, TypeDefinition.unionDepth,
      show 1 + 5 * (AlternateDefinition.listUnionDepth alternates + 1) =
        4 + 5 * AlternateDefinition.listUnionDepth alternates + 1 + 1 by omega]
    exact .tagged "union" (.array (AlternateDefinition.fits_listToJson alternates))

theorem AlternateDefinition.fits_toJson :
    ∀ alternate : AlternateDefinition, alternate.toJson.Fits (4 + 5 * alternate.unionDepth)
  | .mk name fields => by
    rw [AlternateDefinition.toJson, AlternateDefinition.unionDepth,
      show 4 + 5 * FieldDefinition.listUnionDepth fields =
        2 + 5 * FieldDefinition.listUnionDepth fields + 1 + 1 by omega]
    refine .object (List.forall_mem_cons.2 ⟨.string _ name, List.forall_mem_singleton.2 ?_⟩)
    exact .array (FieldDefinition.fits_listToJson fields)

theorem FieldDefinition.fits_listToJson :
    ∀ fields : List FieldDefinition, ∀ item ∈ FieldDefinition.listToJson fields,
      item.Fits (2 + 5 * FieldDefinition.listUnionDepth fields)
  | [] => nofun
  | field :: fields => by
    rw [FieldDefinition.listToJson, FieldDefinition.listUnionDepth, List.forall_mem_cons]
    refine ⟨(FieldDefinition.fits_toJson field).mono (by omega), fun item hitem => ?_⟩
    exact (FieldDefinition.fits_listToJson fields item hitem).mono (by omega)

theorem AlternateDefinition.fits_listToJson :
    ∀ alternates : List AlternateDefinition, ∀ item ∈ AlternateDefinition.listToJson alternates,
      item.Fits (4 + 5 * AlternateDefinition.listUnionDepth alternates)
  | [] => nofun
  | alternate :: alternates => by
    rw [AlternateDefinition.listToJson, AlternateDefinition.listUnionDepth, List.forall_mem_cons]
    refine ⟨(AlternateDefinition.fits_toJson alternate).mono (by omega), fun item hitem => ?_⟩
    exact (AlternateDefinition.fits_listToJson alternates item hitem).mono (by omega)

end

namespace Definition

/-- How many unions there are in each other at most. -/
def unionDepth (definition : Definition) : Nat :=
  FieldDefinition.listUnionDepth definition.fields

theorem fits_toJson (definition : Definition) :
    definition.toJson.Fits (4 + 5 * definition.unionDepth) := by
  rw [toJson, unionDepth, show 4 + 5 * FieldDefinition.listUnionDepth definition.fields =
    2 + 5 * FieldDefinition.listUnionDepth definition.fields + 1 + 1 by omega]
  refine .object ?_
  simp only [List.forall_mem_cons]
  refine ⟨.string _ _, .bool _ _, ?_, .array ?_, .ofOption fun value hvalue => ?_,
    List.forall_mem_nil _⟩
  · refine .array (List.forall_mem_map.2 fun type _ => ?_)
    exact type.fits_toJson.mono (by omega)
  · exact FieldDefinition.fits_listToJson definition.fields
  · obtain ⟨policy, -, rfl⟩ := Option.map_eq_some_iff.1 hvalue
    exact .object (List.forall_mem_singleton.2 (.string _ _))

/-- A definition is read back from its text, as long as the reader allows for its unions. -/
theorem ofJson?_of_write (definition : Definition) {depth : Nat}
    (h : 4 + 5 * definition.unionDepth ≤ depth) :
    (Json.parse? depth definition.toJson.write).bind ofJson? = some definition := by
  rw [(definition.fits_toJson.mono h).parse?_write, Option.bind_some, ofJson?_toJson]

end Definition

end PacketLayout
