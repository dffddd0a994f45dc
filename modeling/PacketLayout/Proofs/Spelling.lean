import PacketLayout.Json.Token
import PacketLayout.Json.Writer
import PacketLayout.Proofs.RoundTrip

/-!
# The tokens of a written value

A text is split at its quotes, its punctuation and its blanks. Of what a value is written with, only
words have no end of their own: they go on up to the next character that no word has.

* `Json.isNumeric_of_ofNumber?` says which characters a number is spelled with.
* `Spells` says that characters stand for tokens, whatever comes before and behind them.
* `Json.tokens` are the tokens of a value, and `Json.Fits.spells` says that it is written with them.
-/

namespace PacketLayout.Json

/-! ## Characters of numbers -/

/-- Whether a character may stand in a number. -/
def isNumeric (c : Char) : Bool :=
  c.isDigit || c = '-' || c = '+' || c = '.' || c = 'e' || c = 'E'

/-- What has been read up to the rest may stand in a number. -/
def Leaves (chars rest : List Char) : Prop :=
  ∃ front, chars = front ++ rest ∧ ∀ c ∈ front, isNumeric c = true

theorem Leaves.refl (chars : List Char) : Leaves chars chars := ⟨[], rfl, nofun⟩

theorem Leaves.cons {c : Char} {chars rest : List Char} (hc : isNumeric c = true)
    (h : Leaves chars rest) : Leaves (c :: chars) rest := by
  obtain ⟨front, rfl, hfront⟩ := h
  exact ⟨c :: front, rfl, List.forall_mem_cons.2 ⟨hc, hfront⟩⟩

theorem Leaves.trans {chars middle rest : List Char} (h : Leaves chars middle)
    (hmore : Leaves middle rest) : Leaves chars rest := by
  obtain ⟨front, rfl, hfront⟩ := h
  obtain ⟨back, rfl, hback⟩ := hmore
  exact ⟨front ++ back, (List.append_assoc ..).symm, List.forall_mem_append.2 ⟨hfront, hback⟩⟩

theorem Leaves.isNumeric {chars : List Char} (h : Leaves chars []) :
    ∀ c ∈ chars, Json.isNumeric c = true := by
  obtain ⟨front, rfl, hfront⟩ := h
  rwa [List.append_nil]

theorem leaves_takeDigits (chars : List Char) : Leaves chars (takeDigits chars).2 := by
  rw [takeDigits, List.span_eq_takeWhile_dropWhile]
  refine ⟨_, (List.takeWhile_append_dropWhile ..).symm, fun c hc => ?_⟩
  simp [isNumeric, List.mem_takeWhile_imp hc]

theorem leaves_of_digits {chars rest : List Char}
    (h : (if (takeDigits chars).1.isEmpty then none else some (takeDigits chars).2) = some rest) :
    Leaves chars rest := by
  split at h
  · cases h
  · obtain rfl := Option.some.inj h
    exact leaves_takeDigits chars

theorem leaves_skipFraction {chars rest : List Char} (h : skipFraction chars = some rest) :
    Leaves chars rest := by
  unfold skipFraction at h
  split at h
  · exact (leaves_of_digits h).cons rfl
  · obtain rfl := Option.some.inj h
    exact .refl _

theorem leaves_skipExponent {chars rest : List Char} (h : skipExponent chars = some rest) :
    Leaves chars rest := by
  unfold skipExponent at h
  split at h
  · split at h
    · rename_i first chars hfirst
      have hnumeric : isNumeric first = true := by
        rcases hfirst with rfl | rfl <;> rfl
      refine .cons hnumeric ?_
      dsimp only at h
      split at h
      · exact (leaves_of_digits h).cons rfl
      · exact (leaves_of_digits h).cons rfl
      · exact leaves_of_digits h
    · obtain rfl := Option.some.inj h
      exact .refl _
  · obtain rfl := Option.some.inj h
    exact .refl _

/-- A number is spelled with digits, signs, points and the letter of an exponent. -/
theorem isNumeric_of_ofNumber? {chars : List Char} {value : Json}
    (h : ofNumber? chars = some value) : ∀ c ∈ chars, isNumeric c = true := by
  unfold ofNumber? at h
  split at h
  rename_i isNegative unsigned hsign
  have hunsigned : Leaves unsigned [] := by
    refine (leaves_takeDigits unsigned).trans ?_
    dsimp only at h
    split at h
    · split at h
      · rename_i htail
        rw [htail]
        exact .refl _
      · split at h
        · rename_i hrest
          obtain ⟨middle, hfraction, hexponent⟩ := Option.bind_eq_some_iff.1 hrest
          exact (leaves_skipFraction hfraction).trans (leaves_skipExponent hexponent)
        · cases h
    · cases h
  split at hsign
  · obtain ⟨rfl, rfl⟩ := Prod.mk.inj hsign
    exact (hunsigned.cons rfl).isNumeric
  · obtain ⟨rfl, rfl⟩ := Prod.mk.inj hsign
    exact hunsigned.isNumeric

/-! ## Texts in parts -/

/-- The tokens of a text, of which some have been read and `chars` are still to be read. -/
def Scan.rest? (state : List Token × Scan) (chars : List Char) : Option (List Token) :=
  (chars.foldlM feed state).bind fun (tokens, scan) =>
    scan.finish.map fun last => tokens.reverse ++ last

theorem Scan.rest?_cons {state next : Scan} {c : Char} {tokens : List Token}
    (h : state.step c = some (tokens, next)) (done : List Token) (chars : List Char) :
    rest? (done, state) (c :: chars) = rest? (tokens.reverse ++ done, next) chars := by
  rw [rest?, List.foldlM_cons, feed, h]
  rfl

theorem Token.scan_eq_rest? (text : String) :
    Token.scan text = Scan.rest? ([], .between) text.toList := rfl

/-- No word goes on with these characters. -/
def Ends (chars : List Char) : Prop := ∀ c ∈ chars.head?, Scan.endsWord c = true

/-- The characters stand for the tokens, also in a text, unless a word goes on behind them. -/
def Spells (chars : List Char) (tokens : List Token) : Prop :=
  ∀ done rest, Ends rest →
    Scan.rest? (done, .between) (chars ++ rest) = Scan.rest? (tokens.reverse ++ done, .between) rest

theorem Token.scan_of_spells {text : String} {tokens : List Token}
    (h : Spells text.toList tokens) : Token.scan text = some tokens := by
  have hrest := h [] [] nofun
  rw [List.append_nil, List.append_nil] at hrest
  rw [scan_eq_rest?, hrest, Scan.rest?]
  simp [Scan.finish]

theorem endsWord_of_punctuation? {c : Char} {token : Token} (h : punctuation? c = some token) :
    Scan.endsWord c = true := by
  simp [Scan.endsWord, h]

section

variable {chars more : List Char} {tokens moreTokens : List Token} {c : Char} {token : Token}

theorem spells_nil : Spells [] [] := fun _ _ _ => rfl

theorem Spells.punctuation_cons (hc : punctuation? c = some token) (h : Spells chars tokens) :
    Spells (c :: chars) (token :: tokens) := by
  intro done rest hrest
  have hstep : Scan.step .between c = some ([token], .between) := by
    rw [Scan.step, Scan.begin, hc]
  rw [List.cons_append, Scan.rest?_cons hstep, h _ _ hrest, List.reverse_singleton,
    List.reverse_cons, List.append_assoc]

/-- Punctuation ends a word. -/
theorem Spells.append_punctuation (h : Spells chars tokens) (hc : punctuation? c = some token)
    (hmore : Spells more moreTokens) :
    Spells (chars ++ c :: more) (tokens ++ token :: moreTokens) := by
  intro done rest hrest
  have hends : Ends (c :: more ++ rest) := by
    rintro _ ⟨⟩
    exact endsWord_of_punctuation? hc
  rw [List.append_assoc, h done _ hends, (hmore.punctuation_cons hc) _ rest hrest,
    List.reverse_append, List.append_assoc]

/-- Parts with a comma between any two of them. -/
theorem Spells.intercalate {parts : List (List Char)} {partTokens : List (List Token)}
    (h : List.Forall₂ Spells parts partTokens) :
    Spells ([','].intercalate parts) ([Token.comma].intercalate partTokens) := by
  induction h with
  | nil => exact spells_nil
  | @cons part tokens parts partTokens hpart hparts ih =>
    cases hparts with
    | nil => simpa using hpart
    | cons hnext hrest =>
      rw [List.intercalate_cons_cons, List.intercalate_cons_cons, List.append_assoc,
        List.append_assoc]
      exact hpart.append_punctuation rfl ih

end

/-! ## Words -/

theorem endsWord_of_isNumeric {c : Char} (h : isNumeric c = true) : Scan.endsWord c = false := by
  rw [← Bool.not_eq_true]
  intro hends
  rw [Scan.endsWord, Bool.or_eq_true, Bool.or_eq_true, decide_eq_true_eq] at hends
  rcases hends with (hpunctuation | rfl) | hblank
  · unfold punctuation? at hpunctuation
    split at hpunctuation <;> first | cases h | cases hpunctuation
  · cases h
  · simp only [isBlank, Bool.or_eq_true, decide_eq_true_eq] at hblank
    rcases hblank with ((rfl | rfl) | rfl) | rfl <;> cases h

theorem rest?_word {done : List Token} {word chars : List Char} {value : Json}
    (hword : ofWord? word.reverse = some value) (hends : Ends chars) :
    Scan.rest? (done, .word word) chars = Scan.rest? (.word value :: done, .between) chars := by
  cases chars with
  | nil => simp [Scan.rest?, Scan.finish, hword]
  | cons c chars =>
    have hc : Scan.endsWord c = true := hends c rfl
    have hfeed : Scan.feed (done, .word word) c = Scan.feed (.word value :: done, .between) c := by
      simp [Scan.feed, Scan.step, hc, hword]
    rw [Scan.rest?, List.foldlM_cons, hfeed]
    rfl

theorem step_word {c : Char} (h : Scan.endsWord c = false) (word : List Char) :
    Scan.step (.word word) c = some ([], .word (c :: word)) := by
  rw [Scan.step, h]
  rfl

theorem rest?_append_word {done : List Token} {word chars : List Char}
    (h : ∀ c ∈ chars, Scan.endsWord c = false) (rest : List Char) :
    Scan.rest? (done, .word word) (chars ++ rest) =
      Scan.rest? (done, .word (chars.reverse ++ word)) rest := by
  induction chars generalizing word with
  | nil => rfl
  | cons c chars ih =>
    rw [List.forall_mem_cons] at h
    rw [List.cons_append, Scan.rest?_cons (step_word h.1 word), List.reverse_nil, List.nil_append,
      ih h.2, List.reverse_cons, List.append_assoc, List.singleton_append]

theorem step_between {c : Char} (h : Scan.endsWord c = false) :
    Scan.step .between c = some ([], .word [c]) := by
  simp only [Scan.endsWord, Bool.or_eq_false_iff, decide_eq_false_iff_not] at h
  obtain ⟨⟨hpunctuation, hquote⟩, hblank⟩ := h
  rw [Option.isSome_eq_false_iff, Option.isNone_iff_eq_none] at hpunctuation
  rw [Scan.step, Scan.begin, hpunctuation]
  simp [hquote, hblank]

/-- A word is read to its end. -/
theorem spells_word {word : List Char} {value : Json} (hword : ofWord? word = some value)
    (hwhole : word.any Scan.endsWord = false) : Spells word [.word value] := by
  intro done rest hrest
  have h : ∀ c ∈ word, Scan.endsWord c = false := fun c hc =>
    eq_false_of_ne_true (List.any_eq_false.1 hwhole c hc)
  cases word with
  | nil => cases hword
  | cons c word =>
    rw [List.forall_mem_cons] at h
    rw [List.cons_append, Scan.rest?_cons (step_between h.1), rest?_append_word h.2]
    exact rest?_word (by rwa [List.reverse_append, List.reverse_reverse]) hrest

/-- No number is one of the other words. -/
theorem ofWord?_of_ofNumber? {word : List Char} {value : Json} (h : ofNumber? word = some value) :
    ofWord? word = some value := by
  have hother {other : String} (heq : String.ofList word = other)
      (hnone : ofNumber? other.toList = none) : False := by
    rw [← heq, String.toList_ofList, h] at hnone
    cases hnone
  unfold ofWord?
  split
  · exact (hother ‹_› rfl).elim
  · exact (hother ‹_› rfl).elim
  · exact (hother ‹_› rfl).elim
  · exact h

theorem spells_number {word : List Char} {value : Json} (h : ofNumber? word = some value) :
    Spells word [.word value] :=
  spells_word (ofWord?_of_ofNumber? h) <| List.any_eq_false.2 fun c hc =>
    ne_true_of_eq_false (endsWord_of_isNumeric (isNumeric_of_ofNumber? h c hc))

/-- An integer is spelled in decimal digits, with a sign if it is negative. -/
theorem ofNumber?_integer (value : Int) :
    ofNumber? (toString value).toList = some (.integer value) := by
  cases value with
  | ofNat n => exact ofNumber?_toString n
  | negSucc n =>
    have htext : (toString (Int.negSucc n)).toList = '-' :: Nat.toDigits 10 (n + 1) := by
      rw [Int.toString_eq_repr, Int.repr, String.toList_append, Nat.toList_repr]
      rfl
    rw [htext, ofNumber?]
    simp only [takeDigits_toDigits, isWholePart_toDigits,
      Nat.ofDigitChars_toDigits (by decide : 1 < 10) (by decide)]
    rfl

/-! ## Strings -/

/-- Whether a character stands for itself in a string. -/
def isPlain (c : Char) : Bool := decide (writeChar c = [c])

/-- The spelling of a text in quotes. -/
def spelling (text : String) : Spelling := ⟨some text, text.toList.all isPlain⟩

theorem hexDigit?_digitChar : ∀ n < 16, hexDigit? (Nat.digitChar n) = some n := by decide

/-- Four digits after a backslash and `u` are the code of a character. -/
theorem rest?_code {n : Nat} (h : n < 256) (done : List Token) (units : List Nat) (plain : Bool)
    (chars : List Char) :
    Scan.rest? (done, .text units plain)
        (['\\', 'u', '0', '0'] ++ (Hex.ofByte n.toUInt8).toList ++ chars) =
      Scan.rest? (done, .text (n :: units) false) chars := by
  have hbyte : n.toUInt8.toNat = n := Nat.mod_eq_of_lt h
  have hfirst : Scan.step (.code units 2 0) (Nat.digitChar (n / 16)) =
      some ([], .code units 1 (n / 16)) := by
    rw [Scan.step, hexDigit?_digitChar _ (by omega)]
    simp
  have hsecond : Scan.step (.code units 1 (n / 16)) (Nat.digitChar (n % 16)) =
      some ([], .text (n :: units) false) := by
    rw [Scan.step, hexDigit?_digitChar _ (by omega)]
    simp [Nat.div_add_mod]
  rw [Hex.ofByte, hbyte, String.toList_ofList]
  -- the letter and two zeros lead to the two digits
  refine (Scan.rest?_cons hfirst done _).trans ?_
  exact Scan.rest?_cons hsecond done chars

theorem rest?_writeChar (done : List Token) (units : List Nat) (plain : Bool) (c : Char)
    (chars : List Char) :
    Scan.rest? (done, .text units plain) (writeChar c ++ chars) =
      Scan.rest? (done, .text (c.toNat :: units) (isPlain c && plain)) chars := by
  rw [isPlain]
  unfold writeChar
  split
  · rfl
  · rfl
  · rfl
  · rfl
  · rfl
  · rename_i hquote hbackslash _ _ _
    split
    · rename_i hcontrol
      rw [rest?_code (Nat.lt_trans hcontrol (by decide)), decide_eq_false (by simp),
        Bool.false_and]
    · rename_i hprintable
      have hstep : Scan.step (.text units plain) c = some ([], .text (c.toNat :: units) plain) := by
        rw [Scan.step, if_neg hquote, if_neg hbackslash, if_neg hprintable]
      rw [List.singleton_append, Scan.rest?_cons hstep, decide_eq_true rfl, Bool.true_and]
      rfl

theorem rest?_flatMap_writeChar (done : List Token) (units : List Nat) (plain : Bool)
    (text rest : List Char) :
    Scan.rest? (done, .text units plain) (text.flatMap writeChar ++ rest) =
      Scan.rest? (done, .text ((text.map Char.toNat).reverse ++ units) (text.all isPlain && plain))
        rest := by
  induction text generalizing units plain with
  | nil => rfl
  | cons c text ih =>
    rw [List.flatMap_cons, List.append_assoc, rest?_writeChar, ih, List.map_cons,
      List.reverse_cons, List.append_assoc, List.singleton_append, List.all_cons,
      Bool.and_left_comm, Bool.and_assoc]

theorem isHalf_eq_false (c : Char) :
    isFirstHalf c.toNat = false ∧ isSecondHalf c.toNat = false := by
  have hvalid : c.toNat < 0xD800 ∨ 0xDFFF < c.toNat ∧ c.toNat < 0x110000 := c.valid
  simp only [isFirstHalf, isSecondHalf, Bool.and_eq_false_iff, decide_eq_false_iff_not]
  omega

theorem joinHalves?_cons (c : Char) (done : List Char) (units : List Nat) :
    joinHalves? done (c.toNat :: units) = joinHalves? (c :: done) units := by
  obtain ⟨hfirst, hsecond⟩ := isHalf_eq_false c
  rw [joinHalves?.eq_def]
  simp only [hfirst, hsecond, Bool.false_eq_true, if_false, Char.ofNat_toNat]

/-- Whole characters are no halves. -/
theorem joinHalves?_reverse (text done : List Char) :
    joinHalves? done (text.reverse.map Char.toNat) = some (text ++ done) := by
  have hunits (units done : List Char) :
      joinHalves? done (units.map Char.toNat) = some (units.reverse ++ done) := by
    induction units generalizing done with
    | nil => rfl
    | cons c units ih =>
      rw [List.map_cons, joinHalves?_cons, ih, List.reverse_cons, List.append_assoc,
        List.singleton_append]
  rw [hunits, List.reverse_reverse]

/-- A text in quotes is read as that text. -/
theorem spells_writeString (text : String) :
    Spells (writeString text).toList [.text (spelling text)] := by
  intro done rest _
  have hopen : Scan.step .between '"' = some ([], .text [] true) := rfl
  have hclose (units : List Nat) (plain : Bool) :
      Scan.step (.text units plain) '"' = some ([Scan.closeText units plain], .between) := rfl
  rw [writeString, String.toList_ofList, List.cons_append, List.cons_append, List.append_assoc,
    Scan.rest?_cons hopen, rest?_flatMap_writeChar, List.singleton_append,
    Scan.rest?_cons (hclose _ _), List.append_nil, Bool.and_true, Scan.closeText,
    ← List.map_reverse, joinHalves?_reverse, List.append_nil, Option.map_some,
    String.ofList_toList]
  rfl

/-! ## Values -/

mutual

/-- The tokens of a value. -/
def tokens : Json → List Token
  | array items => .openArray :: ([.comma].intercalate (itemTokens items) ++ [.closeArray])
  | object members =>
    .openObject :: ([.comma].intercalate (memberTokens members) ++ [.closeObject])
  | string value => [.text (spelling value)]
  | value => [.word value]

/-- The tokens of items. -/
def itemTokens : List Json → List (List Token)
  | [] => []
  | item :: items => item.tokens :: itemTokens items

/-- The tokens of members. -/
def memberTokens : List (String × Json) → List (List Token)
  | [] => []
  | (key, value) :: members =>
    (.text (spelling key) :: .colon :: value.tokens) :: memberTokens members

end

/-- The value can be told from its text, if no container in it is inside of `depth` others: it has
no part that is unreadable, and what it has of other numbers than integers is spelled as them. -/
inductive Fits : Nat → Json → Prop
  | null (depth : Nat) : Fits depth null
  | bool (depth : Nat) (value : Bool) : Fits depth (bool value)
  | integer (depth : Nat) (value : Int) : Fits depth (integer value)
  | decimal (depth : Nat) {text : String} (spelled : ofNumber? text.toList = some (decimal text)) :
      Fits depth (decimal text)
  | string (depth : Nat) (value : String) : Fits depth (string value)
  | array {depth : Nat} {items : List Json} (each : ∀ item ∈ items, Fits depth item) :
      Fits (depth + 1) (array items)
  | object {depth : Nat} {members : List (String × Json)}
      (each : ∀ member ∈ members, Fits depth member.2) : Fits (depth + 1) (object members)

theorem forall₂_spells_items {items : List Json}
    (h : ∀ item ∈ items, Spells item.write.toList item.tokens) :
    List.Forall₂ Spells ((writeItems items).map String.toList) (itemTokens items) := by
  induction items with
  | nil => exact .nil
  | cons item items ih =>
    rw [List.forall_mem_cons] at h
    exact .cons h.1 (ih h.2)

theorem forall₂_spells_members {members : List (String × Json)}
    (h : ∀ member ∈ members, Spells member.2.write.toList member.2.tokens) :
    List.Forall₂ Spells ((writeMembers members).map String.toList) (memberTokens members) := by
  induction members with
  | nil => exact .nil
  | cons member members ih =>
    obtain ⟨key, value⟩ := member
    rw [List.forall_mem_cons] at h
    refine .cons ?_ (ih h.2)
    rw [String.toList_append, String.toList_append, List.append_assoc]
    exact (spells_writeString key).append_punctuation rfl h.1

/-- A value is written with its tokens. -/
theorem Fits.spells {depth : Nat} {json : Json} (h : json.Fits depth) :
    Spells json.write.toList json.tokens := by
  induction h with
  | null => exact spells_word rfl rfl
  | bool _ value => cases value <;> exact spells_word rfl rfl
  | integer _ value => exact spells_number (ofNumber?_integer value)
  | decimal _ spelled => exact spells_number spelled
  | string _ value => exact spells_writeString value
  | @array _ items _ ih =>
    rw [write, String.toList_append, String.toList_append, String.toList_intercalate]
    have hclosed := (Spells.intercalate (forall₂_spells_items ih)).append_punctuation
      (c := ']') rfl spells_nil
    exact hclosed.punctuation_cons rfl
  | @object _ members _ ih =>
    rw [write, String.toList_append, String.toList_append, String.toList_intercalate]
    have hclosed := (Spells.intercalate (forall₂_spells_members ih)).append_punctuation
      (c := '\x7d') rfl spells_nil
    exact hclosed.punctuation_cons rfl

end PacketLayout.Json
