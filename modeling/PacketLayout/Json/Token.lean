import PacketLayout.Json.Number

/-!
# JSON tokens

A text is split into brackets, commas, colons, strings and words, one character at a time. A word is
a number, `true`, `false` or `null`.

* `Scan.step` is the automaton; `Token.scan` runs it over a text.
* A string holds no control character. Its escapes name code units: a whole character, or one of the
  two halves of a character beyond the first 65536. `joinHalves?` puts the halves together. A string
  with a lone half is well written and stands for no text.
-/

namespace PacketLayout.Json

/-- A string as it is written. -/
structure Spelling where
  /-- the text that it stands for; none when there is half a character in it -/
  text? : Option String
  /-- whether it is written without escapes -/
  isPlain : Bool

/-- A unit of JSON text. -/
inductive Token where
  | openArray
  | closeArray
  | openObject
  | closeObject
  | comma
  | colon
  | text (spelling : Spelling)
  | word (value : Json)

/-! ## Words and characters -/

/-- The atom that a word spells. -/
def ofWord? (word : List Char) : Option Json :=
  match String.ofList word with
  | "null" => some .null
  | "true" => some (.bool true)
  | "false" => some (.bool false)
  | _ => ofNumber? word

/-- The value of a hexadecimal digit. -/
def hexDigit? (c : Char) : Option Nat :=
  if c.isDigit then some (c.toNat - '0'.toNat)
  else if 'a' ≤ c ∧ c ≤ 'f' then some (c.toNat - 'a'.toNat + 10)
  else if 'A' ≤ c ∧ c ≤ 'F' then some (c.toNat - 'A'.toNat + 10)
  else none

/-- The character that a letter after a backslash stands for. -/
def escaped? : Char → Option Char
  | '"' => some '"'
  | '\\' => some '\\'
  | '/' => some '/'
  | 'b' => some '\x08'
  | 'f' => some '\x0c'
  | 'n' => some '\n'
  | 'r' => some '\r'
  | 't' => some '\t'
  | _ => none

/-- Whether a character may stand between tokens without meaning. -/
def isBlank (c : Char) : Bool := c = ' ' || c = '\n' || c = '\r' || c = '\t'

/-- The token that a single character is. -/
def punctuation? : Char → Option Token
  | '[' => some .openArray
  | ']' => some .closeArray
  | '\x7b' => some .openObject
  | '\x7d' => some .closeObject
  | ',' => some .comma
  | ':' => some .colon
  | _ => none

/-! ## Halves of characters -/

/-- Whether a code unit is the first half of a character. -/
def isFirstHalf (unit : Nat) : Bool := 0xD800 ≤ unit && unit < 0xDC00

/-- Whether a code unit is the second half of a character. -/
def isSecondHalf (unit : Nat) : Bool := 0xDC00 ≤ unit && unit < 0xE000

/-- The character of two halves. -/
def ofHalves (first second : Nat) : Char :=
  Char.ofNat (0x10000 + (first - 0xD800) * 0x400 + (second - 0xDC00))

/-- The characters that code units spell, in front of those of `done`. The units are given last
first; a half without the other one spells nothing. -/
def joinHalves? (done : List Char) : List Nat → Option (List Char)
  | [] => some done
  | unit :: units =>
    if isSecondHalf unit then
      match units with
      | first :: units =>
        if isFirstHalf first then joinHalves? (ofHalves first unit :: done) units else none
      | [] => none
    else if isFirstHalf unit then none
    else joinHalves? (Char.ofNat unit :: done) units

/-! ## The automaton -/

/-- Where in a token the scan stands. What has been read of the token is kept last first. -/
inductive Scan where
  | between
  | word (chars : List Char)
  /-- in a string: its code units, and whether no escape was among them -/
  | text (units : List Nat) (isPlain : Bool)
  /-- after a backslash -/
  | escape (units : List Nat)
  /-- after a backslash and `u`: digits that are still to come, and the value of those read -/
  | code (units : List Nat) (missing value : Nat)

namespace Scan

/-- Go on with a character that starts something new. -/
def begin (c : Char) : List Token × Scan :=
  match punctuation? c with
  | some token => ([token], between)
  | none =>
    if c = '"' then ([], text [] true)
    else if isBlank c then ([], between)
    else ([], word [c])

/-- Whether a character ends a word. -/
def endsWord (c : Char) : Bool := (punctuation? c).isSome || c = '"' || isBlank c

/-- The token of a string after its last code unit. -/
def closeText (units : List Nat) (isPlain : Bool) : Token :=
  .text { text? := (joinHalves? [] units).map String.ofList, isPlain }

/-- Read one character. -/
def step (state : Scan) (c : Char) : Option (List Token × Scan) :=
  match state with
  | between => some (begin c)
  | word chars =>
    if endsWord c then
      (ofWord? chars.reverse).map fun value =>
        let (tokens, state) := begin c
        (.word value :: tokens, state)
    else some ([], word (c :: chars))
  | text units isPlain =>
    if c = '"' then some ([closeText units isPlain], between)
    else if c = '\\' then some ([], escape units)
    else if c.toNat < 0x20 then none
    else some ([], text (c.toNat :: units) isPlain)
  | escape units =>
    if c = 'u' then some ([], code units 4 0)
    else (escaped? c).map fun c => ([], text (c.toNat :: units) false)
  | code units missing value =>
    (hexDigit? c).map fun digit =>
      let value := 16 * value + digit
      if missing ≤ 1 then ([], text (value :: units) false)
      else ([], code units (missing - 1) value)

/-- The tokens that are still open at the end of a text. -/
def finish : Scan → Option (List Token)
  | between => some []
  | word chars => (ofWord? chars.reverse).map fun value => [.word value]
  | _ => none

/-- Read one character after the tokens in `state`, which are kept last first. -/
def feed (state : List Token × Scan) (c : Char) : Option (List Token × Scan) :=
  (state.2.step c).map fun (tokens, scan) => (tokens.reverse ++ state.1, scan)

end Scan

/-- The tokens of a text. -/
def Token.scan (text : String) : Option (List Token) :=
  (text.toList.foldlM Scan.feed ([], .between)).bind fun (tokens, scan) =>
    scan.finish.map fun last => tokens.reverse ++ last

end PacketLayout.Json
