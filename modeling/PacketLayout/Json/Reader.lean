import PacketLayout.Json.Token

/-!
# Reading JSON

Tokens are put together into one value. Containers that are still open are kept as a list of
frames, innermost first, so nesting is bounded by memory and not by recursion.

A text that is not well written has no value. A well written part that has none is unreadable, and
makes nothing else unreadable but the object that it is a key of. There are three such parts:

* a string with half a character in it;
* a container inside of more containers than a limit allows;
* the value of a key that spells a number and is written with escapes. A key that stands for a
  number is that number, not a string, and is written as one.
-/

namespace PacketLayout.Json

/-- A container of which some parts have been read, the last one first. -/
inductive Frame where
  | array (done : List Json)
  /-- an object; its members are there as long as all keys have a text, and the key is there once it
  has been read and its value has not -/
  | object (done : Option (List (String × Json))) (key : Option Spelling)

/-- What may come next. -/
inductive Expected where
  | value
  /-- a value, or the end of an array that has none -/
  | valueOrClose
  | key
  /-- a key, or the end of an object that has none -/
  | keyOrClose
  | colon
  /-- a comma, or the end of the container -/
  | commaOrClose
  | nothing

/-- A value that is being read. -/
structure Unfinished where
  frames : List Frame := []
  expected : Expected := .value
  /-- the value once it is complete -/
  result : Option Json := none

namespace Unfinished

/-- Put a member in front of others. -/
def addMember (done : Option (List (String × Json))) (key : Spelling) (value : Json) :
    Option (List (String × Json)) := do
  let members ← done
  let text ← key.text?
  let spellsNumber := (ofNumber? text.toList).isSome
  pure ((text, if spellsNumber && !key.isPlain then .unreadable else value) :: members)

/-- Go on after a complete value. -/
def complete (frames : List Frame) (value : Json) : Option Unfinished :=
  match frames with
  | [] => some { expected := .nothing, result := some value }
  | .array done :: rest =>
    some { frames := .array (value :: done) :: rest, expected := .commaOrClose }
  | .object done (some key) :: rest =>
    some { frames := .object (addMember done key value) none :: rest, expected := .commaOrClose }
  | .object _ none :: _ => none

/-- The value of the innermost container; at most `depth` containers may be open. -/
def within (depth : Nat) (frames : List Frame) (value : Json) : Json :=
  if (frames.drop depth).isEmpty then value else .unreadable

/-- Close the innermost container. -/
def close (depth : Nat) (frames : List Frame) (token : Token) : Option Unfinished :=
  match frames, token with
  | .array done :: rest, .closeArray => complete rest (within depth frames (.array done.reverse))
  | .object (some done) none :: rest, .closeObject =>
    complete rest (within depth frames (.object done.reverse))
  | .object none none :: rest, .closeObject => complete rest .unreadable
  | _, _ => none

/-- Take a value, or open it if it is a container. -/
def openValue (frames : List Frame) (token : Token) : Option Unfinished :=
  match token with
  | .word value => complete frames value
  | .text spelling => complete frames ((spelling.text?.map string).getD .unreadable)
  | .openArray => some { frames := .array [] :: frames, expected := .valueOrClose }
  | .openObject => some { frames := .object (some []) none :: frames, expected := .keyOrClose }
  | _ => none

/-- Take a key. -/
def takeKey (frames : List Frame) (token : Token) : Option Unfinished :=
  match frames, token with
  | .object done none :: rest, .text key =>
    some { frames := .object done (some key) :: rest, expected := .colon }
  | _, _ => none

/-- Take one token. -/
def step (depth : Nat) (state : Unfinished) (token : Token) : Option Unfinished :=
  match state.expected with
  | .value => openValue state.frames token
  | .valueOrClose => close depth state.frames token <|> openValue state.frames token
  | .key => takeKey state.frames token
  | .keyOrClose => close depth state.frames token <|> takeKey state.frames token
  | .colon =>
    match token with
    | .colon => some { state with expected := .value }
    | _ => none
  | .commaOrClose =>
    match state.frames, token with
    | .array _ :: _, .comma => some { state with expected := .value }
    | .object .. :: _, .comma => some { state with expected := .key }
    | frames, token => close depth frames token
  | .nothing => none

end Unfinished

/-- The value of a text. A container is unreadable when it is inside of `depth` others. -/
def parse? (depth : Nat) (text : String) : Option Json :=
  ((Token.scan text).bind fun tokens => tokens.foldlM (Unfinished.step depth) {}).bind (·.result)

end PacketLayout.Json
