/-!
# JSON values

A JSON value as a tree. Objects keep their members in order. Whole numbers are kept exactly, of
any size; a number written in another way keeps its text, since no part of this library computes
with it.

A part of a text can be well written and still stand for no value, such as a string with half a
character in it. Such a part is kept as `Json.unreadable`: it does no harm where nobody looks at it,
and no reader takes it for anything.
-/

namespace PacketLayout

/-- A JSON value. -/
inductive Json where
  | null
  | bool (value : Bool)
  /-- a number without fraction and exponent -/
  | integer (value : Int)
  /-- a number with a fraction, an exponent or a sign before zero, as written -/
  | decimal (text : String)
  | string (value : String)
  | array (items : List Json)
  | object (members : List (String × Json))
  /-- what is well written and has no value -/
  | unreadable

namespace Json

/-- A natural number. -/
def ofNat (n : Nat) : Json := integer n

/-- A value, or null. -/
def ofOption : Option Json → Json
  | some value => value
  | none => null

/-- The value of a key among members. -/
def member? (key : String) (members : List (String × Json)) : Option Json :=
  (members.find? (·.1 = key)).map (·.2)

/-- The value of a key in an object. -/
def get? (key : String) : Json → Option Json
  | object members => member? key members
  | _ => none

/-- The text of a string. -/
def string? : Json → Option String
  | string value => some value
  | _ => none

/-- A truth value. -/
def bool? : Json → Option Bool
  | bool value => some value
  | _ => none

/-- The items of an array. -/
def array? : Json → Option (List Json)
  | array items => some items
  | _ => none

/-- A natural number up to `max`. -/
def natural? (max : Nat) : Json → Option Nat
  | integer (.ofNat n) => if n ≤ max then some n else none
  | _ => none

/-- A word that stands alone: a string, or an object with the word as its only key and no value. -/
def tag? : Json → Option String
  | string word => some word
  | object [(word, null)] => some word
  | _ => none

end Json

end PacketLayout
