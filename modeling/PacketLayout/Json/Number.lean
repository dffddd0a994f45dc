import PacketLayout.Json.Basic

/-!
# JSON numbers

The spelling of a number: a sign, a whole part without leading zeros, perhaps a fraction and an
exponent.
-/

namespace PacketLayout.Json

/-- A sequence of digits at the front, and what follows it. -/
def takeDigits (chars : List Char) : List Char × List Char := chars.span Char.isDigit

/-- Whether digits are the whole part of a number: no zero stands in front of another digit. -/
def isWholePart : List Char → Bool
  | [] => false
  | ['0'] => true
  | first :: _ => first ≠ '0'

/-- The rest after a fraction, if one is there; a fraction has a digit. -/
def skipFraction : List Char → Option (List Char)
  | '.' :: rest =>
    let (digits, rest) := takeDigits rest
    if digits.isEmpty then none else some rest
  | rest => some rest

/-- The rest after an exponent, if one is there; an exponent has a digit. -/
def skipExponent : List Char → Option (List Char)
  | first :: rest =>
    if first = 'e' ∨ first = 'E' then
      let unsigned :=
        match rest with
        | '+' :: rest => rest
        | '-' :: rest => rest
        | rest => rest
      let (digits, rest) := takeDigits unsigned
      if digits.isEmpty then none else some rest
    else some (first :: rest)
  | [] => some []

/-- The number that a text spells. -/
def ofNumber? (chars : List Char) : Option Json :=
  let (isNegative, unsigned) :=
    match chars with
    | '-' :: rest => (true, rest)
    | rest => (false, rest)
  let (whole, tail) := takeDigits unsigned
  if isWholePart whole then
    match tail with
    | [] =>
      let n := Nat.ofDigitChars 10 whole 0
      if isNegative then
        if n = 0 then some (.decimal (String.ofList chars)) else some (.integer (-n))
      else some (.integer n)
    | tail =>
      match (skipFraction tail).bind skipExponent with
      | some [] => some (.decimal (String.ofList chars))
      | _ => none
  else none

end PacketLayout.Json
