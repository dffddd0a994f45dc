import PacketLayout.Wire.Bytes

/-!
# Errors of reading and writing

What can go wrong when a packet is read or written through a plan. Reading and writing have their
own errors; a read error met on the way to a write keeps its text.
-/

namespace PacketLayout

/-- What a union anchor was asked for. -/
inductive UnionFacet where
  | value
  | accessibility
  deriving DecidableEq, Repr

/-- The facet in a sentence. -/
def UnionFacet.text : UnionFacet → String
  | .value => "value"
  | .accessibility => "accessibility"

/-- A union anchor was used as if it were a leaf. -/
structure UnionAccess where
  field : String
  facet : UnionFacet
  deriving DecidableEq, Repr

/-- The sentence for a union anchor used as a leaf. -/
def UnionAccess.message (access : UnionAccess) : String :=
  s!"union `{access.field}` has no directly readable {access.facet.text}"

/-- Reading failed. -/
inductive ReadError where
  /-- the packet is shorter than the plan demands -/
  | packetTooShort (expected actual : Nat)
  /-- a range reaches past the end of a buffer -/
  | outOfBounds (start stop length : Nat)
  | unknownField (name : String)
  | unknownAlternate (anchor alternate : String)
  | unionAccess (access : UnionAccess)
  /-- a composite refused the bytes it should be built from -/
  | composite (name : String)
  deriving DecidableEq, Repr

/-- The sentence for a read error. -/
def ReadError.message : ReadError → String
  | .packetTooShort expected actual =>
    s!"packet too short: expected at least {expected} bytes, got {actual}"
  | .outOfBounds start stop length =>
    s!"range {start}..{stop} is outside a buffer of {length} bytes"
  | .unknownField name => s!"no field named `{name}`"
  | .unknownAlternate anchor alternate => s!"union `{anchor}` has no alternate `{alternate}`"
  | .unionAccess access => access.message
  | .composite name => s!"composite `{name}` rejected its byte range"

/-- Writing failed. -/
inductive WriteError where
  /-- the buffer is too short for the value -/
  | outOfBounds
  | invalidValue (field : String)
  | readOnly (field : String)
  | missingField (field : String)
  /-- the field does not hold this kind of value -/
  | typeMismatch (field : String)
  | unionAccess (access : UnionAccess)
  /-- locating or reading the field failed before the write -/
  | read (error : ReadError)
  deriving DecidableEq, Repr

namespace WriteError

/-- A read error as the reason why a write failed. -/
def ofRead : ReadError → WriteError
  | .unknownField name => .missingField name
  | .unionAccess access => .unionAccess access
  | error => .read error

/-- The sentence for a write error. -/
def message : WriteError → String
  | .outOfBounds => "write outside the buffer"
  | .invalidValue field => s!"value does not fit field `{field}`"
  | .readOnly field => s!"field `{field}` is read-only"
  | .missingField field => s!"no field named `{field}`"
  | .typeMismatch field => s!"field `{field}` cannot store this kind of value"
  | .unionAccess access => access.message
  | .read error => error.message

end WriteError

/-- An access ends without a result: by a fault of the machine, or with an error. -/
inductive Failure (ε : Type) where
  | fault (fault : Fault)
  | error (error : ε)
  deriving DecidableEq, Repr

/-- The result of reading. -/
abbrev Read (α : Type) := Except (Failure ReadError) α

/-- The result of writing. -/
abbrev Write (α : Type) := Except (Failure WriteError) α

namespace Failure

variable {ε ε' α : Type}

/-- Change the error and keep a fault. -/
def map (f : ε → ε') : Failure ε → Failure ε'
  | fault it => fault it
  | error it => error (f it)

/-- An operation that can only fault. -/
def ofFault : Except Fault α → Except (Failure ε) α
  | .ok a => .ok a
  | .error it => .error (fault it)

/-- An operation that cannot fault. -/
def ofError : Except ε α → Except (Failure ε) α
  | .ok a => .ok a
  | .error it => .error (error it)

/-- A step of reading on the way to a write. -/
def ofRead : Read α → Write α
  | .ok a => .ok a
  | .error it => .error (it.map WriteError.ofRead)

@[simp] theorem ofFault_ok (a : α) : (ofFault (.ok a) : Except (Failure ε) α) = .ok a := rfl

@[simp] theorem ofError_ok (a : α) : (ofError (.ok a) : Except (Failure ε) α) = .ok a := rfl

@[simp] theorem ofRead_ok (a : α) : ofRead (.ok a) = .ok a := rfl

end Failure

end PacketLayout
