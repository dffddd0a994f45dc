import PacketLayout.Schema.Enumeration
import PacketLayout.Schema.Capability

/-!
# Schemas

A schema describes a packet as fields in wire order. A field has a name, a type and a few wishes
about its place and size; a union anchor also has alternates, each a field list of its own over
the same bytes.

* `Declaration` holds what a field says about itself.
* `Field` is a declaration, with alternates when the field is a union anchor.
* `Schema` is a named list of fields.
-/

namespace PacketLayout

/-- The type a field is declared with. -/
inductive FieldType where
  | integer (kind : IntKind)
  | enumeration (type : Enumeration)
  | composite (type : Composite)
  /-- bytes without further meaning, as many as there are -/
  | bytes
  /-- a fixed number of bytes -/
  | byteArray (length : Nat)

namespace FieldType

/-- The size that the type has by itself. -/
def intrinsicSize : FieldType → Option Nat
  | integer kind => some kind.width
  | enumeration type => some type.backing.width
  | composite type => type.codec.staticSize
  | bytes => none
  | byteArray length => some length

/-- The integer behind the values of the type. -/
def kind? : FieldType → Option IntKind
  | integer kind => some kind
  | enumeration type => some type.backing
  | composite _ | bytes | byteArray _ => none

/-- Whether the type is a plain range of bytes. -/
def isByteRange : FieldType → Bool
  | bytes | byteArray _ => true
  | integer _ | enumeration _ | composite _ => false

/-- The type in a message. -/
def name : FieldType → String
  | integer kind => kind.name
  | enumeration type => type.name
  | composite type => type.name
  | bytes => "bytes"
  | byteArray length => s!"[u8; {length}]"

end FieldType

/-- Who may use the accessor of a field. -/
inductive Accessibility where
  | everyone
  /-- code of the same library -/
  | internal
  | nobody
  deriving DecidableEq, Repr

namespace Accessibility

/-- The word for an accessibility in definitions and plans. -/
def name : Accessibility → String
  | everyone => "public"
  | internal => "crate"
  | nobody => "private"

/-- The accessibility of a word. -/
def ofName? (word : String) : Option Accessibility :=
  [everyone, internal, nobody].find? (·.name = word)

theorem ofName?_name (accessibility : Accessibility) :
    ofName? accessibility.name = some accessibility := by
  cases accessibility <;> decide

end Accessibility

/-- How a field's offset is determined. -/
inductive Position where
  /-- right after the field before -/
  | sequential
  /-- at a fixed offset -/
  | literal (offset : Nat)
  /-- by a function of the buffer -/
  | computed (function : PositionFunction)

/-- Whether the field follows the one before. -/
def Position.isSequential : Position → Bool
  | sequential => true
  | literal _ | computed _ => false

/-- What a field says about itself. -/
structure Declaration where
  name : String
  type : FieldType
  docLines : List String := []
  /-- who may use the accessor; everyone unless said otherwise, and not for a union anchor to say -/
  accessibility : Option Accessibility := none
  /-- refuses every write, also in a plan that accepts writes -/
  readOnly : Bool := false
  position : Position := .sequential
  /-- explicit number of bytes -/
  size : Option Nat := none
  /-- number of bytes as a function of the buffer -/
  sizeFunction : Option SizeFunction := none
  /-- number of bits, when the field shares a unit with its siblings -/
  bits : Option Nat := none
  /-- asks for the rest of the buffer -/
  remainder : Bool := false
  /-- a narrower integer behind an enumeration -/
  enumBacking : Option IntKind := none

/-- The integer behind the values of a field: for an enumeration the one asked for, if any. -/
def Declaration.kind? (decl : Declaration) : Option IntKind :=
  match decl.type with
  | .enumeration type => some (decl.enumBacking.getD type.backing)
  | type => type.kind?

mutual

/-- A field of a packet. -/
inductive Field where
  | plain (decl : Declaration)
  /-- a range of bytes with several interpretations -/
  | anchor (decl : Declaration) (alternates : List Alternate)

/-- One interpretation of the bytes of a union anchor, laid out from the anchor's offset. -/
inductive Alternate where
  | mk (name : String) (fields : List Field)

end

namespace Field

/-- What the field says about itself. -/
def decl : Field → Declaration
  | plain decl => decl
  | anchor decl _ => decl

/-- The alternates of a union anchor. -/
def alternates? : Field → Option (List Alternate)
  | plain _ => none
  | anchor _ alternates => some alternates

end Field

namespace Alternate

def name : Alternate → String
  | mk name _ => name

def fields : Alternate → List Field
  | mk _ fields => fields

end Alternate

/-- A named list of fields in wire order. -/
structure Schema where
  name : String
  /-- refuses every write -/
  readOnly : Bool := false
  fields : List Field

/-- What happens to an explicit position that disagrees with the fields before it. -/
inductive MismatchPolicy where
  /-- the schema is refused -/
  | error
  /-- the position is kept and the mismatch recorded -/
  | warn
  deriving DecidableEq, Repr

namespace MismatchPolicy

/-- The word for a policy in definitions. -/
def name : MismatchPolicy → String
  | error => "error"
  | warn => "warn"

/-- The policy of a word. -/
def ofName? (word : String) : Option MismatchPolicy :=
  [error, warn].find? (·.name = word)

theorem ofName?_name (policy : MismatchPolicy) : ofName? policy.name = some policy := by
  cases policy <;> decide

end MismatchPolicy

end PacketLayout
