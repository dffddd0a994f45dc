import PacketLayout.Wire.BitSlot
import PacketLayout.Schema.Diagnostic
import PacketLayout.Layout.Expr
import PacketLayout.Schema.Basic

/-!
# Sizes

How many bytes a field spans. The size of one field is found from its declaration alone, in this
order: bits, a size function, an explicit size, a wish for the rest of the buffer, the type.
Whether a field that takes the rest of the buffer is the last one is not decided here.
-/

namespace PacketLayout

/-- Where the size of a field comes from. -/
inductive Size where
  /-- length of a fixed byte array -/
  | constant (size : Nat)
  /-- width of an integer, or the static size of a composite -/
  | intrinsic (size : Nat)
  /-- given by the field -/
  | external (size : Nat)
  /-- computed from the buffer -/
  | computed (function : SizeFunction)
  /-- bits inside a unit shared with sibling fields -/
  | bitWidth (width : Nat)
  /-- everything from the field's offset on -/
  | remainder

namespace Size

/-- The number of bytes, when no buffer is needed to know it. Bit-fields have none of their own:
their unit counts for all of them together. -/
def fixed : Size → Option Nat
  | constant size | intrinsic size | external size => some size
  | computed _ | bitWidth _ | remainder => none

/-- Whether the size depends on the buffer. -/
def isDynamic : Size → Bool
  | computed _ | remainder => true
  | constant _ | intrinsic _ | external _ | bitWidth _ => false

/-- The bits of a bit-field. -/
def bitWidth? : Size → Option Nat
  | bitWidth width => some width
  | constant _ | intrinsic _ | external _ | computed _ | remainder => none

/-- Whether the field takes the rest of the buffer. -/
def isRemainder : Size → Bool
  | remainder => true
  | constant _ | intrinsic _ | external _ | computed _ | bitWidth _ => false

/-- The size of a field as an expression, given its name, its offset and the slot of a bit-field. A
bit-field spans its unit. -/
def expr (size : Size) (field : String) (offset : Expr) (slot : Option BitSlot) : Expr :=
  match size with
  | constant size | intrinsic size | external size => .literal size
  | computed function => .ofTerm (.sizeOf field function)
  | bitWidth _ => .literal ((slot.map (·.unit)).getD 0)
  | remainder => .ofTerm (.remaining offset)

/-- The size that a declaration asks for. -/
def resolve (decl : Declaration) (isAnchor : Bool) : Except Defect Size :=
  let explicit := decl.bits.isSome || decl.sizeFunction.isSome || decl.size.isSome
  if decl.remainder && explicit then .error (.layout .conflictingRemainder)
  else
    match decl.bits, decl.sizeFunction, decl.size with
    | some width, _, _ => ofBits decl isAnchor width
    | none, some function, _ => .ok (computed function)
    | none, none, some size => .ok (external size)
    | none, none, none => if decl.remainder then ofRemainder decl.type else ofType decl
where
  /-- Bits need an integer that has as many. -/
  ofBits (decl : Declaration) (isAnchor : Bool) (width : Nat) : Except Defect Size :=
    if isAnchor then .error (.field .unionBitField)
    else
      match decl.kind? with
      | none => .error (.field (.bitFieldType decl.type.name))
      | some kind =>
        if width = 0 ∨ kind.bits < width then .error (.field (.invalidBitWidth width kind.bits))
        else .ok (bitWidth width)
  /-- Only plain bytes can take what is left. -/
  ofRemainder : FieldType → Except Defect Size
    | .bytes => .ok remainder
    | type => .error (.field (.remainderType type.name))
  /-- Without a word about size the type decides. -/
  ofType (decl : Declaration) : Except Defect Size :=
    match decl.type with
    | .byteArray length => .ok (constant length)
    | .bytes => .ok remainder
    | .integer kind => .ok (intrinsic kind.width)
    | .enumeration type => .ok (intrinsic (decl.enumBacking.getD type.backing).width)
    | .composite type =>
      match type.codec.staticSize with
      | some size => .ok (intrinsic size)
      | none => .error (.field (.ambiguousSize type.name))

end Size

end PacketLayout
