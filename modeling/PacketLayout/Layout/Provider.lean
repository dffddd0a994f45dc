import PacketLayout.Layout.Size

/-!
# Value providers

A provider says how the bytes of a leaf field are read and written. It follows from the declared
type and the size of the field; an integer needs exactly the bytes of its width.
-/

namespace PacketLayout

/-- How a leaf field is read and written. -/
inductive Provider where
  /-- a big-endian integer -/
  | scalar (kind : IntKind)
  /-- an integer whose values have names -/
  | enumeration (type : Enumeration) (backing : IntKind)
  /-- bits of a shared unit, perhaps with names for their values -/
  | bitField (slot : BitSlot) (type : Option Enumeration)
  /-- a host type built over the range of the field -/
  | composite (type : Composite)
  /-- the range itself -/
  | rawSlice

namespace Provider

/-- Whether anything can be written through the provider. -/
def isWritable : Provider → Bool
  | rawSlice => false
  | scalar _ | enumeration .. | bitField .. | composite _ => true

/-- The slot of a bit-field. -/
def slot? : Provider → Option BitSlot
  | bitField slot _ => some slot
  | scalar _ | enumeration .. | composite _ | rawSlice => none

/-- Another integer may be asked for only where there is an enumeration, and only a narrower one. -/
def checkBacking (decl : Declaration) : Except FieldDefect Unit :=
  match decl.enumBacking, decl.type with
  | none, _ => .ok ()
  | some requested, .enumeration type =>
    if type.backing.width < requested.width then
      .error (.enumBackingTooWide requested.name type.backing.name)
    else .ok ()
  | some _, type => .error (.enumBackingOnNonEnum type.name)

/-- An integer of `width` bytes needs just that size, known in advance. -/
def checkWidth (typeName : String) (width : Nat) (size : Size) : Except FieldDefect Unit :=
  if size.isDynamic then .error (.dynamicScalar typeName)
  else
    match size.fixed with
    | some actual =>
      if actual = width then .ok () else .error (.scalarSizeMismatch typeName width actual)
    | none => .ok ()

/-- The provider of a field, given its size and, for a bit-field, its slot. -/
def resolve (decl : Declaration) (size : Size) (slot : Option BitSlot) :
    Except FieldDefect Provider := do
  checkBacking decl
  match size.bitWidth? with
  | some _ =>
    match slot with
    | some slot =>
      match decl.type with
      | .enumeration type => pure (bitField slot (some type))
      | _ => pure (bitField slot none)
    | none => throw (.bitFieldType decl.type.name)
  | none =>
    match decl.type with
    | .integer kind =>
      checkWidth kind.name kind.width size
      pure (scalar kind)
    | .enumeration type =>
      let backing := decl.enumBacking.getD type.backing
      checkWidth type.name backing.width size
      pure (enumeration type backing)
    | .composite type => pure (composite type)
    | .bytes | .byteArray _ => pure rawSlice

end Provider

end PacketLayout
