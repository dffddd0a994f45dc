import PacketLayout.Access.View

/-!
# Writing packets

An edit names a field and a new value of one of four kinds. It either gives a new buffer or fails;
a failed edit leaves no trace.

* `View.apply` performs an edit on the fields of a view.
* `Plan.edit` performs an edit on a whole buffer, below a path of alternates.
* A bit-field is written by reading its unit, changing its bits and writing the unit back, so its
  siblings keep theirs.
-/

namespace PacketLayout

/-- A new value for a field. -/
inductive Edit where
  | unsigned (field : String) (value : UInt64)
  | signed (field : String) (value : Int64)
  | variant (field : String) (variant : String)
  | bytes (field : String) (data : Bytes)
  deriving DecidableEq

/-- The field that an edit names. -/
def Edit.field : Edit → String
  | unsigned field _ | signed field _ | variant field _ | bytes field _ => field

namespace View

/-- A leaf that may be written: its provider and its range. -/
def target (view : View) (name : String) : Except WriteError (Provider × Span) := do
  let field ← (view.lookup name).mapError .ofRead
  match field.leaf? with
  | none => throw (.unionAccess ⟨field.name, .value⟩)
  | some leaf =>
    if leaf.writable then
      let span ← (view.locate field).mapError .ofRead
      pure (leaf.provider, span)
    else throw (.readOnly name)

/-- The buffer with a word at the start of a range. -/
def putWord (view : View) (span : Span) (width : Nat) (word : UInt64) : Write Bytes :=
  Failure.ofError (BigEndian.write view.data span.start width word)

/-- The buffer with a number in place of an integer, an enumeration or a bit-field. -/
def putUnsigned (view : View) (name : String) (span : Span) (value : UInt64) :
    Provider → Write Bytes
  | .scalar kind | .enumeration _ kind =>
    if kind.maxRaw < value then throw (.error (.invalidValue name))
    else view.putWord span kind.width value
  | .bitField slot _ => do
    let unit ← Failure.ofRead (Failure.ofError (view.word span slot.unit))
    match ← Failure.ofFault (slot.insert unit value) with
    | some unit => view.putWord span slot.unit unit
    | none => throw (.error (.invalidValue name))
  | .composite _ | .rawSlice => throw (.error (.typeMismatch name))

/-- Write a number without a sign. -/
def setUnsigned (view : View) (name : String) (value : UInt64) : Write Bytes := do
  let (provider, span) ← Failure.ofError (view.target name)
  view.putUnsigned name span value provider

/-- Write a number that must not be negative. -/
def setNatural (view : View) (name : String) (value : Int64) : Write Bytes :=
  if value.toInt < 0 then throw (.error (.invalidValue name))
  else view.setUnsigned name value.toUInt64

/-- Write a number with a sign. A field without a sign takes it unless it is negative. -/
def setSigned (view : View) (name : String) (value : Int64) : Write Bytes := do
  let (provider, span) ← Failure.ofError (view.target name)
  match provider with
  | .scalar kind =>
    if kind.isSigned then
      let bound : Int := (1 <<< (kind.bits - 1) : Nat)
      if value.toInt < -bound ∨ bound ≤ value.toInt then throw (.error (.invalidValue name))
      else view.putWord span kind.width (UInt64.ofInt (value.toInt % (1 <<< kind.bits : Nat)))
    else view.setNatural name value
  | _ => view.setNatural name value

/-- Write a number by its name. -/
def setVariant (view : View) (name variant : String) : Write Bytes := do
  let (provider, _) ← Failure.ofError (view.target name)
  match provider with
  | .enumeration type _ | .bitField _ (some type) =>
    match type.valueOf? variant with
    | some value => view.setUnsigned name value
    | none => throw (.error (.invalidValue name))
  | _ => throw (.error (.typeMismatch name))

/-- Write a composite through its codec. -/
def setBytes (view : View) (name : String) (data : Bytes) : Write Bytes := do
  let (provider, span) ← Failure.ofError (view.target name)
  match provider with
  | .composite type =>
    let destination ← Failure.ofFault (view.cut span)
    match type.codec.copyInto data destination with
    | some copied => pure (view.data.overwrite span.start copied)
    | none => throw (.error (.invalidValue name))
  | _ => throw (.error (.typeMismatch name))

/-- The buffer after an edit. -/
def apply (view : View) : Edit → Write Bytes
  | .unsigned field value => view.setUnsigned field value
  | .signed field value => view.setSigned field value
  | .variant field variant => view.setVariant field variant
  | .bytes field data => view.setBytes field data

end View

/-- An edit of a whole buffer fails on the way to its view or at the field. -/
inductive EditError where
  | unreachable (error : ReadError)
  | refused (error : WriteError)
  deriving DecidableEq, Repr

namespace Plan

/-- The view of a buffer at the end of a path, and where it starts in the buffer. -/
def descend (plan : Plan) (data : Bytes) (path : List (String × String)) : Read (Nat × View) := do
  let view ← Failure.ofError (plan.view data)
  view.follow path

/-- The buffer after an edit of the view at the end of a path. -/
def edit (plan : Plan) (data : Bytes) (path : List (String × String)) (edit : Edit) :
    Except (Failure EditError) Bytes := do
  let (start, view) ← (plan.descend data path).mapError (·.map .unreachable)
  let inner ← (view.apply edit).mapError (·.map .refused)
  pure (data.overwrite start inner)

end Plan

end PacketLayout
