import PacketLayout.Wire.BigEndian
import PacketLayout.Plan.Basic
import PacketLayout.Access.Value

/-!
# Reading packets

A view is a plan together with a buffer that is long enough for it. Each field can be located, cut
out and read; a union anchor is entered through one of its alternates, which gives a view of the
anchor's bytes.

* `View.locate` evaluates offset and size of a field and keeps the range inside the buffer.
* `View.get` reads a value through the provider of its field.
* `View.follow` enters anchors along a path and tells where the last view starts.
-/

namespace PacketLayout

/-- A plan and a buffer to read through it. -/
structure View where
  plan : Plan
  data : Bytes

/-- View a buffer that is not shorter than the plan demands. -/
def Plan.view (plan : Plan) (data : Bytes) : Except ReadError View :=
  if plan.minimumSize ≤ data.length then .ok ⟨plan, data⟩
  else .error (.packetTooShort plan.minimumSize data.length)

/-- A range of bytes inside a buffer, `stop` not included. -/
structure Span where
  start : Nat
  stop : Nat
  deriving DecidableEq, Repr

namespace View

/-- The field of a name. -/
def lookup (view : View) (name : String) : Except ReadError PlannedField :=
  match view.plan.field? name with
  | some field => .ok field
  | none => .error (.unknownField name)

/-- The range of a field of the plan. -/
def locate (view : View) (field : PlannedField) : Except ReadError Span := do
  let start ← field.offset.eval view.data
  let length ← field.sizeExpr.eval view.data
  if start + length ≤ view.data.length then pure ⟨start, start + length⟩
  else throw (.outOfBounds start (min (start + length) maxWord) view.data.length)

/-- The range of a field; for a bit-field that of its unit. -/
def range (view : View) (name : String) : Except ReadError Span := do
  view.locate (← view.lookup name)

/-- The bytes of a range of the buffer. -/
def cut (view : View) (span : Span) : Except Fault Bytes :=
  view.data.slice span.start span.stop

/-- The bytes of a field. -/
def raw (view : View) (name : String) : Read Bytes := do
  let span ← Failure.ofError (view.range name)
  Failure.ofFault (view.cut span)

/-- The big-endian word of `width` bytes at the start of a range. -/
def word (view : View) (span : Span) (width : Nat) : Except ReadError UInt64 :=
  BigEndian.read view.data span.start width

/-- Read the value at a range. -/
def decode (view : View) (span : Span) : Provider → Read Value
  | .scalar kind => do
    let raw ← Failure.ofError (view.word span kind.width)
    if kind.isSigned then
      let value ← Failure.ofFault (BigEndian.signExtend raw kind.bits)
      pure (.signed value)
    else pure (.unsigned raw)
  | .enumeration type backing => do
    let raw ← Failure.ofError (view.word span backing.width)
    pure (.ofEnumeration type raw)
  | .bitField slot type => do
    let unit ← Failure.ofError (view.word span slot.unit)
    let raw ← Failure.ofFault (slot.extract unit)
    match type with
    | some type => pure (.ofEnumeration type raw)
    | none => pure (.unsigned raw)
  | .composite type => do
    let data ← Failure.ofFault (view.cut span)
    match type.codec.construct data with
    | some data => pure (.composite type data)
    | none => throw (.error (.composite type.name))
  | .rawSlice => do
    let data ← Failure.ofFault (view.cut span)
    pure (.bytes data)

/-- The value of a leaf. -/
def get (view : View) (name : String) : Read Value := do
  let field ← Failure.ofError (view.lookup name)
  let provider ← Failure.ofError (field.provider.mapError .unionAccess)
  let span ← Failure.ofError (view.locate field)
  view.decode span provider

/-- The sum of all sizes in this buffer. -/
def totalSize (view : View) : Except ReadError Nat := view.plan.totalSize.eval view.data

/-! ## Alternates -/

/-- An anchor of the plan and the plan of one of its alternates. -/
def lookupAlternate (view : View) (anchor alternate : String) :
    Except ReadError (PlannedField × Plan) := do
  let field ← view.lookup anchor
  match field.alternate? alternate with
  | some plan => pure (field, plan)
  | none => throw (.unknownAlternate anchor alternate)

/-- The bytes of an anchor, viewed through one of its alternates, and where they start. -/
def alternate (view : View) (anchor alternate : String) : Read (Nat × View) := do
  let (field, plan) ← Failure.ofError (view.lookupAlternate anchor alternate)
  let span ← Failure.ofError (view.locate field)
  let data ← Failure.ofFault (view.cut span)
  let inner ← Failure.ofError (plan.view data)
  pure (span.start, inner)

/-- The view at the end of a path of anchors and alternates, and where its bytes start in the
buffer. -/
def follow (view : View) : List (String × String) → Read (Nat × View)
  | [] => pure (0, view)
  | (anchor, alternate) :: path => do
    let (start, inner) ← view.alternate anchor alternate
    let (offset, last) ← inner.follow path
    pure (start + offset, last)

/-! ## Summaries -/

/-- A leaf in a summary; what cannot be read is a question mark. -/
def itemText (view : View) (field : PlannedField) : Except Fault String :=
  match view.get field.name with
  | .ok value => .ok (field.name ++ ": " ++ value.text)
  | .error (.error _) => .ok (field.name ++ ": ?")
  | .error (.fault fault) => .error fault

/-- All leaves with their values. -/
def summary (view : View) : Except Fault String := do
  let items ← (view.plan.fields.filter (!·.isUnion)).mapM view.itemText
  pure ("; ".intercalate items)

end View

end PacketLayout
