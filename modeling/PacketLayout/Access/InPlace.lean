import PacketLayout.Access.Edit

/-!
# Writing in place

A packet is written where it lies. A procedure on a buffer stores bytes one after the other; if a
later step fails, what was stored before stays. `View.apply` and `Plan.edit` give the buffer that an
edit leads to, and the procedures here are the steps that lead there.

* `InPlace` is a procedure on a buffer, `InPlace.exec` runs it.
* `InPlace.within` runs a procedure on a part of the buffer.
* `Plan.perform` is an edit of a whole buffer, below a path of alternates.
* Every slice, shift, difference and copy that could fault is checked when it is met.
-/

namespace PacketLayout

/-- A procedure on a buffer. Whether it ends well or fails, the bytes that it stored stay. -/
abbrev InPlace (ε α : Type) := ExceptT (Failure ε) (StateM Bytes) α

namespace InPlace

variable {ε ε' α : Type}

/-- How a procedure ends, and the buffer that it leaves. -/
def exec (procedure : InPlace ε α) (data : Bytes) : Except (Failure ε) α × Bytes :=
  procedure.run.run data

/-- Look at the buffer. -/
def ask (question : Bytes → Except (Failure ε) α) : InPlace ε α :=
  ExceptT.mk fun data => (question data, data)

/-- Run a procedure whose errors mean something else outside. -/
def mapError (f : ε → ε') (procedure : InPlace ε α) : InPlace ε' α :=
  ExceptT.mk fun data =>
    let (ending, left) := procedure.exec data
    (ending.mapError (·.map f), left)

/-- Run a procedure on a range of the buffer. What it changes there, it changes in the buffer. -/
def within (span : Span) (inner : InPlace ε α) : InPlace ε α :=
  ExceptT.mk fun data =>
    match data.slice span.start span.stop with
    | .ok part =>
      let (ending, left) := inner.exec part
      (ending, data.overwrite span.start left)
    | .error fault => (.error (.fault fault), data)

/-- Store a byte. -/
def storeByte (place : Nat) (byte : UInt8) : InPlace ε Unit :=
  ExceptT.mk fun data =>
    if place < data.length then (.ok (), data.set place byte)
    else (.error (.fault .sliceOutOfRange), data)

/-- Store the low bytes of a word in the first `width` places, the last place first. -/
def storeBytes : (width : Nat) → (word : UInt64) → InPlace ε Unit
  | 0, _ => pure ()
  | width + 1, word => do
    storeByte width word.toUInt8
    storeBytes width (word >>> 8)

/-- Whether there are `width` bytes from `start` on. -/
def demand (start width : Nat) (data : Bytes) : Write Unit :=
  if start + width ≤ data.length then .ok () else .error (.error .outOfBounds)

/-- Store the low bytes of a word from `start` on. -/
def storeWord (start width : Nat) (word : UInt64) : InPlace WriteError Unit := do
  ask (demand start width)
  within ⟨start, start + width⟩ (storeBytes width word)

end InPlace

/-- The word in `width` bytes from `start` on, read through a slice of the buffer. -/
def BigEndian.load (data : Bytes) (start width : Nat) : Read UInt64 :=
  if start + width ≤ data.length then do
    let part ← Failure.ofFault (data.slice start (start + width))
    pure (word part)
  else .error (.error (.outOfBounds start (min (start + width) maxWord) data.length))

/-- The least and the largest number with a sign of so many bits. -/
def signedBounds (bits : Nat) : Except Fault (Int64 × Int64) :=
  if 64 < bits then .error .subOverflow
  else if bits = 0 then .error .shiftRightOverflow
  else
    let distance := Int64.ofNat (64 - bits)
    .ok (Int64.minValue >>> distance, Int64.maxValue >>> distance)

/-- The word with the low `width` bits set, by a shift and a difference below 64 bits. -/
def checkedMask (width : Nat) : Except Fault UInt64 :=
  if 64 ≤ width then .ok (UInt64.ofNat maxWord)
  else do
    let power ← if width < 64 then .ok (1 <<< UInt64.ofNat width) else .error .shiftLeftOverflow
    if 1 ≤ power then .ok (power - 1) else .error .subOverflow

/-! ## Codecs -/

/-- The destination after a copy of all its bytes. -/
def Bytes.copyOver (value destination : Bytes) : Except Fault Bytes :=
  if value.length = destination.length then .ok value else .error .copyLengthMismatch

/-- The rule for codecs without special needs: whether a value is accepted, and the destination
afterwards. -/
def copyChecked (value destination : Bytes) : Except Fault (Bool × Bytes) :=
  if value.length ≠ destination.length then .ok (false, destination)
  else do
    let copied ← value.copyOver destination
    pure (true, copied)

/-- What codecs leave in the destination when they refuse a value. -/
abbrev Leftover := Composite → (value destination : Bytes) → Bytes

/-- A codec that refuses a value leaves the destination as it was. -/
def Leftover.Untouched (leftover : Leftover) : Prop :=
  ∀ type value destination, type.codec.copyInto value destination = none →
    leftover type value destination = destination

/-- Copy a value into the buffer. -/
def Composite.store (leftover : Leftover) (type : Composite) (name : String) (value : Bytes) :
    InPlace WriteError Unit :=
  ExceptT.mk fun destination =>
    match type.codec.copyInto value destination with
    | some copied => (.ok (), copied)
    | none => (.error (.error (.invalidValue name)), leftover type value destination)

/-! ## Edits -/

namespace Plan

open InPlace

/-- A leaf that may be written: its provider and its range. -/
def aim (plan : Plan) (name : String) : InPlace WriteError (Provider × Span) :=
  ask fun data => Failure.ofError (View.target ⟨plan, data⟩ name)

/-- Store a number in place of an integer, an enumeration or a bit-field. -/
def storeUnsigned (name : String) (span : Span) (value : UInt64) :
    Provider → InPlace WriteError Unit
  | .scalar kind | .enumeration _ kind =>
    if kind.maxRaw < value then throw (.error (.invalidValue name))
    else storeWord span.start kind.width value
  | .bitField slot _ => do
    let unit ← ask fun data => Failure.ofRead (BigEndian.load data span.start slot.unit)
    match ← ask fun _ => Failure.ofFault (slot.insert unit value) with
    | some unit => storeWord span.start slot.unit unit
    | none => throw (.error (.invalidValue name))
  | .composite _ | .rawSlice => throw (.error (.typeMismatch name))

/-- Store a number without a sign. -/
def performUnsigned (plan : Plan) (name : String) (value : UInt64) : InPlace WriteError Unit := do
  let (provider, span) ← plan.aim name
  storeUnsigned name span value provider

/-- Store a number that must not be negative. -/
def performNatural (plan : Plan) (name : String) (value : Int64) : InPlace WriteError Unit :=
  if value < 0 then throw (.error (.invalidValue name))
  else plan.performUnsigned name value.toUInt64

/-- Store a number with a sign. -/
def performSigned (plan : Plan) (name : String) (value : Int64) : InPlace WriteError Unit := do
  let (provider, span) ← plan.aim name
  match provider with
  | .scalar kind =>
    if kind.isSigned then
      let (least, largest) ← ask fun _ => Failure.ofFault (signedBounds kind.bits)
      if value < least ∨ largest < value then throw (.error (.invalidValue name))
      else storeWord span.start kind.width (value.toUInt64 &&& kind.maxRaw)
    else plan.performNatural name value
  | _ => plan.performNatural name value

/-- Store a number by its name. -/
def performVariant (plan : Plan) (name variant : String) : InPlace WriteError Unit := do
  let (provider, _) ← plan.aim name
  match provider with
  | .enumeration type _ | .bitField _ (some type) =>
    match type.valueOf? variant with
    | some value => plan.performUnsigned name value
    | none => throw (.error (.invalidValue name))
  | _ => throw (.error (.typeMismatch name))

/-- Store a composite through its codec. -/
def performBytes (leftover : Leftover) (plan : Plan) (name : String) (value : Bytes) :
    InPlace WriteError Unit := do
  let (provider, span) ← plan.aim name
  match provider with
  | .composite type => within span (type.store leftover name value)
  | _ => throw (.error (.typeMismatch name))

/-- An edit of the fields of a plan, in place. -/
def performHere (leftover : Leftover) (plan : Plan) : Edit → InPlace WriteError Unit
  | .unsigned field value => plan.performUnsigned field value
  | .signed field value => plan.performSigned field value
  | .variant field variant => plan.performVariant field variant
  | .bytes field data => plan.performBytes leftover field data

/-- An edit of a buffer below a path of alternates, in place. Each alternate is entered on the bytes
of its anchor, before anything is stored. -/
def perform (leftover : Leftover) (edit : Edit) :
    (plan : Plan) → List (String × String) → InPlace EditError Unit
  | plan, [] => do
    let _ ← ask fun data => (Failure.ofError (plan.view data)).mapError (·.map .unreachable)
    mapError .refused (plan.performHere leftover edit)
  | plan, (anchor, alternate) :: path => do
    let view ← ask fun data => (Failure.ofError (plan.view data)).mapError (·.map .unreachable)
    let (field, sub) ← ask fun _ =>
      (Failure.ofError (view.lookupAlternate anchor alternate)).mapError (·.map .unreachable)
    let span ← ask fun _ => (Failure.ofError (view.locate field)).mapError (·.map .unreachable)
    within span (sub.perform leftover edit path)

end Plan

end PacketLayout
