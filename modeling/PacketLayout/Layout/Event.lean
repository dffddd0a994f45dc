import PacketLayout.Plan.Basic

/-!
# Events of a resolution

Resolving a schema tells what it does as it goes: each field and alternate it has laid out, each
explicit position it could not check or had to overrule, and how it ended. An event has a level, a
message and named values.
-/

namespace PacketLayout

/-- What happened. -/
inductive Event where
  | entered (schema : String)
  | fieldResolved (field offset size : String)
  | alternateResolved (anchor alternate : String) (minimumSize : Nat)
  /-- an explicit position stands where the sequential one depends on the buffer -/
  | literalAccepted (field : String)
  /-- an explicit position was kept although it differs from the sequential one -/
  | positionOverridden (field : String) (expected actual : Nat)
  | schemaResolved (fields minimumSize warnings : Nat)
  | schemaRefused (diagnostics : Nat)
  | exited
  deriving DecidableEq, Repr

/-- A value attached to an event. -/
inductive EventValue where
  | number (value : Nat)
  | text (value : String)
  deriving DecidableEq, Repr

namespace Event

/-- The name of the span around a resolution. -/
def span : String := "resolve"

/-- How important an event is; the bounds of the span have no level. -/
def level? : Event → Option String
  | entered _ | exited => none
  | fieldResolved .. | alternateResolved .. | literalAccepted _ => some "TRACE"
  | positionOverridden .. => some "WARN"
  | schemaResolved .. | schemaRefused _ => some "DEBUG"

/-- The sentence of an event. -/
def message : Event → String
  | entered _ | exited => span
  | fieldResolved .. => "field resolved"
  | alternateResolved .. => "alternate resolved"
  | literalAccepted _ => "sequential position is dynamic, literal accepted"
  | positionOverridden .. => "explicit position overrides sequential position"
  | schemaResolved .. => "schema resolved"
  | schemaRefused _ => "schema failed to resolve"

/-- The values of an event, by name. -/
def values : Event → List (String × EventValue)
  | entered schema => [("schema", .text schema)]
  | fieldResolved field offset size =>
    [("field", .text field), ("offset", .text offset), ("size", .text size)]
  | alternateResolved anchor alternate minimumSize =>
    [("union", .text anchor), ("alternate", .text alternate),
      ("minimum_size", .number minimumSize)]
  | literalAccepted field => [("field", .text field)]
  | positionOverridden field expected actual =>
    [("field", .text field), ("expected", .number expected), ("actual", .number actual)]
  | schemaResolved fields minimumSize warnings =>
    [("fields", .number fields), ("minimum_size", .number minimumSize),
      ("warnings", .number warnings)]
  | schemaRefused diagnostics => [("diagnostics", .number diagnostics)]
  | exited => []

end Event

end PacketLayout
