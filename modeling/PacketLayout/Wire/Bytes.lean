/-!
# Buffers and the 64-bit limit

A packet is a list of bytes. Two partial operations come with it: cutting out a range, and
putting bytes back over a range of the same length.

* `wordLimit` is the number that no offset, size or sum of sizes may reach.
* `Fault` names the ways in which a machine operation has no result. Operations that can meet one
  say so in their type, so "this never faults" is a statement about them.
-/

namespace PacketLayout

/-- Offsets and sizes are numbers below this limit. -/
abbrev wordLimit : Nat := UInt64.size

/-- The largest offset or size. -/
abbrev maxWord : Nat := wordLimit - 1

/-- A machine operation without a result. -/
inductive Fault where
  /-- a sum that is no 64-bit number -/
  | addOverflow
  /-- a difference below zero -/
  | subOverflow
  /-- a product that is no 64-bit number -/
  | mulOverflow
  /-- a left shift by the width of the word or more -/
  | shiftLeftOverflow
  /-- a right shift by the width of the word or more -/
  | shiftRightOverflow
  /-- a range that is reversed or passes the end of the buffer -/
  | sliceOutOfRange
  /-- a copy between slices of different lengths -/
  | copyLengthMismatch
  deriving DecidableEq, Repr

/-- What is reported for a fault. -/
def Fault.message : Fault → String
  | .addOverflow => "attempt to add with overflow"
  | .subOverflow => "attempt to subtract with overflow"
  | .mulOverflow => "attempt to multiply with overflow"
  | .shiftLeftOverflow => "attempt to shift left with overflow"
  | .shiftRightOverflow => "attempt to shift right with overflow"
  | .sliceOutOfRange => "range is outside the buffer"
  | .copyLengthMismatch => "source and destination of a copy differ in length"

/-- A buffer, first byte first. -/
abbrev Bytes := List UInt8

namespace Bytes

/-- The bytes of `data` from `start` up to, but without, `stop`. -/
def slice (data : Bytes) (start stop : Nat) : Except Fault Bytes :=
  if start ≤ stop ∧ stop ≤ data.length then
    .ok ((data.drop start).take (stop - start))
  else
    .error .sliceOutOfRange

/-- `data` with `new` written over the bytes from `start` on. -/
def overwrite (data : Bytes) (start : Nat) (new : Bytes) : Bytes :=
  data.take start ++ new ++ data.drop (start + new.length)

theorem slice_eq_ok {data : Bytes} {start stop : Nat} (h : start ≤ stop)
    (h' : stop ≤ data.length) :
    data.slice start stop = .ok ((data.drop start).take (stop - start)) := by
  simp [slice, h, h']

/-- A slice has the length of its range. -/
theorem length_of_slice {data part : Bytes} {start stop : Nat}
    (h : data.slice start stop = .ok part) : part.length = stop - start := by
  unfold slice at h
  split at h
  · obtain rfl := Except.ok.inj h
    simp only [List.length_take, List.length_drop]
    omega
  · contradiction

/-- Writing inside a buffer keeps its length. -/
theorem length_overwrite {data new : Bytes} {start : Nat}
    (h : start + new.length ≤ data.length) :
    (data.overwrite start new).length = data.length := by
  simp only [overwrite, List.length_append, List.length_take, List.length_drop]
  omega

/-- Writing back what a range holds changes nothing. -/
theorem overwrite_self (data : Bytes) (start width : Nat) (h : start + width ≤ data.length) :
    data.overwrite start ((data.drop start).take width) = data := by
  have hlen : ((data.drop start).take width).length = width := by
    simp only [List.length_take, List.length_drop]
    omega
  rw [overwrite, hlen, ← List.drop_drop, List.append_assoc, List.take_append_drop,
    List.take_append_drop]

end Bytes

end PacketLayout
