import PacketLayout.Access.Error

/-!
# Big-endian words

Integers stand in a packet with their highest byte first.

* `BigEndian.read` and `BigEndian.write` take a buffer, an offset and a width in bytes.
* `BigEndian.signExtend` reads the low bits of a word as a signed number.
-/

namespace PacketLayout.BigEndian

/-- The word that some bytes spell, of which the low 64 bits are kept. -/
def word (data : Bytes) : UInt64 :=
  data.foldl (fun word byte => word * 256 + byte.toUInt64) 0

/-- The low `width` bytes of a word; bytes above the eighth are zero. -/
def bytes : (width : Nat) → (word : UInt64) → Bytes
  | 0, _ => []
  | width + 1, word => bytes width (word / 256) ++ [word.toUInt8]

/-- The word in `width` bytes at `offset`. -/
def read (data : Bytes) (offset width : Nat) : Except ReadError UInt64 :=
  if offset + width ≤ data.length then
    .ok (word ((data.drop offset).take width))
  else
    .error (.outOfBounds offset (min (offset + width) maxWord) data.length)

/-- The buffer with the low `width` bytes of a word at `offset`. -/
def write (data : Bytes) (offset width : Nat) (word : UInt64) : Except WriteError Bytes :=
  if offset + width ≤ data.length then .ok (data.overwrite offset (bytes width word))
  else .error .outOfBounds

/-- The low `bits` bits of a word as a signed number in two's complement. -/
def signExtend (word : UInt64) (bits : Nat) : Except Fault Int64 :=
  if 64 < bits then .error .subOverflow
  else if bits = 0 then .error .shiftLeftOverflow
  else .ok (Int64.ofInt ((word.toNat : Int).bmod (1 <<< bits)))

@[simp] theorem length_bytes (width : Nat) (word : UInt64) : (bytes width word).length = width := by
  induction width generalizing word with
  | zero => rfl
  | succ width ih => simp [bytes, ih]

theorem read_eq_ok {data : Bytes} {offset width : Nat} (h : offset + width ≤ data.length) :
    read data offset width = .ok (word ((data.drop offset).take width)) :=
  if_pos h

theorem write_eq_ok {data : Bytes} {offset width : Nat} (word : UInt64)
    (h : offset + width ≤ data.length) :
    write data offset width word = .ok (data.overwrite offset (bytes width word)) :=
  if_pos h

end PacketLayout.BigEndian
