import Mathlib.Data.Nat.Digits.Lemmas
import PacketLayout.Proofs.Words

/-!
# Bytes as digits

Bytes spell a number to the base 256, the highest digit first. Words, and what becomes of them in a
buffer, are described here by their numbers.

* `Bytes.number` is the number; `number_append` says what it is for one range behind another.
* `Bytes.between` is the number of a range of a buffer; `between_add` and `between_eq_div_mod` say
  what it has to do with the ranges that it is made of.
* `BigEndian.toNat_word` says that up to eight bytes are read as their number, and
  `BigEndian.number_bytes` that a word is written as its lowest digits.
-/

namespace PacketLayout

namespace Bytes

/-- The number that bytes spell to the base 256, highest digit first. -/
def number (data : Bytes) : Nat := Nat.ofDigits 256 (data.reverse.map (·.toNat))

theorem number_append (front back : Bytes) :
    (front ++ back).number = front.number * 256 ^ back.length + back.number := by
  rw [number, List.reverse_append, List.map_append, Nat.ofDigits_append, List.length_map,
    List.length_reverse, Nat.add_comm, Nat.mul_comm]
  rfl

theorem number_singleton (byte : UInt8) : number [byte] = byte.toNat :=
  Nat.ofDigits_singleton

/-- A number is as small as the bytes that spell it are few. -/
theorem number_lt (data : Bytes) : data.number < 256 ^ data.length := by
  have hdigits : ∀ digit ∈ data.reverse.map (·.toNat), digit < 256 := by
    intro digit hmem
    obtain ⟨byte, -, rfl⟩ := List.mem_map.1 hmem
    exact byte.toNat_lt
  have hlt := Nat.ofDigits_lt_base_pow_length (by decide : 1 < 256) hdigits
  rwa [List.length_map, List.length_reverse] at hlt

/-! ## Ranges -/

/-- The number that the bytes from `start` up to, but without, `stop` spell. -/
def between (data : Bytes) (start stop : Nat) : Nat :=
  number ((data.drop start).take (stop - start))

variable {data : Bytes} {start stop low high : Nat}

theorem length_range (hstop : stop ≤ data.length) :
    ((data.drop start).take (stop - start)).length = stop - start := by
  rw [List.length_take, List.length_drop]
  omega

theorem between_self (data : Bytes) (place : Nat) : data.between place place = 0 := by
  rw [between, Nat.sub_self]
  rfl

theorem between_lt (hstop : stop ≤ data.length) :
    data.between start stop < 256 ^ (stop - start) := by
  rw [← length_range hstop]
  exact number_lt _

/-- A range that is cut in two spells the number of its front part, moved up by the length of its
back part, and that of its back part. -/
theorem between_add (hlow : start ≤ low) (hhigh : low ≤ stop) (hstop : stop ≤ data.length) :
    data.between start stop =
      data.between start low * 256 ^ (stop - low) + data.between low stop := by
  have hlength : stop - start = low - start + (stop - low) := by omega
  have hplace : start + (low - start) = low := by omega
  rw [between, hlength, List.take_add, List.drop_drop, hplace, number_append, length_range hstop]
  rfl

/-- A range inside another one has digits of it. -/
theorem between_eq_div_mod (hlow : start ≤ low) (hordered : low ≤ high) (hhigh : high ≤ stop)
    (hstop : stop ≤ data.length) :
    data.between low high =
      data.between start stop / 256 ^ (stop - high) % 256 ^ (high - low) := by
  have hback : data.between high stop < 256 ^ (stop - high) := between_lt hstop
  have hinner : data.between low high < 256 ^ (high - low) := between_lt (by omega)
  rw [between_add (Nat.le_trans hlow hordered) hhigh hstop, Nat.mul_comm,
    Nat.mul_add_div (Nat.pow_pos (by decide)), Nat.div_eq_of_lt hback, Nat.add_zero,
    between_add hlow hordered (Nat.le_trans hhigh hstop), Nat.mul_add_mod_self_right,
    Nat.mod_eq_of_lt hinner]

end Bytes

namespace BigEndian

/-- No more bytes than a word has are read as the number that they spell. -/
theorem toNat_word {data : Bytes} (h : data.length ≤ 8) : (word data).toNat = data.number := by
  induction data using List.reverseRecOn with
  | nil => rfl
  | append_singleton data byte ih =>
    rw [List.length_append, List.length_singleton] at h
    rw [toNat_word_concat h, ih (by omega), Bytes.number_append, Bytes.number_singleton,
      List.length_singleton, Nat.pow_one, Nat.mul_comm]
    rfl

/-- The bytes of a word spell its lowest digits. -/
theorem number_bytes (width : Nat) (word : UInt64) :
    (bytes width word).number = word.toNat % 256 ^ width := by
  induction width generalizing word with
  | zero => rw [Nat.pow_zero, Nat.mod_one]; rfl
  | succ width ih =>
    have hdiv : (word / 256).toNat = word.toNat / 256 := by
      rw [UInt64.toNat_div]
      rfl
    have hsplit : word.toNat % 256 ^ (width + 1) =
        word.toNat % 256 + 256 * (word.toNat / 256 % 256 ^ width) := by
      rw [Nat.pow_succ', Nat.mod_mul]
    rw [bytes, Bytes.number_append, Bytes.number_singleton, ih, hdiv, List.length_singleton,
      Nat.pow_one, UInt64.toNat_toUInt8, hsplit, Nat.mul_comm, Nat.add_comm]

end BigEndian

namespace Bytes

variable {data : Bytes} {start width : Nat}

/-- A word that is written spells its lowest digits. -/
theorem between_overwrite (hinside : start + width ≤ data.length) (word : UInt64) :
    (data.overwrite start (BigEndian.bytes width word)).between start (start + width) =
      word.toNat % 256 ^ width := by
  have hlength := BigEndian.length_bytes width word
  have hslice : (data.overwrite start (BigEndian.bytes width word)).slice start
      (start + (BigEndian.bytes width word).length) = .ok (BigEndian.bytes width word) :=
    slice_overwrite (by rwa [hlength])
  obtain ⟨-, -, hbytes⟩ := slice_eq_ok_iff.1 hslice
  rw [hlength] at hbytes
  rw [between, ← hbytes, BigEndian.number_bytes]

end Bytes

end PacketLayout
