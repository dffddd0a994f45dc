import Mathlib.Algebra.Ring.Nat
import Mathlib.Data.List.Induction
import PacketLayout.Wire.BigEndian

/-!
# Words in buffers

What a write into a buffer changes, and what is read afterwards.

* `Bytes.AgreeOutside` compares two buffers of one length outside a range.
* `Bytes.AgreeOutside.within` carries a write into a part of a buffer over to the buffer.
* `Bytes.wordAt` is the word at a place; `wordAt_overwrite` and `wordAt_of_agreeOutside` say what it
  is after a write at the same place, and somewhere else.
-/

namespace PacketLayout

namespace BigEndian

/-! ## Words and their bytes -/

theorem word_concat (data : Bytes) (byte : UInt8) :
    word (data ++ [byte]) = word data * 256 + byte.toUInt64 := by
  rw [word, List.foldl_append]
  rfl

/-- A word is as small as the bytes that spell it are few. -/
theorem toNat_word_lt (data : Bytes) : (word data).toNat < 256 ^ data.length := by
  induction data using List.reverseRecOn with
  | nil => decide
  | append_singleton data byte ih =>
    have hbyte := byte.toNat_lt
    rw [word_concat, UInt64.toNat_add, UInt64.toNat_mul, List.length_append, List.length_singleton,
      Nat.pow_succ, UInt8.toNat_toUInt64]
    refine Nat.lt_of_le_of_lt (Nat.mod_le _ _) ?_
    have hmod := Nat.mod_le ((word data).toNat * (256 : UInt64).toNat) (2 ^ 64)
    have h256 : (256 : UInt64).toNat = 256 := rfl
    rw [h256] at hmod ⊢
    omega

theorem toNat_word_concat {data : Bytes} (h : data.length < 8) (byte : UInt8) :
    (word (data ++ [byte])).toNat = 2 ^ 8 * (word data).toNat + byte.toNat := by
  have hword : (word data).toNat < 256 ^ 7 :=
    Nat.lt_of_lt_of_le (toNat_word_lt data) (Nat.pow_le_pow_right (by decide) (by omega))
  have hbyte := byte.toNat_lt
  have h256 : (256 : UInt64).toNat = 256 := rfl
  rw [word_concat, UInt64.toNat_add, UInt64.toNat_mul, UInt8.toNat_toUInt64, h256]
  omega

/-- The bytes of a word spell it, if there are enough of them. -/
theorem word_bytes {width : Nat} {value : UInt64} (h : value.toNat < 256 ^ width) :
    word (bytes width value) = value := by
  induction width generalizing value with
  | zero =>
    apply UInt64.toNat.inj
    have hzero : value.toNat = 0 := by omega
    rw [hzero]
    rfl
  | succ width ih =>
    have hdiv : (value / 256).toNat = value.toNat / 256 := by
      rw [UInt64.toNat_div]
      rfl
    have hlt : (value / 256).toNat < 256 ^ width := by
      rw [hdiv]
      rw [Nat.pow_succ] at h
      exact Nat.div_lt_of_lt_mul (by omega)
    rw [bytes, word_concat, ih hlt]
    apply UInt64.toNat.inj
    have hvalue := value.toNat_lt
    rw [UInt64.toNat_add, UInt64.toNat_mul, hdiv, UInt8.toNat_toUInt64, UInt64.toNat_toUInt8]
    have h256 : (256 : UInt64).toNat = 256 := rfl
    rw [h256]
    omega

end BigEndian

namespace Bytes

/-! ## Buffers that agree outside a range -/

/-- Buffers of one length that differ at most between `start` and `stop`. -/
structure AgreeOutside (start stop : Nat) (a b : Bytes) : Prop where
  length : b.length = a.length
  agree : ∀ i, i < start ∨ stop ≤ i → b[i]? = a[i]?

theorem AgreeOutside.mono {start stop start' stop' : Nat} {a b : Bytes}
    (h : AgreeOutside start stop a b) (hstart : start' ≤ start) (hstop : stop ≤ stop') :
    AgreeOutside start' stop' a b :=
  ⟨h.length, fun i hi => h.agree i (by omega)⟩

theorem getElem?_overwrite {data new : Bytes} {start : Nat} (h : start + new.length ≤ data.length)
    (i : Nat) :
    (data.overwrite start new)[i]? =
      if i < start ∨ start + new.length ≤ i then data[i]? else new[i - start]? := by
  have htake : (data.take start).length = start := by
    rw [List.length_take]
    omega
  have hfront : (data.take start ++ new).length = start + new.length := by
    rw [List.length_append, htake]
  rw [overwrite]
  -- in front of the new bytes, among them, and behind them
  rcases Nat.lt_or_ge i start with hlt | hge
  · rw [if_pos (.inl hlt), List.getElem?_append_left (by omega),
      List.getElem?_append_left (by omega), List.getElem?_take_of_lt hlt]
  · rcases Nat.lt_or_ge i (start + new.length) with hinside | hbehind
    · rw [if_neg (by omega), List.getElem?_append_left (by omega),
        List.getElem?_append_right (by omega), htake]
    · rw [if_pos (.inr hbehind), List.getElem?_append_right (by omega), hfront,
        List.getElem?_drop]
      congr 1
      omega

/-- A write changes nothing outside its range. -/
theorem agreeOutside_overwrite {data new : Bytes} {start stop : Nat}
    (h : start + new.length ≤ stop) (hstop : stop ≤ data.length) :
    AgreeOutside start stop data (data.overwrite start new) := by
  refine ⟨length_overwrite (by omega), fun i hi => ?_⟩
  rw [getElem?_overwrite (by omega), if_pos (by omega)]

/-- A write into a part of the buffer is a write into the buffer. -/
theorem AgreeOutside.overwrite_slice {data part new : Bytes} {start stop : Nat}
    (h : data.slice start stop = .ok part) (hnew : new.length = part.length) :
    AgreeOutside start stop data (data.overwrite start new) := by
  have hlen := length_of_slice h
  unfold slice at h
  split at h
  · rename_i hrange
    exact agreeOutside_overwrite (by omega) hrange.2
  · cases h

/-! ## Parts of a buffer -/

theorem slice_eq_ok_iff {data part : Bytes} {start stop : Nat} :
    data.slice start stop = .ok part ↔
      start ≤ stop ∧ stop ≤ data.length ∧ part = (data.drop start).take (stop - start) := by
  unfold slice
  split
  · rename_i h
    simp [h, eq_comm]
  · rename_i h
    simp only [reduceCtorEq, false_iff]
    exact fun h' => h ⟨h'.1, h'.2.1⟩

theorem getElem?_of_slice {data part : Bytes} {start stop i : Nat}
    (h : data.slice start stop = .ok part) (hi : i < part.length) :
    part[i]? = data[start + i]? := by
  have hlength := length_of_slice h
  obtain ⟨-, -, rfl⟩ := slice_eq_ok_iff.1 h
  rw [List.getElem?_take_of_lt (by omega), List.getElem?_drop]

/-- A write over the whole buffer leaves nothing of it. -/
theorem overwrite_whole {data new : Bytes} (h : new.length = data.length) :
    data.overwrite 0 new = new := by
  rw [overwrite, List.take_zero, List.nil_append, Nat.zero_add, h, List.drop_length,
    List.append_nil]

/-- Writing a part of a buffer back changes nothing. -/
theorem overwrite_slice {data part : Bytes} {start stop : Nat}
    (h : data.slice start stop = .ok part) : data.overwrite start part = data := by
  obtain ⟨hle, hstop, rfl⟩ := slice_eq_ok_iff.1 h
  exact overwrite_self data start (stop - start) (by omega)

/-- A write into a part of a part of a buffer is one into the buffer. -/
theorem overwrite_overwrite {data part new : Bytes} {start stop offset : Nat}
    (h : data.slice start stop = .ok part) (hinside : offset + new.length ≤ part.length) :
    data.overwrite start (part.overwrite offset new) = data.overwrite (start + offset) new := by
  obtain ⟨hle, hstop, -⟩ := slice_eq_ok_iff.1 h
  have hlength := length_of_slice h
  have hkeep := length_overwrite hinside
  refine List.ext_getElem? fun i => ?_
  rw [getElem?_overwrite (by omega : start + (part.overwrite offset new).length ≤ data.length),
    getElem?_overwrite (by omega : start + offset + new.length ≤ data.length), hkeep]
  by_cases hout : i < start ∨ start + part.length ≤ i
  · rw [if_pos hout, if_pos (by omega)]
  · have hplace : i - start < part.length := by omega
    rw [if_neg hout, getElem?_overwrite hinside, getElem?_of_slice h hplace]
    by_cases hbeside : i - start < offset ∨ offset + new.length ≤ i - start
    · rw [if_pos hbeside, if_pos (by omega), Nat.add_sub_of_le (by omega)]
    · rw [if_neg hbeside, if_neg (by omega), Nat.sub_sub]

/-- A part of a part of a buffer is a part of the buffer. -/
theorem slice_slice {data part inner : Bytes} {start stop low high : Nat}
    (h : data.slice start stop = .ok part) (h' : part.slice low high = .ok inner) :
    data.slice (start + low) (start + high) = .ok inner := by
  have hlength := length_of_slice h
  obtain ⟨hle, hstop, rfl⟩ := slice_eq_ok_iff.1 h
  obtain ⟨hle', hstop', rfl⟩ := slice_eq_ok_iff.1 h'
  refine slice_eq_ok_iff.2 ⟨by omega, by omega, ?_⟩
  rw [List.drop_take, List.take_take, List.drop_drop]
  congr 1
  omega

/-- The bytes that were written are a part of the buffer. -/
theorem slice_overwrite {data new : Bytes} {start : Nat} (h : start + new.length ≤ data.length) :
    (data.overwrite start new).slice start (start + new.length) = .ok new := by
  have htake : (data.take start).length = start := by
    rw [List.length_take]
    omega
  refine slice_eq_ok_iff.2 ⟨Nat.le_add_right _ _, by rw [length_overwrite h]; exact h, ?_⟩
  rw [Nat.add_sub_cancel_left, overwrite, List.append_assoc, List.drop_left' htake,
    List.take_left]

/-- Where a part was replaced by another one of its length, the other one is found. -/
theorem slice_overwrite_slice {data part new : Bytes} {start stop : Nat}
    (h : data.slice start stop = .ok part) (hnew : new.length = part.length) :
    (data.overwrite start new).slice start stop = .ok new := by
  obtain ⟨hordered, hinside, -⟩ := slice_eq_ok_iff.1 h
  have hlength := length_of_slice h
  have hstop : start + new.length = stop := by omega
  subst hstop
  exact slice_overwrite hinside

/-- What agrees with a part of a buffer outside a range agrees with the buffer outside the same
range when it is put in place of the part. -/
theorem AgreeOutside.within {data part new : Bytes} {start stop low high : Nat}
    (h : data.slice start stop = .ok part) (hagree : AgreeOutside low high part new) :
    AgreeOutside (start + low) (start + high) data (data.overwrite start new) := by
  have hlength := length_of_slice h
  have hnew := hagree.length
  obtain ⟨hle, hstop, -⟩ := slice_eq_ok_iff.1 h
  refine ⟨length_overwrite (by omega), fun i hi => ?_⟩
  rw [getElem?_overwrite (by omega)]
  by_cases hout : i < start ∨ start + new.length ≤ i
  · rw [if_pos hout]
  · rw [if_neg hout, hagree.agree (i - start) (by omega), getElem?_of_slice h (by omega),
      Nat.add_sub_of_le (by omega)]

/-! ## The word at a place -/

/-- The word in `width` bytes from `start` on. -/
def wordAt (data : Bytes) (start width : Nat) : UInt64 :=
  BigEndian.word ((data.drop start).take width)

theorem toNat_wordAt_lt {data : Bytes} (start width : Nat) :
    (data.wordAt start width).toNat < 256 ^ width := by
  refine Nat.lt_of_lt_of_le (BigEndian.toNat_word_lt _) (Nat.pow_le_pow_right (by decide) ?_)
  rw [List.length_take]
  exact Nat.min_le_left _ _

/-- A word that was written is read again. -/
theorem wordAt_overwrite {data : Bytes} {start width : Nat} {value : UInt64}
    (h : start + width ≤ data.length) (hvalue : value.toNat < 256 ^ width) :
    (data.overwrite start (BigEndian.bytes width value)).wordAt start width = value := by
  have hlen := BigEndian.length_bytes width value
  have htake : (data.take start).length = start := by
    rw [List.length_take]
    omega
  rw [wordAt, overwrite, List.append_assoc, List.drop_left' htake, List.take_left' hlen,
    BigEndian.word_bytes hvalue]

/-- A word outside the range of a write stays as it is. -/
theorem wordAt_of_agreeOutside {start stop place width : Nat} {a b : Bytes}
    (h : AgreeOutside start stop a b) (hapart : place + width ≤ start ∨ stop ≤ place) :
    b.wordAt place width = a.wordAt place width := by
  rw [wordAt, wordAt]
  congr 1
  refine List.ext_getElem? fun i => ?_
  rw [List.getElem?_take, List.getElem?_take]
  split
  · rw [List.getElem?_drop, List.getElem?_drop]
    exact h.agree _ (by omega)
  · rfl

/-- A word inside a part of a buffer is one of the buffer. -/
theorem wordAt_of_slice {data part : Bytes} {start stop place width : Nat}
    (h : data.slice start stop = .ok part) (hinside : place + width ≤ part.length) :
    part.wordAt place width = data.wordAt (start + place) width := by
  rw [wordAt, wordAt]
  congr 1
  refine List.ext_getElem? fun i => ?_
  rw [List.getElem?_take, List.getElem?_take]
  split
  · rw [List.getElem?_drop, List.getElem?_drop, getElem?_of_slice h (by omega), Nat.add_assoc]
  · rfl

end Bytes

end PacketLayout
