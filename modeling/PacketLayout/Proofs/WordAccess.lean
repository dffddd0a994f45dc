import PacketLayout.Proofs.InPlace
import PacketLayout.Proofs.Positional

/-!
# Loading and storing words

A word is loaded from its highest byte on and stored from its lowest byte on, in any number of
bytes. Both ways agree on what the bytes mean: the digits of a number to the base 256.

* `BigEndian.load_eq_ok_iff` and `InPlace.exec_storeWord_eq_ok_iff` say when a word is loaded or
  stored, and with what result.
* `BigEndian.Stores` and `BigEndian.Loads` are the laws of a place in a buffer.
* `BigEndian.stores_and_loads` is the statement about all places.
-/

namespace PacketLayout

open BigEndian (bytes word load)

/-! ## Loading -/

theorem BigEndian.load_eq_ok_iff {data : Bytes} {start width : Nat} {value : UInt64} :
    load data start width = .ok value ↔
      start + width ≤ data.length ∧ data.wordAt start width = value := by
  rw [load_eq]
  by_cases hinside : start + width ≤ data.length
  · rw [read_eq_ok hinside, Failure.ofError_ok, Except.ok.injEq]
    exact (and_iff_right hinside).symm
  · rw [read, if_neg hinside]
    exact iff_of_false nofun fun h => hinside h.1

/-- The word of no more bytes than a word has consists of these bytes. -/
theorem BigEndian.bytes_word {data : Bytes} (h : data.length ≤ 8) :
    bytes data.length (word data) = data := by
  induction data using List.reverseRecOn with
  | nil => rfl
  | append_singleton data byte ih =>
    rw [List.length_append, List.length_singleton] at h ⊢
    have hbyte := byte.toNat_lt
    have hword : (word (data ++ [byte])).toNat = 2 ^ 8 * (word data).toNat + byte.toNat :=
      toNat_word_concat (by omega) byte
    have hhigh : word (data ++ [byte]) / 256 = word data := by
      apply UInt64.toNat.inj
      rw [UInt64.toNat_div, hword, show (256 : UInt64).toNat = 2 ^ 8 from rfl,
        Nat.mul_add_div (by decide), Nat.div_eq_of_lt hbyte, Nat.add_zero]
    have hlow : (word (data ++ [byte])).toUInt8 = byte := by
      apply UInt8.toNat.inj
      rw [UInt64.toNat_toUInt8, hword, Nat.mul_add_mod, Nat.mod_eq_of_lt hbyte]
    rw [bytes, hhigh, hlow, ih (by omega)]

namespace Bytes

variable {data : Bytes} {start width : Nat}

/-- The word at a place is the number that its bytes spell. -/
theorem toNat_wordAt (hwidth : width ≤ 8) :
    (data.wordAt start width).toNat = data.between start (start + width) := by
  rw [wordAt, between, Nat.add_sub_cancel_left]
  refine BigEndian.toNat_word ?_
  rw [List.length_take]
  exact Nat.le_trans (Nat.min_le_left _ _) hwidth

/-- A word in two parts is the high one moved up by the length of the low one, and the low one. -/
theorem toNat_wordAt_add {front back : Nat} (hwidth : front + back ≤ 8)
    (hinside : start + (front + back) ≤ data.length) :
    (data.wordAt start (front + back)).toNat =
      (data.wordAt start front).toNat * 2 ^ (8 * back) +
        (data.wordAt (start + front) back).toNat := by
  have hplace : start + (front + back) = start + front + back := (Nat.add_assoc ..).symm
  rw [toNat_wordAt hwidth, toNat_wordAt (by omega), toNat_wordAt (by omega),
    between_add (Nat.le_add_right start front) (by omega) hinside, hplace,
    Nat.add_sub_cancel_left, Provider.pow_eq]

/-- A word that is stored is found up to the bytes for which there is room. -/
theorem toNat_wordAt_overwrite (hinside : start + width ≤ data.length) (value : UInt64) :
    ((data.overwrite start (bytes width value)).wordAt start width).toNat =
      value.toNat % 2 ^ (8 * width) := by
  rw [← Provider.pow_eq]
  rcases Nat.le_total width 8 with hfew | hmany
  · rw [toNat_wordAt hfew, between_overwrite hinside]
  · have hvalue : value.toNat < 256 ^ width :=
      Nat.lt_of_lt_of_le value.toNat_lt (Nat.pow_le_pow_right (by decide : 0 < 256) hmany)
    rw [wordAt_overwrite hinside hvalue, Nat.mod_eq_of_lt hvalue]

/-- The word of a place is stored there already. -/
theorem overwrite_wordAt (hwidth : width ≤ 8) (hinside : start + width ≤ data.length) :
    data.overwrite start (bytes width (data.wordAt start width)) = data := by
  have hlength : ((data.drop start).take width).length = width := by
    rw [List.length_take, List.length_drop]
    omega
  have hbytes := BigEndian.bytes_word (hlength ▸ hwidth)
  rw [hlength] at hbytes
  rw [wordAt, hbytes, overwrite_self data start width hinside]

end Bytes

/-! ## Storing -/

namespace InPlace

variable {data : Bytes} {start width : Nat}

/-- A word is stored in place as it is written into the buffer as a whole. -/
theorem exec_storeWord (hinside : start + width ≤ data.length) (value : UInt64) :
    (storeWord start width value).exec data =
      (.ok (), data.overwrite start (bytes width value)) := by
  have hlands : Lands True data _ _ := Lands.storeWord start width value
  rw [BigEndian.write_eq_ok value hinside] at hlands
  generalize (storeWord start width value).exec data = run at hlands ⊢
  cases hlands
  rfl

/-- Where there is no room nothing is stored. -/
theorem exec_storeWord_refused (houtside : ¬ start + width ≤ data.length) (value : UInt64) :
    (storeWord start width value).exec data = (.error (.error .outOfBounds), data) := by
  have hlands : Lands True data _ _ := Lands.storeWord start width value
  rw [BigEndian.write, if_neg houtside] at hlands
  generalize (storeWord start width value).exec data = run at hlands ⊢
  cases hlands with
  | error _ hleft => rw [hleft trivial]

theorem exec_storeWord_eq_ok_iff {value : UInt64} {after : Bytes} :
    (storeWord start width value).exec data = (.ok (), after) ↔
      start + width ≤ data.length ∧ data.overwrite start (bytes width value) = after := by
  by_cases hinside : start + width ≤ data.length
  · rw [exec_storeWord hinside, Prod.mk.injEq]
    exact and_congr_left' (iff_of_true rfl hinside)
  · rw [exec_storeWord_refused hinside]
    exact iff_of_false nofun fun h => hinside h.1

end InPlace

/-! ## Laws -/

namespace BigEndian

open InPlace (storeWord)

/-- What comes of storing words in `width` bytes from `start` on. -/
structure Stores (data : Bytes) (start width : Nat) : Prop where
  succeeds : ∀ value, (∃ after, (storeWord start width value).exec data = (.ok (), after)) ↔
    start + width ≤ data.length
  /-- without room nothing is stored -/
  refused : ∀ value failure after,
    (storeWord start width value).exec data = (.error failure, after) →
      failure = .error .outOfBounds ∧ after = data
  outside : ∀ value after, (storeWord start width value).exec data = (.ok (), after) →
    Bytes.AgreeOutside start (start + width) data after
  /-- what was stored is loaded, as far as there was room for it -/
  load : ∀ value after, (storeWord start width value).exec data = (.ok (), after) →
    ∃ found, load after start width = .ok found ∧
      (width ≤ 8 → found.toNat = value.toNat % 2 ^ (8 * width)) ∧ (8 < width → found = value)

/-- What comes of loading the word in `width` bytes from `start` on. -/
structure Loads (data : Bytes) (start width : Nat) : Prop where
  succeeds : (∃ value, load data start width = .ok value) ↔ start + width ≤ data.length
  /-- the range that was asked for is told, its end up to the largest offset -/
  refused : ∀ failure, load data start width = .error failure →
    failure = .error (.outOfBounds start (min (start + width) maxWord) data.length)
  number : width ≤ 8 → ∀ value, load data start width = .ok value →
    value.toNat = Bytes.number ((data.drop start).take width)
  /-- storing what was loaded changes nothing -/
  store : width ≤ 8 → ∀ value, load data start width = .ok value →
    (storeWord start width value).exec data = (.ok (), data)
  /-- the parts of a word are loaded one behind the other -/
  split : width ≤ 8 → ∀ front back, front + back = width → ∀ value,
    load data start width = .ok value →
      ∃ high low, load data start front = .ok high ∧ load data (start + front) back = .ok low ∧
        value.toNat = high.toNat * 2 ^ (8 * back) + low.toNat

variable (data : Bytes) (start width : Nat)

theorem stores : Stores data start width := by
  refine ⟨fun value => ?_, fun value failure after hrun => ?_, fun value after hrun => ?_,
    fun value after hrun => ?_⟩
  · simp only [InPlace.exec_storeWord_eq_ok_iff, exists_and_left, exists_eq', and_true]
  · by_cases hinside : start + width ≤ data.length
    · rw [InPlace.exec_storeWord hinside] at hrun
      cases hrun
    · rw [InPlace.exec_storeWord_refused hinside] at hrun
      cases hrun
      exact ⟨rfl, rfl⟩
  · obtain ⟨hinside, rfl⟩ := InPlace.exec_storeWord_eq_ok_iff.1 hrun
    have hlength := length_bytes width value
    exact Bytes.agreeOutside_overwrite (by rw [hlength]) hinside
  · obtain ⟨hinside, rfl⟩ := InPlace.exec_storeWord_eq_ok_iff.1 hrun
    have hkeep : (data.overwrite start (bytes width value)).length = data.length :=
      Bytes.length_overwrite (by rwa [length_bytes])
    have hfound := Bytes.toNat_wordAt_overwrite hinside value
    refine ⟨_, load_eq_ok_iff.2 ⟨hkeep ▸ hinside, rfl⟩, fun _ => hfound, fun hmany => ?_⟩
    have hvalue : value.toNat < 2 ^ (8 * width) :=
      Nat.lt_of_lt_of_le value.toNat_lt (Nat.pow_le_pow_right (by decide) (by omega))
    exact UInt64.toNat.inj (hfound.trans (Nat.mod_eq_of_lt hvalue))

theorem loads : Loads data start width := by
  refine ⟨?_, fun failure hload => ?_, fun hwidth value hload => ?_,
    fun hwidth value hload => ?_, fun hwidth front back hsum value hload => ?_⟩
  · simp only [load_eq_ok_iff, exists_and_left, exists_eq', and_true]
  · by_cases hinside : start + width ≤ data.length
    · rw [load_eq_ok_iff.2 ⟨hinside, rfl⟩] at hload
      cases hload
    · rw [load, if_neg hinside] at hload
      exact (Except.error.inj hload).symm
  · obtain ⟨-, rfl⟩ := load_eq_ok_iff.1 hload
    rw [Bytes.toNat_wordAt hwidth, Bytes.between, Nat.add_sub_cancel_left]
  · obtain ⟨hinside, rfl⟩ := load_eq_ok_iff.1 hload
    rw [InPlace.exec_storeWord hinside, Bytes.overwrite_wordAt hwidth hinside]
  · subst hsum
    obtain ⟨hinside, rfl⟩ := load_eq_ok_iff.1 hload
    exact ⟨_, _, load_eq_ok_iff.2 ⟨by omega, rfl⟩, load_eq_ok_iff.2 ⟨by omega, rfl⟩,
      Bytes.toNat_wordAt_add hwidth hinside⟩

/-- At every place, and for every number of bytes, a word is stored and loaded exactly if the bytes
are in the buffer. A refused word changes nothing, and a stored one only its own bytes, from which
it is loaded again up to the digits that were cut off. Up to eight bytes are loaded as the number
that they spell, part by part or at once, and are kept when that number is stored. -/
theorem stores_and_loads : Stores data start width ∧ Loads data start width :=
  ⟨stores data start width, loads data start width⟩

example : (storeWord 1 2 0xab1234).exec [0, 0, 0, 7] = (.ok (), [0, 0x12, 0x34, 7]) ∧
    load [0, 0x12, 0x34, 7] 1 2 = .ok 0x1234 ∧
    (storeWord 3 2 1).exec [0, 0, 0, 7] = (.error (.error .outOfBounds), [0, 0, 0, 7]) :=
  ⟨rfl, rfl, rfl⟩

end BigEndian

end PacketLayout
