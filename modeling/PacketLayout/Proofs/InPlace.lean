import PacketLayout.Access.InPlace
import PacketLayout.Proofs.Frame

/-!
# Edits in place lead where edits lead

An edit in place ends like the edit of the buffer as a whole, and leaves the buffer that the latter
gives. If it fails, it has stored nothing; only a codec may have left something behind.

* `Lands` compares how a procedure ends with the result that it should have.
* `Lands.perform` compares `Plan.perform` and `Plan.edit`.
-/

namespace PacketLayout

/-! ## Procedures step by step -/

namespace InPlace

variable {ε ε' α β : Type}

@[simp] theorem exec_ask (question : Bytes → Except (Failure ε) α) (data : Bytes) :
    (ask question).exec data = (question data, data) :=
  rfl

theorem exec_bind (procedure : InPlace ε α) (next : α → InPlace ε β) (data : Bytes) :
    exec (procedure >>= next) data =
      match procedure.exec data with
      | (ending, left) => ExceptT.bindCont next ending left :=
  rfl

theorem exec_bind_of_ok {procedure : InPlace ε α} {next : α → InPlace ε β} {data left : Bytes}
    {a : α} (h : procedure.exec data = (.ok a, left)) :
    exec (procedure >>= next) data = (next a).exec left := by
  rw [exec_bind, h]
  rfl

theorem exec_bind_of_error {procedure : InPlace ε α} {next : α → InPlace ε β} {data left : Bytes}
    {failure : Failure ε} (h : procedure.exec data = (.error failure, left)) :
    exec (procedure >>= next) data = (.error failure, left) := by
  rw [exec_bind, h]
  rfl

theorem exec_within (span : Span) (inner : InPlace ε α) (data : Bytes) :
    (within span inner).exec data =
      match data.slice span.start span.stop with
      | .ok part => ((inner.exec part).1, data.overwrite span.start (inner.exec part).2)
      | .error fault => (.error (.fault fault), data) :=
  rfl

theorem exec_storeByte {place : Nat} {data : Bytes} (h : place < data.length) (byte : UInt8) :
    (storeByte place byte : InPlace ε Unit).exec data = (.ok (), data.set place byte) :=
  if_pos h

theorem div_256_eq (word : UInt64) : word / (256 : UInt64) = word >>> (8 : UInt64) := by
  apply UInt64.toNat.inj
  rw [UInt64.toNat_div, UInt64.toNat_shiftRight, Nat.shiftRight_eq_div_pow]
  rfl

/-- Byte by byte, from the last one on, the word is stored. -/
theorem exec_storeBytes {width : Nat} {data : Bytes} (h : width ≤ data.length) (word : UInt64) :
    (storeBytes width word : InPlace ε Unit).exec data =
      (.ok (), BigEndian.bytes width word ++ data.drop width) := by
  induction width generalizing word data with
  | zero => rfl
  | succ width ih =>
    have hset : width ≤ (data.set width word.toUInt8).length := by
      rw [List.length_set]
      exact Nat.le_of_lt h
    have hdrop : (data.set width word.toUInt8).drop width =
        word.toUInt8 :: data.drop (width + 1) := by
      rw [List.drop_eq_getElem_cons (by rw [List.length_set]; exact h), List.getElem_set_self,
        List.drop_set_of_lt (Nat.lt_succ_self width)]
    rw [storeBytes, exec_bind_of_ok (exec_storeByte h _), ih hset, hdrop, BigEndian.bytes,
      div_256_eq, List.append_assoc]
    rfl

end InPlace

/-- Reading through a slice never faults: the slice lies inside the buffer when it is cut. -/
theorem BigEndian.load_eq (data : Bytes) (start width : Nat) :
    load data start width = Failure.ofError (read data start width) := by
  unfold load read
  by_cases h : start + width ≤ data.length
  · rw [if_pos h, if_pos h, Bytes.slice_eq_ok (Nat.le_add_right start width) h,
      Nat.add_sub_cancel_left]
    rfl
  · rw [if_neg h, if_neg h]
    rfl

/-! ## Where procedures land -/

/-- A procedure ends as a result says. If the result is a buffer, it leaves that buffer. If there is
none and codecs keep what they do not accept, it leaves the buffer that was there before. -/
inductive Lands {ε : Type} (kept : Prop) (data : Bytes) :
    Except (Failure ε) Bytes → Except (Failure ε) Unit × Bytes → Prop
  | ok (after : Bytes) : Lands kept data (.ok after) (.ok (), after)
  | error (failure : Failure ε) {left : Bytes} (h : kept → left = data) :
    Lands kept data (.error failure) (.error failure, left)

namespace Lands

open InPlace

variable {ε ε' α : Type} {kept : Prop} {data : Bytes}

theorem of_ok {result : Except (Failure ε) Bytes} {after : Bytes}
    (h : Lands kept data result (.ok (), after)) : result = .ok after := by
  cases h
  rfl

theorem of_error {result : Except (Failure ε) Bytes} {failure : Failure ε} {left : Bytes}
    (h : Lands kept data result (.error failure, left)) :
    result = .error failure ∧ (kept → left = data) := by
  cases h with
  | error _ hleft => exact ⟨rfl, hleft⟩

theorem fail (failure : Failure ε) :
    Lands kept data (throw failure) (exec (throw failure : InPlace ε Unit) data) :=
  error failure fun _ => rfl

theorem ask_bind (question : Bytes → Except (Failure ε) α) {next : α → InPlace ε Unit}
    {f : α → Except (Failure ε) Bytes}
    (h : ∀ a, question data = .ok a → Lands kept data (f a) ((next a).exec data)) :
    Lands kept data (question data >>= f) (exec (ask question >>= next) data) := by
  cases hquestion : question data with
  | ok a =>
    have hask : (ask question).exec data = (.ok a, data) := by rw [exec_ask, hquestion]
    rw [exec_bind_of_ok hask]
    exact h a hquestion
  | error failure =>
    have hask : (ask question).exec data = (.error failure, data) := by rw [exec_ask, hquestion]
    rw [exec_bind_of_error hask]
    exact error failure fun _ => rfl

theorem mapError {result : Except (Failure ε) Bytes} {procedure : InPlace ε Unit}
    (h : Lands kept data result (procedure.exec data)) (f : ε → ε') :
    Lands kept data (result.mapError (·.map f)) ((procedure.mapError f).exec data) := by
  show Lands kept data _ (((procedure.exec data).1.mapError (·.map f)), (procedure.exec data).2)
  generalize procedure.exec data = run at h
  cases h with
  | ok after => exact ok after
  | error failure h => exact error _ h

/-- Inside a range a procedure lands where it does on the bytes of the range. -/
theorem within (span : Span) (f : Bytes → Except (Failure ε) Bytes) {inner : InPlace ε Unit}
    (h : ∀ part, data.slice span.start span.stop = .ok part →
      Lands kept part (f part) (inner.exec part)) :
    Lands kept data
      (do
        let part ← Failure.ofFault (data.slice span.start span.stop)
        let after ← f part
        pure (data.overwrite span.start after))
      ((InPlace.within span inner).exec data) := by
  rw [exec_within]
  cases hslice : data.slice span.start span.stop with
  | error fault => exact error _ fun _ => rfl
  | ok part =>
    have hinner := h part hslice
    show Lands kept data (f part >>= _)
      ((inner.exec part).1, data.overwrite span.start (inner.exec part).2)
    generalize f part = result, inner.exec part = run at hinner
    cases hinner with
    | ok after => exact ok _
    | error failure hleft =>
      refine error failure fun hkept => ?_
      rw [hleft hkept]
      exact Bytes.overwrite_slice hslice

theorem storeWord (start width : Nat) (word : UInt64) :
    Lands kept data (Failure.ofError (BigEndian.write data start width word))
      ((InPlace.storeWord start width word).exec data) := by
  -- the same three steps: check the range, cut it out, put the bytes of the word in its place
  have hsteps : Failure.ofError (BigEndian.write data start width word) =
      (do
        demand start width data
        let _ ← Failure.ofFault (data.slice start (start + width))
        let after ← pure (BigEndian.bytes width word)
        pure (data.overwrite start after)) := by
    unfold BigEndian.write demand
    by_cases h : start + width ≤ data.length
    · rw [if_pos h, if_pos h, Bytes.slice_eq_ok (Nat.le_add_right start width) h]
      rfl
    · rw [if_neg h, if_neg h]
      rfl
  rw [hsteps]
  refine ask_bind (demand start width) fun _ _ =>
    within ⟨start, start + width⟩ (fun _ => .ok (BigEndian.bytes width word)) fun part hslice => ?_
  have hlength := Bytes.length_of_slice hslice
  rw [Nat.add_sub_cancel_left] at hlength
  rw [exec_storeBytes (Nat.le_of_eq hlength.symm), List.drop_of_length_le (Nat.le_of_eq hlength),
    List.append_nil]
  exact ok _

end Lands

/-! ## Numbers with a sign -/

/-- Shifted to so many bits, the least and the largest word with a sign are the bounds that the
powers of two say. -/
theorem signedBounds_eq (kind : IntKind) :
    ∃ least largest, signedBounds kind.bits = .ok (least, largest) ∧
      least.toInt = -2 ^ (kind.bits - 1) ∧ largest.toInt = 2 ^ (kind.bits - 1) - 1 := by
  cases kind with
  | u8 | i8 | u16 | i16 | u32 | i32 | u64 | i64 => exact ⟨_, _, rfl, by decide, by decide⟩

theorem toUInt64_and_maxRaw (kind : IntKind) (value : Int64) :
    value.toUInt64 &&& kind.maxRaw = UInt64.ofInt (value.toInt % (1 <<< kind.bits : Nat)) := by
  have hbits : kind.bits ≤ 64 := by cases kind <;> decide
  have hdvd : (2 ^ kind.bits : Int) ∣ ((2 ^ 64 : Nat) : Int) := by
    exact_mod_cast Int.natCast_dvd_natCast.2 (Nat.pow_dvd_pow 2 hbits)
  have hvalue : value.toInt % 2 ^ kind.bits = (value.toUInt64.toNat : Int) % 2 ^ kind.bits := by
    have hsigned : value.toInt = (value.toUInt64.toNat : Int).bmod (2 ^ 64) :=
      BitVec.toInt_eq_toNat_bmod value.toBitVec
    rw [← Int.emod_emod_of_dvd value.toInt hdvd, hsigned, Int.bmod_emod,
      Int.emod_emod_of_dvd _ hdvd]
  apply UInt64.toNat.inj
  apply Int.ofNat.inj
  show ((value.toUInt64 &&& kind.maxRaw).toNat : Int) = ((UInt64.ofInt _).toNat : Int)
  rw [View.cast_one_shiftLeft, Provider.toNat_ofInt_emod hbits, hvalue, UInt64.toNat_and,
    View.toNat_maxRaw, Nat.and_two_pow_sub_one_eq_mod]
  push_cast
  rfl

/-! ## Edits -/

/-- What becomes of a destination when a value is copied into it. -/
def Composite.copied (type : Composite) (name : String) (value destination : Bytes) :
    Write Bytes :=
  match type.codec.copyInto value destination with
  | some copied => .ok copied
  | none => .error (.error (.invalidValue name))

namespace Composite

variable {leftover : Leftover} {type : Composite} {name : String} {value destination : Bytes}

theorem exec_store_of_copied {copied : Bytes}
    (h : type.codec.copyInto value destination = some copied) :
    (type.store leftover name value).exec destination = (.ok (), copied) := by
  unfold InPlace.exec Composite.store
  rw [ExceptT.run_mk]
  simp only [StateT.run, h]

theorem exec_store_of_refused (h : type.codec.copyInto value destination = none) :
    (type.store leftover name value).exec destination =
      (.error (.error (.invalidValue name)), leftover type value destination) := by
  unfold InPlace.exec Composite.store
  rw [ExceptT.run_mk]
  simp only [StateT.run, h]

end Composite

namespace Lands

open InPlace

variable {kept : Prop} {data : Bytes}

/-- A procedure that looks for its field first lands where it does with the field it finds. -/
theorem aim_bind {plan : Plan} {name : String} {next : Provider × Span → InPlace WriteError Unit}
    {f : Provider × Span → Write Bytes}
    (h : ∀ provider span,
      Lands kept data (f (provider, span)) ((next (provider, span)).exec data)) :
    Lands kept data (Failure.ofError (View.target ⟨plan, data⟩ name) >>= f)
      (InPlace.exec (plan.aim name >>= next) data) := by
  refine ask_bind (fun data => Failure.ofError (View.target ⟨plan, data⟩ name)) ?_
  rintro ⟨provider, span⟩ -
  exact h provider span

theorem storeUnsigned (plan : Plan) (name : String) (span : Span) (value : UInt64)
    (provider : Provider) :
    Lands kept data (View.putUnsigned ⟨plan, data⟩ name span value provider)
      ((Plan.storeUnsigned name span value provider).exec data) := by
  cases provider with
  | scalar kind | enumeration _ kind =>
    rw [View.putUnsigned, Plan.storeUnsigned]
    by_cases hvalue : kind.maxRaw < value
    · rw [if_pos hvalue, if_pos hvalue]
      exact fail _
    · rw [if_neg hvalue, if_neg hvalue]
      exact storeWord _ _ _
  | bitField slot type =>
    have hload : Failure.ofError (View.word ⟨plan, data⟩ span slot.unit) =
        BigEndian.load data span.start slot.unit :=
      (BigEndian.load_eq _ _ _).symm
    rw [View.putUnsigned, Plan.storeUnsigned, hload]
    refine ask_bind (fun data => Failure.ofRead (BigEndian.load data span.start slot.unit))
      fun unit _ => ?_
    refine ask_bind (fun _ => Failure.ofFault (slot.insert unit value)) fun inserted _ => ?_
    cases inserted with
    | none => exact fail _
    | some unit => exact storeWord _ _ _
  | composite | rawSlice => exact fail _

theorem performUnsigned (plan : Plan) (name : String) (value : UInt64) :
    Lands kept data (View.setUnsigned ⟨plan, data⟩ name value)
      ((plan.performUnsigned name value).exec data) := by
  unfold View.setUnsigned Plan.performUnsigned
  exact aim_bind fun provider span => storeUnsigned plan name span value provider

theorem performNatural (plan : Plan) (name : String) (value : Int64) :
    Lands kept data (View.setNatural ⟨plan, data⟩ name value)
      ((plan.performNatural name value).exec data) := by
  have hnegative : value < 0 ↔ value.toInt < 0 := Int64.lt_iff_toInt_lt
  unfold View.setNatural Plan.performNatural
  by_cases h : value.toInt < 0
  · rw [if_pos h, if_pos (hnegative.2 h)]
    exact fail _
  · rw [if_neg h, if_neg (mt hnegative.1 h)]
    exact performUnsigned plan name _

theorem performSigned (plan : Plan) (name : String) (value : Int64) :
    Lands kept data (View.setSigned ⟨plan, data⟩ name value)
      ((plan.performSigned name value).exec data) := by
  unfold View.setSigned Plan.performSigned
  refine aim_bind fun provider span => ?_
  cases provider with
  | scalar kind =>
    by_cases hsigned : kind.isSigned = true
    · obtain ⟨least, largest, hbounds, hleast, hlargest⟩ := signedBounds_eq kind
      have hrange : value < least ∨ largest < value ↔
          value.toInt < -((1 <<< (kind.bits - 1) : Nat) : Int) ∨
            ((1 <<< (kind.bits - 1) : Nat) : Int) ≤ value.toInt := by
        rw [Int64.lt_iff_toInt_lt, Int64.lt_iff_toInt_lt, hleast, hlargest,
          View.cast_one_shiftLeft]
        omega
      have hask : (ask fun _ => Failure.ofFault (signedBounds kind.bits) :
          InPlace WriteError (Int64 × Int64)).exec data = (.ok (least, largest), data) := by
        rw [exec_ask, hbounds]
        rfl
      simp only [hsigned, if_true, exec_bind_of_ok hask, hrange, ← toUInt64_and_maxRaw]
      split
      · exact fail _
      · exact storeWord _ _ _
    · simp only [hsigned, Bool.false_eq_true, if_false]
      exact performNatural plan name value
  | enumeration | bitField | composite | rawSlice => exact performNatural plan name value

/-- A number that may be missing is written, or both refuse for want of it. -/
theorem performFound (plan : Plan) (name : String) (found : Option UInt64) :
    Lands kept data
      (match found with
        | some value => View.setUnsigned ⟨plan, data⟩ name value
        | none => throw (.error (.invalidValue name)))
      (InPlace.exec (match found with
        | some value => plan.performUnsigned name value
        | none => throw (.error (.invalidValue name))) data) := by
  cases found with
  | some value => exact performUnsigned plan name value
  | none => exact fail _

theorem performVariant (plan : Plan) (name variant : String) :
    Lands kept data (View.setVariant ⟨plan, data⟩ name variant)
      ((plan.performVariant name variant).exec data) := by
  unfold View.setVariant Plan.performVariant
  refine aim_bind fun provider span => ?_
  cases provider with
  | enumeration type kind => exact performFound plan name (type.valueOf? variant)
  | bitField slot type =>
    cases type with
    | some type => exact performFound plan name (type.valueOf? variant)
    | none => exact fail _
  | scalar | composite | rawSlice => exact fail _

theorem store (leftover : Leftover) (type : Composite) (name : String)
    (value destination : Bytes) :
    Lands leftover.Untouched destination (type.copied name value destination)
      ((type.store leftover name value).exec destination) := by
  unfold Composite.copied
  cases hcopied : type.codec.copyInto value destination with
  | some copied =>
    rw [Composite.exec_store_of_copied hcopied]
    exact ok copied
  | none =>
    rw [Composite.exec_store_of_refused hcopied]
    exact error _ fun hkept => hkept type value destination hcopied

theorem performBytes (leftover : Leftover) (plan : Plan) (name : String) (value : Bytes) :
    Lands leftover.Untouched data (View.setBytes ⟨plan, data⟩ name value)
      ((plan.performBytes leftover name value).exec data) := by
  unfold View.setBytes Plan.performBytes
  refine aim_bind fun provider span => ?_
  cases provider with
  | composite type =>
    have hinner : Lands leftover.Untouched data _ _ :=
      within span (type.copied name value) fun part _ => store leftover type name value part
    show Lands _ _ (Failure.ofFault (data.slice span.start span.stop) >>= _) _
    -- the codec decides before or after its copy is put back
    convert hinner using 3 with part
    unfold Composite.copied
    cases type.codec.copyInto value part <;> rfl
  | scalar | enumeration | bitField | rawSlice => exact fail _

/-- An edit of the fields of a plan lands where the edit of a view does. -/
theorem performHere (leftover : Leftover) (plan : Plan) (edit : Edit) :
    Lands leftover.Untouched data (View.apply ⟨plan, data⟩ edit)
      ((plan.performHere leftover edit).exec data) := by
  cases edit with
  | unsigned field value => exact performUnsigned plan field value
  | signed field value => exact performSigned plan field value
  | variant field variant => exact performVariant plan field variant
  | bytes field value => exact performBytes leftover plan field value

end Lands

/-! ## Edits below alternates -/

theorem mapError_bind {ε ε' α β : Type} (g : ε → ε') (x : Except ε α) (f : α → Except ε β) :
    (x >>= f).mapError g = x.mapError g >>= fun a => (f a).mapError g := by
  cases x <;> rfl

theorem Failure.mapError_ofFault {ε ε' α : Type} (g : ε → ε') (x : Except Fault α) :
    (ofFault x).mapError (map g) = ofFault x := by
  cases x <;> rfl

theorem bind_congr_of_ok {ε α β : Type} {x : Except ε α} {f g : α → Except ε β}
    (h : ∀ a, x = .ok a → f a = g a) : x >>= f = x >>= g := by
  cases x with
  | error error => rfl
  | ok a => exact h a rfl

namespace Plan

theorem eq_of_view_mapError {ε : Type} {g : Failure ReadError → ε} {plan : Plan} {data : Bytes}
    {view : View} (h : (Failure.ofError (plan.view data)).mapError g = .ok view) :
    view = ⟨plan, data⟩ :=
  (view_eq_ok_iff.1 (Failure.ofError_eq_ok_iff.1 (mapError_eq_ok_iff.1 h))).2

/-- An edit below a path is one below the rest of the path, on the bytes of the first anchor. -/
theorem edit_cons {plan : Plan} {data : Bytes} {anchor alternate : String}
    {path : List (String × String)} {edit : Edit}
    (hlength : ∀ {start last inner},
      View.follow ⟨plan, data⟩ ((anchor, alternate) :: path) = .ok (start, last) →
        last.apply edit = .ok inner → inner.length = last.data.length) :
    plan.edit data ((anchor, alternate) :: path) edit = (do
      let view ← (Failure.ofError (plan.view data)).mapError (·.map .unreachable)
      let (field, sub) ← (Failure.ofError (view.lookupAlternate anchor alternate)).mapError
        (·.map .unreachable)
      let span ← (Failure.ofError (view.locate field)).mapError (·.map .unreachable)
      let part ← Failure.ofFault (data.slice span.start span.stop)
      let after ← sub.edit part path edit
      pure (data.overwrite span.start after)) := by
  simp only [Plan.edit, descend, mapError_bind, bind_assoc, View.follow, View.alternate]
  refine bind_congr_of_ok fun view hview => ?_
  obtain rfl := eq_of_view_mapError hview
  refine bind_congr_of_ok ?_
  rintro ⟨field, sub⟩ hlookup
  refine bind_congr_of_ok fun span hspan => ?_
  rw [Failure.mapError_ofFault]
  refine bind_congr_of_ok fun part hcut => ?_
  refine bind_congr_of_ok fun inner hinner => ?_
  show (inner.follow path).mapError _ >>= _ = _
  refine bind_congr_of_ok ?_
  rintro ⟨offset, last⟩ hmore
  show (last.apply edit).mapError _ >>= _ = _
  refine bind_congr_of_ok fun new hnew => ?_
  have hslice := Failure.ofFault_eq_ok_iff.1 hcut
  replace hlookup := mapError_eq_ok_iff.1 hlookup
  replace hspan := mapError_eq_ok_iff.1 hspan
  obtain rfl := eq_of_view_mapError hinner
  replace hinner := mapError_eq_ok_iff.1 hinner
  replace hmore := mapError_eq_ok_iff.1 hmore
  have hstep : View.alternate ⟨plan, data⟩ anchor alternate = .ok (span.start, ⟨sub, part⟩) :=
    bind_eq_ok_iff.2 ⟨(field, sub), hlookup, bind_eq_ok_iff.2 ⟨span, hspan,
      bind_eq_ok_iff.2 ⟨part, Failure.ofFault_eq_ok_iff.2 hslice,
        bind_eq_ok_iff.2 ⟨⟨sub, part⟩, hinner, rfl⟩⟩⟩⟩
  have hfollow : View.follow ⟨plan, data⟩ ((anchor, alternate) :: path) =
      .ok (span.start + offset, last) :=
    bind_eq_ok_iff.2 ⟨_, hstep, bind_eq_ok_iff.2 ⟨_, hmore, rfl⟩⟩
  have hnewLength := hlength hfollow (mapError_eq_ok_iff.1 hnew)
  have hinside := View.follow_inside hmore
  exact congrArg pure (Bytes.overwrite_overwrite hslice (by rw [hnewLength]; exact hinside)).symm

/-- An edit without a path is one of the view of the whole buffer. -/
theorem edit_nil {plan : Plan} {data : Bytes} {edit : Edit}
    (hlength : ∀ {start last inner}, View.follow ⟨plan, data⟩ [] = .ok (start, last) →
      last.apply edit = .ok inner → inner.length = last.data.length) :
    plan.edit data [] edit = (do
      let _ ← (Failure.ofError (plan.view data)).mapError (·.map .unreachable)
      (View.apply ⟨plan, data⟩ edit).mapError (·.map .refused)) := by
  simp only [Plan.edit, descend, mapError_bind, bind_assoc]
  refine bind_congr_of_ok fun view hview => ?_
  obtain rfl := eq_of_view_mapError hview
  show (View.apply ⟨plan, data⟩ edit).mapError _ >>= _ = _
  cases hinner : View.apply ⟨plan, data⟩ edit with
  | error failure => rfl
  | ok inner =>
    exact congrArg Except.ok (Bytes.overwrite_whole (hlength rfl hinner))

end Plan

/-- An edit in place lands where the edit of the buffer does, whatever its path. -/
theorem Lands.perform {schema : Schema} {policy : MismatchPolicy} {plan : Plan}
    (h : schema.resolve policy = .ok plan) (leftover : Leftover) (edit : Edit)
    (path : List (String × String)) (data : Bytes) :
    Lands leftover.Untouched data (plan.edit data path edit)
      ((plan.perform leftover edit path).exec data) := by
  induction path generalizing schema plan data with
  | nil =>
    rw [Plan.edit_nil (Schema.length_of_apply h), Plan.perform]
    refine ask_bind (fun data => (Failure.ofError (plan.view data)).mapError _) fun view _ => ?_
    exact mapError (performHere leftover plan edit) _
  | cons step path ih =>
    obtain ⟨anchor, alternate⟩ := step
    rw [Plan.edit_cons (Schema.length_of_apply h), Plan.perform]
    refine ask_bind (fun data => (Failure.ofError (plan.view data)).mapError _) fun view hview => ?_
    obtain rfl := Plan.eq_of_view_mapError hview
    refine ask_bind (fun _ => (Failure.ofError
      (View.lookupAlternate ⟨plan, data⟩ anchor alternate)).mapError _) ?_
    rintro ⟨field, sub⟩ hlookup
    refine ask_bind (fun _ => (Failure.ofError (View.locate ⟨plan, data⟩ field)).mapError _)
      fun span _ => ?_
    obtain ⟨hfield, halternate⟩ := View.lookupAlternate_eq_ok_iff.1
      (Failure.ofError_eq_ok_iff.1 (mapError_eq_ok_iff.1 hlookup))
    have hat : plan.at? [(anchor, alternate)] = some sub := by
      rw [Plan.at?, hfield, Option.bind_some, halternate, Option.bind_some, Plan.at?]
    obtain ⟨part, -, hsub⟩ := Schema.resolve_at? h hat
    exact within span (fun part => sub.edit part path edit) fun part _ => ih hsub part

end PacketLayout
