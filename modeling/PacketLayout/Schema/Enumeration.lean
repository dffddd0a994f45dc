import PacketLayout.Wire.IntKind

/-!
# Enumerations

An enumeration names some values of an integer. A value without a name is still readable: it comes
back without one, which is what flags need. Two values may share a name.

* `Variants` keeps its entries in ascending order of value, so a map has one representation.
-/

namespace PacketLayout

/-- Entries in ascending order of value, one name a value. -/
def Ascending (entries : List (UInt64 × String)) : Prop :=
  entries.Pairwise fun a b => a.1 < b.1

instance (entries : List (UInt64 × String)) : Decidable (Ascending entries) :=
  inferInstanceAs (Decidable (entries.Pairwise _))

/-- Names of values: a finite map. -/
structure Variants where
  /-- the values with their names, smallest value first -/
  entries : List (UInt64 × String)
  /-- each value stands once -/
  ascending : Ascending entries
  deriving DecidableEq

namespace Variants

/-- No value has a name. -/
def empty : Variants := ⟨[], .nil⟩

/-- The entries after `value` is called `name`; an earlier name of the value is dropped. -/
def insertEntry (value : UInt64) (name : String) : List (UInt64 × String) → List (UInt64 × String)
  | [] => [(value, name)]
  | entry :: rest =>
    if value < entry.1 then (value, name) :: entry :: rest
    else if value = entry.1 then (value, name) :: rest
    else entry :: insertEntry value name rest

theorem mem_insertEntry {value : UInt64} {name : String} {entries : List (UInt64 × String)}
    {entry : UInt64 × String} (h : entry ∈ insertEntry value name entries) :
    entry = (value, name) ∨ entry ∈ entries := by
  induction entries with
  | nil => simpa [insertEntry] using h
  | cons first rest ih =>
    unfold insertEntry at h
    split at h
    · simpa using h
    · split at h
      · rcases List.mem_cons.1 h with h | h
        · exact .inl h
        · exact .inr (List.mem_cons_of_mem _ h)
      · rcases List.mem_cons.1 h with h | h
        · exact .inr (h ▸ List.mem_cons_self)
        · exact (ih h).imp_right (List.mem_cons_of_mem _)

theorem ascending_insertEntry (value : UInt64) (name : String)
    {entries : List (UInt64 × String)} (h : Ascending entries) :
    Ascending (insertEntry value name entries) := by
  induction entries with
  | nil => exact List.pairwise_singleton _ _
  | cons first rest ih =>
    obtain ⟨hfirst, hrest⟩ := List.pairwise_cons.1 h
    unfold insertEntry
    split
    · rename_i hlt
      refine List.pairwise_cons.2 ⟨fun entry hentry => ?_, h⟩
      rcases List.mem_cons.1 hentry with rfl | hentry
      · exact hlt
      · exact UInt64.lt_trans hlt (hfirst entry hentry)
    · rename_i hlt
      split
      · rename_i heq
        exact List.pairwise_cons.2 ⟨fun entry hentry => heq ▸ hfirst entry hentry, hrest⟩
      · rename_i hne
        refine List.pairwise_cons.2 ⟨fun entry hentry => ?_, ih hrest⟩
        rcases mem_insertEntry hentry with rfl | hentry
        · exact UInt64.lt_of_le_of_ne (UInt64.not_lt.1 hlt) (Ne.symm hne)
        · exact hfirst entry hentry

/-- Call `value` by `name`, in place of an earlier name of it. -/
def insert (variants : Variants) (value : UInt64) (name : String) : Variants :=
  ⟨insertEntry value name variants.entries, ascending_insertEntry value name variants.ascending⟩

/-- The map of some entries; of two entries for one value the later counts. -/
def ofList (entries : List (UInt64 × String)) : Variants :=
  entries.foldl (fun variants entry => variants.insert entry.1 entry.2) empty

end Variants

/-- A named set of names for the values of an integer. -/
structure Enumeration where
  name : String
  /-- the integer that holds a value unless a field asks for a narrower one -/
  backing : IntKind
  variants : Variants := .empty
  deriving DecidableEq

namespace Enumeration

/-- The name of a value, if it has one. -/
def nameOf? (enumeration : Enumeration) (raw : UInt64) : Option String :=
  (enumeration.variants.entries.find? (·.1 = raw)).map (·.2)

/-- The smallest value of a name. -/
def valueOf? (enumeration : Enumeration) (name : String) : Option UInt64 :=
  (enumeration.variants.entries.find? (·.2 = name)).map (·.1)

end Enumeration

end PacketLayout
