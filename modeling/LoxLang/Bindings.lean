/-!
# Keys and what they are bound to

A small table from keys to values. A key is bound at most once, and keys stand in the order in which
they were first bound. Keys that are equal (`==`) are one key, and the one bound first is kept.
-/

namespace LoxLang

/-- Values under keys. The entry of a key is the first one with it. -/
structure Bindings (κ α : Type) where
  entries : List (κ × α)

namespace Bindings

variable {κ α : Type} [BEq κ]

/-- The value of the first entry with a given key. -/
def entry? (key : κ) : List (κ × α) → Option α
  | [] => none
  | (k, v) :: rest => if k == key then some v else entry? key rest

/-- Set the first entry with a given key, or add one at the end. -/
def setEntry (key : κ) (value : α) : List (κ × α) → List (κ × α)
  | [] => [(key, value)]
  | (k, v) :: rest => if k == key then (k, value) :: rest else (k, v) :: setEntry key value rest

/-- No bindings. -/
def empty : Bindings κ α := ⟨[]⟩

/-- One binding. -/
def single (key : κ) (value : α) : Bindings κ α := ⟨[(key, value)]⟩

/-- What a key is bound to. -/
def find? (b : Bindings κ α) (key : κ) : Option α :=
  entry? key b.entries

/-- The key has a value. -/
def binds (b : Bindings κ α) (key : κ) : Bool :=
  (b.find? key).isSome

/-- Bind a key. A new key goes to the end, a bound one keeps its place. -/
def insert (b : Bindings κ α) (key : κ) (value : α) : Bindings κ α :=
  ⟨setEntry key value b.entries⟩

/-- The keys, in the order of their entries. -/
def keys (b : Bindings κ α) : List κ :=
  b.entries.map Prod.fst

@[simp] theorem find?_empty (key : κ) : (empty : Bindings κ α).find? key = none := rfl

/-- After an insertion only the inserted key finds something new. -/
theorem find?_insert [PartialEquivBEq κ] (b : Bindings κ α) (key other : κ) (value : α) :
    (b.insert key value).find? other = if key == other then some value else b.find? other := by
  obtain ⟨entries⟩ := b
  simp only [find?, insert]
  induction entries with
  | nil => simp [setEntry, entry?]
  | cons e rest ih =>
    obtain ⟨k, v⟩ := e
    by_cases h : k == key
    · by_cases hk : k == other
      · simp [setEntry, entry?, h, hk, PartialEquivBEq.trans (PartialEquivBEq.symm h) hk]
      · have : ¬ (key == other) := fun ho => hk (PartialEquivBEq.trans h ho)
        simp [setEntry, entry?, h, hk, this]
    · by_cases hk : k == other
      · have : ¬ (key == other) := fun ho =>
          h (PartialEquivBEq.trans hk (PartialEquivBEq.symm ho))
        simp [setEntry, entry?, h, hk, this]
      · simp [setEntry, entry?, h, hk, ih]

theorem find?_insert_of_ne [PartialEquivBEq κ] (b : Bindings κ α) {key other : κ}
    (h : (key == other) = false) (value : α) :
    (b.insert key value).find? other = b.find? other := by
  simp [find?_insert, h]

end Bindings

end LoxLang
