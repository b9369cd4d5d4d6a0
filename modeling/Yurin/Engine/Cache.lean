/-!
# A cache of the latest entries

A cache keeps at most `capacity` entries, the one used last first. Looking an entry up or adding it
makes it the one used last, and the one not used for longest gives way.
-/

namespace Yurin

/-- A cache from keys to values, the entry used last first. -/
structure Cache (κ : Type) (α : Type) where
  capacity : Nat
  entries : List (κ × α)

namespace Cache

variable {κ α : Type} [DecidableEq κ]

/-- An empty cache. -/
def empty (capacity : Nat) : Cache κ α := ⟨capacity, []⟩

/-- The cache with an entry put in front, in place of an earlier one of its key. -/
def add (c : Cache κ α) (key : κ) (value : α) : Cache κ α :=
  { c with entries := ((key, value) :: c.entries.filter (·.1 ≠ key)).take c.capacity }

/-- The value of a key, and the cache after looking it up. -/
def get (c : Cache κ α) (key : κ) : Option α × Cache κ α :=
  match c.entries.lookup key with
  | some value => (some value, c.add key value)
  | none => (none, c)

end Cache

end Yurin
