/-!
# A channel with one place

A channel holds at most one value on its way to a receiver. Its sender must find the place free and
the channel open; a closed channel still gives up the value that it holds.
-/

namespace Yurin

/-- A channel with one place. -/
structure Channel (α : Type) where
  slot : Option α
  closed : Bool

namespace Channel

variable {α : Type}

/-- Why a value cannot be sent: another one has the place, or the channel is closed. -/
inductive Fault
  | full
  | closed
  deriving DecidableEq, Repr

/-- An open channel that holds nothing. -/
def empty : Channel α := ⟨none, false⟩

/-- The channel with a value on its way. -/
def send (c : Channel α) (a : α) : Except Fault (Channel α) :=
  if c.closed then .error .closed
  else if c.slot.isSome then .error .full
  else .ok { c with slot := some a }

/-- The channel without the value that it held. -/
def drain (c : Channel α) : Channel α := { c with slot := none }

/-- The value on its way, and the channel without it. -/
def receive (c : Channel α) : Option α × Channel α := (c.slot, c.drain)

/-- The channel with no more to be sent. -/
def close (c : Channel α) : Channel α := { c with closed := true }

end Channel

end Yurin
