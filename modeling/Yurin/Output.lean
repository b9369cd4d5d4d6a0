import Yurin.Text.Bytes

/-!
# Output that may fail

What a command does to its output is a list of writes and, at the end, success or a failure of its
own. The output takes a number of writes and refuses the ones after; a refused write ends the
command with the failure that the write names.
-/

namespace Yurin

/-- One write, and how the command fails when it is refused. -/
structure Write (ε : Type) where
  bytes : Bytes
  refused : ε

/-- The writes of a command, and the failure it ends with, if any. -/
structure Output (ε : Type) where
  writes : List (Write ε)
  failure : Option ε

namespace Output

/-- No output, and success. -/
def nothing : Output ε := ⟨[], none⟩

/-- No output, and a failure. -/
def fail (e : ε) : Output ε := ⟨[], some e⟩

/-- One write. -/
def write (refused : ε) (bytes : Bytes) : Output ε := ⟨[⟨bytes, refused⟩], none⟩

/-- One output after another, unless the first one fails. -/
def andThen (first second : Output ε) : Output ε :=
  match first.failure with
  | some _ => first
  | none => ⟨first.writes ++ second.writes, second.failure⟩

/-- The outputs in order, up to the first that fails. -/
def all (outputs : List (Output ε)) : Output ε := outputs.foldr andThen nothing

/-- An output with its failures in other words. -/
def mapFailure (f : ε → δ) (o : Output ε) : Output δ :=
  ⟨o.writes.map fun w => ⟨w.bytes, f w.refused⟩, o.failure.map f⟩

/-- What arrives when the output takes at most `capacity` writes (any number when there is none),
and how the command ends. -/
def run (o : Output ε) (capacity : Option Nat) : Bytes × Option ε :=
  match capacity with
  | none => (o.writes.flatMap (·.bytes), o.failure)
  | some n =>
    ((o.writes.take n).flatMap (·.bytes),
     match o.writes.drop n with
     | [] => o.failure
     | w :: _ => some w.refused)

end Output

end Yurin
