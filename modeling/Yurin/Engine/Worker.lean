import Yurin.Engine
import Yurin.Engine.Channel

/-!
# The background worker

A worker highlights sources in the background, and the last edit wins. Every submission starts a run
and calls off the one before. When a run has ended its result is delivered: if no newer submission
has been made it replaces the one in the channel, and otherwise it is dropped. Closing the worker
calls off its last run, and no result enters the channel after that; one that waits there can still
be received.

## Steps

What a worker does is a sequence of atomic steps (`Step`), in any order that the guards allow.

* `submit`, `deliver` and `shut` need the worker's lock. A delivery keeps the lock from the moment
  when it empties the channel (`deliver`) until it has sent its result (`send`).
* `finish` and `receive` need no lock, so they also happen while a delivery is under way.
* Closing is `shut`, then waiting until no run is in flight, then `retire`, which closes the
channel.

A step whose guard fails leaves the worker as it is. The only way to go wrong is a `send` on a full
or closed channel.
-/

namespace Yurin

namespace Worker

/-- A run in flight: the number of its submission, its source, whether it waits to be called off,
and whether it has been. -/
structure Run where
  generation : Nat
  source : Bytes
  held : Bool
  calledOff : Bool

/-- The outcome of a submission. -/
structure Result where
  generation : Nat
  outcome : Except EngineError (List Highlight × List Diagnostic)

/-- A submission to a closed worker. -/
inductive SubmitError
  | closed
  deriving DecidableEq, Repr

/-- The text of a submission error. -/
def SubmitError.message : SubmitError → Bytes
  | .closed => utf8 "worker closed"

/-- A run that has been called off. -/
def Run.callOff (r : Run) : Run := { r with calledOff := true }

/-- Whether a run can end. -/
def Run.canFinish (r : Run) : Bool := !r.held || r.calledOff

/-- The result of a run. One that was called off after it had passed `checkpoints` of its
checkpoints is abandoned at the next, if there is one. -/
def Run.result (r : Run) (checkpoints : Nat) : Result :=
  ⟨r.generation,
   Engine.standard.eval (if r.calledOff then some checkpoints else none)
     (Engine.standard.highlight r.source)⟩

end Worker

/-- A worker: the number of its newest submission, whether it takes no more of them, the runs in
flight, the results of ended runs that are still to be delivered, the result whose delivery holds
the lock, and the channel of results. -/
structure Worker where
  generation : Nat
  closed : Bool
  runs : List Worker.Run
  ended : List Worker.Result
  sending : Option Worker.Result
  channel : Channel Worker.Result

namespace Worker

/-- A worker that has seen no submission. -/
def start : Worker := ⟨0, false, [], [], none, .empty⟩

/-! ## The single steps -/

/-- Whether the lock is free. -/
def unlocked (w : Worker) : Bool := w.sending.isNone

/-- The worker after a submission. `held` makes the run wait until it is called off, and `calledOff`
says that it is so from the start. -/
def submit (w : Worker) (source : Bytes) (held calledOff : Bool) : Except SubmitError Worker :=
  if w.closed then .error .closed
  else .ok { w with
    generation := w.generation + 1
    runs := w.runs.map Run.callOff ++ [⟨w.generation + 1, source, held, calledOff⟩] }

/-- The worker after the run of a submission has ended, called off after `checkpoints` checkpoints
if it was. -/
def finish (w : Worker) (generation checkpoints : Nat) : Worker :=
  match w.runs.find? (·.generation == generation) with
  | none => w
  | some r =>
    if r.canFinish then
      { w with
        runs := w.runs.filter (·.generation != generation)
        ended := w.ended ++ [r.result checkpoints] }
    else w

/-- The worker after the delivery of a result has begun: the result of the newest submission takes
the lock and empties the channel, and any other is dropped. -/
def deliver (w : Worker) (generation : Nat) : Worker :=
  match w.ended.find? (·.generation == generation) with
  | none => w
  | some r =>
    let w := { w with ended := w.ended.filter (·.generation != generation) }
    if r.generation = w.generation then
      { w with sending := some r, channel := w.channel.drain }
    else w

/-- The worker after the result under way has been sent and the lock is free again. -/
def send (w : Worker) : Except Channel.Fault Worker :=
  match w.sending with
  | none => .ok w
  | some r => do
    let channel ← w.channel.send r
    return { w with sending := none, channel }

/-- The waiting result, and the worker without it. -/
def receive (w : Worker) : Option Result × Worker :=
  let (r, channel) := w.channel.receive
  (r, { w with channel })

/-- The locked part of closing: no more submissions, and the last run is called off. -/
def shut (w : Worker) : Worker :=
  if w.closed then w
  else { w with
    generation := w.generation + 1
    closed := true
    runs := w.runs.map Run.callOff }

/-- Whether no run is in flight and no result is to be delivered. -/
def idle (w : Worker) : Bool := w.runs.isEmpty && w.ended.isEmpty && w.sending.isNone

/-- The last part of closing: a worker that is shut and idle closes its channel. -/
def retire (w : Worker) : Worker :=
  if w.closed && w.idle then { w with channel := w.channel.close } else w

/-! ## Sequences of steps -/

/-- One atomic step. -/
inductive Step
  | submit (source : Bytes) (held calledOff : Bool)
  | finish (generation checkpoints : Nat)
  | deliver (generation : Nat)
  | send
  | receive
  | shut
  | retire

/-- What a step shows to the user of the worker. -/
inductive Answer
  | accepted (generation : Nat)
  | refused (e : SubmitError)
  | received (r : Result)

/-- The worker after one step, with what the step shows. A step that needs the lock while a delivery
holds it changes nothing. -/
def step (w : Worker) : Step → Except Channel.Fault (Worker × Option Answer)
  | .submit source held calledOff => .ok <|
    if w.unlocked then
      match w.submit source held calledOff with
      | .ok w => (w, some (.accepted w.generation))
      | .error e => (w, some (.refused e))
    else (w, none)
  | .finish generation checkpoints => .ok (w.finish generation checkpoints, none)
  | .deliver generation => .ok (if w.unlocked then w.deliver generation else w, none)
  | .send => w.send.map ((·, none))
  | .receive =>
    let (r, w) := w.receive
    .ok (w, r.map .received)
  | .shut => .ok (if w.unlocked then w.shut else w, none)
  | .retire => .ok (w.retire, none)

/-- The worker after a sequence of steps, with what they show, in order. -/
def history (w : Worker) : List Step → Except Channel.Fault (Worker × List Answer)
  | [] => .ok (w, [])
  | s :: rest => do
    let (w, a) ← w.step s
    let (w, answers) ← w.history rest
    return (w, a.toList ++ answers)

/-! ## Running to rest -/

/-- The worker after the run of a submission has ended and its result has been delivered. -/
def complete (w : Worker) (generation : Nat) : Except Channel.Fault Worker :=
  ((w.finish generation 0).deliver generation).send

/-- The worker after every run that can end has ended, with the results delivered. -/
def settle (w : Worker) : Except Channel.Fault Worker :=
  ((w.runs.filter Run.canFinish).map (·.generation)).foldlM complete w

/-- The worker after it has been closed and its runs have ended. -/
def close (w : Worker) : Except Channel.Fault Worker := do
  return (← w.shut.settle).retire

/-- The number of the newest submission. Closing counts as one more generation. -/
def newest (w : Worker) : Nat := if w.closed then w.generation - 1 else w.generation

/-- The result of the newest submission if it waits, and the worker without a result that waits. -/
def latest (w : Worker) : Option Result × Worker :=
  let (r, w) := w.receive
  (r.filter (·.generation == w.newest), w)

end Worker

end Yurin
