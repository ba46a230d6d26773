import KeyEngine.Error
import KeyEngine.Wheel

/-!
# Timer

A timer drives a wheel. Commands sent before it is started wait in a queue and are obeyed, in their
order, when it starts. A stopped timer drops its tasks and ignores every further command.
-/

namespace KeyEngine

inductive TimerCommand (α : Type) where
  | add (delay : Duration) (key : Option Bytes) (payload : α)
  | cancel (key : Bytes)
  | stop
deriving Repr

inductive TimerPhase (α : Type) where
  /-- Not started yet; the commands so far. -/
  | waiting (queue : List (TimerCommand α))
  | running (wheel : Wheel α)
  | stopped

structure Timer (α : Type) where
  interval : Duration
  slotCount : Nat
  phase : TimerPhase α

namespace Timer

variable {α : Type}

/-- A timer that is not started. It has at least one slot, and its ticks are at least a millisecond
apart. -/
def new (interval : Duration) (slotCount : Nat) : Timer α where
  interval := interval.atLeast (.ofMillis 1)
  slotCount := max slotCount 1
  phase := .waiting []

/-- A hundred milliseconds to a tick, and an hour to a lap. -/
def standard : Timer α :=
  new (.ofMillis 100) 3600

def started (t : Timer α) : Bool :=
  match t.phase with
  | .waiting _ => false
  | _ => true

/-! ## Commands -/

def obey : TimerPhase α → TimerCommand α → TimerPhase α
  | .waiting queue, c => .waiting (queue ++ [c])
  | .running w, .add delay key payload => .running (w.add delay key payload)
  | .running w, .cancel key => .running (w.remove key).1
  | .running _, .stop => .stopped
  | .stopped, _ => .stopped

def send (t : Timer α) (c : TimerCommand α) : Timer α :=
  { t with phase := obey t.phase c }

def add (t : Timer α) (delay : Duration) (key : Option Bytes) (payload : α) : Timer α :=
  t.send (.add delay key payload)

def cancel (t : Timer α) (key : Bytes) : Timer α :=
  t.send (.cancel key)

def stop (t : Timer α) : Timer α :=
  t.send .stop

/-- Starts the wheel, where there is a runtime to run it, and obeys what has been queued. Only the first
start succeeds. -/
def start (t : Timer α) (hasRuntime : Bool) : Except Error (Timer α) :=
  if !hasRuntime then .error .noRuntime
  else
    match t.phase with
    | .waiting queue =>
      .ok { t with phase := queue.foldl obey (.running (.empty t.interval t.slotCount)) }
    | _ => .error .timerAlreadyStarted

/-- Whether a task waits under the key; nothing is known before the start. -/
def isScheduled (t : Timer α) (key : Bytes) : Option Bool :=
  match t.phase with
  | .waiting _ => none
  | .running w => some (w.contains key)
  | .stopped => some false

/-! ## Ticks -/

/-- One tick of the wheel, if it runs: the payloads that are due, in the order of booking. -/
def tick (t : Timer α) : Timer α × List α :=
  match t.phase with
  | .running w =>
    let (w, due) := w.tick
    ({ t with phase := .running w }, due.map (·.payload))
  | _ => (t, [])

def ticks (t : Timer α) : Nat → Timer α × List (List α)
  | 0 => (t, [])
  | n + 1 =>
    let (t, fired) := t.tick
    let (t, rest) := t.ticks n
    (t, fired :: rest)

def report (t : Timer α) : String :=
  s!"TimerWheel \x7b interval: {t.interval.text}, slot_count: {t.slotCount}, started: {t.started} \x7d"

end Timer

/-! ## Jobs -/

/-- What a failing callback leaves behind. -/
inductive Failure where
  | text (reason : String)
  /-- Something that is no text. -/
  | wordless
deriving DecidableEq, Repr

def Failure.reason : Failure → String
  | text reason => reason
  | wordless => "unknown panic"

/-- A callback known by a name: it records the name, and then may fail. -/
structure Job (α : Type) where
  name : α
  failure : Option Failure
deriving Repr

/-- What jobs leave behind. -/
structure Trace (α : Type) where
  names : List α
  /-- The reasons of the failures. -/
  log : List String

namespace Job

variable {α : Type}

def call (job : Job α) : ExceptT Failure (StateM (Trace α)) Unit := do
  modify fun t => { t with names := t.names ++ [job.name] }
  match job.failure with
  | some failure => throw failure
  | none => return ()

/-- Calls the job. A failure of it ends here, and is logged. -/
def dispatch (job : Job α) : StateM (Trace α) Unit := do
  match ← job.call.run with
  | .ok _ => return ()
  | .error failure => modify fun t => { t with log := t.log ++ [failure.reason] }

/-- Runs jobs in their order: the names they record, and the reasons that are logged. -/
def run (jobs : List (Job α)) : List α × List String :=
  let (_, trace) := (jobs.forM dispatch).run ⟨[], []⟩
  (trace.names, trace.log)

end Job

end KeyEngine
