import KeyEngine.Keyspace.Basic

/-!
# Deadlines

A key past its deadline is purged, value and record together, either when a command looks at it or when
the timer fires the task booked for it. Times are milliseconds of a clock that stands still during a
command.
-/

namespace KeyEngine

/-- Time counts up to what a word can hold. -/
def laterBy (now millis : Nat) : Nat :=
  min (now + millis) wordMax

def millisOfSeconds (seconds : Nat) : Nat :=
  min (seconds * 1000) wordMax

namespace Command

def deadline? (key : Bytes) : Command (Option Nat) :=
  readDeadlines (·.get? key)

def isDue (now : Nat) (key : Bytes) : Command Bool := do
  return (← deadline? key).any (· ≤ now)

/-- Removes the key, value and record, if it is due. Answers whether it was. -/
def purgeIfDue (now : Nat) (key : Bytes) : Command Bool := do
  if ← isDue now key then
    discard <| editData (·.erase key)
    discard <| editDeadlines (·.erase key)
    return true
  else return false

/-- Purges the key if it is due, its task included. Answers whether the key may be used. -/
def checkLive (now : Nat) (key : Bytes) : Command Bool := do
  if ← purgeIfDue now key then
    editTimer (·.cancel key)
    return false
  else return true

def checkAll (now : Nat) (keys : List Bytes) : Command Unit :=
  keys.forM fun key => discard <| checkLive now key

/-- Sets the deadline of a key that has a value, and books the task for it in place of an earlier one.
Answers whether there is a value. -/
def expireAt (now : Nat) (key : Bytes) (time : Nat) : Command Bool := do
  if ← readData (·.contains key) then
    discard <| editDeadlines (·.insert key time)
    editTimer (·.add (.ofMillis (time - now)) (some key) key)
    return true
  else return false

def setTtlMillis (now : Nat) (key : Bytes) (millis : Nat) : Command Bool :=
  expireAt now key (laterBy now millis)

def setTtl (now : Nat) (key : Bytes) (seconds : Nat) : Command Bool :=
  setTtlMillis now key (millisOfSeconds seconds)

/-- Removes the deadline of the key and its task. Answers whether there was one. -/
def dropDeadline (key : Bytes) : Command Bool := do
  let removed ← editDeadlines (·.erase key)
  if removed then editTimer (·.cancel key)
  return removed

/-- The milliseconds left until the deadline of the key. -/
def remaining (now : Nat) (key : Bytes) : Command (Option Nat) := do
  return (← deadline? key).map (· - now)

def clearDeadlines : Command Unit := do
  let keys := (← get).deadlines.sortedKeys
  keys.forM fun key => editTimer (·.cancel key)
  modify fun ks => { ks with deadlines := ks.deadlines.clear }

/-- Removes the key, value and deadline. Answers whether it had a value. -/
def removeKey (key : Bytes) : Command Bool := do
  discard <| dropDeadline key
  editData (·.erase key)

end Command

/-! ## Ticks -/

/-- What came of a task that the timer fired. -/
inductive Outcome where
  | removed
  | idle
  | failed (cause : Error)
deriving DecidableEq, Repr

namespace Keyspace

def fire (now : Nat) (ks : Keyspace) (key : Bytes) : Keyspace × Outcome :=
  match ks.run (Command.purgeIfDue now key) with
  | (.ok true, ks) => (ks, .removed)
  | (.ok false, ks) => (ks, .idle)
  | (.error cause, ks) => (ks, .failed cause)

def fireAll (now : Nat) : List Bytes → Keyspace → Keyspace × List (Bytes × Outcome)
  | [], ks => (ks, [])
  | key :: keys, ks =>
    let (ks, outcome) := ks.fire now key
    let (ks, outcomes) := fireAll now keys ks
    (ks, (key, outcome) :: outcomes)

/-- One tick of the timer, and the tasks that it fires. A pool of threads would run them beside later commands, each
at a reading of the clock of its own; here they all run within the tick and at its reading. -/
def tick (now : Nat) (ks : Keyspace) : Keyspace × List (Bytes × Outcome) :=
  let (timer, keys) := ks.timer.tick
  fireAll now keys { ks with timer := timer }

def ticks (now : Nat) : Nat → Keyspace → Keyspace × List (List (Bytes × Outcome))
  | 0, ks => (ks, [])
  | n + 1, ks =>
    let (ks, outcomes) := ks.tick now
    let (ks, rest) := ticks now n ks
    (ks, outcomes :: rest)

end Keyspace

end KeyEngine
