import KeyEngine.Bytes

/-!
# Causes of failure

Absence is never a failure: a missing key or member is an empty answer. An `Error` is a condition a
caller has to tell apart from a miss, and a `Fault` is a broken promise of the caller or of a data
structure.
-/

namespace KeyEngine

inductive Fault where
  /-- A node that holds no entry was used as if it held one. -/
  | notLive (node : Nat)
  /-- A node or the head has no link on the level. -/
  | missingLink (level : Nat)
  /-- A span or a length would go below zero. -/
  | negativeSpan
  /-- A level comes back to a node it has passed. -/
  | endlessLevel (level : Nat)
  /-- A score that is not a number was offered to a sorted set. -/
  | scoreNaN
deriving DecidableEq, Repr

def Fault.message : Fault → String
  | .notLive node => s!"skip list node NodeId({node}) is not live"
  | .missingLink level => s!"skip list link on level {level} is missing"
  | .negativeSpan => "skip list span is below zero"
  | .endlessLevel level => s!"skip list level {level} does not end"
  | .scoreNaN => "sorted set scores must not be NaN"

inductive Error where
  /-- No slot can be chosen for the key. -/
  | unroutable (key : Bytes)
  | wrongType
  | keyNotFound
  | notAFloat
  | syntaxError
  /-- A sum of scores is not a number. -/
  | overflow
  | noRuntime
  | timerAlreadyStarted
  | fault (cause : Fault)
deriving DecidableEq, Repr

def Error.message : Error → String
  | .unroutable key => "cannot route key " ++ key.quoted ++ " to a shard"
  | .wrongType => "WRONGTYPE Operation against a key holding the wrong kind of value"
  | .keyNotFound => "no such key"
  | .notAFloat => "value is not a valid float"
  | .syntaxError => "syntax error"
  | .overflow => "resulting score is not a number (NaN)"
  | .noRuntime => "no Tokio runtime available to start the timer wheel"
  | .timerAlreadyStarted => "timer wheel already started"
  | .fault cause => cause.message

end KeyEngine
