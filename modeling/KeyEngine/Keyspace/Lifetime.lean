import KeyEngine.Keyspace.Deadline

/-!
# Commands on lifetimes

A key is given a deadline under a condition on the deadline it has, loses it, or is asked how long it
has left.
-/

namespace KeyEngine

inductive ExpireCondition where
  | always
  /-- Only where there is no deadline. -/
  | unset
  /-- Only where there is a deadline. -/
  | present
  /-- Only to a later deadline than there is. -/
  | later
  /-- Only to an earlier deadline than there is. -/
  | earlier
deriving DecidableEq, Repr

/-- A key without a deadline counts as one that lasts for ever. -/
def ExpireCondition.allows (condition : ExpireCondition) (current : Option Nat) (time : Nat) : Bool :=
  match condition, current with
  | always, _ => true
  | unset, current => current.isNone
  | present, current => current.isSome
  | later, some at' => at' < time
  | later, none => false
  | earlier, some at' => time < at'
  | earlier, none => true

inductive Lifetime where
  | missing
  | persistent
  | remaining (millis : Nat)
deriving DecidableEq, Repr

/-- Whole seconds left; minus one without a deadline, minus two without a key. -/
def Lifetime.seconds : Lifetime → Int
  | missing => -2
  | persistent => -1
  | remaining millis => (millis / 1000 : Nat)

namespace Command

/-- Sets the deadline of a live key if the condition allows it, and answers whether it did. -/
def expireMillis (now : Nat) (key : Bytes) (millis : Nat) (condition : ExpireCondition) :
    Command Bool := do
  if ← checkLive now key then
    if ← readData (·.contains key) then
      let time := laterBy now millis
      if condition.allows (← deadline? key) time then expireAt now key time
      else return false
    else return false
  else return false

def expire (now : Nat) (key : Bytes) (seconds : Nat) (condition : ExpireCondition) : Command Bool :=
  expireMillis now key (millisOfSeconds seconds) condition

def persist (now : Nat) (key : Bytes) : Command Bool := do
  if ← checkLive now key then dropDeadline key
  else return false

def lifetime (now : Nat) (key : Bytes) : Command Lifetime := do
  if ← checkLive now key then
    if ← readData (·.contains key) then
      match ← remaining now key with
      | some millis => return .remaining millis
      | none => return .persistent
    else return .missing
  else return .missing

end Command

end KeyEngine
