import KeyEngine.Glob
import KeyEngine.Keyspace.Deadline

/-!
# Commands on values

Strings are stored and read; keys are counted, listed, deleted and renamed.
-/

namespace KeyEngine.Command

/-! ## Strings -/

/-- Stores a string, which clears the deadline. A sorted set is not overwritten. -/
def storeText (key value : Bytes) : Command Unit := do
  match ← lookup key with
  | some (.sortedSet _) => throw .wrongType
  | _ =>
    put key (.text value)
    discard <| dropDeadline key

def set (now : Nat) (key value : Bytes) : Command Unit := do
  discard <| checkLive now key
  storeText key value

def setFor (now : Nat) (key value : Bytes) (seconds : Nat) : Command Unit := do
  discard <| checkLive now key
  storeText key value
  discard <| setTtl now key seconds

def setNew (now : Nat) (key value : Bytes) : Command Bool := do
  discard <| checkLive now key
  editData (·.insertNew key (.text value))

def get (now : Nat) (key : Bytes) : Command (Option Bytes) := do
  discard <| checkLive now key
  match ← lookup key with
  | some (.text value) => return some value
  | some (.sortedSet _) => throw .wrongType
  | none => return none

/-! ## Keys -/

/-- Deletes keys, and answers how many had a value, due or not. -/
def delete : List Bytes → Command Nat
  | [] => return 0
  | key :: keys => do
    let removed ← removeKey key
    let rest ← delete keys
    return if removed then rest + 1 else rest

def isPresent (now : Nat) (key : Bytes) : Command Bool := do
  if ← checkLive now key then readData (·.contains key)
  else return false

/-- Answers how many of the keys exist, a repeated key each time. -/
def countPresent (now : Nat) : List Bytes → Command Nat
  | [] => return 0
  | key :: keys => do
    let present ← isPresent now key
    let rest ← countPresent now keys
    return if present then rest + 1 else rest

def matching (now : Nat) (pattern : Bytes) : List Bytes → Command (List Bytes)
  | [] => return []
  | key :: keys => do
    let live ← checkLive now key
    let rest ← matching now pattern keys
    return if live && (Glob.acceptsAll pattern || Glob.accepts pattern key) then key :: rest else rest

/-- The live keys that match the pattern, sorted. -/
def keys (now : Nat) (pattern : Bytes) : Command (List Bytes) := do
  matching now pattern (← getThe Keyspace).data.sortedKeys

def kind? (now : Nat) (key : Bytes) : Command (Option Kind) := do
  if ← checkLive now key then return (← lookup key).map Value.kind
  else return none

/-- Moves the value of a key, and its deadline with it, to another key, in place of what that key
held. -/
def rename (now : Nat) (source target : Bytes) : Command Unit := do
  if ← checkLive now source then
    discard <| checkLive now target
    match ← lookup source with
    | none => throw .keyNotFound
    | some value =>
      if source = target then return
      let deadline ← deadline? source
      discard <| removeKey source
      discard <| removeKey target
      put target value
      match deadline with
      | some time => discard <| expireAt now target time
      | none => return
  else throw .keyNotFound

def flush : Command Unit := do
  modify fun ks => { ks with data := ks.data.clear }
  clearDeadlines

end KeyEngine.Command
