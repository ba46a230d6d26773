import KeyEngine.Locks
import KeyEngine.SortedSet.Removal
import KeyEngine.Store
import KeyEngine.Timer

/-!
# Keyspace

A keyspace holds strings and sorted sets under keys. A key may have a deadline, recorded beside the
values, and a timer that has a task for each deadline. A command reads and changes the keyspace; what
it has changed before it fails stays changed.
-/

namespace KeyEngine

inductive Kind where
  | text
  | sortedSet
deriving DecidableEq, Repr

def Kind.name : Kind → String
  | text => "string"
  | sortedSet => "zset"

inductive Value where
  | text (bytes : Bytes)
  | sortedSet (set : SortedSet)

def Value.kind : Value → Kind
  | text _ => .text
  | sortedSet _ => .sortedSet

structure Keyspace where
  config : Config
  data : Store Value
  /-- The deadlines of keys, in milliseconds of the clock. -/
  deadlines : Store Nat
  timer : Timer Bytes
  locks : LockTable
  /-- The towers of each set to be made. -/
  supply : Nat → Towers
  made : Nat

namespace Keyspace

/-- A keyspace without keys, its timer not started. -/
def new (config : Config) (supply : Nat → Towers) : Keyspace :=
  let config := config.normalized
  { config := config
    data := .empty config.shards
    deadlines := .empty config.shards
    timer := .new config.interval config.slots
    locks := .empty config.stripes
    supply := supply
    made := 0 }

def standard : Keyspace :=
  new .standard Towers.seeded

/-- The number of keys, those past their deadline included. -/
def size (ks : Keyspace) : Nat :=
  ks.data.count

def start (ks : Keyspace) (hasRuntime : Bool) : Except Error Keyspace := do
  let timer ← ks.timer.start hasRuntime
  return { ks with timer := timer }

def stop (ks : Keyspace) : Keyspace :=
  { ks with timer := ks.timer.stop }

def report (ks : Keyspace) : String :=
  s!"Keyspace \x7b keys: {ks.data.count}, shards: {ks.data.shardCount}, " ++
  s!"lock_stripes: {ks.locks.size}, expiry: ExpirationService \x7b " ++
  s!"ttl_keys: {ks.deadlines.count}, wheel: {ks.timer.report} \x7d \x7d"

end Keyspace

/-! ## Commands -/

abbrev Command (α : Type) := ExceptT Error (StateM Keyspace) α

namespace Keyspace

variable {α β : Type}

/-- Carries out a command: the answer or the cause of its failure, and the keyspace after it. -/
def run (ks : Keyspace) (command : Command α) : Except Error α × Keyspace :=
  (ExceptT.run command).run ks

@[simp] theorem run_pure (ks : Keyspace) (a : α) : ks.run (pure a) = (.ok a, ks) := rfl

@[simp] theorem run_throw (ks : Keyspace) (e : Error) :
    ks.run (throw e : Command α) = (.error e, ks) := rfl

theorem run_bind (ks : Keyspace) (c : Command α) (f : α → Command β) :
    ks.run (c >>= f) =
      match ks.run c with
      | (.ok a, ks) => ks.run (f a)
      | (.error e, ks) => (.error e, ks) := by
  simp only [run, ExceptT.run_bind, StateT.run_bind]
  show (match (ExceptT.run c).run ks with | (a, s) => _) = _
  rcases (ExceptT.run c).run ks with ⟨_ | _, _⟩ <;> rfl

end Keyspace

namespace Command

variable {α : Type}

def ofFault (result : Except Fault α) : Command α :=
  match result with
  | .ok a => return a
  | .error fault => throw (.fault fault)

def readData (f : Store Value → Except Error α) : Command α := do
  f (← get).data

def editData (f : Store Value → Except Error (Store Value × α)) : Command α := do
  let ks ← get
  let (data, answer) ← f ks.data
  set { ks with data := data }
  return answer

def readDeadlines (f : Store Nat → Except Error α) : Command α := do
  f (← get).deadlines

def editDeadlines (f : Store Nat → Except Error (Store Nat × α)) : Command α := do
  let ks ← get
  let (deadlines, answer) ← f ks.deadlines
  set { ks with deadlines := deadlines }
  return answer

def editTimer (f : Timer Bytes → Timer Bytes) : Command Unit :=
  modify fun ks => { ks with timer := f ks.timer }

def freshSet : Command SortedSet := do
  let ks ← get
  set { ks with made := ks.made + 1 }
  return .empty ks.config.maxLevel (ks.supply ks.made)

def lookup (key : Bytes) : Command (Option Value) :=
  readData (·.get? key)

def put (key : Bytes) (value : Value) : Command Unit := do
  discard <| editData (·.insert key value)

def lookupSet (key : Bytes) : Command (Option SortedSet) := do
  match ← lookup key with
  | some (.sortedSet s) => return some s
  | some (.text _) => throw .wrongType
  | none => return none

end Command

end KeyEngine
