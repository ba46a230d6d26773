import KeyEngine.Config
import KeyEngine.Routing

/-!
# Stripes

A table of read-write locks. A key is locked by locking its stripe; several keys are locked by taking
their stripes, each once, in ascending order. A stripe is free, shared by some holders, or held by one
alone.
-/

namespace KeyEngine

inductive LockMode where
  | shared
  | exclusive
deriving DecidableEq, Repr

inductive StripeState where
  /-- So many holders share the stripe; none when it is free. -/
  | shared (holders : Nat)
  | exclusive
deriving DecidableEq, Repr

namespace StripeState

def free : StripeState := .shared 0

/-- The state after one more holder, unless that holder has to wait. -/
def acquire : LockMode → StripeState → Option StripeState
  | .shared, .shared n => some (.shared (n + 1))
  | .exclusive, .shared 0 => some .exclusive
  | _, _ => none

/-- The state after a holder in the given mode is gone. -/
def release : LockMode → StripeState → StripeState
  | .shared, .shared n => .shared (n - 1)
  | .exclusive, .exclusive => free
  | _, s => s

def isHeld : StripeState → Bool
  | .shared n => n ≠ 0
  | .exclusive => true

end StripeState

/-- A hold on some stripes, ascending, all in one mode. -/
structure Guard where
  mode : LockMode
  stripes : List Nat
deriving DecidableEq, Repr

@[ext]
structure LockTable where
  stripes : Array StripeState
  router : Router
deriving Repr

namespace LockTable

def empty (n : Nat) : LockTable where
  stripes := Array.replicate (Config.clampShards n) .free
  router := ⟨Config.clampShards n⟩

def size (t : LockTable) : Nat :=
  t.stripes.size

def stripe (t : LockTable) (key : Bytes) : Except Error Nat :=
  t.router.route key

/-- Puts the stripe at its place in an ascending list, unless it is there. -/
def insertStripe (i : Nat) : List Nat → List Nat
  | [] => [i]
  | j :: js => if i < j then i :: j :: js else if i = j then j :: js else j :: insertStripe i js

/-- The stripes of the keys, each once, ascending. -/
def stripesOf (t : LockTable) : List Bytes → Except Error (List Nat)
  | [] => .ok []
  | key :: keys => do
    let i ← t.stripe key
    let rest ← t.stripesOf keys
    return insertStripe i rest

/-- Takes the stripes one after another; nothing at all if one of them would have to be waited for. -/
def acquire (t : LockTable) (mode : LockMode) : List Nat → Option LockTable
  | [] => some t
  | i :: is => do
    let state ← t.stripes[i]?
    let state ← state.acquire mode
    LockTable.acquire { t with stripes := t.stripes.setIfInBounds i state } mode is

def release (t : LockTable) (g : Guard) : LockTable :=
  { t with stripes := g.stripes.foldl (fun stripes i => stripes.modify i (·.release g.mode)) t.stripes }

def isLocked (t : LockTable) (key : Bytes) : Except Error Bool := do
  let i ← t.stripe key
  return t.stripes[i]?.any (·.isHeld)

def report (t : LockTable) : String :=
  s!"KeyLocks \x7b stripes: {t.size} \x7d"

end LockTable

/-! ## Holders -/

/-- A table together with the guards that are held, each under a name. -/
structure Holders where
  table : LockTable
  guards : List (String × Guard)

namespace Holders

def empty (n : Nat) : Holders := ⟨.empty n, []⟩

/-- Drops the guard of that name, and answers whether there was one. -/
def release (h : Holders) (name : String) : Holders × Bool :=
  match h.guards.lookup name with
  | some g => (⟨h.table.release g, h.guards.eraseP (·.1 = name)⟩, true)
  | none => (h, false)

/-- Locks the keys and keeps the guard under the name, in place of an earlier guard of that name, which
is dropped afterwards. Answers the stripes taken, or nothing if it would have to wait. -/
def lock (h : Holders) (name : String) (mode : LockMode) (keys : List Bytes) :
    Except Error (Holders × Option (List Nat)) := do
  let stripes ← h.table.stripesOf keys
  match h.table.acquire mode stripes with
  | none => return (h, none)
  | some table =>
    let (h, _) := Holders.release { h with table := table } name
    return ({ h with guards := (name, ⟨mode, stripes⟩) :: h.guards }, some stripes)

end Holders

end KeyEngine
