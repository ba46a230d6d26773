import KeyEngine.Keyspace.Deadline

/-!
# Commands on one sorted set

A key without a value reads as a set without members. A set that loses its last member is removed with
its deadline, so no empty set is ever stored.
-/

namespace KeyEngine

structure AddFlags where
  /-- Members that are there keep their scores. -/
  onlyNew : Bool := false
  /-- Members that are not there are not added. -/
  onlyOld : Bool := false
  /-- Changed scores are counted besides new members. -/
  countChanged : Bool := false
deriving DecidableEq, Repr

/-- How many members were new, and how many others got another score. -/
structure Tally where
  added : Nat
  updated : Nat
deriving DecidableEq, Repr

/-- Adds one entry as far as the flags allow. -/
def SortedSet.addOne (flags : AddFlags) (s : SortedSet) (e : Entry) :
    Except Fault (SortedSet × Tally) :=
  match s.score? e.member with
  | none =>
    if flags.onlyOld then return (s, ⟨0, 0⟩)
    else do
      let (s, _) ← s.insert e.score e.member
      return (s, ⟨1, 0⟩)
  | some current =>
    if flags.onlyNew || current.same e.score then return (s, ⟨0, 0⟩)
    else do
      let (s, _) ← s.insert e.score e.member
      return (s, ⟨0, 1⟩)

def SortedSet.addWith (flags : AddFlags) (s : SortedSet) :
    List Entry → Except Fault (SortedSet × Tally)
  | [] => return (s, ⟨0, 0⟩)
  | e :: es => do
    let (s, first) ← s.addOne flags e
    let (s, rest) ← s.addWith flags es
    return (s, ⟨first.added + rest.added, first.updated + rest.updated⟩)

/-- A window of a score range: a negative offset or a count of zero selects nothing, a negative count
all that follows the offset. -/
structure Page where
  offset : Int
  count : Int
deriving DecidableEq, Repr

def Page.limit? (p : Page) : Option SortedSet.Limit :=
  if p.offset < 0 ∨ p.count = 0 then none
  else some ⟨p.offset.toNat, if p.count < 0 then none else some p.count.toNat⟩

/-- Without a page the whole range is selected. -/
def Page.limitOf? : Option Page → Option SortedSet.Limit
  | none => some ⟨0, none⟩
  | some p => p.limit?

namespace Command

variable {α : Type}

/-- Reads the sorted set of a key; the answer without one is given. -/
def readSet (now : Nat) (key : Bytes) (empty : α) (f : SortedSet → Except Fault α) : Command α := do
  discard <| checkLive now key
  match ← lookupSet key with
  | some s => ofFault (f s)
  | none => return empty

/-- Changes the sorted set of a key, and removes the key if the set is left empty. -/
def editSet (now : Nat) (key : Bytes) (empty : α) (f : SortedSet → Except Fault (SortedSet × α)) :
    Command α := do
  discard <| checkLive now key
  match ← lookupSet key with
  | some s =>
    let (s, answer) ← ofFault (f s)
    if s.isEmpty then discard <| removeKey key
    else put key (.sortedSet s)
    return answer
  | none => return empty

def lookupOrFresh (key : Bytes) : Command SortedSet := do
  match ← lookupSet key with
  | some s => return s
  | none => freshSet

/-! ## Adding -/

/-- Adds entries to the sorted set of a key one after another. Answers the number of new members, or of
new and changed ones. -/
def addMembers (now : Nat) (key : Bytes) (items : List Entry) (flags : AddFlags) : Command Nat := do
  if flags.onlyNew && flags.onlyOld then throw .syntaxError
  if items.any (·.score.isNaN) then throw .notAFloat
  discard <| checkLive now key
  let s ← lookupOrFresh key
  let (s, tally) ← ofFault (s.addWith flags items)
  if !s.isEmpty then put key (.sortedSet s)
  return if flags.countChanged then tally.added + tally.updated else tally.added

def increase (now : Nat) (key : Bytes) (delta : Score) (member : Bytes) : Command Score := do
  if delta.isNaN then throw .notAFloat
  discard <| checkLive now key
  let s ← lookupOrFresh key
  let score := ((s.score? member).getD .zero).add delta
  if score.isNaN then throw .overflow
  let (s, _) ← ofFault (s.insert score member)
  put key (.sortedSet s)
  return score

/-! ## Reading -/

def count (now : Nat) (key : Bytes) : Command Nat :=
  readSet now key 0 fun s => return s.count

def score? (now : Nat) (key member : Bytes) : Command (Option Score) :=
  readSet now key none fun s => return s.score? member

def rank? (now : Nat) (key member : Bytes) : Command (Option Nat) :=
  readSet now key none (·.rank member)

def revRank? (now : Nat) (key member : Bytes) : Command (Option Nat) :=
  readSet now key none (·.revRank member)

def range (now : Nat) (key : Bytes) (start stop : Int) : Command (List Entry) :=
  readSet now key [] (·.range start stop)

def revRange (now : Nat) (key : Bytes) (start stop : Int) : Command (List Entry) :=
  readSet now key [] (·.revRange start stop)

def scoreRange (now : Nat) (key : Bytes) (r : ScoreRange) (page : Option Page) :
    Command (List Entry) :=
  readSet now key [] fun s =>
    match Page.limitOf? page with
    | some limit => s.scoreRangeLimit r limit
    | none => return []

def revScoreRange (now : Nat) (key : Bytes) (r : ScoreRange) (page : Option Page) :
    Command (List Entry) :=
  readSet now key [] fun s =>
    match Page.limitOf? page with
    | some limit => s.revScoreRangeLimit r limit
    | none => return []

def countInRange (now : Nat) (key : Bytes) (r : ScoreRange) : Command Nat :=
  readSet now key 0 (·.countInRange r)

/-! ## Removing -/

def removeMembers (now : Nat) (key : Bytes) (members : List Bytes) : Command Nat :=
  editSet now key 0 (·.remove members)

def removeRange (now : Nat) (key : Bytes) (start stop : Int) : Command Nat :=
  editSet now key 0 (·.removeRange start stop)

def removeScoreRange (now : Nat) (key : Bytes) (r : ScoreRange) : Command Nat :=
  editSet now key 0 (·.removeScoreRange r)

def popMin (now : Nat) (key : Bytes) (n : Nat) : Command (List Entry) :=
  editSet now key [] (·.popMin n)

def popMax (now : Nat) (key : Bytes) (n : Nat) : Command (List Entry) :=
  editSet now key [] (·.popMax n)

end Command

end KeyEngine
