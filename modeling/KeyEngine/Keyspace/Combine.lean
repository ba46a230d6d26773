import KeyEngine.Keyspace.Members

/-!
# Commands on several sorted sets

Sets are combined to their difference, their union or their intersection. The result is answered, or
stored in place of what a destination held. Scores are weighted and added up without ever ceasing to be
numbers.
-/

namespace KeyEngine

inductive Aggregate where
  | sum
  | min
  | max
deriving DecidableEq, Repr

/-- A sum that is no number, of infinities of both signs, counts as zero. -/
def Aggregate.apply : Aggregate → Score → Score → Score
  | sum, a, b => (a.add b).zeroIfNaN
  | min, a, b => a.min b
  | max, a, b => a.max b

/-- A product that is no number, of zero and an infinity, counts as zero. -/
def Score.weighted (s weight : Score) : Score :=
  (s.mul weight).zeroIfNaN

namespace SortedSet

/-! ## Difference -/

/-- The entries of a set whose members are in none of the others. -/
def without (s : SortedSet) (others : List SortedSet) : List Entry :=
  s.toList.filter fun e => others.all fun other => !other.contains e.member

/-! ## Union -/

def accumulate (agg : Aggregate) (totals : Std.HashMap Bytes Score) (weight : Score) (s : SortedSet) :
    Std.HashMap Bytes Score :=
  s.toList.foldl
    (fun totals e =>
      let weighted := e.score.weighted weight
      totals.insert e.member <| match totals[e.member]? with
        | some total => agg.apply total weighted
        | none => weighted)
    totals

/-- The total score of each member of a set, the weighted scores combined in the order of the sets. -/
def unionTotals (agg : Aggregate) (sets : List (SortedSet × Score)) : List Entry :=
  let totals := sets.foldl (fun totals (s, weight) => accumulate agg totals weight s) ∅
  totals.toList.map fun (member, score) => ⟨score, member⟩

/-! ## Intersection -/

/-- The total score of a member over further sets, if it is in all of them. -/
def totalOver (agg : Aggregate) (member : Bytes) : Score → List (SortedSet × Score) → Option Score
  | total, [] => some total
  | total, (s, weight) :: sets =>
    match s.score? member with
    | some score => totalOver agg member (agg.apply total (score.weighted weight)) sets
    | none => none

/-- The total score of each member of all the sets. -/
def interTotals (agg : Aggregate) : List (SortedSet × Score) → List Entry
  | [] => []
  | (s, weight) :: sets =>
    s.toList.filterMap fun e =>
      (totalOver agg e.member (e.score.weighted weight) sets).map (⟨·, e.member⟩)

end SortedSet

namespace Command

/-- One weight for each key, all of them numbers; one each if none are given. -/
def weightsFor (keys : List Bytes) : Option (List Score) → Except Error (List Score)
  | none => return List.replicate keys.length .one
  | some weights =>
    if weights.length ≠ keys.length then throw .syntaxError
    else if weights.any Score.isNaN then throw .notAFloat
    else return weights

def lookupSets (keys : List Bytes) : Command (List (Option SortedSet)) :=
  keys.mapM lookupSet

def setOf (entries : List Entry) : Command SortedSet := do
  let s ← freshSet
  let (s, added) := s.add entries
  discard <| ofFault added
  return s

/-! ## Results -/

/-- The members of the first set that are in no other. Where the first key has no value, the others are
not looked at. -/
def difference : List Bytes → Command SortedSet
  | [] => setOf []
  | key :: keys => do
    match ← lookupSet key with
    | none => setOf []
    | some s =>
      let others ← lookupSets keys
      setOf (s.without (others.filterMap id))

def union (keys : List Bytes) (weights : Option (List Score)) (agg : Aggregate) :
    Command SortedSet := do
  let weights ← weightsFor keys weights
  let sets ← lookupSets keys
  setOf <| SortedSet.unionTotals agg <|
    (sets.zip weights).filterMap fun (s, weight) => s.map (·, weight)

/-- Members of every set. A key without a value leaves none. -/
def intersection (keys : List Bytes) (weights : Option (List Score)) (agg : Aggregate) :
    Command SortedSet := do
  let weights ← weightsFor keys weights
  let sets ← lookupSets keys
  match sets.mapM id with
  | none => setOf []
  | some sets => setOf (SortedSet.interTotals agg (sets.zip weights))

/-! ## Answering and storing -/

/-- At least one key has to be given; all of them are purged if due. -/
def checkOperands (now : Nat) (keys : List Bytes) (more : List Bytes) : Command Unit := do
  if keys.isEmpty then throw .syntaxError
  checkAll now (keys ++ more)

/-- Puts a set in place of what the key held, and answers its size. An empty set leaves no key. -/
def storeSet (key : Bytes) (s : SortedSet) : Command Nat := do
  discard <| removeKey key
  if !s.isEmpty then put key (.sortedSet s)
  return s.count

def answer (now : Nat) (keys : List Bytes) (result : Command SortedSet) : Command (List Entry) := do
  checkOperands now keys []
  return (← result).toList

def store (now : Nat) (dest : Bytes) (keys : List Bytes) (result : Command SortedSet) :
    Command Nat := do
  checkOperands now keys [dest]
  storeSet dest (← result)

end Command

end KeyEngine
