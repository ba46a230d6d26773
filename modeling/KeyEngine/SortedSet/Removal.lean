import KeyEngine.SortedSet.Range

/-!
# Removal from a sorted set

Members are removed by name, by rank, by score, or from either end. Neighbours are removed together, by
one search.
-/

namespace KeyEngine.SortedSet

/-- Removes members, and answers how many of them there were. -/
def remove (s : SortedSet) : List Bytes → Except Fault (SortedSet × Nat)
  | [] => return (s, 0)
  | member :: members =>
    match s.table[member]? with
    | none => s.remove members
    | some id => do
      let (list, _) ← s.list.remove id
      let (s, removed) ← remove { table := s.table.erase member, list := list } members
      return (s, removed + 1)

/-- Removes the entries of a run of neighbours, and answers them. -/
def popRun (s : SortedSet) (ids : List Nat) : Except Fault (SortedSet × List Entry) := do
  let (list, removed) ← s.list.removeRun ids
  let popped := removed.filterMap id
  return ({ table := popped.foldl (·.erase ·.member) s.table, list := list }, popped)

def removeRange (s : SortedSet) (start stop : Int) : Except Fault (SortedSet × Nat) :=
  match window start stop s.count with
  | none => return (s, 0)
  | some (start, stop) => do
    let (s, popped) ← s.popRun (← s.list.rankRange (start + 1) (stop + 1))
    return (s, popped.length)

def removeScoreRange (s : SortedSet) (r : ScoreRange) : Except Fault (SortedSet × Nat) := do
  let (s, popped) ← s.popRun (← s.list.scoreRange r)
  return (s, popped.length)

/-- Removes at most `n` lowest members, and answers them, the lowest first. -/
def popMin (s : SortedSet) (n : Nat) : Except Fault (SortedSet × List Entry) := do
  s.popRun (← s.list.rankRange 1 n)

/-- Removes at most `n` highest members, and answers them, the highest first. -/
def popMax (s : SortedSet) (n : Nat) : Except Fault (SortedSet × List Entry) :=
  if n = 0 ∨ s.count = 0 then return (s, [])
  else do
    let (s, popped) ← s.popRun (← s.list.rankRange (s.count - n + 1) s.count)
    return (s, popped.reverse)

end KeyEngine.SortedSet
