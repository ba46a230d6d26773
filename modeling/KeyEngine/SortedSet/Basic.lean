import KeyEngine.SkipList.Edit
import Std.Data.HashMap

/-!
# Sorted sets

A sorted set gives scores to members and ranks the members by their scores. A table finds the node of
a member in the skip list that holds the entries.
-/

namespace KeyEngine

structure SortedSet where
  table : Std.HashMap Bytes Nat
  list : SkipList

namespace SortedSet

def empty (maxLevel : Nat) (towers : Towers) : SortedSet where
  table := ∅
  list := .empty maxLevel towers

def count (s : SortedSet) : Nat :=
  s.list.len

def isEmpty (s : SortedSet) : Bool :=
  s.list.isEmpty

def contains (s : SortedSet) (member : Bytes) : Bool :=
  s.table.contains member

def score? (s : SortedSet) (member : Bytes) : Option Score := do
  let id ← s.table[member]?
  s.list.score? id

def toList (s : SortedSet) : List Entry :=
  s.list.toList.map (·.2)

def entries (s : SortedSet) (ids : List Nat) : List Entry :=
  ids.filterMap s.list.entry?

/-- The number of members before this one. -/
def rank (s : SortedSet) (member : Bytes) : Except Fault (Option Nat) :=
  match s.table[member]? with
  | none => return none
  | some id => do
    let rank ← s.list.rankOf id
    return rank.map (· - 1)

/-- The number of members after this one. -/
def revRank (s : SortedSet) (member : Bytes) : Except Fault (Option Nat) :=
  match s.table[member]? with
  | none => return none
  | some id => do
    let rank ← s.list.rankOf id
    return rank.map (s.list.len - ·)

/-! ## Adding -/

def insert (s : SortedSet) (score : Score) (member : Bytes) : Except Fault (SortedSet × Bool) :=
  if score.isNaN then throw .scoreNaN
  else
    match s.table[member]? with
    | some id => do
      let list ← s.list.updateScore id score
      return ({ s with list := list }, false)
    | none => do
      let (list, id) ← s.list.insert ⟨score, member⟩
      return ({ table := s.table.insert member id, list := list }, true)

/-- Inserts entries one after another and counts the members that are new. A fault ends it, and leaves
what was inserted before. -/
def add (s : SortedSet) : List Entry → SortedSet × Except Fault Nat
  | [] => (s, return 0)
  | e :: es =>
    match s.insert e.score e.member with
    | .error fault => (s, throw fault)
    | .ok (s, isNew) =>
      let (s, added) := s.add es
      (s, added.map fun n => if isNew then n + 1 else n)

/-- Adds to the score of the member, zero if there is none, and answers the sum. -/
def increase (s : SortedSet) (member : Bytes) (delta : Score) : Except Fault (SortedSet × Score) := do
  let score := ((s.score? member).getD .zero).add delta
  let (s, _) ← s.insert score member
  return (s, score)

end SortedSet

end KeyEngine
