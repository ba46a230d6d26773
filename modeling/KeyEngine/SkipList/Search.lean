import KeyEngine.Score.Bound
import KeyEngine.SkipList.Basic

/-!
# Searching a skip list

Every search walks a level as far as a test holds of the nodes ahead and then goes down one level. Where
it stops on each level, and the rank it has there, answers all questions about ranks and ranges.
-/

namespace KeyEngine

/-- Where a search stopped on a level: the place, its rank, and the link it did not follow. -/
structure Stop where
  place : Place
  rank : Nat
  link : Link
deriving DecidableEq, Repr

namespace SkipList

/-- Walks level `i` from a place of the given rank while the test holds of the rank, the slot and the
node ahead. The fuel bounds the links looked at. -/
def walk (l : SkipList) (test : Nat → Nat → Node → Bool) (i : Nat) :
    Nat → Place → Nat → Except Fault Stop
  | 0, _, _ => throw (.endlessLevel i)
  | fuel + 1, p, rank => do
    let link ← l.link p i
    match link.target with
    | none => return ⟨p, rank, link⟩
    | some id =>
      let node ← l.node id
      if test (rank + link.span) id node then
        l.walk test i fuel (.node id) (rank + link.span)
      else return ⟨p, rank, link⟩

/-- Walks the levels below `n` from the highest to the lowest, and puts the stop of each in front of
those that are there. -/
def descend (l : SkipList) (test : Nat → Nat → Node → Bool) :
    Nat → Place → Nat → List Stop → Except Fault (List Stop)
  | 0, _, _, stops => return stops
  | i + 1, p, rank, stops => do
    let stop ← l.walk test i (l.nodes.size + 1) p rank
    l.descend test i stop.place stop.rank (stop :: stops)

/-- The stops of a search from the head, that of the lowest level first. -/
def search (l : SkipList) (test : Nat → Nat → Node → Bool) : Except Fault (List Stop) :=
  l.descend test l.level .head 0 []

def seek (l : SkipList) (test : Nat → Nat → Node → Bool) : Except Fault Stop := do
  match ← l.search test with
  | stop :: _ => return stop
  | [] => throw (.missingLink 0)

/-- The slots of at most `n` nodes along the lowest level, while the test holds of them. -/
def follow (l : SkipList) (test : Node → Bool) : Nat → Option Nat → Except Fault (List Nat)
  | n + 1, some id => do
    let node ← l.node id
    if test node then
      let rest ← l.follow test n node.next
      return id :: rest
    else return []
  | _, _ => return []

/-! ## Ranks -/

/-- The rank of a node, from one upwards: the stop of the highest level on which the search has the
node ahead settles it. -/
def rankOf (l : SkipList) (id : Nat) : Except Fault (Option Nat) :=
  match l.node? id with
  | none => return none
  | some target => do
    let stops ← l.search fun _ ahead node => ahead ≠ id && node.entry.before target.entry
    let stop := stops.reverse.find? (·.link.target = some id)
    return stop.map fun s => s.rank + s.link.span

def nodeAtRank (l : SkipList) (rank : Nat) : Except Fault (Option Nat) :=
  if rank = 0 ∨ l.len < rank then return none
  else do
    let stops ← l.search fun r _ _ => r ≤ rank
    return (stops.reverse.find? (·.rank = rank)).bind (·.place.id?)

/-- The nodes with ranks from `left` to `right`, or to the last one. -/
def rankRange (l : SkipList) (left right : Nat) : Except Fault (List Nat) :=
  if l.len = 0 ∨ left = 0 ∨ right < left ∨ l.len < left then return []
  else do
    let start ← l.nodeAtRank left
    l.follow (fun _ => true) (min right l.len - left + 1) start

/-! ## Scores -/

/-- Neither the ends of the range nor the first and the last score exclude that a score lies in it. -/
def overlaps (l : SkipList) (r : ScoreRange) : Except Fault Bool :=
  if r.isEmpty then return false
  else
    match l.first, l.last with
    | some first, some last => do
      let lo ← l.node first
      let hi ← l.node last
      return !r.isAbove lo.entry.score && r.min.admitsFromBelow hi.entry.score
    | _, _ => return false

def belowRange (r : ScoreRange) (node : Node) : Bool :=
  !r.min.admitsFromBelow node.entry.score

def notAbove (r : ScoreRange) (node : Node) : Bool :=
  !r.isAbove node.entry.score

def scoreRange (l : SkipList) (r : ScoreRange) : Except Fault (List Nat) := do
  if ← l.overlaps r then
    let stop ← l.seek fun _ _ node => belowRange r node
    l.follow (notAbove r) l.nodes.size stop.link.target
  else return []

/-- The ranks of the first and the last node whose score lies in the range. -/
def rankBounds (l : SkipList) (r : ScoreRange) : Except Fault (Option (Nat × Nat)) := do
  if ← l.overlaps r then
    let below ← l.seek fun _ _ node => belowRange r node
    let upto ← l.seek fun _ _ node => notAbove r node
    return if below.rank < upto.rank then some (below.rank + 1, upto.rank) else none
  else return none

end SkipList

end KeyEngine
