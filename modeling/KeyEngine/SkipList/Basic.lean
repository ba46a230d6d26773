import KeyEngine.Config
import KeyEngine.Error
import KeyEngine.Score.Basic

/-!
# Ranked skip lists

A skip list holds entries by ascending score, equal scores by ascending member. Nodes lie in an arena
and name each other by their slot. A node has a tower of links, one for each of its levels; a link
knows its target and its span, the number of entries that it passes over, the target included. Spans
added up along a search give the rank of a node.
-/

namespace KeyEngine

structure Entry where
  score : Score
  member : Bytes
deriving DecidableEq, Repr

/-- The entry stands before the other: its score is lower, or it is equal and the member is lower. -/
def Entry.before (a b : Entry) : Bool :=
  a.score.lt b.score || (a.score.same b.score && decide (a.member < b.member))

theorem Entry.before_iff {a b : Entry} :
    a.before b = true ↔
      a.score.lt b.score = true ∨ a.score.same b.score = true ∧ a.member < b.member := by
  simp [before]

theorem Entry.before_irrefl (a : Entry) : a.before a = false := by
  rw [Bool.eq_false_iff, ne_eq, before_iff, Score.lt_irrefl]
  simp [List.lt_irrefl]

theorem Entry.before_trans {a b c : Entry} (h : a.before b = true) (h' : b.before c = true) :
    a.before c = true := by
  simp only [before_iff, Score.lt_iff, Score.same_iff] at *
  rcases h with h | h <;> rcases h' with h' | h'
  · exact .inl ⟨h.1, h'.2.1, by omega⟩
  · exact .inl ⟨h.1, h'.1.2.1, by omega⟩
  · exact .inl ⟨h.1.1, h'.2.1, by omega⟩
  · exact .inr ⟨⟨h.1.1, h'.1.2.1, by omega⟩, List.lt_trans h.2 h'.2⟩

/-- Of two entries with scores that are numbers and different members, one stands before the other. -/
theorem Entry.before_or_before {a b : Entry} (ha : a.score.isNaN = false)
    (hb : b.score.isNaN = false) (h : a.member ≠ b.member) :
    a.before b = true ∨ b.before a = true := by
  simp only [before_iff, Score.lt_iff, Score.same_iff, ha, hb, true_and]
  rcases Int.lt_trichotomy a.score.key b.score.key with hk | hk | hk
  · exact .inl (.inl hk)
  · rcases Std.lt_trichotomy a.member b.member with hm | hm | hm
    · exact .inl (.inr ⟨hk, hm⟩)
    · exact absurd hm h
    · exact .inr (.inr ⟨hk.symm, hm⟩)
  · exact .inr (.inl hk)

structure Link where
  target : Option Nat
  /-- Entries passed over, the target included; without a target, all entries that follow. -/
  span : Nat
deriving DecidableEq, Repr, Inhabited

structure Node where
  entry : Entry
  back : Option Nat
  links : Array Link
deriving DecidableEq, Repr

/-- The node that follows on the lowest level. -/
def Node.next (n : Node) : Option Nat :=
  n.links[0]?.bind (·.target)

/-- A place from which links lead on: the head of the list, or a node. -/
inductive Place where
  | head
  | node (id : Nat)
deriving DecidableEq, Repr

def Place.id? : Place → Option Nat
  | .head => none
  | .node id => some id

/-! ## Heights -/

/-- A supply of heights for new towers. Nothing that a list answers depends on it. -/
structure Towers where
  height : Nat → Nat
  drawn : Nat

namespace Towers

/-- The next height, at least one and at most `maxLevel`. -/
def draw (t : Towers) (maxLevel : Nat) : Nat × Towers :=
  (Config.clamp 1 maxLevel (t.height t.drawn), { t with drawn := t.drawn + 1 })

/-- One, and one more for each zero digit in base four at the end of `n`. -/
def zeroPairs : Nat → Nat → Nat
  | 0, _ => 1
  | fuel + 1, n => if n % 4 = 0 then zeroPairs fuel (n / 4) + 1 else 1

/-- Heights of which one in four goes on to the next level. -/
def seeded (seed : Nat) : Towers where
  height n := zeroPairs 64 ((n + seed * 0x10001 + 1) * 0x9E3779B97F4A7C15 % 0x10000000000000000 / 0x100000)
  drawn := 0

end Towers

/-! ## Lists -/

structure SkipList where
  head : Array Link
  /-- The arena; a slot without a node is free. -/
  nodes : Array (Option Node)
  /-- The free slots, the one freed last in front. -/
  free : List Nat
  tail : Option Nat
  /-- The number of levels in use. -/
  level : Nat
  maxLevel : Nat
  len : Nat
  towers : Towers

namespace SkipList

def empty (maxLevel : Nat) (towers : Towers) : SkipList where
  head := Array.replicate (Config.clampLevel maxLevel) ⟨none, 0⟩
  nodes := #[]
  free := []
  tail := none
  level := 1
  maxLevel := Config.clampLevel maxLevel
  len := 0
  towers := towers

def isEmpty (l : SkipList) : Bool :=
  l.len = 0

/-- The node in a slot, if the slot is taken. -/
def node? (l : SkipList) (id : Nat) : Option Node :=
  l.nodes[id]?.join

def entry? (l : SkipList) (id : Nat) : Option Entry :=
  (l.node? id).map (·.entry)

def score? (l : SkipList) (id : Nat) : Option Score :=
  (l.entry? id).map (·.score)

def member? (l : SkipList) (id : Nat) : Option Bytes :=
  (l.entry? id).map (·.member)

def first (l : SkipList) : Option Nat :=
  l.head[0]?.bind (·.target)

def last (l : SkipList) : Option Nat :=
  l.tail

def next (l : SkipList) (id : Nat) : Option Nat :=
  (l.node? id).bind (·.next)

def prev (l : SkipList) (id : Nat) : Option Nat :=
  (l.node? id).bind (·.back)

/-! ## View -/

/-- The slots and entries of at most `n` nodes along the lowest level. -/
def chain (l : SkipList) : Nat → Option Nat → List (Nat × Entry)
  | n + 1, some id =>
    match l.node? id with
    | some node => (id, node.entry) :: l.chain n node.next
    | none => []
  | _, _ => []

def toList (l : SkipList) : List (Nat × Entry) :=
  l.chain l.nodes.size l.first

def report (l : SkipList) : String :=
  s!"SkipList \x7b len: {l.len}, level: {l.level}, max_level: {l.maxLevel} \x7d"

/-! ## Access -/

def node (l : SkipList) (id : Nat) : Except Fault Node :=
  match l.node? id with
  | some node => .ok node
  | none => .error (.notLive id)

def links (l : SkipList) : Place → Except Fault (Array Link)
  | .head => .ok l.head
  | .node id => return (← l.node id).links

def link (l : SkipList) (p : Place) (i : Nat) : Except Fault Link := do
  match (← l.links p)[i]? with
  | some link => return link
  | none => throw (.missingLink i)

def setNode (l : SkipList) (id : Nat) (node : Node) : SkipList :=
  { l with nodes := l.nodes.setIfInBounds id (some node) }

def setBack (l : SkipList) (id : Nat) (back : Option Nat) : Except Fault SkipList := do
  let node ← l.node id
  return l.setNode id { node with back := back }

def setLink (l : SkipList) (p : Place) (i : Nat) (link : Link) : Except Fault SkipList :=
  match p with
  | .head => return { l with head := l.head.setIfInBounds i link }
  | .node id => do
    let node ← l.node id
    return l.setNode id { node with links := node.links.setIfInBounds i link }

end SkipList

end KeyEngine
