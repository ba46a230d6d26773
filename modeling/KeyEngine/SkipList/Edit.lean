import KeyEngine.SkipList.Search

/-!
# Changing a skip list

A node is linked in behind the stops of a search for its entry and unlinked from the places of a path
to it. Both mend the spans on every level in use: of the links they replace, and of the links that
pass over the node.
-/

namespace KeyEngine.SkipList

/-- A difference of spans, which must not fall below zero. -/
def difference (a b : Nat) : Except Fault Nat :=
  if b ≤ a then return a - b else throw .negativeSpan

/-! ## Linking in -/

/-- Takes the slot freed last for a node, or else a new one. -/
def alloc (l : SkipList) (node : Node) : SkipList × Nat :=
  match l.free with
  | id :: free => ({ l with nodes := l.nodes.setIfInBounds id (some node), free := free }, id)
  | [] => ({ l with nodes := l.nodes.push (some node) }, l.nodes.size)

/-- Opens the levels up to a height: on each, a link of the head passes over the whole list. -/
def raise (l : SkipList) (height : Nat) : SkipList :=
  if l.level < height then
    { l with
      head := l.head.mapIdx fun i link =>
        if l.level ≤ i ∧ i < height then { link with span := l.len } else link
      level := height }
  else l

/-- Links a node in behind the stops of the levels from `i` upwards. Below its height it takes over the
rest of the link that it cuts; above, it lengthens the link that passes over it. `rank` is the rank of
the stop on the lowest level. -/
def threadIn (id height rank : Nat) : Nat → List Stop → SkipList → Except Fault SkipList
  | _, [], l => return l
  | i, stop :: stops, l => do
    let link ← l.link stop.place i
    if i < height then
      let covered ← difference rank stop.rank
      let rest ← difference link.span covered
      let l ← l.setLink (.node id) i ⟨link.target, rest⟩
      let l ← l.setLink stop.place i ⟨some id, covered + 1⟩
      threadIn id height rank (i + 1) stops l
    else
      let l ← l.setLink stop.place i { link with span := link.span + 1 }
      threadIn id height rank (i + 1) stops l

/-- Links in a node that has a slot but no place in the list yet, with a tower of a newly drawn
height. -/
def place (l : SkipList) (id : Nat) : Except Fault SkipList := do
  let node ← l.node id
  let stops ← l.search fun _ _ ahead => ahead.entry.before node.entry
  let (height, towers) := l.towers.draw l.maxLevel
  let opened := List.replicate (height - l.level) ⟨.head, 0, default⟩
  match stops with
  | [] => throw (.missingLink 0)
  | bottom :: _ =>
    let l := { l with towers := towers }.raise height
    let l := l.setNode id
      { node with back := bottom.place.id?, links := Array.replicate height ⟨none, 0⟩ }
    let l ← threadIn id height bottom.rank 0 (stops ++ opened) l
    match (← l.link (.node id) 0).target with
    | some next => l.setBack next (some id)
    | none => return { l with tail := some id }

/-- Adds an entry and answers its slot. No live node may hold the same member. -/
def insert (l : SkipList) (entry : Entry) : Except Fault (SkipList × Nat) := do
  let (l, id) := l.alloc ⟨entry, none, #[]⟩
  let l ← l.place id
  return ({ l with len := l.len + 1 }, id)

/-! ## Unlinking -/

/-- The place before a node on each level. -/
abbrev Path := List Place

/-- The path to a node. Levels not in use are led to by the head. -/
def updatePath (l : SkipList) (id : Nat) : Except Fault Path := do
  let target ← l.node id
  let stops ← l.search fun _ ahead node => ahead ≠ id && node.entry.before target.entry
  return stops.map (·.place) ++ List.replicate (l.maxLevel - l.level) .head

/-- Unlinks a node with the given links from the places of the levels from `i` upwards. -/
def threadOut (id : Nat) (links : Array Link) : Nat → Path → SkipList → Except Fault SkipList
  | _, [], l => return l
  | i, p :: path, l => do
    let link ← l.link p i
    if link.target = some id then
      match links[i]? with
      | none => throw (.missingLink i)
      | some own =>
        let span ← difference (link.span + own.span) 1
        let l ← l.setLink p i ⟨own.target, span⟩
        threadOut id links (i + 1) path l
    else
      let span ← difference link.span 1
      let l ← l.setLink p i { link with span := span }
      threadOut id links (i + 1) path l

/-- Closes the highest of `n` levels for as long as nothing is linked on it; the lowest stays open. -/
def lower (l : SkipList) : Nat → SkipList
  | n + 2 =>
    match l.head[n + 1]? with
    | some ⟨none, _⟩ =>
      lower { l with head := l.head.setIfInBounds (n + 1) ⟨none, 0⟩, level := n + 1 } (n + 1)
    | _ => l
  | _ => l

/-- Unlinks a node, which keeps its slot. -/
def unlink (l : SkipList) (id : Nat) (path : Path) : Except Fault SkipList := do
  let node ← l.node id
  let before := path.head?.bind Place.id?
  let l ← threadOut id node.links 0 (path.take l.level) l
  let l ← match node.next with
    | some next => l.setBack next before
    | none => pure { l with tail := before }
  let l := l.lower l.level
  let len ← difference l.len 1
  return { l with len := len }

/-- Removes a node by a path to it, and answers its entry; nothing if the slot is free. -/
def delete (l : SkipList) (id : Nat) (path : Path) : Except Fault (SkipList × Option Entry) :=
  match l.node? id with
  | none => return (l, none)
  | some node => do
    let l ← l.unlink id path
    return ({ l with nodes := l.nodes.setIfInBounds id none, free := id :: l.free }, some node.entry)

def remove (l : SkipList) (id : Nat) : Except Fault (SkipList × Option Entry) :=
  match l.node? id with
  | none => return (l, none)
  | some _ => do
    let path ← l.updatePath id
    l.delete id path

def deleteAll (path : Path) : List Nat → SkipList → Except Fault (SkipList × List (Option Entry))
  | [], l => return (l, [])
  | id :: ids, l => do
    let (l, entry) ← l.delete id path
    let (l, entries) ← deleteAll path ids l
    return (l, entry :: entries)

/-- Removes a run of neighbours, ascending. The path to the first of them leads to each of the others
once those before it are gone. -/
def removeRun (l : SkipList) : List Nat → Except Fault (SkipList × List (Option Entry))
  | [] => return (l, [])
  | id :: ids => do
    let path ← l.updatePath id
    deleteAll path (id :: ids) l

/-! ## Moving -/

/-- The node in the slot, if one is named, satisfies the test. -/
def allows (l : SkipList) (test : Entry → Bool) : Option Nat → Except Fault Bool
  | none => return true
  | some id => return test (← l.node id).entry

/-- The entry, put in the place of the node, stands between its neighbours. -/
def fits (l : SkipList) (node : Node) (entry : Entry) : Except Fault Bool := do
  let afterPrev ← l.allows (·.before entry) node.back
  let beforeNext ← l.allows entry.before node.next
  return afterPrev && beforeNext

/-- Gives a node another score. An equal score leaves it as it is; a node that still stands between its
neighbours stays where it is, and any other is unlinked and linked in again. -/
def updateScore (l : SkipList) (id : Nat) (score : Score) : Except Fault SkipList :=
  match l.node? id with
  | none => return l
  | some node => do
    if node.entry.score.same score then return l
    let entry := { node.entry with score := score }
    if ← l.fits node entry then return l.setNode id { node with entry := entry }
    let path ← l.updatePath id
    let l ← l.unlink id path
    let unlinked ← l.node id
    let l ← (l.setNode id { unlinked with entry := entry }).place id
    return { l with len := l.len + 1 }

end KeyEngine.SkipList
