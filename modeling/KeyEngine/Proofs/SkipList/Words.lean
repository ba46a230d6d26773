import KeyEngine.Duration
import KeyEngine.Proofs.SkipList.Neighbours

/-!
# Ranks in machine words

A link on the way of a search leads no further than the end of the list, so the ranks and spans that a
search adds up are words as long as the length of the list is one. What is worked out in words, and gives
up where a sum or a difference leaves them, then never gives up.
-/

namespace KeyEngine

theorem ok_of_bind {α β : Type} {x : Except Fault α} {f : α → Except Fault β} {b : β} (h : x >>= f = .ok b) :
    ∃ a, x = .ok a ∧ f a = .ok b := by
  cases x with
  | error e => cases h
  | ok a => exact ⟨a, rfl, h⟩

/-- Works in machine words. It may give up, besides failing over a fault. -/
abbrev Words := OptionT (Except Fault)

namespace Words

variable {α β : Type}

def add (a b : Nat) : Words Nat :=
  if a + b ≤ wordMax then return a + b else failure

def sub (a b : Nat) : Words Nat :=
  if b ≤ a then return a - b else failure

theorem add_bind {a b : Nat} (h : a + b ≤ wordMax) (f : Nat → Words β) : add a b >>= f = f (a + b) := by
  rw [add, if_pos h, pure_bind]

theorem sub_bind {a b : Nat} (h : b ≤ a) (f : Nat → Words β) : sub a b >>= f = f (a - b) := by
  rw [sub, if_pos h, pure_bind]

theorem ok_bind (a : α) (f : α → Words β) : (liftM (Except.ok a : Except Fault α) : Words α) >>= f = f a :=
  rfl

/-- Two computations that start alike are alike if they go on alike from each result. -/
theorem bind_congr {x : Except Fault α} {f : α → Words β} {g : α → Except Fault β}
    (h : ∀ a, x = .ok a → f a = liftM (g a)) : (liftM x : Words α) >>= f = liftM (x >>= g) := by
  cases x with
  | error e => rfl
  | ok a => exact h a rfl

end Words

namespace SkipList

/-! ## Searches -/

def walkInWords (l : SkipList) (test : Nat → Nat → Node → Bool) (i : Nat) : Nat → Place → Nat → Words Stop
  | 0, _, _ => (throw (.endlessLevel i) : Except Fault Stop)
  | fuel + 1, p, rank => do
    let link ← l.link p i
    match link.target with
    | none => return ⟨p, rank, link⟩
    | some id =>
      let node ← l.node id
      let next ← Words.add rank link.span
      if test next id node then l.walkInWords test i fuel (.node id) next
      else return ⟨p, rank, link⟩

def descendInWords (l : SkipList) (test : Nat → Nat → Node → Bool) :
    Nat → Place → Nat → List Stop → Words (List Stop)
  | 0, _, _, stops => return stops
  | i + 1, p, rank, stops => do
    let stop ← l.walkInWords test i (l.nodes.size + 1) p rank
    l.descendInWords test i stop.place stop.rank (stop :: stops)

def searchInWords (l : SkipList) (test : Nat → Nat → Node → Bool) : Words (List Stop) :=
  l.descendInWords test l.level .head 0 []

def seekInWords (l : SkipList) (test : Nat → Nat → Node → Bool) : Words Stop := do
  match ← l.searchInWords test with
  | stop :: _ => return stop
  | [] => (throw (.missingLink 0) : Except Fault Stop)

/-! ## Ranges of ranks -/

def nodeAtRankInWords (l : SkipList) (rank : Nat) : Words (Option Nat) :=
  if rank = 0 ∨ l.len < rank then return none
  else do
    let stops ← l.searchInWords fun r _ _ => r ≤ rank
    return (stops.reverse.find? (·.rank = rank)).bind (·.place.id?)

def rankRangeInWords (l : SkipList) (left right : Nat) : Words (List Nat) :=
  if l.len = 0 ∨ left = 0 ∨ right < left ∨ l.len < left then return []
  else do
    let behind ← Words.sub (min right l.len) left
    let size ← Words.add behind 1
    let start ← l.nodeAtRankInWords left
    l.follow (fun _ => true) size start

def rankBoundsInWords (l : SkipList) (r : ScoreRange) : Words (Option (Nat × Nat)) := do
  if ← l.overlaps r then
    let below ← l.seekInWords fun _ _ node => belowRange r node
    let upto ← l.seekInWords fun _ _ node => notAbove r node
    let first ← Words.add below.rank 1
    return if below.rank < upto.rank then some (first, upto.rank) else none
  else return none

/-! ## Unlinking -/

def threadOutInWords (id : Nat) (links : Array Link) : Nat → Path → SkipList → Words SkipList
  | _, [], l => return l
  | i, p :: path, l => do
    let link ← l.link p i
    if link.target = some id then
      match links[i]? with
      | none => (throw (.missingLink i) : Except Fault SkipList)
      | some own =>
        let sum ← Words.add link.span own.span
        let span ← difference sum 1
        let l ← l.setLink p i ⟨own.target, span⟩
        threadOutInWords id links (i + 1) path l
    else
      let span ← difference link.span 1
      let l ← l.setLink p i { link with span := span }
      threadOutInWords id links (i + 1) path l

def unlinkInWords (l : SkipList) (id : Nat) (path : Path) : Words SkipList := do
  let node ← l.node id
  let before := path.head?.bind Place.id?
  let l ← threadOutInWords id node.links 0 (path.take l.level) l
  let l ← match node.next with
    | some next => l.setBack next before
    | none => pure { l with tail := before }
  let l := l.lower l.level
  let len ← difference l.len 1
  return { l with len := len }

def deleteInWords (l : SkipList) (id : Nat) (path : Path) : Words (SkipList × Option Entry) :=
  match l.node? id with
  | none => return (l, none)
  | some node => do
    let l ← l.unlinkInWords id path
    return ({ l with nodes := l.nodes.setIfInBounds id none, free := id :: l.free }, some node.entry)

def deleteAllInWords (path : Path) : List Nat → SkipList → Words (SkipList × List (Option Entry))
  | [], l => return (l, [])
  | id :: ids, l => do
    let (l, entry) ← l.deleteInWords id path
    let (l, entries) ← deleteAllInWords path ids l
    return (l, entry :: entries)

def removeRunInWords (l : SkipList) : List Nat → Words (SkipList × List (Option Entry))
  | [] => return (l, [])
  | id :: ids => do
    let path ← l.updatePath id
    deleteAllInWords path (id :: ids) l

/-! ## Nothing is given up -/

/-- The place is that of the given rank. -/
def Stands (ids : List Nat) (p : Place) (rank : Nat) : Prop :=
  ∃ pre post, pre ++ post = ids ∧ p = .after pre ∧ rank = pre.length

variable {l : SkipList} {ids : List Nat}

namespace Linked

variable {test : Nat → Nat → Node → Bool} {i rank : Nat} {p : Place}

theorem ahead (h : Linked l ids) (hs : Stands ids p rank) (hi : i < l.reach p) :
    ∃ k, l.link? p i = some k ∧ rank + k.span ≤ ids.length ∧
      ∀ id, k.target = some id → Stands ids (.node id) (rank + k.span) ∧ i < l.reach (.node id) := by
  obtain ⟨pre, post, rfl, rfl, rfl⟩ := hs
  refine ⟨_, h.links pre post i rfl hi, ?_⟩
  rcases split_tall (l.tall i) post with hpost | ⟨a, id, b, rfl, ha, hid⟩
  · rw [linkTo_none hpost]
    exact ⟨by simp, nofun⟩
  · rw [linkTo_skip ha]
    simp only [linkTo, hid, if_true]
    refine ⟨by simp, ?_⟩
    rintro _ ⟨⟩
    refine ⟨⟨pre ++ a ++ [id], b, by simp, ?_, by simp⟩, of_decide_eq_true hid⟩
    rw [Place.after_concat]

theorem walk_stands (h : Linked l ids) : ∀ (fuel : Nat) (p : Place) (rank : Nat), Stands ids p rank →
    i < l.reach p → ∀ stop, l.walk test i fuel p rank = .ok stop →
      Stands ids stop.place stop.rank ∧ i < l.reach stop.place
  | 0, _, _, _, _ => nofun
  | fuel + 1, p, rank, hs, hi => by
    obtain ⟨k, hk, -, hahead⟩ := h.ahead hs hi
    intro stop hstop
    rw [walk, link_of_link? hk, KeyEngine.ok_bind] at hstop
    split at hstop
    · cases hstop
      exact ⟨hs, hi⟩
    · rename_i id hid
      obtain ⟨hs', hi'⟩ := hahead id hid
      obtain ⟨node, -, hstop⟩ := ok_of_bind hstop
      split at hstop
      · exact h.walk_stands fuel _ _ hs' hi' stop hstop
      · cases hstop
        exact ⟨hs, hi⟩

theorem descend_stands (h : Linked l ids) : ∀ (n : Nat) (p : Place) (rank : Nat) (stops : List Stop),
    Stands ids p rank → n ≤ l.reach p → (∀ stop ∈ stops, Stands ids stop.place stop.rank) →
      ∀ stops', l.descend test n p rank stops = .ok stops' → ∀ stop ∈ stops', Stands ids stop.place stop.rank
  | 0, _, _, _, _, _, hstops, _, hdone => Except.ok.inj hdone ▸ hstops
  | n + 1, p, rank, stops, hs, hn, hstops, stops', hdone => by
    rw [descend] at hdone
    obtain ⟨stop, hw, hdone⟩ := ok_of_bind hdone
    obtain ⟨hs', hn'⟩ := h.walk_stands _ p rank hs hn stop hw
    exact h.descend_stands n _ _ _ hs' (Nat.le_of_lt hn') (List.forall_mem_cons.mpr ⟨hs', hstops⟩) _ hdone

theorem rank_le_of_seek (h : Linked l ids) {stop : Stop} (hstop : l.seek test = .ok stop) :
    stop.rank ≤ ids.length := by
  unfold seek at hstop
  obtain ⟨stops, hsearch, hstop⟩ := ok_of_bind hstop
  have hstands := h.descend_stands l.level .head 0 [] ⟨[], ids, rfl, rfl, rfl⟩ le_rfl (by simp) stops hsearch
  cases stops with
  | nil => cases hstop
  | cons first rest =>
    cases hstop
    obtain ⟨pre, post, rfl, -, hrank⟩ := hstands stop List.mem_cons_self
    simp [hrank]

variable (h : Linked l ids) (hw : ids.length ≤ wordMax)
include h hw

theorem walkInWords_eq (fuel : Nat) (hs : Stands ids p rank) (hi : i < l.reach p) :
    l.walkInWords test i fuel p rank = liftM (l.walk test i fuel p rank) := by
  induction fuel generalizing p rank with
  | zero => rfl
  | succ fuel ih =>
    obtain ⟨k, hk, hle, hahead⟩ := h.ahead hs hi
    rw [walkInWords, walk, link_of_link? hk, KeyEngine.ok_bind, Words.ok_bind]
    cases ht : k.target with
    | none => rfl
    | some id =>
      obtain ⟨hs', hi'⟩ := hahead id ht
      apply Words.bind_congr
      intro node _
      rw [Words.add_bind (by omega)]
      split
      · exact ih hs' hi'
      · rfl

theorem descendInWords_eq : ∀ (n : Nat) (p : Place) (rank : Nat) (stops : List Stop), Stands ids p rank →
    n ≤ l.reach p → l.descendInWords test n p rank stops = liftM (l.descend test n p rank stops)
  | 0, _, _, _, _, _ => rfl
  | n + 1, p, rank, stops, hs, hn => by
    rw [descendInWords, descend, h.walkInWords_eq hw _ hs hn]
    apply Words.bind_congr
    intro stop hstop
    obtain ⟨hs', hn'⟩ := h.walk_stands _ p rank hs hn stop hstop
    exact descendInWords_eq n _ _ _ hs' (Nat.le_of_lt hn')

theorem searchInWords_eq (test : Nat → Nat → Node → Bool) :
    l.searchInWords test = liftM (l.search test) :=
  h.descendInWords_eq hw l.level .head 0 [] ⟨[], ids, rfl, rfl, rfl⟩ le_rfl

theorem seekInWords_eq (test : Nat → Nat → Node → Bool) : l.seekInWords test = liftM (l.seek test) := by
  rw [seekInWords, seek, h.searchInWords_eq hw]
  apply Words.bind_congr
  intro stops _
  cases stops <;> rfl

end Linked

namespace WellFormed

variable (h : WellFormed l ids)
include h

theorem length_le_words (hw : l.len ≤ wordMax) : ids.length ≤ wordMax :=
  h.len ▸ hw

theorem nodeAtRankInWords_eq (hw : l.len ≤ wordMax) (rank : Nat) :
    l.nodeAtRankInWords rank = liftM (l.nodeAtRank rank) := by
  unfold nodeAtRankInWords nodeAtRank
  split
  · rfl
  · rw [h.searchInWords_eq (h.length_le_words hw)]
    exact Words.bind_congr fun _ _ => rfl

theorem rankRangeInWords_eq (hw : l.len ≤ wordMax) (left right : Nat) :
    l.rankRangeInWords left right = liftM (l.rankRange left right) := by
  unfold rankRangeInWords rankRange
  split
  · rfl
  · rename_i hr
    rw [not_or, not_or, not_or] at hr
    rw [Words.sub_bind (by omega), Words.add_bind (by omega), h.nodeAtRankInWords_eq hw]
    exact Words.bind_congr fun _ _ => rfl

theorem rankBoundsInWords_eq (hw : l.len < wordMax) (r : ScoreRange) :
    l.rankBoundsInWords r = liftM (l.rankBounds r) := by
  have hseek := h.seekInWords_eq (h.length_le_words (Nat.le_of_lt hw))
  unfold rankBoundsInWords rankBounds
  apply Words.bind_congr
  rintro (_ | _) _
  · rfl
  · rw [if_pos rfl, if_pos rfl, hseek]
    apply Words.bind_congr
    intro below hbelow
    rw [hseek]
    apply Words.bind_congr
    intro upto _
    have := h.len ▸ h.rank_le_of_seek hbelow
    rw [Words.add_bind (by omega)]
    rfl

end WellFormed

theorem threadOutInWords_eq (id : Nat) (own : Array Link) : ∀ (path : Path) (i : Nat) (l : SkipList),
    (∀ j p k o, path[j]? = some p → l.link? p (i + j) = some k → own[i + j]? = some o →
      k.target = some id → k.span + o.span ≤ wordMax) →
    threadOutInWords id own i path l = liftM (threadOut id own i path l)
  | [], _, _, _ => rfl
  | p :: path, i, l, hsum => by
    -- The link that is set is on a lower level than those to come, so what bounds their spans still does.
    have hrest : ∀ k r l', l.link? p i = some k → l.setLink p i r = .ok l' →
        threadOutInWords id own (i + 1) path l' = liftM (threadOut id own (i + 1) path l') := by
      intro k r l' hk hl'
      obtain ⟨m, hm, -, hlink⟩ := setLink_ok hk r
      cases hm.symm.trans hl'
      apply threadOutInWords_eq id own path
      intro j q k' o hq hk' ho
      rw [hlink, if_neg (by omega)] at hk'
      rw [Nat.add_assoc, Nat.add_comm 1] at hk' ho
      exact hsum (j + 1) q k' o hq hk' ho
    rw [threadOutInWords, threadOut]
    apply Words.bind_congr
    intro k hk
    have hk := link?_of_link hk
    split
    · rename_i ht
      cases ho : own[i]? with
      | none => rfl
      | some o =>
        simp only
        rw [Words.add_bind (hsum 0 p k o rfl hk ho ht)]
        apply Words.bind_congr
        intro span _
        apply Words.bind_congr
        intro l' hl'
        exact hrest k _ l' hk hl'
    · apply Words.bind_congr
      intro span _
      apply Words.bind_congr
      intro l' hl'
      exact hrest k _ l' hk hl'

section
variable {xs ys : List Nat} {id : Nat} {path : Path}

/-- The link to a node and the link of the node, joined, reach no further than the end. -/
theorem Linked.span_add_le (h : Linked l (xs ++ id :: ys)) {n : Node} (hn : l.node? id = some n) {i : Nat}
    (hi : i < l.level) {k o : Link} (hk : l.link? (.after (l.passed i xs)) i = some k)
    (hid : k.target = some id) (ho : n.links[i]? = some o) : k.span + o.span ≤ (xs ++ id :: ys).length := by
  have hstands : Stands (xs ++ id :: ys) (.after (l.passed i xs)) (l.passed i xs).length :=
    ⟨_, l.skipped i xs ++ id :: ys, by rw [← List.append_assoc, passed_append_skipped], rfl, rfl⟩
  obtain ⟨k', hk', -, hahead⟩ := h.ahead hstands (lt_reach_passed hi xs)
  cases hk'.symm.trans hk
  obtain ⟨hnode, hreach⟩ := hahead id hid
  obtain ⟨o', ho', hle, -⟩ := h.ahead hnode hreach
  rw [link?, hn] at ho'
  cases ho'.symm.trans ho
  omega

theorem Linked.unlinkInWords_eq (h : Linked l (xs ++ id :: ys)) (hw : (xs ++ id :: ys).length ≤ wordMax)
    (hp : LeadsTo l xs path) : l.unlinkInWords id path = liftM (l.unlink id path) := by
  obtain ⟨n, hn⟩ := h.exists_node id (by simp)
  have hsum : ∀ i p k o, (path.take l.level)[i]? = some p → l.link? p (0 + i) = some k →
      n.links[0 + i]? = some o → k.target = some id → k.span + o.span ≤ wordMax := by
    intro i p k o hip hk ho ht
    rw [Nat.zero_add] at hk ho
    rw [List.getElem?_take] at hip
    split at hip
    · rename_i hi
      cases hip.symm.trans (hp i hi)
      exact Nat.le_trans (h.span_add_le hn hi hk ht ho) hw
    · cases hip
  unfold unlinkInWords unlink
  rw [node_of_node? hn, KeyEngine.ok_bind, Words.ok_bind, threadOutInWords_eq id n.links _ 0 l hsum]
  apply Words.bind_congr
  intro m _
  cases n.next with
  | none => exact Words.bind_congr fun _ _ => rfl
  | some next =>
    apply Words.bind_congr
    intro _ _
    exact Words.bind_congr fun _ _ => rfl

theorem Linked.deleteInWords_eq (h : Linked l (xs ++ id :: ys)) (hw : (xs ++ id :: ys).length ≤ wordMax)
    (hp : LeadsTo l xs path) : l.deleteInWords id path = liftM (l.delete id path) := by
  unfold deleteInWords delete
  cases l.node? id with
  | none => rfl
  | some n =>
    simp only [h.unlinkInWords_eq hw hp]
    exact Words.bind_congr fun _ _ => rfl

theorem WellFormed.deleteAllInWords_eq (path : Path) : ∀ (run : List Nat) (l : SkipList),
    WellFormed l (xs ++ run ++ ys) → (xs ++ run ++ ys).length ≤ wordMax → LeadsTo l xs path →
      deleteAllInWords path run l = liftM (deleteAll path run l)
  | [], _, _, _, _ => rfl
  | id :: run, l, h, hw, hp => by
    rw [List.append_assoc, List.cons_append] at h hw
    obtain ⟨m, hm, hwf, hpath, -⟩ := h.delete_ok hp
    have hlength : (xs ++ run ++ ys).length ≤ wordMax := by
      simp only [List.length_append, List.length_cons] at hw ⊢
      omega
    rw [deleteAllInWords, deleteAll, h.deleteInWords_eq hw hp, hm, KeyEngine.ok_bind, Words.ok_bind]
    simp only [deleteAllInWords_eq path run m (by simpa using hwf) hlength hpath]
    exact Words.bind_congr fun _ _ => rfl

theorem WellFormed.removeRunInWords_eq {run : List Nat} (h : WellFormed l (xs ++ run ++ ys))
    (hw : l.len ≤ wordMax) : l.removeRunInWords run = liftM (l.removeRun run) := by
  cases run with
  | nil => rfl
  | cons id run =>
    have h' : WellFormed l (xs ++ id :: (run ++ ys)) := by simpa using h
    obtain ⟨n, hn⟩ := h'.exists_node id (by simp)
    obtain ⟨path, hpath, hleads⟩ := h'.toLinked.updatePath_ok hn (h'.parts_node hn)
    rw [removeRunInWords, removeRun, hpath, KeyEngine.ok_bind, Words.ok_bind]
    exact deleteAllInWords_eq path (id :: run) l h (h.length_le_words hw) hleads

end

end SkipList

end KeyEngine
