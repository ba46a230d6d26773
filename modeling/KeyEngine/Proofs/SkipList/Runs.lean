import KeyEngine.Proofs.SkipList.View

/-!
# Runs of edits

Whatever edits a list goes through, in whatever order and with whatever heights, it stays consistent
and no edit runs into a fault.
-/

namespace KeyEngine

namespace SkipList

/-! ## Consistent lists -/

def slots (l : SkipList) : List Nat :=
  l.toList.map (·.1)

/-- At most `n` slots along a level. -/
def along (l : SkipList) (i : Nat) : Nat → Option Nat → List Nat
  | n + 1, some id => id :: l.along i n ((l.link? (.node id) i).bind (·.target))
  | _, _ => []

def trail (l : SkipList) (i : Nat) : List Nat :=
  l.along i l.nodes.size ((l.link? .head i).bind (·.target))

/-- The number of nodes up to a place, its own included. -/
def position (l : SkipList) : Place → Nat
  | .head => 0
  | .node id => l.slots.idxOf id + 1

/-- The levels, the spans, the back links and the free slots agree with each other. -/
structure Consistent (l : SkipList) : Prop where
  taken : ∀ id, id ∈ l.slots ↔ (l.node? id).isSome
  once : l.slots.Nodup
  ascending : l.toList.Pairwise fun a b => a.2.before b.2 = true
  /-- A level goes through the nodes that are higher than it. -/
  levels : ∀ i < l.level, l.trail i = l.slots.filter (l.tall i)
  /-- The last link of a level leads nowhere. -/
  ends : ∀ i < l.level, ∃ k, l.link? (.after (l.trail i)) i = some k ∧ k.target = none
  heights : ∀ id ∈ l.slots, 1 ≤ l.height id
  /-- A span is the distance along the lowest level to the target, or else to the end. -/
  spans : ∀ p i, (∀ id, p = .node id → id ∈ l.slots) → i < l.reach p →
    ∃ k, l.link? p i = some k ∧
      l.position p + k.span = (k.target.map fun id => l.position (.node id)).getD l.len
  backs : ∀ pre id post, pre ++ id :: post = l.slots → l.prev id = pre.getLast?
  tail : l.tail = l.slots.getLast?
  len : l.len = l.slots.length
  level : l.level = (l.slots.map l.height).foldr max 1
  freeOnce : l.free.Nodup
  free : ∀ id, id ∈ l.free ↔ id < l.nodes.size ∧ l.node? id = none

namespace Linked

variable {l : SkipList}

theorem slots_eq {ids : List Nat} (h : Linked l ids) : l.slots = ids := by
  rw [slots, h.toList_eq]
  refine map_rows fun id hid => ?_
  obtain ⟨n, hn⟩ := h.exists_node id hid
  rw [entry_of_node hn]
  rfl

theorem along_eq (i : Nat) : ∀ (ys xs : List Nat) (n : Nat), Linked l (xs ++ ys) → ys.length ≤ n →
    l.along i n (linkTo (l.tall i) ys).target = ys.filter (l.tall i)
  | [], _, n, _, _ => by cases n <;> rfl
  | id :: ys, xs, n, h, hn => by
    have h' : Linked l ((xs ++ [id]) ++ ys) := by simpa using h
    rw [List.length_cons] at hn
    by_cases hid : l.tall i id = true
    · obtain ⟨n, rfl⟩ := Nat.exists_eq_add_of_lt (Nat.lt_of_lt_of_le (Nat.zero_lt_succ _) hn)
      have hlink := h.links (xs ++ [id]) ys i (by simp) (by simpa [reach, tall] using hid)
      rw [Place.after_concat] at hlink
      have ih := along_eq i ys (xs ++ [id]) n h' (by omega)
      simp only [linkTo, hid, if_true, List.filter_cons_of_pos hid, Nat.zero_add, along, hlink,
        Option.bind_some, ih]
    · rw [linkTo, if_neg hid, List.filter_cons_of_neg hid]
      exact along_eq i ys (xs ++ [id]) n h' (by omega)

theorem trail_eq {ids : List Nat} (h : Linked l ids) (hn : ids.length ≤ l.nodes.size) {i : Nat} (hi : i < l.level) :
    l.trail i = ids.filter (l.tall i) := by
  have hlink := h.links [] ids i rfl hi
  rw [Place.after_nil] at hlink
  rw [trail, hlink]
  exact along_eq i ids [] _ h hn

end Linked

theorem after_filter_tall (l : SkipList) (i : Nat) (ids : List Nat) :
    Place.after (ids.filter (l.tall i)) = .after (l.passed i ids) := by
  induction ids using List.reverseRecOn with
  | nil => rfl
  | append_singleton ids id ih =>
    rw [List.filter_append]
    by_cases hid : l.tall i id = true
    · rw [passed_concat hid, List.filter_cons_of_pos hid, List.filter_nil, Place.after_concat, Place.after_concat]
    · rw [List.filter_cons_of_neg hid, List.filter_nil, List.append_nil, ih, passed, passed,
        List.rdropWhile_concat_pos _ _ _ (by simp [hid])]

/-- Behind the last node of a level there are only lower ones. -/
theorem Linked.link_last {l : SkipList} {ids : List Nat} (h : Linked l ids) {i : Nat} (hi : i < l.level) :
    ∃ k, l.link? (.after (ids.filter (l.tall i))) i = some k ∧ k.target = none := by
  have hlink := h.links (l.passed i ids) (l.skipped i ids) i (passed_append_skipped l i ids) (lt_reach_passed hi ids)
  rw [after_filter_tall]
  exact ⟨_, hlink, target_linkTo_none.mpr fun x hx => tall_skipped hx⟩

theorem span_linkTo (tall : Nat → Bool) (ids : List Nat) :
    (∃ xs id ys, ids = xs ++ id :: ys ∧ linkTo tall ids = ⟨some id, xs.length + 1⟩) ∨
      linkTo tall ids = ⟨none, ids.length⟩ := by
  rcases split_tall tall ids with h | ⟨xs, id, ys, rfl, hxs, hid⟩
  · exact .inr (linkTo_none h)
  · exact .inl ⟨xs, id, ys, rfl, by rw [linkTo_skip hxs]; simp [linkTo, hid]⟩

theorem position_after {l : SkipList} {ids pre post : List Nat} (h : Linked l ids) (he : pre ++ post = ids) :
    l.position (.after pre) = pre.length := by
  rcases List.eq_nil_or_concat pre with rfl | ⟨xs, x, rfl⟩
  · rfl
  · have hx : x ∉ xs := by
      have := h.nodup
      rw [← he, List.concat_eq_append, List.append_assoc, List.nodup_append] at this
      exact fun hx => this.2.2 x hx x (by simp) rfl
    rw [List.concat_eq_append] at *
    rw [Place.after_concat, position, h.slots_eq, ← he, List.append_assoc, List.idxOf_append_of_notMem hx]
    simp

theorem exists_after {ids : List Nat} {p : Place} (hp : ∀ id, p = .node id → id ∈ ids) :
    ∃ pre post, pre ++ post = ids ∧ p = .after pre := by
  cases p with
  | head => exact ⟨[], ids, rfl, rfl⟩
  | node id =>
    obtain ⟨xs, ys, rfl⟩ := List.append_of_mem (hp id rfl)
    exact ⟨xs ++ [id], ys, by simp, (Place.after_concat xs id).symm⟩

theorem WellFormed.consistent {l : SkipList} {ids : List Nat} (h : WellFormed l ids) : l.Consistent := by
  have hslots := h.slots_eq
  have hnode : ∀ id, (l.entry? id).isSome = (l.node? id).isSome := fun id => by
    rw [SkipList.entry?, Option.isSome_map]
  refine ⟨fun id => ?_, hslots ▸ h.nodup, ?_, fun i hi => ?_, fun i hi => ?_, fun id hid => ?_, fun p i hp hi => ?_,
    ?_, ?_, ?_, ?_, h.freeNodup, fun id => ?_⟩
  · rw [hslots, h.exact, hnode]
  · rw [h.toList_eq]
    exact h.ascending.rows
  · rw [hslots]
    exact h.trail_eq h.length_le hi
  · rw [h.trail_eq h.length_le hi]
    exact h.link_last hi
  · exact h.height_pos id (hslots ▸ hid)
  · rw [hslots] at hp
    obtain ⟨pre, post, he, rfl⟩ := exists_after hp
    refine ⟨_, h.links pre post i he hi, ?_⟩
    rw [position_after h.toLinked he]
    rcases span_linkTo (l.tall i) post with ⟨xs, id, ys, rfl, hl⟩ | hl
    · have := position_after h.toLinked (show (pre ++ xs ++ [id]) ++ ys = ids by simpa using he)
      rw [Place.after_concat] at this
      simp [hl, this]
    · simp [hl, h.len, ← he]
  · rw [hslots]
    exact h.backs
  · rw [hslots]
    exact h.tail
  · rw [hslots]
    exact h.len
  · rw [hslots]
    exact h.level
  · rw [h.free, SkipList.entry?, Option.map_eq_none_iff]

/-! ## Edits -/

inductive Edit where
  | insert (entry : Entry)
  | updateScore (id : Nat) (score : Score)
  | remove (id : Nat)
  /-- A removal by the path that is led to the node just before. -/
  | deleteByPath (id : Nat)
deriving DecidableEq, Repr

inductive Reply where
  | slot (id : Nat)
  | entry (entry : Option Entry)
  | done
deriving DecidableEq, Repr

/-- Scores are numbers, members are new, and a path leads to a node, given the entries in the slots. -/
def Edit.Permitted (look : Nat → Option Entry) : Edit → Prop
  | .insert e => e.score.isNaN = false ∧ ∀ id x, look id = some x → x.member ≠ e.member
  | .updateScore _ score => score.isNaN = false
  | .remove _ => True
  | .deleteByPath id => (look id).isSome

def edit (l : SkipList) : Edit → Except Fault (SkipList × Reply)
  | .insert e => do
    let (l, id) ← l.insert e
    return (l, .slot id)
  | .updateScore id score => do
    let l ← l.updateScore id score
    return (l, .done)
  | .remove id => do
    let (l, e) ← l.remove id
    return (l, .entry e)
  | .deleteByPath id => do
    let path ← l.updatePath id
    let (l, e) ← l.delete id path
    return (l, .entry e)

def edits (l : SkipList) : List Edit → Except Fault (SkipList × List Reply)
  | [] => return (l, [])
  | e :: es => do
    let (l, reply) ← l.edit e
    let (l, replies) ← l.edits es
    return (l, reply :: replies)

def Permits (l : SkipList) : List Edit → Prop
  | [] => True
  | e :: es => e.Permitted l.entry? ∧ ∀ l' reply, l.edit e = .ok (l', reply) → l'.Permits es

instance decidablePermitted (l : SkipList) : (e : Edit) → Decidable (e.Permitted l.entry?)
  | .insert e =>
    decidable_of_iff (e.score.isNaN = false ∧ ∀ id < l.nodes.size, ∀ x ∈ l.entry? id, x.member ≠ e.member) <| by
      refine and_congr_right fun _ => ⟨fun h id x hx => ?_, fun h id _ x hx => h id x hx⟩
      obtain ⟨n, hn, -⟩ := exists_node_of_entry hx
      exact h id (lt_size_of_node? hn) x hx
  | .updateScore _ score => inferInstanceAs (Decidable (score.isNaN = false))
  | .remove _ => inferInstanceAs (Decidable True)
  | .deleteByPath id => inferInstanceAs (Decidable ((l.entry? id).isSome = true))

instance decidablePermits : (es : List Edit) → (l : SkipList) → Decidable (l.Permits es)
  | [], _ => inferInstanceAs (Decidable True)
  | e :: es, l =>
    match h : l.edit e with
    | .ok (l', reply) =>
      have := decidablePermits es l'
      decidable_of_iff (e.Permitted l.entry? ∧ l'.Permits es) <| by
        simp [Permits, h]
    | .error fault => decidable_of_iff (e.Permitted l.entry?) <| by
        simp [Permits, h]

theorem edit_deleteByPath {l : SkipList} {id : Nat} (h : (l.entry? id).isSome) :
    l.edit (.deleteByPath id) = l.edit (.remove id) := by
  obtain ⟨e, he⟩ := Option.isSome_iff_exists.mp h
  obtain ⟨n, hn, rfl⟩ := exists_node_of_entry he
  simp only [edit, remove, hn]
  cases l.updatePath id <;> rfl

theorem WellFormed.edit_ok {l : SkipList} {ids : List Nat} (h : WellFormed l ids) {e : Edit}
    (he : e.Permitted l.entry?) : ∃ l' reply ids', l.edit e = .ok (l', reply) ∧ WellFormed l' ids' := by
  have hremove : ∀ id, ∃ l' reply ids', l.edit (.remove id) = .ok (l', reply) ∧ WellFormed l' ids' := by
    intro id
    obtain ⟨l', ids', hl', hwf, -⟩ := h.remove_ok id
    exact ⟨l', _, ids', by rw [edit, hl']; rfl, hwf⟩
  cases e with
  | insert e =>
    obtain ⟨l', ids', hl', hwf, -⟩ := h.insert_ok he.1 he.2
    exact ⟨l', _, ids', by rw [edit, hl']; rfl, hwf⟩
  | updateScore id score =>
    obtain ⟨l', ids', hl', hwf, -⟩ := h.updateScore_ok id he
    exact ⟨l', _, ids', by rw [edit, hl']; rfl, hwf⟩
  | remove id => exact hremove id
  | deleteByPath id =>
    rw [edit_deleteByPath he]
    exact hremove id

theorem WellFormed.edits_ok {ids : List Nat} (es : List Edit) {l : SkipList} (h : WellFormed l ids)
    (hes : l.Permits es) : ∃ l' replies ids', l.edits es = .ok (l', replies) ∧ WellFormed l' ids' := by
  induction es generalizing l ids with
  | nil => exact ⟨l, [], ids, rfl, h⟩
  | cons e es ih =>
    obtain ⟨m, reply, ids', hm, hwf⟩ := h.edit_ok hes.1
    obtain ⟨l', replies, ids'', hl', hwf'⟩ := ih hwf (hes.2 m reply hm)
    refine ⟨l', reply :: replies, ids'', ?_, hwf'⟩
    rw [edits, hm, ok_bind]
    simp only [hl', ok_bind]
    rfl

theorem Permits.take {es : List Edit} : ∀ {l : SkipList}, l.Permits es → ∀ n, l.Permits (es.take n) := by
  induction es with
  | nil => simp [Permits]
  | cons e es ih =>
    intro l h n
    cases n with
    | zero => trivial
    | succ n => exact ⟨h.1, fun l' reply hl' => ih (h.2 l' reply hl') n⟩

/-- After any number of permitted edits, an empty list has become a consistent one. -/
theorem edits_consistent (maxLevel : Nat) (towers : Towers) (es : List Edit)
    (h : (SkipList.empty maxLevel towers).Permits es) (n : Nat) :
    ∃ l replies, (SkipList.empty maxLevel towers).edits (es.take n) = .ok (l, replies) ∧ l.Consistent := by
  obtain ⟨l, replies, ids, hl, hwf⟩ := (WellFormed.empty maxLevel towers).edits_ok (es.take n) (h.take n)
  exact ⟨l, replies, hl, hwf.consistent⟩

theorem edits_consistent_moves : ∃ l replies, (SkipList.empty 16 (Towers.seeded 7)).edits
    ([.insert ⟨.one, [97]⟩, .insert ⟨.zero, [98]⟩, .insert ⟨.posInf, [99]⟩, .updateScore 0 .negInf,
      .remove 1, .insert ⟨.one, [98]⟩, .deleteByPath 0].take 7) = .ok (l, replies) ∧ l.Consistent :=
  edits_consistent 16 (Towers.seeded 7) _ (by decide +kernel) 7

end SkipList

end KeyEngine
