import KeyEngine.SkipList.Edit
import Mathlib.Data.List.DropRight
import Mathlib.Data.List.Nodup

/-!
# Links of a skip list

The links of a list in good order are a function of the nodes along the lowest level and of their
heights: on each level in use, a link leads to the next node that is tall enough, and its span counts
the nodes up to it. `Linked l ids` says so of a list and the slots of its nodes, ascending.
-/

namespace KeyEngine

theorem ok_bind {ε α β : Type} (a : α) (f : α → Except ε β) : (Except.ok a >>= f) = f a := rfl

/-! ## The greatest of some heights -/

theorem one_le_foldr_max (hs : List Nat) : 1 ≤ hs.foldr max 1 := by
  induction hs with
  | nil => exact Nat.le_refl _
  | cons a hs ih => exact Nat.le_trans ih (Nat.le_max_right _ _)

theorem le_foldr_max {hs : List Nat} {a : Nat} (h : a ∈ hs) : a ≤ hs.foldr max 1 := by
  induction hs with
  | nil => cases h
  | cons b hs ih =>
    rcases List.mem_cons.mp h with rfl | h
    · exact Nat.le_max_left _ _
    · exact Nat.le_trans (ih h) (Nat.le_max_right _ _)

theorem foldr_max_le {hs : List Nat} {n : Nat} (h : ∀ a ∈ hs, a ≤ n) (hn : 1 ≤ n) :
    hs.foldr max 1 ≤ n := by
  induction hs with
  | nil => exact hn
  | cons a hs ih =>
    rw [List.forall_mem_cons] at h
    exact Nat.max_le.mpr ⟨h.1, ih h.2⟩

theorem foldr_max_append (hs hs' : List Nat) :
    (hs ++ hs').foldr max 1 = max (hs.foldr max 1) (hs'.foldr max 1) := by
  induction hs with
  | nil =>
    have := one_le_foldr_max hs'
    simp only [List.nil_append, List.foldr_nil]; omega
  | cons a hs ih => simp only [List.cons_append, List.foldr_cons, ih]; omega

/-! ## Places along a list of nodes -/

namespace Place

def after (ids : List Nat) : Place :=
  match ids.getLast? with
  | some id => .node id
  | none => .head

@[simp] theorem after_nil : after [] = .head := rfl

@[simp] theorem after_concat (ids : List Nat) (id : Nat) : after (ids ++ [id]) = .node id := by
  simp [after]

theorem after_append {ids : List Nat} (h : ids ≠ []) (pre : List Nat) :
    after (pre ++ ids) = after ids := by
  obtain ⟨ids, id, rfl⟩ := List.eq_nil_or_concat ids |>.resolve_left h
  rw [List.concat_eq_append, ← List.append_assoc, after_concat, after_concat]

@[simp] theorem id?_after (ids : List Nat) : (after ids).id? = ids.getLast? := by
  unfold after
  cases ids.getLast? <;> rfl

theorem mem_of_after {ids : List Nat} {id : Nat} (h : after ids = .node id) : id ∈ ids := by
  have := id?_after ids
  rw [h] at this
  exact List.mem_of_getLast? this.symm

theorem after_inj {ids pre pre' post post' : List Nat} (hn : ids.Nodup) (h : pre ++ post = ids)
    (h' : pre' ++ post' = ids) (he : after pre = after pre') : pre = pre' := by
  rcases List.eq_nil_or_concat pre with rfl | ⟨xs, x, rfl⟩ <;>
    rcases List.eq_nil_or_concat pre' with rfl | ⟨ys, y, rfl⟩
  · rfl
  · simp at he
  · simp at he
  · simp only [List.concat_eq_append, after_concat, node.injEq] at he h h' ⊢
    subst he
    rw [List.append_assoc, List.singleton_append] at h h'
    have hx := h ▸ hn
    rw [List.nodup_middle, List.nodup_cons, List.mem_append, not_or] at hx
    rw [((List.append_cons_inj_of_notMem hx.1.1 hx.1.2).mp (h.trans h'.symm)).1]

end Place

/-! ## The link to the next tall node -/

/-- The link over the nodes that are not tall to the first one that is. -/
def linkTo (tall : Nat → Bool) : List Nat → Link
  | [] => ⟨none, 0⟩
  | id :: ids =>
    if tall id then ⟨some id, 1⟩ else ⟨(linkTo tall ids).target, (linkTo tall ids).span + 1⟩

section
variable {tall : Nat → Bool}

theorem linkTo_skip {xs : List Nat} (h : ∀ x ∈ xs, tall x = false) (ids : List Nat) :
    linkTo tall (xs ++ ids) = ⟨(linkTo tall ids).target, xs.length + (linkTo tall ids).span⟩ := by
  induction xs with
  | nil => simp
  | cons x xs ih =>
    rw [List.forall_mem_cons] at h
    simp [linkTo, h.1, ih h.2]
    omega

theorem linkTo_stop {id : Nat} (h : tall id = true) (xs ids ids' : List Nat) :
    linkTo tall (xs ++ id :: ids) = linkTo tall (xs ++ id :: ids') := by
  induction xs with
  | nil => simp [linkTo, h]
  | cons x xs ih => simp only [List.cons_append, linkTo, ih]

theorem linkTo_congr {tall' : Nat → Bool} {ids : List Nat} (h : ∀ x ∈ ids, tall x = tall' x) :
    linkTo tall ids = linkTo tall' ids := by
  induction ids with
  | nil => rfl
  | cons x ids ih =>
    rw [List.forall_mem_cons] at h
    simp only [linkTo, h.1, ih h.2]

theorem linkTo_none {ids : List Nat} (h : ∀ x ∈ ids, tall x = false) :
    linkTo tall ids = ⟨none, ids.length⟩ := by
  simpa [linkTo] using linkTo_skip h []

theorem target_linkTo_none {ids : List Nat} :
    (linkTo tall ids).target = none ↔ ∀ x ∈ ids, tall x = false := by
  induction ids with
  | nil => simp [linkTo]
  | cons x ids ih =>
    by_cases hx : tall x = true
    · simp [linkTo, hx]
    · simp [linkTo, hx, ih]

theorem mem_of_target {ids : List Nat} {id : Nat} (h : (linkTo tall ids).target = some id) :
    id ∈ ids := by
  induction ids with
  | nil => simp [linkTo] at h
  | cons x ids ih =>
    by_cases hx : tall x = true
    · simp [linkTo, hx] at h
      simp [h]
    · simp [linkTo, hx] at h
      exact List.mem_cons_of_mem _ (ih h)

theorem split_tall (tall : Nat → Bool) (ids : List Nat) :
    (∀ x ∈ ids, tall x = false) ∨
      ∃ xs id ys, ids = xs ++ id :: ys ∧ (∀ x ∈ xs, tall x = false) ∧ tall id = true := by
  induction ids with
  | nil => simp
  | cons x ids ih =>
    by_cases hx : tall x = true
    · exact .inr ⟨[], x, ids, rfl, by simp, hx⟩
    · rcases ih with h | ⟨xs, id, ys, rfl, h, hid⟩
      · exact .inl (by simp_all)
      · exact .inr ⟨x :: xs, id, ys, rfl, by simp_all, hid⟩

end

/-- What a node is besides the links it has. -/
def Node.frame (n : Node) : Entry × Option Nat × Nat :=
  (n.entry, n.back, n.links.size)

namespace SkipList

variable {l l' : SkipList}

/-! ## Links, heights and back links of a list -/

def link? (l : SkipList) (p : Place) (i : Nat) : Option Link :=
  match p with
  | .head => l.head[i]?
  | .node id => (l.node? id).bind (·.links[i]?)

def height (l : SkipList) (id : Nat) : Nat :=
  match l.node? id with
  | some node => node.links.size
  | none => 0

def tall (l : SkipList) (i id : Nat) : Bool :=
  i < l.height id

/-- The number of levels on which a place has links to follow. -/
def reach (l : SkipList) : Place → Nat
  | .head => l.level
  | .node id => l.height id

theorem link_of_link? {p : Place} {i : Nat} {k : Link} (h : l.link? p i = some k) :
    l.link p i = .ok k := by
  cases p with
  | head =>
    simp only [link?] at h
    simp only [link, links, bind, Except.bind, h]
    rfl
  | node id =>
    simp only [link?, Option.bind_eq_some_iff] at h
    obtain ⟨n, hn, hk⟩ := h
    simp only [link, links, node, hn, bind, Except.bind, pure, Except.pure, hk]

theorem link?_of_link {p : Place} {i : Nat} {k : Link} (hk : l.link p i = .ok k) : l.link? p i = some k := by
  unfold link links node at hk
  unfold link?
  cases p with
  | head =>
    cases hl : l.head[i]? <;> simp_all [bind, Except.bind, pure, Except.pure]
  | node id =>
    cases hn : l.node? id with
    | none => simp [hn, bind, Except.bind] at hk
    | some n => cases hl : n.links[i]? <;> simp_all [bind, Except.bind, pure, Except.pure]

theorem node_of_node? {id : Nat} {n : Node} (h : l.node? id = some n) : l.node id = .ok n := by
  simp [node, h]

theorem isSome_of_height_pos {id : Nat} (h : 0 < l.height id) : (l.node? id).isSome := by
  unfold height at h
  cases hn : l.node? id with
  | none => simp [hn] at h
  | some n => rfl

theorem node?_setNode (l : SkipList) (id : Nat) (n : Node) (j : Nat) :
    (l.setNode id n).node? j =
      if j = id ∧ id < l.nodes.size then some n else l.node? j := by
  simp only [node?, setNode, Array.getElem?_setIfInBounds]
  by_cases h : id = j
  · subst h
    by_cases hs : id < l.nodes.size
    · simp [hs]
    · simp [hs]
  · simp [h, Ne.symm h]

theorem lt_size_of_node? {id : Nat} {n : Node} (h : l.node? id = some n) : id < l.nodes.size := by
  by_contra hs
  simp [node?, Array.getElem?_eq_none (Nat.le_of_not_lt hs)] at h

theorem node?_setNode_live {id : Nat} {n : Node} (h : l.node? id = some n) (n' : Node) (j : Nat) :
    (l.setNode id n').node? j = if j = id then some n' else l.node? j := by
  simp [node?_setNode, lt_size_of_node? h]

/-! ## Changing links only -/

/-- The lists differ in nothing but links. -/
structure Relinked (l l' : SkipList) : Prop where
  free : l'.free = l.free
  tail : l'.tail = l.tail
  level : l'.level = l.level
  maxLevel : l'.maxLevel = l.maxLevel
  len : l'.len = l.len
  towers : l'.towers = l.towers
  size : l'.nodes.size = l.nodes.size
  headSize : l'.head.size = l.head.size
  node : ∀ id, (l'.node? id).map Node.frame = (l.node? id).map Node.frame

namespace Relinked

theorem refl (l : SkipList) : Relinked l l :=
  ⟨rfl, rfl, rfl, rfl, rfl, rfl, rfl, rfl, fun _ => rfl⟩

theorem trans {a b c : SkipList} (h : Relinked a b) (h' : Relinked b c) : Relinked a c :=
  ⟨h'.free.trans h.free, h'.tail.trans h.tail, h'.level.trans h.level, h'.maxLevel.trans h.maxLevel,
    h'.len.trans h.len, h'.towers.trans h.towers, h'.size.trans h.size, h'.headSize.trans h.headSize,
    fun id => (h'.node id).trans (h.node id)⟩

theorem height (h : Relinked l l') (id : Nat) : l'.height id = l.height id := by
  have := h.node id
  unfold SkipList.height
  cases hn : l.node? id <;> cases hn' : l'.node? id <;> simp_all [Node.frame]

theorem entry? (h : Relinked l l') (id : Nat) : l'.entry? id = l.entry? id := by
  have := h.node id
  unfold SkipList.entry?
  cases hn : l.node? id <;> cases hn' : l'.node? id <;> simp_all [Node.frame]

theorem prev (h : Relinked l l') (id : Nat) : l'.prev id = l.prev id := by
  have := h.node id
  unfold SkipList.prev
  cases hn : l.node? id <;> cases hn' : l'.node? id <;> simp_all [Node.frame]

end Relinked

theorem setLink_ok {p : Place} {i : Nat} {k : Link} (h : l.link? p i = some k) (k' : Link) :
    ∃ l', l.setLink p i k' = .ok l' ∧ Relinked l l' ∧
      ∀ q j, l'.link? q j = if q = p ∧ j = i then some k' else l.link? q j := by
  cases p with
  | head =>
    refine ⟨_, rfl, ⟨rfl, rfl, rfl, rfl, rfl, rfl, rfl, by simp, fun _ => rfl⟩, fun q j => ?_⟩
    cases q with
    | head =>
      have hi : i < l.head.size := (Array.getElem?_eq_some_iff.mp h).1
      by_cases hj : j = i
      · subst hj; simp [link?, hi]
      · simp [link?, hj, Ne.symm hj]
    | node id => simp [link?, node?]
  | node id =>
    obtain ⟨n, hn, hk⟩ := Option.bind_eq_some_iff.mp h
    have hi : i < n.links.size := (Array.getElem?_eq_some_iff.mp hk).1
    refine ⟨l.setNode id { n with links := n.links.setIfInBounds i k' }, ?_, ?_, fun q j => ?_⟩
    · simp [setLink, node_of_node? hn, bind, Except.bind, pure, Except.pure]
    · refine ⟨rfl, rfl, rfl, rfl, rfl, rfl, by simp [setNode], rfl, fun j => ?_⟩
      rw [node?_setNode_live hn]
      by_cases hj : j = id
      · subst hj; simp [hn, Node.frame]
      · simp [hj]
    · cases q with
      | head => simp [link?, setNode]
      | node id' =>
        simp only [link?, node?_setNode_live hn, Place.node.injEq]
        by_cases hid : id' = id
        · subst hid
          by_cases hj : j = i
          · subst hj; simp [hi]
          · simp [hn, hj, Ne.symm hj]
        · simp [hid]

/-! ## Back links -/

/-- The lists differ in nothing but the back link of one node, or in the tail if there is no node. -/
structure Rebacked (l l' : SkipList) (next back : Option Nat) : Prop where
  link? : ∀ p i, l'.link? p i = l.link? p i
  height : ∀ id, l'.height id = l.height id
  entry? : ∀ id, l'.entry? id = l.entry? id
  prev : ∀ id, l'.prev id = if next = some id then back else l.prev id
  tail : l'.tail = if next = none then back else l.tail
  head : l'.head = l.head
  level : l'.level = l.level
  maxLevel : l'.maxLevel = l.maxLevel
  len : l'.len = l.len
  free : l'.free = l.free
  size : l'.nodes.size = l.nodes.size

theorem setBack_ok {next : Option Nat} (h : ∀ id, next = some id → (l.node? id).isSome)
    (back : Option Nat) :
    ∃ l', (match next with
      | some id => l.setBack id back
      | none => pure { l with tail := back }) = .ok l' ∧ Rebacked l l' next back := by
  cases next with
  | none =>
    exact ⟨_, rfl, fun p i => by cases p <;> rfl, fun _ => rfl, fun _ => rfl, fun _ => by simp [prev, node?],
      by simp, rfl, rfl, rfl, rfl, rfl, rfl⟩
  | some id =>
    obtain ⟨n, hn⟩ := Option.isSome_iff_exists.mp (h id rfl)
    refine ⟨l.setNode id { n with back := back }, ?_, ⟨fun p i => ?_, fun j => ?_, fun j => ?_, fun j => ?_,
      by simp [setNode], rfl, rfl, rfl, rfl, rfl, by simp [setNode]⟩⟩
    · simp [setBack, node_of_node? hn, bind, Except.bind, pure, Except.pure]
    · cases p with
      | head => rfl
      | node j =>
        rw [link?, link?, node?_setNode_live hn]
        by_cases hj : j = id
        · subst hj; simp [hn]
        · simp [hj]
    · rw [height, height, node?_setNode_live hn]
      by_cases hj : j = id
      · subst hj; simp [hn]
      · simp [hj]
    · rw [SkipList.entry?, SkipList.entry?, node?_setNode_live hn]
      by_cases hj : j = id
      · subst hj; simp [hn]
      · simp [hj]
    · rw [prev, prev, node?_setNode_live hn]
      by_cases hj : j = id
      · subst hj; simp
      · simp [hj, Ne.symm hj]

/-! ## Lists in good order -/

/-- The list is linked up through the nodes `ids`, and through no others. -/
structure Linked (l : SkipList) (ids : List Nat) : Prop where
  nodup : ids.Nodup
  /-- On each of its levels, a place has the link to the next node of that height. -/
  links : ∀ pre post i, pre ++ post = ids → i < l.reach (.after pre) →
    l.link? (.after pre) i = some (linkTo (l.tall i) post)
  backs : ∀ pre id post, pre ++ id :: post = ids → l.prev id = pre.getLast?
  tail : l.tail = ids.getLast?
  height_pos : ∀ id ∈ ids, 0 < l.height id
  level : l.level = (ids.map l.height).foldr max 1
  idle : ∀ i, l.level ≤ i → i < l.maxLevel → l.head[i]? = some ⟨none, 0⟩
  headSize : l.head.size = l.maxLevel
  level_le : l.level ≤ l.maxLevel

namespace Linked

variable {ids : List Nat}

theorem live (h : Linked l ids) (id : Nat) (hid : id ∈ ids) : (l.node? id).isSome :=
  isSome_of_height_pos (h.height_pos id hid)

theorem level_pos (h : Linked l ids) : 0 < l.level :=
  h.level ▸ one_le_foldr_max _

theorem height_le (h : Linked l ids) {id : Nat} (hid : id ∈ ids) : l.height id ≤ l.level :=
  h.level ▸ le_foldr_max (List.mem_map_of_mem hid)

theorem mem_of_after_eq {pre post : List Nat} (he : pre ++ post = ids) {id : Nat}
    (h : Place.after pre = .node id) : id ∈ ids :=
  he ▸ List.mem_append_left _ (Place.mem_of_after h)

theorem reach_le (h : Linked l ids) (pre post : List Nat) (he : pre ++ post = ids) :
    l.reach (.after pre) ≤ l.level := by
  cases ha : Place.after pre with
  | head => exact Nat.le_refl _
  | node id => exact h.height_le (mem_of_after_eq he ha)

theorem congr (h : Linked l ids) (hhead : l'.head = l.head) (htail : l'.tail = l.tail)
    (hlevel : l'.level = l.level) (hmax : l'.maxLevel = l.maxLevel)
    (hnode : ∀ id ∈ ids, (l'.node? id).map (fun n => (n.back, n.links)) =
      (l.node? id).map fun n => (n.back, n.links)) : Linked l' ids := by
  have hheight : ∀ id ∈ ids, l'.height id = l.height id := fun id hid => by
    have := hnode id hid
    unfold height
    cases hn : l.node? id <;> cases hn' : l'.node? id <;> simp_all
  have htall : ∀ i, ∀ id ∈ ids, l'.tall i id = l.tall i id := fun i id hid => by
    simp [tall, hheight id hid]
  refine ⟨h.nodup, fun pre post i he hi => ?_, fun pre id post he => ?_,
    htail ▸ h.tail, fun id hid => hheight id hid ▸ h.height_pos id hid, ?_, ?_, by rw [hhead, hmax, h.headSize],
    by rw [hlevel, hmax]; exact h.level_le⟩
  · rw [linkTo_congr fun x hx => htall i x (he ▸ List.mem_append_right _ hx)]
    have hl := h.links pre post i he
    cases ha : Place.after pre with
    | head =>
      rw [ha] at hl hi
      simp only [reach, link?, hhead, hlevel] at *
      exact hl hi
    | node id =>
      have hid := mem_of_after_eq he ha
      rw [ha] at hl hi
      simp only [reach, hheight id hid] at *
      rw [← hl hi]
      have := hnode id hid
      unfold link?
      cases hn : l.node? id <;> cases hn' : l'.node? id <;> simp_all
  · have hid : id ∈ ids := by rw [← he]; simp
    rw [← h.backs pre id post he]
    have := hnode id hid
    unfold prev
    cases hn : l.node? id <;> cases hn' : l'.node? id <;> simp_all
  · rw [hlevel, h.level]
    congr 1
    exact List.map_congr_left fun id hid => (hheight id hid).symm
  · rw [hlevel, hmax, hhead]
    exact h.idle

end Linked

end SkipList

end KeyEngine
