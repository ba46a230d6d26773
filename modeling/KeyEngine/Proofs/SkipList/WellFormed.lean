import KeyEngine.Proofs.SkipList.Unlink

/-!
# Well-formed lists

A list is well-formed if it is linked up through the taken slots and no others, in ascending order. Every
change of a list keeps it so, and no change runs into a fault.
-/

namespace KeyEngine

/-- The entry with another score. A score that is the same number leaves it as it is. -/
def Entry.rescored (e : Entry) (score : Score) : Entry :=
  if e.score.same score then e else { e with score := score }

namespace SkipList

/-! ## Ascending slots -/

def Ascending (look : Nat → Option Entry) (ids : List Nat) : Prop :=
  ids.Pairwise fun a b => ∀ x y, look a = some x → look b = some y → x.before y = true

namespace Ascending

variable {look look' : Nat → Option Entry} {ids xs ys : List Nat} {id : Nat}

theorem congr (h : Ascending look ids) (he : ∀ id ∈ ids, look' id = look id) :
    Ascending look' ids :=
  h.imp_of_mem fun ha hb hab x y hx hy => hab x y (he _ ha ▸ hx) (he _ hb ▸ hy)

theorem middle (h : Ascending look (xs ++ id :: ys)) {e : Entry} (hid : look id = some e) :
    Ascending look (xs ++ ys) ∧ (∀ x ∈ xs, ∀ a, look x = some a → a.before e = true) ∧
      ∀ y ∈ ys, ∀ b, look y = some b → e.before b = true := by
  rw [Ascending, List.pairwise_append, List.pairwise_cons] at h
  obtain ⟨hxs, ⟨hid', hys⟩, hcross⟩ := h
  refine ⟨?_, fun x hx a ha => hcross x hx id (List.mem_cons_self) a e ha hid,
    fun y hy b hb => hid' y hy e b hid hb⟩
  rw [Ascending, List.pairwise_append]
  exact ⟨hxs, hys, fun x hx y hy => hcross x hx y (List.mem_cons_of_mem _ hy)⟩

theorem of_middle (h : Ascending look (xs ++ ys)) {e : Entry} (hid : look id = some e)
    (hxs : ∀ x ∈ xs, ∀ a, look x = some a → a.before e = true)
    (hys : ∀ y ∈ ys, ∀ b, look y = some b → e.before b = true) :
    Ascending look (xs ++ id :: ys) := by
  rw [Ascending, List.pairwise_append] at h
  rw [Ascending, List.pairwise_append, List.pairwise_cons]
  refine ⟨h.1, ⟨fun y hy x b hx hb => ?_, h.2.1⟩, fun x hx y hy => ?_⟩
  · cases hid.symm.trans hx
    exact hys y hy b hb
  · rcases List.mem_cons.mp hy with rfl | hy
    · intro a b ha hb
      cases hid.symm.trans hb
      exact hxs x hx a ha
    · exact h.2.2 x hx y hy

/-- A test that holds of an entry if it holds of one behind it parts the slots in two. -/
theorem parts (h : Ascending look ids) (p : Entry → Bool)
    (hp : ∀ a b, a.before b = true → p b = true → p a = true) :
    ∃ xs ys, ids = xs ++ ys ∧ (∀ x ∈ xs, ∀ a, look x = some a → p a = true) ∧
      ∀ y ∈ ys, ∀ b, look y = some b → p b = false := by
  induction ids with
  | nil => exact ⟨[], [], rfl, by simp, by simp⟩
  | cons id ids ih =>
    obtain ⟨hid, hids⟩ := List.pairwise_cons.mp h
    by_cases ht : ∀ e, look id = some e → p e = true
    · obtain ⟨xs, ys, rfl, hxs, hys⟩ := ih hids
      exact ⟨id :: xs, ys, rfl, List.forall_mem_cons.mpr ⟨ht, hxs⟩, hys⟩
    · push Not at ht
      obtain ⟨e, he, hpe⟩ := ht
      refine ⟨[], id :: ids, rfl, by simp, List.forall_mem_cons.mpr ⟨fun b hb => ?_, fun y hy b hb => ?_⟩⟩
      · cases he.symm.trans hb
        simpa using hpe
      · by_contra hpb
        exact hpe (hp e b (hid y hy e b he hb) (by simpa using hpb))

end Ascending

/-! ## The invariant -/

/-- The entries are numbered scores of different members, and the free slots are those without an entry. -/
structure Tidy (l : SkipList) : Prop where
  number : ∀ id e, l.entry? id = some e → e.score.isNaN = false
  distinct : ∀ a b x y, l.entry? a = some x → l.entry? b = some y → x.member = y.member → a = b
  freeNodup : l.free.Nodup
  free : ∀ id, id ∈ l.free ↔ id < l.nodes.size ∧ l.entry? id = none

/-- The list is in good order, and `ids` are the slots of its nodes, ascending. -/
structure WellFormed (l : SkipList) (ids : List Nat) : Prop extends Linked l ids, Tidy l where
  exact : ∀ id, id ∈ ids ↔ (l.entry? id).isSome
  ascending : Ascending l.entry? ids
  len : l.len = ids.length

theorem Tidy.of_kept {l l' : SkipList} (h : Tidy l) (hk : Kept l l') : Tidy l' := by
  refine ⟨?_, ?_, hk.free ▸ h.freeNodup, ?_⟩
  · simpa only [hk.entry?] using h.number
  · simpa only [hk.entry?] using h.distinct
  · simpa only [hk.entry?, hk.free, hk.size] using h.free

theorem entry_of_node {l : SkipList} {id : Nat} {n : Node} (h : l.node? id = some n) :
    l.entry? id = some n.entry := by
  rw [SkipList.entry?, h]
  rfl

theorem exists_node_of_entry {l : SkipList} {id : Nat} {e : Entry} (h : l.entry? id = some e) :
    ∃ n, l.node? id = some n ∧ n.entry = e :=
  Option.map_eq_some_iff.mp h

theorem parts_of_entries {l : SkipList} {p : Entry → Bool} {xs ys : List Nat}
    (hxs : ∀ x ∈ xs, ∀ a, l.entry? x = some a → p a = true)
    (hys : ∀ y ∈ ys, ∀ b, l.entry? y = some b → p b = false) :
    Parts l (fun _ _ n => p n.entry) xs ys :=
  ⟨fun pre id post n he hn => hxs id (by rw [← he]; simp) _ (entry_of_node hn),
    fun pre id post n he hn => hys id (by rw [← he]; simp) _ (entry_of_node hn)⟩

namespace WellFormed

variable {l l' : SkipList} {ids xs ys : List Nat} {id : Nat}

theorem mem_of_entry (h : WellFormed l ids) {e : Entry} (he : l.entry? id = some e) : id ∈ ids :=
  (h.exact id).mpr (he ▸ rfl)

theorem parts_node (h : WellFormed l (xs ++ id :: ys)) {n : Node} (hn : l.node? id = some n) :
    Parts l (fun _ ahead node => ahead ≠ id && node.entry.before n.entry) xs (id :: ys) := by
  obtain ⟨-, hxs, hys⟩ := h.ascending.middle (entry_of_node hn)
  have hid := h.toLinked.not_mem
  refine ⟨fun pre x post m he hm => ?_, fun pre y post m he hm => ?_⟩
  · have hx : x ∈ xs := by rw [← he]; simp
    have hne : x ≠ id := fun hxid => hid (List.mem_append_left _ (hxid ▸ hx))
    simp [hne, hxs x hx _ (entry_of_node hm)]
  · have hy : y ∈ id :: ys := by rw [← he]; simp
    rcases List.mem_cons.mp hy with rfl | hy
    · simp
    · have hlt := hys y hy _ (entry_of_node hm)
      have : m.entry.before n.entry = false := by
        by_contra hgt
        have := Entry.before_trans hlt (by simpa using hgt)
        rw [Entry.before_irrefl] at this
        cases this
      simp [this]

theorem split (h : WellFormed l ids) {e : Entry} (he : l.entry? id = some e) :
    ∃ xs ys, ids = xs ++ id :: ys :=
  List.append_of_mem (h.mem_of_entry he)

theorem empty (maxLevel : Nat) (towers : Towers) : WellFormed (SkipList.empty maxLevel towers) [] := by
  have hnone : ∀ id, SkipList.entry? (SkipList.empty maxLevel towers) id = none := fun id => rfl
  have hpos : 1 ≤ Config.clampLevel maxLevel := by
    simp only [Config.clampLevel, Config.clamp]
    omega
  refine ⟨⟨List.nodup_nil, fun pre post i he hi => ?_, by simp, rfl, by simp, rfl, fun i _ hi => ?_, ?_, hpos⟩,
    ⟨by simp [hnone], by simp [hnone], List.nodup_nil, by simp [SkipList.empty]⟩, by simp [hnone],
    List.Pairwise.nil, rfl⟩
  · obtain ⟨rfl, rfl⟩ := List.append_eq_nil_iff.mp he
    have : i < Config.clampLevel maxLevel := Nat.lt_of_lt_of_le hi hpos
    simp [SkipList.empty, link?, linkTo, this]
  · have : i < Config.clampLevel maxLevel := hi
    simp [SkipList.empty, this]
  · simp [SkipList.empty]

end WellFormed

/-! ## Placing and unlinking -/

section
variable {l : SkipList} {ids : List Nat} {id : Nat}

theorem place_wellFormed (h : Linked l ids) (ht : Tidy l) (ha : Ascending l.entry? ids)
    (hlen : l.len = ids.length) (hid : id ∉ ids) (hex : ∀ j, j ∈ ids ∨ j = id ↔ (l.entry? j).isSome) :
    ∃ l' ids', l.place id = .ok l' ∧ WellFormed { l' with len := l'.len + 1 } ids' ∧ Kept l l' := by
  obtain ⟨e, he⟩ := Option.isSome_iff_exists.mp ((hex id).mp (.inr rfl))
  obtain ⟨n, hn, rfl⟩ := exists_node_of_entry he
  obtain ⟨xs, ys, rfl, hxs, hys⟩ := ha.parts (·.before n.entry) fun a b hab hb => Entry.before_trans hab hb
  obtain ⟨l', hl', hlinked, hk, hlen'⟩ := place_ok h hid hn hlen (parts_of_entries hxs hys)
  -- a node behind has a greater entry, as its member is another
  have hys' : ∀ y ∈ ys, ∀ b, l.entry? y = some b → n.entry.before b = true := by
    intro y hy b hb
    have hne : b.member ≠ n.entry.member := fun hm =>
      hid (ht.distinct _ _ _ _ hb he hm ▸ List.mem_append_right _ hy)
    rcases Entry.before_or_before (ht.number _ _ hb) (ht.number _ _ he) hne with hlt | hgt
    · rw [hys y hy b hb] at hlt
      cases hlt
    · exact hgt
  have hk' : Kept l { l' with len := l'.len + 1 } := ⟨hk.entry?, hk.size, hk.free, hk.maxLevel⟩
  refine ⟨l', xs ++ id :: ys, hl', ⟨hlinked.congr rfl rfl rfl rfl fun _ _ => rfl, ht.of_kept hk', fun j => ?_,
    (ha.of_middle he hxs hys').congr fun j _ => hk'.entry? j, ?_⟩, hk⟩
  · rw [hk'.entry?, ← hex]
    simp only [List.mem_append, List.mem_cons]
    tauto
  · simp only [hlen', hlen, List.length_append, List.length_cons]
    omega

end

/-! ## Changes -/

def Assigns (l l' : SkipList) (id : Nat) (e : Option Entry) : Prop :=
  ∀ j, l'.entry? j = if j = id then e else l.entry? j

/-- The slot that the next node gets: the one freed last, or else a new one. -/
def nextSlot (l : SkipList) : Nat :=
  l.free.headD l.nodes.size

theorem nextSlot_cases (l : SkipList) :
    l.free = [] ∧ l.nextSlot = l.nodes.size ∨ ∃ free, l.free = l.nextSlot :: free := by
  unfold nextSlot
  cases l.free with
  | nil => exact .inl ⟨rfl, rfl⟩
  | cons id free => exact .inr ⟨free, rfl⟩

theorem alloc_ok {l : SkipList} (h : ∀ id, id ∈ l.free → id < l.nodes.size) (node : Node) :
    (l.alloc node).2 = l.nextSlot ∧
      (∀ j, (l.alloc node).1.node? j = if j = l.nextSlot then some node else l.node? j) ∧
      (l.alloc node).1.free = l.free.tail ∧
      (l.alloc node).1.nodes.size = max l.nodes.size (l.nextSlot + 1) := by
  unfold alloc nextSlot
  cases hf : l.free with
  | nil =>
    refine ⟨rfl, fun j => ?_, rfl, by simp⟩
    simp only [node?, Array.getElem?_push, List.headD_nil]
    split
    · simp [*]
    · simp [*]
  | cons id free =>
    have hid := h id (hf ▸ List.mem_cons_self)
    refine ⟨rfl, fun j => ?_, rfl, by simp; omega⟩
    simp only [node?, List.headD_cons, Array.getElem?_setIfInBounds]
    by_cases hj : id = j
    · subst hj
      simp [hid]
    · simp [hj, Ne.symm hj]

theorem allows_ok (l : SkipList) (test : Entry → Bool) (o : Option Nat) (h : ∀ id, o = some id → (l.node? id).isSome) :
    ∃ b, l.allows test o = .ok b ∧
      (b = true → ∀ id e, o = some id → l.entry? id = some e → test e = true) := by
  cases o with
  | none => exact ⟨true, rfl, fun _ _ _ ho => by cases ho⟩
  | some id =>
    obtain ⟨n, hn⟩ := Option.isSome_iff_exists.mp (h id rfl)
    refine ⟨test n.entry, by rw [allows, node_of_node? hn]; rfl, fun ht j e hj he => ?_⟩
    cases hj
    cases (entry_of_node hn).symm.trans he
    exact ht

namespace WellFormed

variable {l l' : SkipList} {ids xs ys : List Nat} {id : Nat}

theorem nextSlot_free (h : WellFormed l ids) : l.entry? l.nextSlot = none := by
  rcases l.nextSlot_cases with ⟨-, hs⟩ | ⟨free, hf⟩
  · simp [hs, SkipList.entry?, node?]
  · exact ((h.free l.nextSlot).mp (hf ▸ List.mem_cons_self)).2

theorem tidy_alloc (h : Tidy l) {e : Entry} (he : e.score.isNaN = false)
    (hnew : ∀ id x, l.entry? id = some x → x.member ≠ e.member) (hassign : Assigns l l' l.nextSlot (some e))
    (hfree : l'.free = l.free.tail) (hsize : l'.nodes.size = max l.nodes.size (l.nextSlot + 1)) : Tidy l' := by
  refine ⟨fun j x hx => ?_, fun a b x y hx hy hxy => ?_, ?_, fun j => ?_⟩
  · rw [hassign] at hx
    split at hx
    · cases hx; exact he
    · exact h.number j x hx
  · rw [hassign] at hx hy
    split at hx <;> split at hy
    · simp [*]
    · cases hx; exact absurd hxy.symm (hnew b y hy)
    · cases hy; exact absurd hxy (hnew a x hx)
    · exact h.distinct a b x y hx hy hxy
  · rw [hfree]
    exact h.freeNodup.tail
  · have hmem := h.free j
    have hn := h.freeNodup
    rw [hassign, hfree, hsize]
    rcases l.nextSlot_cases with ⟨hf, hs⟩ | ⟨free, hf⟩
    · rw [hf] at hmem ⊢
      simp only [List.tail_nil, List.not_mem_nil, false_iff] at hmem ⊢
      by_cases hj : j = l.nextSlot
      · simp [hj]
      · rw [if_neg hj]
        exact fun hj' => hmem ⟨by omega, hj'.2⟩
    · have hlt := ((h.free l.nextSlot).mp (hf ▸ List.mem_cons_self)).1
      rw [hf] at hmem hn ⊢
      rw [List.nodup_cons] at hn
      rw [List.mem_cons] at hmem
      rw [List.tail_cons, show max l.nodes.size (l.nextSlot + 1) = l.nodes.size by omega]
      by_cases hj : j = l.nextSlot
      · simp [hj, hn.1]
      · simpa [hj] using hmem

theorem insert_ok (h : WellFormed l ids) {e : Entry} (he : e.score.isNaN = false)
    (hnew : ∀ id x, l.entry? id = some x → x.member ≠ e.member) :
    ∃ l' ids', l.insert e = .ok (l', l.nextSlot) ∧ WellFormed l' ids' ∧
      Assigns l l' l.nextSlot (some e) ∧ l'.free = l.free.tail ∧
      l'.nodes.size = max l.nodes.size (l.nextSlot + 1) := by
  obtain ⟨hid, hnode, hfree, hsize⟩ := alloc_ok (fun id hid => ((h.free id).mp hid).1) ⟨e, none, #[]⟩
  obtain ⟨m, hm⟩ : ∃ m, m = (l.alloc ⟨e, none, #[]⟩).1 := ⟨_, rfl⟩
  rw [← hm] at hnode hfree hsize
  have hslot := h.nextSlot_free
  have hnot : l.nextSlot ∉ ids := by simp [h.exact, hslot]
  have hne : ∀ j ∈ ids, j ≠ l.nextSlot := fun j hj hjs => hnot (hjs ▸ hj)
  have hassign : Assigns l m l.nextSlot (some e) := fun j => by
    rw [SkipList.entry?, hnode]
    split <;> rfl
  have hsame : ∀ j ∈ ids, m.entry? j = l.entry? j := fun j hj => by rw [hassign, if_neg (hne j hj)]
  have hrest : m.head = l.head ∧ m.tail = l.tail ∧ m.level = l.level ∧ m.maxLevel = l.maxLevel ∧ m.len = l.len := by
    rw [hm, alloc]
    cases l.free <;> exact ⟨rfl, rfl, rfl, rfl, rfl⟩
  obtain ⟨hhead, htail, hlevel, hmax, hlen⟩ := hrest
  obtain ⟨l', ids', hplace, hwf, hk⟩ := place_wellFormed
    (h.congr hhead htail hlevel hmax fun j hj => by rw [hnode, if_neg (hne j hj)])
    (tidy_alloc h.toTidy he hnew hassign hfree hsize) (h.ascending.congr hsame)
    (hlen.trans h.len) hnot (fun j => by
      rw [hassign, h.exact]
      split <;> simp [*])
  refine ⟨{ l' with len := l'.len + 1 }, ids', ?_, hwf, fun j => ?_, ?_, ?_⟩
  · have hpair : l.alloc ⟨e, none, #[]⟩ = (m, l.nextSlot) := by rw [hm, ← hid]
    rw [insert, hpair]
    simp only [hplace, ok_bind]
    rfl
  · exact (hk.entry? j).trans (hassign j)
  · exact hk.free.trans hfree
  · exact hk.size.trans hsize

theorem tidy_delete (h : Tidy l) {e : Entry} (he : l.entry? id = some e)
    (hassign : Assigns l l' id none) (hfree : l'.free = id :: l.free)
    (hsize : l'.nodes.size = l.nodes.size) : Tidy l' := by
  refine ⟨fun j x hx => ?_, fun a b x y hx hy hxy => ?_, ?_, fun j => ?_⟩
  · rw [hassign] at hx
    split at hx
    · cases hx
    · exact h.number j x hx
  · rw [hassign] at hx hy
    split at hx
    · cases hx
    · split at hy
      · cases hy
      · exact h.distinct a b x y hx hy hxy
  · rw [hfree, List.nodup_cons, h.free, he]
    exact ⟨by simp, h.freeNodup⟩
  · obtain ⟨n, hn, -⟩ := exists_node_of_entry he
    rw [hfree, hsize, List.mem_cons, h.free, hassign]
    by_cases hj : j = id
    · simp [hj, lt_size_of_node? hn]
    · simp [hj]

/-- Removing a node by a path that leads to it. The path leads to the node that follows, too. -/
theorem delete_ok (h : WellFormed l (xs ++ id :: ys)) {path : Path} (hp : LeadsTo l xs path) :
    ∃ l', l.delete id path = .ok (l', l.entry? id) ∧ WellFormed l' (xs ++ ys) ∧ LeadsTo l' xs path ∧
      Assigns l l' id none ∧ l'.free = id :: l.free ∧ l'.nodes.size = l.nodes.size := by
  obtain ⟨n, hn⟩ := h.exists_node id (by simp)
  have hid := h.toLinked.not_mem
  have hlen := h.len
  obtain ⟨m, hm, hlinked, hk, hmlen, hheight, hlevel⟩ := h.toLinked.unlink_ok hp (by
    rw [hlen, List.length_append, List.length_cons]; omega)
  let l' : SkipList := { m with nodes := m.nodes.setIfInBounds id none, free := id :: m.free }
  have hne : ∀ j ∈ xs ++ ys, j ≠ id := fun j hj hji => hid (hji ▸ hj)
  have hnode : ∀ j, l'.node? j = if j = id then none else m.node? j := fun j => by
    simp only [l', node?, Array.getElem?_setIfInBounds]
    by_cases hj : id = j
    · subst hj
      simp only [if_true]
      split <;> rfl
    · simp [hj, Ne.symm hj]
  have hassign : Assigns l l' id none := fun j => by
    rw [← hk.entry?, SkipList.entry?, hnode]
    split <;> rfl
  have hsize : l'.nodes.size = l.nodes.size := by simp [l', hk.size]
  have hfree : l'.free = id :: l.free := by simp [l', hk.free]
  have hlinked' : Linked l' (xs ++ ys) :=
    hlinked.congr rfl rfl rfl rfl fun j hj => by rw [hnode, if_neg (hne j hj)]
  have htidy : Tidy l' := tidy_delete h.toTidy (entry_of_node hn) hassign hfree hsize
  refine ⟨l', ?_, ⟨hlinked', htidy, fun j => ?_, ?_, ?_⟩, ?_, hassign, hfree, hsize⟩
  · rw [delete, hn]
    simp only [hm, ok_bind, entry_of_node hn]
    rfl
  · have := h.exact j
    rw [hassign]
    by_cases hj : j = id
    · simp only [hj, if_true, Option.isSome_none, Bool.false_eq_true, iff_false]
      exact hid
    · simpa [hj] using this
  · exact (h.ascending.middle (entry_of_node hn)).1.congr fun j hj => by rw [hassign, if_neg (hne j hj)]
  · refine hmlen.trans ?_
    simp [hlen]
  · refine hp.congr hlevel fun x hx => ?_
    rw [height, hnode, if_neg (hne x (List.mem_append_left _ hx))]
    exact hheight x

theorem deleteAll_ok : ∀ (run : List Nat) (l : SkipList), WellFormed l (xs ++ run ++ ys) →
    ∀ path, LeadsTo l xs path →
      ∃ l', deleteAll path run l = .ok (l', run.map l.entry?) ∧ WellFormed l' (xs ++ ys) ∧
        ∀ j, l'.entry? j = if j ∈ run then none else l.entry? j
  | [], l, h, path, _ => ⟨l, rfl, by simpa using h, by simp⟩
  | id :: run, l, h, path, hp => by
    obtain ⟨m, hm, hwf, hpath, hassign, -, -⟩ := delete_ok
      (show WellFormed l (xs ++ id :: (run ++ ys)) by simpa using h) hp
    obtain ⟨l', hl', hwf', hentry⟩ := deleteAll_ok run m (by simpa using hwf) path hpath
    have hid : id ∉ run := fun hid => by
      have := h.nodup
      simp [List.nodup_append, hid] at this
    refine ⟨l', ?_, hwf', fun j => ?_⟩
    · have hmap : run.map m.entry? = run.map l.entry? := List.map_congr_left fun j hj => by
        rw [hassign, if_neg (show j ≠ id from fun hji => hid (hji ▸ hj))]
      rw [deleteAll, hm, ok_bind]
      simp only [hl', ok_bind, hmap]
      rfl
    · rw [hentry, hassign]
      by_cases hj : j = id
      · simp [hj]
      · simp [hj]

theorem removeRun_ok {run : List Nat} (h : WellFormed l (xs ++ run ++ ys)) :
    ∃ l', l.removeRun run = .ok (l', run.map l.entry?) ∧ WellFormed l' (xs ++ ys) ∧
      ∀ j, l'.entry? j = if j ∈ run then none else l.entry? j := by
  cases run with
  | nil => exact ⟨l, rfl, by simpa using h, by simp⟩
  | cons id run =>
    have h' : WellFormed l (xs ++ id :: (run ++ ys)) := by simpa using h
    obtain ⟨n, hn⟩ := h'.exists_node id (by simp)
    obtain ⟨path, hpath, hleads⟩ := h'.toLinked.updatePath_ok hn (h'.parts_node hn)
    rw [removeRun, hpath, ok_bind]
    exact deleteAll_ok (id :: run) l h path hleads

theorem remove_ok (h : WellFormed l ids) (id : Nat) :
    ∃ l' ids', l.remove id = .ok (l', l.entry? id) ∧ WellFormed l' ids' ∧ Assigns l l' id none ∧
      l'.free = (if (l.entry? id).isSome then id :: l.free else l.free) ∧ l'.nodes.size = l.nodes.size := by
  cases hn : l.node? id with
  | none =>
    have he : l.entry? id = none := by rw [SkipList.entry?, hn]; rfl
    refine ⟨l, ids, by rw [remove, hn, he]; rfl, h, fun j => ?_, by simp [he], rfl⟩
    split <;> simp [*]
  | some n =>
    obtain ⟨xs, ys, rfl⟩ := h.split (entry_of_node hn)
    obtain ⟨path, hpath, hleads⟩ := h.toLinked.updatePath_ok hn (h.parts_node hn)
    obtain ⟨l', hl', hwf, -, hassign, hfree, hsize⟩ := h.delete_ok hleads
    refine ⟨l', _, ?_, hwf, hassign, by simpa [entry_of_node hn] using hfree, hsize⟩
    rw [remove, hn]
    simp only [hpath, ok_bind, hl']

theorem tidy_assign (h : Tidy l) {e e' : Entry} (he : l.entry? id = some e)
    (hassign : Assigns l l' id (some e')) (hm : e'.member = e.member) (hs : e'.score.isNaN = false)
    (hfree : l'.free = l.free) (hsize : l'.nodes.size = l.nodes.size) : Tidy l' := by
  refine ⟨fun j x hx => ?_, fun a b x y hx hy hxy => ?_, hfree ▸ h.freeNodup, fun j => ?_⟩
  · rw [hassign] at hx
    split at hx
    · cases hx; exact hs
    · exact h.number j x hx
  · rw [hassign] at hx hy
    split at hx <;> split at hy
    · simp [*]
    · cases hx; subst a; exact h.distinct id b e y he hy (hm ▸ hxy)
    · cases hy; subst b; exact h.distinct a id x e hx he (hm ▸ hxy)
    · exact h.distinct a b x y hx hy hxy
  · rw [hfree, hsize, h.free, hassign]
    by_cases hj : j = id
    · simp [hj, he]
    · simp [hj]

/-- An entry that fits between the neighbours of a node stands in order with all other nodes. -/
theorem fits_ok (h : WellFormed l (xs ++ id :: ys)) {n : Node} (hn : l.node? id = some n) (e : Entry) :
    ∃ b, l.fits n e = .ok b ∧ (b = true → (∀ x ∈ xs, ∀ a, l.entry? x = some a → a.before e = true) ∧
      ∀ y ∈ ys, ∀ b, l.entry? y = some b → e.before b = true) := by
  have hback : n.back = xs.getLast? := by
    have := h.prev_eq
    rwa [prev, hn] at this
  have hnext : n.next = ys.head? := by
    have := h.next_eq
    rwa [next, hn] at this
  obtain ⟨b₁, hb₁, hxs⟩ := l.allows_ok (·.before e) xs.getLast? fun x hx =>
    h.live x (List.mem_append_left _ (List.mem_of_getLast? hx))
  obtain ⟨b₂, hb₂, hys⟩ := l.allows_ok e.before ys.head? fun y hy =>
    h.live y (List.mem_append_right _ (List.mem_cons_of_mem _ (List.mem_of_head? hy)))
  refine ⟨b₁ && b₂, by rw [fits, hback, hnext, hb₁, ok_bind, hb₂, ok_bind]; rfl, fun hb => ⟨?_, ?_⟩⟩
  · rw [Bool.and_eq_true] at hb
    rcases List.eq_nil_or_concat xs with rfl | ⟨zs, z, rfl⟩
    · simp
    · rw [List.concat_eq_append] at *
      obtain ⟨m, hm⟩ := h.exists_node z (by simp)
      have hz := hxs hb.1 z _ (by simp) (entry_of_node hm)
      have hlast : Ascending l.entry? (zs ++ z :: id :: ys) := by simpa using h.ascending
      have hzs := (hlast.middle (entry_of_node hm)).2.1
      intro x hx a ha
      rcases List.mem_append.mp hx with hx | hx
      · exact Entry.before_trans (hzs x hx a ha) hz
      · cases List.mem_singleton.mp hx
        cases (entry_of_node hm).symm.trans ha
        exact hz
  · rw [Bool.and_eq_true] at hb
    cases ys with
    | nil => simp
    | cons z ys =>
      obtain ⟨m, hm⟩ := h.exists_node z (by simp)
      have hz := hys hb.2 z _ rfl (entry_of_node hm)
      have hrest : Ascending l.entry? ((xs ++ [id]) ++ z :: ys) := by simpa using h.ascending
      have hzs := (hrest.middle (entry_of_node hm)).2.2
      intro y hy b hb
      rcases List.mem_cons.mp hy with rfl | hy
      · cases (entry_of_node hm).symm.trans hb
        exact hz
      · exact Entry.before_trans hz (hzs y hy b hb)

/-- The node keeps its place if the entry it is given fits there. -/
theorem replace_ok (h : WellFormed l (xs ++ id :: ys)) {n : Node} (hn : l.node? id = some n) {e : Entry}
    (hm : e.member = n.entry.member) (hs : e.score.isNaN = false)
    (hxs : ∀ x ∈ xs, ∀ a, l.entry? x = some a → a.before e = true)
    (hys : ∀ y ∈ ys, ∀ b, l.entry? y = some b → e.before b = true)
    (hl' : l' = l.setNode id { n with entry := e }) :
    WellFormed l' (xs ++ id :: ys) ∧ Assigns l l' id (some e) ∧ l'.free = l.free ∧
      l'.nodes.size = l.nodes.size := by
  have hid := h.toLinked.not_mem
  have hne : ∀ j ∈ xs ++ ys, j ≠ id := fun j hj hji => hid (hji ▸ hj)
  have he := entry_of_node hn
  have hassign : Assigns l l' id (some e) := fun j => by
    rw [hl', SkipList.entry?, node?_setNode_live hn]
    split <;> rfl
  have hsize : l'.nodes.size = l.nodes.size := by simp [hl', setNode]
  have hfree : l'.free = l.free := by rw [hl']; rfl
  have hlinked : Linked l' (xs ++ id :: ys) := by
    subst hl'
    refine h.congr rfl rfl rfl rfl fun j _ => ?_
    rw [node?_setNode_live hn]
    split <;> simp [*]
  have hascend : Ascending l'.entry? (xs ++ id :: ys) := by
    apply Ascending.of_middle ((h.ascending.middle he).1.congr _) (by rw [hassign, if_pos rfl])
    · intro x hx a ha
      rw [hassign, if_neg (hne x (List.mem_append_left _ hx))] at ha
      exact hxs x hx a ha
    · intro y hy b hb
      rw [hassign, if_neg (hne y (List.mem_append_right _ hy))] at hb
      exact hys y hy b hb
    · intro j hj
      rw [hassign, if_neg (hne j hj)]
  have hexact : ∀ j, j ∈ xs ++ id :: ys ↔ (l'.entry? j).isSome := by
    intro j
    rw [h.exact, hassign]
    split <;> simp [*]
  have hlen : l'.len = (xs ++ id :: ys).length := by rw [hl']; exact h.len
  exact ⟨⟨hlinked, tidy_assign h.toTidy he hassign hm hs hfree hsize, hexact, hascend, hlen⟩, hassign,
    hfree, hsize⟩

/-- The node is unlinked, and placed again with the entry it is given. -/
theorem relocate_ok (h : WellFormed l (xs ++ id :: ys)) {n : Node} (hn : l.node? id = some n) {e : Entry}
    (hm : e.member = n.entry.member) (hs : e.score.isNaN = false) :
    ∃ path m u l' ids', l.updatePath id = .ok path ∧ l.unlink id path = .ok m ∧ m.node? id = some u ∧
      (m.setNode id { u with entry := e }).place id = .ok l' ∧
      WellFormed { l' with len := l'.len + 1 } ids' ∧ Assigns l l' id (some e) ∧ l'.free = l.free ∧
      l'.nodes.size = l.nodes.size := by
  have he := entry_of_node hn
  have hid := h.toLinked.not_mem
  have hne : ∀ j ∈ xs ++ ys, j ≠ id := fun j hj hji => hid (hji ▸ hj)
  have hlen : l.len = (xs ++ ys).length + 1 := by
    rw [h.len, List.length_append, List.length_append, List.length_cons, Nat.add_assoc]
  obtain ⟨path, hpath, hleads⟩ := h.toLinked.updatePath_ok hn (h.parts_node hn)
  obtain ⟨m, hunlink, hlinked, hk, hmlen, -, -⟩ := h.toLinked.unlink_ok hleads (by omega)
  obtain ⟨u, hu, -⟩ := exists_node_of_entry ((hk.entry? id).trans he)
  obtain ⟨m', hm'⟩ : ∃ m', m' = m.setNode id { u with entry := e } := ⟨_, rfl⟩
  have hassign : Assigns l m' id (some e) := fun j => by
    rw [← hk.entry? j, hm', SkipList.entry?, node?_setNode_live hu]
    split <;> rfl
  have hsize : m'.nodes.size = l.nodes.size := by simp [hm', setNode, hk.size]
  have hfree : m'.free = l.free := by rw [hm']; exact hk.free
  have hlinked' : Linked m' (xs ++ ys) := by
    subst hm'
    refine hlinked.congr rfl rfl rfl rfl fun j hj => ?_
    rw [node?_setNode_live hu, if_neg (hne j hj)]
  have hascend : Ascending m'.entry? (xs ++ ys) := by
    apply (h.ascending.middle he).1.congr
    intro j hj
    rw [hassign, if_neg (hne j hj)]
  have hexact : ∀ j, j ∈ xs ++ ys ∨ j = id ↔ (m'.entry? j).isSome := by
    intro j
    rw [hassign]
    by_cases hj : j = id
    · simp [hj]
    · rw [if_neg hj, ← h.exact]
      simp [hj]
  have hlen' : m'.len = (xs ++ ys).length := by
    rw [hm']
    exact hmlen.trans (by rw [hlen]; rfl)
  obtain ⟨l', ids', hplace, hwf, hk'⟩ := place_wellFormed hlinked'
    (tidy_assign h.toTidy he hassign hm hs hfree hsize) hascend hlen' hid hexact
  refine ⟨path, m, u, l', ids', hpath, hunlink, hu, hm' ▸ hplace, hwf, ?_, hk'.free.trans hfree,
    hk'.size.trans hsize⟩
  intro j
  exact (hk'.entry? j).trans (hassign j)

theorem updateScore_ok (h : WellFormed l ids) (id : Nat) {score : Score} (hs : score.isNaN = false) :
    ∃ l' ids', l.updateScore id score = .ok l' ∧ WellFormed l' ids' ∧
      Assigns l l' id ((l.entry? id).map (·.rescored score)) ∧ l'.free = l.free ∧
      l'.nodes.size = l.nodes.size := by
  cases hn : l.node? id with
  | none =>
    have he : l.entry? id = none := by rw [SkipList.entry?, hn]; rfl
    refine ⟨l, ids, by rw [updateScore, hn]; rfl, h, fun j => ?_, rfl, rfl⟩
    split <;> simp [*]
  | some n =>
    have he := entry_of_node hn
    rw [he, Option.map_some, Entry.rescored, updateScore, hn]
    by_cases hsame : n.entry.score.same score = true
    · refine ⟨l, ids, ?_, h, fun j => ?_, rfl, rfl⟩
      · simp only [hsame, if_true]
        rfl
      · split <;> simp [*]
    · simp only [if_neg hsame]
      obtain ⟨xs, ys, rfl⟩ := h.split he
      obtain ⟨b, hb, hfits⟩ := h.fits_ok hn { n.entry with score := score }
      cases b with
      | true =>
        obtain ⟨hxs, hys⟩ := hfits rfl
        refine ⟨_, xs ++ id :: ys, ?_, h.replace_ok hn rfl hs hxs hys rfl⟩
        simp only [hb, ok_bind, if_true]
        rfl
      | false =>
        obtain ⟨path, m, u, l', ids', hpath, hunlink, hu, hplace, hwf, hassign, hfree, hsize⟩ :=
          h.relocate_ok hn (e := { n.entry with score := score }) rfl hs
        refine ⟨{ l' with len := l'.len + 1 }, ids', ?_, hwf, hassign, hfree, hsize⟩
        simp only [hb, ok_bind, hpath, hunlink, node_of_node? hu, Bool.false_eq_true, if_false, hplace]
        rfl

end WellFormed

end SkipList

end KeyEngine
