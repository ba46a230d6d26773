import KeyEngine.Proofs.SkipList.View

/-!
# Ranks and neighbours

On a well-formed list the spans that a search adds up are positions, so the ranks, the nodes of given
ranks and the neighbours are those of the plain list of its slots.
-/

namespace KeyEngine.SkipList

theorem map_find? {α β : Type} {p : α → Bool} {g : α → β} {b : β} {xs : List α}
    (hex : ∃ a ∈ xs, p a = true) (hb : ∀ a ∈ xs, p a = true → g a = b) : (xs.find? p).map g = some b := by
  cases hf : xs.find? p with
  | none =>
    obtain ⟨a, ha, hpa⟩ := hex
    exact absurd hpa (List.find?_eq_none.mp hf a ha)
  | some a => exact congrArg some (hb a (List.mem_of_find?_eq_some hf) (List.find?_some hf))

theorem idxOf?_middle {α : Type} [BEq α] [LawfulBEq α] {xs : List α} {a : α} (h : a ∉ xs) (ys : List α) :
    (xs ++ a :: ys).idxOf? a = some xs.length := by
  induction xs with
  | nil => simp [List.idxOf?_cons]
  | cons x xs ih =>
    rw [List.mem_cons, not_or] at h
    rw [List.cons_append, List.idxOf?_cons, if_neg (by simpa using Ne.symm h.1), ih h.2]
    rfl

theorem Linked.follow_eq {l : SkipList} (test : Node → Bool) : ∀ (ys xs : List Nat) (n : Nat),
    Linked l (xs ++ ys) →
      l.follow test n ys.head? = .ok ((ys.takeWhile fun id => (l.node? id).any test).take n)
  | [], _, n, _ => by cases n <;> rfl
  | id :: ys, xs, 0, _ => rfl
  | id :: ys, xs, n + 1, h => by
    obtain ⟨node, hnode⟩ := h.exists_node id (by simp)
    have hnext := h.next_eq
    rw [next, hnode, Option.bind_some] at hnext
    have ih := Linked.follow_eq test ys (xs ++ [id]) n (by simpa using h)
    rw [List.head?_cons, follow, node_of_node? hnode, ok_bind, hnext]
    by_cases ht : test node = true
    · rw [if_pos ht, ih]
      simp [hnode, ht, ok_bind, pure, Except.pure]
    · rw [if_neg ht]
      simp [hnode, ht, pure, Except.pure]

namespace WellFormed

variable {l : SkipList} {ids : List Nat}

theorem node?_none (h : WellFormed l ids) {id : Nat} (hid : id ∉ ids) : l.node? id = none := by
  rw [h.exact, SkipList.entry?, Option.isSome_map] at hid
  simpa using hid

/-- The stops whose link leads to the node agree on its rank. -/
theorem rank_of_stop {xs ys : List Nat} {id : Nat} (h : WellFormed l (xs ++ id :: ys)) {i : Nat}
    (ht : (l.stopAt xs (id :: ys) i).link.target = some id) :
    (l.stopAt xs (id :: ys) i).rank + (l.stopAt xs (id :: ys) i).link.span = xs.length + 1 := by
  have hlen := length_passed_le l i xs
  have hskip : ∀ x ∈ l.skipped i xs, l.tall i x = false := fun x hx => tall_skipped hx
  simp only [stopAt] at ht ⊢
  rw [linkTo_skip hskip] at ht ⊢
  by_cases hid : l.tall i id = true
  · simp only [linkTo, hid, if_true]
    omega
  · rw [linkTo, if_neg hid] at ht
    exact absurd (List.mem_append_right xs (mem_of_target ht)) h.toLinked.not_mem

theorem rankOf_eq (h : WellFormed l ids) (id : Nat) :
    l.rankOf id = .ok ((ids.idxOf? id).map (· + 1)) := by
  by_cases hid : id ∈ ids
  · obtain ⟨xs, ys, rfl⟩ := List.append_of_mem hid
    obtain ⟨n, hn⟩ := h.exists_node id hid
    have hxs : id ∉ xs := fun hx => h.toLinked.not_mem (List.mem_append_left _ hx)
    have hfind : (((List.range l.level).map (l.stopAt xs (id :: ys))).reverse.find?
        (·.link.target = some id)).map (fun s => s.rank + s.link.span) = some (xs.length + 1) := by
      refine map_find? ⟨l.stopAt xs (id :: ys) 0, ?_, ?_⟩ fun s hs ht => ?_
      · simp only [List.mem_reverse, List.mem_map, List.mem_range]
        exact ⟨0, h.level_pos, rfl⟩
      · have hpos : l.tall 0 id = true := by simpa [tall] using h.height_pos id hid
        simp [h.stopAt_zero, linkTo, hpos]
      · simp only [List.mem_reverse, List.mem_map, List.mem_range] at hs
        obtain ⟨i, -, rfl⟩ := hs
        exact h.rank_of_stop (by simpa using ht)
    rw [rankOf, hn, idxOf?_middle hxs]
    simp only [h.search_eq (h.parts_node hn), ok_bind, hfind]
    rfl
  · rw [rankOf, h.node?_none hid, List.idxOf?_eq_none_iff.mpr hid]
    rfl

theorem parts_rank {xs ys : List Nat} {rank : Nat} (hlen : xs.length = rank) :
    Parts l (fun r _ _ => r ≤ rank) xs ys := by
  refine ⟨fun pre id post n he _ => ?_, fun pre id post n he _ => ?_⟩
  · have := congrArg List.length he
    rw [List.length_append, List.length_cons, hlen] at this
    exact decide_eq_true (by omega)
  · exact decide_eq_false (by omega)

/-- A stop whose rank is that of the last node gone past is at that node. -/
theorem stopAt_id_of_rank {xs ys : List Nat} {i : Nat} (hr : (l.stopAt xs ys i).rank = xs.length) :
    (l.stopAt xs ys i).place.id? = xs.getLast? := by
  have hlen := length_passed_le l i xs
  have hpass := passed_append_skipped l i xs
  have hr : (l.passed i xs).length = xs.length := hr
  have hskip : l.skipped i xs = [] := List.eq_nil_of_length_eq_zero (by omega)
  rw [hskip, List.append_nil] at hpass
  rw [stopAt, hpass, Place.id?_after]

theorem find_stop_of_rank {xs ys : List Nat} (h : WellFormed l (xs ++ ys)) :
    (((List.range l.level).map (l.stopAt xs ys)).reverse.find? (·.rank = xs.length)).map (·.place.id?) =
      some xs.getLast? := by
  refine map_find? ⟨l.stopAt xs ys 0, ?_, ?_⟩ fun s hs hr => ?_
  · simp only [List.mem_reverse, List.mem_map, List.mem_range]
    exact ⟨0, h.level_pos, rfl⟩
  · simp [h.stopAt_zero]
  · simp only [List.mem_reverse, List.mem_map, List.mem_range] at hs
    obtain ⟨i, -, rfl⟩ := hs
    exact stopAt_id_of_rank (of_decide_eq_true hr)

theorem nodeAtRank_eq (h : WellFormed l ids) (rank : Nat) :
    l.nodeAtRank rank = .ok (if rank = 0 then none else ids[rank - 1]?) := by
  rw [nodeAtRank]
  split
  · rename_i hr
    rw [h.len] at hr
    split
    · rfl
    · rw [List.getElem?_eq_none (by omega)]
      rfl
  · rename_i hr
    rw [h.len, not_or] at hr
    rw [if_neg hr.1]
    have hlen : (ids.take rank).length = rank := by rw [List.length_take]; omega
    have h' : WellFormed l (ids.take rank ++ ids.drop rank) := by
      rwa [List.take_append_drop]
    have hlast : (ids.take rank).getLast? = ids[rank - 1]? := by
      rw [List.getLast?_eq_getElem?, hlen, List.getElem?_take_of_lt (by omega)]
    have hfind := h'.find_stop_of_rank
    rw [hlen, hlast] at hfind
    rw [h'.search_eq (parts_rank hlen), ok_bind]
    obtain ⟨s, hs, hid⟩ := Option.map_eq_some_iff.mp hfind
    rw [hs, Option.bind_some, hid]
    rfl

theorem rankRange_eq (h : WellFormed l ids) (left right : Nat) :
    l.rankRange left right = .ok (if left = 0 then [] else (ids.take right).drop (left - 1)) := by
  rw [rankRange]
  split
  · rename_i hr
    rw [h.len] at hr
    split
    · rfl
    · rw [List.drop_eq_nil_of_le (by rw [List.length_take]; omega)]
      rfl
  · rename_i hr
    simp only [h.len, not_or, Nat.not_lt] at hr
    have h' : WellFormed l (ids.take (left - 1) ++ ids.drop (left - 1)) := by
      rwa [List.take_append_drop]
    have hall : ∀ id ∈ ids.drop (left - 1), ((l.node? id).any fun _ => true) = true := fun id hid => by
      obtain ⟨n, hn⟩ := h'.exists_node id (List.mem_append_right _ hid)
      rw [hn]
      rfl
    rw [h.nodeAtRank_eq, ok_bind, if_neg hr.2.1, if_neg hr.2.1, ← List.head?_drop,
      Linked.follow_eq _ _ _ _ h'.toLinked, List.takeWhile_eq_self_iff.mpr hall, h.len]
    rw [List.drop_take]
    refine congrArg Except.ok (List.take_eq_take_iff.mpr ?_)
    rw [List.length_drop]
    omega

theorem next_eq_get (h : WellFormed l ids) (id : Nat) :
    l.next id = (ids.idxOf? id).bind fun i => ids[i + 1]? := by
  by_cases hid : id ∈ ids
  · obtain ⟨xs, ys, rfl⟩ := List.append_of_mem hid
    rw [h.next_eq, idxOf?_middle fun hx => h.toLinked.not_mem (List.mem_append_left _ hx), Option.bind_some,
      List.getElem?_append_right (by omega), List.head?_eq_getElem?]
    simp
  · rw [next, h.node?_none hid, List.idxOf?_eq_none_iff.mpr hid]
    rfl

theorem prev_eq_get (h : WellFormed l ids) (id : Nat) :
    l.prev id = (ids.idxOf? id).bind fun i => if i = 0 then none else ids[i - 1]? := by
  by_cases hid : id ∈ ids
  · obtain ⟨xs, ys, rfl⟩ := List.append_of_mem hid
    rw [h.prev_eq, idxOf?_middle fun hx => h.toLinked.not_mem (List.mem_append_left _ hx), Option.bind_some,
      List.getLast?_eq_getElem?]
    cases xs with
    | nil => rfl
    | cons x xs =>
      rw [List.getElem?_append_left (by simp)]
      simp
  · rw [prev, h.node?_none hid, List.idxOf?_eq_none_iff.mpr hid]
    rfl

end WellFormed

end KeyEngine.SkipList
