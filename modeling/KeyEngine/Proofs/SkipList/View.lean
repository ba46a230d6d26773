import KeyEngine.Proofs.SkipList.WellFormed

/-!
# The view of a list

Along its lowest level a list in good order shows the slots and entries of its nodes, ascending.
-/

namespace KeyEngine.SkipList

/-- The slots with their entries. -/
def rows (look : Nat → Option Entry) (ids : List Nat) : List (Nat × Entry) :=
  ids.filterMap fun id => (look id).map (id, ·)

theorem rows_cons {look : Nat → Option Entry} {id : Nat} {e : Entry} (h : look id = some e)
    (ids : List Nat) : rows look (id :: ids) = (id, e) :: rows look ids := by
  rw [rows, List.filterMap_cons, h]
  rfl

theorem map_rows {look : Nat → Option Entry} {ids : List Nat} (h : ∀ id ∈ ids, (look id).isSome) :
    (rows look ids).map (·.1) = ids := by
  induction ids with
  | nil => rfl
  | cons id ids ih =>
    rw [List.forall_mem_cons] at h
    obtain ⟨e, he⟩ := Option.isSome_iff_exists.mp h.1
    rw [rows_cons he, List.map_cons, ih h.2]

theorem mem_rows {look : Nat → Option Entry} {ids : List Nat} {row : Nat × Entry} :
    row ∈ rows look ids ↔ row.1 ∈ ids ∧ look row.1 = some row.2 := by
  simp only [rows, List.mem_filterMap, Option.map_eq_some_iff]
  constructor
  · rintro ⟨id, hid, e, he, rfl⟩
    exact ⟨hid, he⟩
  · rintro ⟨hid, he⟩
    exact ⟨row.1, hid, row.2, he, rfl⟩

theorem Ascending.rows {look : Nat → Option Entry} {ids : List Nat} (h : Ascending look ids) :
    (rows look ids).Pairwise fun a b => a.2.before b.2 = true := by
  rw [SkipList.rows, List.pairwise_filterMap]
  refine h.imp fun hab x hx y hy => ?_
  obtain ⟨a, ha, rfl⟩ := Option.map_eq_some_iff.mp hx
  obtain ⟨b, hb, rfl⟩ := Option.map_eq_some_iff.mp hy
  exact hab a b ha hb

namespace Linked

variable {l : SkipList}

theorem chain_eq : ∀ (ys xs : List Nat) (n : Nat), Linked l (xs ++ ys) → ys.length ≤ n →
    l.chain n ys.head? = rows l.entry? ys
  | [], _, n, _, _ => by cases n <;> rfl
  | id :: ys, xs, 0, _, hn => absurd hn (by simp)
  | id :: ys, xs, n + 1, h, hn => by
    obtain ⟨node, hnode⟩ := h.exists_node id (by simp)
    have hnext := h.next_eq
    rw [next, hnode, Option.bind_some] at hnext
    have ih := chain_eq ys (xs ++ [id]) n (by simpa using h) (by simpa using hn)
    rw [List.head?_cons, chain, hnode, rows_cons (entry_of_node hnode), ← ih, ← hnext]

theorem first_eq {ids : List Nat} (h : Linked l ids) : l.first = ids.head? := by
  have hlink := h.links [] ids 0 rfl h.level_pos
  rw [Place.after_nil, link?] at hlink
  rw [first, hlink]
  exact target_linkTo_zero (show Linked l ([] ++ ids) from h)

theorem toList_eq {ids : List Nat} (h : Linked l ids) : l.toList = rows l.entry? ids := by
  rw [toList, h.first_eq]
  exact chain_eq ids [] _ h h.length_le

end Linked

end KeyEngine.SkipList
