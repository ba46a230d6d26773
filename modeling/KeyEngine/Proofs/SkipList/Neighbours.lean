import KeyEngine.Proofs.SkipList.Roster

/-!
# Removing neighbours

One path is enough for a run of neighbours. Each removal leaves it leading to the next of them on all
levels that stay open, so the list becomes what removals with a path for each would make of it.
-/

namespace KeyEngine.SkipList

/-! ## What a removal reads of a path -/

section
variable {l : SkipList} {xs ys : List Nat} {id : Nat} {p q : Path}

theorem LeadsTo.take_eq (hp : LeadsTo l xs p) (hq : LeadsTo l xs q) :
    p.take l.level = q.take l.level := by
  apply List.ext_getElem?
  intro i
  rw [List.getElem?_take, List.getElem?_take]
  by_cases hi : i < l.level
  · rw [if_pos hi, if_pos hi, hp i hi, hq i hi]
  · rw [if_neg hi, if_neg hi]

theorem unlink_congr (hlevel : 1 ≤ l.level) (h : p.take l.level = q.take l.level) :
    l.unlink id p = l.unlink id q := by
  have hhead : p.head? = q.head? := by
    have := congrArg List.head? h
    rwa [List.head?_take, List.head?_take, if_neg (by omega), if_neg (by omega)] at this
  rw [unlink, unlink, h, hhead]

/-- Of the paths that lead to a node, it does not matter which one it is removed by. -/
theorem WellFormed.delete_eq (h : WellFormed l (xs ++ id :: ys)) (hp : LeadsTo l xs p)
    (hq : LeadsTo l xs q) : l.delete id p = l.delete id q := by
  rw [delete, delete, unlink_congr h.level_pos (hp.take_eq hq)]

theorem WellFormed.delete_eq_remove (h : WellFormed l (xs ++ id :: ys)) (hp : LeadsTo l xs p) :
    l.delete id p = l.remove id := by
  obtain ⟨n, hn⟩ := h.exists_node id (by simp)
  obtain ⟨path, hpath, hleads⟩ := h.toLinked.updatePath_ok hn (h.parts_node hn)
  rw [remove, hn]
  simp only [hpath, ok_bind]
  exact h.delete_eq hp hleads

end

/-! ## Runs -/

/-- Removes nodes one after another, each by a path of its own. -/
def removeEach : List Nat → SkipList → Except Fault (SkipList × List (Option Entry))
  | [], l => return (l, [])
  | id :: ids, l => do
    let (l, entry) ← l.remove id
    let (l, entries) ← removeEach ids l
    return (l, entry :: entries)

theorem rows_map {look : Nat → Option Entry} {list : List (Nat × Entry)}
    (h : ∀ row ∈ list, look row.1 = some row.2) : rows look (list.map (·.1)) = list := by
  induction list with
  | nil => rfl
  | cons row list ih =>
    rw [List.forall_mem_cons] at h
    rw [List.map_cons, rows_cons h.1, ih h.2]

namespace WellFormed

variable {xs ys : List Nat}

theorem deleteAll_eq (path : Path) : ∀ (run : List Nat) (l : SkipList),
    WellFormed l (xs ++ run ++ ys) → LeadsTo l xs path → deleteAll path run l = removeEach run l
  | [], _, _, _ => rfl
  | id :: run, l, h, hp => by
    have h' : WellFormed l (xs ++ id :: (run ++ ys)) := by simpa using h
    -- the path, computed before any removal, still leads past `xs` in the list that is left
    obtain ⟨m, hm, hwf, hpath, -⟩ := h'.delete_ok hp
    have ih := deleteAll_eq path run m (by simpa using hwf) hpath
    rw [deleteAll, removeEach, ← h'.delete_eq_remove hp, hm, ok_bind, ok_bind]
    simp only [ih]

theorem removeRun_eq {l : SkipList} {run : List Nat} (h : WellFormed l (xs ++ run ++ ys)) :
    l.removeRun run = removeEach run l := by
  cases run with
  | nil => rfl
  | cons id run =>
    have h' : WellFormed l (xs ++ id :: (run ++ ys)) := by simpa using h
    obtain ⟨n, hn⟩ := h'.exists_node id (by simp)
    obtain ⟨path, hpath, hleads⟩ := h'.toLinked.updatePath_ok hn (h'.parts_node hn)
    rw [removeRun, hpath, ok_bind]
    exact deleteAll_eq path (id :: run) l h hleads

/-- Along the lowest level, a run of neighbours goes and what stands on its two sides stays. -/
theorem removeRun_rows {l : SkipList} {ids : List Nat} (h : WellFormed l ids)
    {before run behind : List (Nat × Entry)} (hl : l.toList = before ++ run ++ behind) :
    ∃ l', l.removeRun (run.map (·.1)) = .ok (l', run.map (some ·.2)) ∧
      removeEach (run.map (·.1)) l = .ok (l', run.map (some ·.2)) ∧
      l'.toList = before ++ behind ∧ l'.Consistent := by
  have hslots := h.slots_eq
  rw [slots, hl, List.map_append, List.map_append] at hslots
  have hlook : ∀ row ∈ before ++ run ++ behind, l.entry? row.1 = some row.2 := by
    intro row hrow
    rw [← hl, h.toList_eq] at hrow
    exact (mem_rows.mp hrow).2
  rw [← hslots] at h
  obtain ⟨l', hl', hwf, hentry⟩ := h.removeRun_ok
  have hreplies : (run.map (·.1)).map l.entry? = run.map (some ·.2) := by
    rw [List.map_map]
    exact List.map_congr_left fun row hrow => hlook row (by simp [hrow])
  rw [hreplies] at hl'
  refine ⟨l', hl', h.removeRun_eq ▸ hl', ?_, hwf.consistent⟩
  rw [hwf.toList_eq, ← List.map_append]
  refine rows_map fun row hrow => ?_
  have hrun : row.1 ∉ run.map (·.1) := by
    have hn := h.nodup
    rw [List.append_assoc, List.nodup_append, List.nodup_append] at hn
    obtain ⟨-, ⟨-, -, hbehind⟩, hbefore⟩ := hn
    intro hin
    rcases List.mem_append.mp hrow with hrow | hrow
    · exact hbefore row.1 (List.mem_map_of_mem hrow) row.1 (List.mem_append_left _ hin) rfl
    · exact hbehind row.1 hin row.1 (List.mem_map_of_mem hrow) rfl
  rw [hentry, if_neg hrun]
  rw [List.mem_append] at hrow
  exact hlook row (by simp only [List.mem_append]; tauto)

end WellFormed

/-- Whatever the heights, after any permitted edits a run of neighbours is removed by one path: each of
them is answered, and the list, its links, spans, levels and free slots included, is the one that is left
by removing them one after another. -/
theorem edits_removeRun (es : List Edit) (h : Roster.empty.Permits es) (maxLevel : Nat) (towers : Towers) :
    ∃ l replies, (SkipList.empty maxLevel towers).edits es = .ok (l, replies) ∧
      ∀ before run behind, l.toList = before ++ run ++ behind →
        ∃ l', l.removeRun (run.map (·.1)) = .ok (l', run.map (some ·.2)) ∧
          removeEach (run.map (·.1)) l = .ok (l', run.map (some ·.2)) ∧
          l'.toList = before ++ behind ∧ l'.Consistent := by
  obtain ⟨l, hl, hm⟩ := (Models.empty maxLevel towers).edits_eq es h
  obtain ⟨ids, hwf⟩ := hm.order
  exact ⟨l, _, hl, fun before run behind => hwf.removeRun_rows⟩

/-- Three nodes out of the middle, by the path to the first of them. -/
theorem edits_removeRun_middle :
    let es : List Edit := [.insert ⟨.one, [97]⟩, .insert ⟨.zero, [98]⟩, .insert ⟨.posInf, [99]⟩,
      .insert ⟨.one, [100]⟩, .insert ⟨.negInf, [101]⟩, .updateScore 4 .one]
    Roster.empty.Permits es ∧ ∃ l replies, (SkipList.empty 16 (Towers.seeded 7)).edits es = .ok (l, replies) ∧
      ∃ l', l.removeRun [0, 3, 4] =
          .ok (l', [some ⟨.one, [97]⟩, some ⟨.one, [100]⟩, some ⟨.one, [101]⟩]) ∧
        removeEach [0, 3, 4] l =
          .ok (l', [some ⟨.one, [97]⟩, some ⟨.one, [100]⟩, some ⟨.one, [101]⟩]) ∧
        l'.toList = [(1, ⟨.zero, [98]⟩)] ++ [(2, ⟨.posInf, [99]⟩)] ∧ l'.Consistent := by
  intro es
  have hes : Roster.empty.Permits es := by decide +kernel
  obtain ⟨l, replies, hl, hrun⟩ := edits_removeRun es hes 16 (Towers.seeded 7)
  refine ⟨hes, l, replies, hl, hrun [(1, ⟨.zero, [98]⟩)]
    [(0, ⟨.one, [97]⟩), (3, ⟨.one, [100]⟩), (4, ⟨.one, [101]⟩)] [(2, ⟨.posInf, [99]⟩)] ?_⟩
  have hrows : ((SkipList.empty 16 (Towers.seeded 7)).edits es).map (·.1.toList) = .ok
      [(1, ⟨.zero, [98]⟩), (0, ⟨.one, [97]⟩), (3, ⟨.one, [100]⟩), (4, ⟨.one, [101]⟩),
        (2, ⟨.posInf, [99]⟩)] := by decide +kernel
  rw [hl] at hrows
  exact Except.ok.inj hrows

end KeyEngine.SkipList
