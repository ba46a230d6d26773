import KeyEngine.Proofs.SkipList.Ranges
import KeyEngine.Proofs.SortedSet.Board

/-!
# Table and list in step

The table of a sorted set has a member exactly when a node of the list holds it, and leads to that
node. So the set reads as a board.
-/

namespace KeyEngine.SortedSet

open SkipList

/-- The table and the list of the set agree, and hold the rows of the board. -/
structure Tracks (s : SortedSet) (b : Board) : Prop where
  order : ∃ ids, WellFormed s.list ids
  table : ∀ m id, s.table[m]? = some id ↔ s.list.member? id = some m
  mem : ∀ e, e ∈ b.rows ↔ ∃ id, s.list.entry? id = some e

variable {s : SortedSet} {b : Board}

theorem member?_eq_some {l : SkipList} {id : Nat} {m : Bytes} :
    l.member? id = some m ↔ ∃ e, l.entry? id = some e ∧ e.member = m :=
  Option.map_eq_some_iff

theorem mem_entries {ids : List Nat} {e : Entry} :
    e ∈ s.entries ids ↔ ∃ id ∈ ids, s.list.entry? id = some e := by
  simp [SortedSet.entries]

theorem getElem?_eraseAll (es : List Entry) (table : Std.HashMap Bytes Nat) (m : Bytes) :
    (es.foldl (·.erase ·.member) table)[m]? = if m ∈ es.map (·.member) then none else table[m]? := by
  induction es generalizing table with
  | nil => simp
  | cons e es ih =>
    rw [List.foldl_cons, ih, Std.HashMap.getElem?_erase]
    by_cases hm : m ∈ es.map (·.member)
    · simp [hm]
    · by_cases he : m = e.member
      · simp [he]
      · simp [hm, he, Ne.symm he]

namespace Tracks

theorem empty (maxLevel : Nat) (towers : Towers) : Tracks (.empty maxLevel towers) .empty where
  order := ⟨[], .empty maxLevel towers⟩
  table m id := by
    simp only [SortedSet.empty, Std.HashMap.getElem?_empty, false_iff, reduceCtorEq]
    exact fun h => by cases h
  mem e := ⟨fun h => by simp [Board.empty] at h, fun ⟨id, h⟩ => by cases h⟩

theorem table_of_entry (h : Tracks s b) {id : Nat} {e : Entry} (he : s.list.entry? id = some e) :
    s.table[e.member]? = some id :=
  (h.table e.member id).mpr (member?_eq_some.mpr ⟨e, he, rfl⟩)

theorem entry_of_table (h : Tracks s b) {id : Nat} {m : Bytes} (hm : s.table[m]? = some id) :
    ∃ e, s.list.entry? id = some e ∧ e.member = m :=
  member?_eq_some.mp ((h.table m id).mp hm)

theorem table_none (h : Tracks s b) {m : Bytes} : s.table[m]? = none ↔ b.score? m = none := by
  rw [Board.score?_eq_none]
  constructor
  · intro hm e he hem
    obtain ⟨id, hid⟩ := (h.mem e).mp he
    rw [← hem, h.table_of_entry hid] at hm
    cases hm
  · intro hb
    cases hm : s.table[m]? with
    | none => rfl
    | some id =>
      obtain ⟨e, he, hem⟩ := h.entry_of_table hm
      exact absurd hem (hb e ((h.mem e).mpr ⟨id, he⟩))

theorem score?_ne_none (h : Tracks s b) {id : Nat} {m : Bytes} (hm : s.table[m]? = some id) :
    b.score? m ≠ none := by
  rw [Ne, ← h.table_none, hm]
  simp

theorem score?_of_entry (h : Tracks s b) {id : Nat} {e : Entry} (he : s.list.entry? id = some e) :
    b.score? e.member = some e.score :=
  Board.score?_eq_some.mpr ((h.mem e).mpr ⟨id, he⟩)

theorem score?_eq (h : Tracks s b) (m : Bytes) : s.score? m = b.score? m := by
  unfold SortedSet.score?
  cases hm : s.table[m]? with
  | none => exact (h.table_none.mp hm).symm
  | some id =>
    obtain ⟨e, he, rfl⟩ := h.entry_of_table hm
    rw [h.score?_of_entry he, Option.bind_eq_bind, Option.bind_some, SkipList.score?, he]
    rfl

theorem contains_eq (h : Tracks s b) (m : Bytes) : s.contains m = (b.score? m).isSome := by
  have hn : s.table[m]? = none ↔ b.score? m = none := h.table_none
  rw [contains, ← Std.HashMap.isSome_getElem?_eq_contains]
  cases h₁ : s.table[m]? <;> cases h₂ : b.score? m <;> simp_all

/-- Only the node that the table leads to has the member. -/
theorem only (h : Tracks s b) {m : Bytes} {id j : Nat} {e : Entry} (hm : s.table[m]? = some id)
    (he : s.list.entry? j = some e) : e.member = m ↔ j = id := by
  have hj := h.table_of_entry he
  constructor
  · rintro rfl
    exact Option.some.inj (hj.symm.trans hm)
  · rintro rfl
    obtain ⟨x, hx, hxm⟩ := h.entry_of_table hm
    cases hx.symm.trans he
    exact hxm

/-! ## Order -/

theorem ascending_rows {l : SkipList} {ids : List Nat} (h : WellFormed l ids) :
    ((rows l.entry? ids).map (·.2)).Pairwise fun a b => a.before b = true :=
  List.pairwise_map.mpr h.ascending.rows

theorem perm (h : Tracks s b) {ids : List Nat} (hwf : WellFormed s.list ids) :
    b.rows.Perm ((rows s.list.entry? ids).map (·.2)) := by
  have hnodup : ((rows s.list.entry? ids).map (·.2)).Nodup := (ascending_rows hwf).imp fun hab he => by
    rw [he, Entry.before_irrefl] at hab
    cases hab
  refine (List.perm_ext_iff_of_nodup (List.Nodup.of_map _ b.once) hnodup).mpr fun e => ?_
  rw [h.mem, List.mem_map]
  constructor
  · rintro ⟨id, he⟩
    exact ⟨(id, e), mem_rows.mpr ⟨hwf.mem_of_entry he, he⟩, rfl⟩
  · rintro ⟨row, hrow, rfl⟩
    exact ⟨row.1, (mem_rows.mp hrow).2⟩

theorem sorted_eq (h : Tracks s b) {ids : List Nat} (hwf : WellFormed s.list ids) :
    b.sorted = (rows s.list.entry? ids).map (·.2) := by
  have hperm := (List.mergeSort_perm b.rows Entry.le).trans (h.perm hwf)
  have hsorted : b.sorted.Pairwise fun a b => a.le b = true := by
    refine List.pairwise_mergeSort ?_ ?_ b.rows
    · exact fun _ _ _ => Entry.le_trans
    · exact Entry.le_total
  have hrows : ((rows s.list.entry? ids).map (·.2)).Pairwise fun a b => a.le b = true :=
    (ascending_rows hwf).imp Entry.le_of_before
  refine hperm.eq_of_pairwise (fun x y hx hy hxy hyx => ?_) hsorted hrows
  refine List.inj_on_of_nodup_map b.once ?_ ?_ (Entry.le_antisymm hxy hyx)
  · exact (List.mergeSort_perm b.rows Entry.le).mem_iff.mp hx
  · exact (h.perm hwf).mem_iff.mpr hy

theorem toList_eq (h : Tracks s b) : s.toList = b.sorted := by
  obtain ⟨ids, hwf⟩ := h.order
  rw [h.sorted_eq hwf, ← hwf.toList_eq, SortedSet.toList]

theorem count_eq (h : Tracks s b) : s.count = b.rows.length := by
  obtain ⟨ids, hwf⟩ := h.order
  have hlen := congrArg List.length (map_rows fun id hid => (hwf.exact id).mp hid)
  rw [List.length_map] at hlen
  rw [SortedSet.count, hwf.len, (h.perm hwf).length_eq, List.length_map, hlen]

/-! ## Changes -/

theorem drop (h : Tracks s b) {run : List Nat} {list : SkipList} {table : Std.HashMap Bytes Nat}
    (hwf : ∃ ids, WellFormed list ids)
    (hentry : ∀ id, list.entry? id = if id ∈ run then none else s.list.entry? id)
    (htable : ∀ m, table[m]? = if ∃ id ∈ run, s.list.member? id = some m then none else s.table[m]?)
    {p : Entry → Bool} (hp : ∀ id e, s.list.entry? id = some e → (p e = true ↔ id ∉ run)) :
    Tracks ⟨table, list⟩ (b.keep p) := by
  refine ⟨hwf, fun m id => ?_, fun e => ?_⟩
  · simp only [htable, member?_eq_some, hentry]
    constructor
    · intro hm
      split at hm
      · cases hm
      · rename_i hrun
        obtain ⟨e, he, rfl⟩ := h.entry_of_table hm
        have hid : id ∉ run := fun hid => hrun ⟨id, hid, e, he, rfl⟩
        exact ⟨e, by rw [if_neg hid, he], rfl⟩
    · rintro ⟨e, he, rfl⟩
      split at he
      · cases he
      · rename_i hid
        obtain ⟨ids, hwf⟩ := h.order
        rw [if_neg, h.table_of_entry he]
        rintro ⟨j, hj, x, hx, hxe⟩
        exact hid (hwf.distinct _ _ _ _ hx he hxe ▸ hj)
  · simp only [Board.keep, List.mem_filter, h.mem, hentry]
    constructor
    · rintro ⟨⟨id, he⟩, hpe⟩
      exact ⟨id, by rw [if_neg ((hp id e he).mp hpe), he]⟩
    · rintro ⟨id, he⟩
      split at he
      · cases he
      · rename_i hid
        exact ⟨⟨id, he⟩, (hp id e he).mpr hid⟩

theorem insert_new (h : Tracks s b) {score : Score} (hs : score.isNaN = false) {m : Bytes}
    (hm : s.table[m]? = none) :
    ∃ l' id, s.list.insert ⟨score, m⟩ = .ok (l', id) ∧
      Tracks ⟨s.table.insert m id, l'⟩ (b.set score m) := by
  obtain ⟨ids, hwf⟩ := h.order
  have hnew : ∀ id x, s.list.entry? id = some x → x.member ≠ m := fun id x hx hxm => by
    rw [← hxm, h.table_of_entry hx] at hm
    cases hm
  obtain ⟨l', ids', hl', hwf', hassign, -, -⟩ := hwf.insert_ok (e := ⟨score, m⟩) hs hnew
  have hslot := hwf.nextSlot_free
  refine ⟨l', _, hl', ⟨ids', hwf'⟩, fun m' id => ?_, fun e => ?_⟩
  · rw [member?_eq_some, Std.HashMap.getElem?_insert, hassign]
    by_cases hmm : m = m'
    · subst hmm
      rw [if_pos (by simp)]
      by_cases hid : id = s.list.nextSlot
      · simp [hid]
      · simp only [hid, if_false, Option.some.injEq]
        refine ⟨fun he => absurd he.symm hid, fun ⟨e, he, hem⟩ => absurd hem (hnew id e he)⟩
    · rw [if_neg (by simpa using hmm), h.table, member?_eq_some]
      by_cases hid : id = s.list.nextSlot
      · simp [hid, hslot, hmm]
      · simp [hid]
  · rw [Board.rows_set_new (h.table_none.mp hm), List.mem_cons, h.mem]
    constructor
    · rintro (rfl | ⟨id, he⟩)
      · exact ⟨s.list.nextSlot, by rw [hassign, if_pos rfl]⟩
      · have hid : id ≠ s.list.nextSlot := fun hid => by
          rw [hid, hslot] at he
          cases he
        exact ⟨id, by rw [hassign, if_neg hid, he]⟩
    · rintro ⟨id, he⟩
      rw [hassign] at he
      split at he
      · cases he
        exact .inl rfl
      · exact .inr ⟨id, he⟩

theorem insert_old (h : Tracks s b) {score : Score} (hs : score.isNaN = false) {m : Bytes} {id : Nat}
    (hm : s.table[m]? = some id) :
    ∃ l', s.list.updateScore id score = .ok l' ∧ Tracks ⟨s.table, l'⟩ (b.set score m) := by
  obtain ⟨ids, hwf⟩ := h.order
  obtain ⟨l', ids', hl', hwf', hassign, -, -⟩ := hwf.updateScore_ok id hs
  have hb : b.score? m ≠ none := h.score?_ne_none hm
  have honly : ∀ j e, s.list.entry? j = some e → (e.member = m ↔ j = id) := fun j e => h.only hm
  refine ⟨l', hl', ⟨ids', hwf'⟩, fun m' j => ?_, fun e => ?_⟩
  · rw [h.table, member?_eq_some, member?_eq_some, hassign]
    by_cases hj : j = id
    · subst hj
      simp only [if_true, Option.map_eq_some_iff]
      constructor
      · rintro ⟨e, he, rfl⟩
        exact ⟨_, ⟨e, he, rfl⟩, e.rescored_member score⟩
      · rintro ⟨_, ⟨e, he, rfl⟩, hem⟩
        exact ⟨e, he, (e.rescored_member score).symm.trans hem⟩
    · rw [if_neg hj]
  · rw [Board.rows_set_old hb, List.mem_map]
    constructor
    · rintro ⟨x, hx, rfl⟩
      obtain ⟨j, hj⟩ := (h.mem x).mp hx
      refine ⟨j, ?_⟩
      rw [hassign]
      by_cases hjid : j = id
      · subst hjid
        rw [if_pos rfl, if_pos ((honly j x hj).mpr rfl), hj]
        rfl
      · rw [if_neg hjid, if_neg fun hxm => hjid ((honly j x hj).mp hxm), hj]
    · rintro ⟨j, he⟩
      rw [hassign] at he
      split at he
      · subst j
        obtain ⟨x, hx, rfl⟩ := Option.map_eq_some_iff.mp he
        exact ⟨x, (h.mem x).mpr ⟨id, hx⟩, by rw [if_pos ((honly id x hx).mpr rfl)]⟩
      · rename_i hjid
        exact ⟨e, (h.mem e).mpr ⟨j, he⟩, by rw [if_neg fun hem => hjid ((honly j e he).mp hem)]⟩

theorem insert_ok (h : Tracks s b) {score : Score} (hs : score.isNaN = false) (m : Bytes) :
    ∃ s', s.insert score m = .ok (s', decide (b.score? m = none)) ∧ Tracks s' (b.set score m) := by
  unfold SortedSet.insert
  rw [hs, if_neg (by simp)]
  cases hm : s.table[m]? with
  | none =>
    obtain ⟨l', id, hl', ht⟩ := h.insert_new hs hm
    refine ⟨_, ?_, ht⟩
    simp only [hl', ok_bind, h.table_none.mp hm, decide_true]
    rfl
  | some id =>
    obtain ⟨l', hl', ht⟩ := h.insert_old hs hm
    have hb : b.score? m ≠ none := h.score?_ne_none hm
    refine ⟨_, ?_, ht⟩
    simp only [hl', ok_bind, hb, decide_false]
    rfl

theorem add_ok (es : List Entry) {s : SortedSet} {b : Board} (h : Tracks s b)
    (hes : ∀ e ∈ es, e.score.isNaN = false) :
    ∃ s', s.add es = (s', .ok (b.fresh es).length) ∧
      Tracks s' (es.foldl (fun b e => b.set e.score e.member) b) := by
  induction es generalizing s b with
  | nil => exact ⟨s, rfl, h⟩
  | cons e es ih =>
    rw [List.forall_mem_cons] at hes
    obtain ⟨s₁, hs₁, h₁⟩ := h.insert_ok hes.1 e.member
    obtain ⟨s', hs', h'⟩ := ih h₁ hes.2
    refine ⟨s', ?_, h'⟩
    unfold SortedSet.add
    rw [hs₁]
    simp only [hs', Except.map, Board.length_fresh_cons, decide_eq_true_eq]
    split
    · rw [Nat.add_comm]
    · rw [Nat.zero_add]

theorem increase_ok (h : Tracks s b) {m : Bytes} {delta score : Score}
    (hscore : score = ((b.score? m).getD .zero).add delta) (hs : score.isNaN = false) :
    ∃ s', s.increase m delta = .ok (s', score) ∧ Tracks s' (b.set score m) := by
  obtain ⟨s', hs', h'⟩ := h.insert_ok hs m
  refine ⟨s', ?_, h'⟩
  unfold SortedSet.increase
  rw [h.score?_eq, ← hscore]
  simp only [hs', ok_bind]
  rfl

/-! ## Removals -/

theorem keep_congr {p q : Entry → Bool} (h : ∀ e ∈ b.rows, p e = q e) : b.keep p = b.keep q := by
  unfold Board.keep
  congr 1
  exact List.filter_congr h

theorem keep_keep (b : Board) (p q : Entry → Bool) :
    (b.keep p).keep q = b.keep fun e => p e && q e := by
  unfold Board.keep
  congr 1
  rw [List.filter_filter]
  exact List.filter_congr fun e _ => Bool.and_comm (q e) (p e)

theorem remove_one (h : Tracks s b) {m : Bytes} {id : Nat} (hm : s.table[m]? = some id) :
    ∃ l' e, s.list.remove id = .ok (l', e) ∧ Tracks ⟨s.table.erase m, l'⟩ (b.keep (·.member ≠ m)) := by
  obtain ⟨ids, hwf⟩ := h.order
  obtain ⟨l', ids', hl', hwf', hassign, -, -⟩ := hwf.remove_ok id
  have hrun : ∀ j, l'.entry? j = if j ∈ [id] then none else s.list.entry? j := fun j => by
    rw [hassign]
    simp
  refine ⟨l', _, hl', h.drop ⟨ids', hwf'⟩ hrun (fun m' => ?_) fun j e he => ?_⟩
  · have hmm : (∃ j ∈ [id], s.list.member? j = some m') ↔ m = m' := by
      simp [(h.table m id).mp hm]
    rw [Std.HashMap.getElem?_erase]
    simp only [hmm, beq_iff_eq]
  · rw [List.mem_singleton, ← h.only hm he]
    simp

theorem remove_ok (ms : List Bytes) {s : SortedSet} {b : Board} (h : Tracks s b) :
    ∃ s', s.remove ms = .ok (s', (b.rows.filter (·.member ∈ ms)).length) ∧
      Tracks s' (b.keep (·.member ∉ ms)) := by
  induction ms generalizing s b with
  | nil =>
    refine ⟨s, by simp [SortedSet.remove, pure, Except.pure], ?_⟩
    have hall : b.keep (·.member ∉ ([] : List Bytes)) = b := by
      unfold Board.keep
      congr 1
      exact List.filter_eq_self.mpr fun e _ => by simp
    rwa [hall]
  | cons m ms ih =>
    unfold SortedSet.remove
    cases hm : s.table[m]? with
    | none =>
      obtain ⟨s', hs', h'⟩ := ih h
      have hne := Board.score?_eq_none.mp (h.table_none.mp hm)
      have hkeep : b.keep (·.member ∉ m :: ms) = b.keep (·.member ∉ ms) :=
        keep_congr fun e he => by simp [hne e he]
      have hgone : b.rows.filter (·.member ∈ m :: ms) = b.rows.filter (·.member ∈ ms) :=
        List.filter_congr fun e he => by simp [hne e he]
      rw [hgone, hkeep]
      exact ⟨s', hs', h'⟩
    | some id =>
      obtain ⟨l', e, hl', h₁⟩ := h.remove_one hm
      obtain ⟨s', hs', h'⟩ := ih h₁
      have hkeep : (b.keep (·.member ≠ m)).keep (·.member ∉ ms) = b.keep (·.member ∉ m :: ms) := by
        rw [keep_keep]
        exact keep_congr fun e _ => by simp
      refine ⟨s', ?_, hkeep ▸ h'⟩
      simp only [hl', ok_bind, hs', Board.length_filter_mem_cons (h.score?_ne_none hm)]
      rfl

theorem popRun_ok (h : Tracks s b) {xs run ys : List Nat} (hwf : WellFormed s.list (xs ++ run ++ ys)) :
    ∃ s', s.popRun run = .ok (s', s.entries run) ∧ Tracks s' (b.keep (· ∉ s.entries run)) := by
  obtain ⟨l', hl', hwf', hentry⟩ := hwf.removeRun_ok
  unfold SortedSet.popRun
  have hpopped : (run.map s.list.entry?).filterMap id = s.entries run := by
    rw [List.filterMap_map]
    rfl
  simp only [hl', ok_bind, hpopped]
  refine ⟨_, rfl, h.drop ⟨_, hwf'⟩ hentry (fun m => ?_) fun id e he => ?_⟩
  · have hm : m ∈ (s.entries run).map (·.member) ↔ ∃ id ∈ run, s.list.member? id = some m := by
      simp only [List.mem_map, mem_entries, member?_eq_some]
      constructor
      · rintro ⟨e, ⟨id, hid, he⟩, hem⟩
        exact ⟨id, hid, e, he, hem⟩
      · rintro ⟨id, hid, e, he, hem⟩
        exact ⟨e, ⟨id, hid, he⟩, hem⟩
    rw [getElem?_eraseAll]
    simp only [hm]
  · have hmem : e ∈ s.entries run ↔ id ∈ run := by
      rw [mem_entries]
      constructor
      · rintro ⟨j, hj, hje⟩
        exact hwf.distinct _ _ _ _ hje he rfl ▸ hj
      · exact fun hid => ⟨id, hid, he⟩
    simp [hmem]

end Tracks

end KeyEngine.SortedSet
