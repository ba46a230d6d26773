import KeyEngine.Proofs.SkipList.Queries
import KeyEngine.Proofs.SkipList.Runs

/-!
# Lists refine a roster

A roster is the plain list of the entries and their slots, with no order, links or heights. A list
answers every edit and every query as the roster does, so heights show in no answer.
-/

namespace KeyEngine

def Entry.le (a b : Entry) : Bool :=
  a.score.key < b.score.key || (a.score.key = b.score.key && decide (a.member ≤ b.member))

theorem Entry.le_iff {a b : Entry} :
    a.le b = true ↔ a.score.key < b.score.key ∨ a.score.key = b.score.key ∧ a.member ≤ b.member := by
  simp [le]

theorem Entry.le_trans {a b c : Entry} (h : a.le b = true) (h' : b.le c = true) : a.le c = true := by
  rw [le_iff] at *
  rcases h with h | ⟨h, hm⟩ <;> rcases h' with h' | ⟨h', hm'⟩
  · exact .inl (by omega)
  · exact .inl (by omega)
  · exact .inl (by omega)
  · exact .inr ⟨by omega, List.le_trans hm hm'⟩

theorem Entry.le_total (a b : Entry) : (a.le b || b.le a) = true := by
  rw [Bool.or_eq_true, le_iff, le_iff]
  rcases Int.lt_trichotomy a.score.key b.score.key with hk | hk | hk
  · exact .inl (.inl hk)
  · rcases List.le_total a.member b.member with hm | hm
    · exact .inl (.inr ⟨hk, hm⟩)
    · exact .inr (.inr ⟨hk.symm, hm⟩)
  · exact .inr (.inl hk)

theorem Entry.le_antisymm {a b : Entry} (h : a.le b = true) (h' : b.le a = true) : a.member = b.member := by
  rw [le_iff] at *
  rcases h with h | ⟨h, hm⟩ <;> rcases h' with h' | ⟨h', hm'⟩ <;> first | omega | exact List.le_antisymm hm hm'

theorem Entry.le_of_before {a b : Entry} (h : a.before b = true) : a.le b = true := by
  rw [before_iff, Score.lt_iff, Score.same_iff] at h
  rw [le_iff]
  rcases h with h | h
  · exact .inl h.2.2
  · exact .inr ⟨h.1.2.2, List.le_of_lt h.2⟩

structure Roster where
  rows : List (Nat × Entry)
  /-- The free slots, the one freed last in front. -/
  free : List Nat
  fresh : Nat

namespace Roster

def empty : Roster := ⟨[], [], 0⟩

def entry? (r : Roster) (id : Nat) : Option Entry :=
  (r.rows.find? (·.1 = id)).map (·.2)

def sorted (r : Roster) : List (Nat × Entry) :=
  r.rows.mergeSort fun a b => a.2.le b.2

def ids (r : Roster) : List Nat :=
  r.sorted.map (·.1)

def insert (r : Roster) (e : Entry) : Roster × Nat :=
  match r.free with
  | id :: free => (⟨(id, e) :: r.rows, free, r.fresh⟩, id)
  | [] => (⟨(r.fresh, e) :: r.rows, [], r.fresh + 1⟩, r.fresh)

def updateScore (r : Roster) (id : Nat) (score : Score) : Roster :=
  { r with rows := r.rows.map fun row => if row.1 = id then (id, row.2.rescored score) else row }

def remove (r : Roster) (id : Nat) : Roster × Option Entry :=
  match r.entry? id with
  | none => (r, none)
  | some e => ({ r with rows := r.rows.filter (·.1 ≠ id), free := id :: r.free }, some e)

def edit (r : Roster) : SkipList.Edit → Roster × SkipList.Reply
  | .insert e => ((r.insert e).1, .slot (r.insert e).2)
  | .updateScore id score => (r.updateScore id score, .done)
  | .remove id => ((r.remove id).1, .entry (r.remove id).2)
  | .deleteByPath id => ((r.remove id).1, .entry (r.remove id).2)

def edits (r : Roster) : List SkipList.Edit → Roster × List SkipList.Reply
  | [] => (r, [])
  | e :: es =>
    let (r', replies) := (r.edit e).1.edits es
    (r', (r.edit e).2 :: replies)

/-- Each edit is permitted on the roster that those before it leave. -/
def Permits (r : Roster) : List SkipList.Edit → Prop
  | [] => True
  | e :: es => e.Permitted r.entry? ∧ (r.edit e).1.Permits es

instance decidablePermitted (r : Roster) : (e : SkipList.Edit) → Decidable (e.Permitted r.entry?)
  | .insert e =>
    decidable_of_iff (e.score.isNaN = false ∧
        ∀ row ∈ r.rows, ∀ x ∈ r.entry? row.1, x.member ≠ e.member) <| by
      refine and_congr_right fun _ => ⟨fun h id x hx => ?_, fun h row _ x hx => h row.1 x hx⟩
      obtain ⟨row, hrow, -⟩ := Option.map_eq_some_iff.mp hx
      have hid : row.1 = id := by simpa using List.find?_some hrow
      exact h row (List.mem_of_find?_eq_some hrow) x (hid ▸ hx)
  | .updateScore _ score => inferInstanceAs (Decidable (score.isNaN = false))
  | .remove _ => inferInstanceAs (Decidable True)
  | .deleteByPath id => inferInstanceAs (Decidable ((r.entry? id).isSome = true))

instance decidablePermits : (es : List SkipList.Edit) → (r : Roster) → Decidable (r.Permits es)
  | [], _ => inferInstanceAs (Decidable True)
  | e :: es, r =>
    have := decidablePermits es (r.edit e).1
    inferInstanceAs (Decidable (e.Permitted r.entry? ∧ (r.edit e).1.Permits es))

end Roster

namespace SkipList

/-! ## Queries -/

inductive Query where
  | toList
  | first
  | last
  | len
  | next (id : Nat)
  | prev (id : Nat)
  | score (id : Nat)
  | member (id : Nat)
  | rankOf (id : Nat)
  | nodeAtRank (rank : Nat)
  | rankRange (left right : Nat)
deriving DecidableEq, Repr

inductive Answer where
  | rows (rows : List (Nat × Entry))
  | slots (ids : List Nat)
  | slot (id : Option Nat)
  | count (n : Nat)
  | rank (rank : Option Nat)
  | score (score : Option Score)
  | member (member : Option Bytes)
deriving DecidableEq, Repr

def ask (l : SkipList) : Query → Except Fault Answer
  | .toList => return .rows l.toList
  | .first => return .slot l.first
  | .last => return .slot l.last
  | .len => return .count l.len
  | .next id => return .slot (l.next id)
  | .prev id => return .slot (l.prev id)
  | .score id => return .score (l.score? id)
  | .member id => return .member (l.member? id)
  | .rankOf id => do
    let rank ← l.rankOf id
    return .rank rank
  | .nodeAtRank rank => do
    let id ← l.nodeAtRank rank
    return .slot id
  | .rankRange left right => do
    let ids ← l.rankRange left right
    return .slots ids

end SkipList

namespace Roster

/-- Ranks are positions, from one upwards. -/
def ask (r : Roster) : SkipList.Query → SkipList.Answer
  | .toList => .rows r.sorted
  | .first => .slot r.ids.head?
  | .last => .slot r.ids.getLast?
  | .len => .count r.rows.length
  | .next id => .slot ((r.ids.idxOf? id).bind fun i => r.ids[i + 1]?)
  | .prev id => .slot ((r.ids.idxOf? id).bind fun i => if i = 0 then none else r.ids[i - 1]?)
  | .score id => .score ((r.entry? id).map (·.score))
  | .member id => .member ((r.entry? id).map (·.member))
  | .rankOf id => .rank ((r.ids.idxOf? id).map (· + 1))
  | .nodeAtRank rank => .slot (if rank = 0 then none else r.ids[rank - 1]?)
  | .rankRange left right => .slots (if left = 0 then [] else (r.ids.take right).drop (left - 1))

end Roster

namespace SkipList

/-! ## The only ascending list of the rows -/

namespace WellFormed

variable {l : SkipList} {ids : List Nat} {list : List (Nat × Entry)}

theorem perm_rows (h : WellFormed l ids) (hmem : ∀ row, row ∈ list ↔ l.entry? row.1 = some row.2)
    (hnodup : list.Nodup) : list.Perm (rows l.entry? ids) := by
  have hrows : (rows l.entry? ids).Nodup := List.Nodup.of_map Prod.fst <| by
    rw [map_rows fun id hid => (h.exact id).mp hid]
    exact h.nodup
  refine (List.perm_ext_iff_of_nodup hnodup hrows).mpr fun row => ?_
  rw [mem_rows, hmem, h.exact]
  exact ⟨fun he => ⟨by rw [he]; rfl, he⟩, fun he => he.2⟩

theorem eq_rows (h : WellFormed l ids) (hmem : ∀ row, row ∈ list ↔ l.entry? row.1 = some row.2)
    (hnodup : list.Nodup) (hsorted : list.Pairwise fun a b => a.2.le b.2 = true) :
    list = rows l.entry? ids := by
  have hrows : (rows l.entry? ids).Pairwise fun a b => a.2.le b.2 = true :=
    h.ascending.rows.imp Entry.le_of_before
  refine (h.perm_rows hmem hnodup).eq_of_pairwise (fun a b ha hb hab hba => ?_) hsorted hrows
  have ha := (hmem a).mp ha
  have hb := (mem_rows.mp hb).2
  have hid := h.distinct _ _ _ _ ha hb (Entry.le_antisymm hab hba)
  rw [hid] at ha
  exact Prod.ext hid (Option.some.inj (ha.symm.trans hb))

end WellFormed

/-! ## Refinement -/

/-- The list holds the rows of the roster. -/
structure Models (l : SkipList) (r : Roster) : Prop where
  order : ∃ ids, WellFormed l ids
  mem : ∀ id e, (id, e) ∈ r.rows ↔ l.entry? id = some e
  once : (r.rows.map (·.1)).Nodup
  free : r.free = l.free
  fresh : r.fresh = l.nodes.size

namespace Models

variable {l : SkipList} {r : Roster}

theorem entry (h : Models l r) (id : Nat) : r.entry? id = l.entry? id := by
  unfold Roster.entry?
  cases hf : r.rows.find? (·.1 = id) with
  | none =>
    rw [List.find?_eq_none] at hf
    cases he : l.entry? id with
    | none => rfl
    | some e => simpa using hf _ ((h.mem id e).mpr he)
  | some row =>
    have hid : row.1 = id := by simpa using List.find?_some hf
    have hmem := List.mem_of_find?_eq_some hf
    rw [← hid, (h.mem row.1 row.2).mp hmem]
    rfl

theorem perm (h : Models l r) {ids : List Nat} (hwf : WellFormed l ids) :
    r.rows.Perm (rows l.entry? ids) :=
  hwf.perm_rows (fun row => h.mem row.1 row.2) (List.Nodup.of_map _ h.once)

theorem sorted (h : Models l r) {ids : List Nat} (hwf : WellFormed l ids) :
    r.sorted = rows l.entry? ids := by
  have hperm := List.mergeSort_perm r.rows fun a b => a.2.le b.2
  refine hwf.eq_rows (fun row => ?_) (hperm.nodup_iff.mpr (List.Nodup.of_map _ h.once)) ?_
  · rw [Roster.sorted, hperm.mem_iff]
    exact h.mem row.1 row.2
  · refine List.pairwise_mergeSort ?_ ?_ r.rows
    · exact fun _ _ _ => Entry.le_trans
    · exact fun a b => Entry.le_total a.2 b.2

theorem ids (h : Models l r) {ids : List Nat} (hwf : WellFormed l ids) : r.ids = ids := by
  rw [Roster.ids, h.sorted hwf]
  exact map_rows fun id hid => (hwf.exact id).mp hid

theorem ask_eq (h : Models l r) (q : Query) : l.ask q = .ok (r.ask q) := by
  obtain ⟨ids, hwf⟩ := h.order
  have hids := h.ids hwf
  cases q with
  | toList => rw [ask, hwf.toList_eq, Roster.ask, h.sorted hwf]; rfl
  | first => rw [ask, hwf.first_eq, Roster.ask, hids]; rfl
  | last => rw [ask, last, hwf.tail, Roster.ask, hids]; rfl
  | len =>
    have hlen := congrArg List.length (map_rows fun id hid => (hwf.exact id).mp hid)
    rw [List.length_map] at hlen
    rw [ask, hwf.len, Roster.ask, (h.perm hwf).length_eq, hlen]
    rfl
  | next id => rw [ask, hwf.next_eq_get, Roster.ask, hids]; rfl
  | prev id => rw [ask, hwf.prev_eq_get, Roster.ask, hids]; rfl
  | score id => rw [ask, Roster.ask, h.entry]; rfl
  | member id => rw [ask, Roster.ask, h.entry]; rfl
  | rankOf id => rw [ask, hwf.rankOf_eq, Roster.ask, hids]; rfl
  | nodeAtRank rank => rw [ask, hwf.nodeAtRank_eq, Roster.ask, hids]; rfl
  | rankRange left right => rw [ask, hwf.rankRange_eq, Roster.ask, hids]; rfl

theorem empty (maxLevel : Nat) (towers : Towers) : Models (SkipList.empty maxLevel towers) .empty :=
  ⟨⟨[], .empty maxLevel towers⟩, fun id e => ⟨fun h => by simp [Roster.empty] at h, fun h => by cases h⟩,
    List.nodup_nil, rfl, rfl⟩

theorem insert_snd (h : Models l r) (e : Entry) : (r.insert e).2 = l.nextSlot := by
  rw [Roster.insert, nextSlot, ← h.free, ← h.fresh]
  cases r.free <;> rfl

theorem insert (h : Models l r) {e : Entry} (he : e.score.isNaN = false)
    (hnew : ∀ id x, l.entry? id = some x → x.member ≠ e.member) :
    ∃ l', l.insert e = .ok (l', (r.insert e).2) ∧ Models l' (r.insert e).1 := by
  obtain ⟨ids, hwf⟩ := h.order
  obtain ⟨l', ids', hl', hwf', hassign, hfree, hsize⟩ := hwf.insert_ok he hnew
  have hslot := hwf.nextSlot_free
  have hrows : (r.insert e).1.rows = (l.nextSlot, e) :: r.rows := by
    rw [← h.insert_snd e, Roster.insert]
    cases r.free <;> rfl
  refine ⟨l', by rw [hl', h.insert_snd], ⟨ids', hwf'⟩, fun id x => ?_, ?_, ?_, ?_⟩
  · rw [hrows, List.mem_cons, h.mem, hassign, Prod.mk.injEq]
    by_cases hid : id = l.nextSlot
    · simp [hid, hslot, eq_comm]
    · simp [hid]
  · rw [hrows, List.map_cons, List.nodup_cons]
    refine ⟨fun hmem => ?_, h.once⟩
    obtain ⟨row, hrow, hid⟩ := List.mem_map.mp hmem
    have := (h.mem row.1 row.2).mp hrow
    rw [hid, hslot] at this
    cases this
  · rw [hfree, ← h.free, Roster.insert]
    cases r.free <;> rfl
  · rcases l.nextSlot_cases with ⟨hf, hs⟩ | ⟨free, hf⟩
    · rw [hsize, hs, Roster.insert, h.free, hf, ← h.fresh]
      exact (Nat.max_eq_right (Nat.le_succ _)).symm
    · have hlt := ((hwf.free l.nextSlot).mp (hf ▸ List.mem_cons_self)).1
      rw [hsize, Roster.insert, h.free, hf]
      exact h.fresh.trans (by omega)

theorem updateScore (h : Models l r) (id : Nat) {score : Score} (hs : score.isNaN = false) :
    ∃ l', l.updateScore id score = .ok l' ∧ Models l' (r.updateScore id score) := by
  obtain ⟨ids, hwf⟩ := h.order
  obtain ⟨l', ids', hl', hwf', hassign, hfree, hsize⟩ := hwf.updateScore_ok id hs
  refine ⟨l', hl', ⟨ids', hwf'⟩, fun j x => ?_, ?_, h.free.trans hfree.symm, h.fresh.trans hsize.symm⟩
  · rw [hassign]
    simp only [Roster.updateScore, List.mem_map]
    constructor
    · rintro ⟨row, hrow, he⟩
      have hrow := (h.mem row.1 row.2).mp hrow
      split at he
      · cases he
        simp_all
      · cases he
        simp [*]
    · intro he
      split at he
      · subst j
        obtain ⟨e, hid, rfl⟩ := Option.map_eq_some_iff.mp he
        exact ⟨(id, e), (h.mem id e).mpr hid, by simp⟩
      · exact ⟨(j, x), (h.mem j x).mpr he, by simp [*]⟩
  · have : (r.updateScore id score).rows.map (·.1) = r.rows.map (·.1) := by
      rw [Roster.updateScore, List.map_map]
      refine List.map_congr_left fun row _ => ?_
      simp only [Function.comp]
      split
      · simp [*]
      · rfl
    rw [this]
    exact h.once

theorem remove (h : Models l r) (id : Nat) :
    ∃ l', l.remove id = .ok (l', (r.remove id).2) ∧ Models l' (r.remove id).1 := by
  obtain ⟨ids, hwf⟩ := h.order
  obtain ⟨l', ids', hl', hwf', hassign, hfree, hsize⟩ := hwf.remove_ok id
  have hentry := h.entry id
  rw [hl', ← hentry]
  cases he : r.entry? id with
  | none =>
    rw [he] at hentry
    have hsame : ∀ j, l'.entry? j = l.entry? j := fun j => by
      rw [hassign]
      split <;> simp [*]
    rw [Roster.remove, he]
    refine ⟨l', rfl, ⟨ids', hwf'⟩, fun j x => ?_, h.once, ?_, h.fresh.trans hsize.symm⟩
    · rw [hsame]
      exact h.mem j x
    · rw [hfree, ← hentry]
      exact h.free
  | some e =>
    rw [he] at hentry
    rw [Roster.remove, he]
    refine ⟨l', rfl, ⟨ids', hwf'⟩, fun j x => ?_, ?_, ?_, h.fresh.trans hsize.symm⟩
    · rw [hassign, List.mem_filter, h.mem]
      by_cases hj : j = id <;> simp [hj]
    · exact h.once.sublist (List.Sublist.map _ List.filter_sublist)
    · rw [hfree, ← hentry]
      exact congrArg _ h.free

theorem edit_eq (h : Models l r) {e : Edit} (he : e.Permitted r.entry?) :
    ∃ l', l.edit e = .ok (l', (r.edit e).2) ∧ Models l' (r.edit e).1 := by
  rw [show r.entry? = l.entry? from funext h.entry] at he
  have hremove : ∀ id, ∃ l', l.edit (.remove id) = .ok (l', .entry (r.remove id).2) ∧ Models l' (r.remove id).1 := by
    intro id
    obtain ⟨l', hl', hm⟩ := h.remove id
    exact ⟨l', by rw [edit, hl']; rfl, hm⟩
  cases e with
  | insert e =>
    obtain ⟨l', hl', hm⟩ := h.insert he.1 he.2
    exact ⟨l', by rw [edit, hl']; rfl, hm⟩
  | updateScore id score =>
    obtain ⟨l', hl', hm⟩ := h.updateScore id he
    exact ⟨l', by rw [edit, hl']; rfl, hm⟩
  | remove id => exact hremove id
  | deleteByPath id =>
    rw [edit_deleteByPath he]
    exact hremove id

theorem edits_eq (es : List Edit) {l : SkipList} {r : Roster} (h : Models l r) (hes : r.Permits es) :
    ∃ l', l.edits es = .ok (l', (r.edits es).2) ∧ Models l' (r.edits es).1 := by
  induction es generalizing l r with
  | nil => exact ⟨l, rfl, h⟩
  | cons e es ih =>
    obtain ⟨m, hm, hmodels⟩ := h.edit_eq hes.1
    obtain ⟨l', hl', hmodels'⟩ := ih hmodels hes.2
    refine ⟨l', ?_, hmodels'⟩
    rw [edits, hm, ok_bind]
    simp only [hl', ok_bind]
    rfl

end Models

/-! ## Ranks and free slots -/

theorem WellFormed.nodeAtRank_iff {l : SkipList} {ids : List Nat} (h : WellFormed l ids) (id rank : Nat) :
    l.nodeAtRank rank = .ok (some id) ↔ l.rankOf id = .ok (some rank) := by
  rw [h.nodeAtRank_eq, h.rankOf_eq, Except.ok.injEq, Except.ok.injEq, Option.map_eq_some_iff]
  constructor
  · intro he
    split at he
    · cases he
    · obtain ⟨hlt, rfl⟩ := List.getElem?_eq_some_iff.mp he
      refine ⟨rank - 1, List.idxOf?_eq_some_iff.mpr ⟨hlt, rfl, fun j hj he => ?_⟩, by omega⟩
      have := h.nodup.getElem_inj_iff.mp he
      omega
  · rintro ⟨i, hi, rfl⟩
    obtain ⟨hlt, hid, -⟩ := List.idxOf?_eq_some_iff.mp hi
    simp [hlt, hid]

/-- The slot answers nothing and takes no change. -/
structure Silent (l : SkipList) (id : Nat) : Prop where
  rankOf : l.rankOf id = .ok none
  score : l.score? id = none
  member : l.member? id = none
  next : l.next id = none
  prev : l.prev id = none
  remove : l.remove id = .ok (l, none)
  updateScore : ∀ score, l.updateScore id score = .ok l

theorem silent_of_free {l : SkipList} {id : Nat} (h : l.node? id = none) : l.Silent id where
  rankOf := by rw [SkipList.rankOf, h]; rfl
  score := by rw [score?, SkipList.entry?, h]; rfl
  member := by rw [member?, SkipList.entry?, h]; rfl
  next := by rw [SkipList.next, h]; rfl
  prev := by rw [SkipList.prev, h]; rfl
  remove := by rw [SkipList.remove, h]; rfl
  updateScore score := by rw [SkipList.updateScore, h]; rfl

/-- After any permitted edits a list answers as the roster does, and so as any list does whose nodes got
other heights. -/
theorem edits_refine (es : List Edit) (h : Roster.empty.Permits es) (maxLevel : Nat) (towers : Towers) :
    ∃ l, (SkipList.empty maxLevel towers).edits es = .ok (l, (Roster.empty.edits es).2) ∧
      (∀ q, l.ask q = .ok ((Roster.empty.edits es).1.ask q)) ∧
      (∀ id rank, l.nodeAtRank rank = .ok (some id) ↔ l.rankOf id = .ok (some rank)) ∧
      (∀ id, l.node? id = none → l.Silent id) ∧
      ∀ maxLevel' towers', ∃ l', (SkipList.empty maxLevel' towers').edits es =
        .ok (l', (Roster.empty.edits es).2) ∧ ∀ q, l'.ask q = l.ask q := by
  obtain ⟨l, hl, hm⟩ := (Models.empty maxLevel towers).edits_eq es h
  obtain ⟨ids, hwf⟩ := hm.order
  refine ⟨l, hl, hm.ask_eq, hwf.nodeAtRank_iff, fun id => silent_of_free, fun maxLevel' towers' => ?_⟩
  obtain ⟨l', hl', hm'⟩ := (Models.empty maxLevel' towers').edits_eq es h
  exact ⟨l', hl', fun q => (hm'.ask_eq q).trans (hm.ask_eq q).symm⟩

theorem edits_refine_moves : ∃ l, (SkipList.empty 16 (Towers.seeded 7)).edits
    [.insert ⟨.one, [97]⟩, .insert ⟨.zero, [98]⟩, .updateScore 0 .negInf, .remove 1, .insert ⟨.zero, [98]⟩] =
      .ok (l, [.slot 0, .slot 1, .done, .entry (some ⟨.zero, [98]⟩), .slot 1]) ∧
    l.ask (.score 0) = .ok (.score (some .negInf)) := by
  obtain ⟨l, hl, hask, -⟩ := edits_refine
    [.insert ⟨.one, [97]⟩, .insert ⟨.zero, [98]⟩, .updateScore 0 .negInf, .remove 1, .insert ⟨.zero, [98]⟩]
    (by decide +kernel) 16 (Towers.seeded 7)
  exact ⟨l, hl.trans (congrArg (fun replies => Except.ok (l, replies)) (by decide +kernel)),
    (hask (.score 0)).trans (by decide +kernel)⟩

end SkipList

end KeyEngine
