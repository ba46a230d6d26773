import KeyEngine.Proofs.SkipList.Within
import KeyEngine.Proofs.SortedSet.Tracks
import Mathlib.Data.List.Forall2

/-!
# Histories of sorted sets

Sets go through changes and are cloned, in any order. Each of them reads as the board that went through
the same, and sets with the same scores read the same whatever they went through.
-/

namespace KeyEngine

namespace SortedSet

open SkipList

/-! ## One change -/

def change (s : SortedSet) : Change → Except Fault (SortedSet × Result)
  | .insert score member => do
    let (s, new) ← s.insert score member
    return (s, .isNew new)
  | .add entries =>
    match s.add entries with
    | (s, .ok added) => return (s, .count added)
    | (_, .error fault) => throw fault
  | .increase member delta => do
    let (s, score) ← s.increase member delta
    return (s, .score score)
  | .remove members => do
    let (s, removed) ← s.remove members
    return (s, .count removed)
  | .removeRange start stop => do
    let (s, removed) ← s.removeRange start stop
    return (s, .count removed)
  | .removeScoreRange r => do
    let (s, removed) ← s.removeScoreRange r
    return (s, .count removed)
  | .popMin n => do
    let (s, popped) ← s.popMin n
    return (s, .entries popped)
  | .popMax n => do
    let (s, popped) ← s.popMax n
    return (s, .entries popped)

namespace Tracks

variable {s : SortedSet} {b : Board}

theorem entries_eq (s : SortedSet) (ids : List Nat) :
    s.entries ids = (rows s.list.entry? ids).map (·.2) := by
  unfold SortedSet.entries rows
  rw [List.map_filterMap]
  congr 1
  funext id
  cases s.list.entry? id <;> rfl

theorem entries_window {ids : List Nat} (h : WellFormed s.list ids) (k n : Nat) :
    s.entries ((ids.take n).drop k) = ((s.entries ids).take n).drop k := by
  have hmap : ∀ xs, (∀ id ∈ xs, id ∈ ids) →
      s.entries xs = xs.map fun id => (s.list.entry? id).getD ⟨.zero, []⟩ := by
    intro xs hxs
    unfold SortedSet.entries
    rw [← List.filterMap_eq_map]
    refine List.filterMap_congr fun id hid => ?_
    obtain ⟨e, he⟩ := Option.isSome_iff_exists.mp ((h.exact id).mp (hxs id hid))
    simp [he]
  rw [hmap _ fun id hid => List.mem_of_mem_take (List.mem_of_mem_drop hid), hmap ids fun _ hid => hid,
    List.map_drop, List.map_take]

theorem popRanks_ok (h : Tracks s b) (left right : Nat) (hleft : left ≠ 0) :
    ∃ run s', s.list.rankRange left right = .ok run ∧
      s.popRun run = .ok (s', (b.sorted.take right).drop (left - 1)) ∧
      Tracks s' (b.keep (· ∉ (b.sorted.take right).drop (left - 1))) := by
  obtain ⟨ids, hwf⟩ := h.order
  have hsplit : (ids.take right).take (left - 1) ++ (ids.take right).drop (left - 1) ++ ids.drop right = ids := by
    rw [List.take_append_drop, List.take_append_drop]
  have hentries : s.entries ((ids.take right).drop (left - 1)) = (b.sorted.take right).drop (left - 1) := by
    rw [entries_window hwf, entries_eq, h.sorted_eq hwf]
  obtain ⟨s', hs', h'⟩ := h.popRun_ok (hsplit.symm ▸ hwf)
  rw [hentries] at hs' h'
  exact ⟨_, s', by rw [hwf.rankRange_eq, if_neg hleft], hs', h'⟩

theorem keep_all (b : Board) : b.keep (· ∉ ([] : List Entry)) = b := by
  unfold Board.keep
  congr 1
  exact List.filter_eq_self.mpr fun e _ => by simp

theorem removeRange_ok (h : Tracks s b) (start stop : Int) :
    ∃ s', s.removeRange start stop = .ok (s', (b.window start stop).length) ∧
      Tracks s' (b.keep (· ∉ b.window start stop)) := by
  unfold SortedSet.removeRange Board.window
  rw [h.count_eq]
  cases SortedSet.window start stop b.rows.length with
  | none =>
    refine ⟨s, rfl, ?_⟩
    rw [keep_all]
    exact h
  | some w =>
    obtain ⟨run, s', hrun, hs', h'⟩ := h.popRanks_ok (w.1 + 1) (w.2 + 1) (Nat.succ_ne_zero _)
    refine ⟨s', ?_, h'⟩
    simp only [hrun, ok_bind, hs']
    rfl

/-- The nodes with scores in a range hold the rows with scores in it. -/
theorem entries_run (h : Tracks s b) {r : ScoreRange} {xs run ys : List Nat}
    (hwf : WellFormed s.list (xs ++ run ++ ys))
    (hin : ∀ id e, s.list.entry? id = some e → (id ∈ run ↔ r.contains e.score = true)) :
    s.entries run = b.sorted.filter (r.contains ·.score) := by
  rw [h.sorted_eq hwf, ← entries_eq]
  conv_lhs => rw [← hwf.filter_ids hin]
  unfold SortedSet.entries
  rw [List.filter_filterMap, List.filterMap_filter]
  apply List.filterMap_congr
  intro id _
  cases s.list.entry? id <;> simp [Option.filter]

theorem removeScoreRange_ok (h : Tracks s b) (r : ScoreRange) :
    ∃ s', s.removeScoreRange r = .ok (s', (b.sorted.filter (r.contains ·.score)).length) ∧
      Tracks s' (b.keep (!r.contains ·.score)) := by
  obtain ⟨ids, hwf⟩ := h.order
  obtain ⟨xs, run, ys, rfl, hrun, hin⟩ := hwf.scoreRange_ok r
  obtain ⟨s', hs', h'⟩ := h.popRun_ok hwf
  have hcut : s.entries run = b.sorted.filter (r.contains ·.score) := h.entries_run hwf hin
  refine ⟨s', ?_, ?_⟩
  · unfold SortedSet.removeScoreRange
    simp only [hrun, ok_bind, hs', hcut]
    rfl
  · have hkeep : b.keep (· ∉ s.entries run) = b.keep (!r.contains ·.score) := by
      refine keep_congr fun e he => ?_
      have hmem : e ∈ b.sorted := (List.mergeSort_perm b.rows Entry.le).mem_iff.mpr he
      rw [hcut, Bool.eq_iff_iff]
      simp [hmem]
    rwa [← hkeep]

theorem popMin_ok (h : Tracks s b) (n : Nat) :
    ∃ s', s.popMin n = .ok (s', b.sorted.take n) ∧ Tracks s' (b.keep (· ∉ b.sorted.take n)) := by
  obtain ⟨run, s', hrun, hs', h'⟩ := h.popRanks_ok 1 n Nat.one_ne_zero
  refine ⟨s', ?_, h'⟩
  unfold SortedSet.popMin
  rw [hrun, ok_bind, hs']
  rfl

theorem popMax_ok (h : Tracks s b) (n : Nat) :
    ∃ s', s.popMax n = .ok (s', (b.sorted.drop (b.rows.length - n)).reverse) ∧
      Tracks s' (b.keep (· ∉ b.sorted.drop (b.rows.length - n))) := by
  have hlen : b.sorted.length = b.rows.length := (List.mergeSort_perm b.rows Entry.le).length_eq
  unfold SortedSet.popMax
  rw [h.count_eq]
  by_cases hn : n = 0 ∨ b.rows.length = 0
  · have htop : b.sorted.drop (b.rows.length - n) = [] := by
      rw [List.drop_eq_nil_iff, hlen]
      omega
    rw [if_pos hn, htop, keep_all]
    exact ⟨s, rfl, h⟩
  · rw [if_neg hn]
    obtain ⟨run, s', hrun, hs', h'⟩ := h.popRanks_ok (b.rows.length - n + 1) b.rows.length (Nat.succ_ne_zero _)
    rw [← hlen, List.take_length, Nat.add_sub_cancel, hlen] at hs' h'
    refine ⟨s', ?_, h'⟩
    simp only [hrun, ok_bind, hs']
    rfl

theorem change_ok (h : Tracks s b) {c : Change} (hc : b.Permits c) :
    ∃ s', s.change c = .ok (s', (b.change c).2) ∧ Tracks s' (b.change c).1 := by
  cases c with
  | insert score m =>
    obtain ⟨s', hs', h'⟩ := h.insert_ok hc m
    exact ⟨s', by rw [change, hs']; rfl, h'⟩
  | add es =>
    obtain ⟨s', hs', h'⟩ := h.add_ok es hc
    exact ⟨s', by rw [change, hs']; rfl, h'⟩
  | increase m delta =>
    obtain ⟨s', hs', h'⟩ := h.increase_ok rfl hc
    exact ⟨s', by rw [change, hs']; rfl, h'⟩
  | remove ms =>
    obtain ⟨s', hs', h'⟩ := h.remove_ok ms
    exact ⟨s', by rw [change, hs']; rfl, h'⟩
  | removeRange start stop =>
    obtain ⟨s', hs', h'⟩ := h.removeRange_ok start stop
    exact ⟨s', by rw [change, hs']; rfl, h'⟩
  | removeScoreRange r =>
    obtain ⟨s', hs', h'⟩ := h.removeScoreRange_ok r
    exact ⟨s', by rw [change, hs']; rfl, h'⟩
  | popMin n =>
    obtain ⟨s', hs', h'⟩ := h.popMin_ok n
    exact ⟨s', by rw [change, hs']; rfl, h'⟩
  | popMax n =>
    obtain ⟨s', hs', h'⟩ := h.popMax_ok n
    exact ⟨s', by rw [change, hs']; rfl, h'⟩

end Tracks

/-! ## Many sets -/

inductive Call where
  | on (i : Nat) (c : Change)
  /-- A copy of the set becomes the last of the sets. -/
  | clone (i : Nat)
deriving DecidableEq, Repr

def call (sets : List SortedSet) : Call → Except Fault (List SortedSet × Option Result)
  | .on i c =>
    match sets[i]? with
    | none => return (sets, none)
    | some s => do
      let (s, result) ← s.change c
      return (sets.set i s, some result)
  | .clone i => return (sets ++ sets[i]?.toList, none)

def calls (sets : List SortedSet) : List Call → Except Fault (List SortedSet × List (Option Result))
  | [] => return (sets, [])
  | c :: cs => do
    let (sets, result) ← call sets c
    let (sets, results) ← calls sets cs
    return (sets, result :: results)

end SortedSet

namespace Board

open SortedSet (Call)

def call (boards : List Board) : Call → List Board × Option SortedSet.Result
  | .on i c =>
    match boards[i]? with
    | none => (boards, none)
    | some b => (boards.set i (b.change c).1, some (b.change c).2)
  | .clone i => (boards ++ boards[i]?.toList, none)

def calls (boards : List Board) : List Call → List Board × List (Option SortedSet.Result)
  | [] => (boards, [])
  | c :: cs => ((calls (call boards c).1 cs).1, (call boards c).2 :: (calls (call boards c).1 cs).2)

def PermitsAll (boards : List Board) : List Call → Prop
  | [] => True
  | .on i c :: cs => (∀ b ∈ boards[i]?, b.Permits c) ∧ PermitsAll (call boards (.on i c)).1 cs
  | .clone i :: cs => PermitsAll (call boards (.clone i)).1 cs

end Board

namespace SortedSet

open SkipList

theorem forall₂_getElem? {α β : Type} {R : α → β → Prop} {xs : List α} {ys : List β}
    (h : List.Forall₂ R xs ys) (i : Nat) : Option.Rel R xs[i]? ys[i]? := by
  induction h generalizing i with
  | nil => exact .none
  | cons hab _ ih =>
    cases i with
    | zero => exact .some hab
    | succ i => exact ih i

theorem forall₂_set {α β : Type} {R : α → β → Prop} {xs : List α} {ys : List β}
    (h : List.Forall₂ R xs ys) {a : α} {b : β} (hab : R a b) (i : Nat) :
    List.Forall₂ R (xs.set i a) (ys.set i b) := by
  induction h generalizing i with
  | nil => exact .nil
  | cons hxy h ih =>
    cases i with
    | zero => exact .cons hab h
    | succ i => exact .cons hxy (ih i)

theorem exists_of_forall₂ {α β : Type} {R : α → β → Prop} {xs : List α} {ys : List β}
    (h : List.Forall₂ R xs ys) {a : α} (ha : a ∈ xs) : ∃ b, R a b := by
  induction h with
  | nil => cases ha
  | cons hxy _ ih =>
    rcases List.mem_cons.mp ha with rfl | ha
    · exact ⟨_, hxy⟩
    · exact ih ha

theorem call_ok (c : Call) {sets : List SortedSet} {boards : List Board}
    (h : List.Forall₂ Tracks sets boards)
    (hc : ∀ i change, c = .on i change → ∀ b, boards[i]? = some b → b.Permits change) :
    ∃ sets', call sets c = .ok (sets', (Board.call boards c).2) ∧
      List.Forall₂ Tracks sets' (Board.call boards c).1 := by
  cases c with
  | on i change =>
    have hi := forall₂_getElem? h i
    rw [call, Board.call]
    cases hs : sets[i]? <;> cases hb : boards[i]? <;> rw [hs, hb] at hi
    · exact ⟨sets, rfl, h⟩
    · cases hi
    · cases hi
    · cases hi with
      | some ht =>
        obtain ⟨s', hs', h'⟩ := ht.change_ok (hc i change rfl _ hb)
        refine ⟨sets.set i s', ?_, forall₂_set h h' i⟩
        simp only [hs', ok_bind]
        rfl
  | clone i =>
    have hi := forall₂_getElem? h i
    refine ⟨_, rfl, List.rel_append h ?_⟩
    cases hs : sets[i]? <;> cases hb : boards[i]? <;> rw [hs, hb] at hi
    · exact .nil
    · cases hi
    · cases hi
    · cases hi with
      | some ht => exact .cons ht .nil

theorem calls_ok (cs : List Call) {sets : List SortedSet} {boards : List Board}
    (h : List.Forall₂ Tracks sets boards) (hcs : Board.PermitsAll boards cs) :
    ∃ sets', calls sets cs = .ok (sets', (Board.calls boards cs).2) ∧
      List.Forall₂ Tracks sets' (Board.calls boards cs).1 := by
  induction cs generalizing sets boards with
  | nil => exact ⟨sets, rfl, h⟩
  | cons c cs ih =>
    have hc : ∀ i change, c = .on i change → ∀ b, boards[i]? = some b → b.Permits change := by
      rintro i change rfl b hb
      exact hcs.1 b hb
    have hrest : Board.PermitsAll (Board.call boards c).1 cs := by
      cases c with
      | on i change => exact hcs.2
      | clone i => exact hcs
    obtain ⟨sets₁, hs₁, h₁⟩ := call_ok c h hc
    obtain ⟨sets', hs', h'⟩ := ih h₁ hrest
    refine ⟨sets', ?_, h'⟩
    rw [calls, hs₁, ok_bind]
    simp only [hs', ok_bind]
    rfl

/-! ## What a set answers -/

/-- The set reads as the board, whose rows are the nodes that the table finds. -/
structure Reads (s : SortedSet) (b : Board) : Prop where
  table : ∀ m id, s.table[m]? = some id ↔ ∃ n, s.list.node? id = some n ∧ n.entry.member = m
  once : ∀ i j n n', s.list.node? i = some n → s.list.node? j = some n' →
    n.entry.member = n'.entry.member → i = j
  score : ∀ m, s.score? m = b.score? m
  contains : ∀ m, s.contains m = (b.score? m).isSome
  count : s.count = b.rows.length
  toList : s.toList = b.sorted
  ascending : s.toList.Pairwise fun a b => a.before b = true
  rank : ∀ m, s.rank m = .ok ((s.toList.map (·.member)).idxOf? m)
  revRank : ∀ m, s.revRank m = .ok (((s.toList.map (·.member)).idxOf? m).map (s.count - 1 - ·))

/-- Both are none, or both are scores and the same number. -/
def Alike : Option Score → Option Score → Prop :=
  Option.Rel fun a b => a.same b = true

namespace Tracks

variable {s s' : SortedSet} {b b' : Board}

theorem idxOf?_members (h : Tracks s b) {ids : List Nat} (hwf : WellFormed s.list ids) {m : Bytes} {id : Nat}
    (hm : s.table[m]? = some id) : (s.toList.map (·.member)).idxOf? m = ids.idxOf? id := by
  obtain ⟨e, he, rfl⟩ := h.entry_of_table hm
  obtain ⟨xs, ys, rfl⟩ := hwf.split he
  have hid : id ∉ xs := fun hx => hwf.toLinked.not_mem (List.mem_append_left _ hx)
  have hlist : s.toList = s.entries xs ++ e :: s.entries ys := by
    rw [h.toList_eq, h.sorted_eq hwf, ← entries_eq, SortedSet.entries, List.filterMap_append,
      List.filterMap_cons, he]
    rfl
  have hlen : (s.entries xs).length = xs.length := by
    have hlive : ∀ x ∈ xs, (s.list.entry? x).isSome := fun x hx => (hwf.exact x).mp (List.mem_append_left _ hx)
    rw [entries_eq, List.length_map, ← List.length_map (·.1), map_rows hlive]
  have hmember : e.member ∉ (s.entries xs).map (·.member) := by
    intro hx
    obtain ⟨x, hx, hxe⟩ := List.mem_map.mp hx
    obtain ⟨j, hj, hjx⟩ := mem_entries.mp hx
    exact hid (hwf.distinct _ _ _ _ hjx he hxe ▸ hj)
  rw [hlist, List.map_append, List.map_cons, idxOf?_middle hmember, idxOf?_middle hid, List.length_map, hlen]

theorem idxOf?_none (h : Tracks s b) {m : Bytes} (hm : s.table[m]? = none) :
    (s.toList.map (·.member)).idxOf? m = none := by
  rw [List.idxOf?_eq_none_iff, h.toList_eq]
  intro hx
  obtain ⟨e, he, rfl⟩ := List.mem_map.mp hx
  have he := (List.mergeSort_perm b.rows Entry.le).mem_iff.mp he
  exact Board.score?_eq_none.mp (h.table_none.mp hm) e he rfl

theorem rank_ok (h : Tracks s b) (m : Bytes) : s.rank m = .ok ((s.toList.map (·.member)).idxOf? m) := by
  obtain ⟨ids, hwf⟩ := h.order
  unfold SortedSet.rank
  cases hm : s.table[m]? with
  | none =>
    rw [h.idxOf?_none hm]
    rfl
  | some id =>
    simp only [hwf.rankOf_eq, ok_bind, h.idxOf?_members hwf hm, Option.map_map]
    refine congrArg Except.ok ?_
    cases ids.idxOf? id <;> rfl

theorem revRank_ok (h : Tracks s b) (m : Bytes) :
    s.revRank m = .ok (((s.toList.map (·.member)).idxOf? m).map (s.count - 1 - ·)) := by
  obtain ⟨ids, hwf⟩ := h.order
  unfold SortedSet.revRank
  cases hm : s.table[m]? with
  | none =>
    rw [h.idxOf?_none hm]
    rfl
  | some id =>
    simp only [hwf.rankOf_eq, ok_bind, h.idxOf?_members hwf hm, Option.map_map]
    refine congrArg Except.ok ?_
    congr 1
    funext i
    simp only [Function.comp, SortedSet.count]
    omega

theorem reads (h : Tracks s b) : Reads s b where
  table m id := by
    rw [h.table, member?_eq_some]
    constructor
    · rintro ⟨e, he, rfl⟩
      obtain ⟨n, hn, rfl⟩ := exists_node_of_entry he
      exact ⟨n, hn, rfl⟩
    · rintro ⟨n, hn, rfl⟩
      exact ⟨n.entry, entry_of_node hn, rfl⟩
  once i j n n' hn hn' hm := by
    obtain ⟨ids, hwf⟩ := h.order
    exact hwf.distinct _ _ _ _ (entry_of_node hn) (entry_of_node hn') hm
  score := h.score?_eq
  contains := h.contains_eq
  count := h.count_eq
  toList := h.toList_eq
  ascending := by
    obtain ⟨ids, hwf⟩ := h.order
    rw [h.toList_eq, h.sorted_eq hwf]
    exact ascending_rows hwf
  rank := h.rank_ok
  revRank := h.revRank_ok

theorem number (h : Tracks s b) {m : Bytes} {x : Score} (hx : b.score? m = some x) : x.isNaN = false := by
  obtain ⟨ids, hwf⟩ := h.order
  obtain ⟨id, he⟩ := (h.mem _).mp (Board.score?_eq_some.mp hx)
  exact hwf.number id _ he

theorem number_of_mem (h : Tracks s b) {e : Entry} (he : e ∈ s.toList) : e.score.isNaN = false := by
  rw [h.toList_eq] at he
  exact h.number (Board.score?_eq_some.mpr ((List.mergeSort_perm b.rows Entry.le).mem_iff.mp he))

/-- Of the scores that are added for a member the last one stays. -/
theorem score?_foldl (h : Tracks s b) {es : List Entry} (hes : ∀ e ∈ es, e.score.isNaN = false) (m : Bytes) :
    Alike ((es.foldl (fun b e => b.set e.score e.member) b).score? m)
      (((es.reverse.find? (·.member = m)).map (·.score)).or (b.score? m)) := by
  induction es using List.reverseRecOn with
  | nil =>
    rw [List.foldl_nil, List.reverse_nil, List.find?_nil, Option.map_none, Option.none_or]
    cases hx : b.score? m with
    | none => exact .none
    | some x =>
      have hn := h.number hx
      exact .some (Score.same_iff.mpr ⟨hn, hn, rfl⟩)
  | append_singleton es e ih =>
    rw [List.foldl_append, List.foldl_cons, List.foldl_nil, List.reverse_append, List.reverse_singleton,
      List.singleton_append]
    by_cases he : e.member = m
    · obtain ⟨x, hx, hsame⟩ := Board.score?_set_self
        (b := es.foldl (fun b e => b.set e.score e.member) b) (hes e (by simp)) e.member
      rw [List.find?_cons_of_pos (by simpa using he), ← he, hx]
      exact .some hsame
    · rw [List.find?_cons_of_neg (by simpa using he), Board.score?_set_other (Ne.symm he)]
      exact ih fun x hx => hes x (List.mem_append_left _ hx)

theorem add_last (h : Tracks s b) {es : List Entry} (hes : ∀ e ∈ es, e.score.isNaN = false) :
    ∃ s' n, s.add es = (s', .ok n) ∧ ∀ m, Alike (s'.score? m)
      (((es.reverse.find? (·.member = m)).map (·.score)).or (s.score? m)) := by
  obtain ⟨s', hs', h'⟩ := h.add_ok es hes
  refine ⟨s', _, hs', fun m => ?_⟩
  rw [h'.score?_eq, h.score?_eq]
  exact h.score?_foldl hes m

end Tracks

/-! ## Sets with the same scores -/

/-- The sets list the same members in the same order, with scores that are the same numbers. -/
structure ReadsLike (s s' : SortedSet) : Prop where
  toList : List.Forall₂ (fun a a' => a.member = a'.member ∧ a.score.same a'.score = true) s.toList s'.toList
  rank : ∀ m, s.rank m = s'.rank m
  revRank : ∀ m, s.revRank m = s'.revRank m

/-- All that the order looks at. -/
def orderKey (e : Entry) : Int × Bytes :=
  (e.score.key, e.member)

namespace Tracks

variable {s s' : SortedSet} {b b' : Board}

theorem mem_orderKeys (h : Tracks s b) {k : Int} {m : Bytes} :
    (k, m) ∈ s.toList.map orderKey ↔ ∃ x, s.score? m = some x ∧ x.key = k := by
  rw [h.toList_eq, h.score?_eq, List.mem_map]
  constructor
  · rintro ⟨e, he, hk⟩
    cases hk
    exact ⟨e.score, Board.score?_eq_some.mpr ((List.mergeSort_perm b.rows Entry.le).mem_iff.mp he), rfl⟩
  · rintro ⟨x, hx, rfl⟩
    exact ⟨⟨x, m⟩, (List.mergeSort_perm b.rows Entry.le).mem_iff.mpr (Board.score?_eq_some.mp hx), rfl⟩

theorem orderKeys_nodup (h : Tracks s b) : (s.toList.map orderKey).Nodup := by
  have hperm : s.toList.Perm b.rows := h.toList_eq ▸ List.mergeSort_perm b.rows Entry.le
  have hmembers := (hperm.map (·.member)).nodup_iff.mpr b.once
  refine List.Nodup.of_map Prod.snd ?_
  rwa [List.map_map]

theorem orderKeys_pairwise (h : Tracks s b) : (s.toList.map orderKey).Pairwise
    fun p q => p.1 < q.1 ∨ p.1 = q.1 ∧ p.2 ≤ q.2 := by
  obtain ⟨ids, hwf⟩ := h.order
  rw [h.toList_eq, h.sorted_eq hwf, List.pairwise_map]
  exact (ascending_rows hwf).imp fun hab => Entry.le_iff.mp (Entry.le_of_before hab)

theorem orderKeys_subset (h : Tracks s b) (h' : Tracks s' b')
    (hsame : ∀ m, Alike (s.score? m) (s'.score? m)) {p : Int × Bytes} (hp : p ∈ s.toList.map orderKey) :
    p ∈ s'.toList.map orderKey := by
  obtain ⟨x, hx, hk⟩ := h.mem_orderKeys.mp hp
  have hm := hsame p.2
  rw [hx] at hm
  refine h'.mem_orderKeys.mpr ?_
  cases hx' : s'.score? p.2 with
  | none =>
    rw [hx'] at hm
    cases hm
  | some x' =>
    rw [hx'] at hm
    cases hm with
    | some hxx => exact ⟨x', rfl, (Score.same_iff.mp hxx).2.2.symm.trans hk⟩

theorem alike_symm {o o' : Option Score} (h : Alike o o') : Alike o' o := by
  cases h with
  | none => exact .none
  | some h =>
    obtain ⟨hx, hx', hk⟩ := Score.same_iff.mp h
    exact .some (Score.same_iff.mpr ⟨hx', hx, hk.symm⟩)

/-- Sets with the same numbers for the same members have the same order. -/
theorem orderKeys_eq (h : Tracks s b) (h' : Tracks s' b') (hsame : ∀ m, Alike (s.score? m) (s'.score? m)) :
    s.toList.map orderKey = s'.toList.map orderKey := by
  have hperm : (s.toList.map orderKey).Perm (s'.toList.map orderKey) :=
    (List.perm_ext_iff_of_nodup h.orderKeys_nodup h'.orderKeys_nodup).mpr fun p =>
      ⟨h.orderKeys_subset h' hsame, h'.orderKeys_subset h fun m => alike_symm (hsame m)⟩
  refine hperm.eq_of_pairwise (fun p q _ _ hpq hqp => ?_) h.orderKeys_pairwise h'.orderKeys_pairwise
  have hk : p.1 = q.1 := by omega
  rcases hpq with hpq | ⟨-, hpq⟩
  · omega
  · rcases hqp with hqp | ⟨-, hqp⟩
    · omega
    · exact Prod.ext hk (List.le_antisymm hpq hqp)

theorem readsLike (h : Tracks s b) (h' : Tracks s' b') (hsame : ∀ m, Alike (s.score? m) (s'.score? m)) :
    ReadsLike s s' := by
  have hkeys := h.orderKeys_eq h' hsame
  have hmembers : s.toList.map (·.member) = s'.toList.map (·.member) := by
    have := congrArg (List.map Prod.snd) hkeys
    rwa [List.map_map, List.map_map] at this
  have hlength : s.toList.length = s'.toList.length := by
    simpa using congrArg List.length hmembers
  have hcount : s.count = s'.count := by
    rw [h.toList_eq, h'.toList_eq, Board.sorted, Board.sorted, List.length_mergeSort,
      List.length_mergeSort] at hlength
    rw [h.count_eq, h'.count_eq, hlength]
  refine ⟨List.forall₂_iff_zip.mpr ⟨hlength, fun {a a'} hz => ?_⟩, fun m => ?_, fun m => ?_⟩
  · obtain ⟨ha, ha'⟩ := List.of_mem_zip hz
    have hall : List.Forall₂ (fun a a' => orderKey a = orderKey a') s.toList s'.toList := by
      rw [← List.forall₂_map_right_iff, ← List.forall₂_map_left_iff, List.forall₂_eq_eq_eq]
      exact hkeys
    have hkey := (List.forall₂_iff_zip.mp hall).2 hz
    rw [orderKey, orderKey, Prod.mk.injEq] at hkey
    exact ⟨hkey.2, Score.same_iff.mpr ⟨h.number_of_mem ha, h'.number_of_mem ha', hkey.1⟩⟩
  · rw [h.rank_ok, h'.rank_ok, hmembers]
  · rw [h.revRank_ok, h'.revRank_ok, hmembers, hcount]

end Tracks

/-- Sets that go through any permitted calls read as boards that go through the same, and answer each call as
these do. Adding entries leaves the last score of each member. Sets with the same scores read the same,
whatever each of them went through. -/
theorem calls_read (maxLevel : Nat) (towers : Towers) (cs : List Call) (h : Board.PermitsAll [.empty] cs)
    (maxLevel' : Nat) (towers' : Towers) (cs' : List Call) (h' : Board.PermitsAll [.empty] cs') :
    ∃ sets sets', calls [.empty maxLevel towers] cs = .ok (sets, (Board.calls [.empty] cs).2) ∧
      calls [.empty maxLevel' towers'] cs' = .ok (sets', (Board.calls [.empty] cs').2) ∧
      List.Forall₂ Reads sets (Board.calls [.empty] cs).1 ∧
      (∀ s ∈ sets, ∀ es : List Entry, (∀ e ∈ es, e.score.isNaN = false) → ∃ t n, s.add es = (t, .ok n) ∧
        ∀ m, Alike (t.score? m) (((es.reverse.find? (·.member = m)).map (·.score)).or (s.score? m))) ∧
      ∀ s ∈ sets, ∀ s' ∈ sets', (∀ m, Alike (s.score? m) (s'.score? m)) → ReadsLike s s' := by
  obtain ⟨sets, hsets, ht⟩ := calls_ok cs (.cons (.empty maxLevel towers) .nil) h
  obtain ⟨sets', hsets', ht'⟩ := calls_ok cs' (.cons (.empty maxLevel' towers') .nil) h'
  refine ⟨sets, sets', hsets, hsets', ht.imp fun _ _ => Tracks.reads, fun s hs es hes => ?_,
    fun s hs s' hs' hsame => ?_⟩
  · obtain ⟨b, hb⟩ := exists_of_forall₂ ht hs
    exact hb.add_last hes
  · obtain ⟨b, hb⟩ := exists_of_forall₂ ht hs
    obtain ⟨b', hb'⟩ := exists_of_forall₂ ht' hs'
    exact hb.readsLike hb' hsame

/-- Added, removed and added again, or added once. -/
theorem calls_read_again : ∃ sets sets',
    calls [.empty 16 (Towers.seeded 7)] [.on 0 (.add [⟨.one, [97]⟩, ⟨.zero, [97]⟩]), .on 0 (.remove [[97]]),
      .clone 0, .on 1 (.add [⟨.zero, [97]⟩])] = .ok (sets, [some (.count 1), some (.count 1), none, some (.count 1)]) ∧
    calls [.empty 64 (Towers.seeded 0)] [.on 0 (.add [⟨.zero, [97]⟩])] = .ok (sets', [some (.count 1)]) ∧
    ∀ s ∈ sets, ∀ s' ∈ sets', (∀ m, Alike (s.score? m) (s'.score? m)) → ReadsLike s s' := by
  obtain ⟨sets, sets', hsets, hsets', -, -, hlike⟩ := calls_read 16 (Towers.seeded 7)
    [.on 0 (.add [⟨.one, [97]⟩, ⟨.zero, [97]⟩]), .on 0 (.remove [[97]]), .clone 0, .on 1 (.add [⟨.zero, [97]⟩])]
    ⟨fun _ _ => by simp only [Board.Permits]; decide, fun _ _ => trivial,
      fun _ _ => by simp only [Board.Permits]; decide, trivial⟩
    64 (Towers.seeded 0) [.on 0 (.add [⟨.zero, [97]⟩])] ⟨fun _ _ => by simp only [Board.Permits]; decide, trivial⟩
  exact ⟨sets, sets', hsets.trans (congrArg (fun results => Except.ok (sets, results)) (by decide +kernel)),
    hsets'.trans (congrArg (fun results => Except.ok (sets', results)) (by decide +kernel)), hlike⟩

end SortedSet

end KeyEngine
