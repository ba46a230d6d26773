import KeyEngine.Proofs.SortedSet.Windows

/-!
# Splits of a sorted set

Members that are popped off an end, or removed by their scores, and the members that are left make up the
ascending list, each side in its order. What was taken is not found any more and can be added again as new; all of
it added again restores the list.
-/

namespace KeyEngine

theorem filter_notMem_left {α : Type} [DecidableEq α] {xs ys : List α} (h : (xs ++ ys).Nodup) :
    (xs ++ ys).filter (· ∉ xs) = ys := by
  have hdisjoint := (List.nodup_append.mp h).2.2
  have hleft : xs.filter (· ∉ xs) = [] := by simp
  have hright : ys.filter (· ∉ xs) = ys :=
    List.filter_eq_self.mpr fun y hy => by simpa using fun hx => hdisjoint y hx y hy rfl
  rw [List.filter_append, hleft, hright, List.nil_append]

theorem filter_notMem_right {α : Type} [DecidableEq α] {xs ys : List α} (h : (xs ++ ys).Nodup) :
    (xs ++ ys).filter (· ∉ ys) = xs := by
  have hdisjoint := (List.nodup_append.mp h).2.2
  have hleft : xs.filter (· ∉ ys) = xs :=
    List.filter_eq_self.mpr fun x hx => by simpa using fun hy => hdisjoint x hx x hy rfl
  have hright : ys.filter (· ∉ ys) = [] := by simp
  rw [List.filter_append, hleft, hright, List.append_nil]

namespace Board

theorem length_fresh_new {es : List Entry} (hn : (es.map (·.member)).Nodup) {b : Board}
    (hb : ∀ e ∈ es, b.score? e.member = none) : (b.fresh es).length = es.length := by
  induction es generalizing b with
  | nil => rfl
  | cons e es ih =>
    rw [List.map_cons, List.nodup_cons] at hn
    rw [List.forall_mem_cons] at hb
    have hrest : ∀ x ∈ es, (b.set e.score e.member).score? x.member = none := by
      intro x hx
      rw [score?_set_none]
      exact ⟨hb.2 x hx, fun hxe => hn.1 (hxe ▸ List.mem_map_of_mem hx)⟩
    rw [length_fresh_cons, if_pos hb.1, ih hn.2 hrest, List.length_cons, Nat.add_comm]

end Board

namespace SortedSet

/-- The entries are gone from the set, and no others. -/
structure Leaves (s s' : SortedSet) (taken : List Entry) : Prop where
  kept : ∀ m, m ∉ taken.map (·.member) → s'.score? m = s.score? m ∧ s'.contains m = s.contains m
  gone : ∀ m ∈ taken.map (·.member), s'.score? m = none ∧ s'.contains m = false ∧
    s'.rank m = .ok none ∧ s'.revRank m = .ok none
  again : ∀ m ∈ taken.map (·.member), ∀ x, x.isNaN = false →
    ∃ t, s'.insert x m = .ok (t, true) ∧ t.score? m = some x
  restored : ∃ t, s'.add taken = (t, .ok taken.length) ∧ t.toList = s.toList

namespace Tracks

variable {s s' : SortedSet} {b : Board}

theorem nodup_toList (h : Tracks s b) : s.toList.Nodup :=
  h.members_nodup.of_map

theorem insert_absent (h : Tracks s b) {m : Bytes} (hm : s.score? m = none) {x : Score} (hx : x.isNaN = false) :
    ∃ t, s.insert x m = .ok (t, true) ∧ t.score? m = some x := by
  have hnone : b.score? m = none := h.score?_eq m ▸ hm
  obtain ⟨t, ht, hb⟩ := h.insert_ok hx m
  refine ⟨t, ?_, ?_⟩
  · rw [ht, decide_eq_true hnone]
  · rw [hb.score?_eq, Board.score?_eq_some, Board.rows_set_new hnone]
    exact List.mem_cons_self

theorem add_taken (h : Tracks s b) {taken : List Entry} (hn : taken.Nodup) (ht : taken ⊆ s.toList)
    (h' : Tracks s' (b.keep (· ∉ taken))) :
    ∃ t, s'.add taken = (t, .ok taken.length) ∧ t.toList = s.toList := by
  have hnumber : ∀ e ∈ taken, e.score.isNaN = false := fun e he => h.number_of_mem (ht he)
  have honce : (taken.map (·.member)).Nodup :=
    hn.map_on fun e he e' he' => List.inj_on_of_nodup_map h.members_nodup (ht he) (ht he')
  have hnew : ∀ e ∈ taken, (b.keep (· ∉ taken)).score? e.member = none := by
    intro e he
    rw [← h'.score?_eq, h.score?_keep ht h', if_pos (List.mem_map_of_mem he)]
  obtain ⟨t, hadd, hb⟩ := h'.add_ok taken hnumber
  -- Both lists are ascending, so that they have the same entries is enough.
  refine ⟨t, by rw [hadd, Board.length_fresh_new honce hnew], eq_of_ascending ?_ hb.ascending h.ascending⟩
  rw [h.toList_eq] at ht
  rw [hb.toList_eq, h.toList_eq]
  exact ((List.mergeSort_perm _ Entry.le).trans (rows_foldl_set honce hnew)).trans
    ((Board.perm_taken hn ht).trans (List.mergeSort_perm b.rows Entry.le).symm)

theorem leaves (h : Tracks s b) {taken : List Entry} (hn : taken.Nodup) (ht : taken ⊆ s.toList)
    (h' : Tracks s' (b.keep (· ∉ taken))) : Leaves s s' taken := by
  have hscore := h.score?_keep ht h'
  have hgone : ∀ m ∈ taken.map (·.member), s'.score? m = none := fun m hm => by rw [hscore, if_pos hm]
  constructor
  · intro m hm
    have hkept : s'.score? m = s.score? m := by rw [hscore, if_neg hm]
    exact ⟨hkept, by rw [h'.contains_iff, h.contains_iff, hkept]⟩
  · intro m hm
    have hindex : (s'.toList.map (·.member)).idxOf? m = none :=
      List.idxOf?_eq_none_iff.mpr (h'.not_mem_toList (hgone m hm))
    refine ⟨hgone m hm, ?_, ?_, ?_⟩
    · rw [h'.contains_iff, hgone m hm]
      rfl
    · rw [h'.rank_ok, hindex]
    · rw [h'.revRank_ok, hindex]
      rfl
  · exact fun m hm x hx => h'.insert_absent (hgone m hm) hx
  · exact h.add_taken hn ht h'

theorem popMin_splits (h : Tracks s b) (n : Nat) :
    ∃ s', s.popMin n = .ok (s', s.toList.take n) ∧ s'.toList = s.toList.drop n ∧ Leaves s s' (s.toList.take n) := by
  obtain ⟨s', hs', h'⟩ := h.popMin_ok n
  rw [← h.toList_eq] at hs' h'
  have hsplit := List.take_append_drop n s.toList
  have hrest := filter_notMem_left (hsplit.symm ▸ h.nodup_toList)
  rw [hsplit, ← h.toList_keep h'] at hrest
  have htaken := List.take_sublist n s.toList
  exact ⟨s', hs', hrest, h.leaves (h.nodup_toList.sublist htaken) htaken.subset h'⟩

theorem popMax_splits (h : Tracks s b) (n : Nat) :
    ∃ s', s.popMax n = .ok (s', s.toList.reverse.take n) ∧ s'.toList = s.toList.take (s.toList.length - n) ∧
      Leaves s s' (s.toList.reverse.take n) := by
  obtain ⟨s', hs', h'⟩ := h.popMax_ok n
  rw [← h.toList_eq, ← h.length_toList] at hs' h'
  have hsplit := List.take_append_drop (s.toList.length - n) s.toList
  have hrest := filter_notMem_right (hsplit.symm ▸ h.nodup_toList)
  rw [hsplit, ← h.toList_keep h'] at hrest
  have htop : s.toList.reverse.take n = (s.toList.drop (s.toList.length - n)).reverse := List.take_reverse
  have htaken := List.drop_sublist (s.toList.length - n) s.toList
  refine ⟨s', htop ▸ hs', hrest, h.leaves ?_ ?_ ?_⟩
  · rw [htop, List.nodup_reverse]
    exact h.nodup_toList.sublist htaken
  · rw [htop]
    exact fun e he => htaken.subset (List.mem_reverse.mp he)
  · simpa only [htop, List.mem_reverse] using h'

theorem removeScoreRange_splits (h : Tracks s b) (r : ScoreRange) :
    ∃ s', s.removeScoreRange r = .ok (s', (s.toList.filter (r.contains ·.score)).length) ∧
      s'.toList = s.toList.filter (!r.contains ·.score) ∧
      Leaves s s' (s.toList.filter (r.contains ·.score)) := by
  obtain ⟨s', hs', h'⟩ := h.removeScoreRange_ok r
  rw [← h.toList_eq] at hs'
  have htaken := List.filter_sublist (p := (r.contains ·.score)) (l := s.toList)
  have hkeep : b.keep (!r.contains ·.score) = b.keep (· ∉ s.toList.filter (r.contains ·.score)) := by
    refine keep_congr fun e he => ?_
    have hlist : e ∈ s.toList := h.toList_eq ▸ Board.mem_sorted.mpr he
    simp [hlist]
  exact ⟨s', hs', h.toList_keep h', h.leaves (h.nodup_toList.sublist htaken) htaken.subset (hkeep ▸ h')⟩

end Tracks

/-- Whatever sets have gone through, both ends and every range of scores split the list: what is answered is one
side, and the set lists the other. In machine words nothing is given up. -/
theorem calls_splits (maxLevel : Nat) (towers : Towers) (cs : List Call) (h : Board.PermitsAll [.empty] cs) :
    ∃ sets, calls [.empty maxLevel towers] cs = .ok (sets, (Board.calls [.empty] cs).2) ∧
      ∀ s ∈ sets,
        (∀ n, ∃ s', s.popMin n = .ok (s', s.toList.take n) ∧ s'.toList = s.toList.drop n ∧
          Leaves s s' (s.toList.take n)) ∧
        (∀ n, ∃ s', s.popMax n = .ok (s', s.toList.reverse.take n) ∧
          s'.toList = s.toList.take (s.toList.length - n) ∧ Leaves s s' (s.toList.reverse.take n)) ∧
        (∀ r : ScoreRange, ∃ s', s.removeScoreRange r = .ok (s', (s.toList.filter (r.contains ·.score)).length) ∧
          s'.toList = s.toList.filter (!r.contains ·.score) ∧
          Leaves s s' (s.toList.filter (r.contains ·.score))) ∧
        (s.count ≤ wordMax → (∀ n, s.popMinInWords n = liftM (s.popMin n)) ∧
          (∀ n, s.popMaxInWords n = liftM (s.popMax n)) ∧
          ∀ r, s.removeScoreRangeInWords r = liftM (s.removeScoreRange r)) := by
  obtain ⟨sets, hsets, ht⟩ := calls_ok cs (.cons (.empty maxLevel towers) .nil) h
  refine ⟨sets, hsets, ?_⟩
  intro s hs
  obtain ⟨b, hb⟩ := exists_of_forall₂ ht hs
  obtain ⟨ids, hwf⟩ := hb.order
  refine ⟨hb.popMin_splits, hb.popMax_splits, hb.removeScoreRange_splits, fun hw => ?_⟩
  exact ⟨popMinInWords_eq hwf hw, popMaxInWords_eq hwf hw, removeScoreRangeInWords_eq hwf hw⟩

/-- More than there are, one off the high end, and one from the middle that comes back with another score. -/
theorem calls_splits_three : ∃ s,
    calls [.empty 16 (Towers.seeded 7)] threeAdded = .ok ([s], [some (.count 3)]) ∧
      (∃ s', s.popMin 9 = .ok (s', [⟨.negInf, [99]⟩, ⟨.zero, [98]⟩, ⟨.one, [97]⟩]) ∧ s'.toList = []) ∧
      (∃ s', s.popMax 1 = .ok (s', [⟨.one, [97]⟩]) ∧ s'.toList = [⟨.negInf, [99]⟩, ⟨.zero, [98]⟩] ∧
        s'.rank [97] = .ok none) ∧
      (∃ s', s.removeScoreRange ⟨.inclusive .zero, .exclusive .one⟩ = .ok (s', 1) ∧
        s'.toList = [⟨.negInf, [99]⟩, ⟨.one, [97]⟩] ∧
        ∃ t, s'.insert .posInf [98] = .ok (t, true) ∧ t.score? [98] = some .posInf) ∧
      s.popMinInWords wordMax = liftM (s.popMin wordMax) := by
  obtain ⟨s, hs, hlist, hcount⟩ := calls_threeAdded
  obtain ⟨sets, hsets, hsplits⟩ := calls_splits 16 (Towers.seeded 7) threeAdded permitsAll_threeAdded
  cases hs.symm.trans hsets
  obtain ⟨hmin, hmax, hscores, hwords⟩ := hsplits s (List.mem_singleton_self s)
  obtain ⟨low, hlow, hlowRest, -⟩ := hmin 9
  obtain ⟨high, hhigh, hhighRest, hhighLeaves⟩ := hmax 1
  obtain ⟨mid, hmid, hmidRest, hmidLeaves⟩ := hscores ⟨.inclusive .zero, .exclusive .one⟩
  simp only [hlist] at hlow hlowRest hhigh hhighRest hhighLeaves hmid hmidRest hmidLeaves
  refine ⟨s, hs, ⟨low, hlow, hlowRest⟩, ⟨high, hhigh, hhighRest, ?_⟩, ⟨mid, ?_, ?_, ?_⟩, ?_⟩
  · exact (hhighLeaves.gone [97] (by decide +kernel)).2.2.1
  · exact hmid.trans (congrArg (fun k => Except.ok (mid, k)) (by decide +kernel))
  · exact hmidRest.trans (by decide +kernel)
  · exact hmidLeaves.again [98] (by decide +kernel) .posInf (by decide +kernel)
  · exact (hwords (hcount ▸ by decide)).1 wordMax

end SortedSet

end KeyEngine
