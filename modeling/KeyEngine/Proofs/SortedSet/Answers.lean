import KeyEngine.Proofs.SortedSet.Histories

/-!
# Ranges on a board

A range of ranks or of scores is read off the sorted rows of the board: a window of them, or those in the
range of scores without what the limit leaves out. A removal answers all that it takes off the board.
-/

namespace KeyEngine

namespace SortedSet.Limit

variable {α : Type}

/-- What the limit leaves of a list that is told from its start. -/
def cut (limit : Limit) (xs : List α) : List α :=
  match limit.count with
  | none => xs.drop limit.offset
  | some n => (xs.drop limit.offset).take n

/-- What a window of the joined lists has of the run in the middle. -/
theorem take_drop_middle {xs run ys : List α} {stop start i k : Nat} (hstop : stop = xs.length + i)
    (hstart : start = xs.length + k) (hi : i ≤ run.length) :
    ((xs ++ run ++ ys).take stop).drop start = (run.take i).drop k := by
  rw [hstop, hstart, List.append_assoc, List.take_length_add_append, List.drop_length_add_append,
    List.take_append_of_le_length hi]

/-- Of the run between two lists, the limit leaves the ranks that it computes at the low end. -/
theorem cut_low (limit : Limit) (xs run ys : List α) (hrun : run ≠ []) :
    limit.cut run =
      match limit.low (xs.length + 1) (xs.length + run.length) with
      | none => []
      | some (start, stop) => ((xs ++ run ++ ys).take stop).drop (start - 1) := by
  have hpos := List.length_pos_iff.mpr hrun
  obtain ⟨offset, count⟩ := limit
  rcases count with _ | _ | n
  · show run.drop offset =
      ((xs ++ run ++ ys).take (xs.length + run.length)).drop (xs.length + 1 + offset - 1)
    rw [take_drop_middle rfl (k := offset) (by omega) le_rfl, List.take_length]
  · rfl
  · show (run.drop offset).take (n + 1) = ((xs ++ run ++ ys).take
      (min (xs.length + run.length) (xs.length + 1 + offset + n))).drop (xs.length + 1 + offset - 1)
    rw [take_drop_middle (i := min run.length (offset + n + 1)) (k := offset) (by omega) (by omega)
      (Nat.min_le_left _ _), List.drop_take]
    apply List.take_eq_take_iff.mpr
    rw [List.length_drop]
    omega

theorem cut_high (limit : Limit) (xs run ys : List α) (hrun : run ≠ []) :
    limit.cut run.reverse =
      match limit.high (xs.length + 1) (xs.length + run.length) with
      | none => []
      | some (start, stop) => (((xs ++ run ++ ys).take stop).drop (start - 1)).reverse := by
  have hpos := List.length_pos_iff.mpr hrun
  obtain ⟨offset, count⟩ := limit
  have hspan : xs.length + run.length - (xs.length + 1) = run.length - 1 := by omega
  by_cases hoff : run.length - 1 < offset
  · have hnone : high ⟨offset, count⟩ (xs.length + 1) (xs.length + run.length) = none :=
      if_pos (hspan ▸ hoff)
    have hdrop : run.reverse.drop offset = [] := List.drop_eq_nil_of_le (by grind)
    rw [hnone]
    unfold cut
    cases count <;> simp [hdrop]
  have hsome : high ⟨offset, count⟩ (xs.length + 1) (xs.length + run.length) = _ :=
    if_neg (hspan ▸ hoff)
  have hback : (run.take (run.length - offset)).reverse = run.reverse.drop offset := by
    rw [List.reverse_take]
    congr 1
    omega
  have hlen : (run.reverse.drop offset).length = run.length - offset := by simp
  rw [hsome]
  rcases count with _ | _ | n
  · show run.reverse.drop offset =
      (((xs ++ run ++ ys).take (xs.length + run.length - offset)).drop (xs.length + 1 - 1)).reverse
    rw [take_drop_middle (i := run.length - offset) (k := 0) (by omega) (by omega) (Nat.sub_le _ _),
      List.drop_zero, hback]
  · rfl
  · show (run.reverse.drop offset).take (n + 1) =
      (((xs ++ run ++ ys).take (xs.length + run.length - offset)).drop
        (max (xs.length + 1) (xs.length + run.length - offset + 1 - (n + 1)) - 1)).reverse
    rw [take_drop_middle (i := run.length - offset) (k := run.length - offset - (n + 1)) (by omega)
      (by omega) (Nat.sub_le _ _), List.reverse_drop, hback, List.length_take]
    apply List.take_eq_take_iff.mpr
    omega

end SortedSet.Limit

namespace Board

/-- The window of the rows that are told from the highest. -/
def revWindow (b : Board) (start stop : Int) : List Entry :=
  match SortedSet.window start stop b.rows.length with
  | none => []
  | some (start, stop) => (b.sorted.reverse.take (stop + 1)).drop start

def within (b : Board) (r : ScoreRange) : List Entry :=
  b.sorted.filter (r.contains ·.score)

theorem length_sorted (b : Board) : b.sorted.length = b.rows.length :=
  (List.mergeSort_perm b.rows Entry.le).length_eq

theorem mem_sorted {b : Board} {e : Entry} : e ∈ b.sorted ↔ e ∈ b.rows :=
  (List.mergeSort_perm b.rows Entry.le).mem_iff

theorem length_keep (b : Board) (p : Entry → Bool) :
    (b.rows.filter (!p ·)).length + (b.keep p).rows.length = b.rows.length := by
  rw [b.rows.length_eq_length_filter_add p, Nat.add_comm]
  rfl

theorem perm_taken {b : Board} {taken : List Entry} (hn : taken.Nodup) (h : taken ⊆ b.sorted) :
    (taken ++ (b.keep (· ∉ taken)).rows).Perm b.rows := by
  have hrows : b.rows.Nodup := b.once.of_map _
  have hperm : taken.Perm (b.rows.filter (· ∈ taken)) := by
    rw [List.perm_ext_iff_of_nodup hn (hrows.filter _)]
    intro e
    have hmem : e ∈ taken → e ∈ b.rows := fun he => mem_sorted.mp (h he)
    simpa using hmem
  have hsplit := List.filter_append_perm (· ∈ taken) b.rows
  simp only [← decide_not] at hsplit
  exact (hperm.append_right _).trans hsplit

theorem length_taken {b : Board} {taken : List Entry} (h : taken.Sublist b.sorted) :
    taken.length + (b.keep (· ∉ taken)).rows.length = b.rows.length := by
  have hn : taken.Nodup := ((List.mergeSort_perm b.rows Entry.le).nodup_iff.mpr (b.once.of_map _)).sublist h
  rw [← (perm_taken hn h.subset).length_eq, List.length_append]

end Board

namespace SortedSet

open SkipList

/-- A window lies within the ranks that there are. -/
theorem window_bounds {start stop : Int} {len first last : Nat}
    (h : window start stop len = some (first, last)) : first ≤ last ∧ last < len := by
  unfold window at h
  dsimp only at h
  split_ifs at h <;> cases h <;> omega

namespace Tracks

variable {s : SortedSet} {b : Board}

theorem isEmpty_eq (h : Tracks s b) : s.isEmpty = b.rows.isEmpty := by
  have hcount := h.count_eq
  unfold SortedSet.count at hcount
  unfold SortedSet.isEmpty SkipList.isEmpty
  rw [hcount, Bool.eq_iff_iff, decide_eq_true_eq, List.isEmpty_iff, List.length_eq_zero_iff]

/-! ## Ranks -/

theorem rankRange_ok (h : Tracks s b) {left : Nat} (hleft : left ≠ 0) (right : Nat) :
    ∃ ids, s.list.rankRange left right = .ok ids ∧
      s.entries ids = (b.sorted.take right).drop (left - 1) := by
  obtain ⟨ids, hwf⟩ := h.order
  refine ⟨_, (hwf.rankRange_eq left right).trans (by rw [if_neg hleft]), ?_⟩
  rw [entries_window hwf, entries_eq, h.sorted_eq hwf]

theorem range_ok (h : Tracks s b) (start stop : Int) :
    s.range start stop = .ok (b.window start stop) := by
  unfold SortedSet.range Board.window
  rw [h.count_eq]
  cases SortedSet.window start stop b.rows.length with
  | none => rfl
  | some w =>
    obtain ⟨ids, hids, hentries⟩ := h.rankRange_ok (Nat.succ_ne_zero w.1) (w.2 + 1)
    simp only [hids, ok_bind, hentries]
    rfl

theorem revRange_ok (h : Tracks s b) (start stop : Int) :
    s.revRange start stop = .ok (b.revWindow start stop) := by
  unfold SortedSet.revRange Board.revWindow
  rw [h.count_eq]
  cases hw : SortedSet.window start stop b.rows.length with
  | none => rfl
  | some w =>
    obtain ⟨first, last⟩ := w
    obtain ⟨hle, hlt⟩ := window_bounds hw
    obtain ⟨ids, hids, hentries⟩ :=
      h.rankRange_ok (show b.rows.length - last ≠ 0 by omega) (b.rows.length - first)
    have hlen := b.length_sorted
    have hdrop : b.sorted.length - (b.rows.length - first) = first := by omega
    have htake : min (b.rows.length - first) b.sorted.length - (b.rows.length - last - 1) =
        last + 1 - first := by omega
    simp only [hids, ok_bind, hentries]
    refine congrArg Except.ok ?_
    rw [List.reverse_drop, List.reverse_take, List.length_take, hdrop, htake, List.drop_take]

/-! ## Scores -/

/-- The rows in a range of scores stand together. -/
theorem within_ok (h : Tracks s b) (r : ScoreRange) :
    ∃ below above bounds, b.sorted = below ++ b.within r ++ above ∧
      s.list.rankBounds r = .ok bounds ∧ bounds = if b.within r = [] then none else
        some (below.length + 1, below.length + (b.within r).length) := by
  obtain ⟨ids, hwf⟩ := h.order
  obtain ⟨xs, run, ys, rfl, hbounds, hin⟩ := hwf.rankBounds_ok r
  have hsorted : b.sorted = s.entries xs ++ s.entries run ++ s.entries ys := by
    rw [h.sorted_eq hwf, ← entries_eq]
    simp only [SortedSet.entries, List.filterMap_append]
  have hrun : s.entries run = b.within r := h.entries_run hwf hin
  have hlength : ∀ zs, (∀ id ∈ zs, id ∈ xs ++ run ++ ys) → (s.entries zs).length = zs.length := by
    intro zs hzs
    have hlive : ∀ z ∈ zs, (s.list.entry? z).isSome := fun z hz => (hwf.exact z).mp (hzs z hz)
    rw [entries_eq, List.length_map, ← List.length_map (·.1), map_rows hlive]
  have hxs := hlength xs fun id hid => by simp [hid]
  have hlen := hlength run fun id hid => by simp [hid]
  refine ⟨_, _, _, hrun ▸ hsorted, hbounds, ?_⟩
  rw [hrun] at hlen
  have hnil : b.within r = [] ↔ run = [] := by
    rw [← List.length_eq_zero_iff, hlen, List.length_eq_zero_iff]
  simp only [hxs, hlen, hnil]

theorem scoreRangeLimit_ok (h : Tracks s b) (r : ScoreRange) (limit : Limit) :
    s.scoreRangeLimit r limit = .ok (limit.cut (b.within r)) := by
  obtain ⟨below, above, bounds, hsorted, hbounds, heq⟩ := h.within_ok r
  unfold scoreRangeLimit
  rw [hbounds, ok_bind]
  by_cases hnil : b.within r = []
  · rw [heq, if_pos hnil, hnil]
    unfold Limit.cut
    cases limit.count <;> simp [pure, Except.pure]
  · rw [heq, if_neg hnil, limit.cut_low below (b.within r) above hnil, Option.bind_some]
    dsimp only
    cases hlow : limit.low (below.length + 1) (below.length + (b.within r).length) with
    | none => rfl
    | some w =>
      have hfirst : w.1 ≠ 0 := by
        unfold Limit.low at hlow
        grind
      obtain ⟨ids, hids, hentries⟩ := h.rankRange_ok hfirst w.2
      simp only [hids, ok_bind, hentries, ← hsorted]
      rfl

theorem revScoreRangeLimit_ok (h : Tracks s b) (r : ScoreRange) (limit : Limit) :
    s.revScoreRangeLimit r limit = .ok (limit.cut (b.within r).reverse) := by
  obtain ⟨below, above, bounds, hsorted, hbounds, heq⟩ := h.within_ok r
  unfold revScoreRangeLimit
  rw [hbounds, ok_bind]
  by_cases hnil : b.within r = []
  · rw [heq, if_pos hnil, hnil]
    unfold Limit.cut
    cases limit.count <;> simp [pure, Except.pure]
  · rw [heq, if_neg hnil, limit.cut_high below (b.within r) above hnil, Option.bind_some]
    dsimp only
    cases hhigh : limit.high (below.length + 1) (below.length + (b.within r).length) with
    | none => rfl
    | some w =>
      have hfirst : w.1 ≠ 0 := by
        unfold Limit.high at hhigh
        grind
      obtain ⟨ids, hids, hentries⟩ := h.rankRange_ok hfirst w.2
      simp only [hids, ok_bind, hentries, ← hsorted]
      rfl

theorem countInRange_ok (h : Tracks s b) (r : ScoreRange) :
    s.countInRange r = .ok (b.within r).length := by
  obtain ⟨below, above, bounds, -, hbounds, heq⟩ := h.within_ok r
  unfold countInRange
  rw [hbounds, ok_bind, heq]
  by_cases hnil : b.within r = []
  · rw [if_pos hnil, hnil]
    rfl
  · rw [if_neg hnil]
    refine congrArg Except.ok ?_
    omega

end Tracks

/-! ## Removals -/

/-- The change takes as many members off a board as its answer says. -/
def Takes {α : Type} (f : SortedSet → Except Fault (SortedSet × α)) (size : α → Nat) : Prop :=
  ∀ s b, Tracks s b → ∃ s' a b', f s = .ok (s', a) ∧ Tracks s' b' ∧
    size a + b'.rows.length = b.rows.length

theorem takes_remove (members : List Bytes) : Takes (·.remove members) id := by
  intro s b h
  obtain ⟨s', hs', h'⟩ := h.remove_ok members
  have hlength := b.length_keep (·.member ∉ members)
  simp only [decide_not, Bool.not_not] at hlength
  exact ⟨s', _, _, hs', h', by simpa using hlength⟩

theorem takes_removeRange (start stop : Int) : Takes (·.removeRange start stop) id := by
  intro s b h
  obtain ⟨s', hs', h'⟩ := h.removeRange_ok start stop
  refine ⟨s', _, _, hs', h', Board.length_taken ?_⟩
  unfold Board.window
  split
  · exact List.nil_sublist _
  · exact (List.drop_sublist _ _).trans (List.take_sublist _ _)

theorem takes_removeScoreRange (r : ScoreRange) : Takes (·.removeScoreRange r) id := by
  intro s b h
  obtain ⟨s', hs', h'⟩ := h.removeScoreRange_ok r
  have hlength := b.length_keep (!r.contains ·.score)
  have hperm := (List.mergeSort_perm b.rows Entry.le).filter (r.contains ·.score)
  simp only [Bool.not_not] at hlength
  exact ⟨s', _, _, hs', h', (congrArg (· + _) hperm.length_eq).trans hlength⟩

theorem takes_popMin (n : Nat) : Takes (·.popMin n) List.length := by
  intro s b h
  obtain ⟨s', hs', h'⟩ := h.popMin_ok n
  exact ⟨s', _, _, hs', h', Board.length_taken (List.take_sublist _ _)⟩

theorem takes_popMax (n : Nat) : Takes (·.popMax n) List.length := by
  intro s b h
  obtain ⟨s', hs', h'⟩ := h.popMax_ok n
  refine ⟨s', _, _, hs', h', ?_⟩
  rw [List.length_reverse]
  exact Board.length_taken (List.drop_sublist _ _)

end SortedSet

end KeyEngine
