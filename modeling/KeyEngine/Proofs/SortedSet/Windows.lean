import KeyEngine.Proofs.SortedSet.Combinations
import KeyEngine.Proofs.SortedSet.Words

/-!
# Windows of ranks as slices

A window of ranks is the slice of the ascending list between two indices, both included, where a negative
index counts from the end. A removal takes that slice out and leaves the rest in its order.
-/

namespace KeyEngine

/-- The index that is meant in a list of the length. -/
def indexIn (len : Nat) (i : Int) : Int :=
  if i < 0 then len + i else i

/-- The elements from one index to another, as far as there are such indices. -/
def slice {α : Type} (xs : List α) (start stop : Int) : List α :=
  let lo := max (indexIn xs.length start) 0
  let hi := min (indexIn xs.length stop) (xs.length - 1)
  if hi < lo then [] else (xs.take (hi.toNat + 1)).drop lo.toNat

theorem slice_subset {α : Type} (xs : List α) (start stop : Int) : slice xs start stop ⊆ xs := by
  unfold slice
  dsimp only
  split
  · exact List.nil_subset xs
  · exact ((List.drop_sublist _ _).trans (List.take_sublist _ _)).subset

namespace SortedSet

/-- The window that is computed is where the slice begins and ends. -/
theorem slice_eq {α : Type} (xs : List α) (start stop : Int) :
    slice xs start stop =
      match window start stop xs.length with
      | none => []
      | some (first, last) => (xs.take (last + 1)).drop first := by
  by_cases hnil : xs = []
  · subst hnil
    simp [slice, window]
  · have hlo : (if start < 0 then max (start + xs.length) 0 else start) = max (indexIn xs.length start) 0 := by
      by_cases hneg : start < 0
      · rw [indexIn, if_pos hneg, if_pos hneg, Int.add_comm]
      · rw [indexIn, if_neg hneg, if_neg hneg]
        omega
    have hhi : (if stop < 0 then stop + xs.length else min stop (xs.length - 1)) =
        min (indexIn xs.length stop) (xs.length - 1) := by
      by_cases hneg : stop < 0
      · rw [indexIn, if_pos hneg, if_pos hneg]
        omega
      · rw [indexIn, if_neg hneg, if_neg hneg]
    unfold slice window
    simp only [hlo, hhi, List.length_eq_zero_iff, hnil, if_false]
    by_cases hempty : min (indexIn xs.length stop) (xs.length - 1) < max (indexIn xs.length start) 0
    · rw [if_pos hempty, if_pos (.inl hempty)]
    · rw [if_neg hempty, if_neg (by omega)]

namespace Tracks

variable {s s' : SortedSet} {b : Board}

theorem toList_keep (h : Tracks s b) {p : Entry → Bool} (h' : Tracks s' (b.keep p)) :
    s'.toList = s.toList.filter p := by
  apply eq_of_ascending _ h'.ascending (h.ascending.filter p)
  rw [h'.toList_eq, h.toList_eq]
  exact (List.mergeSort_perm _ Entry.le).trans ((List.mergeSort_perm b.rows Entry.le).filter p).symm

theorem score?_keep (h : Tracks s b) {taken : List Entry} (ht : taken ⊆ s.toList)
    (h' : Tracks s' (b.keep (· ∉ taken))) (m : Bytes) :
    s'.score? m = if m ∈ taken.map (·.member) then none else s.score? m := by
  apply Option.ext
  intro x
  rw [← h'.mem_toList, h.toList_keep h', List.mem_filter, h.mem_toList, decide_eq_true_eq]
  split
  · rename_i hm
    obtain ⟨e, he, rfl⟩ := List.mem_map.mp hm
    simp only [reduceCtorEq, iff_false, not_and, not_not]
    intro hx
    -- A member has one entry in the list, which is the one that was taken.
    rwa [← List.inj_on_of_nodup_map h.members_nodup (ht he) (h.mem_toList.mpr hx) rfl]
  · rename_i hm
    have hnot : ⟨x, m⟩ ∉ taken := fun hx => hm (List.mem_map_of_mem hx)
    simp [hnot]

theorem length_toList (h : Tracks s b) : s.toList.length = b.rows.length := by
  rw [h.toList_eq, b.length_sorted]

theorem window_eq (h : Tracks s b) (start stop : Int) : b.window start stop = slice s.toList start stop := by
  rw [slice_eq, h.length_toList, h.toList_eq]
  rfl

theorem revWindow_eq (h : Tracks s b) (start stop : Int) :
    b.revWindow start stop = slice s.toList.reverse start stop := by
  rw [slice_eq, List.length_reverse, h.length_toList, h.toList_eq]
  rfl

end Tracks

/-- Whatever sets have gone through, a window of ranks, from either end, is a slice of the list, and its
removal answers its length and leaves the other members with their scores in their order. Worked out in
words, nothing is given up. -/
theorem calls_windows (maxLevel : Nat) (towers : Towers) (cs : List Call) (h : Board.PermitsAll [.empty] cs) :
    ∃ sets, calls [.empty maxLevel towers] cs = .ok (sets, (Board.calls [.empty] cs).2) ∧
      ∀ s ∈ sets, ∀ start stop : Int,
        s.range start stop = .ok (slice s.toList start stop) ∧
        s.revRange start stop = .ok (slice s.toList.reverse start stop) ∧
        (∃ s', s.removeRange start stop = .ok (s', (slice s.toList start stop).length) ∧
          s'.toList = s.toList.filter (· ∉ slice s.toList start stop) ∧
          ∀ m, s'.score? m =
            if m ∈ (slice s.toList start stop).map (·.member) then none else s.score? m) ∧
        (Words.Signed s.count → Words.Signed start → Words.Signed stop →
          s.rangeInWords start stop = liftM (s.range start stop) ∧
          s.revRangeInWords start stop = liftM (s.revRange start stop) ∧
          s.removeRangeInWords start stop = liftM (s.removeRange start stop)) := by
  obtain ⟨sets, hsets, ht⟩ := calls_ok cs (.cons (.empty maxLevel towers) .nil) h
  refine ⟨sets, hsets, ?_⟩
  intro s hs start stop
  obtain ⟨b, hb⟩ := exists_of_forall₂ ht hs
  obtain ⟨ids, hwf⟩ := hb.order
  have hwindow := hb.window_eq start stop
  refine ⟨?_, ?_, ?_, ?_⟩
  · rw [hb.range_ok, hwindow]
  · rw [hb.revRange_ok, hb.revWindow_eq]
  · obtain ⟨s', hs', h'⟩ := hb.removeRange_ok start stop
    rw [hwindow] at hs' h'
    exact ⟨s', hs', hb.toList_keep h', hb.score?_keep (slice_subset _ _ _) h'⟩
  · intro hcount hstart hstop
    exact ⟨rangeInWords_eq hwf hstart hstop hcount, revRangeInWords_eq hwf hstart hstop hcount,
      removeRangeInWords_eq hwf hstart hstop hcount⟩

def threeAdded : List Call :=
  [.on 0 (.add [⟨.one, [97]⟩, ⟨.zero, [98]⟩, ⟨.negInf, [99]⟩])]

theorem permitsAll_threeAdded : Board.PermitsAll [.empty] threeAdded :=
  ⟨fun _ _ => by simp only [Board.Permits]; decide, trivial⟩

/-- The list follows the scores, not the order of adding. -/
theorem calls_threeAdded : ∃ s, calls [.empty 16 (Towers.seeded 7)] threeAdded = .ok ([s], [some (.count 3)]) ∧
    s.toList = [⟨.negInf, [99]⟩, ⟨.zero, [98]⟩, ⟨.one, [97]⟩] ∧ s.count = 3 := by
  obtain ⟨sets, hsets, ht⟩ := calls_ok threeAdded (.cons (.empty 16 (Towers.seeded 7)) .nil) permitsAll_threeAdded
  cases ht with
  | @cons s b _ _ hs htail =>
    cases htail
    refine ⟨s, hsets.trans (congrArg (fun results => Except.ok ([s], results)) (by decide +kernel)), ?_,
      hs.count_eq.trans (by decide +kernel)⟩
    rw [hs.toList_eq]
    apply eq_of_ascending _ (hs.toList_eq ▸ hs.ascending) (by decide +kernel)
    exact (List.mergeSort_perm _ Entry.le).trans (by decide +kernel)

/-- Both ends of the signed words, and a window in the middle. -/
theorem calls_windows_ends : ∃ s,
    calls [.empty 16 (Towers.seeded 7)] threeAdded = .ok ([s], [some (.count 3)]) ∧
      s.range (-2) 0x7FFFFFFFFFFFFFFF = .ok [⟨.zero, [98]⟩, ⟨.one, [97]⟩] ∧
      s.revRange (-0x8000000000000000) 0 = .ok [⟨.one, [97]⟩] ∧
      (∃ s', s.removeRange 1 (-2) = .ok (s', 1) ∧ s'.toList = [⟨.negInf, [99]⟩, ⟨.one, [97]⟩] ∧
        s'.score? [98] = none) ∧
      s.rangeInWords (-2) 0x7FFFFFFFFFFFFFFF = liftM (s.range (-2) 0x7FFFFFFFFFFFFFFF) := by
  obtain ⟨s, hs, hlist, hcount⟩ := calls_threeAdded
  obtain ⟨sets, hsets, hwindows⟩ := calls_windows 16 (Towers.seeded 7) threeAdded permitsAll_threeAdded
  cases hs.symm.trans hsets
  have hmem : s ∈ [s] := List.mem_singleton_self s
  obtain ⟨hup, -, -, hwords⟩ := hwindows s hmem (-2) 0x7FFFFFFFFFFFFFFF
  obtain ⟨-, hdown, -⟩ := hwindows s hmem (-0x8000000000000000) 0
  obtain ⟨-, -, ⟨s', hs', hrest, hscore⟩, -⟩ := hwindows s hmem 1 (-2)
  simp only [hlist] at hup hdown hs' hrest hscore
  refine ⟨s, hs, hup.trans (congrArg _ (by decide +kernel)), hdown.trans (congrArg _ (by decide +kernel)),
    ⟨s', hs', hrest.trans (by decide +kernel), (hscore [98]).trans (if_pos (by decide +kernel))⟩, ?_⟩
  exact (hwords (hcount ▸ by decide) (by decide) (by decide)).1

end SortedSet

end KeyEngine
