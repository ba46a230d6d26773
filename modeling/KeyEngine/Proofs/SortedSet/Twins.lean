import KeyEngine.Keyspace.Combine
import KeyEngine.Proofs.SortedSet.Answers

/-!
# Sets on one board

Two sets are twins if they hold the rows of one board, however their lists are built. Adding under flags and
combining sets look at no more than the board, and no score that comes out of them ceases to be a number.
-/

namespace KeyEngine

/-! ## Adding under flags -/

namespace Board

def addOne (flags : AddFlags) (b : Board) (e : Entry) : Board × Tally :=
  match b.score? e.member with
  | none => if flags.onlyOld then (b, ⟨0, 0⟩) else (b.set e.score e.member, ⟨1, 0⟩)
  | some current =>
    if flags.onlyNew || current.same e.score then (b, ⟨0, 0⟩) else (b.set e.score e.member, ⟨0, 1⟩)

def addWith (flags : AddFlags) (b : Board) : List Entry → Board × Tally
  | [] => (b, ⟨0, 0⟩)
  | e :: es =>
    let (b, first) := b.addOne flags e
    let (b, rest) := b.addWith flags es
    (b, ⟨first.added + rest.added, first.updated + rest.updated⟩)

theorem rows_set_ne_nil (b : Board) (score : Score) (member : Bytes) :
    (b.set score member).rows ≠ [] := by
  intro h
  have hn : (b.set score member).score? member = none := by
    rw [score?_eq_none, h]
    simp
  exact (score?_set_none.mp hn).2 rfl

end Board

namespace SortedSet.Tracks

variable {s : SortedSet} {b : Board}

theorem addOne_ok (h : Tracks s b) (flags : AddFlags) {e : Entry} (he : e.score.isNaN = false) :
    ∃ s', s.addOne flags e = .ok (s', (b.addOne flags e).2) ∧ Tracks s' (b.addOne flags e).1 := by
  obtain ⟨s', hs', h'⟩ := h.insert_ok he e.member
  unfold SortedSet.addOne Board.addOne
  rw [h.score?_eq]
  cases b.score? e.member with
  | none =>
    cases flags.onlyOld with
    | true => exact ⟨s, rfl, h⟩
    | false =>
      refine ⟨s', ?_, h'⟩
      simp only [hs', ok_bind]
      rfl
  | some current =>
    cases hkeep : flags.onlyNew || current.same e.score with
    | true =>
      simp only [hkeep]
      exact ⟨s, rfl, h⟩
    | false =>
      simp only [hkeep, hs', ok_bind]
      exact ⟨s', rfl, h'⟩

theorem addWith_ok (h : Tracks s b) (flags : AddFlags) {es : List Entry}
    (hes : ∀ e ∈ es, e.score.isNaN = false) :
    ∃ s', s.addWith flags es = .ok (s', (b.addWith flags es).2) ∧ Tracks s' (b.addWith flags es).1 := by
  induction es generalizing s b with
  | nil => exact ⟨s, rfl, h⟩
  | cons e es ih =>
    rw [List.forall_mem_cons] at hes
    obtain ⟨s₁, hs₁, h₁⟩ := h.addOne_ok flags hes.1
    obtain ⟨s', hs', h'⟩ := ih h₁ hes.2
    refine ⟨s', ?_, h'⟩
    unfold SortedSet.addWith
    rw [hs₁, ok_bind]
    dsimp only
    rw [hs', ok_bind]
    rfl

end SortedSet.Tracks

/-! ## Scores that come out of a combination -/

namespace Score

theorem isNaN_zeroIfNaN (s : Score) : s.zeroIfNaN.isNaN = false := by
  unfold zeroIfNaN
  split
  · decide
  · rename_i h
    simpa using h

theorem isNaN_weighted (s weight : Score) : (s.weighted weight).isNaN = false :=
  isNaN_zeroIfNaN _

theorem isNaN_apply (agg : Aggregate) {a b : Score} (ha : a.isNaN = false) (hb : b.isNaN = false) :
    (agg.apply a b).isNaN = false := by
  cases agg with
  | sum => exact isNaN_zeroIfNaN _
  | min =>
    show (if b.lt a then b else a).isNaN = false
    split <;> assumption
  | max =>
    show (if a.lt b then b else a).isNaN = false
    split <;> assumption

end Score

namespace SortedSet

/-- The totals are numbers. -/
def Numbered (totals : Std.HashMap Bytes Score) : Prop :=
  ∀ (m : Bytes) (x : Score), totals[m]? = some x → x.isNaN = false

theorem Numbered.accumulate {totals : Std.HashMap Bytes Score} (h : Numbered totals) (agg : Aggregate)
    (weight : Score) (s : SortedSet) : Numbered (accumulate agg totals weight s) := by
  intro m x hx
  unfold SortedSet.accumulate at hx
  generalize s.toList = es at hx
  induction es generalizing totals with
  | nil => exact h m x hx
  | cons e es ih =>
    rw [List.foldl_cons] at hx
    refine ih (fun m' x' hx' => ?_) hx
    dsimp only at hx'
    rw [Std.HashMap.getElem?_insert] at hx'
    split at hx'
    · cases ht : totals[e.member]? with
      | none =>
        rw [ht] at hx'
        cases hx'
        exact Score.isNaN_weighted _ _
      | some total =>
        rw [ht] at hx'
        cases hx'
        exact Score.isNaN_apply agg (h _ _ ht) (Score.isNaN_weighted _ _)
    · exact h m' x' hx'

theorem number_unionTotals (agg : Aggregate) (sets : List (SortedSet × Score)) :
    ∀ e ∈ unionTotals agg sets, e.score.isNaN = false := by
  have hempty : Numbered ∅ := fun m x hx => by simp at hx
  intro e he
  obtain ⟨⟨m, x⟩, hmem, rfl⟩ := List.mem_map.mp he
  have hfound := Std.HashMap.mem_toList_iff_getElem?_eq_some.mp hmem
  exact List.foldlRecOn sets _ hempty (fun _ h p _ => h.accumulate agg p.2 p.1) m x hfound

theorem number_totalOver (agg : Aggregate) (member : Bytes) {total x : Score}
    {sets : List (SortedSet × Score)} (ht : total.isNaN = false)
    (hx : totalOver agg member total sets = some x) : x.isNaN = false := by
  induction sets generalizing total with
  | nil =>
    cases hx
    exact ht
  | cons p sets ih =>
    unfold totalOver at hx
    split at hx
    · exact ih (Score.isNaN_apply agg ht (Score.isNaN_weighted _ _)) hx
    · cases hx

theorem number_interTotals (agg : Aggregate) (sets : List (SortedSet × Score)) :
    ∀ e ∈ interTotals agg sets, e.score.isNaN = false := by
  intro e he
  cases sets with
  | nil => cases he
  | cons p sets =>
    obtain ⟨first, -, htotal⟩ := List.mem_filterMap.mp he
    obtain ⟨x, hx, rfl⟩ := Option.map_eq_some_iff.mp htotal
    exact number_totalOver agg _ (Score.isNaN_weighted _ _) hx

/-! ## Twins -/

def Twins (s s' : SortedSet) : Prop :=
  ∃ b, s.Tracks b ∧ s'.Tracks b

namespace Twins

variable {s s' : SortedSet}

theorem toList_eq (h : s.Twins s') : s.toList = s'.toList := by
  obtain ⟨b, hb, hb'⟩ := h
  rw [hb.toList_eq, hb'.toList_eq]

theorem score?_eq (h : s.Twins s') (m : Bytes) : s.score? m = s'.score? m := by
  obtain ⟨b, hb, hb'⟩ := h
  rw [hb.score?_eq, hb'.score?_eq]

theorem contains_eq (h : s.Twins s') (m : Bytes) : s.contains m = s'.contains m := by
  obtain ⟨b, hb, hb'⟩ := h
  rw [hb.contains_eq, hb'.contains_eq]

theorem number (h : s.Twins s') : ∀ e ∈ s.toList, e.score.isNaN = false := by
  obtain ⟨b, hb, -⟩ := h
  exact fun e he => hb.number_of_mem he

theorem without_eq (h : s.Twins s') {others others' : List SortedSet}
    (ho : List.Forall₂ Twins others others') : s.without others = s'.without others' := by
  unfold without
  rw [h.toList_eq]
  congr 1
  funext e
  induction ho with
  | nil => rfl
  | cons hab _ ih => rw [List.all_cons, List.all_cons, ih, hab.contains_eq]

theorem number_without (h : s.Twins s') (others : List SortedSet) :
    ∀ e ∈ s.without others, e.score.isNaN = false :=
  fun e he => h.number e (List.mem_filter.mp he).1

/-- Both are twins, and they have the same weight. -/
def Weighted (p p' : SortedSet × Score) : Prop :=
  p.1.Twins p'.1 ∧ p.2 = p'.2

theorem unionTotals_eq (agg : Aggregate) {sets sets' : List (SortedSet × Score)}
    (h : List.Forall₂ Weighted sets sets') : unionTotals agg sets = unionTotals agg sets' := by
  have hfold : ∀ totals : Std.HashMap Bytes Score,
      sets.foldl (fun totals p => accumulate agg totals p.2 p.1) totals =
        sets'.foldl (fun totals p => accumulate agg totals p.2 p.1) totals := by
    induction h with
    | nil => exact fun _ => rfl
    | @cons p p' _ _ hp _ ih =>
      intro totals
      have hone : accumulate agg totals p.2 p.1 = accumulate agg totals p'.2 p'.1 := by
        unfold accumulate
        rw [hp.1.toList_eq, hp.2]
      rw [List.foldl_cons, List.foldl_cons, hone, ih]
  unfold unionTotals
  rw [hfold]

theorem totalOver_eq (agg : Aggregate) (member : Bytes) (total : Score)
    {sets sets' : List (SortedSet × Score)} (h : List.Forall₂ Weighted sets sets') :
    totalOver agg member total sets = totalOver agg member total sets' := by
  induction h generalizing total with
  | nil => rfl
  | cons hp _ ih =>
    unfold totalOver
    rw [hp.1.score?_eq, hp.2]
    split
    · exact ih _
    · rfl

theorem interTotals_eq (agg : Aggregate) {sets sets' : List (SortedSet × Score)}
    (h : List.Forall₂ Weighted sets sets') : interTotals agg sets = interTotals agg sets' := by
  cases h with
  | nil => rfl
  | @cons p p' _ _ hp h =>
    show p.1.toList.filterMap _ = p'.1.toList.filterMap _
    rw [hp.1.toList_eq, hp.2]
    apply List.filterMap_congr
    intro e _
    rw [totalOver_eq agg _ _ h]

end Twins

end SortedSet

end KeyEngine
