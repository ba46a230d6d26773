import KeyEngine.Proofs.SkipList.Ranges
import KeyEngine.Proofs.SkipList.Roster

/-!
# Score ranges as filters

A query by a range of scores answers what a plain filter of the ascending roster keeps. The two ends that
it compares first shorten the way to an empty answer and never hide an entry.
-/

namespace KeyEngine

/-- The slots of the entries whose scores lie in the range, ascending. -/
def Roster.within (r : Roster) (range : ScoreRange) : List Nat :=
  (r.sorted.filter (range.contains ·.2.score)).map (·.1)

namespace SkipList

theorem filter_rows (look : Nat → Option Entry) (p : Entry → Bool) (ids : List Nat) :
    ((rows look ids).filter (p ·.2)).map (·.1) = ids.filter fun id => (look id).any p := by
  induction ids with
  | nil => rfl
  | cons id ids ih =>
    cases he : look id with
    | none => simpa [rows, he] using ih
    | some e =>
      rw [rows_cons he, List.filter_cons, List.filter_cons]
      by_cases hp : p e = true
      · simp [he, hp, ih]
      · simp [he, hp, ih]

theorem filter_middle {xs run ys : List Nat} (hn : (xs ++ run ++ ys).Nodup) {p : Nat → Bool}
    (hp : ∀ id ∈ xs ++ run ++ ys, p id = true ↔ id ∈ run) : (xs ++ run ++ ys).filter p = run := by
  rw [List.append_assoc] at hn hp ⊢
  obtain ⟨-, hrest, hxs⟩ := List.nodup_append.mp hn
  obtain ⟨-, -, hys⟩ := List.nodup_append.mp hrest
  have hbefore : xs.filter p = [] := by
    apply List.filter_eq_nil_iff.mpr
    intro id hid hin
    exact hxs id hid id (by simp [(hp id (by simp [hid])).mp hin]) rfl
  have hwithin : run.filter p = run := by
    apply List.filter_eq_self.mpr
    intro id hid
    exact (hp id (by simp [hid])).mpr hid
  have hbehind : ys.filter p = [] := by
    apply List.filter_eq_nil_iff.mpr
    intro id hid hin
    exact hys id ((hp id (by simp [hid])).mp hin) id hid rfl
  simp [hbefore, hwithin, hbehind]

namespace WellFormed

variable {l : SkipList} {xs run ys : List Nat}

theorem filter_ids (h : WellFormed l (xs ++ run ++ ys)) {r : ScoreRange}
    (hrun : ∀ id e, l.entry? id = some e → (id ∈ run ↔ r.contains e.score = true)) :
    (xs ++ run ++ ys).filter (fun id => (l.entry? id).any (r.contains ·.score)) = run := by
  apply filter_middle h.nodup
  intro id hid
  obtain ⟨e, he⟩ := Option.isSome_iff_exists.mp ((h.exact id).mp hid)
  rw [hrun id e he, he, Option.any_some]

theorem filter_run (h : WellFormed l (xs ++ run ++ ys)) {r : ScoreRange}
    (hrun : ∀ id e, l.entry? id = some e → (id ∈ run ↔ r.contains e.score = true)) :
    ((rows l.entry? (xs ++ run ++ ys)).filter (r.contains ·.2.score)).map (·.1) = run := by
  rw [filter_rows l.entry? (r.contains ·.score)]
  exact h.filter_ids hrun

theorem rankOf_middle {l : SkipList} (xs : List Nat) (id : Nat) (ys : List Nat)
    (h : WellFormed l (xs ++ id :: ys)) : l.rankOf id = .ok (some (xs.length + 1)) := by
  have hxs : id ∉ xs := fun hx => h.toLinked.not_mem (List.mem_append_left _ hx)
  rw [h.rankOf_eq, idxOf?_middle hxs]
  rfl

theorem rankOf_head (h : WellFormed l (xs ++ run ++ ys)) {first : Nat} (hf : run.head? = some first) :
    l.rankOf first = .ok (some (xs.length + 1)) := by
  obtain ⟨rest, rfl⟩ := List.head?_eq_some_iff.mp hf
  exact rankOf_middle xs first (rest ++ ys) (by simpa using h)

theorem rankOf_last (h : WellFormed l (xs ++ run ++ ys)) {last : Nat} (hl : run.getLast? = some last) :
    l.rankOf last = .ok (some (xs.length + run.length)) := by
  obtain ⟨front, rfl⟩ := List.getLast?_eq_some_iff.mp hl
  have := rankOf_middle (xs ++ front) last ys (by simpa using h)
  simpa [Nat.add_assoc] using this

end WellFormed

namespace Models

variable {l : SkipList} {r : Roster}

theorem scoreRange_eq (h : Models l r) (range : ScoreRange) :
    l.scoreRange range = .ok (r.within range) := by
  obtain ⟨ids, hwf⟩ := h.order
  obtain ⟨xs, run, ys, rfl, hanswer, hrun⟩ := hwf.scoreRange_ok range
  rw [hanswer, Roster.within, h.sorted hwf, hwf.filter_run hrun]

theorem rankBounds_eq (h : Models l r) (range : ScoreRange) :
    (r.within range = [] → l.rankBounds range = .ok none) ∧
      ∀ first last, (r.within range).head? = some first → (r.within range).getLast? = some last →
        ∃ a b, l.rankOf first = .ok (some a) ∧ l.rankOf last = .ok (some b) ∧
          l.rankBounds range = .ok (some (a, b)) := by
  obtain ⟨ids, hwf⟩ := h.order
  obtain ⟨xs, run, ys, rfl, hanswer, hrun⟩ := hwf.rankBounds_ok range
  have hwithin : r.within range = run := by
    rw [Roster.within, h.sorted hwf, hwf.filter_run hrun]
  rw [hwithin, hanswer]
  constructor
  · intro hempty
    rw [if_pos hempty]
  · intro first last hf hl
    refine ⟨_, _, hwf.rankOf_head hf, hwf.rankOf_last hl, ?_⟩
    have hne : run ≠ [] := by
      intro hempty
      simp [hempty] at hf
    rw [if_neg hne]

theorem overlaps_of_contains (h : Models l r) {range : ScoreRange} {row : Nat × Entry}
    (hrow : row ∈ r.rows) (hin : range.contains row.2.score = true) :
    range.isEmpty = false ∧ l.overlaps range = .ok true := by
  obtain ⟨ids, hwf⟩ := h.order
  constructor
  · by_contra hempty
    rw [Bool.not_eq_false] at hempty
    simp [ScoreRange.not_contains_of_isEmpty hempty] at hin
  · obtain ⟨b, hb, hnone⟩ := hwf.overlaps_ok range
    cases b with
    | true => exact hb
    | false =>
      have := hnone rfl row.1 row.2 ((h.mem row.1 row.2).mp hrow)
      rw [this] at hin
      cases hin

end Models

/-- Whatever the heights, after any permitted edits a query by scores answers the slots that a filter of
the roster keeps, and the bounds are the ranks of the first and the last of them. An entry in the range is
not lost to the tests made first. -/
theorem edits_scoreRange (es : List Edit) (h : Roster.empty.Permits es) (maxLevel : Nat) (towers : Towers)
    (range : ScoreRange) :
    ∃ l replies, (SkipList.empty maxLevel towers).edits es = .ok (l, replies) ∧
      l.scoreRange range = .ok ((Roster.empty.edits es).1.within range) ∧
      ((Roster.empty.edits es).1.within range = [] → l.rankBounds range = .ok none) ∧
      (∀ first last, ((Roster.empty.edits es).1.within range).head? = some first →
        ((Roster.empty.edits es).1.within range).getLast? = some last →
        ∃ a b, l.rankOf first = .ok (some a) ∧ l.rankOf last = .ok (some b) ∧
          l.rankBounds range = .ok (some (a, b))) ∧
      ∀ row ∈ (Roster.empty.edits es).1.rows, range.contains row.2.score = true →
        range.isEmpty = false ∧ l.overlaps range = .ok true := by
  obtain ⟨l, hl, hm⟩ := (Models.empty maxLevel towers).edits_eq es h
  obtain ⟨hnone, hbounds⟩ := hm.rankBounds_eq range
  exact ⟨l, _, hl, hm.scoreRange_eq range, hnone, hbounds, fun row hrow => hm.overlaps_of_contains hrow⟩

/-- Both zeros are in a range that includes one of them, and an infinite score is not below infinity. -/
theorem edits_scoreRange_zeros :
    let es : List Edit := [.insert ⟨.posInf, [97]⟩, .insert ⟨.zero, [98]⟩, .insert ⟨.negInf, [99]⟩,
      .insert ⟨.ofMagnitude true 0, [100]⟩, .insert ⟨.one, [101]⟩, .updateScore 4 .zero]
    let range : ScoreRange := ⟨.inclusive (.ofMagnitude true 0), .exclusive .posInf⟩
    Roster.empty.Permits es ∧ ∃ l replies, (SkipList.empty 16 (Towers.seeded 7)).edits es = .ok (l, replies) ∧
      l.scoreRange range = .ok [1, 3, 4] ∧
      ∃ a b, l.rankOf 1 = .ok (some a) ∧ l.rankOf 4 = .ok (some b) ∧ l.rankBounds range = .ok (some (a, b)) := by
  intro es range
  have hes : Roster.empty.Permits es := by decide +kernel
  obtain ⟨l, replies, hl, hanswer, -, hbounds, -⟩ := edits_scoreRange es hes 16 (Towers.seeded 7) range
  have hrun : ((SkipList.empty 16 (Towers.seeded 7)).edits es).bind (fun done => done.1.scoreRange range) =
      .ok [1, 3, 4] := by
    decide +kernel
  rw [hl] at hrun
  have hwithin : (Roster.empty.edits es).1.within range = [1, 3, 4] := Except.ok.inj (hanswer.symm.trans hrun)
  rw [hwithin] at hanswer hbounds
  exact ⟨hes, l, replies, hl, hanswer, hbounds 1 4 rfl rfl⟩

end SkipList

end KeyEngine
