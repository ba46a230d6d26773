import KeyEngine.Proofs.SkipList.Words
import KeyEngine.Proofs.SortedSet.Answers

/-!
# Ranges of a sorted set in machine words

Windows, ranges and limits are worked out in words, as a machine does: an index is a signed word, a rank an
unsigned one, and the sums that may leave the words stay at the greatest one. As long as the number of
members is a word, nothing is given up, and the answers are those of unbounded numbers.
-/

namespace KeyEngine

namespace Words

/-- The sum, or the greatest word if it is beyond that. -/
def addUpTo (a b : Nat) : Nat :=
  min (a + b) wordMax

def Signed (n : Int) : Prop :=
  -0x8000000000000000 ≤ n ∧ n < 0x8000000000000000

instance (n : Int) : Decidable (Signed n) :=
  inferInstanceAs (Decidable (_ ∧ _))

def signed (n : Int) : Words Int :=
  if Signed n then return n else failure

theorem signed_bind {α : Type} {n : Int} (h : Signed n) (f : Int → Words α) : signed n >>= f = f n := by
  rw [signed, if_pos h, pure_bind]

end Words

namespace SortedSet

open SkipList

/-! ## Windows -/

def startInWords (start len : Int) : Words Int :=
  if start < 0 then do
    let sum ← Words.signed (start + len)
    return max sum 0
  else return start

def stopInWords (stop len : Int) : Words Int :=
  if stop < 0 then Words.signed (stop + len)
  else do
    let last ← Words.signed (len - 1)
    return min stop last

def windowInWords (start stop : Int) (count : Nat) : Words (Option (Nat × Nat)) := do
  let len ← Words.signed count
  if len = 0 then return none
  else
    let start ← startInWords start len
    let stop ← stopInWords stop len
    return if stop < start ∨ len ≤ start then none else some (start.toNat, stop.toNat)

def rangeInWords (s : SortedSet) (start stop : Int) : Words (List Entry) := do
  match ← windowInWords start stop s.count with
  | none => return []
  | some (start, stop) =>
    let left ← Words.add start 1
    let right ← Words.add stop 1
    return s.entries (← s.list.rankRangeInWords left right)

def revRangeInWords (s : SortedSet) (start stop : Int) : Words (List Entry) := do
  match ← windowInWords start stop s.count with
  | none => return []
  | some (start, stop) =>
    let left ← Words.sub s.count stop
    let right ← Words.sub s.count start
    return (s.entries (← s.list.rankRangeInWords left right)).reverse

def popRunInWords (s : SortedSet) (ids : List Nat) : Words (SortedSet × List Entry) := do
  let (list, removed) ← s.list.removeRunInWords ids
  let popped := removed.filterMap id
  return ({ table := popped.foldl (·.erase ·.member) s.table, list := list }, popped)

def removeRangeInWords (s : SortedSet) (start stop : Int) : Words (SortedSet × Nat) := do
  match ← windowInWords start stop s.count with
  | none => return (s, 0)
  | some (start, stop) =>
    let left ← Words.add start 1
    let right ← Words.add stop 1
    let (s, popped) ← s.popRunInWords (← s.list.rankRangeInWords left right)
    return (s, popped.length)

/-! ## Ends and scores -/

def popMinInWords (s : SortedSet) (n : Nat) : Words (SortedSet × List Entry) := do
  s.popRunInWords (← s.list.rankRangeInWords 1 n)

def popMaxInWords (s : SortedSet) (n : Nat) : Words (SortedSet × List Entry) :=
  if n = 0 ∨ s.count = 0 then return (s, [])
  else do
    let left ← Words.add (s.count - n) 1
    let (s, popped) ← s.popRunInWords (← s.list.rankRangeInWords left s.count)
    return (s, popped.reverse)

/-- To find the scores counts nothing. -/
def removeScoreRangeInWords (s : SortedSet) (r : ScoreRange) : Words (SortedSet × Nat) := do
  let (s, popped) ← s.popRunInWords (← (liftM (s.list.scoreRange r) : Words (List Nat)))
  return (s, popped.length)

/-! ## Limits -/

def scoreRangeLimitInWords (s : SortedSet) (r : ScoreRange) (limit : Limit) : Words (List Entry) := do
  match ← s.list.rankBoundsInWords r with
  | none => return []
  | some (first, last) =>
    let start := Words.addUpTo first limit.offset
    match limit.count with
    | some 0 => return []
    | some n =>
      let more ← Words.sub n 1
      return s.entries (← s.list.rankRangeInWords start (min last (Words.addUpTo start more)))
    | none => return s.entries (← s.list.rankRangeInWords start last)

def revScoreRangeLimitInWords (s : SortedSet) (r : ScoreRange) (limit : Limit) : Words (List Entry) := do
  match ← s.list.rankBoundsInWords r with
  | none => return []
  | some (first, last) =>
    let behind ← Words.sub last first
    if behind < limit.offset then return []
    else
      let stop ← Words.sub last limit.offset
      match limit.count with
      | some 0 => return []
      | some n =>
        let next ← Words.add stop 1
        return (s.entries (← s.list.rankRangeInWords (max first (next - n)) stop)).reverse
      | none => return (s.entries (← s.list.rankRangeInWords first stop)).reverse

def countInRangeInWords (s : SortedSet) (r : ScoreRange) : Words Nat := do
  match ← s.list.rankBoundsInWords r with
  | none => return 0
  | some (first, last) =>
    let next ← Words.add last 1
    Words.sub next first

/-! ## Nothing is given up -/

section
variable {start stop : Int} {len : Nat}

theorem startInWords_eq (hstart : Words.Signed start) (hlen : Words.Signed len) :
    startInWords start len = pure (if start < 0 then max (start + len) 0 else start) := by
  unfold startInWords
  unfold Words.Signed at hstart hlen
  split
  · rw [Words.signed_bind ⟨by omega, by omega⟩]
  · rfl

theorem stopInWords_eq (hstop : Words.Signed stop) (hlen : Words.Signed len) :
    stopInWords stop len = pure (if stop < 0 then stop + len else min stop (len - 1)) := by
  unfold stopInWords
  unfold Words.Signed at hstop hlen
  split
  · rw [Words.signed, if_pos ⟨by omega, by omega⟩]
  · rw [Words.signed_bind ⟨by omega, by omega⟩]

theorem windowInWords_eq (hstart : Words.Signed start) (hstop : Words.Signed stop) (hlen : Words.Signed len) :
    windowInWords start stop len = pure (window start stop len) := by
  unfold windowInWords window
  rw [Words.signed_bind hlen]
  by_cases hzero : len = 0
  · simp [hzero]
  · rw [if_neg (by omega), if_neg hzero, startInWords_eq hstart hlen, stopInWords_eq hstop hlen, pure_bind,
      pure_bind]

end

theorem count_le_of_signed {s : SortedSet} (h : Words.Signed s.count) : s.count ≤ wordMax := by
  have := h.2
  unfold wordMax
  omega

/-- A start that stays at the greatest word is past the end, as the start without a limit would be. -/
theorem rankRange_addUpTo {s : SortedSet} (hcount : s.count < wordMax) {first last : Nat} (offset : Nat)
    (hlast : last ≤ s.count) :
    s.list.rankRange (Words.addUpTo first offset) last = s.list.rankRange (first + offset) last := by
  by_cases hsum : first + offset ≤ wordMax
  · rw [Words.addUpTo, Nat.min_eq_left hsum]
  · have hempty : ∀ left, wordMax ≤ left → s.list.rankRange left last = .ok [] := fun left hleft =>
      if_pos (by omega)
    rw [Words.addUpTo, Nat.min_eq_right (by omega), hempty _ le_rfl, hempty _ (by omega)]

section
variable {s : SortedSet} {ids : List Nat} (h : WellFormed s.list ids)
include h

theorem popRunInWords_eq {xs run ys : List Nat} (hids : ids = xs ++ run ++ ys) (hw : s.count ≤ wordMax) :
    s.popRunInWords run = liftM (s.popRun run) := by
  subst hids
  unfold popRunInWords popRun
  rw [h.removeRunInWords_eq hw]
  exact Words.bind_congr fun _ _ => rfl

/-- A removal goes along one path, which needs the run to be a stretch of the list. -/
theorem popRun_bind {α : Type} {ranks : Except Fault (List Nat)} {f : SortedSet × List Entry → α}
    (hranks : ∀ run, ranks = .ok run → ∃ xs ys, ids = xs ++ run ++ ys) (hw : s.count ≤ wordMax) :
    (liftM ranks >>= fun run => s.popRunInWords run >>= fun r => pure (f r) : Words α) =
      liftM (ranks >>= fun run => s.popRun run >>= fun r => pure (f r)) := by
  apply Words.bind_congr
  intro run hrun
  obtain ⟨xs, ys, hids⟩ := hranks run hrun
  rw [popRunInWords_eq h hids hw]
  exact Words.bind_congr fun _ _ => rfl

theorem stretch_of_rankRange {left right : Nat} {run : List Nat} (hrun : s.list.rankRange left right = .ok run) :
    ∃ xs ys, ids = xs ++ run ++ ys := by
  rw [h.rankRange_eq] at hrun
  cases hrun
  split
  · exact ⟨[], ids, rfl⟩
  · exact ⟨(ids.take right).take (left - 1), ids.drop right, by simp⟩

section
variable (hw : s.count ≤ wordMax)
include hw

theorem popMinInWords_eq (n : Nat) : s.popMinInWords n = liftM (s.popMin n) := by
  unfold popMinInWords popMin
  rw [h.rankRangeInWords_eq hw]
  simpa using popRun_bind h (f := id) (fun _ => stretch_of_rankRange h) hw

theorem popMaxInWords_eq (n : Nat) : s.popMaxInWords n = liftM (s.popMax n) := by
  unfold popMaxInWords popMax
  split
  · rfl
  · rw [Words.add_bind (by omega), h.rankRangeInWords_eq hw]
    exact popRun_bind h (fun _ => stretch_of_rankRange h) hw

theorem removeScoreRangeInWords_eq (r : ScoreRange) :
    s.removeScoreRangeInWords r = liftM (s.removeScoreRange r) := by
  unfold removeScoreRangeInWords removeScoreRange
  obtain ⟨xs, run, ys, hids, hscores, -⟩ := h.scoreRange_ok r
  refine popRun_bind h (fun run' hrun => ⟨xs, ys, ?_⟩) hw
  rw [hscores] at hrun
  cases hrun
  exact hids

end

section
variable {start stop : Int} (hstart : Words.Signed start) (hstop : Words.Signed stop)
  (hcount : Words.Signed s.count)
include hstart hstop hcount

theorem rangeInWords_eq : s.rangeInWords start stop = liftM (s.range start stop) := by
  have hw := count_le_of_signed hcount
  unfold rangeInWords range
  rw [windowInWords_eq hstart hstop hcount, pure_bind]
  cases hwindow : window start stop s.count with
  | none => rfl
  | some w =>
    obtain ⟨hle, hlt⟩ := window_bounds hwindow
    simp only
    rw [Words.add_bind (by omega), Words.add_bind (by omega), h.rankRangeInWords_eq hw]
    exact Words.bind_congr fun _ _ => rfl

theorem revRangeInWords_eq : s.revRangeInWords start stop = liftM (s.revRange start stop) := by
  have hw := count_le_of_signed hcount
  unfold revRangeInWords revRange
  rw [windowInWords_eq hstart hstop hcount, pure_bind]
  cases hwindow : window start stop s.count with
  | none => rfl
  | some w =>
    obtain ⟨hle, hlt⟩ := window_bounds hwindow
    simp only
    rw [Words.sub_bind (by omega), Words.sub_bind (by omega), h.rankRangeInWords_eq hw]
    exact Words.bind_congr fun _ _ => rfl

theorem removeRangeInWords_eq : s.removeRangeInWords start stop = liftM (s.removeRange start stop) := by
  have hw := count_le_of_signed hcount
  unfold removeRangeInWords removeRange
  rw [windowInWords_eq hstart hstop hcount, pure_bind]
  cases hwindow : window start stop s.count with
  | none => rfl
  | some w =>
    obtain ⟨hle, hlt⟩ := window_bounds hwindow
    simp only
    rw [Words.add_bind (by omega), Words.add_bind (by omega), h.rankRangeInWords_eq hw]
    exact popRun_bind h (fun _ => stretch_of_rankRange h) hw

end

theorem rankBounds_bounds {r : ScoreRange} {first last : Nat}
    (hb : s.list.rankBounds r = .ok (some (first, last))) : 1 ≤ first ∧ first ≤ last ∧ last ≤ s.count := by
  obtain ⟨xs, run, ys, rfl, hbounds, -⟩ := h.rankBounds_ok r
  have hlen := h.len
  rw [hbounds] at hb
  split at hb
  · cases hb
  · rename_i hrun
    have hpos := List.length_pos_iff.mpr hrun
    cases hb
    simp only [List.length_append] at hlen
    unfold count
    omega

section
variable (hcount : s.count < wordMax)
include hcount

/-- What is done with the bounds of a range need only be compared for bounds that lie in the list. -/
theorem bounds_bind {α : Type} {r : ScoreRange} {f : Option (Nat × Nat) → Words α}
    {g : Option (Nat × Nat) → Except Fault α} (hnone : f none = liftM (g none))
    (hsome : ∀ first last, 1 ≤ first → first ≤ last → last ≤ s.count →
      f (some (first, last)) = liftM (g (some (first, last)))) :
    s.list.rankBoundsInWords r >>= f = liftM (s.list.rankBounds r >>= g) := by
  rw [h.rankBoundsInWords_eq hcount]
  apply Words.bind_congr
  intro bounds hb
  cases bounds with
  | none => exact hnone
  | some w =>
    obtain ⟨hfirst, hle, hlast⟩ := rankBounds_bounds h hb
    exact hsome w.1 w.2 hfirst hle hlast

theorem scoreRangeLimitInWords_eq (r : ScoreRange) (limit : Limit) :
    s.scoreRangeLimitInWords r limit = liftM (s.scoreRangeLimit r limit) := by
  unfold scoreRangeLimitInWords scoreRangeLimit
  refine bounds_bind h hcount rfl ?_
  intro first last hfirst hle hlast
  have hrange := h.rankRangeInWords_eq (Nat.le_of_lt hcount)
  rw [Option.bind_some]
  unfold Limit.low
  rcases limit with ⟨offset, _ | _ | n⟩
  · simp only
    rw [hrange, rankRange_addUpTo hcount offset hlast]
    exact Words.bind_congr fun _ _ => rfl
  · rfl
  · have hstop : min last (Words.addUpTo (Words.addUpTo first offset) (n + 1 - 1)) =
        min last (first + offset + (n + 1 - 1)) := by
      unfold Words.addUpTo
      omega
    simp only
    rw [Words.sub_bind (by omega), hrange, hstop,
      rankRange_addUpTo hcount offset (Nat.le_trans (Nat.min_le_left _ _) hlast)]
    exact Words.bind_congr fun _ _ => rfl

theorem revScoreRangeLimitInWords_eq (r : ScoreRange) (limit : Limit) :
    s.revScoreRangeLimitInWords r limit = liftM (s.revScoreRangeLimit r limit) := by
  unfold revScoreRangeLimitInWords revScoreRangeLimit
  refine bounds_bind h hcount rfl ?_
  intro first last hfirst hle hlast
  have hrange := h.rankRangeInWords_eq (Nat.le_of_lt hcount)
  rw [Option.bind_some]
  unfold Limit.high
  simp only
  rw [Words.sub_bind (by omega)]
  split
  · rfl
  · rw [Words.sub_bind (by omega)]
    rcases limit with ⟨offset, _ | _ | n⟩
    · simp only [hrange]
      exact Words.bind_congr fun _ _ => rfl
    · rfl
    · simp only
      rw [Words.add_bind (by omega), hrange]
      exact Words.bind_congr fun _ _ => rfl

theorem countInRangeInWords_eq (r : ScoreRange) : s.countInRangeInWords r = liftM (s.countInRange r) := by
  unfold countInRangeInWords countInRange
  refine bounds_bind h hcount rfl ?_
  intro first last hfirst hle hlast
  simp only
  rw [Words.add_bind (by omega), Words.sub, if_pos (by omega)]
  rfl

end

end

end SortedSet

end KeyEngine
