import KeyEngine.Proofs.SkipList.Roster
import KeyEngine.SortedSet.Removal

/-!
# Score boards

A board is a finite map from members to scores, kept as rows in no order. It says what each change of a
sorted set does and answers.
-/

namespace KeyEngine

structure Board where
  rows : List Entry
  once : (rows.map (·.member)).Nodup

theorem Entry.rescored_member (e : Entry) (score : Score) : (e.rescored score).member = e.member := by
  unfold rescored
  split <;> rfl

namespace Board

def empty : Board := ⟨[], List.nodup_nil⟩

def score? (b : Board) (member : Bytes) : Option Score :=
  (b.rows.find? (·.member = member)).map (·.score)

theorem score?_eq_some {b : Board} {member : Bytes} {score : Score} :
    b.score? member = some score ↔ ⟨score, member⟩ ∈ b.rows := by
  unfold score?
  constructor
  · intro h
    obtain ⟨e, he, rfl⟩ := Option.map_eq_some_iff.mp h
    have hm : e.member = member := by simpa using List.find?_some he
    subst hm
    exact List.mem_of_find?_eq_some he
  · intro h
    cases hf : b.rows.find? (·.member = member) with
    | none =>
      rw [List.find?_eq_none] at hf
      exact absurd (decide_eq_true rfl) (hf _ h)
    | some e =>
      have hm : e.member = member := by simpa using List.find?_some hf
      have he := List.inj_on_of_nodup_map b.once (List.mem_of_find?_eq_some hf) h hm
      rw [Option.map_some, he]

theorem score?_eq_none {b : Board} {member : Bytes} :
    b.score? member = none ↔ ∀ e ∈ b.rows, e.member ≠ member := by
  simp [score?]

def keep (b : Board) (p : Entry → Bool) : Board :=
  ⟨b.rows.filter p, b.once.sublist (List.filter_sublist.map _)⟩

theorem length_filter_member {b : Board} {member : Bytes} (h : b.score? member ≠ none) :
    (b.rows.filter (·.member = member)).length = 1 := by
  have hmem : member ∈ b.rows.map (·.member) := by
    rw [List.mem_map]
    by_contra hm
    exact h (score?_eq_none.mpr fun e he hem => hm ⟨e, he, hem⟩)
  have hone := List.count_eq_one_of_mem b.once hmem
  rw [List.count, List.countP_map, List.countP_eq_length_filter] at hone
  rw [← hone]
  congr 2
  funext e
  rw [Bool.eq_iff_iff]
  simp

theorem length_filter_mem_cons {b : Board} {m : Bytes} (h : b.score? m ≠ none) (ms : List Bytes) :
    (b.rows.filter (·.member ∈ m :: ms)).length =
      ((b.keep (·.member ≠ m)).rows.filter (·.member ∈ ms)).length + 1 := by
  have hlen := List.length_eq_length_filter_add (l := b.rows.filter (·.member ∈ m :: ms)) (·.member = m)
  have hthis : (b.rows.filter (·.member ∈ m :: ms)).filter (·.member = m) =
      b.rows.filter (·.member = m) := by
    rw [List.filter_filter]
    exact List.filter_congr fun e _ => by by_cases he : e.member = m <;> simp [he]
  have hothers : (b.rows.filter (·.member ∈ m :: ms)).filter (fun e => !decide (e.member = m)) =
      (b.keep (·.member ≠ m)).rows.filter (·.member ∈ ms) := by
    rw [keep, List.filter_filter, List.filter_filter]
    exact List.filter_congr fun e _ => by by_cases he : e.member = m <;> simp [he]
  rw [hlen, hthis, hothers, length_filter_member h, Nat.add_comm]

/-- Gives a member a score. A score that is the same number leaves the old one as it is. -/
def set (b : Board) (score : Score) (member : Bytes) : Board :=
  if h : b.score? member = none then
    ⟨⟨score, member⟩ :: b.rows, by
      rw [List.map_cons, List.nodup_cons]
      refine ⟨fun hm => ?_, b.once⟩
      obtain ⟨e, he, hem⟩ := List.mem_map.mp hm
      exact score?_eq_none.mp h e he hem⟩
  else
    ⟨b.rows.map fun e => if e.member = member then e.rescored score else e, by
      have hsame : (b.rows.map fun e => if e.member = member then e.rescored score else e).map
          (·.member) = b.rows.map (·.member) := by
        rw [List.map_map]
        refine List.map_congr_left fun e _ => ?_
        simp only [Function.comp]
        split
        · exact e.rescored_member score
        · rfl
      rw [hsame]
      exact b.once⟩

theorem rows_set_new {b : Board} {member : Bytes} (h : b.score? member = none) (score : Score) :
    (b.set score member).rows = ⟨score, member⟩ :: b.rows := by
  rw [set, dif_pos h]

theorem rows_set_old {b : Board} {member : Bytes} (h : b.score? member ≠ none) (score : Score) :
    (b.set score member).rows =
      b.rows.map fun e => if e.member = member then e.rescored score else e := by
  rw [set, dif_neg h]

theorem score?_set_none {b : Board} {score : Score} {member m : Bytes} :
    (b.set score member).score? m = none ↔ b.score? m = none ∧ m ≠ member := by
  by_cases h : b.score? member = none
  · rw [score?_eq_none, rows_set_new h, List.forall_mem_cons, score?_eq_none, and_comm, ne_comm]
  · have hmap : (b.set score member).score? m = none ↔ b.score? m = none := by
      rw [score?_eq_none, rows_set_old h, score?_eq_none, List.forall_mem_map]
      refine forall₂_congr fun e _ => ?_
      split
      · rw [e.rescored_member score]
      · rfl
    rw [hmap]
    exact ⟨fun hm => ⟨hm, fun he => h (he ▸ hm)⟩, fun hm => hm.1⟩

theorem score?_set_other {b : Board} {member m : Bytes} (h : m ≠ member) (score : Score) :
    (b.set score member).score? m = b.score? m := by
  refine Option.ext fun x => ?_
  rw [score?_eq_some, score?_eq_some]
  by_cases hb : b.score? member = none
  · simp [rows_set_new hb, h]
  · rw [rows_set_old hb, List.mem_map]
    constructor
    · rintro ⟨e, he, hex⟩
      split at hex
      · rename_i hem
        have := e.rescored_member score
        rw [hex, hem] at this
        exact absurd this h
      · exact hex ▸ he
    · intro hx
      exact ⟨_, hx, by rw [if_neg h]⟩

theorem score?_set_self {b : Board} {score : Score} (hs : score.isNaN = false) (member : Bytes) :
    ∃ x, (b.set score member).score? member = some x ∧ x.same score = true := by
  cases hb : b.score? member with
  | none =>
    refine ⟨score, score?_eq_some.mpr ?_, Score.same_iff.mpr ⟨hs, hs, rfl⟩⟩
    rw [rows_set_new hb]
    exact List.mem_cons_self
  | some old =>
    have hmem : (⟨old, member⟩ : Entry).rescored score ∈ (b.set score member).rows := by
      rw [rows_set_old (by simp [hb]), List.mem_map]
      exact ⟨_, score?_eq_some.mp hb, if_pos rfl⟩
    unfold Entry.rescored at hmem
    split at hmem
    · exact ⟨old, score?_eq_some.mpr hmem, ‹_›⟩
    · exact ⟨score, score?_eq_some.mpr hmem, Score.same_iff.mpr ⟨hs, hs, rfl⟩⟩

def sorted (b : Board) : List Entry :=
  b.rows.mergeSort Entry.le

end Board

/-! ## Changes -/

inductive SortedSet.Change where
  | insert (score : Score) (member : Bytes)
  | add (entries : List Entry)
  | increase (member : Bytes) (delta : Score)
  | remove (members : List Bytes)
  | removeRange (start stop : Int)
  | removeScoreRange (r : ScoreRange)
  | popMin (n : Nat)
  | popMax (n : Nat)
deriving DecidableEq, Repr

inductive SortedSet.Result where
  | isNew (new : Bool)
  | count (n : Nat)
  | score (score : Score)
  | entries (entries : List Entry)
deriving DecidableEq, Repr

namespace Board

def fresh (b : Board) (entries : List Entry) : List Bytes :=
  ((entries.map (·.member)).filter fun m => b.score? m = none).eraseDups

/-- The first entry counts if its member is new, and then no later one with that member does. -/
theorem length_fresh_cons (b : Board) (e : Entry) (entries : List Entry) :
    (b.fresh (e :: entries)).length =
      (if b.score? e.member = none then 1 else 0) + ((b.set e.score e.member).fresh entries).length := by
  unfold fresh
  rw [List.map_cons]
  by_cases h : b.score? e.member = none
  · rw [List.filter_cons_of_pos (by simpa using h), List.eraseDups_cons, List.length_cons, if_pos h,
      List.filter_filter, Nat.add_comm]
    congr 4
    funext m
    rw [Bool.eq_iff_iff]
    simp [score?_set_none, and_comm]
  · rw [List.filter_cons_of_neg (by simpa using h), if_neg h, Nat.zero_add]
    congr 3
    funext m
    rw [decide_eq_decide, score?_set_none]
    exact ⟨fun hm => ⟨hm, fun he => h (he ▸ hm)⟩, fun hm => hm.1⟩

def window (b : Board) (start stop : Int) : List Entry :=
  match SortedSet.window start stop b.rows.length with
  | none => []
  | some (start, stop) => (b.sorted.take (stop + 1)).drop start

def change (b : Board) : SortedSet.Change → Board × SortedSet.Result
  | .insert score member => (b.set score member, .isNew (b.score? member = none))
  | .add entries => (entries.foldl (fun b e => b.set e.score e.member) b, .count (b.fresh entries).length)
  | .increase member delta =>
    let score := ((b.score? member).getD .zero).add delta
    (b.set score member, .score score)
  | .remove members =>
    (b.keep (·.member ∉ members), .count (b.rows.filter (·.member ∈ members)).length)
  | .removeRange start stop => (b.keep (· ∉ b.window start stop), .count (b.window start stop).length)
  | .removeScoreRange r =>
    (b.keep (!r.contains ·.score), .count (b.sorted.filter (r.contains ·.score)).length)
  | .popMin n => (b.keep (· ∉ b.sorted.take n), .entries (b.sorted.take n))
  | .popMax n =>
    let top := b.sorted.drop (b.rows.length - n)
    (b.keep (· ∉ top), .entries top.reverse)

/-- The scores that the change gives are numbers. -/
def Permits (b : Board) : SortedSet.Change → Prop
  | .insert score _ => score.isNaN = false
  | .add entries => ∀ e ∈ entries, e.score.isNaN = false
  | .increase member delta => (((b.score? member).getD .zero).add delta).isNaN = false
  | _ => True

end Board

end KeyEngine
