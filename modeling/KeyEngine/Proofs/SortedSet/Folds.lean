import KeyEngine.Proofs.SortedSet.Twins
import Mathlib.Data.Set.Card

/-!
# Adding entry by entry

Adding under flags is a fold over the entries: each gives its member its score or does nothing, as the flags have
it for the scores that the entries before it have left. The tally counts what the fold has added and altered.
-/

namespace KeyEngine

open SortedSet (Alike)

/-! ## Scores that are the same numbers -/

namespace SortedSet

variable {o o' o'' : Option Score}

theorem alike_left (h : Alike o o') : Alike o o := by
  cases h with
  | none => exact .none
  | some h =>
    obtain ⟨hx, -, -⟩ := Score.same_iff.mp h
    exact .some (Score.same_iff.mpr ⟨hx, hx, rfl⟩)

theorem alike_trans (h : Alike o o') (h' : Alike o' o'') : Alike o o'' := by
  cases h with
  | none => exact h'
  | some h =>
    cases h' with
    | some h' =>
      obtain ⟨hx, -, hk⟩ := Score.same_iff.mp h
      obtain ⟨-, hz, hk'⟩ := Score.same_iff.mp h'
      exact .some (Score.same_iff.mpr ⟨hx, hz, hk.trans hk'⟩)

theorem alike_none : Alike o none ↔ o = none := by
  constructor
  · intro h
    cases h
    rfl
  · rintro rfl
    exact .none

theorem alike_some {x y : Score} : Alike (some x) (some y) ↔ x.same y = true := by
  constructor
  · intro h
    cases h with
    | some h => exact h
  · exact fun h => .some h

/-- The members whose scores are not the same numbers. -/
def altered (scores scores' : Bytes → Option Score) : Set Bytes :=
  {m | ¬ Alike (scores m) (scores' m)}

theorem altered_self {scores : Bytes → Option Score} (h : ∀ m, Alike (scores m) (scores m)) :
    altered scores scores = ∅ := by
  rw [Set.eq_empty_iff_forall_notMem]
  exact fun m hm => hm (h m)

/-- Where first one member alone may change and then only others, the alterations add up. -/
theorem encard_altered {member : Bytes} {scores scores' scores'' : Bytes → Option Score}
    (h : ∀ m, Alike (scores m) (scores m)) (h' : ∀ m, Alike (scores' m) (scores' m))
    (hfirst : ∀ m, m ≠ member → scores' m = scores m) (hrest : scores'' member = scores' member) :
    (altered scores scores'').encard = (altered scores scores').encard + (altered scores' scores'').encard := by
  have hone : ∀ m, m ≠ member → m ∉ altered scores scores' := fun m hm => by simpa [altered, hfirst m hm] using h m
  have hother : member ∉ altered scores' scores'' := by simpa [altered, hrest] using h' member
  have hunion : altered scores scores'' = altered scores scores' ∪ altered scores' scores'' := by
    ext m
    by_cases hm : m = member
    · subst hm
      simp [altered, hrest, h' m]
    · simp [altered, hfirst m hm, h m]
  rw [hunion, Set.encard_union_eq]
  rw [Set.disjoint_left]
  intro m hm hm'
  by_cases he : m = member
  · exact hother (he ▸ hm')
  · exact hone m he hm

end SortedSet

/-! ## What the entries give -/

/-- Gives the member of the entry its score if it may have that one for the one it has. -/
def assign (may : Option Score → Score → Bool) (scores : Bytes → Option Score) (e : Entry) : Bytes → Option Score :=
  if may (scores e.member) e.score then Function.update scores e.member (some e.score) else scores

section
variable (may : Option Score → Score → Bool) (scores : Bytes → Option Score) (e : Entry)

theorem assign_other {m : Bytes} (h : m ≠ e.member) : assign may scores e m = scores m := by
  unfold assign
  split
  · exact Function.update_of_ne h _ _
  · rfl

theorem assign_self :
    assign may scores e e.member = if may (scores e.member) e.score then some e.score else scores e.member := by
  unfold assign
  split
  · exact Function.update_self _ _ _
  · rfl

end

namespace AddFlags

open SortedSet

variable {flags : AddFlags} {scores scores' : Bytes → Option Score} {m : Bytes} {e : Entry} {items : List Entry}

/-- Whether a member with the score, or without one, may be given another. -/
def lets (flags : AddFlags) : Option Score → Bool
  | none => !flags.onlyOld
  | some _ => !flags.onlyNew

def give (flags : AddFlags) : (Bytes → Option Score) → Entry → Bytes → Option Score :=
  assign fun old _ => flags.lets old

/-- As `give`, but an equal number is not written over the old one. -/
def write (flags : AddFlags) : (Bytes → Option Score) → Entry → Bytes → Option Score :=
  assign fun old score => flags.lets old && !old.any (·.same score)

/-- Some entry finds its member absent and may add it. -/
def Adds (flags : AddFlags) (scores : Bytes → Option Score) (items : List Entry) : Prop :=
  ∃ before e after, items = before ++ e :: after ∧ before.foldl flags.give scores e.member = none ∧
    flags.onlyOld = false

def counted (flags : AddFlags) (t : Tally) : Nat :=
  if flags.countChanged then t.added + t.updated else t.added

theorem lets_congr {old old' : Option Score} (h : Alike old old') : flags.lets old = flags.lets old' := by
  cases h <;> rfl

theorem alike_write (h : ∀ m, Alike (scores m) (scores' m)) (he : e.score.isNaN = false) (m : Bytes) :
    Alike (flags.write scores e m) (flags.give scores' e m) := by
  by_cases hm : m = e.member
  · subst hm
    rw [write, give, assign_self, assign_self, ← lets_congr (h e.member)]
    cases flags.lets (scores e.member) with
    | false => exact h e.member
    | true =>
      cases hsame : (scores e.member).any (·.same e.score) with
      | false => exact alike_some.mpr (Score.same_iff.mpr ⟨he, he, rfl⟩)
      | true =>
        obtain ⟨x, hx, hxe⟩ := (Option.any_eq_true _ _).mp hsame
        rw [hx]
        exact alike_some.mpr hxe
  · rw [write, give, assign_other _ _ _ hm, assign_other _ _ _ hm]
    exact h m

theorem alike_foldl (h : ∀ m, Alike (scores m) (scores' m)) (hitems : ∀ e ∈ items, e.score.isNaN = false)
    (m : Bytes) : Alike (items.foldl flags.write scores m) (items.foldl flags.give scores' m) := by
  induction items generalizing scores scores' with
  | nil => exact h m
  | cons e items ih =>
    rw [List.forall_mem_cons] at hitems
    exact ih (alike_write h hitems.1) hitems.2

theorem foldl_write_other (hm : m ∉ items.map (·.member)) : items.foldl flags.write scores m = scores m := by
  induction items generalizing scores with
  | nil => rfl
  | cons e items ih =>
    rw [List.map_cons, List.mem_cons, not_or] at hm
    exact (ih hm.2).trans (assign_other _ _ _ hm.1)

theorem adds_cons : flags.Adds scores (e :: items) ↔
    (scores e.member = none ∧ flags.onlyOld = false) ∨ flags.Adds (flags.give scores e) items := by
  constructor
  · rintro ⟨before, x, after, hitems, hx, hold⟩
    cases before with
    | nil =>
      cases hitems
      exact .inl ⟨hx, hold⟩
    | cons y before =>
      cases hitems
      exact .inr ⟨before, x, after, rfl, hx, hold⟩
  · rintro (⟨he, hold⟩ | ⟨before, x, after, rfl, hx, hold⟩)
    · exact ⟨[], e, items, rfl, he, hold⟩
    · exact ⟨e :: before, x, after, rfl, hx, hold⟩

/-- Where both new and old members are given scores, the last score stays. -/
theorem foldl_give_last (hnew : flags.onlyNew = false) (hold : flags.onlyOld = false) (items : List Entry) :
    items.foldl flags.give scores m = ((items.reverse.find? (·.member = m)).map (·.score)).or (scores m) := by
  have hlets : ∀ old, flags.lets old = true := by
    intro old
    cases old <;> simp [lets, hnew, hold]
  induction items using List.reverseRecOn with
  | nil => simp
  | append_singleton items e ih =>
    rw [List.foldl_append, List.foldl_cons, List.foldl_nil, List.reverse_append, List.reverse_singleton,
      List.singleton_append]
    by_cases he : e.member = m
    · rw [List.find?_cons_of_pos (by simpa using he), ← he, give, assign_self, if_pos (hlets _)]
      rfl
    · rw [List.find?_cons_of_neg (by simpa using he), give, assign_other _ _ _ (Ne.symm he), ← give, ih]

/-- Where only new members are given scores, the first score stays. -/
theorem foldl_give_first (hnew : flags.onlyNew = true) (hold : flags.onlyOld = false) (items : List Entry) :
    items.foldl flags.give scores m = (scores m).or ((items.find? (·.member = m)).map (·.score)) := by
  have hlets : ∀ old, flags.lets old = old.isNone := by
    intro old
    cases old <;> simp [lets, hnew, hold]
  induction items generalizing scores with
  | nil => simp
  | cons e items ih =>
    rw [List.foldl_cons, ih]
    by_cases he : e.member = m
    · rw [List.find?_cons_of_pos (by simpa using he), ← he, give, assign_self, hlets]
      cases scores e.member <;> rfl
    · rw [List.find?_cons_of_neg (by simpa using he), give, assign_other _ _ _ (Ne.symm he)]

end AddFlags

namespace Board

open AddFlags SortedSet

variable {b : Board} {flags : AddFlags} {scores : Bytes → Option Score} {e : Entry} {m : Bytes} {es : List Entry}

/-! ## One entry -/

theorem length_set (b : Board) (score : Score) (member : Bytes) :
    (b.set score member).rows.length = b.rows.length + if b.score? member = none then 1 else 0 := by
  by_cases h : b.score? member = none
  · rw [rows_set_new h, if_pos h, List.length_cons]
  · rw [rows_set_old h, if_neg h, List.length_map, Nat.add_zero]

theorem score?_set_unequal {score : Score} {member : Bytes} (h : (b.score? member).any (·.same score) = false) :
    (b.set score member).score? member = some score := by
  rw [score?_eq_some]
  cases hb : b.score? member with
  | none =>
    rw [rows_set_new hb]
    exact List.mem_cons_self
  | some x =>
    have hx : x.same score = false := by simpa [hb] using h
    rw [rows_set_old (by simp [hb]), List.mem_map]
    exact ⟨⟨x, member⟩, score?_eq_some.mp hb, by simp [Entry.rescored, hx]⟩

/-- What an entry may do to a board, with its tally. An equal number is not written over the old one. -/
inductive Step (flags : AddFlags) (b : Board) (e : Entry) : Board × Tally → Prop where
  | barred (h : flags.lets (b.score? e.member) = false) : Step flags b e (b, ⟨0, 0⟩)
  | equal (h : (b.score? e.member).any (·.same e.score) = true) : Step flags b e (b, ⟨0, 0⟩)
  | new (h : b.score? e.member = none) (hold : flags.onlyOld = false) :
    Step flags b e (b.set e.score e.member, ⟨1, 0⟩)
  | other {x : Score} (h : b.score? e.member = some x) (hnew : flags.onlyNew = false)
    (hx : x.same e.score = false) : Step flags b e (b.set e.score e.member, ⟨0, 1⟩)

theorem step_addOne (flags : AddFlags) (b : Board) (e : Entry) : Step flags b e (b.addOne flags e) := by
  unfold addOne
  cases hb : b.score? e.member with
  | none =>
    cases hold : flags.onlyOld with
    | true => exact .barred (by simp [hb, lets, hold])
    | false => exact .new hb hold
  | some x =>
    cases hnew : flags.onlyNew with
    | true => exact .barred (by simp [hb, lets, hnew])
    | false =>
      cases hx : x.same e.score with
      | true => simpa [hx] using Step.equal (by simpa [hb] using hx)
      | false => simpa [hx] using Step.other hb hnew hx

namespace Step

variable {r : Board × Tally}

theorem score?_other (h : Step flags b e r) (hm : m ≠ e.member) : r.1.score? m = b.score? m := by
  cases h with
  | barred _ | equal _ => rfl
  | new _ _ | other _ _ _ => exact score?_set_other hm _

theorem score?_eq (h : Step flags b e r) : r.1.score? = flags.write b.score? e := by
  funext m
  by_cases hm : m = e.member
  · subst hm
    rw [write, assign_self]
    cases h with
    | barred hbar => simp [hbar]
    | equal heq => simp [heq]
    | new hb hold => simp [hb, lets, hold, score?_set_unequal]
    | other hb hnew hx => simp [hb, lets, hnew, hx, score?_set_unequal]
  · rw [h.score?_other hm, write, assign_other _ _ _ hm]

theorem length (h : Step flags b e r) : r.1.rows.length = b.rows.length + r.2.added := by
  cases h with
  | barred _ | equal _ => rfl
  | new hb _ => rw [length_set, if_pos hb]
  | other hb _ _ => rw [length_set, if_neg (by simp [hb])]

theorem added_iff (h : Step flags b e r) : r.2.added ≠ 0 ↔ b.score? e.member = none ∧ flags.onlyOld = false := by
  cases h with
  | barred hbar =>
    cases hb : b.score? e.member with
    | none => simpa [hb, lets] using hbar
    | some x => simp
  | equal heq =>
    have : b.score? e.member ≠ none := by
      intro hb
      rw [hb] at heq
      cases heq
    simp [this]
  | new hb hold => simp [hb, hold]
  | other hb _ _ => simp [hb]

theorem altered_eq (h : Step flags b e r) (hb : ∀ m, Alike (b.score? m) (b.score? m)) :
    (altered b.score? r.1.score?).encard = (r.2.added + r.2.updated : Nat) := by
  have hone : ¬ Alike (b.score? e.member) (r.1.score? e.member) → (altered b.score? r.1.score?).encard = 1 := by
    intro hnot
    rw [Set.encard_eq_one]
    refine ⟨e.member, Set.ext fun m => ?_⟩
    by_cases hm : m = e.member
    · simpa [altered, hm] using hnot
    · simpa [altered, hm, h.score?_other hm] using hb m
  cases h with
  | barred _ | equal _ => simp [altered_self hb]
  | new hnone _ =>
    refine hone fun hsame => ?_
    rw [score?_set_unequal (by simp [hnone]), hnone] at hsame
    cases hsame
  | other hsome _ hx =>
    refine hone fun hsame => ?_
    rw [score?_set_unequal (by simp [hsome, hx]), hsome] at hsame
    exact Bool.eq_false_iff.mp hx (alike_some.mp hsame)

end Step

/-! ## All entries -/

theorem score?_addWith (b : Board) (flags : AddFlags) (es : List Entry) :
    (b.addWith flags es).1.score? = es.foldl flags.write b.score? := by
  induction es generalizing b with
  | nil => rfl
  | cons e es ih =>
    rw [List.foldl_cons, ← (b.step_addOne flags e).score?_eq]
    exact ih (b.addOne flags e).1

theorem length_addWith (b : Board) (flags : AddFlags) (es : List Entry) :
    (b.addWith flags es).1.rows.length = b.rows.length + (b.addWith flags es).2.added := by
  induction es generalizing b with
  | nil => rfl
  | cons e es ih =>
    have hstep := (b.step_addOne flags e).length
    have hrest := ih (b.addOne flags e).1
    simp only [addWith]
    omega

theorem added_addWith (hscores : ∀ m, Alike (b.score? m) (scores m)) (hes : ∀ e ∈ es, e.score.isNaN = false) :
    (b.addWith flags es).2.added ≠ 0 ↔ flags.Adds scores es := by
  -- The numbers on the board stay those of the fold, whose presence is what the flags look at.
  induction es generalizing b scores with
  | nil => simp [addWith, Adds]
  | cons e es ih =>
    rw [List.forall_mem_cons] at hes
    have hstep := b.step_addOne flags e
    have hnext : ∀ m, Alike ((b.addOne flags e).1.score? m) (flags.give scores e m) := by
      rw [hstep.score?_eq]
      exact alike_write hscores hes.1
    have hnone : b.score? e.member = none ↔ scores e.member = none := by
      rw [← alike_none, ← alike_none]
      exact ⟨alike_trans (Tracks.alike_symm (hscores _)), alike_trans (hscores _)⟩
    rw [adds_cons, ← ih hnext hes.2, ← hnone, ← hstep.added_iff]
    simp only [addWith]
    omega

/-- Each entry of other members counts the alteration of its own. -/
theorem altered_addWith (hb : ∀ m, Alike (b.score? m) (b.score? m)) (hes : ∀ e ∈ es, e.score.isNaN = false)
    (hn : (es.map (·.member)).Nodup) : (altered b.score? (b.addWith flags es).1.score?).encard =
      ((b.addWith flags es).2.added + (b.addWith flags es).2.updated : Nat) := by
  induction es generalizing b with
  | nil => simp [addWith, altered_self hb]
  | cons e es ih =>
    rw [List.forall_mem_cons] at hes
    rw [List.map_cons, List.nodup_cons] at hn
    have hstep := b.step_addOne flags e
    have hb' : ∀ m, Alike ((b.addOne flags e).1.score? m) ((b.addOne flags e).1.score? m) := by
      rw [hstep.score?_eq]
      exact fun m => alike_left (alike_write hb hes.1 m)
    -- The other entries leave this member alone, so what it counted here is not counted again or undone.
    have hself : ((b.addOne flags e).1.addWith flags es).1.score? e.member =
        (b.addOne flags e).1.score? e.member := by
      rw [score?_addWith, foldl_write_other hn.1]
    show (altered b.score? ((b.addOne flags e).1.addWith flags es).1.score?).encard = _
    rw [encard_altered hb hb' (fun _ hm => hstep.score?_other hm) hself, hstep.altered_eq hb, ih hb' hes.2 hn.2]
    simp only [addWith]
    norm_cast
    omega

end Board

end KeyEngine
