import KeyEngine.Proofs.Keyspace.Paged
import KeyEngine.Proofs.SortedSet.Folds

/-!
# Members added to a key

A key that holds no string holds a board, one without rows where it has no value. Adding entries to the key adds
them to the board, and what is left without rows is not stored.
-/

namespace KeyEngine.Keyspace

open SortedSet (altered)

variable {now : Nat} {ks : Keyspace} {key : Bytes} {b : Board} {items : List Entry} {flags : AddFlags}

/-- The scores of the members under the key. -/
def scores (now : Nat) (ks : Keyspace) (key m : Bytes) : Option Score :=
  (ks.set? now key).bind (·.score? m)

/-! ## Keys that hold boards -/

/-- The value of the key is a set on the board, or there is neither a value nor a row. -/
inductive Holds (now : Nat) (ks : Keyspace) (key : Bytes) : Board → Prop where
  | nothing (h : ks.value now key = none) : Holds now ks key .empty
  | set {s : SortedSet} {b : Board} (h : ks.value now key = some (.sortedSet s)) (hb : s.Tracks b)
    (hrows : b.rows ≠ []) : Holds now ks key b

theorem Parallel.holds (h : Parallel ks ks) (hc : ¬ ks.Clashes now key .sortedSet) : ∃ b, ks.Holds now key b := by
  cases hv : ks.value now key with
  | none => exact ⟨.empty, .nothing hv⟩
  | some v =>
    cases v with
    | text bytes => exact absurd ⟨_, hv, nofun⟩ hc
    | sortedSet s =>
      obtain ⟨b, hb, hrows⟩ := h.tracked (live_of_value hv).2
      exact ⟨b, .set hv hb hrows⟩

theorem Holds.congr {t : Keyspace} (h : ks.Holds now key b) (hv : t.value now key = ks.value now key) :
    t.Holds now key b := by
  cases h with
  | nothing h => exact .nothing (hv.trans h)
  | set h hb hrows => exact .set (hv.trans h) hb hrows

namespace Holds

variable (h : ks.Holds now key b)
include h

theorem not_clashes : ¬ ks.Clashes now key .sortedSet := by
  rintro ⟨v, hv, hkind⟩
  cases h with
  | nothing h => simp [h] at hv
  | set h _ _ =>
    rw [h] at hv
    cases hv
    exact hkind rfl

theorem scores_eq (m : Bytes) : ks.scores now key m = b.score? m := by
  unfold scores set?
  cases h with
  | nothing h =>
    rw [h]
    rfl
  | set h hb _ =>
    rw [h]
    exact hb.score?_eq m

theorem value_ne_none : ks.value now key ≠ none ↔ b.rows.length ≠ 0 := by
  cases h with
  | nothing h => simp [h, Board.empty]
  | set h _ hrows => simp [h, hrows]

theorem alike_self (m : Bytes) : SortedSet.Alike (b.score? m) (b.score? m) := by
  cases hx : b.score? m with
  | none => exact .none
  | some x =>
    cases h with
    | nothing _ => cases hx
    | set _ hb _ =>
      have hn := hb.number hx
      exact .some (Score.same_iff.mpr ⟨hn, hn, rfl⟩)

theorem handle_count (hs : ks.Sane) : (ks.handle now (.count key)).1 = .ok (.number b.rows.length) := by
  show (ks.run (Reply.number <$> Command.count now key)).1 = _
  unfold Command.count
  rw [run_map, run_readSet hs h.not_clashes 0 (f := fun s => pure s.count) (g := (·.count)) fun _ _ => rfl]
  unfold set?
  cases h with
  | nothing h =>
    rw [h]
    rfl
  | set h hb _ =>
    rw [h]
    exact congrArg (fun n => Except.ok (Reply.number n)) hb.count_eq

end Holds

/-! ## Adding -/

theorem run_lookupOrFresh (hs : ks.Sane) (hd : ks.due now key = false) (h : ks.Holds now key b) :
    ∃ s t, ks.run (Command.lookupOrFresh key) = (.ok s, t) ∧ s.Tracks b ∧ t.Sane ∧ t.due now key = false ∧
      t.value now key = ks.value now key := by
  have hset : ks.run (Command.lookupSet key) = (.ok (ks.set? now key), ks) := by
    have hvalue : ks.value now key = ks.data.find? key := if_neg (by simp [hd])
    rw [Command.run_lookupSet hs, ← hvalue, setIn_value h.not_clashes]
  unfold Command.lookupOrFresh
  rw [run_bind_ok hset]
  unfold set?
  cases h with
  | nothing h =>
    rw [h]
    exact ⟨_, _, run_freshSet ks, .empty _ _, hs.make, hd, h⟩
  | set h hb _ =>
    rw [h]
    exact ⟨_, _, rfl, hb, hs, hd, h⟩

theorem run_addMembers (hs : ks.Sane) (h : ks.Holds now key b)
    (hflags : (flags.onlyNew && flags.onlyOld) = false) (hitems : ∀ e ∈ items, e.score.isNaN = false) :
    ∃ t, ks.run (Command.addMembers now key items flags) = (.ok (flags.counted (b.addWith flags items).2), t) ∧
      t.Sane ∧ t.Holds now key (b.addWith flags items).1 := by
  have hboth : (flags.onlyNew && flags.onlyOld) = true ↔ False := by simp [hflags]
  have hnan : items.any (·.score.isNaN) = false := by simpa using hitems
  have hlive := Close.due_purge_self hs now key
  have hpurge : (ks.purge now key).value now key = ks.value now key := by
    rw [← Command.find?_purge hs]
    exact if_neg (by simp [hlive])
  obtain ⟨s, t, hrun, hb, ht, hd, hvalue⟩ := run_lookupOrFresh (hs.purge now key) hlive (h.congr hpurge)
  obtain ⟨s', hadd, hb'⟩ := hb.addWith_ok flags hitems
  unfold Command.addMembers
  simp only [hboth, hnan, if_false, Bool.false_eq_true]
  rw [run_bind_ok (run_discard_ok (run_checkLive hs now key)), run_bind_ok hrun, hadd]
  show ∃ t', t.run (if (!s'.isEmpty) = true then _ else _) = _ ∧ _
  rw [hb'.isEmpty_eq]
  cases hrows : (b.addWith flags items).1.rows with
  | nil =>
    -- Nothing was added where nothing was, so nothing is stored.
    have hnone : t.value now key = none := by
      have hlength := b.length_addWith flags items
      rw [hrows, List.length_nil] at hlength
      rw [hvalue, hpurge]
      by_contra hsome
      have := h.value_ne_none.mp hsome
      omega
    have hempty : (b.addWith flags items).1 = .empty := by
      generalize (b.addWith flags items).1 = b' at hrows
      cases b'
      cases hrows
      rfl
    exact ⟨t, rfl, ht, hempty ▸ .nothing hnone⟩
  | cons row rows =>
    refine ⟨t.place key (.sortedSet s'), ?_, ht.place key _, .set ?_ hb' (by simp [hrows])⟩
    · show t.run (Command.put key (.sortedSet s') >>= _) = _
      rw [run_bind_ok (run_put ht key _)]
      rfl
    · exact (if_neg (by simp [Close.due_place, hd])).trans (find?_place ht key _)

/-! ## What comes of it -/

/-- What comes of a key as the entries are added to it, and of the answer. -/
structure Added (now : Nat) (ks ks' : Keyspace) (key : Bytes) (items : List Entry) (flags : AddFlags) (n : Nat) :
    Prop where
  kind : ¬ ks'.Clashes now key .sortedSet
  /-- The scores are the same numbers as those that the entries give. -/
  fold : ∀ m, SortedSet.Alike (ks'.scores now key m) (items.foldl flags.give (ks.scores now key) m)
  written : ks'.scores now key = items.foldl flags.write (ks.scores now key)
  others : ∀ m, m ∉ items.map (·.member) → ks'.scores now key m = ks.scores now key m
  last : flags.onlyNew = false → flags.onlyOld = false → ∀ m, SortedSet.Alike (ks'.scores now key m)
    (((items.reverse.find? (·.member = m)).map (·.score)).or (ks.scores now key m))
  first : flags.onlyNew = true → ∀ m, SortedSet.Alike (ks'.scores now key m)
    ((ks.scores now key m).or ((items.find? (·.member = m)).map (·.score)))
  growth : flags.countChanged = false → ∃ size, (ks.handle now (.count key)).1 = .ok (.number size) ∧
    (ks'.handle now (.count key)).1 = .ok (.number (size + n))
  changed : flags.countChanged = true → (items.map (·.member)).Nodup →
    (altered (ks.scores now key) (ks'.scores now key)).encard = n
  comes : ks.value now key = none → (ks'.value now key ≠ none ↔ flags.Adds (ks.scores now key) items)

/-- In whatever state a keyspace is, entries are added to a key without a string one after another, each as the
flags have it for the set that the entries before it have left. -/
theorem handle_added (hreach : Reachable ks) (hc : ¬ ks.Clashes now key .sortedSet)
    (hflags : (flags.onlyNew && flags.onlyOld) = false) (hitems : ∀ e ∈ items, e.score.isNaN = false) :
    ∃ n ks', ks.handle now (.addMembers key items flags) = (.ok (.number n), ks') ∧
      Added now ks ks' key items flags n := by
  obtain ⟨b, hb⟩ := hreach.parallel.holds hc
  obtain ⟨ks', hrun, hs', hb'⟩ := run_addMembers hreach.sane hb hflags hitems
  have hscores : ks.scores now key = b.score? := funext hb.scores_eq
  have hwritten : ks'.scores now key = items.foldl flags.write (ks.scores now key) := by
    rw [funext hb'.scores_eq, hscores, Board.score?_addWith]
  have hfold : ∀ m, SortedSet.Alike (ks'.scores now key m) (items.foldl flags.give (ks.scores now key) m) := by
    rw [hwritten, hscores]
    exact AddFlags.alike_foldl hb.alike_self hitems
  have hlength := b.length_addWith flags items
  refine ⟨flags.counted (b.addWith flags items).2, ks', ?_, ⟨hb'.not_clashes, hfold, hwritten, ?_, ?_, ?_, ?_, ?_, ?_⟩⟩
  · show ks.run (Reply.number <$> Command.addMembers now key items flags) = _
    rw [run_map, hrun]
    rfl
  · intro m hm
    rw [hwritten]
    exact AddFlags.foldl_write_other hm
  · intro hnew hold m
    rw [← AddFlags.foldl_give_last hnew hold]
    exact hfold m
  · intro hnew m
    have hold : flags.onlyOld = false := by simpa [hnew] using hflags
    rw [← AddFlags.foldl_give_first hnew hold]
    exact hfold m
  · intro hcount
    refine ⟨_, hb.handle_count hreach.sane, ?_⟩
    rw [hb'.handle_count hs', hlength, AddFlags.counted, if_neg (by simp [hcount])]
  · intro hcount hn
    rw [hscores, funext hb'.scores_eq, AddFlags.counted, if_pos hcount]
    exact Board.altered_addWith hb.alike_self hitems hn
  · intro hnone
    have hempty : b.rows.length = 0 := by
      by_contra hrows
      exact hb.value_ne_none.mpr hrows hnone
    rw [hb'.value_ne_none, hlength, hempty, Nat.zero_add, hscores]
    exact Board.added_addWith hb.alike_self hitems

/-- One new member twice: it comes into being with its first score. -/
theorem handle_added_twice :
    let items : List Entry := [⟨.one, [2]⟩, ⟨.zero, [2]⟩]
    let flags : AddFlags := { onlyNew := true }
    ¬ standard.Clashes 0 [1] .sortedSet ∧ (∀ e ∈ items, e.score.isNaN = false) ∧
      ∃ n ks', standard.handle 0 (.addMembers [1] items flags) = (.ok (.number n), ks') ∧
        SortedSet.Alike (ks'.scores 0 [1] [2]) (some .one) ∧ ks'.scores 0 [1] [3] = none ∧ ks'.value 0 [1] ≠ none := by
  intro items flags
  have hvalue : standard.value 0 [1] = none := by
    have hfind : standard.data.find? [1] = none := Store.find?_empty _ _
    simp [value, hfind]
  have hscores : ∀ m, standard.scores 0 [1] m = none := fun m => by simp [scores, set?, hvalue]
  have hc : ¬ standard.Clashes 0 [1] .sortedSet := by
    rintro ⟨v, hv, -⟩
    simp [hvalue] at hv
  have hitems : ∀ e ∈ items, e.score.isNaN = false := by decide
  have hreach : Reachable standard := .new _ _
  have hflags : (flags.onlyNew && flags.onlyOld) = false := rfl
  obtain ⟨n, ks', hks', hadded⟩ := handle_added hreach hc hflags hitems
  refine ⟨hc, hitems, n, ks', hks', ?_, ?_, (hadded.comes hvalue).mpr ?_⟩
  · have hfirst := hadded.first rfl [2]
    rwa [hscores] at hfirst
  · rw [hadded.others [3] (by decide), hscores]
  · exact ⟨[], ⟨.one, [2]⟩, [⟨.zero, [2]⟩], rfl, hscores [2], rfl⟩

end KeyEngine.Keyspace
