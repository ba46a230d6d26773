import KeyEngine.Proofs.Keyspace.Geometry
import KeyEngine.Proofs.Keyspace.Mistyped

/-!
# Sets that are stored

A keyspace runs in parallel with itself, so every set that it stores has members, their scores are numbers,
and no command ends in a fault.
-/

namespace KeyEngine.Keyspace

variable {ks : Keyspace} {now : Nat}

theorem Parallel.tracked (h : Parallel ks ks) {key : Bytes} {s : SortedSet}
    (hs : ks.data.find? key = some (.sortedSet s)) : ∃ b, s.Tracks b ∧ b.rows ≠ [] := by
  have hd := h.data key
  rw [hs] at hd
  cases hd with
  | some hv =>
    cases hv with
    | sortedSet hb _ hrows => exact ⟨_, hb, hrows⟩

theorem Parallel.filled (h : Parallel ks ks) {key : Bytes} {s : SortedSet}
    (hs : ks.data.find? key = some (.sortedSet s)) :
    0 < s.count ∧ s.toList ≠ [] ∧ ∀ m x, s.score? m = some x → x.isNaN = false := by
  obtain ⟨b, hb, hrows⟩ := h.tracked hs
  have hpos := List.length_pos_iff.mpr hrows
  refine ⟨hb.count_eq ▸ hpos, ?_, fun m x hx => hb.number (hb.score?_eq m ▸ hx)⟩
  rw [hb.toList_eq, ← List.length_pos_iff, Board.length_sorted]
  exact hpos

theorem handle_kind (h : ks.Sane) {key : Bytes} (hd : ks.due now key = false) :
    (ks.handle now (.kind key)).1 = .ok (.kind? ((ks.data.find? key).map Value.kind)) := by
  show (ks.run (Reply.kind? <$> Command.kind? now key)).1 = _
  unfold Command.kind?
  rw [run_map, run_bind_ok (run_checkLive_live h hd), if_pos rfl, run_bind_ok (run_lookup h key)]
  rfl

theorem handle_count (h : ks.Sane) {key : Bytes} (hd : ks.due now key = false) :
    (ks.handle now (.count key)).1 =
      match ks.data.find? key with
      | some (.sortedSet s) => .ok (.number s.count)
      | some (.text _) => .error .wrongType
      | none => .ok (.number 0) := by
  show (ks.run (Reply.number <$> Command.count now key)).1 = _
  unfold Command.count Command.readSet
  rw [run_map, run_bind_ok (run_discard_ok (run_checkLive_live h hd)), run_bind, Command.run_lookupSet h]
  rcases ks.data.find? key with _ | _ | s
  · rfl
  · rfl
  · rfl

/-- A live key that holds a set is one that counts its members. -/
theorem Parallel.kind_iff_count (h : Parallel ks ks) {key : Bytes} (hd : ks.due now key = false) :
    (ks.handle now (.kind key)).1 = .ok (.kind? (some .sortedSet)) ↔
      ∃ n, 0 < n ∧ (ks.handle now (.count key)).1 = .ok (.number n) := by
  rw [handle_kind h.left hd, handle_count h.left hd]
  cases hf : ks.data.find? key with
  | none => simp
  | some v =>
    cases v with
    | text bytes => simp [Value.kind]
    | sortedSet s => simpa [Value.kind] using (h.filled hf).1

/-- Whatever has happened to a keyspace, the sets that it stores have members, and none of their scores is NaN.
So a live key is of the kind of sorted sets just if its members can be counted and there are some. No request
meets a fault of a data structure, that of a NaN offered as a score included. -/
theorem sets_filled (config : Config) (supply : Nat → Towers) (es : List Event) :
    let ks := (new config supply).afterAll es
    (∀ key s, ks.data.find? key = some (.sortedSet s) →
      0 < s.count ∧ s.toList ≠ [] ∧ ∀ m x, s.score? m = some x → x.isNaN = false) ∧
    (∀ now key, ks.due now key = false →
      ((ks.handle now (.kind key)).1 = .ok (.kind? (some .sortedSet)) ↔
        ∃ n, 0 < n ∧ (ks.handle now (.count key)).1 = .ok (.number n))) ∧
    (∀ now request fault, (ks.handle now request).1 ≠ .error (.fault fault)) ∧
    ∀ now call fault, (ks.handleDeadline now call).1 ≠ .error (.fault fault) := by
  intro ks
  obtain ⟨-, h⟩ := (parallel_new (rfl : config.interval = _) supply supply).run es
  refine ⟨fun key s hs => h.filled hs, fun now key hd => ?_, fun now request => ?_, fun now call => ?_⟩
  · exact h.kind_iff_count hd
  · exact (Command.uniform_ofRequest request ks ks h).1.no_fault
  · exact (Command.uniform_ofDeadlineCall call ks ks h).1.no_fault

/-- A set is stored under a key that held nothing. -/
theorem handle_addMembers (h : ks.Sane) {key : Bytes} (hd : ks.due now key = false)
    (hn : ks.data.find? key = none) {e : Entry} (he : e.score.isNaN = false) :
    ∃ s, s.toList = [e] ∧ (ks.handle now (.addMembers key [e] {})).2 =
      Keyspace.place { ks with made := ks.made + 1 } key (.sortedSet s) := by
  obtain ⟨s, hs, hb⟩ := (SortedSet.Tracks.empty ks.config.maxLevel (ks.supply ks.made)).addWith_ok {}
    (List.forall_mem_singleton.mpr he)
  have hboard : (Board.empty.addWith {} [e]).1.rows = [e] := rfl
  have hlist : s.toList = [e] := by
    rw [hb.toList_eq, Board.sorted, hboard, List.mergeSort_singleton]
  have hrows : s.isEmpty = false := by
    rw [hb.isEmpty_eq, hboard]
    rfl
  have hfresh : ks.run (Command.lookupOrFresh key) =
      (.ok (.empty ks.config.maxLevel (ks.supply ks.made)), { ks with made := ks.made + 1 }) := by
    have hset : ks.run (Command.lookupSet key) = (.ok none, ks) := by
      rw [Command.run_lookupSet h, hn]
      rfl
    unfold Command.lookupOrFresh
    rw [run_bind_ok hset]
    exact run_freshSet ks
  refine ⟨s, hlist, ?_⟩
  show (ks.run (Reply.number <$> Command.addMembers now key [e] {})).2 = _
  unfold Command.addMembers
  simp only [List.any_cons, List.any_nil, he, Bool.or_false, Bool.and_false, Bool.false_eq_true, if_false]
  rw [run_map, run_bind_ok (run_discard_ok (run_checkLive_live h hd)), run_bind_ok hfresh, hs]
  show (Keyspace.run _ (if (!s.isEmpty) = true then _ else _)).2 = _
  rw [hrows]
  show (Keyspace.run _ (Command.put key (.sortedSet s) >>= _)).2 = _
  rw [run_bind_ok (run_put h.make key _)]
  rfl

/-- One member, of an infinite score. -/
theorem sets_filled_added :
    let ks := standard.afterAll [.request 0 (.addMembers [1] [⟨.posInf, [2]⟩] {})]
    ∃ s, ks.data.find? [1] = some (.sortedSet s) ∧ 0 < s.count ∧ ks.due 0 [1] = false ∧
      (ks.handle 0 (.kind [1])).1 = .ok (.kind? (some .sortedSet)) ∧
      ∃ n, 0 < n ∧ (ks.handle 0 (.count [1])).1 = .ok (.number n) := by
  intro ks
  obtain ⟨hfilled, hkind, -⟩ := sets_filled .standard Towers.seeded
    [.request 0 (.addMembers [1] [⟨.posInf, [2]⟩] {})]
  have hsane : standard.Sane := sane_new _ _
  have hnone : standard.deadlines.find? [1] = none := Store.find?_empty _ _
  have hlive : standard.due 0 [1] = false := Close.due_of_absent hnone
  obtain ⟨s, -, hs⟩ := handle_addMembers hsane hlive (Store.find?_empty _ _)
    (show (⟨.posInf, [2]⟩ : Entry).score.isNaN = false by decide)
  have hks : ks = Keyspace.place { standard with made := standard.made + 1 } [1] (.sortedSet s) := hs
  have hfind : ks.data.find? [1] = some (.sortedSet s) := by
    rw [hks]
    exact (Store.find?_put hsane.data [1] _ [1]).trans (if_pos rfl)
  have hdue : ks.due 0 [1] = false := by
    rw [hks]
    exact Close.due_of_absent hnone
  have hk : (ks.handle 0 (.kind [1])).1 = .ok (.kind? (some .sortedSet)) := by
    rw [handle_kind (hsane.afterAll _) hdue, hfind]
    rfl
  exact ⟨s, hfind, (hfilled [1] s hfind).1, hdue, hk, (hkind 0 [1] hdue).mp hk⟩

end KeyEngine.Keyspace
