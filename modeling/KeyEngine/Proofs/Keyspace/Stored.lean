import KeyEngine.Proofs.Keyspace.Combined

/-!
# Combinations that are stored

A combination of sets is answered by one request and stored by another. Both look at keys first, the second
at the destination too, and then make the same set. So the one stores what the other answers, and fails
where it fails.
-/

namespace KeyEngine

inductive Combination where
  | difference
  | union (weights : Option (List Score)) (agg : Aggregate)
  | intersection (weights : Option (List Score)) (agg : Aggregate)
deriving Repr

namespace Combination

def answered (keys : List Bytes) : Combination → Request
  | difference => .difference keys
  | union weights agg => .union keys weights agg
  | intersection weights agg => .intersection keys weights agg

def stored (dest : Bytes) (keys : List Bytes) : Combination → Request
  | difference => .storeDifference dest keys
  | union weights agg => .storeUnion dest keys weights agg
  | intersection weights agg => .storeIntersection dest keys weights agg

def command (keys : List Bytes) : Combination → Command SortedSet
  | difference => Command.difference keys
  | union weights agg => Command.union keys weights agg
  | intersection weights agg => Command.intersection keys weights agg

end Combination

namespace Command

open Keyspace

variable {now : Nat} (c : Combination) (keys : List Bytes)

theorem looks_command : Looks now (c.command keys) := by
  cases c with
  | difference => exact looks_difference keys
  | union weights agg => exact looks_union keys weights agg
  | intersection weights agg => exact looks_intersection keys weights agg

theorem uniform_command : Uniform SortedSet.Twins (c.command keys) (c.command keys) := by
  cases c with
  | difference => exact uniform_difference keys
  | union weights agg => exact uniform_union keys weights agg
  | intersection weights agg => exact uniform_intersection keys weights agg

theorem blind_command {same : Prop} {K : Set Bytes} (hk : ∀ key ∈ keys, key ∈ K) :
    Blind same now K (c.command keys) K := by
  cases c with
  | difference => exact blind_difference hk
  | union weights agg => exact blind_union hk weights agg
  | intersection weights agg => exact blind_intersection hk weights agg

/-- A look at the destination makes no difference to the result, whether it is one of the sources or not. -/
theorem run_command_purged {ks : Keyspace} (h : ks.Sane) (dest : Bytes) :
    ((purgeAll now ks (keys ++ [dest])).run (c.command keys)).1 =
      ((purgeAll now ks keys).run (c.command keys)).1 := by
  have hself : Close False now ∅ ks ks := .refl h
  have hlooked := (blind_checkAll keys ks ks hself).2
  rw [run_checkAll h] at hlooked
  have hclose := close_purgeAll hlooked [dest]
  have happend : purgeAll now (purgeAll now ks keys) [dest] = purgeAll now ks (keys ++ [dest]) :=
    (List.foldl_append ..).symm
  rw [happend] at hclose
  exact (blind_command c keys (fun key hk => .inl hk) _ _ hclose).1

end Command

namespace Keyspace

variable {now : Nat} {ks t : Keyspace} {keys : List Bytes}

theorem handle_answered (c : Combination) : ks.handle now (c.answered keys) =
    ks.run (Reply.entries <$> Command.answer now keys (c.command keys)) := by
  cases c <;> rfl

theorem handle_stored (c : Combination) (dest : Bytes) : ks.handle now (c.stored dest keys) =
    ks.run (Reply.number <$> Command.store now dest keys (c.command keys)) := by
  cases c <;> rfl

theorem run_storeSet (h : t.Sane) (dest : Bytes) (s : SortedSet) : t.run (Command.storeSet dest s) =
    (.ok s.count, if s.isEmpty then t.remove dest else (t.remove dest).place dest (.sortedSet s)) := by
  unfold Command.storeSet
  rw [run_bind_ok (run_discard_ok (run_remove h dest))]
  dsimp only
  cases s.isEmpty with
  | true => rfl
  | false =>
    rw [if_pos (by rfl), run_bind_ok (run_put (h.remove dest) dest _)]
    rfl

/-- The key has no deadline, and its set lists the entries; without entries there is no key. -/
structure Lists (ks : Keyspace) (key : Bytes) (es : List Entry) : Prop where
  absent : es = [] → ks.data.find? key = none
  stored : es ≠ [] → ∃ s, ks.data.find? key = some (.sortedSet s) ∧ s.toList = es ∧
    ∀ m x, s.score? m = some x ↔ ⟨x, m⟩ ∈ es
  record : ks.deadlines.find? key = none

theorem lists_storeSet (h : t.Sane) (dest : Bytes) {s : SortedSet} {b : Board} (hb : s.Tracks b) :
    Lists (t.run (Command.storeSet dest s)).2 dest s.toList ∧
      ∀ key, key ≠ dest → Untouched key t (t.run (Command.storeSet dest s)).2 := by
  obtain ⟨hvalue, hrecord⟩ := gone_remove h dest
  have hempty : s.isEmpty = true ↔ s.toList = [] := by
    rw [hb.isEmpty_eq, List.isEmpty_iff, hb.toList_eq, ← List.length_eq_zero_iff, ← b.length_sorted,
      List.length_eq_zero_iff]
  rw [run_storeSet h]
  by_cases hs : s.isEmpty = true
  · rw [if_pos hs]
    exact ⟨⟨fun _ => hvalue, fun hne => absurd (hempty.mp hs) hne, hrecord⟩, fun key hk => untouched_remove h hk⟩
  · rw [if_neg hs]
    have hset : ((t.remove dest).place dest (.sortedSet s)).data.find? dest = some (.sortedSet s) :=
      find?_place (h.remove dest) dest _
    refine ⟨⟨fun hnil => absurd (hempty.mpr hnil) hs, fun _ => ⟨s, hset, rfl, fun m x => hb.mem_toList.symm⟩,
      hrecord⟩, fun key hk => ?_⟩
    exact (untouched_remove h hk).trans (untouched_place (h.remove dest) hk _)

/-! ## Results -/

theorem answer_run (h : ks.Sane) (hk : keys ≠ []) (c : Combination) : (ks.handle now (c.answered keys)).1 =
    ((Command.purgeAll now ks keys).run (c.command keys)).1.map fun s => .entries s.toList := by
  have hcheck : ks.run (Command.checkOperands now keys []) = (.ok (), Command.purgeAll now ks keys) := by
    rw [Command.run_checkOperands h hk, List.append_nil]
  rw [handle_answered, run_map]
  unfold Command.answer
  rw [run_bind_ok hcheck, run_bind]
  rcases (Command.purgeAll now ks keys).run (c.command keys) with ⟨_ | s, t⟩ <;> rfl

theorem store_run (h : ks.Sane) (hk : keys ≠ []) (c : Combination) (dest : Bytes) :
    ks.handle now (c.stored dest keys) = ((Command.purgeAll now ks (keys ++ [dest])).run
      (Reply.number <$> (c.command keys >>= Command.storeSet dest))) := by
  rw [handle_stored, run_map, run_map]
  unfold Command.store
  rw [run_bind_ok (Command.run_checkOperands h hk [dest])]

theorem tracked_result (h : Parallel ks ks) (hk : keys ≠ []) (c : Combination) (more : List Bytes)
    {s : SortedSet} (hs : ((Command.purgeAll now ks (keys ++ more)).run (c.command keys)).1 = .ok s) :
    ∃ b, s.Tracks b := by
  have hmade : Command.Uniform SortedSet.Twins (Command.checkOperands now keys more >>= fun _ => c.command keys)
      (Command.checkOperands now keys more >>= fun _ => c.command keys) :=
    (Command.uniform_checkOperands keys more).congr fun _ => Command.uniform_command c keys
  have hagree := (hmade ks ks h).1
  rw [run_bind_ok (Command.run_checkOperands h.left hk more), hs] at hagree
  cases hagree with
  | ok htwins =>
    obtain ⟨b, hb, -⟩ := htwins
    exact ⟨b, hb⟩

/-- Where the set is made, the one request answers its entries and the other stores it. -/
theorem stored_of_made (h : Parallel ks ks) (hk : keys ≠ []) (c : Combination) (dest : Bytes) {s : SortedSet}
    (hs : ((Command.purgeAll now ks (keys ++ [dest])).run (c.command keys)).1 = .ok s) :
    (ks.handle now (c.stored dest keys)).1 = .ok (.number s.toList.length) ∧
      Lists (ks.handle now (c.stored dest keys)).2 dest s.toList ∧
      ∀ key, key ≠ dest → ks.due now key = false → Untouched key ks (ks.handle now (c.stored dest keys)).2 := by
  obtain ⟨b, hb⟩ := tracked_result h hk c [dest] hs
  have hchecked : Command.Looks now (Command.checkOperands now keys [dest] >>= fun _ => c.command keys) :=
    (Command.looks_checkOperands keys [dest]).bind fun _ => Command.looks_command c keys
  have hlooks := hchecked ks h.left
  rw [run_bind_ok (Command.run_checkOperands h.left hk [dest])] at hlooks
  rw [store_run h.left hk, run_map]
  rcases hrun : (Command.purgeAll now ks (keys ++ [dest])).run (c.command keys) with ⟨result, t⟩
  rw [hrun] at hs hlooks
  obtain rfl : result = .ok s := hs
  have ht : t.Sane := hlooks.sane h.left
  obtain ⟨hlists, hothers⟩ := lists_storeSet ht dest hb
  rw [run_bind_ok hrun]
  refine ⟨?_, hlists, fun key hne hd => (hlooks.untouched h.left hd).trans (hothers key hne)⟩
  rw [run_storeSet ht, hb.count_eq, hb.toList_eq, Board.length_sorted]
  rfl

theorem refused_without_keys (c : Combination) (dest : Bytes) :
    (ks.handle now (c.answered [])).1 = .error .syntaxError ∧
      (ks.handle now (c.stored dest [])).1 = .error .syntaxError := by
  rw [handle_answered, handle_stored]
  exact ⟨rfl, rfl⟩

theorem failed_alike (h : ks.Sane) (hk : keys ≠ []) (c : Combination) (dest : Bytes) {e : Error}
    (he : ((Command.purgeAll now ks (keys ++ [dest])).run (c.command keys)).1 = .error e) :
    (ks.handle now (c.stored dest keys)).1 = .error e := by
  rw [store_run h hk, run_map, run_bind]
  rcases hrun : (Command.purgeAll now ks (keys ++ [dest])).run (c.command keys) with ⟨result, t⟩
  rw [hrun] at he
  obtain rfl : result = .error e := he
  rfl

/-- Whatever state a keyspace has come to, where a combination is answered with entries, the request to store
it answers their number and leaves the destination with these entries and without a deadline, or not there if
there are none; every other key that is not due is left alone. Where it is answered with an error, so is the
request to store it, and every key that is not due is left alone, the destination among them. -/
theorem stored_as_answered (hreach : Reachable ks) (c : Combination) (keys : List Bytes) (dest : Bytes) :
    let done := ks.handle now (c.stored dest keys)
    (∃ es, (ks.handle now (c.answered keys)).1 = .ok (.entries es) ∧ done.1 = .ok (.number es.length) ∧
      Lists done.2 dest es ∧ ∀ key, key ≠ dest → ks.due now key = false → Untouched key ks done.2) ∨
    ∃ e, (ks.handle now (c.answered keys)).1 = .error e ∧ done.1 = .error e ∧
      ∀ key, ks.due now key = false → Untouched key ks done.2 := by
  intro done
  have herror : ∀ e, done.1 = .error e → ∀ key, ks.due now key = false → Untouched key ks done.2 :=
    fun e he key hd => ((Command.careful_ofRequest _ ks hreach.sane).2 e he).untouched hreach.sane hd
  by_cases hk : keys = []
  · subst hk
    obtain ⟨hplain, hstore⟩ := refused_without_keys c dest
    exact .inr ⟨_, hplain, hstore, herror _ hstore⟩
  · rw [answer_run hreach.sane hk, ← Command.run_command_purged c keys hreach.sane dest]
    cases hs : ((Command.purgeAll now ks (keys ++ [dest])).run (c.command keys)).1 with
    | ok s => exact .inl ⟨s.toList, rfl, stored_of_made hreach.parallel hk c dest hs⟩
    | error e =>
      have hstore : done.1 = .error e := failed_alike hreach.sane hk c dest hs
      exact .inr ⟨e, rfl, hstore, herror e hstore⟩

/-- A set less one that is not there, stored in its own place. -/
theorem stored_as_answered_source :
    let ks := standard.after (.request 0 (.addMembers [1] [⟨.posInf, [2]⟩] {}))
    let keys : List Bytes := [[1], [3]]
    let done := ks.handle 0 (.storeDifference [1] keys)
    Reachable ks ∧ ∃ es, es ≠ [] ∧ (ks.handle 0 (.difference keys)).1 = .ok (.entries es) ∧
      done.1 = .ok (.number es.length) ∧ Lists done.2 [1] es := by
  intro ks keys done
  have hreach : Reachable ks := .step _ (.new _ _)
  obtain ⟨s, hlist, hvalue⟩ := standard_addMembers [1] (show (⟨.posInf, [2]⟩ : Entry).score.isNaN = false by decide)
  have hne : s.toList ≠ [] := hlist ▸ List.cons_ne_nil _ _
  have hset : ∀ key, ks.set? 0 key = if [1] = key then some s else none := fun key => (set?_of_value hvalue key).1
  have hsets : ∀ key ∈ keys, ¬ ks.Clashes 0 key .sortedSet := fun key _ => (set?_of_value hvalue key).2
  have hplain : (ks.handle 0 (.difference keys)).1 = .ok (.entries s.toList) := by
    have hrest : (s.toList.filter fun e => !ks.inSome 0 [[3]] e.member) = s.toList := by simp [inSome, hset]
    have hmakes := makes_difference hreach hsets rfl
    rw [hset, if_pos rfl, Option.elim_some, hrest] at hmakes
    exact hmakes.answer hreach.sane (List.cons_ne_nil _ _)
  rcases stored_as_answered hreach .difference keys [1] with ⟨es, hes, hcount, hlists, -⟩ | ⟨e, he, -⟩
  · obtain rfl : es = s.toList := Reply.entries.inj (Except.ok.inj (hes.symm.trans hplain))
    exact ⟨hreach, s.toList, hne, hes, hcount, hlists⟩
  · cases he.symm.trans hplain

end Keyspace

end KeyEngine
