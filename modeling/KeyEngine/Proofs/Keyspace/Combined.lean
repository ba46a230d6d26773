import KeyEngine.Proofs.Keyspace.Frame
import KeyEngine.Proofs.SortedSet.Combinations

/-!
# Union, intersection and difference

The three commands answer what their definitions say of the sets under the keys, one in terms of another.
No answer depends on the order in which totals are walked.
-/

namespace KeyEngine

namespace Keyspace

variable {now : Nat} {ks t : Keyspace} {keys : List Bytes} {key : Bytes}

/-- The set under a key that is not due. -/
def set? (now : Nat) (ks : Keyspace) (key : Bytes) : Option SortedSet :=
  match ks.value now key with
  | some (.sortedSet s) => some s
  | _ => none

/-- The sets under the keys with their weights. Keys without a set are left out. -/
def operands (now : Nat) (ks : Keyspace) (keys : List Bytes) (weights : List Score) :
    List (SortedSet × Score) :=
  (keys.zip weights).filterMap fun (key, weight) => (ks.set? now key).map (·, weight)

/-- The scores of the member in the sets of the keys, in the order of the keys, each with the weight of its key; the
weights are one if none are given. -/
def scored (now : Nat) (ks : Keyspace) (keys : List Bytes) (weights : Option (List Score)) (member : Bytes) :
    List (Score × Score) :=
  (keys.zip (weights.getD (keys.map fun _ => .ofFloat 1))).filterMap fun (key, weight) =>
    ((ks.set? now key).bind (·.score? member)).map (·, weight)

/-- The member is in the set of every key. -/
def inEvery (now : Nat) (ks : Keyspace) (keys : List Bytes) (member : Bytes) : Bool :=
  keys.all fun key => (ks.set? now key).any (·.contains member)

/-- The member is in the set of some key. -/
def inSome (now : Nat) (ks : Keyspace) (keys : List Bytes) (member : Bytes) : Bool :=
  keys.any fun key => (ks.set? now key).any (·.contains member)

theorem setIn_value (h : ¬ ks.Clashes now key .sortedSet) :
    Command.setIn (ks.value now key) = .ok (ks.set? now key) := by
  unfold Clashes at h
  unfold set?
  rcases hv : ks.value now key with _ | _ | s
  · rfl
  · exact absurd ⟨_, hv, nofun⟩ h
  · rfl

theorem Parallel.tracked_set? (h : Parallel ks ks) {s : SortedSet} (hs : ks.set? now key = some s) :
    ∃ b, s.Tracks b := by
  unfold set? at hs
  split at hs
  · rename_i hv
    cases hs
    obtain ⟨b, hb, -⟩ := h.tracked (live_of_value hv).2
    exact ⟨b, hb⟩
  · cases hs

theorem Parallel.tracked_operands (h : Parallel ks ks) (weights : List Score) :
    ∀ p ∈ ks.operands now keys weights, ∃ b, p.1.Tracks b := by
  intro p hp
  obtain ⟨⟨key, weight⟩, -, hmap⟩ := List.mem_filterMap.mp hp
  obtain ⟨s, hs, rfl⟩ := Option.map_eq_some_iff.mp hmap
  exact h.tracked_set? hs

/-! ## Programs -/

theorem run_lookupSets (h : t.Sane) (hk : ∀ key ∈ keys, Command.setIn (t.data.find? key) = .ok (ks.set? now key)) :
    t.run (Command.lookupSets keys) = (.ok (keys.map (ks.set? now)), t) := by
  unfold Command.lookupSets
  induction keys with
  | nil => rfl
  | cons key keys ih =>
    rw [List.forall_mem_cons] at hk
    have hkey : t.run (Command.lookupSet key) = (.ok (ks.set? now key), t) := by
      rw [Command.run_lookupSet h, hk.1]
    rw [List.mapM_cons, run_bind_ok hkey, run_bind_ok (ih hk.2)]
    rfl

/-- The command makes a set that lists the entries. -/
def Makes (t : Keyspace) (c : Command SortedSet) (es : List Entry) : Prop :=
  ∃ s t', t.run c = (.ok s, t') ∧ s.toList = es

theorem makes_setOf (t : Keyspace) {sorted es : List Entry} (hs : sorted.Pairwise fun a b => a.before b = true)
    (hp : sorted.Perm es) (hn : (es.map (·.member)).Nodup) (hes : ∀ e ∈ es, e.score.isNaN = false) :
    Makes t (Command.setOf es) sorted := by
  obtain ⟨s, n, hadd, hlist⟩ := SortedSet.add_empty_eq t.config.maxLevel (t.supply t.made) hs hp hn hes
  refine ⟨s, { t with made := t.made + 1 }, ?_, hlist⟩
  unfold Command.setOf
  rw [run_bind_ok (run_freshSet t), hadd]
  rfl

theorem Makes.answer (h : ks.Sane) (hk : keys ≠ []) {c : Command SortedSet} {es : List Entry}
    (hm : Makes (Command.purgeAll now ks keys) c es) :
    (ks.run (Reply.entries <$> Command.answer now keys c)).1 = .ok (.entries es) := by
  obtain ⟨s, t', hs, rfl⟩ := hm
  have hrun : ks.run (Command.checkOperands now keys []) = (.ok (), Command.purgeAll now ks keys) := by
    rw [Command.run_checkOperands h hk, List.append_nil]
  unfold Command.answer
  rw [run_map, run_bind_ok hrun, run_bind_ok hs]
  rfl

/-! ## Sets looked up -/

theorem all_or_none {α : Type} (found : List (Option α)) :
    (∃ sets, found = sets.map some ∧ found.mapM id = some sets) ∨ none ∈ found ∧ found.mapM id = none := by
  induction found with
  | nil => exact .inl ⟨[], rfl, rfl⟩
  | cons x found ih =>
    rw [List.mapM_cons]
    cases x with
    | none => exact .inr ⟨List.mem_cons_self, rfl⟩
    | some s =>
      rcases ih with ⟨sets, rfl, hsets⟩ | ⟨hnone, hsets⟩
      · exact .inl ⟨s :: sets, rfl, by rw [hsets]; rfl⟩
      · exact .inr ⟨List.mem_cons_of_mem _ hnone, by rw [hsets]; rfl⟩

theorem operands_eq (ks : Keyspace) (keys : List Bytes) (weights : List Score) :
    ((keys.map (ks.set? now)).zip weights).filterMap (fun (s, weight) => s.map (·, weight)) =
      ks.operands now keys weights := by
  rw [List.zip_map_left, List.filterMap_map]
  rfl

theorem products_scored (ks : Keyspace) (keys : List Bytes) (weights : Option (List Score)) (m : Bytes) :
    Aggregate.products (ks.scored now keys weights m) =
      SortedSet.shares (ks.operands now keys (Request.weightsOf keys weights)) m := by
  have hone : (keys.map fun _ => Score.ofFloat 1) = List.replicate keys.length .one := List.map_const'
  unfold Aggregate.products scored SortedSet.shares operands Request.weightsOf
  rw [List.map_filterMap, List.filterMap_filterMap, hone]
  refine List.filterMap_congr fun p _ => ?_
  cases hs : ks.set? now p.1 <;> simp [hs, Function.comp_def]

theorem operands_zip {sets : List SortedSet} (hsets : keys.map (ks.set? now) = sets.map some)
    (weights : List Score) : ks.operands now keys weights = sets.zip weights := by
  rw [← operands_eq, hsets, List.zip_map_left, List.filterMap_map]
  exact List.filterMap_some

theorem inEvery_iff (h : Parallel ks ks) {sets : List SortedSet} (hsets : keys.map (ks.set? now) = sets.map some)
    {weights : List Score} (hw : weights.length = keys.length) (m : Bytes) :
    ks.inEvery now keys m = true ↔ ∀ p ∈ ks.operands now keys weights, (p.1.score? m).isSome := by
  have hlen : sets.length = keys.length := by simpa using (congrArg List.length hsets).symm
  have hevery : ks.inEvery now keys m = sets.all (·.contains m) := by
    have hall := congrArg (List.all · (Option.any (·.contains m))) hsets
    unfold inEvery
    simpa [List.all_map, Function.comp_def] using hall
  rw [hevery, List.all_eq_true, operands_zip hsets]
  have hfst : (sets.zip weights).map Prod.fst = sets := List.map_fst_zip (by omega)
  constructor
  · intro hall p hp
    obtain ⟨b, hb⟩ := h.tracked_operands weights p (operands_zip hsets weights ▸ hp)
    rw [← hb.contains_iff]
    exact hall p.1 (hfst ▸ List.mem_map_of_mem hp)
  · intro hall s hs
    rw [← hfst] at hs
    obtain ⟨p, hp, rfl⟩ := List.mem_map.mp hs
    obtain ⟨b, hb⟩ := h.tracked_operands weights p (operands_zip hsets weights ▸ hp)
    rw [hb.contains_iff]
    exact hall p hp

theorem perm_interTotals (h : Parallel ks ks) (hk : keys ≠ []) {weights : List Score}
    (hw : weights.length = keys.length) {sets : List SortedSet}
    (hsets : keys.map (ks.set? now) = sets.map some) {agg : Aggregate} {es : List Entry}
    (hp : es.Perm (SortedSet.unionTotals agg (ks.operands now keys weights))) :
    (es.filter (ks.inEvery now keys ·.member)).Perm (SortedSet.interTotals agg (ks.operands now keys weights)) := by
  have hne : ks.operands now keys weights ≠ [] := by
    have hpos := List.length_pos_iff.mpr hk
    have hlen : sets.length = keys.length := by simpa using (congrArg List.length hsets).symm
    rw [← List.length_pos_iff, operands_zip hsets, List.length_zip]
    omega
  exact SortedSet.filter_perm_interTotals agg hne (h.tracked_operands weights) hp (inEvery_iff h hsets hw)

/-- Some set has the member just where there is a total. -/
theorem inSome_iff (h : Parallel ks ks) {weights : List Score} (hw : weights.length = keys.length)
    (agg : Aggregate) (m : Bytes) : ks.inSome now keys m = true ↔
      ∃ x, agg.total (SortedSet.shares (ks.operands now keys weights) m) = some x := by
  have hfst : (keys.zip weights).map Prod.fst = keys := List.map_fst_zip (by omega)
  rw [← Option.isSome_iff_exists, Option.isSome_iff_ne_none, Ne, Aggregate.total_eq_none, SortedSet.shares, operands,
    List.filterMap_filterMap, List.filterMap_eq_nil_iff]
  have hzip : ks.inSome now keys m = (keys.zip weights).any fun p => (ks.set? now p.1).any (·.contains m) := by
    unfold inSome
    rw [← hfst, List.any_map, hfst]
    rfl
  rw [hzip, List.any_eq_true]
  push Not
  refine exists_congr fun p => and_congr_right fun _ => ?_
  cases hs : ks.set? now p.1 with
  | none => simp
  | some s =>
    obtain ⟨b, hb⟩ := h.tracked_set? hs
    simp [hb.contains_iff, Option.isSome_iff_ne_none]

theorem not_inEvery (h : none ∈ keys.map (ks.set? now)) (m : Bytes) : ks.inEvery now keys m = false := by
  obtain ⟨key, hkey, hnone⟩ := List.mem_map.mp h
  unfold inEvery
  rw [List.all_eq_false]
  exact ⟨key, hkey, by simp [hnone]⟩

theorem not_inSome (ks : Keyspace) (keys : List Bytes) (m : Bytes) :
    (((keys.map (ks.set? now)).filterMap id).all fun s => !s.contains m) = !ks.inSome now keys m := by
  unfold inSome
  induction keys with
  | nil => rfl
  | cons key keys ih =>
    rw [List.map_cons, List.any_cons, Bool.not_or, ← ih]
    cases ks.set? now key <;> simp

/-! ## Commands -/

section
variable (hreach : Reachable ks) (hsets : ∀ key ∈ keys, ¬ ks.Clashes now key .sortedSet)
include hreach hsets

theorem run_named {named : List Bytes} (hn : ∀ key ∈ named, key ∈ keys) :
    (Command.purgeAll now ks keys).run (Command.lookupSets named) =
      (.ok (named.map (ks.set? now)), Command.purgeAll now ks keys) := by
  refine run_lookupSets (Command.sane_purgeAll hreach.sane keys) fun key hkey => ?_
  rw [Command.find?_purgeAll hreach.sane (hn key hkey)]
  exact setIn_value (hsets key (hn key hkey))

theorem makes_union {weights : Option (List Score)} (hw : Request.Weighs keys weights) {agg : Aggregate}
    {es : List Entry} (hes : es.Pairwise fun a b => a.before b = true)
    (hp : es.Perm (SortedSet.unionTotals agg (ks.operands now keys (Request.weightsOf keys weights)))) :
    Makes (Command.purgeAll now ks keys) (Command.union keys weights agg) es := by
  unfold Makes Command.union
  rw [run_bind_ok (Command.run_weightsFor _ hw), run_bind_ok (run_named hreach hsets fun _ h => h), operands_eq]
  exact makes_setOf _ hes hp (SortedSet.unionTotals_nodup _ _) (SortedSet.number_unionTotals _ _)

theorem makes_intersection (hk : keys ≠ []) {weights : Option (List Score)} (hw : Request.Weighs keys weights)
    {agg : Aggregate} {es : List Entry} (hes : es.Pairwise fun a b => a.before b = true)
    (hp : es.Perm (SortedSet.unionTotals agg (ks.operands now keys (Request.weightsOf keys weights)))) :
    Makes (Command.purgeAll now ks keys) (Command.intersection keys weights agg)
      (es.filter (ks.inEvery now keys ·.member)) := by
  have hasc : (es.filter (ks.inEvery now keys ·.member)).Pairwise fun a b => a.before b = true := hes.filter _
  unfold Makes Command.intersection
  rw [run_bind_ok (Command.run_weightsFor _ hw), run_bind_ok (run_named hreach hsets fun _ h => h)]
  rcases all_or_none (keys.map (ks.set? now)) with ⟨sets, hfound, hall⟩ | ⟨hnone, hall⟩
  · have hperm := perm_interTotals hreach.parallel hk hw.length_eq hfound hp
    rw [hall]
    dsimp only
    rw [← operands_zip hfound]
    refine makes_setOf _ hasc hperm (SortedSet.interTotals_nodup agg ?_) (SortedSet.number_interTotals agg _)
    exact hreach.parallel.tracked_operands _
  · have hnil : es.filter (ks.inEvery now keys ·.member) = [] := by simp [not_inEvery hnone]
    rw [hall, hnil]
    exact makes_setOf _ .nil (.refl _) List.nodup_nil (List.forall_mem_nil _)

theorem makes_difference {first : Bytes} {rest : List Bytes} (hkeys : keys = first :: rest) :
    Makes (Command.purgeAll now ks keys) (Command.difference keys)
      (((ks.set? now first).elim [] (·.toList)).filter fun e => !ks.inSome now rest e.member) := by
  have hfirst : (Command.purgeAll now ks keys).run (Command.lookupSet first) =
      (.ok (ks.set? now first), Command.purgeAll now ks keys) := by
    have hmem : first ∈ keys := by simp [hkeys]
    rw [Command.run_lookupSet (Command.sane_purgeAll hreach.sane keys), Command.find?_purgeAll hreach.sane hmem,
      setIn_value (hsets first hmem)]
  have hnamed : ∀ key ∈ rest, key ∈ keys := fun key hkey => hkeys ▸ List.mem_cons_of_mem first hkey
  have hrest := run_named hreach hsets hnamed
  unfold Makes
  rw [hkeys] at hfirst hrest ⊢
  unfold Command.difference
  rw [run_bind_ok hfirst]
  cases hs : ks.set? now first with
  | none => exact makes_setOf _ .nil (.refl _) List.nodup_nil (List.forall_mem_nil _)
  | some s =>
    obtain ⟨b, hb⟩ := hreach.parallel.tracked_set? hs
    dsimp only
    rw [run_bind_ok hrest]
    have hwithout : s.without ((rest.map (ks.set? now)).filterMap id) =
        s.toList.filter fun e => !ks.inSome now rest e.member :=
      List.filter_congr fun e _ => not_inSome ks rest e.member
    rw [hwithout]
    exact makes_setOf _ (hb.ascending.filter _) (.refl _)
      (hb.members_nodup.sublist (List.filter_sublist.map _)) fun e he => hb.number_of_mem (List.mem_filter.mp he).1

end

/-- What the commands on the keys answer: the union by its definition, the others from it and from the sets. -/
structure Combined (now : Nat) (ks : Keyspace) (keys : List Bytes) (weights : Option (List Score))
    (agg : Aggregate) (es : List Entry) : Prop where
  union : (ks.handle now (.union keys weights agg)).1 = .ok (.entries es)
  ascending : es.Pairwise fun a b => a.before b = true
  once : (es.map (·.member)).Nodup
  members : ∀ m, m ∈ es.map (·.member) ↔ ks.inSome now keys m = true
  /-- The score is the total of the products of scores and weights, in the order of the keys. -/
  totals : ∀ e, e ∈ es ↔ agg.Totals (ks.scored now keys weights e.member) e.score
  intersection : (ks.handle now (.intersection keys weights agg)).1 =
    .ok (.entries (es.filter (ks.inEvery now keys ·.member)))
  difference : ∀ first rest, keys = first :: rest → (ks.handle now (.difference keys)).1 =
    .ok (.entries (((ks.set? now first).elim [] (·.toList)).filter fun e => !ks.inSome now rest e.member))
  /-- Totals added in any other order, with any heights, make a set that lists the same. -/
  unionWalk : ∀ walk maxLevel towers,
    walk.Perm (SortedSet.unionTotals agg (ks.operands now keys (Request.weightsOf keys weights))) →
    ∃ s n, (SortedSet.empty maxLevel towers).add walk = (s, .ok n) ∧ s.toList = es
  intersectionWalk : (∀ key ∈ keys, (ks.set? now key).isSome) → ∀ walk maxLevel towers,
    walk.Perm (SortedSet.interTotals agg (ks.operands now keys (Request.weightsOf keys weights))) →
    ∃ s n, (SortedSet.empty maxLevel towers).add walk = (s, .ok n) ∧
      s.toList = es.filter (ks.inEvery now keys ·.member)

/-- Whatever state a keyspace has come to, of keys without strings a union answers each member of some set
once, ascending, with its total; an intersection answers the entries of the union whose members are in every
set, and a difference those of the first set whose members are in no other. -/
theorem handle_combined (hreach : Reachable ks) (hk : keys ≠ [])
    (hsets : ∀ key ∈ keys, ¬ ks.Clashes now key .sortedSet) {weights : Option (List Score)}
    (hw : Request.Weighs keys weights) (agg : Aggregate) : ∃ es, Combined now ks keys weights agg es := by
  have h := hreach.parallel
  have htracked : ∀ p ∈ ks.operands now keys (Request.weightsOf keys weights), ∃ b, p.1.Tracks b :=
    h.tracked_operands _
  have hunion := SortedSet.unionTotals_nodup agg (ks.operands now keys (Request.weightsOf keys weights))
  have hnumber := SortedSet.number_unionTotals agg (ks.operands now keys (Request.weightsOf keys weights))
  obtain ⟨es, hp, hes⟩ := SortedSet.exists_ascending hunion hnumber
  have hmem : ∀ e, e ∈ es ↔ agg.total
      (SortedSet.shares (ks.operands now keys (Request.weightsOf keys weights)) e.member) = some e.score := by
    intro e
    rw [hp.mem_iff, SortedSet.mem_unionTotals agg htracked]
  refine ⟨es, ?_, hes, (hp.map _).nodup_iff.mpr hunion, fun m => ?_, fun e => ?_, ?_, fun first rest hkeys => ?_,
    fun walk maxLevel towers hwalk => ?_, fun hall walk maxLevel towers hwalk => ?_⟩
  · exact (makes_union hreach hsets hw hes hp).answer hreach.sane hk
  · rw [inSome_iff h hw.length_eq agg, List.mem_map]
    constructor
    · rintro ⟨e, he, rfl⟩
      exact ⟨e.score, (hmem e).mp he⟩
    · rintro ⟨x, hx⟩
      exact ⟨⟨x, m⟩, (hmem ⟨x, m⟩).mpr hx, rfl⟩
  · rw [hmem, Aggregate.totals_iff, products_scored]
  · exact (makes_intersection hreach hsets hk hw hes hp).answer hreach.sane hk
  · exact (makes_difference hreach hsets hkeys).answer hreach.sane hk
  · exact SortedSet.add_walk_eq maxLevel towers hes hp hwalk hunion hnumber
  · rcases all_or_none (keys.map (ks.set? now)) with ⟨found, hfound, -⟩ | ⟨hnone, -⟩
    · have hperm := perm_interTotals h hk hw.length_eq hfound hp
      exact SortedSet.add_walk_eq maxLevel towers (hes.filter _) hperm hwalk
        (SortedSet.interTotals_nodup agg htracked) (SortedSet.number_interTotals agg _)
    · obtain ⟨key, hkey, hset⟩ := List.mem_map.mp hnone
      have := hall key hkey
      rw [hset] at this
      cases this

/-- One set under one key. -/
theorem standard_addMembers (key : Bytes) {e : Entry} (he : e.score.isNaN = false) :
    ∃ s, s.toList = [e] ∧ ∀ other, (standard.after (.request 0 (.addMembers key [e] {}))).value 0 other =
      if key = other then some (.sortedSet s) else none := by
  have hs : standard.Sane := sane_new _ _
  have hmade : Keyspace.Sane { standard with made := standard.made + 1 } := hs.make
  have hd : ∀ k, standard.due 0 k = false := fun k => Close.due_of_absent (Store.find?_empty _ _)
  obtain ⟨s, hlist, hafter⟩ := handle_addMembers hs (hd key) (Store.find?_empty _ _) he
  refine ⟨s, hlist, fun other => ?_⟩
  show Keyspace.value 0 (standard.handle 0 (.addMembers key [e] {})).2 other = _
  rw [hafter]
  by_cases hk : key = other
  · subst hk
    rw [if_pos rfl, value, if_neg]
    · exact find?_place hmade key _
    · exact Bool.eq_false_iff.mp (hd key)
  · rw [if_neg hk, (SameBut.place hmade key _).value 0 (Ne.symm hk), value, if_neg]
    · exact Store.find?_empty _ _
    · exact Bool.eq_false_iff.mp (hd other)

theorem set?_of_value {s : SortedSet}
    (h : ∀ other, ks.value now other = if key = other then some (.sortedSet s) else none) (other : Bytes) :
    ks.set? now other = (if key = other then some s else none) ∧ ¬ ks.Clashes now other .sortedSet := by
  unfold set? Clashes
  rw [h]
  by_cases hk : key = other <;> simp [hk, Value.kind]

/-- A set twice, with two weights, and a key without one: the member gets three times two and three times four. -/
theorem handle_combined_twice :
    let ks := standard.after (.request 0 (.addMembers [1] [⟨.ofFloat 3, [2]⟩] {}))
    let keys : List Bytes := [[1], [1], [3]]
    let weights : Option (List Score) := some [.ofFloat 2, .ofFloat 4, .negInf]
    Reachable ks ∧ keys ≠ [] ∧ (∀ key ∈ keys, ¬ ks.Clashes 0 key .sortedSet) ∧ Request.Weighs keys weights ∧
      (ks.handle 0 (.union keys weights .sum)).1 = .ok (.entries [⟨.ofFloat 18, [2]⟩]) ∧
      (ks.handle 0 (.intersection keys weights .sum)).1 = .ok (.entries []) := by
  intro ks keys weights
  have hreach : Reachable ks := .step _ (.new _ _)
  obtain ⟨s, hlist, hvalue⟩ := standard_addMembers [1] (show (⟨.ofFloat 3, [2]⟩ : Entry).score.isNaN = false by decide)
  have hset : ∀ key, ks.set? 0 key = if [1] = key then some s else none := fun key => (set?_of_value hvalue key).1
  have hsets : ∀ key ∈ keys, ¬ ks.Clashes 0 key .sortedSet := fun key _ => (set?_of_value hvalue key).2
  have hw : Request.Weighs keys weights := by
    intro ws hws
    obtain rfl := Option.some.inj hws
    exact ⟨rfl, by decide⟩
  have hk : keys ≠ [] := List.cons_ne_nil _ _
  obtain ⟨es, hes⟩ := handle_combined hreach hk hsets hw .sum
  obtain ⟨b, hb⟩ := hreach.parallel.tracked_set? (hset [1])
  have hscore := hb.score?_singleton hlist
  have hscored : ∀ m, ks.scored 0 keys weights m =
      if [2] = m then [(.ofFloat 3, .ofFloat 2), (.ofFloat 3, .ofFloat 4)] else [] := by
    intro m
    by_cases hm : [2] = m <;> simp [scored, keys, weights, hset, hscore, hm]
  have hmem : ∀ e, e ∈ es ↔ e ∈ [(⟨.ofFloat 18, [2]⟩ : Entry)] := by
    intro e
    rw [hes.totals, Aggregate.totals_iff, hscored, List.mem_singleton]
    obtain ⟨x, m⟩ := e
    by_cases hm : [2] = m
    · have htotal : Aggregate.total .sum (Aggregate.products [(.ofFloat 3, .ofFloat 2), (.ofFloat 3, .ofFloat 4)]) =
          some (.ofFloat 18) := by decide +kernel
      simp [hm, htotal, eq_comm]
    · simp [hm, Ne.symm hm, Aggregate.products, Aggregate.total]
  have hlisted : es = [⟨.ofFloat 18, [2]⟩] :=
    List.perm_singleton.mp ((List.perm_ext_iff_of_nodup hes.once.of_map (List.nodup_singleton _)).mpr hmem)
  refine ⟨hreach, hk, hsets, hw, hlisted ▸ hes.union, ?_⟩
  rw [hes.intersection]
  simp [inEvery, keys, hset]

end Keyspace

end KeyEngine
