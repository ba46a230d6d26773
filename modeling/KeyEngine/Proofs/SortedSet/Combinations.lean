import KeyEngine.Proofs.SortedSet.Totals

/-!
# Combined sets

The total of a member is folded over its weighted scores in the order of the sets, whether it is gathered set
by set or looked up member by member. A set that is made of the totals lists them ascending, in whatever order
they are added.
-/

namespace KeyEngine

namespace SortedSet

/-- The weighted scores of a member in the sets that have it, in the order of the sets. -/
def shares (sets : List (SortedSet × Score)) (member : Bytes) : List Score :=
  sets.filterMap fun (s, weight) => (s.score? member).map (·.weighted weight)

/-! ## Lists of entries -/

theorem eq_of_ascending {xs ys : List Entry} (hp : xs.Perm ys) (hx : xs.Pairwise fun a b => a.before b = true)
    (hy : ys.Pairwise fun a b => a.before b = true) : xs = ys := by
  refine hp.eq_of_pairwise (fun a b _ _ hab hba => ?_) hx hy
  have := Entry.before_trans hab hba
  rw [Entry.before_irrefl] at this
  cases this

namespace Tracks

variable {s : SortedSet} {b : Board}

theorem ascending (h : Tracks s b) : s.toList.Pairwise fun a b => a.before b = true := by
  obtain ⟨ids, hwf⟩ := h.order
  rw [h.toList_eq, h.sorted_eq hwf]
  exact ascending_rows hwf

theorem mem_toList (h : Tracks s b) {m : Bytes} {x : Score} : ⟨x, m⟩ ∈ s.toList ↔ s.score? m = some x := by
  rw [h.toList_eq, Board.mem_sorted, h.score?_eq, Board.score?_eq_some]

theorem contains_iff (h : Tracks s b) (m : Bytes) : s.contains m = (s.score? m).isSome := by
  rw [h.contains_eq, h.score?_eq]

theorem members_nodup (h : Tracks s b) : (s.toList.map (·.member)).Nodup := by
  rw [h.toList_eq]
  exact ((List.mergeSort_perm b.rows Entry.le).map _).nodup_iff.mpr b.once

theorem not_mem_toList (h : Tracks s b) {m : Bytes} (hm : s.score? m = none) : m ∉ s.toList.map (·.member) := by
  intro hin
  obtain ⟨e, he, rfl⟩ := List.mem_map.mp hin
  rw [h.mem_toList.mp he] at hm
  cases hm

theorem score?_singleton (h : Tracks s b) {e : Entry} (hs : s.toList = [e]) (m : Bytes) :
    s.score? m = if e.member = m then some e.score else none := by
  by_cases hm : e.member = m
  · subst hm
    rw [if_pos rfl]
    exact h.mem_toList.mp (hs ▸ List.mem_singleton_self e)
  · rw [if_neg hm, Option.eq_none_iff_forall_ne_some]
    intro x hx
    have hmem := h.mem_toList.mpr hx
    rw [hs, List.mem_singleton] at hmem
    exact hm (hmem ▸ rfl)

end Tracks

/-! ## Unions -/

/-- The totals with the share of one more entry. -/
def gather (agg : Aggregate) (weight : Score) (totals : Std.HashMap Bytes Score) (e : Entry) :
    Std.HashMap Bytes Score :=
  totals.insert e.member <| match totals[e.member]? with
    | some total => agg.apply total (e.score.weighted weight)
    | none => e.score.weighted weight

section
variable (agg : Aggregate) (totals : Std.HashMap Bytes Score) (weight : Score)

theorem accumulate_eq (s : SortedSet) :
    accumulate agg totals weight s = s.toList.foldl (gather agg weight) totals :=
  rfl

theorem getElem?_gather (e : Entry) (m : Bytes) : (gather agg weight totals e)[m]? =
    if e.member = m then agg.join totals[m]? (e.score.weighted weight) else totals[m]? := by
  rw [gather, Std.HashMap.getElem?_insert]
  by_cases h : e.member = m
  · subst h
    cases totals[e.member]? <;> simp [Aggregate.join]
  · simp [h]

theorem getElem?_gathered_other {es : List Entry} {m : Bytes} (hm : m ∉ es.map (·.member)) :
    (es.foldl (gather agg weight) totals)[m]? = totals[m]? := by
  induction es generalizing totals with
  | nil => rfl
  | cons e es ih =>
    simp only [List.map_cons, List.mem_cons, not_or] at hm
    rw [List.foldl_cons, ih _ hm.2, getElem?_gather, if_neg (Ne.symm hm.1)]

theorem getElem?_gathered {es : List Entry} {m : Bytes} {x : Score} (hn : (es.map (·.member)).Nodup)
    (hm : ⟨x, m⟩ ∈ es) :
    (es.foldl (gather agg weight) totals)[m]? = agg.join totals[m]? (x.weighted weight) := by
  induction es generalizing totals with
  | nil => cases hm
  | cons e es ih =>
    rw [List.map_cons, List.nodup_cons] at hn
    rw [List.foldl_cons]
    rcases List.mem_cons.mp hm with rfl | hm
    · rw [getElem?_gathered_other _ _ _ hn.1, getElem?_gather, if_pos rfl]
    · have hne : e.member ≠ m := fun he => hn.1 (he ▸ List.mem_map_of_mem hm)
      rw [ih _ hn.2 hm, getElem?_gather, if_neg hne]

theorem Tracks.getElem?_accumulate {s : SortedSet} {b : Board} (h : Tracks s b) (m : Bytes) :
    (accumulate agg totals weight s)[m]? =
      ((s.score? m).map (·.weighted weight)).toList.foldl agg.join totals[m]? := by
  rw [accumulate_eq]
  cases hm : s.score? m with
  | none => exact getElem?_gathered_other agg totals weight (h.not_mem_toList hm)
  | some x => exact getElem?_gathered agg totals weight h.members_nodup (h.mem_toList.mpr hm)

end

/-- Set by set, the totals of a member are folded over the shares of the sets so far. -/
theorem getElem?_totals (agg : Aggregate) {sets : List (SortedSet × Score)} (h : ∀ p ∈ sets, ∃ b, p.1.Tracks b)
    (m : Bytes) (totals : Std.HashMap Bytes Score) :
    (sets.foldl (fun totals (s, weight) => accumulate agg totals weight s) totals)[m]? =
      (shares sets m).foldl agg.join totals[m]? := by
  induction sets generalizing totals with
  | nil => rfl
  | cons p sets ih =>
    obtain ⟨s, weight⟩ := p
    rw [List.forall_mem_cons] at h
    obtain ⟨b, hb⟩ := h.1
    rw [List.foldl_cons, ih h.2, hb.getElem?_accumulate]
    cases hs : s.score? m <;> simp [shares, hs]

theorem mem_unionTotals (agg : Aggregate) {sets : List (SortedSet × Score)} (h : ∀ p ∈ sets, ∃ b, p.1.Tracks b)
    {m : Bytes} {x : Score} : ⟨x, m⟩ ∈ unionTotals agg sets ↔ agg.total (shares sets m) = some x := by
  have hget := getElem?_totals agg h m ∅
  rw [Std.HashMap.getElem?_empty, Aggregate.foldl_join_none] at hget
  rw [← hget, ← Std.HashMap.mem_toList_iff_getElem?_eq_some]
  simp [unionTotals]

theorem unionTotals_nodup (agg : Aggregate) (sets : List (SortedSet × Score)) :
    ((unionTotals agg sets).map (·.member)).Nodup := by
  rw [unionTotals, List.map_map, List.Nodup, List.pairwise_map]
  exact Std.HashMap.distinct_keys_toList.imp fun hab => by simpa using hab

/-! ## Intersections -/

theorem totalOver_eq_some (agg : Aggregate) {m : Bytes} {total x : Score} {sets : List (SortedSet × Score)} :
    totalOver agg m total sets = some x ↔
      (∀ p ∈ sets, (p.1.score? m).isSome) ∧ (shares sets m).foldl agg.apply total = x := by
  induction sets generalizing total with
  | nil => simp [totalOver, shares]
  | cons p sets ih =>
    obtain ⟨s, weight⟩ := p
    cases hs : s.score? m with
    | none => simp [totalOver, hs]
    | some score => simp [totalOver, hs, ih, shares]

theorem mem_interTotals (agg : Aggregate) {sets : List (SortedSet × Score)} (hne : sets ≠ [])
    (h : ∀ p ∈ sets, ∃ b, p.1.Tracks b) {m : Bytes} {x : Score} :
    ⟨x, m⟩ ∈ interTotals agg sets ↔
      (∀ p ∈ sets, (p.1.score? m).isSome) ∧ agg.total (shares sets m) = some x := by
  cases sets with
  | nil => exact absurd rfl hne
  | cons p sets =>
    obtain ⟨s, weight⟩ := p
    obtain ⟨b, hb⟩ := h _ List.mem_cons_self
    have hmem : ⟨x, m⟩ ∈ interTotals agg ((s, weight) :: sets) ↔
        ∃ y, s.score? m = some y ∧ totalOver agg m (y.weighted weight) sets = some x := by
      simp only [interTotals, List.mem_filterMap, Option.map_eq_some_iff, Entry.mk.injEq]
      constructor
      · rintro ⟨e, he, y, hy, rfl, rfl⟩
        exact ⟨e.score, hb.mem_toList.mp he, hy⟩
      · rintro ⟨y, hy, hx⟩
        exact ⟨⟨y, m⟩, hb.mem_toList.mpr hy, x, hx, rfl, rfl⟩
    rw [hmem]
    cases hs : s.score? m with
    | none => simp [hs]
    | some y => simp [hs, totalOver_eq_some, shares, Aggregate.total]

theorem interTotals_nodup (agg : Aggregate) {sets : List (SortedSet × Score)}
    (h : ∀ p ∈ sets, ∃ b, p.1.Tracks b) : ((interTotals agg sets).map (·.member)).Nodup := by
  cases sets with
  | nil => exact List.nodup_nil
  | cons p sets =>
    obtain ⟨b, hb⟩ := h _ List.mem_cons_self
    have hn := hb.members_nodup
    rw [List.Nodup, List.pairwise_map] at hn ⊢
    rw [interTotals, List.pairwise_filterMap]
    refine hn.imp fun hne x hx y hy => ?_
    obtain ⟨-, -, rfl⟩ := Option.map_eq_some_iff.mp hx
    obtain ⟨-, -, rfl⟩ := Option.map_eq_some_iff.mp hy
    exact hne

/-- The intersection has the entries of the union whose members are in every set. -/
theorem filter_perm_interTotals (agg : Aggregate) {sets : List (SortedSet × Score)} (hne : sets ≠ [])
    (h : ∀ p ∈ sets, ∃ b, p.1.Tracks b) {es : List Entry} (hes : es.Perm (unionTotals agg sets))
    {inAll : Bytes → Bool} (hall : ∀ m, inAll m = true ↔ ∀ p ∈ sets, (p.1.score? m).isSome) :
    (es.filter (inAll ·.member)).Perm (interTotals agg sets) := by
  have hnodup : es.Nodup := hes.nodup_iff.mpr (unionTotals_nodup agg sets).of_map
  refine (List.perm_ext_iff_of_nodup (hnodup.filter _) (interTotals_nodup agg h).of_map).mpr fun e => ?_
  rw [List.mem_filter, hes.mem_iff, mem_unionTotals agg h, mem_interTotals agg hne h, hall, and_comm]

/-! ## Sets made of entries -/

theorem rows_foldl_set {es : List Entry} (hn : (es.map (·.member)).Nodup) {b : Board}
    (hb : ∀ e ∈ es, b.score? e.member = none) :
    (es.foldl (fun b e => b.set e.score e.member) b).rows.Perm (es ++ b.rows) := by
  induction es generalizing b with
  | nil => exact .refl _
  | cons e es ih =>
    rw [List.map_cons, List.nodup_cons] at hn
    rw [List.forall_mem_cons] at hb
    refine (ih hn.2 fun x hx => ?_).trans ?_
    · rw [Board.score?_set_none]
      exact ⟨hb.2 x hx, fun hxe => hn.1 (hxe ▸ List.mem_map_of_mem hx)⟩
    · rw [Board.rows_set_new hb.1]
      exact List.perm_middle

/-- Entries of different members, added to an empty set, are what the set lists. -/
theorem add_empty (maxLevel : Nat) (towers : Towers) {es : List Entry} (hn : (es.map (·.member)).Nodup)
    (hes : ∀ e ∈ es, e.score.isNaN = false) :
    ∃ s n, (empty maxLevel towers).add es = (s, .ok n) ∧ (∃ b, s.Tracks b) ∧ s.toList.Perm es := by
  obtain ⟨s, hs, hb⟩ := (Tracks.empty maxLevel towers).add_ok es hes
  refine ⟨s, _, hs, ⟨_, hb⟩, ?_⟩
  rw [hb.toList_eq]
  refine (List.mergeSort_perm _ Entry.le).trans ?_
  simpa [Board.empty] using rows_foldl_set hn (b := .empty) fun e _ => rfl

/-- There is one ascending list of the entries, and a set lists it in whatever order they were added. -/
theorem exists_ascending {es : List Entry} (hn : (es.map (·.member)).Nodup)
    (hes : ∀ e ∈ es, e.score.isNaN = false) :
    ∃ sorted : List Entry, sorted.Perm es ∧ sorted.Pairwise fun a b => a.before b = true := by
  obtain ⟨s, -, -, ⟨b, hb⟩, hp⟩ := add_empty 1 (Towers.seeded 0) hn hes
  exact ⟨s.toList, hp, hb.ascending⟩

theorem add_empty_eq (maxLevel : Nat) (towers : Towers) {sorted es : List Entry}
    (hs : sorted.Pairwise fun a b => a.before b = true) (hp : sorted.Perm es)
    (hn : (es.map (·.member)).Nodup) (hes : ∀ e ∈ es, e.score.isNaN = false) :
    ∃ s n, (empty maxLevel towers).add es = (s, .ok n) ∧ s.toList = sorted := by
  obtain ⟨s, n, hadd, ⟨b, hb⟩, hperm⟩ := add_empty maxLevel towers hn hes
  exact ⟨s, n, hadd, eq_of_ascending (hperm.trans hp.symm) hb.ascending hs⟩

theorem add_walk_eq (maxLevel : Nat) (towers : Towers) {sorted es walk : List Entry}
    (hs : sorted.Pairwise fun a b => a.before b = true) (hp : sorted.Perm es) (hwalk : walk.Perm es)
    (hn : (es.map (·.member)).Nodup) (hes : ∀ e ∈ es, e.score.isNaN = false) :
    ∃ s n, (empty maxLevel towers).add walk = (s, .ok n) ∧ s.toList = sorted :=
  add_empty_eq maxLevel towers hs (hp.trans hwalk.symm) ((hwalk.map _).nodup_iff.mpr hn)
    fun e he => hes e (hwalk.mem_iff.mp he)

end SortedSet

end KeyEngine
