import KeyEngine.Proofs.SkipList.Queries

/-!
# Ranges of scores

The scores that a bound admits are an end of the list, so the nodes in a range of scores are neighbours.
-/

namespace KeyEngine

/-! ## Bounds along the order -/

section
variable {a b : Entry} (h : a.before b = true)
include h

theorem Bound.admitsFromBelow_of_before {s : Bound} (ha : s.admitsFromBelow a.score = true) :
    s.admitsFromBelow b.score = true := by
  rw [Entry.before_iff] at h
  cases s with
  | inclusive s =>
    simp only [admitsFromBelow, Score.le_iff, Score.lt_iff, Score.same_iff] at *
    rcases h with h | ⟨h, -⟩ <;> exact ⟨ha.1, h.2.1, by omega⟩
  | exclusive s =>
    simp only [admitsFromBelow, Score.lt_iff, Score.same_iff] at *
    rcases h with h | ⟨h, -⟩ <;> exact ⟨ha.1, h.2.1, by omega⟩
  | bottom => rfl
  | top => exact ha

theorem Bound.admitsFromAbove_of_before {s : Bound} (hb : s.admitsFromAbove b.score = true) :
    s.admitsFromAbove a.score = true := by
  rw [Entry.before_iff] at h
  cases s with
  | inclusive s =>
    simp only [admitsFromAbove, Score.le_iff, Score.lt_iff, Score.same_iff] at *
    rcases h with h | ⟨h, -⟩ <;> exact ⟨h.1, hb.2.1, by omega⟩
  | exclusive s =>
    simp only [admitsFromAbove, Score.lt_iff, Score.same_iff] at *
    rcases h with h | ⟨h, -⟩ <;> exact ⟨h.1, hb.2.1, by omega⟩
  | bottom => exact hb
  | top => rfl

end

theorem ScoreRange.not_contains_of_isEmpty {r : ScoreRange} (h : r.isEmpty = true) (x : Score) :
    r.contains x = false := by
  by_contra hx
  obtain ⟨lo, hi⟩ := r
  cases lo <;> cases hi <;>
    simp [isEmpty, contains, Bound.admitsFromBelow, Bound.admitsFromAbove, Score.le_iff, Score.lt_iff] at h hx <;>
    omega

namespace SkipList

namespace WellFormed

variable {l : SkipList} {ids : List Nat}

/-- If the ends and the outermost scores exclude each other, the range contains no score of the list. -/
theorem overlaps_ok (h : WellFormed l ids) (r : ScoreRange) : ∃ b, l.overlaps r = .ok b ∧
    (b = false → ∀ id e, l.entry? id = some e → r.contains e.score = false) := by
  unfold overlaps
  by_cases hr : r.isEmpty = true
  · exact ⟨false, by rw [if_pos hr]; rfl, fun _ _ e _ => ScoreRange.not_contains_of_isEmpty hr e.score⟩
  rw [if_neg hr, h.first_eq, last, h.tail]
  rcases List.eq_nil_or_concat ids with rfl | ⟨init, z, hz⟩
  · exact ⟨false, rfl, fun _ id e he => absurd (h.mem_of_entry he) (by simp)⟩
  rw [List.concat_eq_append] at hz
  obtain ⟨a, rest, ha⟩ := List.exists_cons_of_ne_nil (show ids ≠ [] by simp [hz])
  obtain ⟨lo, hlo⟩ := h.exists_node a (by simp [ha])
  obtain ⟨hi, hhi⟩ := h.exists_node z (by simp [hz])
  have hlast : ids.getLast? = some z := by rw [hz, List.getLast?_concat]
  rw [hlast, ha, List.head?_cons]
  simp only [node_of_node? hlo, node_of_node? hhi, ok_bind]
  refine ⟨_, rfl, fun hb id e he => ?_⟩
  have hid := h.mem_of_entry he
  by_contra hc
  rw [Bool.not_eq_false, ScoreRange.contains, Bool.and_eq_true] at hc
  -- the first node is not past the upper end, as one behind it is not
  have hlow : r.isAbove lo.entry.score = false := by
    have hasc : Ascending l.entry? ([] ++ a :: rest) := ha ▸ h.ascending
    rw [ha] at hid
    rw [ScoreRange.isAbove, Bool.not_eq_false']
    rcases List.mem_cons.mp hid with rfl | hid
    · cases (entry_of_node hlo).symm.trans he
      exact hc.2
    · exact Bound.admitsFromAbove_of_before ((hasc.middle (entry_of_node hlo)).2.2 id hid e he) hc.2
  have hhigh : r.min.admitsFromBelow hi.entry.score = true := by
    have hasc : Ascending l.entry? (init ++ z :: []) := hz ▸ h.ascending
    rw [hz] at hid
    rcases List.mem_append.mp hid with hid | hid
    · exact Bound.admitsFromBelow_of_before ((hasc.middle (entry_of_node hhi)).2.1 id hid e he) hc.1
    · cases List.mem_singleton.mp hid
      cases (entry_of_node hhi).symm.trans he
      exact hc.1
  rw [hlow, hhigh] at hb
  cases hb

/-- The nodes before the run are below the range, those of the run in it and those behind it above. -/
theorem split_range (h : WellFormed l ids) (r : ScoreRange) : ∃ xs run ys, ids = xs ++ (run ++ ys) ∧
    (∀ id ∈ xs, ∀ e, l.entry? id = some e → r.min.admitsFromBelow e.score = false) ∧
    (∀ id ∈ run ++ ys, ∀ e, l.entry? id = some e → r.min.admitsFromBelow e.score = true) ∧
    (∀ id ∈ run, ∀ e, l.entry? id = some e → r.max.admitsFromAbove e.score = true) ∧
    ∀ id ∈ ys, ∀ e, l.entry? id = some e → r.max.admitsFromAbove e.score = false := by
  obtain ⟨xs, rest, rfl, hxs, hrest⟩ := h.ascending.parts (fun e => !r.min.admitsFromBelow e.score)
    fun a b hab hpb => by
      by_contra hpa
      simp only [Bool.not_eq_true', Bool.not_eq_false] at hpb hpa
      rw [Bound.admitsFromBelow_of_before hab hpa] at hpb
      cases hpb
  have hasc : Ascending l.entry? rest := (List.pairwise_append.mp h.ascending).2.1
  obtain ⟨run, ys, rfl, hrun, hys⟩ := hasc.parts (fun e => r.max.admitsFromAbove e.score)
    fun a b hab hpb => Bound.admitsFromAbove_of_before hab hpb
  simp only [Bool.not_eq_true', Bool.not_eq_false'] at hxs hrest
  exact ⟨xs, run, ys, rfl, hxs, hrest, hrun, hys⟩

theorem takeWhile_notAbove {r : ScoreRange} {run ys : List Nat}
    (hlive : ∀ id ∈ run ++ ys, ∃ n, l.node? id = some n)
    (hrun : ∀ id ∈ run, ∀ e, l.entry? id = some e → r.max.admitsFromAbove e.score = true)
    (hys : ∀ id ∈ ys, ∀ e, l.entry? id = some e → r.max.admitsFromAbove e.score = false) :
    (run ++ ys).takeWhile (fun id => (l.node? id).any (notAbove r)) = run := by
  have hin : ∀ id ∈ run, (l.node? id).any (notAbove r) = true := fun id hid => by
    obtain ⟨n, hn⟩ := hlive id (List.mem_append_left _ hid)
    have hn' := hrun id hid _ (entry_of_node hn)
    simp [hn, notAbove, ScoreRange.isAbove, hn']
  rw [List.takeWhile_append_of_pos hin]
  cases ys with
  | nil => simp
  | cons y ys =>
    obtain ⟨n, hn⟩ := hlive y (by simp)
    have hn' := hys y (by simp) _ (entry_of_node hn)
    simp [hn, notAbove, ScoreRange.isAbove, hn']

theorem parts_belowRange {r : ScoreRange} {xs rest : List Nat}
    (hxs : ∀ id ∈ xs, ∀ e, l.entry? id = some e → r.min.admitsFromBelow e.score = false)
    (hrest : ∀ id ∈ rest, ∀ e, l.entry? id = some e → r.min.admitsFromBelow e.score = true) :
    Parts l (fun _ _ node => belowRange r node) xs rest :=
  parts_of_entries (p := fun e => !r.min.admitsFromBelow e.score)
    (fun id hid e he => by simp [hxs id hid e he]) fun id hid e he => by simp [hrest id hid e he]

theorem mem_run_iff {r : ScoreRange} {xs run ys : List Nat} (h : WellFormed l (xs ++ (run ++ ys)))
    (hxs : ∀ id ∈ xs, ∀ e, l.entry? id = some e → r.min.admitsFromBelow e.score = false)
    (hrest : ∀ id ∈ run ++ ys, ∀ e, l.entry? id = some e → r.min.admitsFromBelow e.score = true)
    (hrun : ∀ id ∈ run, ∀ e, l.entry? id = some e → r.max.admitsFromAbove e.score = true)
    (hys : ∀ id ∈ ys, ∀ e, l.entry? id = some e → r.max.admitsFromAbove e.score = false)
    {id : Nat} {e : Entry} (he : l.entry? id = some e) : id ∈ run ↔ r.contains e.score = true := by
  rw [ScoreRange.contains, Bool.and_eq_true]
  constructor
  · exact fun hid => ⟨hrest id (List.mem_append_left _ hid) e he, hrun id hid e he⟩
  · rintro ⟨hmin, hmax⟩
    rcases List.mem_append.mp (h.mem_of_entry he) with hid | hid
    · rw [hxs id hid e he] at hmin
      cases hmin
    · rcases List.mem_append.mp hid with hid | hid
      · exact hid
      · rw [hys id hid e he] at hmax
        cases hmax

/-- The nodes whose score lies in the range are neighbours. -/
theorem scoreRange_ok (h : WellFormed l ids) (r : ScoreRange) : ∃ xs run ys, ids = xs ++ run ++ ys ∧
    l.scoreRange r = .ok run ∧
    ∀ id e, l.entry? id = some e → (id ∈ run ↔ r.contains e.score = true) := by
  obtain ⟨b, hb, hnone⟩ := h.overlaps_ok r
  unfold scoreRange
  rw [hb, ok_bind]
  cases b with
  | false =>
    refine ⟨ids, [], [], by simp, rfl, fun id e he => ?_⟩
    rw [hnone rfl id e he]
    simp
  | true =>
    rw [if_pos rfl]
    obtain ⟨xs, run, ys, rfl, hxs, hrest, hrun, hys⟩ := h.split_range r
    have htake := takeWhile_notAbove (fun id hid => h.exists_node id (List.mem_append_right _ hid)) hrun hys
    have hlen : run.length ≤ l.nodes.size := by
      have := h.length_le
      simp only [List.length_append] at this
      omega
    refine ⟨xs, run, ys, by rw [List.append_assoc], ?_, fun id e he => mem_run_iff h hxs hrest hrun hys he⟩
    rw [h.seek_eq (parts_belowRange hxs hrest), ok_bind, target_linkTo_zero h.toLinked,
      Linked.follow_eq _ _ _ _ h.toLinked, htake, List.take_of_length_le hlen]

/-- The nodes not above a range end where its run ends, or somewhere before the range if the run is empty. -/
theorem length_notAbove {r : ScoreRange} {us vs xs run ys : List Nat}
    (h : WellFormed l (us ++ vs)) (hids : us ++ vs = xs ++ run ++ ys)
    (hus : ∀ id ∈ us, ∀ e, l.entry? id = some e → r.max.admitsFromAbove e.score = true)
    (hvs : ∀ id ∈ vs, ∀ e, l.entry? id = some e → r.max.admitsFromAbove e.score = false)
    (hrun : ∀ id ∈ run, ∀ e, l.entry? id = some e → r.max.admitsFromAbove e.score = true)
    (hys : ∀ id ∈ ys, ∀ e, l.entry? id = some e → r.max.admitsFromAbove e.score = false) :
    us.length ≤ xs.length + run.length ∧ (run ≠ [] → us.length = xs.length + run.length) := by
  have hcross : ∀ id ∈ us ++ vs, (∀ e, l.entry? id = some e → r.max.admitsFromAbove e.score = true) →
      (∀ e, l.entry? id = some e → r.max.admitsFromAbove e.score = false) → False := by
    intro id hid ht hf
    obtain ⟨n, hn⟩ := h.exists_node id hid
    have := hf _ (entry_of_node hn)
    rw [ht _ (entry_of_node hn)] at this
    cases this
  rcases List.append_eq_append_iff.mp hids with ⟨as, has, hvs'⟩ | ⟨bs, hbs, hys'⟩
  · have hlen := congrArg List.length has
    simp only [List.length_append] at hlen
    refine ⟨by omega, fun hne => ?_⟩
    rcases List.eq_nil_or_concat as with rfl | ⟨init, z, hz⟩
    · simpa using hlen.symm
    · -- the last node of the run would be among those above the range
      exfalso
      rw [List.concat_eq_append] at hz
      obtain ⟨front, y, hy⟩ := List.eq_nil_or_concat run |>.resolve_left hne
      rw [List.concat_eq_append] at hy
      have hlast : y = z := by
        have := congrArg List.getLast? has
        rw [hy, hz, ← List.append_assoc, ← List.append_assoc, List.getLast?_concat, List.getLast?_concat] at this
        exact Option.some.inj this
      have hzvs : z ∈ vs := by rw [hvs', hz]; simp
      exact hcross z (List.mem_append_right _ hzvs) (hrun z (by rw [hy, hlast]; simp)) (hvs z hzvs)
  · cases bs with
    | nil => simp [hbs]
    | cons y bs =>
      have hy : y ∈ us := by rw [hbs]; simp
      exact (hcross y (List.mem_append_left _ hy) (hus y hy) (hys y (by rw [hys']; simp))).elim

/-- The ranks of the first and the last node whose score lies in the range, if there are such nodes. -/
theorem rankBounds_ok (h : WellFormed l ids) (r : ScoreRange) : ∃ xs run ys, ids = xs ++ run ++ ys ∧
    l.rankBounds r = .ok (if run = [] then none else some (xs.length + 1, xs.length + run.length)) ∧
    ∀ id e, l.entry? id = some e → (id ∈ run ↔ r.contains e.score = true) := by
  obtain ⟨b, hb, hnone⟩ := h.overlaps_ok r
  unfold rankBounds
  rw [hb, ok_bind]
  cases b with
  | false =>
    refine ⟨ids, [], [], by simp, rfl, fun id e he => ?_⟩
    rw [hnone rfl id e he]
    simp
  | true =>
    rw [if_pos rfl]
    obtain ⟨xs, run, ys, rfl, hxs, hrest, hrun, hys⟩ := h.split_range r
    obtain ⟨us, vs, hids, hus, hvs⟩ := h.ascending.parts (fun e => r.max.admitsFromAbove e.score)
      fun a b hab hpb => Bound.admitsFromAbove_of_before hab hpb
    have hparts : Parts l (fun _ _ node => notAbove r node) us vs :=
      parts_of_entries (p := fun e => !r.isAbove e.score)
        (fun id hid e he => by simp [ScoreRange.isAbove, hus id hid e he])
        fun id hid e he => by simp [ScoreRange.isAbove, hvs id hid e he]
    have h' : WellFormed l (us ++ vs) := hids ▸ h
    obtain ⟨hle, heq⟩ := length_notAbove h' (hids.symm.trans (List.append_assoc _ _ _).symm) hus hvs hrun hys
    refine ⟨xs, run, ys, by rw [List.append_assoc], ?_, fun id e he => mem_run_iff h hxs hrest hrun hys he⟩
    simp only [h.seek_eq (parts_belowRange hxs hrest), h'.seek_eq hparts, ok_bind]
    by_cases hne : run = []
    · rw [hne, List.length_nil, Nat.add_zero] at hle
      rw [if_pos hne, if_neg (by omega)]
      rfl
    · have hpos := List.length_pos_iff.mpr hne
      rw [if_neg hne, heq hne, if_pos (by omega)]
      rfl

end WellFormed

end SkipList

end KeyEngine
