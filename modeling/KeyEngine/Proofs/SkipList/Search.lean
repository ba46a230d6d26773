import KeyEngine.Proofs.SkipList.Links

/-!
# What a search finds

A search whose test holds of the first nodes of a list and of none of the others stops, on each level,
behind the last tall node among the first. So a search does not depend on the way it takes.
-/

namespace KeyEngine.SkipList

/-! ## The stops of a search -/

/-- The nodes up to the last one that is tall on the level. -/
def passed (l : SkipList) (i : Nat) (ids : List Nat) : List Nat :=
  ids.rdropWhile fun id => !l.tall i id

def skipped (l : SkipList) (i : Nat) (ids : List Nat) : List Nat :=
  ids.rtakeWhile fun id => !l.tall i id

section
variable {l : SkipList} {i : Nat}

theorem passed_append_skipped (l : SkipList) (i : Nat) (ids : List Nat) :
    l.passed i ids ++ l.skipped i ids = ids :=
  List.rdropWhile_append_rtakeWhile

theorem tall_skipped {ids : List Nat} {id : Nat} (h : id ∈ l.skipped i ids) : l.tall i id = false := by
  simpa using List.mem_rtakeWhile_imp h

theorem length_passed_le (l : SkipList) (i : Nat) (ids : List Nat) :
    (l.passed i ids).length + (l.skipped i ids).length = ids.length := by
  rw [← List.length_append, passed_append_skipped]

theorem passed_nil_of {ids : List Nat} (h : ∀ x ∈ ids, l.tall i x = false) : l.passed i ids = [] :=
  List.rdropWhile_eq_nil_iff.mpr fun x hx => by simp [h x hx]

theorem passed_concat {ids : List Nat} {id : Nat} (h : l.tall i id = true) :
    l.passed i (ids ++ [id]) = ids ++ [id] :=
  List.rdropWhile_concat_neg _ _ _ (by simp [h])

theorem skipped_of_reach {pre : List Nat} (h : i < l.reach (.after pre)) : l.skipped i pre = [] := by
  rw [skipped, List.rtakeWhile_eq_nil_iff]
  intro hne
  obtain ⟨xs, x, rfl⟩ := List.eq_nil_or_concat pre |>.resolve_left hne
  simp only [List.concat_eq_append, Place.after_concat, reach] at h
  simp [tall, h]

theorem passed_of_reach {pre : List Nat} (h : i < l.reach (.after pre)) : l.passed i pre = pre := by
  simpa [skipped_of_reach h] using passed_append_skipped l i pre

theorem passed_append {pre : List Nat} (h : i < l.reach (.after pre)) (ids : List Nat) :
    l.passed i (pre ++ ids) = pre ++ l.passed i ids := by
  induction ids using List.reverseRecOn with
  | nil =>
    rw [List.append_nil, passed_of_reach h]
    simp [passed]
  | append_singleton ids id ih =>
    by_cases hid : l.tall i id = true
    · rw [passed_concat hid, ← List.append_assoc, passed_concat hid]
    · rw [← List.append_assoc]
      simp only [passed] at *
      rw [List.rdropWhile_concat_pos _ _ _ (by simp [hid]), List.rdropWhile_concat_pos _ _ _ (by simp [hid]), ih]

theorem skipped_append {pre : List Nat} (h : i < l.reach (.after pre)) (ids : List Nat) :
    l.skipped i (pre ++ ids) = l.skipped i ids := by
  have h₁ := passed_append_skipped l i (pre ++ ids)
  rw [passed_append h, List.append_assoc, List.append_cancel_left_eq] at h₁
  exact List.append_cancel_left (h₁.trans (passed_append_skipped l i ids).symm)

theorem lt_reach_passed (hi : i < l.level) (ids : List Nat) :
    i < l.reach (.after (l.passed i ids)) := by
  by_cases hne : l.passed i ids = []
  · rw [hne]; exact hi
  · have hlast := List.rdropWhile_last_not (fun id => !l.tall i id) ids hne
    have hcat := List.dropLast_append_getLast hne
    rw [← hcat, Place.after_concat]
    have htall : l.tall i ((l.passed i ids).getLast hne) = true := by simpa [passed] using hlast
    exact of_decide_eq_true htall

end

/-- Where a search stops on a level that goes past the nodes `xs` and no further. -/
def stopAt (l : SkipList) (xs ys : List Nat) (i : Nat) : Stop :=
  ⟨.after (l.passed i xs), (l.passed i xs).length, linkTo (l.tall i) (l.skipped i xs ++ ys)⟩

/-- The test holds of the nodes `xs` and of none of the nodes `ys` that follow, each at its rank. -/
def Parts (l : SkipList) (test : Nat → Nat → Node → Bool) (xs ys : List Nat) : Prop :=
  (∀ pre id post n, pre ++ id :: post = xs → l.node? id = some n →
    test (pre.length + 1) id n = true) ∧
  ∀ pre id post n, pre ++ id :: post = ys → l.node? id = some n →
    test (xs.length + pre.length + 1) id n = false

namespace Linked

variable {l : SkipList} {xs ys : List Nat} {test : Nat → Nat → Node → Bool}

theorem exists_node {ids : List Nat} (h : Linked l ids) (id : Nat) (hid : id ∈ ids) :
    ∃ n, l.node? id = some n :=
  Option.isSome_iff_exists.mp (h.live id hid)

theorem length_le {ids : List Nat} (h : Linked l ids) : ids.length ≤ l.nodes.size := by
  have hsub : ids ⊆ List.range l.nodes.size := fun id hid => by
    obtain ⟨n, hn⟩ := h.exists_node id hid
    exact List.mem_range.mpr (lt_size_of_node? hn)
  simpa using List.Nodup.length_le_of_subset h.nodup hsub

theorem walk_eq (h : Linked l (xs ++ ys)) (ht : Parts l test xs ys) (i : Nat) :
    ∀ (fuel : Nat) (pre mid : List Nat), pre ++ mid = xs → i < l.reach (.after pre) →
      mid.length < fuel → l.walk test i fuel (.after pre) pre.length = .ok (l.stopAt xs ys i)
  | 0, _, _, _, _, hf => absurd hf (Nat.not_lt_zero _)
  | fuel + 1, pre, mid, hpre, hi, hf => by
    have hlink := link_of_link? (h.links pre (mid ++ ys) i (by rw [← List.append_assoc, hpre]) hi)
    have hend : mid = l.skipped i mid → l.stopAt xs ys i = ⟨.after pre, pre.length, linkTo (l.tall i) (mid ++ ys)⟩ := by
      intro hm
      have hp : l.passed i mid = [] := by
        have := passed_append_skipped l i mid
        rwa [← hm, List.append_left_eq_self] at this
      rw [stopAt, ← hpre, passed_append hi, skipped_append hi, hp, ← hm, List.append_nil]
    rw [walk, hlink]
    rcases split_tall (l.tall i) mid with hmid | ⟨a, id, b, rfl, ha, hid⟩
    · have hm : mid = l.skipped i mid := by
        simpa [passed_nil_of hmid] using (passed_append_skipped l i mid).symm
      rcases split_tall (l.tall i) ys with hys | ⟨a, id, b, rfl, ha, hid⟩
      · rw [hend hm, linkTo_none (by simpa [or_imp, forall_and] using ⟨hmid, hys⟩)]
        rfl
      · obtain ⟨n, hn⟩ := h.exists_node id (by simp)
        have htest := ht.2 a id b n rfl hn
        have hl : linkTo (l.tall i) (mid ++ (a ++ id :: b)) = ⟨some id, mid.length + (a.length + 1)⟩ := by
          rw [linkTo_skip hmid, linkTo_skip ha]
          simp [linkTo, hid]
        have hr : pre.length + (mid.length + (a.length + 1)) = xs.length + a.length + 1 := by
          rw [← hpre, List.length_append]; omega
        rw [hend hm, hl]
        simp only [bind, Except.bind, node_of_node? hn, hr, htest]
        rfl
    · obtain ⟨n, hn⟩ := h.exists_node id (by rw [← hpre]; simp)
      have htest := ht.1 (pre ++ a) id b n (by rw [← hpre]; simp) hn
      have hl : linkTo (l.tall i) (a ++ id :: b ++ ys) = ⟨some id, a.length + 1⟩ := by
        rw [List.append_assoc, linkTo_skip ha]
        simp [linkTo, hid]
      have hr : pre.length + (a.length + 1) = (pre ++ a).length + 1 := by simp; omega
      have ih := walk_eq h ht i fuel (pre ++ a ++ [id]) b (by rw [← hpre]; simp)
        (by rw [Place.after_concat]; simpa [reach, tall] using hid) (by simp at hf; omega)
      rw [Place.after_concat] at ih
      rw [hl]
      simp only [bind, Except.bind, node_of_node? hn, hr, htest, if_true]
      simpa [Nat.add_assoc] using ih

theorem descend_eq (h : Linked l (xs ++ ys)) (ht : Parts l test xs ys) :
    ∀ (n : Nat) (pre mid : List Nat) (stops : List Stop), pre ++ mid = xs → n ≤ l.level →
      n ≤ l.reach (.after pre) →
      l.descend test n (.after pre) pre.length stops =
        .ok ((List.range n).map (l.stopAt xs ys) ++ stops)
  | 0, _, _, _, _, _, _ => rfl
  | i + 1, pre, mid, stops, hpre, hn, hr => by
    have hlen := h.length_le
    have hw := h.walk_eq ht i (l.nodes.size + 1) pre mid hpre hr
      (by rw [← hpre] at hlen; simp at hlen; omega)
    have hd := h.descend_eq ht i (l.passed i xs) (l.skipped i xs) (l.stopAt xs ys i :: stops)
      (passed_append_skipped l i xs) (by omega) (Nat.le_of_lt (lt_reach_passed hn xs))
    rw [descend, hw]
    simp only [bind, Except.bind]
    rw [List.range_succ, List.map_append, List.append_assoc]
    exact hd

/-- A search stops on each level behind the last tall node that its test holds of. -/
theorem search_eq (h : Linked l (xs ++ ys)) (ht : Parts l test xs ys) :
    l.search test = .ok ((List.range l.level).map (l.stopAt xs ys)) := by
  have := h.descend_eq ht l.level [] xs [] rfl (Nat.le_refl _) (Nat.le_refl _)
  rwa [List.append_nil] at this

theorem passed_zero (h : Linked l (xs ++ ys)) : l.passed 0 xs = xs := by
  rcases List.eq_nil_or_concat xs with rfl | ⟨zs, z, rfl⟩
  · simp [passed]
  · rw [List.concat_eq_append] at *
    exact passed_concat (by simpa [tall] using h.height_pos z (by simp))

theorem stopAt_zero (h : Linked l (xs ++ ys)) :
    l.stopAt xs ys 0 = ⟨.after xs, xs.length, linkTo (l.tall 0) ys⟩ := by
  have hs : l.skipped 0 xs = [] := by
    have := passed_append_skipped l 0 xs
    rwa [h.passed_zero, List.append_right_eq_self] at this
  rw [stopAt, h.passed_zero, hs, List.nil_append]

theorem stops_cons (h : Linked l (xs ++ ys)) : ∃ stops, (List.range l.level).map (l.stopAt xs ys) =
    ⟨.after xs, xs.length, linkTo (l.tall 0) ys⟩ :: stops := by
  obtain ⟨n, hn⟩ := Nat.exists_eq_succ_of_ne_zero (Nat.pos_iff_ne_zero.mp h.level_pos)
  rw [hn, List.range_succ_eq_map, List.map_cons, h.stopAt_zero]
  exact ⟨_, rfl⟩

theorem seek_eq (h : Linked l (xs ++ ys)) (ht : Parts l test xs ys) :
    l.seek test = .ok ⟨.after xs, xs.length, linkTo (l.tall 0) ys⟩ := by
  obtain ⟨stops, hstops⟩ := h.stops_cons
  rw [seek, h.search_eq ht, hstops]
  rfl

end Linked

end KeyEngine.SkipList
