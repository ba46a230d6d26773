import KeyEngine.Proofs.SkipList.Place

/-!
# Unlinking a node

A node is unlinked from the places of a path. Levels that are left empty at the top are closed, so as
many levels stay in use as the highest of the other nodes has.
-/

namespace KeyEngine.SkipList

variable {l l' : SkipList} {id : Nat}

/-! ## Level by level -/

/-- What unlinking makes of the link of a place whose own link is `own` at the node. -/
def Cut (id : Nat) (own : Option Link) (k r : Link) : Prop :=
  (k.target = some id → ∃ o, own = some o ∧ 0 < k.span + o.span ∧ r = ⟨o.target, k.span + o.span - 1⟩) ∧
  (k.target ≠ some id → 0 < k.span ∧ r = ⟨k.target, k.span - 1⟩)

theorem threadOut_ok (id : Nat) (own : Array Link) (r : Nat → Link) :
    ∀ (path : Path) (i : Nat) (l : SkipList),
      (∀ j p, path[j]? = some p →
        ∃ k, l.link? p (i + j) = some k ∧ Cut id own[i + j]? k (r (i + j))) →
      ∃ l', threadOut id own i path l = .ok l' ∧ Relinked l l' ∧
        (∀ p j, j < i ∨ i + path.length ≤ j → l'.link? p j = l.link? p j) ∧
        ∀ j p, path[j]? = some p → l'.link? p (i + j) = some (r (i + j)) ∧
          ∀ q, q ≠ p → l'.link? q (i + j) = l.link? q (i + j)
  | [], i, l, _ => ⟨l, rfl, .refl l, fun _ _ _ => rfl, fun j p hp => by simp at hp⟩
  | p :: path, i, l, hpath => by
    obtain ⟨k, hk, hcut⟩ := hpath 0 p rfl
    rw [Nat.add_zero] at hk hcut
    obtain ⟨l₁, hset, hrel₁, hlink₁⟩ := setLink_ok hk (r i)
    have hstep : threadOut id own i (p :: path) l = threadOut id own (i + 1) path l₁ := by
      by_cases ht : k.target = some id
      · obtain ⟨o, ho, hpos, hr⟩ := hcut.1 ht
        simp only [threadOut, link_of_link? hk, ok_bind, if_pos ht, ho, difference_ok hpos, ← hr, hset]
      · obtain ⟨hpos, hr⟩ := hcut.2 ht
        simp only [threadOut, link_of_link? hk, ok_bind, if_neg ht, difference_ok hpos, ← hr, hset]
    have hsame : ∀ q j, j ≠ i → l₁.link? q j = l.link? q j := fun q j hj => by
      rw [hlink₁, if_neg (by simp [hj])]
    obtain ⟨l', hl', hrel', hout, hin⟩ := threadOut_ok id own r path (i + 1) l₁ (by
      intro j q hq
      rw [hsame _ _ (by omega)]
      simpa [Nat.add_assoc, Nat.add_comm 1 j] using hpath (j + 1) q hq)
    refine ⟨l', hstep.trans hl', hrel₁.trans hrel', fun q j hj => ?_, fun j q hq => ?_⟩
    · rw [List.length_cons] at hj
      rw [hout q j (by omega), hsame q j (by omega)]
    · cases j with
      | zero =>
        cases hq
        rw [Nat.add_zero]
        simp only [hout _ i (.inl (Nat.lt_succ_self i)), hlink₁]
        exact ⟨by simp, fun q hq => by simp [hq]⟩
      | succ j =>
        have := hin j q hq
        simp only [hsame _ (i + 1 + j) (by omega)] at this
        simpa [Nat.add_assoc, Nat.add_comm 1 j] using this

/-! ## Closing levels -/

theorem lower_ok {hs : Nat → Nat} {ids : List Nat} : ∀ (n : Nat) (l : SkipList), l.level = n → 1 ≤ n →
    (∀ id ∈ ids, hs id ≤ n) → (∀ i < n, l.head[i]? = some (linkTo (fun id => i < hs id) ids)) →
    (l.lower n).level = (ids.map hs).foldr max 1 ∧ (l.lower n).head.size = l.head.size ∧
      (∀ i < (l.lower n).level, (l.lower n).head[i]? = l.head[i]?) ∧
      (∀ i < n, (l.lower n).level ≤ i → (l.lower n).head[i]? = some ⟨none, 0⟩) ∧
      ∀ i, n ≤ i → (l.lower n).head[i]? = l.head[i]?
  | 0, _, _, h, _, _ => absurd h (by omega)
  | 1, l, hl, _, hle, _ => by
    have : (ids.map hs).foldr max 1 = 1 :=
      Nat.le_antisymm (foldr_max_le (by simpa using hle) (Nat.le_refl _)) (one_le_foldr_max _)
    refine ⟨hl.trans this.symm, rfl, fun _ _ => rfl, fun i hi hi' => ?_, fun _ _ => rfl⟩
    have : l.level ≤ i := hi'
    omega
  | n + 2, l, hl, _, hle, hhead => by
    have htop := hhead (n + 1) (by omega)
    rw [lower]
    split
    · rename_i span hspan
      rw [htop] at hspan
      have hnone : ∀ id ∈ ids, (decide (n + 1 < hs id)) = false :=
        target_linkTo_none.mp (congrArg Link.target (Option.some.inj hspan))
      have hsize : n + 1 < l.head.size := (Array.getElem?_eq_some_iff.mp htop).1
      have hle : ∀ id ∈ ids, hs id ≤ n + 1 := fun id hid => by simpa using hnone id hid
      obtain ⟨h₁, h₂, h₃, h₄, h₅⟩ := lower_ok (n + 1)
        { l with head := l.head.setIfInBounds (n + 1) ⟨none, 0⟩, level := n + 1 } rfl (by omega) hle
        (fun i hi => by simpa [show n + 1 ≠ i by omega] using hhead i (by omega))
      have hle' : (ids.map hs).foldr max 1 ≤ n + 1 := foldr_max_le (by simpa using hle) (by omega)
      refine ⟨h₁, by simpa using h₂, fun i hi => ?_, fun i hi hi' => ?_, fun i hi => ?_⟩
      · rw [h₃ i hi]
        simp [show n + 1 ≠ i by omega]
      · by_cases hi'' : i < n + 1
        · exact h₄ i hi'' hi'
        · rw [h₅ i (by omega), show i = n + 1 by omega]
          simp [hsize]
      · rw [h₅ i (by omega)]
        simp [show n + 1 ≠ i by omega]
    · rename_i hsome
      have htall : ∃ id ∈ ids, n + 1 < hs id := by
        by_contra hnone
        have : (linkTo (fun id => decide (n + 1 < hs id)) ids).target = none :=
          target_linkTo_none.mpr fun id hid => by simpa using fun h => hnone ⟨id, hid, h⟩
        exact hsome (linkTo (fun id => decide (n + 1 < hs id)) ids).span (by rw [htop, ← this])
      obtain ⟨id, hid, hgt⟩ := htall
      have h₁ := le_foldr_max (List.mem_map_of_mem (f := hs) hid)
      have h₂ : (ids.map hs).foldr max 1 ≤ n + 2 := foldr_max_le (by simpa using hle) (by omega)
      exact ⟨by omega, rfl, fun _ _ => rfl, fun i hi hi' => by omega, fun _ _ => rfl⟩

theorem lower_kept : ∀ (n : Nat) (l : SkipList), (l.lower n).nodes = l.nodes ∧ (l.lower n).free = l.free ∧
    (l.lower n).tail = l.tail ∧ (l.lower n).maxLevel = l.maxLevel ∧ (l.lower n).len = l.len
  | 0, _ => ⟨rfl, rfl, rfl, rfl, rfl⟩
  | 1, _ => ⟨rfl, rfl, rfl, rfl, rfl⟩
  | n + 2, l => by
    rw [lower]
    split
    · exact lower_kept (n + 1) _
    · exact ⟨rfl, rfl, rfl, rfl, rfl⟩

/-! ## Paths -/

/-- On each level in use, the path leads to the last of the nodes `xs` that is tall. -/
def LeadsTo (l : SkipList) (xs : List Nat) (path : Path) : Prop :=
  ∀ i < l.level, path[i]? = some (.after (l.passed i xs))

theorem passed_congr {i : Nat} {xs : List Nat} (h : ∀ x ∈ xs, l'.tall i x = l.tall i x) :
    l'.passed i xs = l.passed i xs := by
  induction xs using List.reverseRecOn with
  | nil => rfl
  | append_singleton xs x ih =>
    have hx := h x (by simp)
    have ih := ih fun y hy => h y (by simp [hy])
    simp only [passed, List.rdropWhile_concat] at *
    rw [hx, ih]

/-- A path outlives changes that open no level and keep the heights of the nodes it goes by. -/
theorem LeadsTo.congr {xs : List Nat} {path : Path} (h : LeadsTo l xs path) (hlevel : l'.level ≤ l.level)
    (hheight : ∀ x ∈ xs, l'.height x = l.height x) : LeadsTo l' xs path := fun i hi => by
  have htall : ∀ x ∈ xs, l'.tall i x = l.tall i x := fun x hx => by simp [tall, hheight x hx]
  rw [h i (by omega), passed_congr htall]

namespace Linked

variable {xs ys : List Nat}

section
variable (h : Linked l (xs ++ id :: ys))
include h

theorem not_mem : id ∉ xs ++ ys := by
  have := h.nodup
  rw [List.nodup_middle] at this
  exact (List.nodup_cons.mp this).1

theorem next_eq : l.next id = ys.head? := by
  obtain ⟨n, hn⟩ := h.exists_node id (by simp)
  have hlink := h.links (xs ++ [id]) ys 0 (by simp)
    (by simpa [reach] using h.height_pos id (by simp))
  have hshift : Linked l ((xs ++ [id]) ++ ys) := by simpa using h
  rw [Place.after_concat, link?, hn] at hlink
  rw [next, hn, Option.bind_some, Node.next, show n.links[0]? = some _ from hlink]
  exact target_linkTo_zero hshift

theorem prev_eq : l.prev id = xs.getLast? :=
  h.backs xs id ys rfl

theorem threadOut_path {n : Node} {path : Path} (hn : l.node? id = some n) (hp : LeadsTo l xs path) :
    ∃ m, threadOut id n.links 0 (path.take l.level) l = .ok m ∧ Relinked l m ∧
      (∀ i < l.level, m.link? (.after (l.passed i xs)) i =
        some (linkTo (l.tall i) (l.skipped i xs ++ ys))) ∧
      ∀ p i, (i < l.level → p ≠ .after (l.passed i xs)) → m.link? p i = l.link? p i := by
  have hget : ∀ i p, (path.take l.level)[i]? = some p → i < l.level ∧ p = .after (l.passed i xs) := by
    intro i p hip
    rw [List.getElem?_take] at hip
    split at hip
    · exact ⟨‹_›, Option.some.inj (hip.symm.trans (hp i ‹_›))⟩
    · cases hip
  have hown : ∀ i < l.height id, n.links[i]? = some (linkTo (l.tall i) ys) := fun i hi => by
    have := h.links (xs ++ [id]) ys i (by simp) (by simpa [reach] using hi)
    rw [Place.after_concat, link?, hn] at this
    exact this
  obtain ⟨m, hm, hrel, hout, hin⟩ := threadOut_ok id n.links
    (fun i => linkTo (l.tall i) (l.skipped i xs ++ ys)) (path.take l.level) 0 l (by
      intro i p hip
      obtain ⟨hi, rfl⟩ := hget i p hip
      rw [Nat.zero_add]
      refine ⟨_, h.link_passed hi, ?_⟩
      have hskip : ∀ x ∈ l.skipped i xs, l.tall i x = false := fun x hx => tall_skipped hx
      rw [linkTo_skip hskip, linkTo_skip hskip, linkTo]
      by_cases hid : l.tall i id = true
      · refine ⟨fun _ => ⟨_, hown i (of_decide_eq_true hid), ?_⟩, fun hne => ?_⟩
        · simp only [hid, if_true, Link.mk.injEq, true_and]
          omega
        · simp [hid] at hne
      · rw [if_neg hid]
        refine ⟨fun he => ?_, fun _ => ?_⟩
        · exact absurd (List.mem_append_right xs (mem_of_target he)) h.not_mem
        · simp only [Link.mk.injEq, true_and]
          omega)
  have hlt : ∀ i < l.level, (path.take l.level)[i]? = some (.after (l.passed i xs)) := fun i hi => by
    rw [List.getElem?_take_of_lt hi, hp i hi]
  refine ⟨m, hm, hrel, fun i hi => ?_, fun p i hip => ?_⟩
  · simpa using (hin i _ (hlt i hi)).1
  · by_cases hi : i < l.level
    · simpa using (hin i _ (hlt i hi)).2 p (hip hi)
    · refine hout p i (.inr ?_)
      rw [List.length_take]
      omega

theorem links_erase (hheight : ∀ x, l'.height x = l.height x) (hlevel : l'.level = l.level)
    (hstop : ∀ i < l.level, l'.link? (.after (l.passed i xs)) i =
      some (linkTo (l.tall i) (l.skipped i xs ++ ys)))
    (hrest : ∀ p i, p ≠ .after (l.passed i xs) → l'.link? p i = l.link? p i)
    (pre post : List Nat) (i : Nat) (he : pre ++ post = xs ++ ys) (hi : i < l'.reach (.after pre)) :
    l'.link? (.after pre) i = some (linkTo (l'.tall i) post) := by
  have htall : l'.tall i = l.tall i := by
    funext x
    simp [tall, hheight x]
  have hreach : ∀ p, l'.reach p = l.reach p := fun p => by
    cases p with
    | head => exact hlevel
    | node x => exact hheight x
  rw [hreach] at hi
  rw [htall]
  have hsplit : (∃ a, xs = pre ++ a ∧ post = a ++ ys) ∨
      ∃ (c : List Nat) (x : Nat), pre = xs ++ c.concat x ∧ ys = c.concat x ++ post := by
    rcases List.append_eq_append_iff.mp he with h | ⟨c, rfl, rfl⟩
    · exact .inl h
    · rcases List.eq_nil_or_concat c with rfl | ⟨c, x, rfl⟩
      · exact .inl ⟨[], by simp, rfl⟩
      · exact .inr ⟨c, x, rfl, rfl⟩
  rcases hsplit with ⟨a, rfl, rfl⟩ | ⟨c, x, rfl, rfl⟩
  · rcases prefix_cases l (a := a) hi with ⟨hp, hs⟩ | ⟨hp, b, x, c, rfl, hx⟩
    · have hlt : i < l.level := by
        have := h.reach_le pre (a ++ id :: ys) (by rw [List.append_assoc])
        omega
      have := hstop i hlt
      rwa [← hp, ← hs] at this
    · have hne : Place.after pre ≠ .after (l.passed i (pre ++ (b ++ x :: c))) :=
        after_ne_passed h.nodup (List.append_assoc ..).symm rfl hp
      rw [hrest _ i hne, h.links pre (b ++ x :: c ++ id :: ys) i (by simp) hi, List.append_assoc,
        List.append_assoc, List.cons_append, List.cons_append, linkTo_stop hx b _ (c ++ ys)]
  · -- behind the node, the place is one of the longer list too
    have ha : Place.after (xs ++ c.concat x) = .after (xs ++ id :: c.concat x) := by
      rw [List.append_cons, Place.after_append (by simp), Place.after_append (by simp)]
    have hne : Place.after (xs ++ id :: c.concat x) ≠ .after (l.passed i xs) :=
      after_ne_passed h.nodup (List.append_assoc ..) rfl (ne_passed_of_lt (by simp))
    rw [ha] at hi ⊢
    rw [hrest _ i hne, h.links _ post i (by simp) hi]

/-- A list that differs only around a node is linked up past it. -/
theorem erase (hheight : ∀ x, l'.height x = l.height x)
    (hlevel : l'.level = ((xs ++ ys).map l.height).foldr max 1)
    (hmax : l'.maxLevel = l.maxLevel) (hsize : l'.head.size = l.head.size)
    (hlinks : ∀ pre post i, pre ++ post = xs ++ ys → i < l'.reach (.after pre) →
      l'.link? (.after pre) i = some (linkTo (l'.tall i) post))
    (hidle : ∀ i, l'.level ≤ i → i < l.maxLevel → l'.head[i]? = some ⟨none, 0⟩)
    (hprev : ∀ x ∈ xs ++ ys, l'.prev x = if ys.head? = some x then xs.getLast? else l.prev x)
    (htail : l'.tail = if ys.head? = none then xs.getLast? else l.tail) : Linked l' (xs ++ ys) := by
  have hn := h.nodup
  rw [List.nodup_middle, List.nodup_cons] at hn
  refine ⟨hn.2, hlinks, fun pre x post he => ?_, ?_, fun x hx => ?_, ?_, fun i hi hi' => ?_, ?_, ?_⟩
  · rw [hprev x (by rw [← he]; simp)]
    have hfirst : ys = x :: post → pre = xs →
        (if ys.head? = some x then xs.getLast? else l.prev x) = pre.getLast? := by
      rintro rfl rfl
      simp
    rcases List.append_eq_append_iff.mp he with ⟨a, rfl, ha⟩ | ⟨c, rfl, rfl⟩
    · rcases List.cons_eq_append_iff.mp ha with ⟨rfl, rfl⟩ | ⟨a, rfl, rfl⟩
      · exact hfirst rfl (by simp)
      · have hx : ys.head? ≠ some x := head?_ne_of_mem hn.2 (by simp)
        rw [if_neg hx]
        exact h.backs pre x (a ++ id :: ys) (by simp)
    · rcases List.eq_nil_or_concat c with rfl | ⟨c, y, rfl⟩
      · exact hfirst rfl (by simp)
      · have hx : (c.concat y ++ x :: post).head? ≠ some x :=
          head?_append_ne (List.nodup_append.mp hn.2).2.1 (by simp)
        rw [if_neg hx, h.backs (xs ++ id :: c.concat y) x post (by simp), List.concat_eq_append,
          ← List.cons_append, ← List.append_assoc, ← List.append_assoc, List.getLast?_concat,
          List.getLast?_concat]
  · rw [htail, h.tail]
    cases ys with
    | nil => simp
    | cons y ys => simp [List.getLast?_append, List.getLast?_cons_cons]
  · rw [hheight]
    exact h.height_pos x (by simp at hx ⊢; tauto)
  · rw [hlevel]
    exact congrArg _ (List.map_congr_left fun x _ => (hheight x).symm)
  · exact hidle i hi (hmax ▸ hi')
  · rw [hsize, hmax, h.headSize]
  · have hle : ∀ x ∈ xs ++ ys, l.height x ≤ l.level := fun x hx =>
      h.height_le (by simp at hx ⊢; tauto)
    rw [hlevel, hmax]
    exact Nat.le_trans (foldr_max_le (List.forall_mem_map.mpr hle) h.level_pos) h.level_le

theorem erase_lower (hheight : ∀ x, l'.height x = l.height x) (hlevel : l'.level = l.level)
    (hmax : l'.maxLevel = l.maxLevel) (hsize : l'.head.size = l.head.size)
    (hlinks : ∀ pre post i, pre ++ post = xs ++ ys → i < l'.reach (.after pre) →
      l'.link? (.after pre) i = some (linkTo (l'.tall i) post))
    (hidle : ∀ i, l.level ≤ i → l'.head[i]? = l.head[i]?)
    (hprev : ∀ x ∈ xs ++ ys, l'.prev x = if ys.head? = some x then xs.getLast? else l.prev x)
    (htail : l'.tail = if ys.head? = none then xs.getLast? else l.tail) :
    Linked (l'.lower l'.level) (xs ++ ys) ∧ (l'.lower l'.level).level ≤ l.level := by
  obtain ⟨hnodes, -, htail', hmax', -⟩ := lower_kept l'.level l'
  have hle : ∀ x ∈ xs ++ ys, l.height x ≤ l.level := fun x hx =>
    h.height_le (by simp at hx ⊢; tauto)
  have hhead : ∀ i < l'.level, l'.head[i]? = some (linkTo (fun x => i < l.height x) (xs ++ ys)) :=
    fun i hi => by
      rw [show (fun x => decide (i < l.height x)) = l'.tall i by funext x; rw [tall, hheight]]
      exact hlinks [] (xs ++ ys) i rfl hi
  obtain ⟨hlevel', hsize', hused, hopen, habove⟩ :=
    lower_ok l'.level l' rfl (hlevel ▸ h.level_pos) (hlevel ▸ hle) hhead
  have hnode : ∀ x, (l'.lower l'.level).node? x = l'.node? x := fun x => by rw [node?, node?, hnodes]
  have hheight' : ∀ x, (l'.lower l'.level).height x = l'.height x := fun x => by
    rw [height, height, hnode]
  have hlevel_le : (l'.lower l'.level).level ≤ l.level := by
    rw [hlevel']
    exact foldr_max_le (List.forall_mem_map.mpr hle) h.level_pos
  refine ⟨h.erase (fun x => (hheight' x).trans (hheight x)) hlevel' (hmax'.trans hmax) (hsize'.trans hsize)
    (fun pre post i he hi => ?_) (fun i hi hi' => ?_) (fun x hx => ?_) (htail'.trans htail), hlevel_le⟩
  · have htall : (l'.lower l'.level).tall i = l'.tall i := by
      funext x
      rw [tall, tall, hheight']
    rw [htall, ← hlinks pre post i he]
    · cases ha : Place.after pre with
      | head => rw [ha] at hi; exact hused i hi
      | node x => rw [link?, link?, hnode]
    · cases ha : Place.after pre with
      | head => rw [ha] at hi; exact Nat.lt_of_lt_of_le hi (Nat.le_trans hlevel_le (Nat.le_of_eq hlevel.symm))
      | node x => rw [ha] at hi; exact Nat.lt_of_lt_of_le hi (Nat.le_of_eq (hheight' x))
  · by_cases hl : i < l'.level
    · exact hopen i hl hi
    · rw [habove i (by omega), hidle i (by omega)]
      exact h.idle i (by omega) hi'
  · rw [prev, hnode]
    exact hprev x hx

/-- Unlinking a node by a path that leads to it. -/
theorem unlink_ok {path : Path} (hp : LeadsTo l xs path) (hlen : 0 < l.len) :
    ∃ l', l.unlink id path = .ok l' ∧ Linked l' (xs ++ ys) ∧ Kept l l' ∧ l'.len = l.len - 1 ∧
      (∀ x, l'.height x = l.height x) ∧ l'.level ≤ l.level := by
  obtain ⟨n, hn⟩ := h.exists_node id (by simp)
  obtain ⟨m, hm, hrel, hstop, hrest⟩ := h.threadOut_path hn hp
  have hnext : n.next = ys.head? := by
    have := h.next_eq
    rwa [next, hn] at this
  have hbefore : path.head?.bind Place.id? = xs.getLast? := by
    rw [List.head?_eq_getElem?, hp 0 h.level_pos, h.passed_zero, Option.bind_some, Place.id?_after]
  have hsome : ∀ y, ys.head? = some y → (m.node? y).isSome := fun y hy => by
    apply isSome_of_height_pos
    rw [hrel.height]
    exact h.height_pos y (by simp [List.mem_of_head? hy])
  obtain ⟨b, hb, hbk⟩ := setBack_ok hsome xs.getLast?
  obtain ⟨hnodes, hfree, htail, hmax, hlen'⟩ := lower_kept b.level b
  have hheight : ∀ x, b.height x = l.height x := fun x => (hbk.height x).trans (hrel.height x)
  have hlevel : b.level = l.level := hbk.level.trans hrel.level
  have hblen : (b.lower b.level).len = l.len := hlen'.trans (hbk.len.trans hrel.len)
  obtain ⟨hlinked, hle⟩ := h.erase_lower hheight hlevel (hbk.maxLevel.trans hrel.maxLevel)
    (hbk.head ▸ hrel.headSize)
    (h.links_erase hheight hlevel (fun i hi => (hbk.link? _ i).trans (hstop i hi))
      fun p i hpi => (hbk.link? p i).trans (hrest p i fun _ => hpi))
    (fun i hi => by rw [hbk.head]; exact hrest .head i fun hi' => by omega)
    (fun x _ => by rw [hbk.prev, hrel.prev]) (by rw [hbk.tail, hrel.tail])
  refine ⟨{ b.lower b.level with len := l.len - 1 }, ?_, hlinked.congr rfl rfl rfl rfl fun _ _ => rfl,
    ⟨fun x => ?_, ?_, ?_, ?_⟩, rfl, fun x => ?_, hle⟩
  · rw [unlink, node_of_node? hn, ok_bind, hm, ok_bind, hnext, hbefore]
    cases hy : ys.head? <;> rw [hy] at hb <;>
      simp only [hb, ok_bind, hblen, difference_ok hlen] <;> rfl
  · rw [← hrel.entry? x, ← hbk.entry? x]
    simp only [SkipList.entry?, node?, hnodes]
  · exact (congrArg Array.size hnodes).trans (hbk.size.trans hrel.size)
  · exact hfree.trans (hbk.free.trans hrel.free)
  · exact hmax.trans (hbk.maxLevel.trans hrel.maxLevel)
  · rw [← hheight x]
    simp only [height, node?, hnodes]

theorem updatePath_ok {n : Node} (hn : l.node? id = some n)
    (ht : Parts l (fun _ ahead node => ahead ≠ id && node.entry.before n.entry) xs (id :: ys)) :
    ∃ path, l.updatePath id = .ok path ∧ LeadsTo l xs path := by
  refine ⟨_, by rw [updatePath, node_of_node? hn, ok_bind, h.search_eq ht, ok_bind]; rfl, fun i hi => ?_⟩
  rw [List.getElem?_append_left (by simpa using hi)]
  simp [hi, stopAt]

end

end Linked

end KeyEngine.SkipList
