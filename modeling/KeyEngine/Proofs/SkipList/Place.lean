import KeyEngine.Proofs.SkipList.Search

/-!
# Linking a node in

A node is linked in behind the stops of a search. On each level the link that is cut or passes over the
node is the one of the stop, so all other links stay as they are.
-/

namespace KeyEngine.SkipList

/-- The lists hold the same entries in the same slots. -/
structure Kept (l l' : SkipList) : Prop where
  entry? : ∀ id, l'.entry? id = l.entry? id
  size : l'.nodes.size = l.nodes.size
  free : l'.free = l.free
  maxLevel : l'.maxLevel = l.maxLevel

namespace Kept

variable {a b c : SkipList}

theorem trans (h : Kept a b) (h' : Kept b c) : Kept a c :=
  ⟨fun id => (h'.entry? id).trans (h.entry? id), h'.size.trans h.size, h'.free.trans h.free,
    h'.maxLevel.trans h.maxLevel⟩

theorem of_relinked (h : Relinked a b) : Kept a b := ⟨h.entry?, h.size, h.free, h.maxLevel⟩

end Kept

variable {l l' : SkipList} {id : Nat}

theorem difference_ok {a b : Nat} (h : b ≤ a) : difference a b = .ok (a - b) := by
  rw [difference, if_pos h]
  rfl

/-! ## Level by level -/

/-- One level is threaded: the stop leads to the node and the node on, or the stop passes over it. -/
theorem threadIn_cons {id height rank i : Nat} {stop : Stop} {k : Link} (stops : List Stop)
    (hne : stop.place ≠ .node id) (hk : l.link? stop.place i = some k)
    (hspan : i < height →
      stop.rank ≤ rank ∧ rank - stop.rank ≤ k.span ∧ (l.link? (.node id) i).isSome) :
    ∃ l₁, threadIn id height rank i (stop :: stops) l = threadIn id height rank (i + 1) stops l₁ ∧
      Relinked l l₁ ∧ (∀ p j, j ≠ i → l₁.link? p j = l.link? p j) ∧
      l₁.link? stop.place i =
        some (if i < height then ⟨some id, rank - stop.rank + 1⟩ else ⟨k.target, k.span + 1⟩) ∧
      (i < height → l₁.link? (.node id) i = some ⟨k.target, k.span - (rank - stop.rank)⟩) ∧
      ∀ p, p ≠ stop.place → (i < height → p ≠ .node id) → l₁.link? p i = l.link? p i := by
  by_cases hi : i < height
  · obtain ⟨hr, hc, hsome⟩ := hspan hi
    obtain ⟨k', hk'⟩ := Option.isSome_iff_exists.mp hsome
    obtain ⟨a, ha, hra, hla⟩ := setLink_ok hk' ⟨k.target, k.span - (rank - stop.rank)⟩
    have hka : a.link? stop.place i = some k := by rw [hla, if_neg (by simp [hne]), hk]
    obtain ⟨b, hb, hrb, hlb⟩ := setLink_ok hka ⟨some id, rank - stop.rank + 1⟩
    refine ⟨b, ?_, hra.trans hrb, fun p j hj => ?_, ?_, fun _ => ?_, fun p hp hpid => ?_⟩
    · simp only [threadIn, link_of_link? hk, if_pos hi, difference_ok hr, difference_ok hc, ha, hb,
        bind, Except.bind]
    · rw [hlb, if_neg (by simp [hj]), hla, if_neg (by simp [hj])]
    · rw [hlb, if_pos ⟨rfl, rfl⟩, if_pos hi]
    · rw [hlb, if_neg (by simp [Ne.symm hne]), hla, if_pos ⟨rfl, rfl⟩]
    · rw [hlb, if_neg (by simp [hp]), hla, if_neg (by simp [hpid hi])]
  · obtain ⟨b, hb, hrb, hlb⟩ := setLink_ok hk { k with span := k.span + 1 }
    refine ⟨b, ?_, hrb, fun p j hj => ?_, ?_, fun h => absurd h hi, fun p hp _ => ?_⟩
    · simp only [threadIn, link_of_link? hk, if_neg hi, hb, bind, Except.bind]
    · rw [hlb, if_neg (by simp [hj])]
    · rw [hlb, if_pos ⟨rfl, rfl⟩, if_neg hi]
    · rw [hlb, if_neg (by simp [hp])]

theorem threadIn_ok (id height rank : Nat) :
    ∀ (stops : List Stop) (i : Nat) (l : SkipList),
      (∀ j s, stops[j]? = some s → s.place ≠ .node id ∧
        ∃ k, l.link? s.place (i + j) = some k ∧ (i + j < height →
          s.rank ≤ rank ∧ rank - s.rank ≤ k.span ∧ (l.link? (.node id) (i + j)).isSome)) →
      ∃ l', threadIn id height rank i stops l = .ok l' ∧ Relinked l l' ∧
        (∀ p j, j < i ∨ i + stops.length ≤ j → l'.link? p j = l.link? p j) ∧
        ∀ j s k, stops[j]? = some s → l.link? s.place (i + j) = some k →
          l'.link? s.place (i + j) =
            some (if i + j < height then ⟨some id, rank - s.rank + 1⟩ else ⟨k.target, k.span + 1⟩) ∧
          (i + j < height → l'.link? (.node id) (i + j) = some ⟨k.target, k.span - (rank - s.rank)⟩) ∧
          ∀ p, p ≠ s.place → (i + j < height → p ≠ .node id) → l'.link? p (i + j) = l.link? p (i + j)
  | [], i, l, _ => ⟨l, rfl, .refl l, fun _ _ _ => rfl, fun j s k hs => by simp at hs⟩
  | stop :: stops, i, l, hstops => by
    obtain ⟨hne, k, hk, hspan⟩ := hstops 0 stop rfl
    rw [Nat.add_zero] at hk hspan
    obtain ⟨l₁, hl₁, hrel₁, hsame, hstop, hown, hrest⟩ := threadIn_cons stops hne hk hspan
    have hnext : ∀ j s, stops[j]? = some s → s.place ≠ .node id ∧
        ∃ k, l₁.link? s.place (i + 1 + j) = some k ∧ (i + 1 + j < height →
          s.rank ≤ rank ∧ rank - s.rank ≤ k.span ∧ (l₁.link? (.node id) (i + 1 + j)).isSome) := by
      intro j s hs
      rw [hsame _ _ (by omega), hsame _ _ (by omega)]
      simpa [Nat.add_assoc, Nat.add_comm 1 j] using hstops (j + 1) s hs
    obtain ⟨l', hl', hrel', hout, hin⟩ := threadIn_ok id height rank stops (i + 1) l₁ hnext
    refine ⟨l', hl₁.trans hl', hrel₁.trans hrel', fun p j hj => ?_, fun j s k' hs hk' => ?_⟩
    · rw [List.length_cons] at hj
      rw [hout p j (by omega), hsame p j (by omega)]
    · cases j with
      | zero =>
        rw [Nat.add_zero] at *
        cases hs
        cases hk.symm.trans hk'
        simp only [hout _ i (.inl (Nat.lt_succ_self i))]
        exact ⟨hstop, hown, hrest⟩
      | succ j =>
        have := hin j s k' hs (by rw [hsame _ _ (by omega)]; simpa [Nat.add_assoc, Nat.add_comm 1 j] using hk')
        simp only [hsame _ (i + 1 + j) (by omega)] at this
        simpa [Nat.add_assoc, Nat.add_comm 1 j] using this

/-! ## All levels -/

theorem append_eq_middle {α : Type} {a : α} {pre post xs ys : List α}
    (h : pre ++ post = xs ++ a :: ys) :
    (∃ b, xs = pre ++ b ∧ post = b ++ a :: ys) ∨ ∃ c, pre = xs ++ a :: c ∧ ys = c ++ post := by
  rcases List.append_eq_append_iff.mp h with h | ⟨c, rfl, hc⟩
  · exact .inl h
  · rcases List.cons_eq_append_iff.mp hc with ⟨rfl, rfl⟩ | ⟨c, rfl, rfl⟩
    · exact .inl ⟨[], by simp, rfl⟩
    · exact .inr ⟨c, rfl, rfl⟩

theorem head?_ne_of_mem {α : Type} {xs ys : List α} {x : α} (hn : (xs ++ ys).Nodup) (hx : x ∈ xs) :
    ys.head? ≠ some x := by
  intro hy
  exact (List.nodup_append.mp hn).2.2 x hx x (List.mem_of_head? hy) rfl

theorem head?_append_ne {α : Type} {xs post : List α} {x : α} (hn : (xs ++ x :: post).Nodup)
    (hxs : xs ≠ []) : (xs ++ x :: post).head? ≠ some x := by
  intro hy
  rw [List.head?_append_of_ne_nil _ hxs] at hy
  exact (List.nodup_append.mp hn).2.2 x (List.mem_of_head? hy) x List.mem_cons_self rfl

/-- The stops of a search, with the head on levels that are opened for the node. -/
def stopsTo (l : SkipList) (xs ys : List Nat) (height : Nat) : List Stop :=
  (List.range l.level).map (l.stopAt xs ys) ++ List.replicate (height - l.level) ⟨.head, 0, default⟩

theorem length_stopsTo (l : SkipList) (xs ys : List Nat) (height : Nat) :
    (l.stopsTo xs ys height).length = max l.level height := by
  simp [stopsTo]; omega

namespace Linked

variable {xs ys : List Nat}

theorem not_tall (h : Linked l (xs ++ ys)) {i : Nat} (hi : l.level ≤ i) {x : Nat}
    (hx : x ∈ xs ++ ys) : l.tall i x = false := by
  have := h.height_le hx
  simp [tall]; omega

theorem passed_idle (h : Linked l (xs ++ ys)) {i : Nat} (hi : l.level ≤ i) :
    l.passed i xs = [] ∧ l.skipped i xs = xs := by
  have hp : l.passed i xs = [] := passed_nil_of fun x hx => h.not_tall hi (List.mem_append_left _ hx)
  have hs := passed_append_skipped l i xs
  rw [hp, List.nil_append] at hs
  exact ⟨hp, hs⟩

theorem link_passed (h : Linked l (xs ++ ys)) {i : Nat} (hi : i < l.level) :
    l.link? (.after (l.passed i xs)) i = some (linkTo (l.tall i) (l.skipped i xs ++ ys)) :=
  h.links _ _ i (by rw [← List.append_assoc, passed_append_skipped]) (lt_reach_passed hi xs)

/-- A place before the node to be linked in is the stop of a level, or it is followed by a tall node. -/
theorem prefix_cases (l : SkipList) {i : Nat} {pre a : List Nat} (hi : i < l.reach (.after pre)) :
    pre = l.passed i (pre ++ a) ∧ a = l.skipped i (pre ++ a) ∨
      pre ≠ l.passed i (pre ++ a) ∧ ∃ b id c, a = b ++ id :: c ∧ l.tall i id = true := by
  rcases split_tall (l.tall i) a with ha | ⟨b, id, c, rfl, _, hid⟩
  · have hp : l.passed i (pre ++ a) = pre := by rw [passed_append hi, passed_nil_of ha, List.append_nil]
    have hs := passed_append_skipped l i (pre ++ a)
    rw [hp, List.append_cancel_left_eq] at hs
    exact .inl ⟨hp.symm, hs.symm⟩
  · refine .inr ⟨fun he => ?_, b, id, c, rfl, hid⟩
    rw [passed_append hi, List.self_eq_append_right] at he
    have := List.rdropWhile_eq_nil_iff.mp he id (by simp)
    simp [hid] at this

theorem after_ne_passed {ids pre post : List Nat} {i : Nat} (hn : ids.Nodup) (he : pre ++ post = ids)
    (hxs : xs ++ ys = ids) (hp : pre ≠ l.passed i xs) : Place.after pre ≠ .after (l.passed i xs) := by
  intro ha
  apply hp
  apply Place.after_inj hn he _ ha
  · exact l.skipped i xs ++ ys
  · rw [← List.append_assoc, passed_append_skipped, hxs]

theorem ne_passed_of_lt {ids : List Nat} {i : Nat} (h : xs.length < ids.length) :
    ids ≠ l.passed i xs := by
  intro he
  have := length_passed_le l i xs
  rw [← he] at this
  omega

section
variable {id : Nat} (h : Linked l (xs ++ ys)) (hid : id ∉ xs ++ ys)
  (hheight : ∀ x ∈ xs ++ ys, l'.height x = l.height x)
  (hlevel : l'.level = max l.level (l'.height id))
include h hid hheight hlevel

theorem links_insert
    (hstop : ∀ i < l'.level, l'.link? (.after (l.passed i xs)) i =
      some (linkTo (l'.tall i) (l.skipped i xs ++ id :: ys)))
    (hown : ∀ i < l'.height id, l'.link? (.node id) i = some (linkTo (l.tall i) ys))
    (hrest : ∀ p i, p ≠ .node id → p ≠ .after (l.passed i xs) → l'.link? p i = l.link? p i)
    (pre post : List Nat) (i : Nat) (he : pre ++ post = xs ++ id :: ys)
    (hi : i < l'.reach (.after pre)) :
    l'.link? (.after pre) i = some (linkTo (l'.tall i) post) := by
  have htall : ∀ x ∈ xs ++ ys, l'.tall i x = l.tall i x := fun x hx => by simp [tall, hheight x hx]
  have hne : ∀ zs, (∀ z ∈ zs, z ∈ xs ++ ys) → Place.after zs ≠ .node id := fun zs hz ha =>
    hid (hz id (Place.mem_of_after ha))
  -- heights are those of before at every place but the new node and the head
  have hreach : ∀ zs, zs ≠ [] → (∀ z ∈ zs, z ∈ xs ++ ys) →
      l'.reach (.after zs) = l.reach (.after zs) := by
    intro zs hzs hz
    obtain ⟨zs, z, rfl⟩ := List.eq_nil_or_concat zs |>.resolve_left hzs
    rw [List.concat_eq_append, Place.after_concat]
    exact hheight z (hz z (by simp))
  rcases append_eq_middle he with ⟨a, rfl, rfl⟩ | ⟨c, rfl, rfl⟩
  · by_cases hl : i < l.reach (.after pre)
    · rcases prefix_cases l (a := a) hl with ⟨hp, hs⟩ | ⟨hp, b, x, c, rfl, hx⟩
      · have hlt : i < l'.level := by
          have := h.reach_le pre (a ++ ys) (by rw [List.append_assoc])
          omega
        have := hstop i hlt
        rwa [← hp, ← hs] at this
      · have hx' : l'.tall i x = true := by rw [htall x (by simp)]; exact hx
        have hne' : Place.after pre ≠ .after (l.passed i (pre ++ (b ++ x :: c))) :=
          after_ne_passed h.nodup (List.append_assoc ..).symm rfl hp
        rw [hrest _ _ (hne pre (by simp +contextual)) hne',
          h.links pre (b ++ x :: c ++ ys) i (by simp) hl, List.append_assoc, List.append_assoc,
          List.cons_append, List.cons_append, linkTo_stop hx' b _ (c ++ ys)]
        refine congrArg some (linkTo_congr fun y hy => (htall y ?_).symm)
        simp only [List.mem_append, List.mem_cons] at hy ⊢
        tauto
    · -- a level that the new node has opened
      have hpre : pre = [] := by
        by_contra hpre
        exact hl (hreach pre hpre (by simp +contextual) ▸ hi)
      subst hpre
      obtain ⟨hp, hs⟩ := h.passed_idle (Nat.le_of_not_lt hl)
      have := hstop i hi
      rwa [hp, hs] at this
  · rcases List.eq_nil_or_concat c with rfl | ⟨c, x, rfl⟩
    · rw [Place.after_concat] at hi ⊢
      rw [hown i hi]
      exact congrArg some (linkTo_congr fun y hy => (htall y (by simpa using .inr hy)).symm)
    · -- behind the new node, the place is one of the shorter list too
      have hxid : x ≠ id := fun hx => hid (by simp [hx])
      have ha : Place.after (xs ++ id :: c.concat x) = .after (xs ++ c.concat x) := by
        rw [List.append_cons, Place.after_append (by simp), Place.after_append (by simp)]
      have hne' : Place.after (xs ++ c.concat x) ≠ .after (l.passed i xs) :=
        after_ne_passed h.nodup (List.append_assoc ..) rfl (ne_passed_of_lt (by simp))
      rw [ha] at hi ⊢
      rw [hrest _ _ (by simpa [← List.append_assoc] using hxid) hne']
      rw [h.links _ post i (by simp) (by
        rwa [hreach _ (by simp) (fun z hz => by simp at hz ⊢; tauto)] at hi)]
      exact congrArg some (linkTo_congr fun y hy => (htall y (by simp [hy])).symm)

/-- The links after the levels are threaded, as threading leaves them at the stops. -/
theorem links_threaded
    (hstop : ∀ i < l'.level, l'.link? (.after (l.passed i xs)) i = some
      (if i < l'.height id then ⟨some id, (l.skipped i xs).length + 1⟩
        else ⟨(linkTo (l.tall i) ys).target,
          (l.skipped i xs).length + (linkTo (l.tall i) ys).span + 1⟩))
    (hown : ∀ i < l'.height id, l'.link? (.node id) i = some (linkTo (l.tall i) ys))
    (hrest : ∀ p i, p ≠ .node id → p ≠ .after (l.passed i xs) → l'.link? p i = l.link? p i)
    (pre post : List Nat) (i : Nat) (he : pre ++ post = xs ++ id :: ys)
    (hi : i < l'.reach (.after pre)) :
    l'.link? (.after pre) i = some (linkTo (l'.tall i) post) := by
  have htall : ∀ i, ∀ x ∈ xs ++ ys, l'.tall i x = l.tall i x := fun i x hx => by
    simp [tall, hheight x hx]
  refine links_insert h hid hheight hlevel (fun i hi => ?_) hown hrest pre post i he hi
  rw [hstop i hi, linkTo_skip fun x hx => (htall i x ?_).trans (tall_skipped hx)]
  · by_cases hi : i < l'.height id
    · simp [linkTo, tall, hi]
    · have := linkTo_congr fun x hx => htall i x (List.mem_append_right xs hx)
      simp [linkTo, tall, hi, ← this]
      omega
  · exact List.mem_append_left _ (passed_append_skipped l i xs ▸ List.mem_append_right _ hx)

end

theorem stopsTo_get (h : Linked l (xs ++ ys)) {height i : Nat} {s : Stop}
    (hs : (l.stopsTo xs ys height)[i]? = some s) :
    s.place = .after (l.passed i xs) ∧ s.rank = (l.passed i xs).length := by
  rw [stopsTo, List.getElem?_append] at hs
  split at hs
  · simp only [List.length_map, List.length_range] at *
    simp [*] at hs
    simp [← hs, stopAt]
  · simp only [List.length_map, List.length_range, List.getElem?_replicate] at *
    split at hs
    · cases hs
      have hp := h.passed_idle (i := i) (by omega)
      simp [hp.1]
    · cases hs

theorem threadIn_stops {id height : Nat} {m : SkipList} (h : Linked l (xs ++ ys))
    (hid : id ∉ xs ++ ys)
    (hlink : ∀ i < max l.level height, m.link? (.after (l.passed i xs)) i =
      some (linkTo (l.tall i) (l.skipped i xs ++ ys)))
    (hown : ∀ i < height, (m.link? (.node id) i).isSome) :
    ∃ m', threadIn id height xs.length 0 (l.stopsTo xs ys height) m = .ok m' ∧ Relinked m m' ∧
      (∀ i < max l.level height, m'.link? (.after (l.passed i xs)) i = some
        (if i < height then ⟨some id, (l.skipped i xs).length + 1⟩
          else ⟨(linkTo (l.tall i) ys).target,
            (l.skipped i xs).length + (linkTo (l.tall i) ys).span + 1⟩)) ∧
      (∀ i < height, m'.link? (.node id) i = some (linkTo (l.tall i) ys)) ∧
      ∀ p i, (i < max l.level height → p ≠ .node id ∧ p ≠ .after (l.passed i xs)) →
        m'.link? p i = m.link? p i := by
  have hskip : ∀ i, linkTo (l.tall i) (l.skipped i xs ++ ys) = ⟨(linkTo (l.tall i) ys).target,
      (l.skipped i xs).length + (linkTo (l.tall i) ys).span⟩ := fun i =>
    linkTo_skip (fun x hx => tall_skipped hx) ys
  have hcover : ∀ i, xs.length - (l.passed i xs).length = (l.skipped i xs).length := fun i => by
    have := length_passed_le l i xs; omega
  have hlt : ∀ {i : Nat} {s : Stop}, (l.stopsTo xs ys height)[i]? = some s → i < max l.level height :=
    fun hs => length_stopsTo l xs ys height ▸ (List.getElem?_eq_some_iff.mp hs).1
  obtain ⟨m', hm', hrel, hout, hin⟩ := threadIn_ok id height xs.length (l.stopsTo xs ys height) 0 m (by
    intro i s hs
    obtain ⟨hp, hr⟩ := h.stopsTo_get hs
    rw [Nat.zero_add, hp, hr]
    refine ⟨fun ha => hid ?_, _, hlink i (hlt hs), fun hi => ⟨?_, ?_, hown i hi⟩⟩
    · have := Place.mem_of_after ha
      exact List.mem_append_left _ (passed_append_skipped l i xs ▸ List.mem_append_left _ this)
    · have := length_passed_le l i xs; omega
    · rw [hskip, hcover]; exact Nat.le_add_right _ _)
  have hlevel : ∀ i < max l.level height, ∃ s, (l.stopsTo xs ys height)[i]? = some s := fun i hi =>
    ⟨_, List.getElem?_eq_getElem (length_stopsTo l xs ys height ▸ hi)⟩
  refine ⟨m', hm', hrel, fun i hi => ?_, fun i hi => ?_, fun p i hp => ?_⟩
  · obtain ⟨s, hs⟩ := hlevel i hi
    obtain ⟨hp, hr⟩ := h.stopsTo_get hs
    have := (hin i s _ hs (by rw [hp, Nat.zero_add]; exact hlink i hi)).1
    rwa [Nat.zero_add, hp, hr, hskip, hcover] at this
  · obtain ⟨s, hs⟩ := hlevel i (by omega)
    obtain ⟨hp, hr⟩ := h.stopsTo_get hs
    have := (hin i s _ hs (by rw [hp, Nat.zero_add]; exact hlink i (by omega))).2.1 (by omega)
    rwa [Nat.zero_add, hr, hskip, hcover, Nat.add_sub_cancel_left] at this
  · by_cases hi : i < max l.level height
    · obtain ⟨s, hs⟩ := hlevel i hi
      obtain ⟨hsp, hr⟩ := h.stopsTo_get hs
      have := (hin i s _ hs (by rw [hsp, Nat.zero_add]; exact hlink i hi)).2.2 p
        (hsp ▸ (hp hi).2) (fun _ => (hp hi).1)
      rwa [Nat.zero_add] at this
    · exact hout p i (.inr (by rw [length_stopsTo]; omega))

section
variable {id : Nat} (h : Linked l (xs ++ ys)) (hid : id ∉ xs ++ ys)
include h hid

/-- A list that differs only around a new node is linked up through it. -/
theorem insert
    (hheight : ∀ x ∈ xs ++ ys, l'.height x = l.height x)
    (hpos : 0 < l'.height id) (hle : l'.height id ≤ l.maxLevel)
    (hlevel : l'.level = max l.level (l'.height id))
    (hmax : l'.maxLevel = l.maxLevel) (hsize : l'.head.size = l.head.size)
    (hlinks : ∀ pre post i, pre ++ post = xs ++ id :: ys → i < l'.reach (.after pre) →
      l'.link? (.after pre) i = some (linkTo (l'.tall i) post))
    (hidle : ∀ i, l'.level ≤ i → l'.head[i]? = l.head[i]?)
    (hprev : ∀ x ∈ xs ++ ys, l'.prev x = if ys.head? = some x then some id else l.prev x)
    (hback : l'.prev id = xs.getLast?)
    (htail : l'.tail = if ys.head? = none then some id else l.tail) : Linked l' (xs ++ id :: ys) := by
  have hn := h.nodup
  refine ⟨?_, hlinks, fun pre x post he => ?_, ?_, fun x hx => ?_, ?_, fun i hi hi' => ?_, ?_, ?_⟩
  · rw [List.nodup_middle]
    exact List.nodup_cons.mpr ⟨hid, hn⟩
  · rcases append_eq_middle he with ⟨b, rfl, hb⟩ | ⟨c, rfl, rfl⟩
    · rcases List.cons_eq_append_iff.mp hb with ⟨rfl, hb⟩ | ⟨b, rfl, rfl⟩
      · cases hb
        simpa using hback
      · have hx : ys.head? ≠ some x := head?_ne_of_mem hn (by simp)
        rw [hprev x (by simp), if_neg hx]
        exact h.backs pre x (b ++ ys) (by simp)
    · rw [hprev x (by simp)]
      rcases List.eq_nil_or_concat c with rfl | ⟨c, y, rfl⟩
      · simp
      · have hx : (c.concat y ++ x :: post).head? ≠ some x :=
          head?_append_ne (List.nodup_append.mp hn).2.1 (by simp)
        rw [if_neg hx, h.backs (xs ++ c.concat y) x post (by simp), List.concat_eq_append,
          ← List.cons_append, ← List.append_assoc, ← List.append_assoc, List.getLast?_concat,
          List.getLast?_concat]
  · rw [htail, h.tail]
    cases ys with
    | nil => simp
    | cons y ys => simp [List.getLast?_append, List.getLast?_cons_cons]
  · rcases List.mem_append.mp hx with hx | hx
    · rw [hheight x (by simp [hx])]; exact h.height_pos x (by simp [hx])
    · rcases List.mem_cons.mp hx with rfl | hx
      · exact hpos
      · rw [hheight x (by simp [hx])]; exact h.height_pos x (by simp [hx])
  · have hmap : ∀ zs : List Nat, (∀ z ∈ zs, z ∈ xs ++ ys) → zs.map l'.height = zs.map l.height := fun zs hz =>
      List.map_congr_left fun z hz' => hheight z (hz z hz')
    have := h.level
    rw [List.map_append, foldr_max_append] at this
    rw [List.map_append, foldr_max_append, List.map_cons, List.foldr_cons, hmap xs (by simp +contextual),
      hmap ys (by simp +contextual), hlevel, this]
    omega
  · rw [hidle i hi]
    exact h.idle i (by omega) (by omega)
  · rw [hsize, hmax, h.headSize]
  · have := h.level_le
    omega

end

end Linked

/-! ## Placing a node -/

theorem raise_ok {ids : List Nat} (h : Linked l ids) {height : Nat} (hle : height ≤ l.maxLevel) :
    (l.raise height).level = max l.level height ∧ (l.raise height).head.size = l.head.size ∧
      (∀ id, (l.raise height).node? id = l.node? id) ∧
      ∀ i, (l.raise height).head[i]? =
        if l.level ≤ i ∧ i < height then some ⟨none, l.len⟩ else l.head[i]? := by
  unfold raise
  split
  · refine ⟨by simp; omega, by simp, fun _ => rfl, fun i => ?_⟩
    rw [Array.getElem?_mapIdx]
    split
    · rw [h.idle i (by omega) (by omega)]
      simp [*]
    · cases l.head[i]? <;> simp [*]
  · refine ⟨by omega, rfl, fun _ => rfl, fun i => ?_⟩
    rw [if_neg (by omega)]

theorem raise_kept (l : SkipList) (height : Nat) : (l.raise height).nodes = l.nodes ∧
    (l.raise height).free = l.free ∧ (l.raise height).tail = l.tail ∧
    (l.raise height).maxLevel = l.maxLevel ∧ (l.raise height).len = l.len := by
  unfold raise
  split <;> exact ⟨rfl, rfl, rfl, rfl, rfl⟩

theorem target_linkTo_zero {xs ys : List Nat} (h : Linked l (xs ++ ys)) :
    (linkTo (l.tall 0) ys).target = ys.head? := by
  cases ys with
  | nil => rfl
  | cons y ys =>
    have hy : l.tall 0 y = true := by simpa [tall] using h.height_pos y (by simp)
    simp [linkTo, hy]

section
variable {xs ys : List Nat} {n : Node} (h : Linked l (xs ++ ys)) (hid : id ∉ xs ++ ys)
  (hn : l.node? id = some n) (hlen : l.len = (xs ++ ys).length)
include h hid hn hlen

theorem opened_ok {height : Nat} (hle : height ≤ l.maxLevel) (back : Option Nat) {m : SkipList}
    (hm : m = (l.raise height).setNode id
      { n with back := back, links := Array.replicate height ⟨none, 0⟩ }) :
    m.level = max l.level height ∧ m.height id = height ∧ m.prev id = back ∧ Kept l m ∧
      m.len = l.len ∧ m.tail = l.tail ∧ m.head.size = l.head.size ∧
      (∀ i, max l.level height ≤ i → m.head[i]? = l.head[i]?) ∧
      (∀ x ∈ xs ++ ys, m.height x = l.height x ∧ m.prev x = l.prev x) ∧
      (∀ i < height, (m.link? (.node id) i).isSome) ∧
      (∀ i < max l.level height, m.link? (.after (l.passed i xs)) i =
        some (linkTo (l.tall i) (l.skipped i xs ++ ys))) ∧
      ∀ p i, p ≠ .node id → p ≠ .after (l.passed i xs) → m.link? p i = l.link? p i := by
  obtain ⟨hlevel, hsize, hnode, hhead⟩ := raise_ok h hle
  obtain ⟨hnodes, hfree, htail, hmax, hlen'⟩ := raise_kept l height
  have hlive : (l.raise height).node? id = some n := by rw [hnode, hn]
  have hm' : ∀ j, m.node? j = if j = id then
      some { n with back := back, links := Array.replicate height ⟨none, 0⟩ } else l.node? j := fun j => by
    rw [hm, node?_setNode_live hlive, hnode]
  have hmhead : m.head = (l.raise height).head := by rw [hm]; rfl
  have hne : ∀ x ∈ xs ++ ys, x ≠ id := fun x hx hxid => hid (hxid ▸ hx)
  -- besides the new tower, only the links of the head on the opened levels have changed
  have hlinks : ∀ p i, p ≠ .node id → (p = .head → l.level ≤ i → height ≤ i) →
      m.link? p i = l.link? p i := by
    intro p i hp hi
    cases p with
    | head =>
      rw [link?, link?, hmhead, hhead, if_neg]
      have := hi rfl
      omega
    | node j => rw [link?, link?, hm', if_neg (by simpa using hp)]
  refine ⟨by rw [hm]; exact hlevel, by simp [SkipList.height, hm'], by simp [prev, hm'],
    ⟨fun j => ?_, by rw [hm]; simp [setNode, hnodes], by rw [hm]; exact hfree, by rw [hm]; exact hmax⟩,
    by rw [hm]; exact hlen', by rw [hm]; exact htail, by rw [hmhead]; exact hsize, fun i hi => ?_,
    fun x hx => ⟨?_, ?_⟩, fun i hi => ?_, fun i hi => ?_, fun p i hp hp' => hlinks p i hp fun hph hi => ?_⟩
  · by_cases hj : j = id
    · subst hj; simp [SkipList.entry?, hm', hn]
    · simp [SkipList.entry?, hm', hj]
  · rw [hmhead, hhead, if_neg (by omega)]
  · simp [SkipList.height, hm', hne x hx]
  · simp [prev, hm', hne x hx]
  · simp [link?, hm', hi]
  · by_cases hl : i < l.level
    · rw [← h.link_passed hl]
      refine hlinks _ i (fun ha => hid ?_) fun _ _ => by omega
      have := Place.mem_of_after ha
      exact List.mem_append_left _ (passed_append_skipped l i xs ▸ List.mem_append_left _ this)
    · obtain ⟨hp, hs⟩ := h.passed_idle (Nat.le_of_not_lt hl)
      rw [hp, hs, Place.after_nil, link?, hmhead, hhead, if_pos (by omega), hlen,
        linkTo_none fun x hx => h.not_tall (by omega) hx]
  · rw [(h.passed_idle hi).1] at hp'
    exact absurd hph hp'

/-- Placing a node puts it behind the nodes whose entries stand before its own. -/
theorem place_ok (ht : Parts l (fun _ _ ahead => ahead.entry.before n.entry) xs ys) :
    ∃ l', l.place id = .ok l' ∧ Linked l' (xs ++ id :: ys) ∧ Kept l l' ∧ l'.len = l.len := by
  obtain ⟨height, hheight⟩ : ∃ height, height = (l.towers.draw l.maxLevel).1 := ⟨_, rfl⟩
  have hpos : 0 < height ∧ height ≤ l.maxLevel := by
    have := h.level_pos
    have := h.level_le
    rw [hheight]
    simp only [Towers.draw, Config.clamp]
    omega
  have h₀ : Linked { l with towers := (l.towers.draw l.maxLevel).2 } (xs ++ ys) :=
    h.congr rfl rfl rfl rfl fun _ _ => rfl
  obtain ⟨m, hm⟩ : ∃ m, m = (({ l with towers := (l.towers.draw l.maxLevel).2 } : SkipList).raise
      height).setNode id { n with back := xs.getLast?, links := Array.replicate height ⟨none, 0⟩ } :=
    ⟨_, rfl⟩
  obtain ⟨hlevel, hid₂, hback, hkept, hlen₂, htail, hsize, hidle, hsame, hown, hpassed, hrest⟩ :=
    opened_ok h₀ hid hn hlen hpos.2 xs.getLast? hm
  obtain ⟨m', hm', hrel, hstop, hown', hrest'⟩ := h.threadIn_stops hid hpassed hown
  have htarget : (linkTo (l.tall 0) ys).target = ys.head? := target_linkTo_zero h
  have hsome : ∀ y, ys.head? = some y → (m'.node? y).isSome := fun y hy => by
    have hy : y ∈ xs ++ ys := List.mem_append_right _ (List.mem_of_head? hy)
    apply isSome_of_height_pos
    rw [hrel.height, (hsame y hy).1]
    exact h.height_pos y hy
  obtain ⟨l', hl', hb⟩ := setBack_ok hsome (some id)
  obtain ⟨stops, hstops⟩ := h.stops_cons
  refine ⟨l', ?_, ?_, ?_, ?_⟩
  · rw [stopsTo, hstops] at hm'
    rw [place, node_of_node? hn, ok_bind, h.search_eq ht, hstops]
    simp only [ok_bind, ← hheight, Place.id?_after, ← hm]
    rw [hm', ok_bind, link_of_link? (hown' 0 hpos.1), ok_bind, htarget]
    exact hl'
  · have hheights : ∀ x ∈ xs ++ ys, l'.height x = l.height x := fun x hx => by
      rw [hb.height, hrel.height, (hsame x hx).1]
      rfl
    have hheight' : l'.height id = height := by rw [hb.height, hrel.height, hid₂]
    have hlevel' : l'.level = max l.level (l'.height id) := by
      rw [hb.level, hrel.level, hlevel, hheight']
    have hhead : ∀ i, l'.level ≤ i → l'.head[i]? = l.head[i]? := fun i hi => by
      rw [hb.head]
      have := hrest' .head i (fun hi' => by rw [hlevel', hheight'] at hi; omega)
      rw [link?, link?] at this
      rw [this, hidle i (by rw [hlevel', hheight'] at hi; exact hi)]
    refine h.insert hid hheights (by rw [hheight']; exact hpos.1) (by rw [hheight']; exact hpos.2)
      hlevel' (by rw [hb.maxLevel, hrel.maxLevel]; exact hkept.maxLevel)
      (by rw [hb.head, hrel.headSize]; exact hsize) ?_ hhead (fun x hx => ?_) ?_ ?_
    · refine h.links_threaded hid hheights hlevel' (fun i hi => ?_) (fun i hi => ?_) fun p i hp hp' => ?_
      · rw [hb.link?, hheight']
        exact hstop i (by rw [hlevel', hheight'] at hi; exact hi)
      · rw [hb.link?]
        exact hown' i (hheight' ▸ hi)
      · rw [hb.link?, hrest' p i fun _ => ⟨hp, hp'⟩]
        exact hrest p i hp hp'
    · rw [hb.prev, hrel.prev, (hsame x hx).2]
      rfl
    · rw [hb.prev, hrel.prev, hback, if_neg]
      exact fun hy => hid (List.mem_append_right _ (List.mem_of_head? hy))
    · rw [hb.tail, hrel.tail, htail]
  · have hkept : Kept l m := ⟨hkept.entry?, hkept.size, hkept.free, hkept.maxLevel⟩
    exact hkept.trans ((Kept.of_relinked hrel).trans ⟨hb.entry?, hb.size, hb.free, hb.maxLevel⟩)
  · rw [hb.len, hrel.len, hlen₂]

end

end KeyEngine.SkipList
