import KeyEngine.Proofs.SkipList.Roster
import Mathlib.Data.List.Sort

/-!
# Giving a node another score

A node with a new score either stays where it is or is unlinked and placed again. Both leave the list that
an insertion into the ascending rows of the others describes, so neither the way that was taken nor the
height drawn on it shows.
-/

namespace KeyEngine

/-! ## Insertion into ascending rows -/

def RowLe (a b : Nat × Entry) : Prop :=
  a.2.le b.2 = true

instance : DecidableRel RowLe := fun a b => inferInstanceAs (Decidable (a.2.le b.2 = true))

instance : IsTrans (Nat × Entry) RowLe := ⟨fun _ _ _ => Entry.le_trans⟩

instance : Std.Total RowLe := ⟨fun a b => by simpa [RowLe] using Entry.le_total a.2 b.2⟩

/-- The rows after one of them got another score: it is taken out and inserted again. -/
def rescore (id : Nat) (e : Entry) (list : List (Nat × Entry)) : List (Nat × Entry) :=
  (list.filter (·.1 ≠ id)).orderedInsert RowLe (id, e)

/-- The rows have the same slot and member and scores that are equal as numbers. -/
def SameRow (a b : Nat × Entry) : Prop :=
  a.1 = b.1 ∧ a.2.score.same b.2.score = true ∧ a.2.member = b.2.member

theorem Score.same_self {s : Score} (h : s.isNaN = false) : s.same s = true := by
  simp [same, h]

theorem Entry.le_congr {a b : Entry} (h : a.score.same b.score = true) (hm : a.member = b.member)
    (e : Entry) : a.le e = b.le e := by
  rw [le, le, (Score.same_iff.mp h).2.2, hm]

theorem sameRow_orderedInsert {a b : Nat × Entry} (h : SameRow a b) {list : List (Nat × Entry)}
    (hlist : ∀ row ∈ list, row.2.score.isNaN = false) :
    (list.orderedInsert RowLe a).Forall₂ SameRow (list.orderedInsert RowLe b) := by
  have hself : ∀ rows : List (Nat × Entry), (∀ row ∈ rows, row.2.score.isNaN = false) →
      rows.Forall₂ SameRow rows := by
    intro rows hrows
    rw [List.forall₂_same]
    exact fun row hrow => ⟨rfl, Score.same_self (hrows row hrow), rfl⟩
  induction list with
  | nil => simp [h]
  | cons row list ih =>
    have hle : RowLe a row ↔ RowLe b row := by rw [RowLe, RowLe, Entry.le_congr h.2.1 h.2.2]
    rw [List.orderedInsert_cons, List.orderedInsert_cons]
    by_cases hrow : RowLe b row
    · rw [if_pos (hle.mpr hrow), if_pos hrow]
      exact .cons h (hself _ hlist)
    · rw [if_neg fun ha => hrow (hle.mp ha), if_neg hrow]
      rw [List.forall_mem_cons] at hlist
      exact .cons ⟨rfl, Score.same_self hlist.1, rfl⟩ (ih hlist.2)

namespace SkipList

/-! ## What a move changes -/

/-- The list differs from the one before by the score of one node, and by its place in order. -/
structure Rescores (l l' : SkipList) (id : Nat) (score : Score) : Prop where
  live : ∀ j, (l'.node? j).isSome = (l.node? j).isSome
  member : ∀ j, l'.member? j = l.member? j
  len : l'.len = l.len
  scored : l'.score? id = some score
  others : ∀ j, j ≠ id → l'.score? j = l.score? j
  rows : ∀ e, l.entry? id = some e → l'.toList = rescore id { e with score := score } l.toList

namespace WellFormed

variable {l l' : SkipList} {ids ids' : List Nat} {id : Nat} {e : Entry} {score : Score}

theorem mem_toList (h : WellFormed l ids) (row : Nat × Entry) :
    row ∈ l.toList ↔ l.entry? row.1 = some row.2 := by
  rw [h.toList_eq, mem_rows]
  exact ⟨fun hrow => hrow.2, fun hrow => ⟨h.mem_of_entry hrow, hrow⟩⟩

theorem toList_nodup (h : WellFormed l ids) : l.toList.Nodup :=
  h.consistent.once.of_map

theorem toList_rescore (h : WellFormed l ids) (h' : WellFormed l' ids')
    (ha : Assigns l l' id (some e)) : l'.toList = rescore id e l.toList := by
  have hperm : (rescore id e l.toList).Perm ((id, e) :: l.toList.filter (·.1 ≠ id)) :=
    List.perm_orderedInsert RowLe _ _
  have hsorted : (rescore id e l.toList).Pairwise RowLe :=
    .orderedInsert _ _ ((h.consistent.ascending.imp Entry.le_of_before).filter _)
  rw [h'.toList_eq]
  refine (h'.eq_rows (fun row => ?_) (hperm.nodup_iff.mpr ?_) hsorted).symm
  · rw [rescore, List.mem_orderedInsert, List.mem_filter, h.mem_toList, ha]
    by_cases hrow : row.1 = id
    · simp [hrow, Prod.ext_iff, eq_comm]
    · simp [hrow, Prod.ext_iff]
  · simp [List.nodup_cons, h.toList_nodup.filter]

theorem rescores (h : WellFormed l ids) (h' : WellFormed l' ids') (he : l.entry? id = some e)
    (ha : Assigns l l' id (some { e with score := score })) : Rescores l l' id score := by
  have hnode : ∀ (m : SkipList) (j : Nat), (m.node? j).isSome = (m.entry? j).isSome := by
    simp [SkipList.entry?]
  have hlive : ∀ j, (l'.entry? j).isSome = (l.entry? j).isSome := fun j => by
    rw [ha]
    by_cases hj : j = id <;> simp [hj, he]
  refine ⟨fun j => ?_, fun j => ?_, ?_, ?_, fun j hj => ?_, fun e' he' => ?_⟩
  · rw [hnode, hnode, hlive]
  · rw [member?, member?, ha]
    by_cases hj : j = id <;> simp [hj, he]
  · have hperm : ids'.Perm ids := (List.perm_ext_iff_of_nodup h'.nodup h.nodup).mpr fun j => by
      rw [h'.exact, h.exact, hlive]
    rw [h'.len, h.len, hperm.length_eq]
  · simp [score?, ha id]
  · simp [score?, ha j, hj]
  · cases he.symm.trans he'
    exact h.toList_rescore h' ha

end WellFormed

/-! ## Both ways -/

/-- Gives a node another score by unlinking it and linking it in again. -/
def relocate (l : SkipList) (id : Nat) (score : Score) : Except Fault SkipList := do
  let node ← l.node id
  let path ← l.updatePath id
  let l ← l.unlink id path
  let unlinked ← l.node id
  let l ← (l.setNode id { unlinked with entry := { node.entry with score := score } }).place id
  return { l with len := l.len + 1 }

def withTowers (l : SkipList) (towers : Towers) : SkipList :=
  { l with towers := towers }

section
variable {l : SkipList} {id : Nat} {score : Score} {n : Node}

theorem updateScore_of_fits (hn : l.node? id = some n) (hs : n.entry.score.same score = false)
    (hfits : l.fits n { n.entry with score := score } = .ok true) :
    l.updateScore id score = .ok (l.setNode id { n with entry := { n.entry with score := score } }) := by
  simp only [updateScore, hn, hs, hfits, ok_bind, Bool.false_eq_true, if_false, if_true]
  rfl

theorem updateScore_of_not_fits (hn : l.node? id = some n) (hs : n.entry.score.same score = false)
    (hfits : l.fits n { n.entry with score := score } = .ok false) :
    l.updateScore id score = l.relocate id score := by
  simp only [updateScore, relocate, hn, hs, hfits, node_of_node? hn, ok_bind, Bool.false_eq_true, if_false]

end

namespace WellFormed

variable {l : SkipList} {ids : List Nat} {id : Nat} {e : Entry} {score : Score}

theorem withTowers (h : WellFormed l ids) (towers : Towers) : WellFormed (l.withTowers towers) ids :=
  ⟨h.congr rfl rfl rfl rfl fun _ _ => rfl, ⟨h.number, h.distinct, h.freeNodup, h.free⟩, h.exact, h.ascending,
    h.len⟩

theorem relocated (h : WellFormed l ids) (he : l.entry? id = some e) (hs : score.isNaN = false) :
    ∃ moved ids', l.relocate id score = .ok moved ∧ WellFormed moved ids' ∧
      Assigns l moved id (some { e with score := score }) ∧ moved.free = l.free ∧
      moved.nodes.size = l.nodes.size := by
  obtain ⟨n, hn, rfl⟩ := exists_node_of_entry he
  obtain ⟨xs, ys, rfl⟩ := h.split he
  obtain ⟨path, m, u, l', ids', hpath, hunlink, hu, hplace, hwf, hassign, hfree, hsize⟩ :=
    h.relocate_ok hn (e := { n.entry with score := score }) rfl hs
  refine ⟨_, ids', ?_, hwf, hassign, hfree, hsize⟩
  simp only [relocate, node_of_node? hn, node_of_node? hu, hpath, hunlink, hplace, ok_bind]
  rfl

/-- The node keeps its links, or else the list is the one that relocation leaves. -/
theorem kept_or_relocated (h : WellFormed l ids) (he : l.entry? id = some e)
    (hdiff : e.score.same score = false) {kept moved : SkipList} (hkept : l.updateScore id score = .ok kept)
    (hmoved : l.relocate id score = .ok moved) :
    (∃ n, l.node? id = some n ∧ kept = l.setNode id { n with entry := { e with score := score } }) ∨
      kept = moved := by
  obtain ⟨n, hn, rfl⟩ := exists_node_of_entry he
  obtain ⟨xs, ys, rfl⟩ := h.split he
  obtain ⟨b, hb, -⟩ := h.fits_ok hn { n.entry with score := score }
  cases b with
  | true =>
    rw [updateScore_of_fits hn hdiff hb] at hkept
    exact .inl ⟨n, hn, (Except.ok.inj hkept).symm⟩
  | false =>
    rw [updateScore_of_not_fits hn hdiff hb, hmoved] at hkept
    exact .inr (Except.ok.inj hkept).symm

end WellFormed

theorem rescored_eq (e : Entry) (score : Score) :
    e.rescored score = { e with score := (e.rescored score).score } := by
  unfold Entry.rescored
  by_cases h : e.score.same score = true <;> simp [h]

theorem same_rescored {e : Entry} {score : Score} (hs : score.isNaN = false) :
    (e.rescored score).score.same score = true := by
  unfold Entry.rescored
  by_cases h : e.score.same score = true <;> simp [h, Score.same_self hs]

namespace Models

variable {l l' : SkipList} {r : Roster} {id : Nat} {e : Entry} {score : Score}

theorem withTowers (h : Models l r) (towers : Towers) : Models (l.withTowers towers) r := by
  obtain ⟨ids, hwf⟩ := h.order
  exact ⟨⟨ids, hwf.withTowers towers⟩, h.mem, h.once, h.free, h.fresh⟩

theorem of_entries (h : Models l r) {ids : List Nat} (hwf : WellFormed l' ids)
    (he : ∀ j, l'.entry? j = l.entry? j) (hfree : l'.free = l.free) (hsize : l'.nodes.size = l.nodes.size) :
    Models l' r :=
  ⟨⟨ids, hwf⟩, fun j x => by rw [he, h.mem], h.once, h.free.trans hfree.symm, h.fresh.trans hsize.symm⟩

/-- A score is given in place or by relocation, with the same answers. -/
theorem both_ways (h : Models l r) (he : l.entry? id = some e) (hs : score.isNaN = false) (drawn : Towers) :
    ∃ kept moved, (l.withTowers drawn).updateScore id score = .ok kept ∧
      (l.withTowers drawn).relocate id score = .ok moved ∧
      Rescores l kept id (e.rescored score).score ∧ Rescores l moved id score ∧
      kept.toList.Forall₂ SameRow moved.toList ∧
      (e.score.same score = false → ∀ q, kept.ask q = moved.ask q) := by
  obtain ⟨ids, hwf⟩ := h.order
  obtain ⟨kept, ids₁, hkept, hwf₁, ha₁, hfree₁, hsize₁⟩ := (hwf.withTowers drawn).updateScore_ok id hs
  obtain ⟨moved, ids₂, hmoved, hwf₂, ha₂, hfree₂, hsize₂⟩ := (hwf.withTowers drawn).relocated he hs
  have ha₁ : Assigns l kept id (some (e.rescored score)) := by
    have hdrawn : SkipList.entry? (l.withTowers drawn) id = some e := he
    rwa [hdrawn] at ha₁
  have hr₁ : Rescores l kept id (e.rescored score).score := by
    rw [rescored_eq] at ha₁
    exact hwf.rescores hwf₁ he ha₁
  have hr₂ := hwf.rescores hwf₂ he ha₂
  refine ⟨kept, moved, hkept, hmoved, hr₁, hr₂, ?_, fun hdiff q => ?_⟩
  · have hrow : SameRow (id, { e with score := (e.rescored score).score }) (id, { e with score := score }) :=
      ⟨rfl, same_rescored hs, rfl⟩
    rw [hr₁.rows e he, hr₂.rows e he]
    refine sameRow_orderedInsert hrow fun row hrow => ?_
    exact hwf.number _ _ ((hwf.mem_toList row).mp (List.mem_of_mem_filter hrow))
  · obtain ⟨kept', hkept', hm⟩ := (h.withTowers drawn).updateScore id hs
    cases hkept.symm.trans hkept'
    have hsame : ∀ j, moved.entry? j = kept.entry? j := fun j => by
      rw [ha₁, ha₂, Entry.rescored, hdiff]
      rfl
    have hm' := hm.of_entries hwf₂ hsame (hfree₂.trans hfree₁.symm) (hsize₂.trans hsize₁.symm)
    rw [hm.ask_eq, hm'.ask_eq]

end Models

/-- Whatever the heights, the next ones to be drawn included, after any permitted edits a live node gets
another score as an insertion into the ascending rows of the others describes, whether the update leaves it
in its place or relocates it. A score that is the same number leaves the old one, and so no branch is
taken. -/
theorem edits_updateScore (es : List Edit) (h : Roster.empty.Permits es) (maxLevel : Nat) (towers : Towers) :
    ∃ l replies, (SkipList.empty maxLevel towers).edits es = .ok (l, replies) ∧
      ∀ id e score drawn, l.entry? id = some e → score.isNaN = false →
        ∃ kept moved x, (l.withTowers drawn).updateScore id score = .ok kept ∧
          (l.withTowers drawn).relocate id score = .ok moved ∧
          Rescores l kept id x ∧ x.same score = true ∧ Rescores l moved id score ∧
          kept.toList.Forall₂ SameRow moved.toList ∧
          (e.score.same score = false → x = score ∧ (∀ q, kept.ask q = moved.ask q) ∧
            ((∃ n, l.node? id = some n ∧
              kept = (l.withTowers drawn).setNode id { n with entry := { e with score := score } }) ∨
            kept = moved)) := by
  obtain ⟨l, hl, hm⟩ := (Models.empty maxLevel towers).edits_eq es h
  obtain ⟨ids, hwf⟩ := hm.order
  refine ⟨l, _, hl, fun id e score drawn he hs => ?_⟩
  obtain ⟨kept, moved, hkept, hmoved, hr, hr', hrows, hask⟩ := hm.both_ways he hs drawn
  refine ⟨kept, moved, _, hkept, hmoved, hr, same_rescored hs, hr', hrows, fun hdiff => ⟨?_, hask hdiff, ?_⟩⟩
  · rw [Entry.rescored, hdiff]
    rfl
  · exact (hwf.withTowers drawn).kept_or_relocated he hdiff hkept hmoved

/-- A score that another member has already: the node goes behind the lower member. -/
theorem edits_updateScore_tie :
    let es : List Edit := [.insert ⟨.one, [97]⟩, .insert ⟨.posInf, [98]⟩, .insert ⟨.zero, [99]⟩]
    Roster.empty.Permits es ∧ Score.one.isNaN = false ∧
      ∃ l replies, (SkipList.empty 16 (Towers.seeded 7)).edits es = .ok (l, replies) ∧
        l.entry? 2 = some ⟨.zero, [99]⟩ ∧
        ∃ kept, (l.withTowers (Towers.seeded 3)).updateScore 2 .one = .ok kept ∧ Rescores l kept 2 .one ∧
          kept.toList = [(0, ⟨.one, [97]⟩), (2, ⟨.one, [99]⟩), (1, ⟨.posInf, [98]⟩)] := by
  intro es
  have hes : Roster.empty.Permits es := by decide +kernel
  have hone : Score.one.isNaN = false := by decide +kernel
  obtain ⟨l, replies, hl, hupdate⟩ := edits_updateScore es hes 16 (Towers.seeded 7)
  have hlook : ((SkipList.empty 16 (Towers.seeded 7)).edits es).map
      (fun done => (done.1.toList, SkipList.entry? done.1 2)) =
      .ok ([(2, ⟨.zero, [99]⟩), (0, ⟨.one, [97]⟩), (1, ⟨.posInf, [98]⟩)], some ⟨.zero, [99]⟩) := by
    decide +kernel
  rw [hl] at hlook
  obtain ⟨hrows, hentry⟩ := Prod.ext_iff.mp (Except.ok.inj hlook)
  obtain ⟨kept, moved, x, hkept, -, hr, -, -, -, hdiff⟩ := hupdate 2 _ .one (Towers.seeded 3) hentry hone
  obtain ⟨rfl, -⟩ := hdiff (by decide +kernel)
  refine ⟨hes, hone, l, replies, hl, hentry, kept, hkept, hr, ?_⟩
  rw [hr.rows _ hentry, show l.toList = _ from hrows]
  decide +kernel

end SkipList

end KeyEngine
