import KeyEngine.Proofs.Keyspace.Combined
import KeyEngine.Proofs.SortedSet.Windows

/-!
# Limits and pages of score ranges

A query with a limit answers what the limit leaves of the query without one, from either end, and a page
does the same for the commands of a keyspace.
-/

namespace KeyEngine

namespace SortedSet

/-- The queries by a range of scores answer the entries, in both directions and under every limit. -/
structure Lists (s : SortedSet) (r : ScoreRange) (es : List Entry) : Prop where
  up : s.scoreRange r = .ok es
  down : s.revScoreRange r = .ok es.reverse
  upLimit : ∀ limit : Limit, s.scoreRangeLimit r limit = .ok (limit.cut es)
  downLimit : ∀ limit : Limit, s.revScoreRangeLimit r limit = .ok (limit.cut es.reverse)
  count : s.countInRange r = .ok es.length

/-- Worked out in words, the queries that go by ranks give nothing up. That takes a list shorter than the
greatest word, which every list that lies in memory is. -/
structure FitsWords (s : SortedSet) (r : ScoreRange) : Prop where
  bounds : s.list.rankBoundsInWords r = liftM (s.list.rankBounds r)
  up : ∀ limit : Limit, s.scoreRangeLimitInWords r limit = liftM (s.scoreRangeLimit r limit)
  down : ∀ limit : Limit, s.revScoreRangeLimitInWords r limit = liftM (s.revScoreRangeLimit r limit)
  count : s.countInRangeInWords r = liftM (s.countInRange r)

def listed (s : SortedSet) (r : ScoreRange) : List Entry :=
  s.toList.filter (r.contains ·.score)

namespace Tracks

variable {s : SortedSet} {b : Board} (h : Tracks s b)
include h

theorem within_eq (r : ScoreRange) : b.within r = s.listed r := by
  rw [listed, h.toList_eq]
  rfl

theorem scoreRange_run (r : ScoreRange) :
    ∃ run, s.list.scoreRange r = .ok run ∧ s.entries run = s.listed r := by
  obtain ⟨ids, hwf⟩ := h.order
  obtain ⟨xs, run, ys, rfl, hrun, hin⟩ := hwf.scoreRange_ok r
  exact ⟨run, hrun, (h.entries_run hwf hin).trans (h.within_eq r)⟩

theorem lists (r : ScoreRange) : s.Lists r (s.listed r) := by
  obtain ⟨run, hrun, hentries⟩ := h.scoreRange_run r
  constructor
  · rw [scoreRange, hrun, ← hentries]
    rfl
  · rw [revScoreRange, hrun, ← hentries]
    rfl
  · intro limit
    rw [h.scoreRangeLimit_ok, h.within_eq]
  · intro limit
    rw [h.revScoreRangeLimit_ok, h.within_eq]
  · rw [h.countInRange_ok, h.within_eq]

theorem fitsWords (hcount : s.count < wordMax) (r : ScoreRange) : s.FitsWords r := by
  obtain ⟨ids, hwf⟩ := h.order
  exact ⟨hwf.rankBoundsInWords_eq hcount r, scoreRangeLimitInWords_eq hwf hcount r,
    revScoreRangeLimitInWords_eq hwf hcount r, countInRangeInWords_eq hwf hcount r⟩

end Tracks

end SortedSet

/-- What the page shows of a list. -/
def Page.cut {α : Type} (p : Page) (xs : List α) : List α :=
  if p.offset < 0 ∨ p.count = 0 then []
  else if p.count < 0 then xs.drop p.offset.toNat
  else (xs.drop p.offset.toNat).take p.count.toNat

@[simp] theorem Page.cut_nil {α : Type} (p : Page) : p.cut ([] : List α) = [] := by
  simp [cut]

def Page.cutOf {α : Type} : Option Page → List α → List α
  | none, xs => xs
  | some p, xs => p.cut xs

@[simp] theorem Page.cutOf_nil {α : Type} (page : Option Page) : Page.cutOf page ([] : List α) = [] := by
  cases page <;> simp [cutOf]

/-- A page becomes a limit, or nothing is asked for. -/
theorem Page.cutOf_eq {α : Type} (page : Option Page) (xs : List α) :
    Page.cutOf page xs = ((Page.limitOf? page).map (·.cut xs)).getD [] := by
  rcases page with _ | ⟨offset, count⟩
  · rfl
  · unfold cutOf cut limitOf? limit?
    by_cases hnone : offset < 0 ∨ count = 0
    · simp [hnone]
    · by_cases hneg : count < 0
      · simp [hnone, hneg, SortedSet.Limit.cut]
      · simp [hnone, hneg, SortedSet.Limit.cut]

namespace Keyspace

variable {now : Nat} {ks : Keyspace} {key : Bytes} {α : Type}

theorem run_readSet (h : ks.Sane) (hc : ¬ ks.Clashes now key .sortedSet) (empty : α)
    {f : SortedSet → Except Fault α} {g : SortedSet → α} (hf : ∀ s, ks.set? now key = some s → f s = .ok (g s)) :
    (ks.run (Command.readSet now key empty f)).1 = .ok ((ks.set? now key).elim empty g) := by
  unfold Command.readSet
  rw [run_bind_ok (run_discard_ok (run_checkLive h now key)), run_bind, Command.run_lookupSet (h.purge now key),
    Command.find?_purge h, setIn_value hc]
  cases hs : ks.set? now key with
  | none => rfl
  | some s =>
    show ((ks.purge now key).run (Command.ofFault (f s))).1 = _
    rw [hf s hs]
    rfl

/-- The entries under the key with scores in the range. -/
def listed (now : Nat) (ks : Keyspace) (key : Bytes) (r : ScoreRange) : List Entry :=
  (ks.set? now key).elim [] (·.listed r)

section
variable (h : Parallel ks ks) (hc : ¬ ks.Clashes now key .sortedSet)
include h hc

theorem run_paged {query : SortedSet → SortedSet.Limit → Except Fault (List Entry)} {all : SortedSet → List Entry}
    (hq : ∀ s b, s.Tracks b → ∀ limit, query s limit = .ok (limit.cut (all s))) (page : Option Page) :
    (ks.run (Command.readSet now key [] fun s =>
      match Page.limitOf? page with
      | some limit => query s limit
      | none => return [])).1 = .ok (Page.cutOf page ((ks.set? now key).elim [] all)) := by
  rw [run_readSet h.left hc [] (g := fun s => Page.cutOf page (all s))]
  · cases ks.set? now key <;> simp
  · intro s hs
    obtain ⟨b, hb⟩ := h.tracked_set? hs
    rw [Page.cutOf_eq]
    cases Page.limitOf? page with
    | none => rfl
    | some limit => exact hq s b hb limit

variable (r : ScoreRange) (page : Option Page)

theorem handle_scoreRange :
    (ks.handle now (.scoreRange key r page)).1 = .ok (.entries (Page.cutOf page (ks.listed now key r))) := by
  show (ks.run (Reply.entries <$> Command.scoreRange now key r page)).1 = _
  unfold Command.scoreRange
  rw [run_map]
  exact congrArg (Except.map Reply.entries) (run_paged h hc (fun s b hb => (hb.lists r).upLimit) page)

theorem handle_revScoreRange :
    (ks.handle now (.revScoreRange key r page)).1 =
      .ok (.entries (Page.cutOf page (ks.listed now key r).reverse)) := by
  show (ks.run (Reply.entries <$> Command.revScoreRange now key r page)).1 = _
  have hreverse : (ks.listed now key r).reverse = (ks.set? now key).elim [] fun s => (s.listed r).reverse := by
    unfold listed
    cases ks.set? now key <;> rfl
  unfold Command.revScoreRange
  rw [run_map, hreverse]
  exact congrArg (Except.map Reply.entries) (run_paged h hc (fun s b hb => (hb.lists r).downLimit) page)

theorem handle_countInRange :
    (ks.handle now (.countInRange key r)).1 = .ok (.number (ks.listed now key r).length) := by
  show (ks.run (Reply.number <$> Command.countInRange now key r)).1 = _
  unfold Command.countInRange listed
  rw [run_map, run_readSet h.left hc 0 (g := fun s => (s.listed r).length)]
  · cases ks.set? now key <;> rfl
  · intro s hs
    obtain ⟨b, hb⟩ := h.tracked_set? hs
    exact (hb.lists r).count

end

theorem wrongType_scoreRange (h : ks.Sane) (hc : ks.Clashes now key .sortedSet) (r : ScoreRange)
    (page : Option Page) : (ks.handle now (.scoreRange key r page)).1 = .error .wrongType ∧
      (ks.handle now (.revScoreRange key r page)).1 = .error .wrongType :=
  ⟨(Command.wrongType_map ks _ _).mpr ((Command.wrongType_readSet h key _ _).mpr hc),
    (Command.wrongType_map ks _ _).mpr ((Command.wrongType_readSet h key _ _).mpr hc)⟩

/-- Whatever sets have gone through, a query with a limit answers what the limit leaves of the query without
one; a count is the number of entries listed. Worked out in words, nothing is given up. In whatever state a
keyspace is, its commands show the page of what they answer without one, unless the key holds no set. -/
theorem limits_and_pages (maxLevel : Nat) (towers : Towers) (cs : List SortedSet.Call)
    (h : Board.PermitsAll [.empty] cs) :
    (∃ sets, SortedSet.calls [.empty maxLevel towers] cs = .ok (sets, (Board.calls [.empty] cs).2) ∧
      ∀ s ∈ sets, ∀ r, s.Lists r (s.listed r) ∧ (s.count < wordMax → s.FitsWords r)) ∧
    ∀ ks, Reachable ks → ∀ now key r,
      (ks.Clashes now key .sortedSet → ∀ page,
        (ks.handle now (.scoreRange key r page)).1 = .error .wrongType ∧
          (ks.handle now (.revScoreRange key r page)).1 = .error .wrongType) ∧
      (¬ ks.Clashes now key .sortedSet →
        (ks.handle now (.scoreRange key r none)).1 = .ok (.entries (ks.listed now key r)) ∧
        (ks.handle now (.revScoreRange key r none)).1 = .ok (.entries (ks.listed now key r).reverse) ∧
        (ks.handle now (.countInRange key r)).1 = .ok (.number (ks.listed now key r).length) ∧
        ∀ page : Page,
          (ks.handle now (.scoreRange key r (some page))).1 = .ok (.entries (page.cut (ks.listed now key r))) ∧
          (ks.handle now (.revScoreRange key r (some page))).1 =
            .ok (.entries (page.cut (ks.listed now key r).reverse))) := by
  constructor
  · obtain ⟨sets, hsets, ht⟩ := SortedSet.calls_ok cs (.cons (.empty maxLevel towers) .nil) h
    refine ⟨sets, hsets, ?_⟩
    intro s hs r
    obtain ⟨b, hb⟩ := SortedSet.exists_of_forall₂ ht hs
    exact ⟨hb.lists r, fun hcount => hb.fitsWords hcount r⟩
  · intro ks hreach now key r
    refine ⟨fun hc page => wrongType_scoreRange hreach.sane hc r page, ?_⟩
    intro hc
    have hp := hreach.parallel
    exact ⟨handle_scoreRange hp hc r none, handle_revScoreRange hp hc r none, handle_countInRange hp hc r,
      fun page => ⟨handle_scoreRange hp hc r (some page), handle_revScoreRange hp hc r (some page)⟩⟩

/-- The greatest count, from both ends, and pages that show all and nothing. -/
theorem limits_and_pages_greatest :
    let range : ScoreRange := ⟨.bottom, .inclusive .zero⟩
    let limit : SortedSet.Limit := ⟨1, some wordMax⟩
    let ks := standard.after (.request 0 (.addMembers [1] [⟨.posInf, [2]⟩] {}))
    (∃ s, SortedSet.calls [.empty 16 (Towers.seeded 7)] SortedSet.threeAdded = .ok ([s], [some (.count 3)]) ∧
      s.scoreRangeLimit range limit = .ok [⟨.zero, [98]⟩] ∧
      s.revScoreRangeLimit range limit = .ok [⟨.negInf, [99]⟩] ∧ s.countInRange range = .ok 2 ∧
      s.scoreRangeLimitInWords range limit = liftM (s.scoreRangeLimit range limit)) ∧
    ∃ es, (ks.handle 0 (.scoreRange [1] range none)).1 = .ok (.entries es) ∧
      (ks.handle 0 (.scoreRange [1] range (some ⟨0, -1⟩))).1 = .ok (.entries es) ∧
      (ks.handle 0 (.revScoreRange [1] range (some ⟨-1, 5⟩))).1 = .ok (.entries []) := by
  intro range limit ks
  obtain ⟨⟨sets, hsets, hlimits⟩, hpages⟩ :=
    limits_and_pages 16 (Towers.seeded 7) SortedSet.threeAdded SortedSet.permitsAll_threeAdded
  constructor
  · obtain ⟨s, hs, hlist, hcount⟩ := SortedSet.calls_threeAdded
    cases hs.symm.trans hsets
    obtain ⟨hlists, hwords⟩ := hlimits s (List.mem_singleton_self s) range
    have hlisted : s.listed range = [⟨.negInf, [99]⟩, ⟨.zero, [98]⟩] := by
      rw [SortedSet.listed, hlist]
      decide +kernel
    rw [hlisted] at hlists
    exact ⟨s, hs, hlists.upLimit limit, hlists.downLimit limit, hlists.count,
      (hwords (by rw [hcount]; decide)).up limit⟩
  · have hreach : Reachable ks := .step _ (.new _ _)
    obtain ⟨s, -, hvalue⟩ := standard_addMembers [1] (show (⟨.posInf, [2]⟩ : Entry).score.isNaN = false by decide)
    obtain ⟨hall, -, -, hcut⟩ := (hpages ks hreach 0 [1] range).2 (set?_of_value hvalue [1]).2
    exact ⟨_, hall, (hcut ⟨0, -1⟩).1, (hcut ⟨-1, 5⟩).2⟩

end Keyspace

end KeyEngine
