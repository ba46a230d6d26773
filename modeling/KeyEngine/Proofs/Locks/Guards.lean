import KeyEngine.Proofs.Locks

/-!
# Guards and the stripes they cover

The guards that are alive tell the state of every stripe: one exclusive guard holds it alone, or as many
guards share it as cover it. Taking a guard and dropping one keep this so, in any order.
-/

namespace KeyEngine

/-- The two guards have a stripe in common that one of them wants for itself. -/
def Guard.Clashes (a b : Guard) : Prop :=
  (a.mode = .exclusive ∨ b.mode = .exclusive) ∧ ∃ i ∈ a.stripes, i ∈ b.stripes

theorem Guard.Clashes.symm {a b : Guard} (h : a.Clashes b) : b.Clashes a := by
  obtain ⟨hmode, i, ha, hb⟩ := h
  exact ⟨hmode.symm, i, hb, ha⟩

/-! ## One stripe -/

namespace StripeState

/-- The state of a stripe while these guards are alive. -/
def under (gs : List Guard) (i : Nat) : StripeState :=
  if ∃ g ∈ gs, g.mode = .exclusive ∧ i ∈ g.stripes then .exclusive
  else .shared (gs.countP (i ∈ ·.stripes))

variable {gs gs' : List Guard} {g : Guard} {i : Nat}

theorem under_perm (h : gs.Perm gs') (i : Nat) : under gs i = under gs' i := by
  simp only [under, h.mem_iff, h.countP_eq]

theorem under_cons_of_notMem (hi : i ∉ g.stripes) : under (g :: gs) i = under gs i := by
  simp [under, hi]

theorem isHeld_under : (under gs i).isHeld = true ↔ ∃ g ∈ gs, i ∈ g.stripes := by
  unfold under
  split
  · rename_i h
    obtain ⟨g, hg, -, hi⟩ := h
    simp only [isHeld, true_iff]
    exact ⟨g, hg, hi⟩
  · simp [isHeld, List.countP_eq_zero]

theorem under_eq_free : under gs i = free ↔ ∀ g ∈ gs, i ∉ g.stripes := by
  unfold under
  split
  · rename_i h
    obtain ⟨g, hg, -, hi⟩ := h
    simp only [free, reduceCtorEq, false_iff]
    exact fun hnone => hnone g hg hi
  · simp [free, List.countP_eq_zero]

/-- A stripe can be taken for a guard that clashes with none. -/
theorem acquire_under (hi : i ∈ g.stripes) (h : ∀ b ∈ gs, ¬ g.Clashes b) :
    (under gs i).acquire g.mode = some (under (g :: gs) i) := by
  have hmode : ∀ b ∈ gs, i ∈ b.stripes → g.mode ≠ .exclusive ∧ b.mode ≠ .exclusive := by
    intro b hb hib
    rw [← not_or]
    exact fun hm => h b hb ⟨hm, i, hi, hib⟩
  have hone : ¬ ∃ b ∈ gs, b.mode = .exclusive ∧ i ∈ b.stripes := by
    intro ⟨b, hb, he, hib⟩
    exact (hmode b hb hib).2 he
  cases hg : g.mode with
  | shared => simp [under, hone, hg, hi, acquire]
  | exclusive =>
    have hnone : gs.countP (i ∈ ·.stripes) = 0 := by
      rw [List.countP_eq_zero]
      intro b hb
      rw [decide_eq_true_eq]
      exact fun hib => (hmode b hb hib).1 hg
    simp [under, hone, hnone, hg, hi, acquire]

theorem acquire_under_eq_none {mode : LockMode} {b : Guard} (hb : b ∈ gs) (hi : i ∈ b.stripes)
    (hmode : mode = .exclusive ∨ b.mode = .exclusive) : (under gs i).acquire mode = none := by
  by_cases hone : ∃ b ∈ gs, b.mode = .exclusive ∧ i ∈ b.stripes
  · simp only [under, hone, if_true]
    cases mode <;> rfl
  · have hshared : b.mode ≠ .exclusive := fun he => hone ⟨b, hb, he, hi⟩
    have hpos : 0 < gs.countP (i ∈ ·.stripes) := List.countP_pos_iff.mpr ⟨b, hb, by simpa using hi⟩
    obtain ⟨n, hn⟩ := Nat.exists_eq_add_of_lt hpos
    simp [under, hone, hn, hmode.resolve_right hshared, acquire]

theorem release_under (hi : i ∈ g.stripes) (h : ∀ b ∈ gs, ¬ g.Clashes b) :
    (under (g :: gs) i).release g.mode = under gs i :=
  release_of_acquire (acquire_under hi h)

end StripeState

/-! ## The table -/

namespace LockTable

variable {t : LockTable} {gs gs' : List Guard} {g : Guard}

/-- The table is as these guards make it, and nothing else is held. -/
structure Shows (t : LockTable) (gs : List Guard) : Prop where
  states : ∀ i < t.size, t.stripes[i]? = some (.under gs i)
  /-- No guard covers a stripe twice. -/
  ascending : ∀ g ∈ gs, g.stripes.Pairwise (· < ·)
  within : ∀ g ∈ gs, ∀ i ∈ g.stripes, i < t.size
  apart : gs.Pairwise fun a b => ¬ a.Clashes b

theorem shows_empty (n : Nat) : (empty n).Shows [] where
  states i hi := by
    simp only [size, empty, Array.size_replicate] at hi
    simp [empty, hi, StripeState.under, StripeState.free]
  ascending := by simp
  within := by simp
  apart := .nil

theorem Shows.perm (h : t.Shows gs) (hp : gs.Perm gs') : t.Shows gs' where
  states i hi := by rw [h.states i hi, StripeState.under_perm hp]
  ascending g hg := h.ascending g (hp.mem_iff.mpr hg)
  within g hg := h.within g (hp.mem_iff.mpr hg)
  apart := (hp.pairwise_iff fun hab hba => hab hba.symm).mp h.apart

/-- One stripe that would have to be waited for, and none is taken. -/
theorem acquire_eq_none {mode : LockMode} {is : List Nat} (hn : is.Nodup) {i : Nat} (hi : i ∈ is)
    (hnone : t.stripes[i]?.bind (·.acquire mode) = none) : t.acquire mode is = none := by
  induction is generalizing t with
  | nil => cases hi
  | cons j is ih =>
    obtain ⟨hj, hn⟩ := List.nodup_cons.mp hn
    show t.stripes[j]?.bind (fun state => (state.acquire mode).bind _) = none
    rcases List.mem_cons.mp hi with hij | hi
    · subst hij
      cases hs : t.stripes[i]? with
      | none => rfl
      | some state =>
        rw [hs, Option.bind_some] at hnone
        rw [Option.bind_some, hnone]
        rfl
    · cases hs : t.stripes[j]? with
      | none => rfl
      | some state =>
        cases hstate : state.acquire mode with
        | none => simp [hstate]
        | some state' =>
          have hne : j ≠ i := fun hij => hj (hij ▸ hi)
          rw [Option.bind_some, hstate, Option.bind_some]
          apply ih hn hi
          rw [Array.getElem?_setIfInBounds_ne hne]
          exact hnone

theorem Shows.acquire (h : t.Shows gs) (hsorted : g.stripes.Pairwise (· < ·))
    (hlt : ∀ i ∈ g.stripes, i < t.size) (hg : ∀ b ∈ gs, ¬ g.Clashes b) :
    ∃ t', t.acquire g.mode g.stripes = some t' ∧ t'.Shows (g :: gs) := by
  have hacquire : ∀ i ∈ g.stripes, t.stripes[i]?.bind (·.acquire g.mode) = some (.under (g :: gs) i) := by
    intro i hi
    rw [h.states i (hlt i hi), Option.bind_some, StripeState.acquire_under hi hg]
  obtain ⟨t', ht', hstripes⟩ := acquire_ok (hsorted.imp Nat.ne_of_lt) fun i hi => by
    rw [hacquire i hi]
    rfl
  have hsize := (acquire_frame ht').2
  refine ⟨t', ht', ?_, ?_, ?_, List.pairwise_cons.mpr ⟨hg, h.apart⟩⟩
  · intro i hi
    rw [hstripes]
    by_cases hin : i ∈ g.stripes
    · rw [if_pos hin, hacquire i hin]
    · rw [if_neg hin, h.states i (hsize ▸ hi), StripeState.under_cons_of_notMem hin]
  · exact List.forall_mem_cons.mpr ⟨hsorted, h.ascending⟩
  · rw [hsize]
    exact List.forall_mem_cons.mpr ⟨hlt, h.within⟩

theorem Shows.refuse (h : t.Shows gs) (hn : g.stripes.Nodup) {b : Guard} (hb : b ∈ gs) (hc : g.Clashes b) :
    t.acquire g.mode g.stripes = none := by
  obtain ⟨hmode, i, hi, hib⟩ := hc
  apply acquire_eq_none hn hi
  rw [h.states i (h.within b hb i hib), Option.bind_some]
  exact StripeState.acquire_under_eq_none hb hib hmode

theorem Shows.release (h : t.Shows (g :: gs)) : (t.release g).Shows gs := by
  obtain ⟨hg, hgs⟩ := List.pairwise_cons.mp h.apart
  have hn : g.stripes.Nodup := (h.ascending g List.mem_cons_self).imp Nat.ne_of_lt
  refine ⟨?_, ?_, ?_, hgs⟩
  · intro i hi
    rw [size_release] at hi
    rw [getElem?_release hn, h.states i hi]
    by_cases hin : i ∈ g.stripes
    · rw [if_pos hin, Option.map_some, StripeState.release_under hin hg]
    · rw [if_neg hin, StripeState.under_cons_of_notMem hin]
  · exact fun b hb => h.ascending b (List.mem_cons_of_mem g hb)
  · rw [size_release]
    exact fun b hb => h.within b (List.mem_cons_of_mem g hb)

end LockTable

end KeyEngine
