import KeyEngine.Locks
import Mathlib.Data.List.Nodup

/-!
# Locking several keys

The stripes of any keys come in ascending order, each once. Taking stripes adds one holder to each of them,
and letting them go takes that holder off again.
-/

namespace KeyEngine

theorem StripeState.release_of_acquire {mode : LockMode} {state state' : StripeState}
    (h : state.acquire mode = some state') : state'.release mode = state := by
  cases mode with
  | shared =>
    cases state with
    | shared n =>
      cases h
      rfl
    | exclusive => cases h
  | exclusive =>
    cases state with
    | shared n =>
      cases n with
      | zero =>
        cases h
        rfl
      | succ n => cases h
    | exclusive => cases h

namespace LockTable

variable {t : LockTable} {mode : LockMode}

/-! ## The stripes of keys -/

theorem mem_insertStripe {i j : Nat} {js : List Nat} : j ∈ insertStripe i js ↔ j = i ∨ j ∈ js := by
  induction js with
  | nil => simp [insertStripe]
  | cons k ks ih =>
    unfold insertStripe
    split
    · simp
    · split
      · rename_i he
        simp [he]
      · rw [List.mem_cons, ih, List.mem_cons, or_left_comm]

theorem pairwise_insertStripe {js : List Nat} (h : js.Pairwise (· < ·)) (i : Nat) :
    (insertStripe i js).Pairwise (· < ·) := by
  induction js with
  | nil => exact List.pairwise_singleton _ i
  | cons k ks ih =>
    obtain ⟨hk, hks⟩ := List.pairwise_cons.mp h
    unfold insertStripe
    split
    · rename_i hlt
      refine List.pairwise_cons.mpr ⟨?_, h⟩
      rintro j hj
      rcases List.mem_cons.mp hj with rfl | hj
      · exact hlt
      · exact Nat.lt_trans hlt (hk j hj)
    · split
      · exact h
      · refine List.pairwise_cons.mpr ⟨?_, ih hks⟩
        intro j hj
        rcases mem_insertStripe.mp hj with rfl | hj
        · omega
        · exact hk j hj

theorem stripe_ok (h : 0 < t.router.modulus) (key : Bytes) :
    ∃ i, t.stripe key = .ok i ∧ i < t.router.modulus :=
  ⟨_, Router.route_of_pos h key, Nat.mod_lt _ h⟩

theorem stripesOf_ok (h : 0 < t.router.modulus) (keys : List Bytes) :
    ∃ is, t.stripesOf keys = .ok is ∧ is.Pairwise (· < ·) ∧
      ∀ i, i ∈ is ↔ ∃ key ∈ keys, t.stripe key = .ok i := by
  induction keys with
  | nil => exact ⟨[], rfl, .nil, by simp⟩
  | cons key keys ih =>
    obtain ⟨is, his, hsorted, hmem⟩ := ih
    obtain ⟨i, hi, -⟩ := stripe_ok h key
    refine ⟨insertStripe i is, ?_, pairwise_insertStripe hsorted i, fun j => ?_⟩
    · unfold stripesOf
      rw [hi, his]
      rfl
    · rw [mem_insertStripe, hmem]
      simp [hi, eq_comm]

/-! ## Taking stripes and letting them go -/

theorem acquire_frame {is : List Nat} {t' : LockTable} (h : t.acquire mode is = some t') :
    t'.router = t.router ∧ t'.size = t.size := by
  induction is generalizing t with
  | nil =>
    cases h
    exact ⟨rfl, rfl⟩
  | cons i is ih =>
    obtain ⟨state, -, h⟩ := Option.bind_eq_some_iff.mp h
    obtain ⟨state', -, h⟩ := Option.bind_eq_some_iff.mp h
    obtain ⟨hrouter, hsize⟩ := ih h
    exact ⟨hrouter, hsize.trans Array.size_setIfInBounds⟩

theorem size_release (t : LockTable) (g : Guard) : (t.release g).size = t.size := by
  obtain ⟨mode, is⟩ := g
  unfold release size
  dsimp only
  induction is generalizing t with
  | nil => rfl
  | cons i is ih =>
    rw [List.foldl_cons]
    exact (ih { t with stripes := t.stripes.modify i (·.release mode) }).trans (Array.size_modify ..)

theorem acquire_ok {is : List Nat} (hn : is.Nodup)
    (hfree : ∀ i ∈ is, (t.stripes[i]?.bind (·.acquire mode)).isSome) :
    ∃ t', t.acquire mode is = some t' ∧ ∀ i, t'.stripes[i]? =
      if i ∈ is then t.stripes[i]?.bind (·.acquire mode) else t.stripes[i]? := by
  induction is generalizing t with
  | nil => exact ⟨t, rfl, by simp⟩
  | cons i is ih =>
    obtain ⟨hi, hn⟩ := List.nodup_cons.mp hn
    rw [List.forall_mem_cons] at hfree
    obtain ⟨state', hstate'⟩ := Option.isSome_iff_exists.mp hfree.1
    obtain ⟨state, hstate, hacquire⟩ := Option.bind_eq_some_iff.mp hstate'
    have hlt : i < t.stripes.size := (Array.getElem?_eq_some_iff.mp hstate).1
    have hset : ∀ j, (t.stripes.setIfInBounds i state')[j]? = if i = j then some state' else t.stripes[j]? := by
      intro j
      rw [Array.getElem?_setIfInBounds]
      by_cases hij : i = j
      · rw [if_pos hij, if_pos hij, if_pos (hij ▸ hlt)]
      · rw [if_neg hij, if_neg hij]
    have hother : ∀ j ∈ is, i ≠ j := fun j hj hij => hi (hij ▸ hj)
    obtain ⟨t', ht', hstripes⟩ := @ih { t with stripes := t.stripes.setIfInBounds i state' } hn fun j hj => by
      rw [hset, if_neg (hother j hj)]
      exact hfree.2 j hj
    refine ⟨t', ?_, fun j => ?_⟩
    · unfold LockTable.acquire
      rw [hstate]
      show (state.acquire mode).bind _ = _
      rw [hacquire]
      exact ht'
    · rw [hstripes, hset]
      by_cases hij : i = j
      · subst hij
        simp [hi, hstate']
      · simp [hij, Ne.symm hij]

theorem getElem?_release {is : List Nat} (hn : is.Nodup) (i : Nat) :
    (t.release ⟨mode, is⟩).stripes[i]? =
      if i ∈ is then t.stripes[i]?.map (·.release mode) else t.stripes[i]? := by
  unfold LockTable.release
  dsimp only
  induction is generalizing t with
  | nil => simp
  | cons j is ih =>
    obtain ⟨hj, hn⟩ := List.nodup_cons.mp hn
    rw [List.foldl_cons]
    have := @ih { t with stripes := t.stripes.modify j (·.release mode) } hn
    rw [this, Array.getElem?_modify]
    by_cases hij : j = i
    · subst hij
      simp [hj]
    · simp [hij, Ne.symm hij]

/-- Stripes that are free for the taking can be taken together, and are as before when let go. -/
theorem acquire_release {is : List Nat} (hn : is.Nodup)
    (hfree : ∀ i ∈ is, (t.stripes[i]?.bind (·.acquire mode)).isSome) :
    ∃ t', t.acquire mode is = some t' ∧ t'.release ⟨mode, is⟩ = t := by
  obtain ⟨t', ht', hstripes⟩ := acquire_ok hn hfree
  have hback : (t'.release ⟨mode, is⟩).stripes = t.stripes := by
    apply Array.ext_getElem?
    intro i
    rw [getElem?_release hn, hstripes]
    by_cases hi : i ∈ is
    · obtain ⟨state', hstate'⟩ := Option.isSome_iff_exists.mp (hfree i hi)
      obtain ⟨state, hstate, hacquire⟩ := Option.bind_eq_some_iff.mp hstate'
      rw [if_pos hi, if_pos hi, hstate', hstate, Option.map_some, StripeState.release_of_acquire hacquire]
    · rw [if_neg hi, if_neg hi]
  exact ⟨t', ht', LockTable.ext hback (acquire_frame ht').1⟩

theorem acquire_empty (n : Nat) (mode : LockMode) (keys : List Bytes) :
    ∃ is t, (empty n).stripesOf keys = .ok is ∧ (empty n).acquire mode is = some t ∧
      t.release ⟨mode, is⟩ = empty n := by
  have hpos : 0 < (empty n).router.modulus := Config.clampShards_pos n
  obtain ⟨is, his, hsorted, hmem⟩ := stripesOf_ok hpos keys
  have hn : is.Nodup := hsorted.imp Nat.ne_of_lt
  have hfree : ∀ i ∈ is, ((empty n).stripes[i]?.bind (·.acquire mode)).isSome := by
    intro i hi
    obtain ⟨key, -, hkey⟩ := (hmem i).mp hi
    obtain ⟨j, hj, hlt⟩ := stripe_ok hpos key
    cases hkey.symm.trans hj
    have hstate : (empty n).stripes[i]? = some .free := by
      rw [empty, Array.getElem?_replicate]
      exact if_pos hlt
    rw [hstate]
    cases mode <;> rfl
  obtain ⟨t, ht, hback⟩ := acquire_release hn hfree
  exact ⟨is, t, his, ht, hback⟩

end LockTable

end KeyEngine
