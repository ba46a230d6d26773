import KeyEngine.Proofs.Locks.Guards

/-!
# Histories of guards

Guards are taken and dropped one after another. At every point the guards that are alive say which stripes
are held, which locks would have to wait, and which stripes become free when one of them is dropped.
-/

namespace KeyEngine

inductive LockCall where
  | lock (name : String) (mode : LockMode) (keys : List Bytes)
  | drop (name : String)

inductive LockAnswer where
  | taken (stripes : List Nat)
  /-- It would have to wait. -/
  | refused
  | failed (cause : Error)
  | dropped (found : Bool)

namespace Holders

/-- The guards that are alive. -/
def live (h : Holders) : List Guard :=
  h.guards.map Prod.snd

def call (h : Holders) : LockCall → Holders × LockAnswer
  | .lock name mode keys =>
    match h.lock name mode keys with
    | .ok (h', some stripes) => (h', .taken stripes)
    | .ok (h', none) => (h', .refused)
    | .error cause => (h, .failed cause)
  | .drop name =>
    let (h', found) := h.release name
    (h', .dropped found)

def calls (h : Holders) (cs : List LockCall) : Holders :=
  cs.foldl (fun h c => (h.call c).1) h

variable {h : Holders} {name : String} {mode : LockMode} {keys : List Bytes}

theorem guards_release (h : Holders) (name : String) :
    (h.release name).1.guards = h.guards.eraseP (·.1 = name) := by
  unfold release
  split
  · rfl
  · rename_i hnone
    rw [List.lookup_eq_none_iff] at hnone
    rw [List.eraseP_of_forall_not]
    intro p hp
    have hne : name ≠ p.1 := bne_iff_ne.mp (hnone p hp)
    simp [hne.symm]

theorem table_release (h : Holders) (name : String) :
    (h.release name).1.table.router = h.table.router ∧ (h.release name).1.table.size = h.table.size := by
  unfold release
  split
  · exact ⟨rfl, h.table.size_release _⟩
  · exact ⟨rfl, rfl⟩

theorem perm_of_lookup {g : Guard} (hg : h.guards.lookup name = some g) :
    h.guards.Perm ((name, g) :: h.guards.eraseP (·.1 = name)) := by
  obtain ⟨pre, post, hsplit, hpre⟩ := List.lookup_eq_some_iff.mp hg
  have herase : h.guards.eraseP (·.1 = name) = pre ++ post := by
    rw [hsplit, List.eraseP_append_right, List.eraseP_cons_of_pos]
    · simp
    · intro p hp
      have hne : name ≠ p.1 := bne_iff_ne.mp (hpre p hp)
      simp [hne.symm]
  rw [herase, hsplit]
  exact List.perm_middle

theorem names_eraseP (guards : List (String × Guard)) (name : String) :
    (guards.eraseP (·.1 = name)).map Prod.fst = (guards.map Prod.fst).erase name := by
  rw [List.erase_eq_eraseP, List.eraseP_map]
  congr 2
  funext p
  simp [Bool.beq_eq_decide_eq, eq_comm]

/-- Other guards, not yet or no longer among those with a name, may be alive at the time. -/
theorem shows_release (others : List Guard) (hs : h.table.Shows (others ++ h.live)) (name : String) :
    (h.release name).1.table.Shows (others ++ (h.release name).1.live) := by
  unfold release
  split
  · rename_i g hg
    have hperm : (others ++ h.live).Perm (g :: (others ++ (h.guards.eraseP (·.1 = name)).map Prod.snd)) :=
      (((perm_of_lookup hg).map Prod.snd).append_left others).trans List.perm_middle
    exact (hs.perm hperm).release
  · exact hs

/-- The guards that are alive make the table as it is, each under a name of its own, and every key has a
stripe. -/
structure Kept (h : Holders) : Prop where
  names : (h.guards.map Prod.fst).Nodup
  shows : h.table.Shows h.live
  router : 0 < h.table.router.modulus
  size : h.table.router.modulus = h.table.size

theorem kept_empty (n : Nat) : (empty n).Kept where
  names := .nil
  shows := LockTable.shows_empty n
  router := Config.clampShards_pos n
  size := Array.size_replicate.symm

theorem Kept.release (hk : h.Kept) (name : String) : (h.release name).1.Kept where
  names := by
    rw [guards_release, names_eraseP]
    exact hk.names.erase name
  shows := shows_release [] hk.shows name
  router := by
    rw [(table_release h name).1]
    exact hk.router
  size := by
    rw [(table_release h name).1, (table_release h name).2]
    exact hk.size

theorem lock_of_acquire {is : List Nat} {t : LockTable} (his : h.table.stripesOf keys = .ok is)
    (ht : h.table.acquire mode is = some t) :
    h.lock name mode keys = .ok
      (⟨(release ⟨t, h.guards⟩ name).1.table, (name, ⟨mode, is⟩) :: h.guards.eraseP (·.1 = name)⟩, some is) := by
  unfold lock
  simp only [his, ht, bind, Except.bind]
  rw [← guards_release ⟨t, h.guards⟩ name]
  rfl

theorem lock_of_refusal {is : List Nat} (his : h.table.stripesOf keys = .ok is)
    (ht : h.table.acquire mode is = none) : h.lock name mode keys = .ok (h, none) := by
  unfold lock
  simp only [his, ht, bind, Except.bind]
  rfl

/-- The guard that is replaced is still alive when the stripes are taken. -/
theorem Kept.lock (hk : h.Kept) (name : String) {is : List Nat} (his : h.table.stripesOf keys = .ok is)
    (hfree : ∀ b ∈ h.live, ¬ Guard.Clashes ⟨mode, is⟩ b) :
    ∃ t, h.lock name mode keys = .ok (⟨t, (name, ⟨mode, is⟩) :: h.guards.eraseP (·.1 = name)⟩, some is) ∧
      Kept ⟨t, (name, ⟨mode, is⟩) :: h.guards.eraseP (·.1 = name)⟩ := by
  obtain ⟨js, hjs, hsorted, hmem⟩ := LockTable.stripesOf_ok hk.router keys
  cases his.symm.trans hjs
  have hlt : ∀ i ∈ is, i < h.table.size := by
    intro i hi
    obtain ⟨key, -, hkey⟩ := (hmem i).mp hi
    rw [← hk.size]
    exact Router.lt_of_route hkey
  obtain ⟨t, ht, hshows⟩ := hk.shows.acquire (g := ⟨mode, is⟩) hsorted hlt hfree
  obtain ⟨hrouter, hsize⟩ := LockTable.acquire_frame ht
  obtain ⟨hrouter', hsize'⟩ := table_release ⟨t, h.guards⟩ name
  refine ⟨_, lock_of_acquire his ht, ?_, ?_, ?_, ?_⟩
  · show (name :: (h.guards.eraseP (·.1 = name)).map Prod.fst).Nodup
    rw [names_eraseP]
    exact List.nodup_cons.mpr ⟨hk.names.not_mem_erase, hk.names.erase name⟩
  · have hrest := @shows_release ⟨t, h.guards⟩ [⟨mode, is⟩] hshows name
    unfold live at hrest
    rw [guards_release] at hrest
    exact hrest
  · dsimp only
    rw [hrouter', hrouter]
    exact hk.router
  · dsimp only
    rw [hrouter', hrouter, hsize', hsize]
    exact hk.size

theorem Kept.lock_refused (hk : h.Kept) {is : List Nat} (his : h.table.stripesOf keys = .ok is)
    {b : Guard} (hb : b ∈ h.live) (hc : Guard.Clashes ⟨mode, is⟩ b) :
    h.lock name mode keys = .ok (h, none) := by
  obtain ⟨js, hjs, hsorted, -⟩ := LockTable.stripesOf_ok hk.router keys
  cases his.symm.trans hjs
  exact lock_of_refusal his (hk.shows.refuse (g := ⟨mode, is⟩) (hsorted.imp Nat.ne_of_lt) hb hc)

theorem Kept.call (hk : h.Kept) (c : LockCall) : (h.call c).1.Kept := by
  cases c with
  | lock name mode keys =>
    obtain ⟨is, his, -, -⟩ := LockTable.stripesOf_ok hk.router keys
    simp only [Holders.call]
    by_cases hc : ∃ b ∈ h.live, Guard.Clashes ⟨mode, is⟩ b
    · obtain ⟨b, hb, hc⟩ := hc
      rw [hk.lock_refused his hb hc]
      exact hk
    · obtain ⟨t, ht, hkept⟩ := hk.lock name his fun b hb hcb => hc ⟨b, hb, hcb⟩
      rw [ht]
      exact hkept
  | drop name => exact hk.release name

theorem Kept.calls (hk : h.Kept) (cs : List LockCall) : (h.calls cs).Kept := by
  induction cs generalizing h with
  | nil => exact hk
  | cons c cs ih => exact ih (hk.call c)

/-! ## What the guards tell -/

theorem Kept.isLocked (hk : h.Kept) (key : Bytes) :
    ∃ i b, h.table.stripe key = .ok i ∧ h.table.isLocked key = .ok b ∧
      (b = true ↔ ∃ g ∈ h.live, i ∈ g.stripes) := by
  obtain ⟨i, hi, hlt⟩ := LockTable.stripe_ok hk.router key
  rw [hk.size] at hlt
  refine ⟨i, (StripeState.under h.live i).isHeld, hi, ?_, StripeState.isHeld_under⟩
  unfold LockTable.isLocked
  rw [hi]
  show Except.ok (h.table.stripes[i]?.any (·.isHeld)) = _
  rw [hk.shows.states i hlt]
  rfl

theorem lookup_of_mem (hn : (h.guards.map Prod.fst).Nodup) {g : Guard} (hg : (name, g) ∈ h.guards) :
    h.guards.lookup name = some g := by
  obtain ⟨pre, post, hsplit⟩ := List.append_of_mem hg
  refine List.lookup_eq_some_iff.mpr ⟨pre, post, hsplit, ?_⟩
  intro p hp
  rw [hsplit, List.map_append, List.nodup_append] at hn
  have hne := hn.2.2 p.1 (List.mem_map_of_mem hp) name (by simp)
  exact bne_iff_ne.mpr hne.symm

theorem Kept.drop (hk : h.Kept) {g : Guard} (hg : (name, g) ∈ h.guards) :
    ∃ t, h.call (.drop name) = (⟨t, h.guards.eraseP (·.1 = name)⟩, .dropped true) ∧
      (∀ i ∈ g.stripes, t.stripes[i]? = some .free ↔
        ∀ b ∈ (h.guards.eraseP (·.1 = name)).map Prod.snd, i ∉ b.stripes) ∧
      ∀ i ∉ g.stripes, t.stripes[i]? = h.table.stripes[i]? := by
  have hlookup := lookup_of_mem hk.names hg
  have hrelease : h.release name = (⟨h.table.release g, h.guards.eraseP (·.1 = name)⟩, true) := by
    unfold Holders.release
    rw [hlookup]
  have hkept := hk.release name
  rw [hrelease] at hkept
  have hmem : g ∈ h.live := List.mem_map_of_mem hg
  refine ⟨h.table.release g, ?_, ?_, ?_⟩
  · simp only [Holders.call, hrelease]
  · intro i hi
    have hlt : i < (h.table.release g).size := by
      rw [LockTable.size_release]
      exact hk.shows.within g hmem i hi
    rw [hkept.shows.states i hlt, Option.some_inj]
    exact StripeState.under_eq_free
  · intro i hi
    rw [LockTable.getElem?_release ((hk.shows.ascending g hmem).imp Nat.ne_of_lt), if_neg hi]

theorem call_unchanged (c : LockCall) (hc : (h.call c).2 = .refused ∨ ∃ cause, (h.call c).2 = .failed cause) :
    (h.call c).1 = h := by
  cases c with
  | lock name mode keys =>
    cases his : h.table.stripesOf keys with
    | error cause =>
      have hlock : h.lock name mode keys = .error cause := by
        unfold Holders.lock
        rw [his]
        rfl
      simp only [call, hlock]
    | ok is =>
      cases ht : h.table.acquire mode is with
      | none => simp only [call, lock_of_refusal his ht]
      | some t => simp [call, lock_of_acquire his ht] at hc
  | drop name => simp [call] at hc

theorem call_unroutable (hr : h.table.router.modulus = 0) (key : Bytes) :
    h.call (.lock name mode (key :: keys)) = (h, .failed (.unroutable key)) := by
  have hstripe : h.table.stripe key = .error (.unroutable key) := by
    simp [LockTable.stripe, Router.route, hr]
  have hlock : h.lock name mode (key :: keys) = .error (.unroutable key) := by
    unfold Holders.lock LockTable.stripesOf
    rw [hstripe]
    rfl
  simp only [call, hlock]

/-- After any calls a stripe is held exactly if a guard that is alive covers it, and a guard that has a stripe
to itself shares it with no other. Keys are locked unless their stripes, each taken once, would have to be
waited for; what a guard lets go is free unless another covers it. A lock that is refused, or fails for
want of a stripe, changes nothing. -/
theorem calls_accounted (n : Nat) (cs : List LockCall) :
    let h := (empty n).calls cs
    (∀ key, ∃ i b, h.table.stripe key = .ok i ∧ h.table.isLocked key = .ok b ∧
      (b = true ↔ ∃ g ∈ h.live, i ∈ g.stripes)) ∧
    (h.guards.map Prod.fst).Nodup ∧ h.live.Pairwise (fun a b => ¬ a.Clashes b) ∧
    (∀ g ∈ h.live, g.stripes.Pairwise (· < ·)) ∧
    (∀ name mode keys, ∃ is, h.table.stripesOf keys = .ok is ∧ is.Pairwise (· < ·) ∧
      (∀ i, i ∈ is ↔ ∃ key ∈ keys, h.table.stripe key = .ok i) ∧
      ((∃ b ∈ h.live, Guard.Clashes ⟨mode, is⟩ b) → h.call (.lock name mode keys) = (h, .refused)) ∧
      ((∀ b ∈ h.live, ¬ Guard.Clashes ⟨mode, is⟩ b) → ∃ t, h.call (.lock name mode keys) =
        (⟨t, (name, ⟨mode, is⟩) :: h.guards.eraseP (·.1 = name)⟩, .taken is))) ∧
    (∀ name g, (name, g) ∈ h.guards →
      ∃ t, h.call (.drop name) = (⟨t, h.guards.eraseP (·.1 = name)⟩, .dropped true) ∧
        (∀ i ∈ g.stripes, t.stripes[i]? = some .free ↔
          ∀ b ∈ (h.guards.eraseP (·.1 = name)).map Prod.snd, i ∉ b.stripes) ∧
        ∀ i ∉ g.stripes, t.stripes[i]? = h.table.stripes[i]?) ∧
    ∀ h' : Holders,
      (∀ c, ((h'.call c).2 = .refused ∨ ∃ cause, (h'.call c).2 = .failed cause) → (h'.call c).1 = h') ∧
      (h'.table.router.modulus = 0 → ∀ name mode key keys,
        h'.call (.lock name mode (key :: keys)) = (h', .failed (.unroutable key))) := by
  intro h
  have hk : h.Kept := (kept_empty n).calls cs
  refine ⟨hk.isLocked, hk.names, hk.shows.apart, hk.shows.ascending, ?_, fun name g => hk.drop, ?_⟩
  · intro name mode keys
    obtain ⟨is, his, hsorted, hmem⟩ := LockTable.stripesOf_ok hk.router keys
    refine ⟨is, his, hsorted, hmem, ?_, ?_⟩
    · intro ⟨b, hb, hc⟩
      simp only [call, hk.lock_refused his hb hc]
    · intro hfree
      obtain ⟨t, ht, -⟩ := hk.lock name his hfree
      exact ⟨t, by simp only [call, ht]⟩
  · intro h'
    exact ⟨fun c => call_unchanged c, fun hr name mode key keys => call_unroutable hr key⟩

/-- Two of the keys have the same stripe, and another stripe is shared by both guards. -/
theorem calls_accounted_shared :
    let h := (empty 64).calls [.lock "a" .shared [[120], [121], [56], [120]], .lock "b" .shared [[121]]]
    let unrouted : Holders := ⟨⟨#[.free], ⟨0⟩⟩, []⟩
    h.live = [⟨.shared, [49]⟩, ⟨.shared, [49, 60]⟩] ∧
      h.call (.lock "c" .exclusive [[56]]) = (h, .refused) ∧
      (∃ t, h.call (.lock "c" .shared [[56]]) = (⟨t, ("c", ⟨.shared, [60]⟩) :: h.guards⟩, .taken [60])) ∧
      (∃ t, h.call (.drop "a") = (⟨t, [("b", ⟨.shared, [49]⟩)]⟩, .dropped true) ∧
        t.stripes[60]? = some .free ∧ t.stripes[49]? ≠ some .free) ∧
      unrouted.call (.lock "c" .shared [[56]]) = (unrouted, .failed (.unroutable [56])) ∧
      (unrouted.call (.lock "c" .shared [[56]])).1 = unrouted := by
  intro h unrouted
  have hlive : h.live = [⟨.shared, [49]⟩, ⟨.shared, [49, 60]⟩] := by decide +kernel
  obtain ⟨-, -, -, -, hlock, hdrop, hfail⟩ := calls_accounted 64
    [.lock "a" .shared [[120], [121], [56], [120]], .lock "b" .shared [[121]]]
  have hstripes : h.table.stripesOf [[56]] = .ok [60] := by decide +kernel
  have hfailed : unrouted.call (.lock "c" .shared [[56]]) = (unrouted, .failed (.unroutable [56])) :=
    (hfail unrouted).2 rfl "c" .shared [56] []
  refine ⟨hlive, ?_, ?_, ?_, hfailed, (hfail unrouted).1 _ (.inr ⟨_, congrArg Prod.snd hfailed⟩)⟩
  · obtain ⟨is, his, -, -, hrefused, -⟩ := hlock "c" .exclusive [[56]]
    cases hstripes.symm.trans his
    exact hrefused ⟨⟨.shared, [49, 60]⟩, by decide +kernel, .inl rfl, 60, by simp, by simp⟩
  · obtain ⟨is, his, -, -, -, htaken⟩ := hlock "c" .shared [[56]]
    cases hstripes.symm.trans his
    apply htaken
    intro b hb hc
    have hshared : b.mode = .shared := by
      have hall : ∀ b ∈ h.live, b.mode = .shared := by simp [hlive]
      exact hall b hb
    simp [Guard.Clashes, hshared] at hc
  · obtain ⟨t, ht, hfree, -⟩ := hdrop "a" ⟨.shared, [49, 60]⟩ (by decide +kernel)
    refine ⟨t, ht, (hfree 60 (by simp)).mpr (by decide +kernel), ?_⟩
    intro h49
    exact (hfree 49 (by simp)).mp h49 ⟨.shared, [49]⟩ (by decide +kernel) (by simp)

end Holders

end KeyEngine
