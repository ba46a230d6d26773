import KeyEngine.Proofs.Keyspace.Close

/-!
# Commands that are blind to due keys

A blind command answers alike on close keyspaces and leaves them close. Before it uses a key it has to
look at it: the keys in `K` have been looked at before the command, those in `K'` count as looked at
after it.
-/

namespace KeyEngine.Command

open Keyspace

variable {α β : Type} {same : Prop} {now : Nat} {K K' K'' : Set Bytes}

/-- After a failure no key counts as looked at. -/
def looked (K : Set Bytes) : Except Error α → Set Bytes
  | .ok _ => K
  | .error _ => ∅

theorem looked_subset (K : Set Bytes) (result : Except Error α) : looked K result ⊆ K := by
  cases result with
  | ok a => exact subset_rfl
  | error e => exact Set.empty_subset K

theorem looked_mono (hK : K'' ⊆ K') (result : Except Error α) : looked K'' result ⊆ looked K' result := by
  cases result with
  | ok a => exact hK
  | error e => exact subset_rfl

def Blind (same : Prop) (now : Nat) (K : Set Bytes) (c : Command α) (K' : Set Bytes) : Prop :=
  ∀ ks ks', Close same now K ks ks' →
    (ks.run c).1 = (ks'.run c).1 ∧
      Close same now (looked K' (ks.run c).1) (ks.run c).2 (ks'.run c).2

/-! ## Programs -/

theorem blind_pure (a : α) : Blind same now K (pure a) K := by
  intro ks ks' h
  exact ⟨rfl, h⟩

theorem blind_throw (e : Error) : Blind same now K (throw e : Command α) K' := by
  intro ks ks' h
  exact ⟨rfl, h.mono (Set.empty_subset K)⟩

theorem Blind.bind {c : Command α} {f : α → Command β} (hc : Blind same now K c K')
    (hf : ∀ a, Blind same now K' (f a) K'') : Blind same now K (c >>= f) K'' := by
  intro ks ks' h
  obtain ⟨ha, hs⟩ := hc ks ks' h
  rw [run_bind, run_bind]
  rcases hr : ks.run c with ⟨result, t⟩
  rcases hr' : ks'.run c with ⟨result', t'⟩
  rw [hr, hr'] at ha hs
  cases ha
  cases result with
  | error e => exact ⟨rfl, hs⟩
  | ok a => exact hf a t t' hs

theorem Blind.mono {c : Command α} (hc : Blind same now K c K') (hK : K'' ⊆ K') :
    Blind same now K c K'' := by
  intro ks ks' h
  obtain ⟨ha, hs⟩ := hc ks ks' h
  exact ⟨ha, hs.mono (looked_mono hK _)⟩

theorem Blind.map {c : Command α} (hc : Blind same now K c K') (f : α → β) :
    Blind same now K (f <$> c) K' := by
  rw [map_eq_pure_bind]
  exact hc.bind fun a => blind_pure (f a)

theorem Blind.discard {c : Command α} (hc : Blind same now K c K') :
    Blind same now K (discard c) K' :=
  hc.map _

theorem blind_ofFault (result : Except Fault α) : Blind same now K (ofFault result) K := by
  unfold ofFault
  cases result with
  | ok a => exact blind_pure a
  | error fault => exact blind_throw _

/-- A check that may fail comes before the command. -/
theorem blind_guard {p : Prop} [Decidable p] {e : Error} {f : β → Command α} {c : Command α}
    (hc : Blind same now K c K') :
    Blind same now K (if p then do let b ← throw e; f b else c) K' := by
  split
  · intro ks ks' h
    exact blind_throw e ks ks' h
  · exact hc

/-! ## Steps -/

variable {key : Bytes}

theorem blind_lookup (hk : key ∈ K) : Blind same now K (lookup key) K := by
  intro ks ks' h
  rw [run_lookup h.left, run_lookup h.right, h.find?_data hk]
  exact ⟨rfl, h⟩

theorem blind_contains (hk : key ∈ K) : Blind same now K (readData (·.contains key)) K := by
  intro ks ks' h
  rw [run_contains h.left, run_contains h.right, h.find?_data hk]
  exact ⟨rfl, h⟩

theorem blind_deadline? (hk : key ∈ K) : Blind same now K (deadline? key) K := by
  intro ks ks' h
  rw [run_deadline? h.left, run_deadline? h.right, h.find?_deadlines hk]
  exact ⟨rfl, h⟩

theorem blind_put (hk : key ∈ K) (v : Value) : Blind same now K (put key v) K := by
  intro ks ks' h
  rw [run_put h.left, run_put h.right]
  exact ⟨rfl, h.place hk v⟩

theorem blind_insertNew (hk : key ∈ K) (v : Value) :
    Blind same now K (editData (·.insertNew key v)) K := by
  intro ks ks' h
  rw [run_insertNew h.left, run_insertNew h.right, h.find?_data hk]
  split
  · exact ⟨rfl, h⟩
  · exact ⟨rfl, h.place hk v⟩

theorem blind_dropDeadline (hk : key ∈ K) : Blind same now K (dropDeadline key) K := by
  intro ks ks' h
  rw [run_dropDeadline h.left, run_dropDeadline h.right, h.find?_deadlines hk]
  exact ⟨rfl, h.undate hk⟩

theorem blind_removeKey (hk : key ∈ K) : Blind same now K (removeKey key) K := by
  intro ks ks' h
  rw [run_removeKey h.left, run_removeKey h.right, h.find?_data hk]
  refine ⟨rfl, ?_⟩
  apply (h.erase (h.left.erase_recorded key) (h.right.erase_recorded key)).mono
  exact Set.subset_insert key K

theorem blind_expireAt (hk : key ∈ K) (time : Nat) :
    Blind same now K (expireAt now key time) (K \ {key}) := by
  intro ks ks' h
  rw [run_expireAt h.left, run_expireAt h.right, ← h.find?_data hk]
  split
  · rename_i hv
    exact ⟨rfl, h.date hk hv time⟩
  · exact ⟨rfl, h.mono (fun _ hk => hk.1)⟩

theorem blind_freshSet : Blind same now K freshSet K := by
  intro ks ks' h
  rw [run_freshSet, run_freshSet]
  refine ⟨?_, h.make⟩
  rw [h.config, h.supply, h.made]

theorem blind_flush : Blind same now K flush K := by
  intro ks ks' h
  rw [run_flush, run_flush]
  exact ⟨rfl, h.flush⟩

/-! ## Looking at keys -/

theorem blind_checkLive (key : Bytes) :
    Blind same now K (discard (checkLive now key)) (insert key K) := by
  intro ks ks' h
  rw [run_discard_ok (run_checkLive h.left now key), run_discard_ok (run_checkLive h.right now key)]
  exact ⟨rfl, h.purge key⟩

/-- A command may as well go on after a key was purged, if without the key that comes to the same. -/
theorem blind_checkLive_if {c d : Command α} (hc : Blind same now (insert key K) c ∅)
    (hcd : ∀ t : Keyspace, t.Sane → t.data.find? key = none → t.deadlines.find? key = none →
      (t.run c).1 = (t.run d).1 ∧ Close same now ∅ (t.run c).2 (t.run d).2) :
    Blind same now K (do if ← checkLive now key then c else d) ∅ := by
  have hside : ∀ t : Keyspace, t.Sane → ((t.purge now key).run c).2.Sane →
      (t.run (do if ← checkLive now key then c else d)).1 = ((t.purge now key).run c).1 ∧
        Close same now ∅ ((t.purge now key).run c).2
          (t.run (do if ← checkLive now key then c else d)).2 := by
    intro t ht hs
    rw [run_bind_ok (run_checkLive ht now key)]
    cases hd : t.due now key with
    | false => exact ⟨rfl, .refl hs⟩
    | true =>
      unfold Keyspace.purge
      rw [if_pos hd]
      have := hcd (t.erase key true) (ht.erase nofun)
        ((Store.find?_drop ht.data key key).trans (if_pos rfl))
        ((Store.find?_drop ht.deadlines key key).trans (if_pos rfl))
      exact ⟨this.1.symm, this.2⟩
  intro ks ks' h
  obtain ⟨ha, hs⟩ := hc _ _ (h.purge key)
  have hs := hs.mono (Set.empty_subset _)
  obtain ⟨hl, hsl⟩ := hside ks h.left hs.left
  obtain ⟨hr, hsr⟩ := hside ks' h.right hs.right
  refine ⟨by rw [hl, hr, ha], ?_⟩
  apply ((hsl.symm.trans hs).trans hsr).mono
  exact looked_subset ∅ _

theorem close_of_run_eq {t : Keyspace} (ht : t.Sane) {c d : Command α} {result : Except Error α}
    (hc : t.run c = (result, t)) (hd : t.run d = (result, t)) :
    (t.run c).1 = (t.run d).1 ∧ Close same now ∅ (t.run c).2 (t.run d).2 := by
  rw [hc, hd]
  exact ⟨rfl, .refl ht⟩

theorem blind_checkAll (keys : List Bytes) :
    Blind same now K (checkAll now keys) ({key | key ∈ keys} ∪ K) := by
  unfold checkAll
  induction keys generalizing K with
  | nil =>
    apply (blind_pure ()).mono
    simp
  | cons key keys ih =>
    unfold List.forM
    apply ((blind_checkLive key).bind fun _ => ih).mono
    rintro k (hk | hk)
    · rcases List.mem_cons.mp hk with rfl | hk
      · exact .inr (Set.mem_insert k K)
      · exact .inl hk
    · exact .inr (Set.mem_insert_of_mem key hk)

end KeyEngine.Command
