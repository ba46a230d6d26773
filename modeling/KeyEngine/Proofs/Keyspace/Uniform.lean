import KeyEngine.Proofs.Keyspace.Parallel

/-!
# Commands on parallel keyspaces

A command is uniform if it ends alike on parallel keyspaces and leaves them parallel. Where it fails it fails
with the same error on both, and never over a fault of a data structure: no command offers a sorted set a
score that is not a number.
-/

namespace KeyEngine

def Error.isFault : Error → Bool
  | fault _ => true
  | _ => false

namespace Command

open Keyspace

variable {α β γ δ : Type} {now : Nat}

/-- Both fail with one error, which is no fault, or both answer, and the answers are related. -/
inductive Agree (R : α → β → Prop) : Except Error α → Except Error β → Prop
  | ok {a : α} {b : β} (h : R a b) : Agree R (.ok a) (.ok b)
  | error {e : Error} (h : e.isFault = false) : Agree R (.error e) (.error e)

theorem Agree.eq {a b : Except Error α} (h : Agree Eq a b) : a = b := by
  cases h with
  | ok h => rw [h]
  | error _ => rfl

theorem Agree.mono {R S : α → β → Prop} {a : Except Error α} {b : Except Error β} (h : Agree R a b)
    (hRS : ∀ x y, R x y → S x y) : Agree S a b := by
  cases h with
  | ok h => exact .ok (hRS _ _ h)
  | error h => exact .error h

theorem Agree.no_fault {R : α → β → Prop} {a : Except Error α} {b : Except Error β} (h : Agree R a b)
    (fault : Fault) : a ≠ .error (.fault fault) := by
  rintro rfl
  cases h with
  | error h => cases h

def Uniform (R : α → β → Prop) (c : Command α) (c' : Command β) : Prop :=
  ∀ ks ks', Parallel ks ks' → Agree R (ks.run c).1 (ks'.run c').1 ∧ Parallel (ks.run c).2 (ks'.run c').2

section

variable {R : α → β → Prop} {S : γ → δ → Prop}

/-! ## Programs -/

theorem uniform_pure {a : α} {b : β} (h : R a b) : Uniform R (pure a) (pure b) :=
  fun _ _ hks => ⟨.ok h, hks⟩

theorem uniform_throw {e : Error} (h : e.isFault = false) :
    Uniform R (throw e : Command α) (throw e : Command β) :=
  fun _ _ hks => ⟨.error h, hks⟩

theorem Uniform.bind {c : Command α} {c' : Command β} {f : α → Command γ} {f' : β → Command δ}
    (hc : Uniform R c c') (hf : ∀ a b, R a b → Uniform S (f a) (f' b)) :
    Uniform S (c >>= f) (c' >>= f') := by
  intro ks ks' h
  obtain ⟨ha, hs⟩ := hc ks ks' h
  rw [run_bind, run_bind]
  rcases hr : ks.run c with ⟨result, t⟩
  rcases hr' : ks'.run c' with ⟨result', t'⟩
  rw [hr, hr'] at ha hs
  cases ha with
  | ok hab => exact hf _ _ hab t t' hs
  | error he => exact ⟨.error he, hs⟩

theorem Uniform.weaken {R' : α → β → Prop} {c : Command α} {c' : Command β} (hc : Uniform R c c')
    (hR : ∀ a b, R a b → R' a b) : Uniform R' c c' := by
  intro ks ks' h
  obtain ⟨ha, hs⟩ := hc ks ks' h
  exact ⟨ha.mono hR, hs⟩

theorem Uniform.map {c : Command α} {c' : Command β} {f : α → γ} {f' : β → δ} (hc : Uniform R c c')
    (hf : ∀ a b, R a b → S (f a) (f' b)) : Uniform S (f <$> c) (f' <$> c') := by
  rw [map_eq_pure_bind, map_eq_pure_bind]
  exact hc.bind fun a b hab => uniform_pure (hf a b hab)

theorem Uniform.discard {c : Command α} {c' : Command β} (hc : Uniform R c c') :
    Uniform Eq (discard c) (discard c') :=
  hc.map fun _ _ _ => rfl

/-- The command ends in the same way on both, whatever it answers. -/
theorem Uniform.congr {c c' : Command α} {f : α → Command γ} {f' : α → Command δ}
    (hc : Uniform Eq c c') (hf : ∀ a, Uniform S (f a) (f' a)) : Uniform S (c >>= f) (c' >>= f') := by
  apply hc.bind
  rintro a _ rfl
  exact hf a

theorem uniform_guard {p : Prop} [Decidable p] {e : Error} (he : e.isFault = false) {f : γ → Command α}
    {f' : γ → Command β} {c : Command α} {c' : Command β} (hc : ¬p → Uniform R c c') :
    Uniform R (if p then do let b ← throw e; f b else c) (if p then do let b ← throw e; f' b else c') := by
  split
  · exact (uniform_throw he : Uniform R (throw e : Command α) (throw e : Command β))
  · exact hc ‹_›

theorem uniform_ofFault {a : α} {b : β} (h : R a b) :
    Uniform R (ofFault (.ok a)) (ofFault (.ok b)) :=
  uniform_pure h

end

/-! ## Steps -/

theorem uniform_lookup (key : Bytes) :
    Uniform (Option.Rel Value.Twins) (lookup key) (lookup key) := by
  intro ks ks' h
  rw [run_lookup h.left, run_lookup h.right]
  exact ⟨.ok (h.data key), h⟩

theorem uniform_contains (key : Bytes) :
    Uniform Eq (readData (·.contains key)) (readData (·.contains key)) := by
  intro ks ks' h
  rw [run_contains h.left, run_contains h.right]
  exact ⟨.ok (h.isSome_data key), h⟩

theorem uniform_deadline? (key : Bytes) : Uniform Eq (deadline? key) (deadline? key) := by
  intro ks ks' h
  rw [run_deadline? h.left, run_deadline? h.right]
  exact ⟨.ok (h.deadlines key), h⟩

theorem uniform_get : Uniform Parallel (getThe Keyspace) (getThe Keyspace) :=
  fun _ _ h => ⟨.ok h, h⟩

theorem uniform_checkLive (key : Bytes) : Uniform Eq (checkLive now key) (checkLive now key) := by
  intro ks ks' h
  rw [run_checkLive h.left, run_checkLive h.right, h.due_eq]
  exact ⟨.ok rfl, h.purge key⟩

theorem uniform_put (key : Bytes) {v v' : Value} (hv : v.Twins v') :
    Uniform Eq (put key v) (put key v') := by
  intro ks ks' h
  rw [run_put h.left, run_put h.right]
  exact ⟨.ok rfl, h.place key hv⟩

theorem uniform_insertNew (key bytes : Bytes) :
    Uniform Eq (editData (·.insertNew key (.text bytes))) (editData (·.insertNew key (.text bytes))) := by
  intro ks ks' h
  rw [run_insertNew h.left, run_insertNew h.right, h.isSome_data]
  split
  · exact ⟨.ok rfl, h⟩
  · exact ⟨.ok rfl, h.place key (.text bytes)⟩

theorem uniform_dropDeadline (key : Bytes) : Uniform Eq (dropDeadline key) (dropDeadline key) := by
  intro ks ks' h
  rw [run_dropDeadline h.left, run_dropDeadline h.right, h.deadlines]
  exact ⟨.ok rfl, h.undate key⟩

theorem uniform_removeKey (key : Bytes) : Uniform Eq (removeKey key) (removeKey key) := by
  intro ks ks' h
  rw [run_removeKey h.left, run_removeKey h.right, h.isSome_data]
  exact ⟨.ok rfl, h.remove key⟩

theorem uniform_expireAt (key : Bytes) (time : Nat) :
    Uniform Eq (expireAt now key time) (expireAt now key time) := by
  intro ks ks' h
  rw [run_expireAt h.left, run_expireAt h.right, ← h.isSome_data]
  split
  · rename_i hv
    exact ⟨.ok rfl, h.date hv time⟩
  · exact ⟨.ok rfl, h⟩

theorem uniform_freshSet :
    Uniform (fun s s' => s.Tracks .empty ∧ s'.Tracks .empty) freshSet freshSet := by
  intro ks ks' h
  rw [run_freshSet, run_freshSet]
  exact ⟨.ok ⟨.empty _ _, .empty _ _⟩, h.make⟩

theorem uniform_flush : Uniform Eq flush flush := by
  intro ks ks' h
  rw [run_flush, run_flush]
  exact ⟨.ok rfl, h.flush⟩

theorem uniform_clearDeadlines : Uniform Eq clearDeadlines clearDeadlines := by
  intro ks ks' h
  rw [run_clearDeadlines, run_clearDeadlines]
  exact ⟨.ok rfl, h.undateAll h.left.data h.right.data h.data⟩

/-! ## Strings -/

theorem uniform_storeText (key value : Bytes) : Uniform Eq (storeText key value) (storeText key value) := by
  unfold storeText
  apply (uniform_lookup key).bind
  have hstore : Uniform Eq (do put key (.text value); discard <| dropDeadline key)
      (do put key (.text value); discard <| dropDeadline key) :=
    (uniform_put key (.text value)).congr fun _ => (uniform_dropDeadline key).discard
  rintro _ _ (⟨hv⟩ | _)
  · cases hv with
    | text bytes => exact hstore
    | sortedSet _ _ _ => exact uniform_throw rfl
  · exact hstore

theorem uniform_set (key value : Bytes) : Uniform Eq (set now key value) (set now key value) := by
  unfold set
  apply (uniform_checkLive key).discard.congr
  intro _
  exact uniform_storeText key value

theorem uniform_setFor (key value : Bytes) (seconds : Nat) :
    Uniform Eq (setFor now key value seconds) (setFor now key value seconds) := by
  unfold setFor
  apply (uniform_checkLive key).discard.congr
  intro _
  apply (uniform_storeText key value).congr
  intro _
  exact (uniform_expireAt key _).discard

theorem uniform_setNew (key value : Bytes) : Uniform Eq (setNew now key value) (setNew now key value) := by
  unfold setNew
  apply (uniform_checkLive key).discard.congr
  intro _
  exact uniform_insertNew key value

theorem uniform_get_text (key : Bytes) : Uniform Eq (Command.get now key) (Command.get now key) := by
  unfold Command.get
  apply (uniform_checkLive key).discard.congr
  intro _
  apply (uniform_lookup key).bind
  rintro _ _ (⟨hv⟩ | _)
  · cases hv with
    | text bytes => exact uniform_pure rfl
    | sortedSet _ _ _ => exact uniform_throw rfl
  · exact uniform_pure rfl

/-! ## Keys -/

theorem uniform_delete (keys : List Bytes) : Uniform Eq (delete keys) (delete keys) := by
  induction keys with
  | nil => exact uniform_pure rfl
  | cons key keys ih =>
    unfold delete
    apply (uniform_removeKey key).congr
    intro removed
    apply ih.congr
    intro rest
    exact uniform_pure rfl

theorem uniform_isPresent (key : Bytes) : Uniform Eq (isPresent now key) (isPresent now key) := by
  unfold isPresent
  apply (uniform_checkLive key).congr
  intro live
  split
  · exact uniform_contains key
  · exact uniform_pure rfl

theorem uniform_countPresent (keys : List Bytes) :
    Uniform Eq (countPresent now keys) (countPresent now keys) := by
  induction keys with
  | nil => exact uniform_pure rfl
  | cons key keys ih =>
    unfold countPresent
    apply (uniform_isPresent key).congr
    intro present
    apply ih.congr
    intro rest
    exact uniform_pure rfl

theorem uniform_matching (pattern : Bytes) (keys : List Bytes) :
    Uniform Eq (matching now pattern keys) (matching now pattern keys) := by
  induction keys with
  | nil => exact uniform_pure rfl
  | cons key keys ih =>
    unfold matching
    apply (uniform_checkLive key).congr
    intro live
    apply ih.congr
    intro rest
    exact uniform_pure rfl

theorem uniform_keys (pattern : Bytes) : Uniform Eq (keys now pattern) (keys now pattern) := by
  unfold keys
  apply uniform_get.bind
  intro ks ks' h
  rw [h.sortedKeys_eq]
  exact uniform_matching pattern _

theorem uniform_kind? (key : Bytes) : Uniform Eq (kind? now key) (kind? now key) := by
  unfold kind?
  apply (uniform_checkLive key).congr
  intro live
  split
  · apply (uniform_lookup key).map
    rintro _ _ (⟨hv⟩ | _)
    · cases hv <;> rfl
    · rfl
  · exact uniform_pure rfl

theorem uniform_rename (source target : Bytes) :
    Uniform Eq (rename now source target) (rename now source target) := by
  unfold rename
  apply (uniform_checkLive source).congr
  intro live
  split
  · apply (uniform_checkLive target).discard.congr
    intro _
    apply (uniform_lookup source).bind
    rintro _ _ (⟨hv⟩ | _)
    · dsimp only
      split
      · exact uniform_pure rfl
      · apply (uniform_deadline? source).congr
        intro deadline
        apply (uniform_removeKey source).discard.congr
        intro _
        apply (uniform_removeKey target).discard.congr
        intro _
        apply (uniform_put target hv).congr
        intro _
        split
        · exact (uniform_expireAt target _).discard
        · exact uniform_pure rfl
    · exact uniform_throw rfl
  · exact uniform_throw rfl

/-! ## Lifetimes -/

theorem uniform_expireMillis (key : Bytes) (millis : Nat) (condition : ExpireCondition) :
    Uniform Eq (expireMillis now key millis condition) (expireMillis now key millis condition) := by
  unfold expireMillis
  apply (uniform_checkLive key).congr
  intro live
  split
  · apply (uniform_contains key).congr
    intro present
    split
    · apply (uniform_deadline? key).congr
      intro current
      split
      · exact uniform_expireAt key _
      · exact uniform_pure rfl
    · exact uniform_pure rfl
  · exact uniform_pure rfl

theorem uniform_persist (key : Bytes) : Uniform Eq (persist now key) (persist now key) := by
  unfold persist
  apply (uniform_checkLive key).congr
  intro live
  split
  · exact uniform_dropDeadline key
  · exact uniform_pure rfl

theorem uniform_remaining (key : Bytes) : Uniform Eq (remaining now key) (remaining now key) :=
  (uniform_deadline? key).map fun _ _ h => by rw [h]

theorem uniform_lifetime (key : Bytes) : Uniform Eq (lifetime now key) (lifetime now key) := by
  unfold lifetime
  apply (uniform_checkLive key).congr
  intro live
  split
  · apply (uniform_contains key).congr
    intro present
    split
    · apply (uniform_remaining key).congr
      intro left
      split
      · exact uniform_pure rfl
      · exact uniform_pure rfl
    · exact uniform_pure rfl
  · exact uniform_pure rfl

/-! ## Sorted sets -/

theorem uniform_lookupSet (key : Bytes) :
    Uniform (Option.Rel SortedSet.Twins) (lookupSet key) (lookupSet key) := by
  unfold lookupSet
  apply (uniform_lookup key).bind
  rintro _ _ (⟨hv⟩ | _)
  · cases hv with
    | text bytes => exact uniform_throw rfl
    | sortedSet h h' _ => exact uniform_pure (.some ⟨_, h, h'⟩)
  · exact uniform_pure .none

/-- A question that is answered from the board of a set. -/
theorem uniform_readSet {f : SortedSet → Except Fault α} {g : Board → α}
    (hf : ∀ s b, SortedSet.Tracks s b → f s = .ok (g b)) (key : Bytes) (empty : α) :
    Uniform Eq (readSet now key empty f) (readSet now key empty f) := by
  unfold readSet
  apply (uniform_checkLive key).discard.congr
  intro _
  apply (uniform_lookupSet key).bind
  rintro _ _ (⟨b, h, h'⟩ | _)
  · dsimp only
    rw [hf _ b h, hf _ b h']
    exact uniform_ofFault rfl
  · exact uniform_pure rfl

theorem twins_of_not_empty {s s' : SortedSet} {b : Board} (h : s.Tracks b) (h' : s'.Tracks b)
    (hs : s.isEmpty = false) : (Value.sortedSet s).Twins (.sortedSet s') := by
  refine .sortedSet h h' ?_
  rw [h.isEmpty_eq] at hs
  simpa using hs

theorem uniform_scoreRange (key : Bytes) (range : ScoreRange) (page : Option Page) :
    Uniform Eq (scoreRange now key range page) (scoreRange now key range page) := by
  apply uniform_readSet (g := fun b => ((Page.limitOf? page).map (·.cut (b.within range))).getD [])
  intro s b h
  cases Page.limitOf? page with
  | none => rfl
  | some limit => exact h.scoreRangeLimit_ok range limit

theorem uniform_revScoreRange (key : Bytes) (range : ScoreRange) (page : Option Page) :
    Uniform Eq (revScoreRange now key range page) (revScoreRange now key range page) := by
  apply uniform_readSet (g := fun b => ((Page.limitOf? page).map (·.cut (b.within range).reverse)).getD [])
  intro s b h
  cases Page.limitOf? page with
  | none => rfl
  | some limit => exact h.revScoreRangeLimit_ok range limit

/-- A change that makes the same of sets on one board. -/
theorem uniform_editSet {f : SortedSet → Except Fault (SortedSet × α)} {g : Board → Board × α}
    (hf : ∀ s b, SortedSet.Tracks s b → ∃ s', f s = .ok (s', (g b).2) ∧ s'.Tracks (g b).1) (key : Bytes)
    (empty : α) : Uniform Eq (editSet now key empty f) (editSet now key empty f) := by
  unfold editSet
  apply (uniform_checkLive key).discard.congr
  intro _
  apply (uniform_lookupSet key).bind
  rintro _ _ (⟨b, h, h'⟩ | _)
  · obtain ⟨t, ht, hb⟩ := hf _ b h
    obtain ⟨t', ht', hb'⟩ := hf _ b h'
    dsimp only
    rw [ht, ht']
    apply (uniform_ofFault (R := fun x y => x = (t, (g b).2) ∧ y = (t', (g b).2)) ⟨rfl, rfl⟩).bind
    rintro _ _ ⟨rfl, rfl⟩
    dsimp only
    rw [hb'.isEmpty_eq, ← hb.isEmpty_eq]
    split
    · exact (uniform_removeKey key).discard.congr fun _ => uniform_pure rfl
    · rename_i hs
      exact (uniform_put key (twins_of_not_empty hb hb' (by simpa using hs))).congr fun _ =>
        uniform_pure rfl
  · exact uniform_pure rfl

theorem uniform_lookupOrFresh (key : Bytes) :
    Uniform SortedSet.Twins (lookupOrFresh key) (lookupOrFresh key) := by
  unfold lookupOrFresh
  apply (uniform_lookupSet key).bind
  rintro _ _ (h | _)
  · exact uniform_pure h
  · exact uniform_freshSet.weaken fun _ _ h => ⟨.empty, h⟩

theorem uniform_addMembers (key : Bytes) (items : List Entry) (flags : AddFlags) :
    Uniform Eq (addMembers now key items flags) (addMembers now key items flags) := by
  unfold addMembers
  dsimp only
  refine uniform_guard rfl fun _ => ?_
  refine uniform_guard rfl fun hitems => ?_
  have hes : ∀ e ∈ items, e.score.isNaN = false := by simpa using hitems
  apply (uniform_checkLive key).discard.congr
  intro _
  apply (uniform_lookupOrFresh key).bind
  rintro s s' ⟨b, h, h'⟩
  obtain ⟨t, ht, hb⟩ := h.addWith_ok flags hes
  obtain ⟨t', ht', hb'⟩ := h'.addWith_ok flags hes
  rw [ht, ht']
  apply (uniform_ofFault (R := fun x y => x = (t, (b.addWith flags items).2) ∧
    y = (t', (b.addWith flags items).2)) ⟨rfl, rfl⟩).bind
  rintro _ _ ⟨rfl, rfl⟩
  dsimp only
  rw [hb'.isEmpty_eq, ← hb.isEmpty_eq]
  split
  · rename_i hs
    exact (uniform_put key (twins_of_not_empty hb hb' (by simpa using hs))).congr fun _ => uniform_pure rfl
  · exact uniform_pure rfl

theorem uniform_increase (key : Bytes) (delta : Score) (member : Bytes) :
    Uniform Eq (increase now key delta member) (increase now key delta member) := by
  unfold increase
  dsimp only
  refine uniform_guard rfl fun _ => ?_
  apply (uniform_checkLive key).discard.congr
  intro _
  apply (uniform_lookupOrFresh key).bind
  rintro s s' ⟨b, h, h'⟩
  rw [h.score?_eq, h'.score?_eq]
  refine uniform_guard rfl fun hscore => ?_
  have hs : (((b.score? member).getD .zero).add delta).isNaN = false := by simpa using hscore
  obtain ⟨t, ht, hb⟩ := h.insert_ok hs member
  obtain ⟨t', ht', hb'⟩ := h'.insert_ok hs member
  rw [ht, ht']
  apply (uniform_ofFault (R := fun x y => x.1 = t ∧ y.1 = t') ⟨rfl, rfl⟩).bind
  rintro ⟨_, _⟩ ⟨_, _⟩ ⟨rfl, rfl⟩
  exact (uniform_put key (.sortedSet hb hb' (b.rows_set_ne_nil _ _))).congr fun _ => uniform_pure rfl

/-! ## Several sorted sets -/

theorem uniform_lookupSets (keys : List Bytes) :
    Uniform (List.Forall₂ (Option.Rel SortedSet.Twins)) (lookupSets keys) (lookupSets keys) := by
  unfold lookupSets
  induction keys with
  | nil => exact uniform_pure .nil
  | cons key keys ih =>
    rw [List.mapM_cons]
    apply (uniform_lookupSet key).bind
    intro s s' hs
    apply ih.bind
    intro rest rest' hrest
    exact uniform_pure (.cons hs hrest)

theorem uniform_setOf {entries : List Entry} (h : ∀ e ∈ entries, e.score.isNaN = false) :
    Uniform SortedSet.Twins (setOf entries) (setOf entries) := by
  unfold setOf
  apply uniform_freshSet.bind
  rintro s s' ⟨hs, hs'⟩
  obtain ⟨t, ht, hb⟩ := hs.add_ok entries h
  obtain ⟨t', ht', hb'⟩ := hs'.add_ok entries h
  rw [ht, ht']
  exact (uniform_ofFault rfl).discard.congr fun _ => uniform_pure ⟨_, hb, hb'⟩

theorem uniform_difference (keys : List Bytes) :
    Uniform SortedSet.Twins (difference keys) (difference keys) := by
  cases keys with
  | nil =>
    unfold difference
    exact uniform_setOf (List.forall_mem_nil _)
  | cons key keys =>
    unfold difference
    apply (uniform_lookupSet key).bind
    rintro _ _ (hs | _)
    · apply (uniform_lookupSets keys).bind
      intro others others' ho
      have hsome : List.Forall₂ SortedSet.Twins (others.filterMap id) (others'.filterMap id) :=
        List.rel_filterMap (fun _ _ h => h) ho
      have hnumber := hs.number_without (others.filterMap id)
      rw [hs.without_eq hsome] at hnumber ⊢
      exact uniform_setOf hnumber
    · exact uniform_setOf (List.forall_mem_nil _)

theorem uniform_weightsFor (keys : List Bytes) (weights : Option (List Score)) :
    Uniform Eq (liftM (weightsFor keys weights) : Command (List Score)) (liftM (weightsFor keys weights)) := by
  intro ks ks' h
  rw [run_lift, run_lift]
  refine ⟨?_, h⟩
  unfold weightsFor
  cases weights with
  | none => exact .ok rfl
  | some ws =>
    dsimp only
    split
    · exact .error rfl
    · split
      · exact .error rfl
      · exact .ok rfl

theorem uniform_union (keys : List Bytes) (weights : Option (List Score)) (agg : Aggregate) :
    Uniform SortedSet.Twins (union keys weights agg) (union keys weights agg) := by
  unfold union
  apply (uniform_weightsFor keys weights).congr
  intro weights
  apply (uniform_lookupSets keys).bind
  intro sets sets' hsets
  have hweighted : List.Forall₂ SortedSet.Twins.Weighted
      ((sets.zip weights).filterMap fun p => p.1.map (·, p.2))
      ((sets'.zip weights).filterMap fun p => p.1.map (·, p.2)) := by
    induction hsets generalizing weights with
    | nil => exact .nil
    | cons hs _ ih =>
      cases weights with
      | nil => exact .nil
      | cons weight weights =>
        cases hs with
        | none => exact ih weights
        | some hs => exact .cons ⟨hs, rfl⟩ (ih weights)
  rw [SortedSet.Twins.unionTotals_eq agg hweighted]
  exact uniform_setOf (SortedSet.number_unionTotals agg _)

/-- All of the sets are there on both sides, or one of them is missing on both. -/
theorem rel_mapM {R : α → β → Prop} {xs : List (Option α)} {ys : List (Option β)}
    (h : List.Forall₂ (Option.Rel R) xs ys) : Option.Rel (List.Forall₂ R) (xs.mapM id) (ys.mapM id) := by
  induction h with
  | nil => exact .some .nil
  | @cons x y xs ys hxy _ ih =>
    rw [List.mapM_cons, List.mapM_cons]
    generalize xs.mapM id = rest at ih ⊢
    generalize ys.mapM id = rest' at ih ⊢
    cases hxy with
    | none => exact .none
    | some hxy =>
      cases ih with
      | none => exact .none
      | some hrest => exact .some (.cons hxy hrest)

theorem uniform_intersection (keys : List Bytes) (weights : Option (List Score)) (agg : Aggregate) :
    Uniform SortedSet.Twins (intersection keys weights agg) (intersection keys weights agg) := by
  unfold intersection
  apply (uniform_weightsFor keys weights).congr
  intro weights
  apply (uniform_lookupSets keys).bind
  intro sets sets' hsets
  have hall := rel_mapM hsets
  generalize sets.mapM id = found at hall ⊢
  generalize sets'.mapM id = found' at hall ⊢
  cases hall with
  | none => exact uniform_setOf (List.forall_mem_nil _)
  | @some found found' hall =>
    have hweighted : List.Forall₂ SortedSet.Twins.Weighted (found.zip weights) (found'.zip weights) := by
      induction hall generalizing weights with
      | nil => exact .nil
      | cons hs _ ih =>
        cases weights with
        | nil => exact .nil
        | cons weight weights => exact .cons ⟨hs, rfl⟩ (ih weights)
    dsimp only
    rw [SortedSet.Twins.interTotals_eq agg hweighted]
    exact uniform_setOf (SortedSet.number_interTotals agg _)

theorem uniform_checkAll (keys : List Bytes) : Uniform Eq (checkAll now keys) (checkAll now keys) := by
  unfold checkAll
  induction keys with
  | nil => exact uniform_pure rfl
  | cons key keys ih =>
    unfold List.forM
    exact (uniform_checkLive key).discard.congr fun _ => ih

theorem uniform_checkOperands (keys more : List Bytes) :
    Uniform Eq (checkOperands now keys more) (checkOperands now keys more) := by
  unfold checkOperands
  dsimp only
  refine uniform_guard rfl fun _ => ?_
  exact uniform_checkAll _

theorem uniform_storeSet (key : Bytes) {s s' : SortedSet} (hs : s.Twins s') :
    Uniform Eq (storeSet key s) (storeSet key s') := by
  obtain ⟨b, h, h'⟩ := hs
  unfold storeSet
  apply (uniform_removeKey key).discard.congr
  intro _
  dsimp only
  rw [h'.isEmpty_eq, ← h.isEmpty_eq, h'.count_eq, ← h.count_eq]
  split
  · rename_i hs
    exact (uniform_put key (twins_of_not_empty h h' (by simpa using hs))).congr fun _ => uniform_pure rfl
  · exact uniform_pure rfl

theorem uniform_answer (keys : List Bytes) {result : Command SortedSet}
    (hr : Uniform SortedSet.Twins result result) :
    Uniform Eq (answer now keys result) (answer now keys result) := by
  unfold answer
  apply (uniform_checkOperands keys []).congr
  intro _
  apply hr.bind
  intro s s' hs
  exact uniform_pure hs.toList_eq

theorem uniform_store (dest : Bytes) (keys : List Bytes) {result : Command SortedSet}
    (hr : Uniform SortedSet.Twins result result) :
    Uniform Eq (store now dest keys result) (store now dest keys result) := by
  unfold store
  apply (uniform_checkOperands keys [dest]).congr
  intro _
  apply hr.bind
  intro s s' hs
  exact uniform_storeSet dest hs

/-! ## Every request -/

theorem Uniform.reply {c : Command α} (hc : Uniform Eq c c) (f : α → Reply) :
    Uniform Eq (f <$> c) (f <$> c) :=
  hc.map fun _ _ h => congrArg f h

theorem uniform_ofRequest (request : Request) :
    Uniform Eq (ofRequest now request) (ofRequest now request) := by
  cases request with
  | set key value => exact (uniform_set key value).congr fun _ => uniform_pure rfl
  | setFor key value seconds => exact (uniform_setFor key value seconds).congr fun _ => uniform_pure rfl
  | setNew key value => exact (uniform_setNew key value).reply _
  | get key => exact (uniform_get_text key).reply _
  | delete keys => exact (uniform_delete keys).reply _
  | countPresent keys => exact (uniform_countPresent keys).reply _
  | keys pattern => exact (uniform_keys pattern).reply _
  | expire key seconds condition => exact (uniform_expireMillis key _ condition).reply _
  | expireMillis key millis condition => exact (uniform_expireMillis key millis condition).reply _
  | persist key => exact (uniform_persist key).reply _
  | lifetime key => exact (uniform_lifetime key).reply _
  | kind key => exact (uniform_kind? key).reply _
  | rename source target => exact (uniform_rename source target).congr fun _ => uniform_pure rfl
  | size => exact uniform_get.bind fun _ _ h => uniform_pure (congrArg Reply.number h.size_eq)
  | flush => exact uniform_flush.congr fun _ => uniform_pure rfl
  | addMembers key items flags => exact (uniform_addMembers key items flags).reply _
  | increase key delta member => exact (uniform_increase key delta member).reply _
  | count key =>
    exact (uniform_readSet (fun _ _ h => congrArg Except.ok h.count_eq) key _).reply _
  | score key member =>
    exact (uniform_readSet (fun _ _ h => congrArg Except.ok (h.score?_eq member)) key _).reply _
  | rank key member =>
    exact (uniform_readSet (fun _ _ h => h.toList_eq ▸ h.rank_ok member) key _).reply _
  | revRank key member =>
    exact (uniform_readSet (fun _ _ h => h.count_eq ▸ h.toList_eq ▸ h.revRank_ok member) key _).reply _
  | range key start stop =>
    exact (uniform_readSet (fun _ _ h => h.range_ok start stop) key _).reply _
  | revRange key start stop =>
    exact (uniform_readSet (fun _ _ h => h.revRange_ok start stop) key _).reply _
  | scoreRange key range page => exact (uniform_scoreRange key range page).reply _
  | revScoreRange key range page => exact (uniform_revScoreRange key range page).reply _
  | countInRange key range =>
    exact (uniform_readSet (fun _ _ h => h.countInRange_ok range) key _).reply _
  | removeMembers key members =>
    exact (uniform_editSet (g := fun b => (_, _)) (fun _ _ h => h.remove_ok members) key _).reply _
  | removeRange key start stop =>
    exact (uniform_editSet (g := fun b => (_, _)) (fun _ _ h => h.removeRange_ok start stop) key _).reply _
  | removeScoreRange key range =>
    exact (uniform_editSet (g := fun b => (_, _)) (fun _ _ h => h.removeScoreRange_ok range) key _).reply _
  | popMin key n =>
    exact (uniform_editSet (g := fun b => (_, _)) (fun _ _ h => h.popMin_ok n) key _).reply _
  | popMax key n =>
    exact (uniform_editSet (g := fun b => (_, _)) (fun _ _ h => h.popMax_ok n) key _).reply _
  | difference keys => exact (uniform_answer keys (uniform_difference keys)).reply _
  | union keys weights agg => exact (uniform_answer keys (uniform_union keys weights agg)).reply _
  | intersection keys weights agg =>
    exact (uniform_answer keys (uniform_intersection keys weights agg)).reply _
  | storeDifference dest keys => exact (uniform_store dest keys (uniform_difference keys)).reply _
  | storeUnion dest keys weights agg =>
    exact (uniform_store dest keys (uniform_union keys weights agg)).reply _
  | storeIntersection dest keys weights agg =>
    exact (uniform_store dest keys (uniform_intersection keys weights agg)).reply _

theorem uniform_ofDeadlineCall (call : DeadlineCall) :
    Uniform Eq (ofDeadlineCall now call) (ofDeadlineCall now call) := by
  cases call with
  | setTtl key seconds => exact (uniform_expireAt key _).reply _
  | setTtlMillis key millis => exact (uniform_expireAt key _).reply _
  | expireAt key time => exact (uniform_expireAt key time).reply _
  | drop key => exact (uniform_dropDeadline key).reply _
  | checkLive key => exact (uniform_checkLive key).reply _
  | deadline key => exact (uniform_deadline? key).reply _
  | remaining key => exact (uniform_remaining key).reply _
  | isEmpty =>
    apply uniform_get.bind
    intro ks ks' h
    apply uniform_pure
    unfold Store.isEmpty
    rw [h.count_deadlines_eq]
  | clear => exact uniform_clearDeadlines.congr fun _ => uniform_pure rfl

end Command

end KeyEngine
