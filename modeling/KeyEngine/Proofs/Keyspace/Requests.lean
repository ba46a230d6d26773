import KeyEngine.Proofs.Keyspace.Blind

/-!
# Requests on close keyspaces

Every request looks at the keys it uses before it uses them, so it leaves close keyspaces close, and it is
answered alike on both unless it is one that counts due keys.
-/

namespace KeyEngine

/-- The request counts keys that are due as if they were there. -/
def Request.countsDue : Request → Bool
  | .delete _ => true
  | .size => true
  | _ => false

namespace Command

open Keyspace

variable {α : Type} {same : Prop} {now : Nat} {K K' : Set Bytes} {key : Bytes}

theorem Blind.forget {c : Command α} (hc : Blind same now K c K') : Blind same now K c ∅ :=
  hc.mono (Set.empty_subset K')

/-! ## Strings -/

theorem blind_storeText (hk : key ∈ K) (value : Bytes) :
    Blind same now K (storeText key value) K := by
  unfold storeText
  apply (blind_lookup hk).bind
  intro found
  split
  · exact blind_throw _
  · apply (blind_put hk _).bind
    intro _
    exact (blind_dropDeadline hk).discard

theorem blind_set (key value : Bytes) : Blind same now ∅ (set now key value) ∅ := by
  unfold set
  apply (blind_checkLive key).bind
  intro _
  exact (blind_storeText (Set.mem_insert key ∅) value).forget

theorem blind_setFor (key value : Bytes) (seconds : Nat) :
    Blind same now ∅ (setFor now key value seconds) ∅ := by
  unfold setFor
  have hk := Set.mem_insert key ∅
  apply (blind_checkLive key).bind
  intro _
  apply (blind_storeText hk value).bind
  intro _
  exact (blind_expireAt hk _).discard.forget

theorem blind_setNew (key value : Bytes) : Blind same now ∅ (setNew now key value) ∅ := by
  unfold setNew
  apply (blind_checkLive key).bind
  intro _
  exact (blind_insertNew (Set.mem_insert key ∅) _).forget

theorem blind_get (key : Bytes) : Blind same now ∅ (get now key) ∅ := by
  unfold get
  apply (blind_checkLive key).bind
  intro _
  apply (blind_lookup (Set.mem_insert key ∅)).bind
  intro found
  split
  · exact (blind_pure _).forget
  · exact blind_throw _
  · exact (blind_pure _).forget

/-! ## Lifetimes -/

/-- Without the key a command that first asks for its value does nothing. -/
theorem run_contains_absent {t : Keyspace} (h : t.Sane) (hn : t.data.find? key = none)
    (c : Command α) (d : Command α) :
    t.run (do if ← readData (·.contains key) then c else d) = t.run d := by
  rw [run_bind_ok (run_contains h key), hn]
  rfl

theorem blind_expireMillis (key : Bytes) (millis : Nat) (condition : ExpireCondition) :
    Blind same now ∅ (expireMillis now key millis condition) ∅ := by
  unfold expireMillis
  have hk := Set.mem_insert key ∅
  apply blind_checkLive_if
  · apply (blind_contains hk).bind
    intro present
    split
    · apply (blind_deadline? hk).bind
      intro current
      split
      · exact (blind_expireAt hk _).forget
      · exact (blind_pure _).forget
    · exact (blind_pure _).forget
  · intro t ht hn _
    exact close_of_run_eq ht (run_contains_absent ht hn _ _) rfl

theorem blind_persist (key : Bytes) : Blind same now ∅ (persist now key) ∅ := by
  unfold persist
  apply blind_checkLive_if
  · exact (blind_dropDeadline (Set.mem_insert key ∅)).forget
  · intro t ht _ hn
    rw [run_dropDeadline ht, hn]
    exact ⟨rfl, .undate_absent ht hn⟩

theorem blind_lifetime (key : Bytes) : Blind same now ∅ (lifetime now key) ∅ := by
  unfold lifetime
  have hk := Set.mem_insert key ∅
  apply blind_checkLive_if
  · apply (blind_contains hk).bind
    intro present
    split
    · unfold remaining
      apply ((blind_deadline? hk).map _).bind
      intro left
      split
      · exact (blind_pure _).forget
      · exact (blind_pure _).forget
    · exact (blind_pure _).forget
  · intro t ht hn _
    exact close_of_run_eq ht (run_contains_absent ht hn _ _) rfl

/-! ## Keys -/

theorem blind_isPresent (key : Bytes) : Blind same now ∅ (isPresent now key) ∅ := by
  unfold isPresent
  apply blind_checkLive_if
  · exact (blind_contains (Set.mem_insert key ∅)).forget
  · intro t ht hn _
    apply close_of_run_eq ht _ rfl
    rw [run_contains ht, hn]
    rfl

theorem blind_countPresent (keys : List Bytes) : Blind same now ∅ (countPresent now keys) ∅ := by
  induction keys with
  | nil => exact blind_pure 0
  | cons key keys ih =>
    unfold countPresent
    apply (blind_isPresent key).bind
    intro present
    apply ih.bind
    intro rest
    exact blind_pure _

theorem blind_kind? (key : Bytes) : Blind same now ∅ (kind? now key) ∅ := by
  unfold kind?
  apply blind_checkLive_if
  · apply (blind_lookup (Set.mem_insert key ∅)).bind
    intro found
    exact (blind_pure _).forget
  · intro t ht hn _
    apply close_of_run_eq ht _ rfl
    rw [run_bind_ok (run_lookup ht key), hn]
    rfl

theorem blind_rename (source target : Bytes) :
    Blind same now ∅ (rename now source target) ∅ := by
  unfold rename
  apply blind_checkLive_if
  · apply (blind_checkLive target).bind
    intro _
    have hs : source ∈ insert target (insert source (∅ : Set Bytes)) := by simp
    have ht : target ∈ insert target (insert source (∅ : Set Bytes)) := by simp
    apply (blind_lookup hs).bind
    intro found
    split
    · exact blind_throw _
    · split
      · exact (blind_pure _).forget
      · apply (blind_deadline? hs).bind
        intro deadline
        apply (blind_removeKey hs).discard.bind
        intro _
        apply (blind_removeKey ht).discard.bind
        intro _
        apply (blind_put ht _).bind
        intro _
        split
        · exact (blind_expireAt ht _).discard.forget
        · exact (blind_pure _).forget
  · intro t ht hn _
    -- Without the source the target may be purged before the failure, or not.
    have hl : ((t.purge now target).data.find? source) = none := by
      unfold Keyspace.purge
      split
      · exact (Store.find?_drop ht.data target source).trans (by rw [hn, ite_self])
      · exact hn
    rw [run_bind_ok (run_discard_ok (run_checkLive ht now target)),
      run_bind_ok (run_lookup (ht.purge now target) source), hl]
    exact ⟨rfl, (Close.refl ht).purge_left target⟩

/-! ## Sorted sets -/

theorem blind_lookupSet (hk : key ∈ K) : Blind same now K (lookupSet key) K := by
  unfold lookupSet
  apply (blind_lookup hk).bind
  intro found
  split
  · exact blind_pure _
  · exact blind_throw _
  · exact blind_pure _

theorem blind_readSet (key : Bytes) (empty : α) (f : SortedSet → Except Fault α) :
    Blind same now ∅ (readSet now key empty f) ∅ := by
  unfold readSet
  apply (blind_checkLive key).bind
  intro _
  apply (blind_lookupSet (Set.mem_insert key ∅)).bind
  intro found
  split
  · exact (blind_ofFault _).forget
  · exact (blind_pure _).forget

theorem blind_editSet (key : Bytes) (empty : α)
    (f : SortedSet → Except Fault (SortedSet × α)) :
    Blind same now ∅ (editSet now key empty f) ∅ := by
  unfold editSet
  have hk := Set.mem_insert key ∅
  apply (blind_checkLive key).bind
  intro _
  apply (blind_lookupSet hk).bind
  intro found
  split
  · apply (blind_ofFault _).bind
    rintro ⟨s, answer⟩
    dsimp only
    split
    · apply (blind_removeKey hk).discard.bind
      intro _
      exact (blind_pure _).forget
    · apply (blind_put hk _).bind
      intro _
      exact (blind_pure _).forget
  · exact (blind_pure _).forget

theorem blind_lookupOrFresh (hk : key ∈ K) : Blind same now K (lookupOrFresh key) K := by
  unfold lookupOrFresh
  apply (blind_lookupSet hk).bind
  intro found
  split
  · exact blind_pure _
  · exact blind_freshSet

theorem blind_addMembers (key : Bytes) (items : List Entry) (flags : AddFlags) :
    Blind same now ∅ (addMembers now key items flags) ∅ := by
  unfold addMembers
  have hk := Set.mem_insert key ∅
  dsimp only
  apply blind_guard
  apply blind_guard
  apply (blind_checkLive key).bind
  intro _
  apply (blind_lookupOrFresh hk).bind
  intro s
  apply (blind_ofFault _).bind
  rintro ⟨s, tally⟩
  dsimp only
  split
  · apply (blind_put hk _).bind
    intro _
    exact (blind_pure _).forget
  · exact (blind_pure _).forget

theorem blind_increase (key : Bytes) (delta : Score) (member : Bytes) :
    Blind same now ∅ (increase now key delta member) ∅ := by
  unfold increase
  have hk := Set.mem_insert key ∅
  dsimp only
  apply blind_guard
  apply (blind_checkLive key).bind
  intro _
  apply (blind_lookupOrFresh hk).bind
  intro s
  apply blind_guard
  apply (blind_ofFault _).bind
  rintro ⟨s, -⟩
  apply (blind_put hk _).bind
  intro _
  exact (blind_pure _).forget

/-! ## Several sorted sets -/

theorem blind_lookupSets {keys : List Bytes} (hk : ∀ key ∈ keys, key ∈ K) :
    Blind same now K (lookupSets keys) K := by
  unfold lookupSets
  induction keys with
  | nil => exact blind_pure _
  | cons key keys ih =>
    rw [List.mapM_cons]
    apply (blind_lookupSet (hk key List.mem_cons_self)).bind
    intro found
    apply (ih fun k hm => hk k (List.mem_cons_of_mem key hm)).bind
    intro rest
    exact blind_pure _

theorem blind_setOf (entries : List Entry) : Blind same now K (setOf entries) K := by
  unfold setOf
  apply blind_freshSet.bind
  intro s
  rcases s.add entries with ⟨s, added⟩
  apply (blind_ofFault added).discard.bind
  intro _
  exact blind_pure _

theorem blind_difference {keys : List Bytes} (hk : ∀ key ∈ keys, key ∈ K) :
    Blind same now K (difference keys) K := by
  cases keys with
  | nil => exact blind_setOf []
  | cons key keys =>
    unfold difference
    apply (blind_lookupSet (hk key List.mem_cons_self)).bind
    intro found
    split
    · exact blind_setOf _
    · apply (blind_lookupSets fun k hm => hk k (List.mem_cons_of_mem key hm)).bind
      intro others
      exact blind_setOf _

theorem blind_lift (result : Except Error α) : Blind same now K (liftM result : Command α) K := by
  intro ks ks' h
  rw [run_lift, run_lift]
  exact ⟨rfl, h.mono (looked_subset K result)⟩

theorem blind_union {keys : List Bytes} (hk : ∀ key ∈ keys, key ∈ K)
    (weights : Option (List Score)) (agg : Aggregate) :
    Blind same now K (union keys weights agg) K := by
  unfold union
  apply (blind_lift _).bind
  intro weights
  apply (blind_lookupSets hk).bind
  intro sets
  exact blind_setOf _

theorem blind_intersection {keys : List Bytes} (hk : ∀ key ∈ keys, key ∈ K)
    (weights : Option (List Score)) (agg : Aggregate) :
    Blind same now K (intersection keys weights agg) K := by
  unfold intersection
  apply (blind_lift _).bind
  intro weights
  apply (blind_lookupSets hk).bind
  intro sets
  split
  · exact blind_setOf _
  · exact blind_setOf _

theorem blind_checkOperands (keys more : List Bytes) :
    Blind same now K (checkOperands now keys more) ({key | key ∈ keys ++ more} ∪ K) := by
  unfold checkOperands
  dsimp only
  apply blind_guard
  exact blind_checkAll _

theorem blind_storeSet (hk : key ∈ K) (s : SortedSet) : Blind same now K (storeSet key s) K := by
  unfold storeSet
  apply (blind_removeKey hk).discard.bind
  intro _
  dsimp only
  split
  · apply (blind_put hk _).bind
    intro _
    exact blind_pure _
  · exact blind_pure _

theorem blind_answer (keys : List Bytes) {result : Command SortedSet}
    (hr : ∀ K : Set Bytes, (∀ key ∈ keys, key ∈ K) → Blind same now K result K) :
    Blind same now ∅ (answer now keys result) ∅ := by
  unfold answer
  apply (blind_checkOperands keys []).bind
  intro _
  apply (hr _ _).bind
  · intro s
    exact (blind_pure _).forget
  · intro key hm
    exact .inl (List.mem_append_left [] hm)

theorem blind_store (dest : Bytes) (keys : List Bytes) {result : Command SortedSet}
    (hr : ∀ K : Set Bytes, (∀ key ∈ keys, key ∈ K) → Blind same now K result K) :
    Blind same now ∅ (store now dest keys result) ∅ := by
  unfold store
  apply (blind_checkOperands keys [dest]).bind
  intro _
  apply (hr _ _).bind
  · intro s
    apply (blind_storeSet _ s).forget
    exact .inl (List.mem_append_right keys List.mem_cons_self)
  · intro key hm
    exact .inl (List.mem_append_left [dest] hm)

/-! ## Listing -/

def purgeAll (now : Nat) (ks : Keyspace) (keys : List Bytes) : Keyspace :=
  keys.foldl (·.purge now) ks

theorem due_purge_other {ks : Keyspace} (h : ks.Sane) {key other : Bytes} (ho : other ≠ key) :
    (ks.purge now key).due now other = ks.due now other := by
  unfold Keyspace.purge
  split
  · exact (SameBut.erase h key true).due now ho
  · rfl

def fits (pattern key : Bytes) : Bool :=
  Glob.acceptsAll pattern || Glob.accepts pattern key

theorem run_matching {ks : Keyspace} (h : ks.Sane) (pattern : Bytes) {keys : List Bytes}
    (hk : keys.Nodup) :
    ks.run (matching now pattern keys) =
      (.ok (keys.filter fun key => !ks.due now key && fits pattern key), purgeAll now ks keys) := by
  induction keys generalizing ks with
  | nil => rfl
  | cons key keys ih =>
    obtain ⟨hnot, hk⟩ := List.nodup_cons.mp hk
    unfold matching
    rw [run_bind_ok (run_checkLive h now key), run_bind_ok (ih (h.purge now key) hk), run_pure]
    have hrest : (keys.filter fun k => !(ks.purge now key).due now k && fits pattern k) =
        keys.filter fun k => !ks.due now k && fits pattern k := by
      apply List.filter_congr
      intro k hm
      rw [due_purge_other h]
      rintro rfl
      exact hnot hm
    rw [hrest, List.filter_cons]
    rfl

theorem close_purgeAll {ks ks' : Keyspace} (h : Close same now K ks ks') (keys : List Bytes) :
    Close same now K (purgeAll now ks keys) ks' := by
  induction keys generalizing ks with
  | nil => exact h
  | cons key keys ih => exact ih (h.purge_left key)

theorem sane_purgeAll {ks : Keyspace} (h : ks.Sane) (keys : List Bytes) :
    (purgeAll now ks keys).Sane := by
  have hc : Close False now ∅ ks ks := .refl h
  exact (close_purgeAll hc keys).left

theorem run_checkAll {ks : Keyspace} (h : ks.Sane) (keys : List Bytes) :
    ks.run (checkAll now keys) = (.ok (), purgeAll now ks keys) := by
  unfold checkAll
  induction keys generalizing ks with
  | nil => rfl
  | cons key keys ih =>
    unfold List.forM
    rw [run_bind_ok (run_discard_ok (run_checkLive h now key)), ih (h.purge now key)]
    rfl

theorem run_checkOperands {ks : Keyspace} (h : ks.Sane) {keys : List Bytes} (hk : keys ≠ [])
    (more : List Bytes) :
    ks.run (checkOperands now keys more) = (.ok (), purgeAll now ks (keys ++ more)) := by
  unfold checkOperands
  dsimp only
  rw [if_neg (by simpa using hk)]
  exact run_checkAll h (keys ++ more)

theorem isSome_value (now : Nat) (ks : Keyspace) (key : Bytes) :
    (ks.value now key).isSome = (!ks.due now key && (ks.data.find? key).isSome) := by
  unfold Keyspace.value
  cases ks.due now key <;> rfl

theorem blind_keys (pattern : Bytes) : Blind same now K (keys now pattern) K := by
  intro ks ks' h
  have hrun : ∀ t : Keyspace, t.Sane → t.run (keys now pattern) =
      (.ok (t.data.sortedKeys.filter fun key => !t.due now key && fits pattern key),
        purgeAll now t t.data.sortedKeys) := by
    intro t ht
    unfold keys
    exact (run_bind_ok (run_get t) _).trans (run_matching ht pattern ht.data.nodup_sortedKeys)
  rw [hrun ks h.left, hrun ks' h.right]
  constructor
  · apply congrArg Except.ok
    apply h.left.data.filter_sortedKeys h.right.data
    intro key
    have hv := Bool.eq_iff_iff.mp (congrArg Option.isSome (h.value key))
    rw [isSome_value, isSome_value] at hv
    simp only [Bool.and_eq_true] at hv ⊢
    grind
  · exact (close_purgeAll (close_purgeAll h _).symm _).symm

/-! ## Every request -/

theorem close_delete {ks ks' : Keyspace} (h : Close same now ∅ ks ks') (keys : List Bytes) :
    Close same now ∅ (ks.run (delete keys)).2 (ks'.run (delete keys)).2 := by
  induction keys generalizing ks ks' with
  | nil => exact h
  | cons key keys ih =>
    have hrun : ∀ t : Keyspace, t.Sane → (t.run (delete (key :: keys))).2 =
        ((t.erase key (t.deadlines.find? key).isSome).run (delete keys)).2 := by
      intro t ht
      rw [delete, run_bind_ok (run_removeKey ht key), ← map_eq_pure_bind, run_map]
    rw [hrun ks h.left, hrun ks' h.right]
    apply ih
    apply (h.erase (h.left.erase_recorded key) (h.right.erase_recorded key)).mono
    exact Set.empty_subset _

theorem blind_ofRequest {request : Request} (hr : request.countsDue = false) :
    Blind same now ∅ (ofRequest now request) ∅ := by
  cases request with
  | set key value => exact (blind_set key value).bind fun _ => blind_pure _
  | setFor key value seconds => exact (blind_setFor key value seconds).bind fun _ => blind_pure _
  | setNew key value => exact (blind_setNew key value).map _
  | get key => exact (blind_get key).map _
  | delete keys => cases hr
  | countPresent keys => exact (blind_countPresent keys).map _
  | keys pattern => exact (blind_keys pattern).map _
  | expire key seconds condition => exact (blind_expireMillis key _ condition).map _
  | expireMillis key millis condition => exact (blind_expireMillis key millis condition).map _
  | persist key => exact (blind_persist key).map _
  | lifetime key => exact (blind_lifetime key).map _
  | kind key => exact (blind_kind? key).map _
  | rename source target => exact (blind_rename source target).bind fun _ => blind_pure _
  | size => cases hr
  | flush => exact blind_flush.bind fun _ => blind_pure _
  | addMembers key items flags => exact (blind_addMembers key items flags).map _
  | increase key delta member => exact (blind_increase key delta member).map _
  | count key => exact (blind_readSet key _ _).map _
  | score key member => exact (blind_readSet key _ _).map _
  | rank key member => exact (blind_readSet key _ _).map _
  | revRank key member => exact (blind_readSet key _ _).map _
  | range key start stop => exact (blind_readSet key _ _).map _
  | revRange key start stop => exact (blind_readSet key _ _).map _
  | scoreRange key range page => exact (blind_readSet key _ _).map _
  | revScoreRange key range page => exact (blind_readSet key _ _).map _
  | countInRange key range => exact (blind_readSet key _ _).map _
  | removeMembers key members => exact (blind_editSet key _ _).map _
  | removeRange key start stop => exact (blind_editSet key _ _).map _
  | removeScoreRange key range => exact (blind_editSet key _ _).map _
  | popMin key n => exact (blind_editSet key _ _).map _
  | popMax key n => exact (blind_editSet key _ _).map _
  | difference keys => exact (blind_answer keys fun _ hk => blind_difference hk).map _
  | union keys weights agg =>
    exact (blind_answer keys fun _ hk => blind_union hk weights agg).map _
  | intersection keys weights agg =>
    exact (blind_answer keys fun _ hk => blind_intersection hk weights agg).map _
  | storeDifference dest keys =>
    exact (blind_store dest keys fun _ hk => blind_difference hk).map _
  | storeUnion dest keys weights agg =>
    exact (blind_store dest keys fun _ hk => blind_union hk weights agg).map _
  | storeIntersection dest keys weights agg =>
    exact (blind_store dest keys fun _ hk => blind_intersection hk weights agg).map _

end Command

namespace Keyspace

variable {same : Prop} {now : Nat} {ks ks' : Keyspace}

theorem Close.answer_eq (h : Close same now ∅ ks ks') {request : Request}
    (hr : request.countsDue = false) :
    (ks.handle now request).1 = (ks'.handle now request).1 :=
  (Command.blind_ofRequest hr ks ks' h).1

theorem Close.handle (h : Close same now ∅ ks ks') (request : Request) :
    Close same now ∅ (ks.handle now request).2 (ks'.handle now request).2 := by
  cases hr : request.countsDue with
  | false =>
    apply (Command.blind_ofRequest hr ks ks' h).2.mono
    exact Set.empty_subset _
  | true =>
    cases request with
    | delete keys =>
      unfold Keyspace.handle Command.ofRequest
      rw [run_map, run_map]
      exact Command.close_delete h keys
    | size => exact h
    | _ => cases hr

end Keyspace

end KeyEngine
