import KeyEngine.Proofs.Keyspace.Careful
import KeyEngine.Proofs.Keyspace.Expiry

/-!
# Values of the wrong kind

A request expects strings or sorted sets under the keys that it reads. It fails over the kind of a value
exactly where one of these keys holds a value of the other kind that is not due, but for differences:
where the first key has no value, the kinds of the others go unnoticed.
-/

namespace KeyEngine

namespace Request

/-- The keys that the request reads, and the kind of value that it expects there. -/
def expects : Request → List (Bytes × Kind)
  | .set key _ | .setFor key _ _ | .get key => [(key, .text)]
  | .addMembers key _ _ | .increase key _ _ | .count key | .score key _ | .rank key _
  | .revRank key _ | .range key _ _ | .revRange key _ _ | .scoreRange key _ _
  | .revScoreRange key _ _ | .countInRange key _ | .removeMembers key _ | .removeRange key _ _
  | .removeScoreRange key _ | .popMin key _ | .popMax key _ => [(key, .sortedSet)]
  | .difference sources | .union sources _ _ | .intersection sources _ _
  | .storeDifference _ sources | .storeUnion _ sources _ _ | .storeIntersection _ sources _ _ =>
    sources.map (·, .sortedSet)
  | _ => []

def isDifference : Request → Bool
  | .difference _ | .storeDifference _ _ => true
  | _ => false

/-- One weight for each key, none of them NaN. -/
def Weighs (sources : List Bytes) (weights : Option (List Score)) : Prop :=
  ∀ ws, weights = some ws → ws.length = sources.length ∧ ∀ w ∈ ws, w.isNaN = false

/-- The weights that are given, or else one for each key. -/
def weightsOf (sources : List Bytes) (weights : Option (List Score)) : List Score :=
  weights.getD (List.replicate sources.length .one)

theorem Weighs.length_eq {sources : List Bytes} {weights : Option (List Score)} (h : Weighs sources weights) :
    (weightsOf sources weights).length = sources.length := by
  cases weights with
  | none => simp [weightsOf]
  | some ws => exact (h ws rfl).1

/-- There is a key where one is needed, and what is given besides the keys is in order. -/
def Valid : Request → Prop
  | .addMembers _ items flags =>
    (flags.onlyNew && flags.onlyOld) = false ∧ ∀ e ∈ items, e.score.isNaN = false
  | .increase _ delta _ => delta.isNaN = false
  | .difference sources | .storeDifference _ sources => sources ≠ []
  | .union sources weights _ | .intersection sources weights _ | .storeUnion _ sources weights _
  | .storeIntersection _ sources weights _ => sources ≠ [] ∧ Weighs sources weights
  | _ => True

end Request

namespace Keyspace

/-- The key holds a live value of another kind. -/
def Clashes (now : Nat) (ks : Keyspace) (key : Bytes) (kind : Kind) : Prop :=
  ∃ v, ks.value now key = some v ∧ v.kind ≠ kind

end Keyspace

namespace Command

open Keyspace

variable {α β : Type} {now : Nat} {ks : Keyspace}

/-! ## Keys that have been looked at -/

/-- A key that has been looked at holds what it held, unless it was due. -/
theorem find?_purgeAll (h : ks.Sane) {keys : List Bytes} {key : Bytes} (hk : key ∈ keys) :
    (purgeAll now ks keys).data.find? key = ks.value now key := by
  have hc : Close False now ∅ ks ks := .refl h
  have hlooked := (blind_checkAll keys ks ks hc).2
  rw [run_checkAll h] at hlooked
  rw [← (close_purgeAll hc keys).value key]
  unfold value
  rw [(hlooked.settled key (.inl hk)).1]
  rfl

theorem find?_purge (h : ks.Sane) (key : Bytes) :
    (ks.purge now key).data.find? key = ks.value now key := by
  show (purgeAll now ks [key]).data.find? key = _
  exact find?_purgeAll h (List.mem_singleton_self key)

/-! ## Commands that mind no kind -/

/-- The command does not fail over the kind of a value. -/
def Spares (c : Command α) : Prop :=
  ∀ ks : Keyspace, ks.Sane → (ks.run c).1 ≠ .error .wrongType

theorem spares_pure (a : α) : Spares (pure a) := nofun

theorem spares_throw {e : Error} (he : e ≠ .wrongType) : Spares (throw e : Command α) := by
  intro ks _ hw
  exact he (Except.error.inj hw)

theorem Sure.spares {c : Command α} (hc : Sure now c) : Spares c := by
  intro ks h
  obtain ⟨a, t, hr, -⟩ := hc ks h
  rw [hr]
  exact nofun

theorem spares_ofFault (result : Except Fault α) : Spares (ofFault result) := by
  unfold ofFault
  cases result with
  | ok a => exact spares_pure a
  | error fault => exact spares_throw nofun

theorem wrongType_bind {c : Command α} {f : α → Command β} (hc : Careful now c)
    (hf : ∀ a, Spares (f a)) (h : ks.Sane) :
    (ks.run (c >>= f)).1 = .error .wrongType ↔ (ks.run c).1 = .error .wrongType := by
  have ht := (hc ks h).1.sane h
  rw [run_bind]
  rcases hr : ks.run c with ⟨result, t⟩
  rw [hr] at ht
  cases result with
  | error e => simp
  | ok a => simpa using hf a t ht

theorem Spares.bind {c : Command α} {f : α → Command β} (hs : Spares c) (hc : Careful now c)
    (hf : ∀ a, Spares (f a)) : Spares (c >>= f) := by
  intro ks h
  rw [Ne, wrongType_bind hc hf h]
  exact hs ks h

theorem wrongType_map (ks : Keyspace) (c : Command α) (f : α → β) :
    (ks.run (f <$> c)).1 = .error .wrongType ↔ (ks.run c).1 = .error .wrongType := by
  rw [run_map]
  cases (ks.run c).1 with
  | error e => simp [Except.map]
  | ok a => simp [Except.map]

theorem Sure.bind_spares {c : Command α} {f : α → Command β} (hc : Sure now c)
    (hf : ∀ a, Spares (f a)) : Spares (c >>= f) :=
  hc.spares.bind hc.careful hf

theorem spares_ofFault_bind {f : α → Command β} (result : Except Fault α)
    (hf : ∀ a, Spares (f a)) : Spares (ofFault result >>= f) := by
  have hc : Careful 0 (ofFault result) := (looks_ofFault result).careful
  exact (spares_ofFault result).bind hc hf

theorem spares_rename (source target : Bytes) : Spares (rename now source target) := by
  unfold rename
  apply (reads_checkLive source).sure.bind_spares
  intro live
  split
  · apply (reads_checkLive target).sure.discard.bind_spares
    intro _
    have hl : Reads now (lookup source) := reads_lookup source
    apply hl.sure.bind_spares
    intro found
    split
    · exact spares_throw nofun
    · split
      · exact spares_pure _
      · have hd : Reads now (deadline? source) := reads_deadline? source
        apply hd.sure.bind_spares
        intro deadline
        exact (sure_move source target _ deadline).spares
  · exact spares_throw nofun

/-! ## Commands that mind the kind of one value -/

/-- The command fails over a kind exactly where the key holds a value of another kind. -/
def Minds (c : Command α) (key : Bytes) (kind : Kind) : Prop :=
  ∀ ks : Keyspace, ks.Sane →
    ((ks.run c).1 = .error .wrongType ↔ ∃ v, ks.data.find? key = some v ∧ v.kind ≠ kind)

variable {key : Bytes} {kind : Kind}

theorem Minds.bind {c : Command α} {f : α → Command β} (hm : Minds c key kind) (hc : Careful now c)
    (hf : ∀ a, Spares (f a)) : Minds (c >>= f) key kind := by
  intro ks h
  rw [wrongType_bind hc hf h]
  exact hm ks h

theorem Minds.checked {c : Command α} (hm : Minds c key kind) (h : ks.Sane) :
    (ks.run (discard (checkLive now key) >>= fun _ => c)).1 = .error .wrongType ↔
      ks.Clashes now key kind := by
  rw [run_bind_ok (run_discard_ok (run_checkLive h now key)), hm _ (h.purge now key), find?_purge h]
  rfl

/-! ### Strings -/

theorem minds_storeText (key value : Bytes) : Minds (storeText key value) key .text := by
  intro ks h
  have hput : Sure 0 (do put key (.text value); discard <| dropDeadline key) :=
    (sure_put key _).bind fun _ => (sure_dropDeadline key).discard
  unfold storeText
  rw [run_bind_ok (run_lookup h key)]
  rcases ks.data.find? key with _ | _ | _
  · simpa using hput.spares ks h
  · simpa [Value.kind] using hput.spares ks h
  · simp [Value.kind]

theorem wrongType_set (h : ks.Sane) (key value : Bytes) :
    (ks.run (set now key value)).1 = .error .wrongType ↔ ks.Clashes now key .text :=
  (minds_storeText key value).checked h

theorem wrongType_setFor (h : ks.Sane) (key value : Bytes) (seconds : Nat) :
    (ks.run (setFor now key value seconds)).1 = .error .wrongType ↔ ks.Clashes now key .text := by
  have hs : Sure now (discard (setTtl now key seconds)) := (sure_expireAt key _).discard
  have hc : Careful now (storeText key value) := careful_storeText key value
  exact ((minds_storeText key value).bind hc fun _ => hs.spares).checked h

theorem wrongType_get (h : ks.Sane) (key : Bytes) :
    (ks.run (get now key)).1 = .error .wrongType ↔ ks.Clashes now key .text := by
  apply Minds.checked _ h
  intro ks h
  rw [run_bind_ok (run_lookup h key)]
  rcases ks.data.find? key with _ | _ | _
  · simp
  · simp [Value.kind]
  · simp [Value.kind]

/-! ### Sorted sets -/

def setIn : Option Value → Except Error (Option SortedSet)
  | some (.sortedSet s) => .ok (some s)
  | some (.text _) => .error .wrongType
  | none => .ok none

theorem setIn_eq_error (found : Option Value) {e : Error} :
    setIn found = .error e ↔ e = .wrongType ∧ ∃ v, found = some v ∧ v.kind ≠ .sortedSet := by
  rcases found with _ | _ | _
  · simp [setIn]
  · simp [setIn, Value.kind, eq_comm]
  · simp [setIn, Value.kind]

theorem run_lookupSet (h : ks.Sane) (key : Bytes) :
    ks.run (lookupSet key) = (setIn (ks.data.find? key), ks) := by
  unfold lookupSet
  rw [run_bind_ok (run_lookup h key)]
  rcases ks.data.find? key with _ | _ | _
  · rfl
  · rfl
  · rfl

theorem minds_lookupSet (key : Bytes) : Minds (lookupSet key) key .sortedSet := by
  intro ks h
  rw [run_lookupSet h, setIn_eq_error]
  simp

theorem careful_lookupSet (key : Bytes) : Careful now (lookupSet key) :=
  (looks_lookupSet key).careful

theorem wrongType_readSet (h : ks.Sane) (key : Bytes) (empty : α) (f : SortedSet → Except Fault α) :
    (ks.run (readSet now key empty f)).1 = .error .wrongType ↔ ks.Clashes now key .sortedSet := by
  apply Minds.checked _ h
  apply (minds_lookupSet key).bind (careful_lookupSet key : Careful now _)
  intro found
  split
  · exact spares_ofFault _
  · exact spares_pure _

theorem wrongType_editSet (h : ks.Sane) (key : Bytes) (empty : α)
    (f : SortedSet → Except Fault (SortedSet × α)) :
    (ks.run (editSet now key empty f)).1 = .error .wrongType ↔ ks.Clashes now key .sortedSet := by
  apply Minds.checked _ h
  apply (minds_lookupSet key).bind (careful_lookupSet key : Careful now _)
  intro found
  split
  · apply spares_ofFault_bind
    rintro ⟨s, answer⟩
    dsimp only
    split
    · exact ((sure_removeKey key).discard.bind fun _ => sure_pure answer : Sure now _).spares
    · exact ((sure_put key _).bind fun _ => sure_pure answer : Sure now _).spares
  · exact spares_pure _

theorem minds_lookupOrFresh (key : Bytes) : Minds (lookupOrFresh key) key .sortedSet := by
  apply (minds_lookupSet key).bind (careful_lookupSet key : Careful 0 _)
  intro found
  split
  · exact spares_pure _
  · exact (reads_freshSet : Reads 0 _).sure.spares

theorem wrongType_addMembers (h : ks.Sane) (key : Bytes) {items : List Entry} {flags : AddFlags}
    (hflags : (flags.onlyNew && flags.onlyOld) = false)
    (hitems : ∀ e ∈ items, e.score.isNaN = false) :
    (ks.run (addMembers now key items flags)).1 = .error .wrongType ↔
      ks.Clashes now key .sortedSet := by
  have hnan : items.any (·.score.isNaN) = false := by simpa using hitems
  unfold addMembers
  simp only [hflags, hnan, Bool.false_eq_true, if_false]
  apply Minds.checked _ h
  apply (minds_lookupOrFresh key).bind ((looks_lookupOrFresh key).careful : Careful now _)
  intro s
  apply spares_ofFault_bind
  rintro ⟨s, tally⟩
  dsimp only
  split
  · exact ((sure_put key _).bind fun _ => sure_pure _ : Sure now _).spares
  · exact spares_pure _

theorem wrongType_increase (h : ks.Sane) (key : Bytes) {delta : Score}
    (hdelta : delta.isNaN = false) (member : Bytes) :
    (ks.run (increase now key delta member)).1 = .error .wrongType ↔
      ks.Clashes now key .sortedSet := by
  unfold increase
  simp only [hdelta, Bool.false_eq_true, if_false]
  apply Minds.checked _ h
  apply (minds_lookupOrFresh key).bind ((looks_lookupOrFresh key).careful : Careful now _)
  intro s
  split
  · intro ks _
    exact nofun
  · apply spares_ofFault_bind
    rintro ⟨s, -⟩
    exact ((sure_put key _).bind fun _ => sure_pure _ : Sure now _).spares

/-! ## Several sorted sets -/

theorem spares_setOf (entries : List Entry) : Spares (setOf entries) := by
  apply (reads_freshSet : Reads 0 _).sure.bind_spares
  intro s
  rcases s.add entries with ⟨s, added⟩
  have hc : Careful 0 (discard (ofFault added)) := (looks_ofFault added).discard.careful
  refine Spares.bind ?_ hc fun _ => spares_pure s
  intro ks h
  exact (wrongType_map ks (ofFault added) _).not.mpr (spares_ofFault added ks h)

/-- Some of the keys holds a string, as a look-up has it. -/
def AnyText (find : Bytes → Option Value) (keys : List Bytes) : Prop :=
  ∃ key ∈ keys, ∃ v, find key = some v ∧ v.kind ≠ .sortedSet

theorem wrongType_lookupSets (h : ks.Sane) (keys : List Bytes) :
    (ks.run (lookupSets keys)).1 = .error .wrongType ↔ AnyText ks.data.find? keys := by
  unfold lookupSets AnyText
  induction keys with
  | nil => simp
  | cons key keys ih =>
    have hc : Careful 0 (keys.mapM lookupSet) := (looks_lookupSets keys).careful
    rw [List.mapM_cons, run_bind, run_lookupSet h]
    cases hs : setIn (ks.data.find? key) with
    | error e =>
      obtain ⟨rfl, hv⟩ := (setIn_eq_error _).mp hs
      simp [hv]
    | ok found =>
      have hv : ¬ ∃ v, ks.data.find? key = some v ∧ v.kind ≠ .sortedSet := by
        intro hv
        rw [(setIn_eq_error _).mpr ⟨rfl, hv⟩] at hs
        cases hs
      dsimp only
      rw [wrongType_bind hc (fun rest => spares_pure _) h, ih]
      simp [hv]

theorem weightsFor_eq_ok {keys : List Bytes} {weights : Option (List Score)}
    (hw : Request.Weighs keys weights) : weightsFor keys weights = .ok (Request.weightsOf keys weights) := by
  cases weights with
  | none => rfl
  | some ws =>
    obtain ⟨hlength, hnan⟩ := hw ws rfl
    have hany : ws.any Score.isNaN = false := by simpa using hnan
    unfold weightsFor
    dsimp only
    rw [if_neg (not_not_intro hlength), hany]
    rfl

theorem run_weightsFor {keys : List Bytes} {weights : Option (List Score)} (ks : Keyspace)
    (hw : Request.Weighs keys weights) :
    ks.run (liftM (weightsFor keys weights)) = (.ok (Request.weightsOf keys weights), ks) := by
  rw [run_lift, weightsFor_eq_ok hw]

theorem wrongType_union (h : ks.Sane) {keys : List Bytes} {weights : Option (List Score)}
    (hw : Request.Weighs keys weights) (agg : Aggregate) :
    (ks.run (union keys weights agg)).1 = .error .wrongType ↔ AnyText ks.data.find? keys := by
  have hc : Careful 0 (lookupSets keys) := (looks_lookupSets keys).careful
  unfold union
  rw [run_bind_ok (run_weightsFor ks hw), wrongType_bind hc (fun sets => spares_setOf _) h, wrongType_lookupSets h]

theorem wrongType_intersection (h : ks.Sane) {keys : List Bytes} {weights : Option (List Score)}
    (hw : Request.Weighs keys weights) (agg : Aggregate) :
    (ks.run (intersection keys weights agg)).1 = .error .wrongType ↔
      AnyText ks.data.find? keys := by
  have hc : Careful 0 (lookupSets keys) := (looks_lookupSets keys).careful
  unfold intersection
  rw [run_bind_ok (run_weightsFor ks hw), wrongType_bind hc _ h, wrongType_lookupSets h]
  intro sets
  split
  · exact spares_setOf _
  · exact spares_setOf _

theorem wrongType_difference (h : ks.Sane) (keys : List Bytes) :
    (ks.run (difference keys)).1 = .error .wrongType ↔
      AnyText ks.data.find? keys ∧ ∀ key ∈ keys.head?, (ks.data.find? key).isSome := by
  cases keys with
  | nil => simpa [difference, AnyText] using spares_setOf [] ks h
  | cons key keys =>
    have hc : Careful 0 (lookupSets keys) := (looks_lookupSets keys).careful
    unfold difference AnyText
    rw [run_bind, run_lookupSet h]
    cases hf : ks.data.find? key with
    | none =>
      -- The other keys are not even looked up.
      simpa [setIn, hf] using spares_setOf [] ks h
    | some v =>
      cases v with
      | text b => simp [setIn, hf, Value.kind]
      | sortedSet s =>
        have hm := wrongType_lookupSets h keys
        unfold AnyText at hm
        simp only [setIn]
        rw [wrongType_bind hc (fun others => spares_setOf _) h, hm]
        simp [hf, Value.kind]

theorem wrongType_answer (h : ks.Sane) {keys : List Bytes} (hk : keys ≠ [])
    {result : Command SortedSet} (hr : Careful now result) :
    (ks.run (answer now keys result)).1 = .error .wrongType ↔
      ((purgeAll now ks keys).run result).1 = .error .wrongType := by
  unfold answer
  rw [run_bind_ok (run_checkOperands h hk []), List.append_nil,
    wrongType_bind hr (fun s => spares_pure _) (sane_purgeAll h keys)]

theorem wrongType_store (h : ks.Sane) (dest : Bytes) {keys : List Bytes} (hk : keys ≠ [])
    {result : Command SortedSet} (hr : Careful now result) :
    (ks.run (store now dest keys result)).1 = .error .wrongType ↔
      ((purgeAll now ks (keys ++ [dest])).run result).1 = .error .wrongType := by
  have hs : ∀ s, Spares (storeSet dest s) := fun s => (sure_storeSet dest s : Sure 0 _).spares
  unfold store
  rw [run_bind_ok (run_checkOperands h hk [dest]), wrongType_bind hr hs (sane_purgeAll h _)]

end Command

/-! ## Every request -/

namespace Keyspace

open Command

variable {α : Type} {now : Nat} {ks : Keyspace} {request : Request}

/-- The request meets a value of another kind than it expects, and notices. -/
def Mistyped (now : Nat) (ks : Keyspace) (request : Request) : Prop :=
  (∃ x ∈ request.expects, ks.Clashes now x.1 x.2) ∧
    (request.isDifference = true → ∀ x ∈ request.expects.head?, (ks.value now x.1).isSome)

theorem mistyped_one {key : Bytes} {kind : Kind} (he : request.expects = [(key, kind)])
    (hd : request.isDifference = false) : ks.Mistyped now request ↔ ks.Clashes now key kind := by
  unfold Mistyped
  simp [he, hd]

theorem not_mistyped (he : request.expects = []) : ¬ ks.Mistyped now request := by
  unfold Mistyped
  simp [he]

theorem wrongType_one {c : Command α} {f : α → Reply} {key : Bytes} {kind : Kind}
    (hc : (ks.run c).1 = .error .wrongType ↔ ks.Clashes now key kind)
    (he : request.expects = [(key, kind)]) (hd : request.isDifference = false) :
    (ks.run (f <$> c)).1 = .error .wrongType ↔ ks.Mistyped now request := by
  rw [wrongType_map, hc, mistyped_one he hd]

theorem wrongType_done {c : Command Unit} {key : Bytes} {kind : Kind}
    (hc : (ks.run c).1 = .error .wrongType ↔ ks.Clashes now key kind)
    (he : request.expects = [(key, kind)]) (hd : request.isDifference = false) :
    (ks.run (c >>= fun _ => pure Reply.done)).1 = .error .wrongType ↔ ks.Mistyped now request := by
  rw [← map_eq_pure_bind]
  exact wrongType_one hc he hd

theorem anyText_purgeAll (h : ks.Sane) {keys sources : List Bytes}
    (hk : ∀ key ∈ sources, key ∈ keys) :
    AnyText (purgeAll now ks keys).data.find? sources ↔
      ∃ x ∈ sources.map (·, Kind.sortedSet), ks.Clashes now x.1 x.2 := by
  unfold AnyText Clashes
  simp only [List.mem_map, exists_exists_and_eq_and]
  apply exists_congr
  intro key
  apply and_congr_right
  intro hm
  rw [find?_purgeAll h (hk key hm)]

theorem mistyped_combined (h : ks.Sane) {keys sources : List Bytes}
    (hk : ∀ key ∈ sources, key ∈ keys) (he : request.expects = sources.map (·, .sortedSet))
    (hd : request.isDifference = false) :
    AnyText (purgeAll now ks keys).data.find? sources ↔ ks.Mistyped now request := by
  unfold Mistyped
  rw [anyText_purgeAll h hk, he]
  simp [hd]

theorem mistyped_difference (h : ks.Sane) {keys sources : List Bytes}
    (hk : ∀ key ∈ sources, key ∈ keys) (he : request.expects = sources.map (·, .sortedSet))
    (hd : request.isDifference = true) :
    (AnyText (purgeAll now ks keys).data.find? sources ∧
      ∀ key ∈ sources.head?, ((purgeAll now ks keys).data.find? key).isSome) ↔
      ks.Mistyped now request := by
  unfold Mistyped
  rw [anyText_purgeAll h hk, he]
  apply and_congr_right
  intro _
  cases sources with
  | nil => simp
  | cons key sources =>
    have hf : (purgeAll now ks keys).data.find? key = ks.value now key :=
      find?_purgeAll h (hk key List.mem_cons_self)
    simp [hd, hf]

theorem wrongType_ofRequest (h : ks.Sane) (hv : request.Valid) :
    (ks.run (ofRequest now request)).1 = .error .wrongType ↔ ks.Mistyped now request := by
  have hself : ∀ sources : List Bytes, ∀ key ∈ sources, key ∈ sources := fun _ _ hm => hm
  have hwith : ∀ (dest : Bytes) (sources : List Bytes), ∀ key ∈ sources, key ∈ sources ++ [dest] :=
    fun dest _ _ hm => List.mem_append_left [dest] hm
  have hsure : ∀ r : Request, r.mayFail = false →
      (ks.run (ofRequest now r)).1 ≠ .error .wrongType := by
    intro r hr
    have hs : Sure now (ofRequest now r) := sure_ofRequest hr
    exact hs.spares ks h
  cases request with
  | set key value => exact wrongType_done (wrongType_set h key value) rfl rfl
  | setFor key value seconds => exact wrongType_done (wrongType_setFor h key value seconds) rfl rfl
  | get key => exact wrongType_one (wrongType_get h key) rfl rfl
  | rename source target =>
    have hs : Spares (rename now source target >>= fun _ => pure Reply.done) :=
      (spares_rename source target).bind (careful_rename source target : Careful now _)
        fun _ => spares_pure _
    exact iff_of_false (hs ks h) (not_mistyped rfl)
  | addMembers key items flags => exact wrongType_one (wrongType_addMembers h key hv.1 hv.2) rfl rfl
  | increase key delta member => exact wrongType_one (wrongType_increase h key hv member) rfl rfl
  | count key => exact wrongType_one (wrongType_readSet h key _ _) rfl rfl
  | score key member => exact wrongType_one (wrongType_readSet h key _ _) rfl rfl
  | rank key member => exact wrongType_one (wrongType_readSet h key _ _) rfl rfl
  | revRank key member => exact wrongType_one (wrongType_readSet h key _ _) rfl rfl
  | range key start stop => exact wrongType_one (wrongType_readSet h key _ _) rfl rfl
  | revRange key start stop => exact wrongType_one (wrongType_readSet h key _ _) rfl rfl
  | scoreRange key range page => exact wrongType_one (wrongType_readSet h key _ _) rfl rfl
  | revScoreRange key range page => exact wrongType_one (wrongType_readSet h key _ _) rfl rfl
  | countInRange key range => exact wrongType_one (wrongType_readSet h key _ _) rfl rfl
  | removeMembers key members => exact wrongType_one (wrongType_editSet h key _ _) rfl rfl
  | removeRange key start stop => exact wrongType_one (wrongType_editSet h key _ _) rfl rfl
  | removeScoreRange key range => exact wrongType_one (wrongType_editSet h key _ _) rfl rfl
  | popMin key n => exact wrongType_one (wrongType_editSet h key _ _) rfl rfl
  | popMax key n => exact wrongType_one (wrongType_editSet h key _ _) rfl rfl
  | difference sources =>
    unfold ofRequest
    rw [wrongType_map, wrongType_answer h hv (looks_difference sources).careful,
      wrongType_difference (sane_purgeAll h _)]
    exact mistyped_difference h (hself sources) rfl rfl
  | union sources weights agg =>
    unfold ofRequest
    rw [wrongType_map, wrongType_answer h hv.1 (looks_union sources weights agg).careful,
      wrongType_union (sane_purgeAll h _) hv.2]
    exact mistyped_combined h (hself sources) rfl rfl
  | intersection sources weights agg =>
    unfold ofRequest
    rw [wrongType_map, wrongType_answer h hv.1 (looks_intersection sources weights agg).careful,
      wrongType_intersection (sane_purgeAll h _) hv.2]
    exact mistyped_combined h (hself sources) rfl rfl
  | storeDifference dest sources =>
    unfold ofRequest
    rw [wrongType_map, wrongType_store h dest hv (looks_difference sources).careful,
      wrongType_difference (sane_purgeAll h _)]
    exact mistyped_difference h (hwith dest sources) rfl rfl
  | storeUnion dest sources weights agg =>
    unfold ofRequest
    rw [wrongType_map, wrongType_store h dest hv.1 (looks_union sources weights agg).careful,
      wrongType_union (sane_purgeAll h _) hv.2]
    exact mistyped_combined h (hwith dest sources) rfl rfl
  | storeIntersection dest sources weights agg =>
    unfold ofRequest
    rw [wrongType_map, wrongType_store h dest hv.1 (looks_intersection sources weights agg).careful,
      wrongType_intersection (sane_purgeAll h _) hv.2]
    exact mistyped_combined h (hwith dest sources) rfl rfl
  | _ => exact iff_of_false (hsure _ rfl) (not_mistyped rfl)

/-- A request that is otherwise in order fails over the kind of a value just where a key that it reads
holds a live value of another kind than it expects. But a difference of a first key without a value is
empty, whatever the other keys hold. -/
theorem wrongType_iff (hreach : Reachable ks) (hv : request.Valid) :
    (ks.handle now request).1 = .error .wrongType ↔
      (∃ x ∈ request.expects, ∃ v, ks.value now x.1 = some v ∧ v.kind ≠ x.2) ∧
        (request.isDifference = true →
          ∀ x ∈ request.expects.head?, (ks.value now x.1).isSome) :=
  wrongType_ofRequest hreach.sane hv

theorem after_set_new (h : ks.Sane) {key : Bytes} (hd : ks.due now key = false)
    (hf : ks.data.find? key = none) (value : Bytes) :
    ks.after (.request now (.set key value)) = (ks.place key (.text value)).undate key := by
  show (ks.run (Command.set now key value >>= fun _ => pure Reply.done)).2 = _
  have hset : ks.run (Command.set now key value) =
      (.ok (), (ks.place key (.text value)).undate key) := by
    unfold Command.set
    rw [run_bind_ok (run_discard_ok (run_checkLive_live h hd))]
    exact (run_storeText h key value).trans (by rw [hf])
  rw [run_bind_ok hset]
  rfl

theorem standard_set (key value : Bytes) (other : Bytes) :
    (standard.after (.request 0 (.set key value))).value 0 other =
      if key = other then some (.text value) else none := by
  have hs : standard.Sane := sane_new _ _
  have hplace := hs.place key (.text value)
  have hd : ∀ k, standard.due 0 k = false := fun k => Close.due_of_absent (Store.find?_empty _ _)
  rw [after_set_new hs (hd key) (Store.find?_empty _ _)]
  by_cases hk : key = other
  · subst hk
    rw [Close.value_undate hplace, if_pos rfl]
    exact find?_place hs key _
  · rw [if_neg hk, (SameBut.undate hplace key).value 0 (Ne.symm hk),
      (SameBut.place hs key _).value 0 (Ne.symm hk)]
    unfold Keyspace.value
    rw [hd other, if_neg Bool.false_ne_true]
    exact Store.find?_empty _ _

theorem wrongType_iff_union :
    let ks := standard.after (.request 0 (.set [98] [118]))
    let request := Request.union [[97], [98]] none .sum
    Reachable ks ∧ request.Valid ∧ (ks.handle 0 request).1 = .error .wrongType := by
  intro ks request
  have hreach : Reachable ks := .step _ (.new _ _)
  have hv : request.Valid := ⟨by simp, nofun⟩
  refine ⟨hreach, hv, (wrongType_iff hreach hv).mpr ⟨⟨([98], .sortedSet), ?_, ?_⟩, nofun⟩⟩
  · simp [request, Request.expects]
  · exact ⟨.text [118], standard_set [98] [118] [98], nofun⟩

/-- The second key holds a string, but nobody looks. -/
theorem difference_unnoticed :
    let ks := standard.after (.request 0 (.set [98] [118]))
    let request := Request.difference [[97], [98]]
    Reachable ks ∧ request.Valid ∧ ([98], .sortedSet) ∈ request.expects ∧
      ks.value 0 [98] = some (.text [118]) ∧ (ks.handle 0 request).1 = .ok (.entries []) := by
  intro ks request
  have hreach : Reachable ks := .step _ (.new _ _)
  have h := hreach.sane
  have hread : ([98], .sortedSet) ∈ request.expects := by simp [request, Request.expects]
  refine ⟨hreach, List.cons_ne_nil _ _, hread, standard_set [98] [118] [98], ?_⟩
  have hp : (purgeAll 0 ks [[97], [98]]).Sane := sane_purgeAll h _
  have hnone : (purgeAll 0 ks [[97], [98]]).data.find? [97] = none :=
    (find?_purgeAll h (by simp)).trans (standard_set [98] [118] [97])
  have hlook : (purgeAll 0 ks [[97], [98]]).run (lookupSet [97]) =
      (.ok none, purgeAll 0 ks [[97], [98]]) := by
    rw [run_lookupSet hp, hnone]
    rfl
  show (ks.run (Reply.entries <$> answer 0 [[97], [98]] (difference [[97], [98]]))).1 = _
  unfold answer difference
  rw [run_map, run_bind_ok (run_checkOperands h (by simp) [])]
  show (((purgeAll 0 ks [[97], [98]]).run _).1.map Reply.entries) = _
  rw [bind_assoc, run_bind_ok hlook]
  rfl

end Keyspace

end KeyEngine
