import KeyEngine.Proofs.Keyspace.Changes

/-!
# Careful requests

Every request is careful: whatever may fail in it comes before its first write. Most of the requests that
have nothing to do with the kinds of values cannot fail at all.
-/

namespace KeyEngine

def Request.mayFail : Request → Bool
  | .setNew _ _ | .delete _ | .countPresent _ | .keys _ | .expire _ _ _ | .expireMillis _ _ _ => false
  | .persist _ | .lifetime _ | .kind _ | .size | .flush => false
  | _ => true

namespace Command

open Keyspace

variable {α : Type} {now : Nat}

/-! ## Strings -/

theorem careful_storeText (key value : Bytes) : Careful now (storeText key value) := by
  unfold storeText
  apply (looks_lookup key).bind_careful
  intro found
  split
  · exact (looks_throw _).careful
  · apply Sure.careful
    apply (sure_put key _).bind
    intro _
    exact (sure_dropDeadline key).discard

theorem careful_set (key value : Bytes) : Careful now (set now key value) := by
  unfold set
  apply (looks_checkLive key).discard.bind_careful
  intro _
  exact careful_storeText key value

theorem careful_setFor (key value : Bytes) (seconds : Nat) :
    Careful now (setFor now key value seconds) := by
  unfold setFor
  apply (looks_checkLive key).discard.bind_careful
  intro _
  apply (careful_storeText key value).bind_sure
  intro _
  exact (sure_expireAt key _).discard

theorem sure_setNew (key value : Bytes) : Sure now (setNew now key value) := by
  unfold setNew
  apply (reads_checkLive key).sure.discard.bind
  intro _
  exact sure_insertNew key _

theorem looks_get (key : Bytes) : Looks now (get now key) := by
  unfold get
  apply (looks_checkLive key).discard.bind
  intro _
  apply (looks_lookup key).bind
  intro found
  split
  · exact looks_pure _
  · exact looks_throw _
  · exact looks_pure _

/-! ## Keys -/

theorem sure_delete (keys : List Bytes) : Sure now (delete keys) := by
  induction keys with
  | nil => exact sure_pure 0
  | cons key keys ih =>
    unfold delete
    apply (sure_removeKey key).bind
    intro removed
    apply ih.bind
    intro rest
    exact sure_pure _

theorem reads_isPresent (key : Bytes) : Reads now (isPresent now key) := by
  unfold isPresent
  apply (reads_checkLive key).bind
  intro live
  split
  · exact reads_contains key
  · exact reads_pure false

theorem reads_countPresent (keys : List Bytes) : Reads now (countPresent now keys) := by
  induction keys with
  | nil => exact reads_pure 0
  | cons key keys ih =>
    unfold countPresent
    apply (reads_isPresent key).bind
    intro present
    apply ih.bind
    intro rest
    exact reads_pure _

theorem reads_matching (pattern : Bytes) (keys : List Bytes) :
    Reads now (matching now pattern keys) := by
  induction keys with
  | nil => exact reads_pure []
  | cons key keys ih =>
    unfold matching
    apply (reads_checkLive key).bind
    intro live
    apply ih.bind
    intro rest
    exact reads_pure _

theorem reads_keys (pattern : Bytes) : Reads now (keys now pattern) := by
  unfold keys
  apply reads_get.bind
  intro ks
  exact reads_matching pattern ks.data.sortedKeys

theorem reads_kind? (key : Bytes) : Reads now (kind? now key) := by
  unfold kind?
  apply (reads_checkLive key).bind
  intro live
  split
  · exact (reads_lookup key).map _
  · exact reads_pure none

theorem sure_move (source target : Bytes) (value : Value) (deadline : Option Nat) :
    Sure now (do
      discard <| removeKey source
      discard <| removeKey target
      put target value
      match deadline with
      | some time => discard <| expireAt now target time
      | none => return) := by
  apply (sure_removeKey source).discard.bind
  intro _
  apply (sure_removeKey target).discard.bind
  intro _
  apply (sure_put target _).bind
  intro _
  split
  · exact (sure_expireAt target _).discard
  · exact sure_pure _

theorem careful_rename (source target : Bytes) : Careful now (rename now source target) := by
  unfold rename
  apply (looks_checkLive source).bind_careful
  intro live
  split
  · apply (looks_checkLive target).discard.bind_careful
    intro _
    apply (looks_lookup source).bind_careful
    intro found
    split
    · exact (looks_throw _).careful
    · split
      · exact (sure_pure _).careful
      · apply (reads_deadline? source).looks.bind_careful
        intro deadline
        exact (sure_move source target _ deadline).careful
  · exact (looks_throw _).careful

/-! ## Lifetimes -/

theorem sure_expireMillis (key : Bytes) (millis : Nat) (condition : ExpireCondition) :
    Sure now (expireMillis now key millis condition) := by
  unfold expireMillis
  apply (reads_checkLive key).sure.bind
  intro live
  split
  · apply (reads_contains key).sure.bind
    intro present
    split
    · apply (reads_deadline? key).sure.bind
      intro current
      split
      · exact sure_expireAt key _
      · exact sure_pure false
    · exact sure_pure false
  · exact sure_pure false

theorem sure_persist (key : Bytes) : Sure now (persist now key) := by
  unfold persist
  apply (reads_checkLive key).sure.bind
  intro live
  split
  · exact sure_dropDeadline key
  · exact sure_pure false

theorem reads_remaining (key : Bytes) : Reads now (remaining now key) :=
  (reads_deadline? key).map _

theorem reads_lifetime (key : Bytes) : Reads now (lifetime now key) := by
  unfold lifetime
  apply (reads_checkLive key).bind
  intro live
  split
  · apply (reads_contains key).bind
    intro present
    split
    · apply (reads_remaining key).bind
      intro left
      split
      · exact reads_pure _
      · exact reads_pure _
    · exact reads_pure _
  · exact reads_pure _

/-! ## Sorted sets -/

theorem looks_lookupSet (key : Bytes) : Looks now (lookupSet key) := by
  unfold lookupSet
  apply (looks_lookup key).bind
  intro found
  split
  · exact looks_pure _
  · exact looks_throw _
  · exact looks_pure _

theorem looks_lookupOrFresh (key : Bytes) : Looks now (lookupOrFresh key) := by
  unfold lookupOrFresh
  apply (looks_lookupSet key).bind
  intro found
  split
  · exact looks_pure _
  · exact reads_freshSet.looks

theorem looks_readSet (key : Bytes) (empty : α) (f : SortedSet → Except Fault α) :
    Looks now (readSet now key empty f) := by
  unfold readSet
  apply (looks_checkLive key).discard.bind
  intro _
  apply (looks_lookupSet key).bind
  intro found
  split
  · exact looks_ofFault _
  · exact looks_pure _

theorem careful_editSet (key : Bytes) (empty : α) (f : SortedSet → Except Fault (SortedSet × α)) :
    Careful now (editSet now key empty f) := by
  unfold editSet
  apply (looks_checkLive key).discard.bind_careful
  intro _
  apply (looks_lookupSet key).bind_careful
  intro found
  split
  · apply (looks_ofFault _).bind_careful
    rintro ⟨s, answer⟩
    apply Sure.careful
    dsimp only
    split
    · exact (sure_removeKey key).discard.bind fun _ => sure_pure _
    · exact (sure_put key _).bind fun _ => sure_pure _
  · exact (looks_pure _).careful

theorem careful_addMembers (key : Bytes) (items : List Entry) (flags : AddFlags) :
    Careful now (addMembers now key items flags) := by
  unfold addMembers
  dsimp only
  apply careful_guard
  apply careful_guard
  apply (looks_checkLive key).discard.bind_careful
  intro _
  apply (looks_lookupOrFresh key).bind_careful
  intro s
  apply (looks_ofFault _).bind_careful
  rintro ⟨s, tally⟩
  apply Sure.careful
  dsimp only
  split
  · exact (sure_put key _).bind fun _ => sure_pure _
  · exact sure_pure _

theorem careful_increase (key : Bytes) (delta : Score) (member : Bytes) :
    Careful now (increase now key delta member) := by
  unfold increase
  dsimp only
  apply careful_guard
  apply (looks_checkLive key).discard.bind_careful
  intro _
  apply (looks_lookupOrFresh key).bind_careful
  intro s
  apply careful_guard
  apply (looks_ofFault _).bind_careful
  rintro ⟨s, -⟩
  exact ((sure_put key _).bind fun _ => sure_pure _).careful

/-! ## Several sorted sets -/

theorem looks_lookupSets (keys : List Bytes) : Looks now (lookupSets keys) := by
  unfold lookupSets
  induction keys with
  | nil => exact looks_pure _
  | cons key keys ih =>
    rw [List.mapM_cons]
    apply (looks_lookupSet key).bind
    intro found
    apply ih.bind
    intro rest
    exact looks_pure _

theorem looks_setOf (entries : List Entry) : Looks now (setOf entries) := by
  unfold setOf
  apply reads_freshSet.looks.bind
  intro s
  rcases s.add entries with ⟨s, added⟩
  apply (looks_ofFault added).discard.bind
  intro _
  exact looks_pure _

theorem looks_difference (keys : List Bytes) : Looks now (difference keys) := by
  cases keys with
  | nil => exact looks_setOf []
  | cons key keys =>
    unfold difference
    apply (looks_lookupSet key).bind
    intro found
    split
    · exact looks_setOf _
    · apply (looks_lookupSets keys).bind
      intro others
      exact looks_setOf _

theorem looks_union (keys : List Bytes) (weights : Option (List Score)) (agg : Aggregate) :
    Looks now (union keys weights agg) := by
  unfold union
  apply (looks_lift _).bind
  intro weights
  apply (looks_lookupSets keys).bind
  intro sets
  exact looks_setOf _

theorem looks_intersection (keys : List Bytes) (weights : Option (List Score)) (agg : Aggregate) :
    Looks now (intersection keys weights agg) := by
  unfold intersection
  apply (looks_lift _).bind
  intro weights
  apply (looks_lookupSets keys).bind
  intro sets
  split
  · exact looks_setOf _
  · exact looks_setOf _

theorem looks_checkOperands (keys more : List Bytes) : Looks now (checkOperands now keys more) := by
  unfold checkOperands
  dsimp only
  split
  · exact (looks_throw _).bind fun _ => looks_checkAll _
  · exact looks_checkAll _

theorem sure_storeSet (key : Bytes) (s : SortedSet) : Sure now (storeSet key s) := by
  unfold storeSet
  apply (sure_removeKey key).discard.bind
  intro _
  dsimp only
  split
  · exact (sure_put key _).bind fun _ => sure_pure _
  · exact sure_pure _

theorem looks_answer (keys : List Bytes) {result : Command SortedSet} (hr : Looks now result) :
    Looks now (answer now keys result) := by
  unfold answer
  apply (looks_checkOperands keys []).bind
  intro _
  apply hr.bind
  intro s
  exact looks_pure _

theorem careful_store (dest : Bytes) (keys : List Bytes) {result : Command SortedSet}
    (hr : Looks now result) : Careful now (store now dest keys result) := by
  unfold store
  apply (looks_checkOperands keys [dest]).bind_careful
  intro _
  apply hr.bind_careful
  intro s
  exact (sure_storeSet dest s).careful

/-! ## Every request -/

theorem sure_ofRequest {request : Request} (hr : request.mayFail = false) :
    Sure now (ofRequest now request) := by
  cases request with
  | setNew key value => exact (sure_setNew key value).map _
  | delete keys => exact (sure_delete keys).map _
  | countPresent keys => exact ((reads_countPresent keys).map _).sure
  | keys pattern => exact ((reads_keys pattern).map _).sure
  | expire key seconds condition => exact (sure_expireMillis key _ condition).map _
  | expireMillis key millis condition => exact (sure_expireMillis key millis condition).map _
  | persist key => exact (sure_persist key).map _
  | lifetime key => exact ((reads_lifetime key).map _).sure
  | kind key => exact ((reads_kind? key).map _).sure
  | size => exact (reads_get.bind fun _ => reads_pure _).sure
  | flush => exact sure_flush.bind fun _ => sure_pure _
  | _ => cases hr

theorem careful_ofRequest (request : Request) : Careful now (ofRequest now request) := by
  cases request with
  | set key value => exact (careful_set key value).bind_sure fun _ => sure_pure _
  | setFor key value seconds =>
    exact (careful_setFor key value seconds).bind_sure fun _ => sure_pure _
  | get key => exact (looks_get key).careful.map _
  | rename source target => exact (careful_rename source target).bind_sure fun _ => sure_pure _
  | addMembers key items flags => exact (careful_addMembers key items flags).map _
  | increase key delta member => exact (careful_increase key delta member).map _
  | count key => exact (looks_readSet key _ _).careful.map _
  | score key member => exact (looks_readSet key _ _).careful.map _
  | rank key member => exact (looks_readSet key _ _).careful.map _
  | revRank key member => exact (looks_readSet key _ _).careful.map _
  | range key start stop => exact (looks_readSet key _ _).careful.map _
  | revRange key start stop => exact (looks_readSet key _ _).careful.map _
  | scoreRange key range page => exact (looks_readSet key _ _).careful.map _
  | revScoreRange key range page => exact (looks_readSet key _ _).careful.map _
  | countInRange key range => exact (looks_readSet key _ _).careful.map _
  | removeMembers key members => exact (careful_editSet key _ _).map _
  | removeRange key start stop => exact (careful_editSet key _ _).map _
  | removeScoreRange key range => exact (careful_editSet key _ _).map _
  | popMin key n => exact (careful_editSet key _ _).map _
  | popMax key n => exact (careful_editSet key _ _).map _
  | difference keys => exact (looks_answer keys (looks_difference keys)).careful.map _
  | union keys weights agg =>
    exact (looks_answer keys (looks_union keys weights agg)).careful.map _
  | intersection keys weights agg =>
    exact (looks_answer keys (looks_intersection keys weights agg)).careful.map _
  | storeDifference dest keys => exact (careful_store dest keys (looks_difference keys)).map _
  | storeUnion dest keys weights agg =>
    exact (careful_store dest keys (looks_union keys weights agg)).map _
  | storeIntersection dest keys weights agg =>
    exact (careful_store dest keys (looks_intersection keys weights agg)).map _
  | _ => exact (sure_ofRequest rfl).careful

theorem sure_ofDeadlineCall (call : DeadlineCall) : Sure now (ofDeadlineCall now call) := by
  cases call with
  | setTtl key seconds => exact (sure_expireAt key _).map _
  | setTtlMillis key millis => exact (sure_expireAt key _).map _
  | expireAt key time => exact (sure_expireAt key time).map _
  | drop key => exact (sure_dropDeadline key).map _
  | checkLive key => exact ((reads_checkLive key).map _).sure
  | deadline key => exact ((reads_deadline? key).map _).sure
  | remaining key => exact ((reads_remaining key).map _).sure
  | isEmpty => exact (reads_get.bind fun _ => reads_pure _).sure
  | clear => exact sure_clearDeadlines.bind fun _ => sure_pure _

end Command

end KeyEngine
