import KeyEngine.Proofs.Keyspace.Filled
import Mathlib.Data.Finset.Card

/-!
# Effects of requests

A request looks at keys first, which takes away no more than due keys, and then it may write: a value or a
deadline, both of them, or neither any more. What it writes and what it answers go together.
-/

namespace KeyEngine

inductive SetUse where
  | add
  | take
  | store

namespace Request

/-- The keys that the request may write. A key that it only reads is not among them; a flush, which writes
every key, is left out. -/
def writes : Request → List Bytes
  | set key _ | setFor key _ _ | setNew key _ => [key]
  | delete named => named
  | expire key _ _ | expireMillis key _ _ | persist key => [key]
  | rename source target => [source, target]
  | addMembers key _ _ | increase key _ _ => [key]
  | removeMembers key _ | removeRange key _ _ | removeScoreRange key _ => [key]
  | popMin key _ | popMax key _ => [key]
  | storeDifference dest _ | storeUnion dest _ _ _ | storeIntersection dest _ _ _ => [dest]
  | _ => []

/-- What the request does to a set: it adds members, takes some, or stores a combination in its place. -/
def setUse? : Request → Option (SetUse × Bytes)
  | addMembers key _ _ | increase key _ _ => some (.add, key)
  | removeMembers key _ | removeRange key _ _ | removeScoreRange key _ => some (.take, key)
  | popMin key _ | popMax key _ => some (.take, key)
  | storeDifference dest _ | storeUnion dest _ _ _ | storeIntersection dest _ _ _ => some (.store, dest)
  | _ => none

def takes (request : Request) : Bool :=
  match request.setUse? with
  | some (.take, _) => true
  | _ => false

theorem takes_of_setUse {request : Request} {key : Bytes} (h : request.setUse? = some (.take, key)) :
    request.takes = true := by
  unfold takes
  rw [h]

theorem writes_of_setUse {request : Request} {use : SetUse} {key : Bytes}
    (h : request.setUse? = some (use, key)) : request.writes = [key] := by
  cases request <;> cases h <;> rfl

end Request

/-- How many members were taken, as the reply to a request that takes some tells. -/
def Reply.taken : Reply → Nat
  | number n => n
  | entries es => es.length
  | _ => 0

namespace Keyspace

variable {α β : Type} {now : Nat} {ks t : Keyspace} {key : Bytes} {request : Request}

/-- The request, with its reply, is meant to give the key the record, or none. -/
inductive Redates (now : Nat) (ks : Keyspace) (key : Bytes) : Request → Reply → Option Nat → Prop where
  | expire (seconds : Nat) (condition : ExpireCondition) :
    Redates now ks key (.expire key seconds condition) (.flag true)
      (some (min (now + min (seconds * 1000) wordMax) wordMax))
  | expireMillis (millis : Nat) (condition : ExpireCondition) :
    Redates now ks key (.expireMillis key millis condition) (.flag true) (some (min (now + millis) wordMax))
  | persist : Redates now ks key (.persist key) (.flag true) none
  | set (value : Bytes) : Redates now ks key (.set key value) .done none
  | setFor (value : Bytes) (seconds : Nat) :
    Redates now ks key (.setFor key value seconds) .done
      (some (min (now + min (seconds * 1000) wordMax) wordMax))
  | storeDifference (keys : List Bytes) (n : Nat) :
    Redates now ks key (.storeDifference key keys) (.number n) none
  | storeUnion (keys : List Bytes) (weights : Option (List Score)) (agg : Aggregate) (n : Nat) :
    Redates now ks key (.storeUnion key keys weights agg) (.number n) none
  | storeIntersection (keys : List Bytes) (weights : Option (List Score)) (agg : Aggregate) (n : Nat) :
    Redates now ks key (.storeIntersection key keys weights agg) (.number n) none
  /-- The record moves along with the value. -/
  | rename (source : Bytes) : Redates now ks key (.rename source key) .done (ks.deadline now source)

theorem Redates.mem_writes {reply : Reply} {record : Option Nat}
    (h : Redates now ks key request reply record) : key ∈ request.writes := by
  cases h <;> simp [Request.writes]

/-- Of the requests on sets only those that store one redate its key, and they leave no record. -/
theorem Redates.of_setUse {reply : Reply} {record : Option Nat} {use : SetUse} {other : Bytes}
    (h : Redates now ks key request reply record) (hk : request.setUse? = some (use, other)) :
    use = .store ∧ other = key ∧ record = none := by
  cases h <;> cases hk <;> exact ⟨rfl, rfl, rfl⟩

theorem redates_store (hk : request.setUse? = some (.store, key)) (n : Nat) :
    Redates now ks key request (.number n) none := by
  cases request <;> cases hk <;> constructor

/-! ## Writes -/

def remove (ks : Keyspace) (key : Bytes) : Keyspace :=
  ks.erase key (ks.deadlines.find? key).isSome

theorem Sane.remove (h : ks.Sane) (key : Bytes) : (ks.remove key).Sane :=
  h.erase_recorded key

theorem run_remove (h : ks.Sane) (key : Bytes) :
    ks.run (Command.removeKey key) = (.ok (ks.data.find? key).isSome, ks.remove key) :=
  run_removeKey h key

def removeAll (ks : Keyspace) (keys : List Bytes) : Keyspace :=
  keys.foldl remove ks

/-- Those of the keys that have a value, due or not. -/
def held (ks : Keyspace) (keys : List Bytes) : Finset Bytes :=
  keys.toFinset.filter fun key => (ks.data.find? key).isSome

theorem held_remove (h : ks.Sane) (key : Bytes) (keys : List Bytes) :
    (ks.remove key).held keys = (ks.held (key :: keys)).erase key := by
  ext other
  have hf : ((ks.remove key).data.find? other) = if key = other then none else ks.data.find? other :=
    Store.find?_drop h.data key other
  by_cases ho : other = key
  · subst ho
    simp [held, hf]
  · simp [held, hf, ho, Ne.symm ho]

theorem card_held_cons (h : ks.Sane) (key : Bytes) (keys : List Bytes) :
    (ks.held (key :: keys)).card =
      if (ks.data.find? key).isSome then ((ks.remove key).held keys).card + 1
      else ((ks.remove key).held keys).card := by
  rw [held_remove h]
  split
  · rename_i hv
    exact (Finset.card_erase_add_one (by simpa [held] using hv)).symm
  · rename_i hv
    rw [Finset.erase_eq_of_notMem (by simpa [held] using hv)]

def move (now : Nat) (ks : Keyspace) (source target : Bytes) (value : Value) : Keyspace :=
  let moved := ((ks.remove source).remove target).place target value
  match ks.deadlines.find? source with
  | some time => moved.date now target time
  | none => moved

/-- What a request may do to a keyspace in which it has looked at its keys, and what it answers then. -/
inductive Effect (now : Nat) : Request → Keyspace → Except Error Reply → Keyspace → Prop where
  /-- The request reads, fails, or finds nothing to do. -/
  | idle {request : Request} {t : Keyspace} {result : Except Error Reply}
      (hr : ∀ key reply record, result = .ok reply → Redates now t key request reply record →
        t.deadlines.find? key = record)
      (hs : ∀ key s, request.setUse? = some (.take, key) → t.data.find? key ≠ some (.sortedSet s)) :
    Effect now request t result t
  | set (t : Keyspace) (key value : Bytes) :
    Effect now (.set key value) t (.ok .done) ((t.place key (.text value)).undate key)
  | setFor (t : Keyspace) (key value : Bytes) (seconds : Nat) :
    Effect now (.setFor key value seconds) t (.ok .done)
      (((t.place key (.text value)).undate key).date now key (laterBy now (millisOfSeconds seconds)))
  | setNew {t : Keyspace} {key : Bytes} (value : Bytes) (hn : t.data.find? key = none) :
    Effect now (.setNew key value) t (.ok (.flag true)) (t.place key (.text value))
  | delete (t : Keyspace) (keys : List Bytes) (n : Nat) :
    Effect now (.delete keys) t (.ok (.number n)) (t.removeAll keys)
  | expire (t : Keyspace) (key : Bytes) (seconds : Nat) (condition : ExpireCondition) :
    Effect now (.expire key seconds condition) t (.ok (.flag true))
      (t.date now key (laterBy now (millisOfSeconds seconds)))
  | expireMillis (t : Keyspace) (key : Bytes) (millis : Nat) (condition : ExpireCondition) :
    Effect now (.expireMillis key millis condition) t (.ok (.flag true))
      (t.date now key (laterBy now millis))
  | persist (t : Keyspace) (key : Bytes) :
    Effect now (.persist key) t (.ok (.flag (t.deadlines.find? key).isSome)) (t.undate key)
  | rename {t : Keyspace} {source target : Bytes} {value : Value} (hne : source ≠ target)
      (hd : t.due now source = false) (hv : t.data.find? source = some value) :
    Effect now (.rename source target) t (.ok .done) (t.move now source target value)
  | add {request : Request} {key : Bytes} (t : Keyspace) (reply : Reply) (s : SortedSet)
      (hk : request.setUse? = some (.add, key)) :
    Effect now request t (.ok reply) (t.place key (.sortedSet s))
  | shrink {request : Request} {t : Keyspace} {key : Bytes} {reply : Reply} {s s' : SortedSet}
      (hk : request.setUse? = some (.take, key)) (hs : t.data.find? key = some (.sortedSet s))
      (hc : reply.taken + s'.count = s.count) (hpos : 0 < s'.count) :
    Effect now request t (.ok reply) (t.place key (.sortedSet s'))
  | drain {request : Request} {t : Keyspace} {key : Bytes} {reply : Reply} {s : SortedSet}
      (hk : request.setUse? = some (.take, key)) (hs : t.data.find? key = some (.sortedSet s))
      (hc : reply.taken = s.count) :
    Effect now request t (.ok reply) (t.remove key)
  | storeNone {request : Request} {key : Bytes} (t : Keyspace) (n : Nat) (hk : request.setUse? = some (.store, key)) :
    Effect now request t (.ok (.number n)) (t.remove key)
  | store {request : Request} {key : Bytes} (t : Keyspace) (n : Nat) (s : SortedSet)
      (hk : request.setUse? = some (.store, key)) :
    Effect now request t (.ok (.number n)) ((t.remove key).place key (.sortedSet s))

theorem Effect.read (hw : request.writes = []) (t : Keyspace) (result : Except Error Reply) :
    Effect now request t result t := by
  apply Effect.idle
  · intro key reply record _ hr
    have hmem := hr.mem_writes
    rw [hw] at hmem
    cases hmem
  · intro key s hk
    have hmem := Request.writes_of_setUse hk
    rw [hw] at hmem
    cases hmem

theorem Effect.failed (hk : request.takes = false) (t : Keyspace) (e : Error) :
    Effect now request t (.error e) t := by
  refine .idle nofun ?_
  intro key s hs
  rw [Request.takes_of_setUse hs] at hk
  cases hk

end Keyspace

/-! ## Commands that serve a request -/

namespace Command

open Keyspace

variable {α β : Type} {now : Nat} {key : Bytes} {request : Request}

/-- The command looks at keys, and what it does after that is an effect of the request. -/
def Serves (now : Nat) (request : Request) (answer : α → Reply) (c : Command α) : Prop :=
  ∀ ks : Keyspace, ks.Sane →
    ∃ t, Changed Change.IsLook now ks t ∧ Effect now request t ((ks.run c).1.map answer) (ks.run c).2

theorem serves_of_run {answer : α → Reply} {c : Command α}
    (hc : ∀ t : Keyspace, t.Sane → Effect now request t ((t.run c).1.map answer) (t.run c).2) :
    Serves now request answer c :=
  fun ks h => ⟨ks, .refl, hc ks h⟩

theorem Looks.bind_serves {answer : β → Reply} {c : Command α} {f : α → Command β} (hc : Looks now c)
    (hk : request.takes = false) (hf : ∀ a, Serves now request answer (f a)) :
    Serves now request answer (c >>= f) := by
  intro ks h
  have hs := hc ks h
  rw [run_bind]
  rcases hr : ks.run c with ⟨result, t⟩
  rw [hr] at hs
  cases result with
  | error e => exact ⟨t, hs, .failed hk t e⟩
  | ok a =>
    obtain ⟨t', ht, he⟩ := hf a t (hs.sane h)
    exact ⟨t', hs.trans ht, he⟩

theorem Serves.reply {c : Command α} {answer : α → Reply} (hc : Serves now request answer c) :
    Serves now request id (answer <$> c) := by
  intro ks h
  obtain ⟨t, ht, he⟩ := hc ks h
  refine ⟨t, ht, ?_⟩
  rw [run_map]
  cases hr : (ks.run c).1 <;> rw [hr] at he <;> exact he

theorem Serves.done {c : Command Unit} (hc : Serves now request (fun _ => .done) c) :
    Serves now request id (c >>= fun _ => pure .done) := by
  rw [bind_pure_comp]
  exact hc.reply

theorem serves_guard {p : Prop} [Decidable p] {answer : α → Reply} {e : Error} {f : β → Command α}
    {c : Command α} (hk : request.takes = false) (hc : Serves now request answer c) :
    Serves now request answer (if p then do let b ← throw e; f b else c) := by
  split
  · exact serves_of_run fun t _ => .failed hk t e
  · exact hc

/-! ### Strings -/

theorem serves_set (key value : Bytes) :
    Serves now (.set key value) (fun _ => .done) (set now key value) := by
  unfold set
  apply (looks_checkLive key).discard.bind_serves rfl
  intro _
  apply serves_of_run
  intro t h
  rw [run_storeText h]
  split
  · exact .failed rfl t _
  · exact .set t key value

theorem serves_setFor (key value : Bytes) (seconds : Nat) :
    Serves now (.setFor key value seconds) (fun _ => .done) (setFor now key value seconds) := by
  unfold setFor
  apply (looks_checkLive key).discard.bind_serves rfl
  intro _
  apply serves_of_run
  intro t h
  rw [run_bind, run_storeText h]
  rcases t.data.find? key with _ | _ | _
  · dsimp only
    rw [run_setTtl_text h]
    exact .setFor t key value seconds
  · dsimp only
    rw [run_setTtl_text h]
    exact .setFor t key value seconds
  · exact .failed rfl t _

theorem serves_setNew (key value : Bytes) :
    Serves now (.setNew key value) .flag (setNew now key value) := by
  unfold setNew
  apply (looks_checkLive key).discard.bind_serves rfl
  intro _
  apply serves_of_run
  intro t h
  rw [run_insertNew h]
  split
  · exact .idle nofun nofun
  · rename_i hn
    exact .setNew value (Option.not_isSome_iff_eq_none.mp hn)

/-! ### Keys -/

/-- A key that is repeated has its value only the first time. -/
theorem run_delete {t : Keyspace} (h : t.Sane) (keys : List Bytes) :
    t.run (delete keys) = (.ok (t.held keys).card, t.removeAll keys) := by
  induction keys generalizing t with
  | nil => rfl
  | cons key keys ih =>
    unfold delete
    rw [run_bind_ok (run_remove h key), run_bind_ok (ih (h.remove key)), card_held_cons h]
    rfl

theorem serves_delete (keys : List Bytes) : Serves now (.delete keys) .number (delete keys) := by
  apply serves_of_run
  intro t h
  rw [run_delete h]
  exact .delete t keys _

theorem run_move {t : Keyspace} (h : t.Sane) (source target : Bytes) (value : Value) :
    t.run (do
      let deadline ← deadline? source
      discard <| removeKey source
      discard <| removeKey target
      put target value
      match deadline with
      | some time => discard <| expireAt now target time
      | none => return) = (.ok (), t.move now source target value) := by
  have hsource := h.remove source
  have htarget := hsource.remove target
  have hstored : ((((t.remove source).remove target).place target value).data.find? target).isSome :=
    Option.isSome_of_eq_some (find?_place htarget target value)
  unfold Keyspace.move
  rw [run_bind_ok (run_deadline? h source), run_bind_ok (run_discard_ok (run_remove h source)),
    run_bind_ok (run_discard_ok (run_remove hsource target)), run_bind_ok (run_put htarget target value)]
  cases t.deadlines.find? source with
  | none => rfl
  | some time =>
    dsimp only
    rw [run_discard, run_expireAt (htarget.place target value), if_pos hstored]
    rfl

theorem effect_move {t : Keyspace} (h : t.Sane) {source target : Bytes} {value : Value} (hne : source ≠ target)
    (hd : t.due now source = false) (hv : t.data.find? source = some value) :
    let move : Command Unit := do
      let deadline ← deadline? source
      discard <| removeKey source
      discard <| removeKey target
      put target value
      match deadline with
      | some time => discard <| expireAt now target time
      | none => return
    Effect now (.rename source target) t ((t.run move).1.map fun _ => .done) (t.run move).2 := by
  intro move
  have hrun : t.run move = (.ok (), t.move now source target value) := run_move h source target value
  rw [hrun]
  exact .rename hne hd hv

theorem due_purge_of_live {ks : Keyspace} (h : ks.Sane) (hd : ks.due now key = false) (other : Bytes) :
    (ks.purge now other).due now key = false := by
  by_cases ho : key = other
  · rw [ho]
    exact Close.due_purge_self h now other
  · rwa [due_purge_other h ho]

theorem serves_rename (source target : Bytes) :
    Serves now (.rename source target) (fun _ => .done) (rename now source target) := by
  intro ks h
  unfold rename
  rw [run_bind_ok (run_checkLive h now source)]
  have hsource : Changed Change.IsLook now ks (ks.purge now source) :=
    changed_apply (c := .look source) trivial ks
  have hs := h.purge now source
  cases hd : ks.due now source with
  | true => exact ⟨_, hsource, .failed rfl _ _⟩
  | false =>
    let t := (ks.purge now source).purge now target
    have ht : t.Sane := hs.purge now target
    have hlive : t.due now source = false := due_purge_of_live hs (Close.due_purge_self h now source) target
    refine ⟨t, hsource.tail ⟨.look target, trivial, rfl⟩, ?_⟩
    show Effect now _ t (((ks.purge now source).run (_ >>= _)).1.map _) ((ks.purge now source).run (_ >>= _)).2
    rw [run_bind_ok (run_discard_ok (run_checkLive hs now target)), run_bind_ok (run_lookup ht source)]
    cases hv : t.data.find? source with
    | none => exact .failed rfl _ _
    | some value =>
      dsimp only
      split
      · rename_i he
        refine .idle ?_ nofun
        intro key reply record _ hr
        cases hr
        unfold deadline
        rw [hlive, he]
        rfl
      · rename_i hne
        exact effect_move ht hne hlive hv

/-! ### Lifetimes -/

theorem serves_expireAt (key : Bytes) (time : Nat)
    (hd : ∀ t : Keyspace, Effect now request t (.ok (.flag true)) (t.date now key time))
    (hi : ∀ t : Keyspace, Effect now request t (.ok (.flag false)) t) :
    Serves now request .flag (expireAt now key time) := by
  apply serves_of_run
  intro t h
  rw [run_expireAt h]
  split
  · exact hd t
  · exact hi t

theorem serves_expireMillis (key : Bytes) (millis : Nat) (condition : ExpireCondition)
    (hk : request.takes = false)
    (hd : ∀ t : Keyspace, Effect now request t (.ok (.flag true)) (t.date now key (laterBy now millis)))
    (hi : ∀ t : Keyspace, Effect now request t (.ok (.flag false)) t) :
    Serves now request .flag (expireMillis now key millis condition) := by
  have hno : Serves now request .flag (pure false) := serves_of_run fun t _ => hi t
  unfold expireMillis
  apply (looks_checkLive key).bind_serves hk
  intro live
  split
  · apply (reads_contains key).looks.bind_serves hk
    intro present
    split
    · apply (reads_deadline? key).looks.bind_serves hk
      intro current
      split
      · exact serves_expireAt key _ hd hi
      · exact hno
    · exact hno
  · exact hno

theorem serves_persist (key : Bytes) : Serves now (.persist key) .flag (persist now key) := by
  unfold persist
  apply (looks_checkLive key).bind_serves rfl
  intro live
  apply serves_of_run
  intro t h
  split
  · rw [run_dropDeadline h]
    exact .persist t key
  · exact .idle nofun nofun

/-! ### Sorted sets -/

theorem serves_addMembers (key : Bytes) (items : List Entry) (flags : AddFlags) :
    Serves now (.addMembers key items flags) .number (addMembers now key items flags) := by
  unfold addMembers
  dsimp only
  apply serves_guard rfl
  apply serves_guard rfl
  apply (looks_checkLive key).discard.bind_serves rfl
  intro _
  apply (looks_lookupOrFresh key).bind_serves rfl
  intro s
  apply (looks_ofFault _).bind_serves rfl
  rintro ⟨s, tally⟩
  apply serves_of_run
  intro t h
  dsimp only
  split
  · rw [run_bind_ok (run_put h key _)]
    exact .add t _ s rfl
  · exact .idle nofun nofun

theorem serves_increase (key : Bytes) (delta : Score) (member : Bytes) :
    Serves now (.increase key delta member) .score (increase now key delta member) := by
  unfold increase
  dsimp only
  apply serves_guard rfl
  apply (looks_checkLive key).discard.bind_serves rfl
  intro _
  apply (looks_lookupOrFresh key).bind_serves rfl
  intro s
  apply serves_guard rfl
  apply (looks_ofFault _).bind_serves rfl
  rintro ⟨s, -⟩
  apply serves_of_run
  intro t h
  rw [run_bind_ok (run_put h key _)]
  exact .add t _ s rfl

/-- The set of a key is changed by a removal, which cannot fail on a set that is stored. -/
theorem effect_editSet {ks : Keyspace} (h : Parallel ks ks) {f : SortedSet → Except Fault (SortedSet × α)}
    {answer : α → Reply} (hf : SortedSet.Takes f (Reply.taken ∘ answer))
    (hk : request.setUse? = some (.take, key)) (empty : α) :
    ∃ t, Changed Change.IsLook now ks t ∧
      Effect now request t ((ks.run (answer <$> editSet now key empty f)).1)
        (ks.run (answer <$> editSet now key empty f)).2 := by
  have ht := (h.purge key : Parallel (ks.purge now key) (ks.purge now key))
  refine ⟨ks.purge now key, changed_apply (c := .look key) trivial ks, ?_⟩
  have hidle : ∀ result, (∀ s, (ks.purge now key).data.find? key ≠ some (.sortedSet s)) →
      Effect now request (ks.purge now key) result (ks.purge now key) := by
    intro result hs
    apply Effect.idle
    · intro k reply record _ hr
      cases (hr.of_setUse hk).1
    · intro k s hk'
      rw [hk] at hk'
      cases hk'
      exact hs s
  unfold editSet
  rw [run_map, run_bind_ok (run_discard_ok (run_checkLive h.left now key)), run_bind, run_lookupSet ht.left]
  cases hfind : (ks.purge now key).data.find? key with
  | none => exact hidle _ (by simp [hfind])
  | some v =>
    cases v with
    | text bytes => exact hidle _ (by simp [hfind])
    | sortedSet s =>
      obtain ⟨b, hb, -⟩ := ht.tracked hfind
      obtain ⟨s', a, b', hs', hb', hcount⟩ := hf s b hb
      rw [← hb.count_eq, ← hb'.count_eq] at hcount
      have hok : (ks.purge now key).run (ofFault (f s)) = (.ok (s', a), ks.purge now key) := by
        rw [hs']
        rfl
      dsimp only [setIn]
      rw [run_bind_ok hok]
      dsimp only
      split
      · rename_i hempty
        rw [hb'.isEmpty_eq, List.isEmpty_iff_length_eq_zero, ← hb'.count_eq] at hempty
        rw [run_bind_ok (run_discard_ok (run_remove ht.left key))]
        exact .drain hk hfind (by simpa [hempty] using hcount)
      · rename_i hempty
        rw [hb'.isEmpty_eq, List.isEmpty_iff_length_eq_zero, ← hb'.count_eq] at hempty
        rw [run_bind_ok (run_put ht.left key _)]
        exact .shrink hk hfind hcount (Nat.pos_of_ne_zero hempty)

theorem serves_storeSet (hk : request.setUse? = some (.store, key)) (s : SortedSet) :
    Serves now request .number (storeSet key s) := by
  apply serves_of_run
  intro t h
  unfold storeSet
  rw [run_bind_ok (run_discard_ok (run_remove h key))]
  dsimp only
  split
  · rw [run_bind_ok (run_put (h.remove key) key _)]
    exact .store t _ s hk
  · exact .storeNone t _ hk

theorem serves_store (dest : Bytes) (keys : List Bytes) {result : Command SortedSet} (hl : Looks now result)
    (hk : request.setUse? = some (.store, dest)) (hn : request.takes = false) :
    Serves now request .number (store now dest keys result) := by
  unfold store
  apply (looks_checkOperands keys [dest]).bind_serves hn
  intro _
  apply hl.bind_serves hn
  intro s
  exact serves_storeSet hk s

end Command

/-! ## Every request -/

namespace Keyspace

open Command

variable {now : Nat} {ks : Keyspace}

/-- The request looks at keys, and has its effect on what the looks leave. -/
def Acts (now : Nat) (request : Request) (ks : Keyspace) : Prop :=
  ∃ t, Changed Change.IsLook now ks t ∧
    Effect now request t (ks.handle now request).1 (ks.handle now request).2

theorem acts_of_looks {request : Request} (h : ks.Sane) (hl : Looks now (ofRequest now request))
    (hw : request.writes = []) : Acts now request ks :=
  ⟨_, hl ks h, .read hw _ _⟩

theorem acts_of_serves {request : Request} (h : ks.Sane) (hs : Serves now request id (ofRequest now request)) :
    Acts now request ks := by
  obtain ⟨t, ht, he⟩ := hs ks h
  refine ⟨t, ht, ?_⟩
  unfold handle
  cases hr : (ks.run (ofRequest now request)).1 <;> rw [hr] at he <;> exact he

theorem handle_acts (h : Parallel ks ks) {request : Request} (hr : request ≠ .flush) :
    Acts now request ks := by
  have looked {request : Request} (hl : Looks now (ofRequest now request)) (hw : request.writes = []) :
      Acts now request ks := acts_of_looks h.left hl hw
  have served {request : Request} (hs : Serves now request id (ofRequest now request)) :
      Acts now request ks := acts_of_serves h.left hs
  cases request with
  | set key value => exact served (serves_set key value).done
  | setFor key value seconds => exact served (serves_setFor key value seconds).done
  | setNew key value => exact served (serves_setNew key value).reply
  | get key => exact looked ((looks_get key).map _) rfl
  | delete keys => exact served (serves_delete keys).reply
  | countPresent keys => exact looked ((reads_countPresent keys).map _).looks rfl
  | keys pattern => exact looked ((reads_keys pattern).map _).looks rfl
  | expire key seconds condition =>
    exact served (serves_expireMillis key _ condition rfl (fun t => .expire t key seconds condition)
      fun _ => .idle nofun nofun).reply
  | expireMillis key millis condition =>
    exact served (serves_expireMillis key millis condition rfl (fun t => .expireMillis t key millis condition)
      fun _ => .idle nofun nofun).reply
  | persist key => exact served (serves_persist key).reply
  | lifetime key => exact looked ((reads_lifetime key).map _).looks rfl
  | kind key => exact looked ((reads_kind? key).map _).looks rfl
  | rename source target => exact served (serves_rename source target).done
  | size => exact looked (reads_get.bind fun _ => reads_pure _).looks rfl
  | flush => exact absurd rfl hr
  | addMembers key items flags => exact served (serves_addMembers key items flags).reply
  | increase key delta member => exact served (serves_increase key delta member).reply
  | count key => exact looked ((looks_readSet key _ _).map _) rfl
  | score key member => exact looked ((looks_readSet key _ _).map _) rfl
  | rank key member => exact looked ((looks_readSet key _ _).map _) rfl
  | revRank key member => exact looked ((looks_readSet key _ _).map _) rfl
  | range key start stop => exact looked ((looks_readSet key _ _).map _) rfl
  | revRange key start stop => exact looked ((looks_readSet key _ _).map _) rfl
  | scoreRange key range page => exact looked ((looks_readSet key _ _).map _) rfl
  | revScoreRange key range page => exact looked ((looks_readSet key _ _).map _) rfl
  | countInRange key range => exact looked ((looks_readSet key _ _).map _) rfl
  | removeMembers key members =>
    exact effect_editSet h (SortedSet.takes_remove members) rfl _
  | removeRange key start stop =>
    exact effect_editSet h (SortedSet.takes_removeRange start stop) rfl _
  | removeScoreRange key range =>
    exact effect_editSet h (SortedSet.takes_removeScoreRange range) rfl _
  | popMin key n => exact effect_editSet h (SortedSet.takes_popMin n) rfl _
  | popMax key n => exact effect_editSet h (SortedSet.takes_popMax n) rfl _
  | difference keys =>
    exact looked ((looks_answer keys (looks_difference keys)).map _) rfl
  | union keys weights agg =>
    exact looked ((looks_answer keys (looks_union keys weights agg)).map _) rfl
  | intersection keys weights agg =>
    exact looked ((looks_answer keys (looks_intersection keys weights agg)).map _) rfl
  | storeDifference dest keys => exact served (serves_store dest keys (looks_difference keys) rfl rfl).reply
  | storeUnion dest keys weights agg =>
    exact served (serves_store dest keys (looks_union keys weights agg) rfl rfl).reply
  | storeIntersection dest keys weights agg =>
    exact served (serves_store dest keys (looks_intersection keys weights agg) rfl rfl).reply

end Keyspace

end KeyEngine
