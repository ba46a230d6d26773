import KeyEngine.Keyspace.Request
import KeyEngine.Proofs.Store
import KeyEngine.Proofs.Timer

/-!
# Sane keyspaces

In a sane keyspace both stores and the wheel are sound, a key with a task has a deadline, and a key with a
deadline has a value. Each step that a command is made of is an explicit change of the keyspace, and
keeps it sane.
-/

namespace KeyEngine.Keyspace

structure Sane (ks : Keyspace) : Prop where
  data : ks.data.Sound
  deadlines : ks.deadlines.Sound
  timer : ks.timer.Sound
  recorded : ∀ key, ks.timer.books key → (ks.deadlines.find? key).isSome
  stored : ∀ key, (ks.deadlines.find? key).isSome → (ks.data.find? key).isSome

def due (now : Nat) (ks : Keyspace) (key : Bytes) : Bool :=
  (ks.deadlines.find? key).any (· ≤ now)

variable {ks : Keyspace}

theorem sane_new (config : Config) (supply : Nat → Towers) : (new config supply).Sane where
  data := Store.sound_empty _
  deadlines := Store.sound_empty _
  timer := Timer.sound_new _ _
  recorded := by
    intro key hb
    unfold new at hb
    simp only [Timer.books_new] at hb
    cases hb
  stored := by
    intro key hf
    unfold new at hf
    simp only [Store.find?_empty] at hf
    cases hf

/-! ## Changes -/

/-- Without the key, value and record; its task is taken off where so told. -/
def erase (ks : Keyspace) (key : Bytes) (cancel : Bool) : Keyspace :=
  { ks with
    data := ks.data.drop key
    deadlines := ks.deadlines.drop key
    timer := if cancel then ks.timer.cancel key else ks.timer }

def undate (ks : Keyspace) (key : Bytes) : Keyspace :=
  { ks with
    deadlines := ks.deadlines.drop key
    timer := if (ks.deadlines.find? key).isSome then ks.timer.cancel key else ks.timer }

def date (now : Nat) (ks : Keyspace) (key : Bytes) (time : Nat) : Keyspace :=
  { ks with
    deadlines := ks.deadlines.put key time
    timer := ks.timer.add (.ofMillis (time - now)) (some key) key }

def place (ks : Keyspace) (key : Bytes) (value : Value) : Keyspace :=
  { ks with data := ks.data.put key value }

def cancelAll (t : Timer Bytes) (keys : List Bytes) : Timer Bytes :=
  keys.foldl Timer.cancel t

def undateAll (ks : Keyspace) (data : Store Value) : Keyspace :=
  { ks with
    data := data
    deadlines := ks.deadlines.clear
    timer := cancelAll ks.timer ks.deadlines.sortedKeys }

/-! ### What they keep -/

theorem Sane.not_books (h : ks.Sane) {key : Bytes} (hn : ks.deadlines.find? key = none) :
    ks.timer.books key = false := by
  cases hb : ks.timer.books key with
  | false => rfl
  | true =>
    have := h.recorded key hb
    rw [hn] at this
    cases this

theorem sound_cancel_if {t : Timer Bytes} (h : t.Sound) (key : Bytes) (cancel : Bool) :
    (if cancel then t.cancel key else t).Sound := by
  cases cancel with
  | false => exact h
  | true => exact h.cancel key

theorem books_cancel_if {t : Timer Bytes} {key other : Bytes} {cancel : Bool}
    (hc : cancel = false → t.books key = false)
    (hb : (if cancel then t.cancel key else t).books other) : other ≠ key ∧ t.books other := by
  cases cancel with
  | false =>
    refine ⟨?_, hb⟩
    rintro rfl
    exact absurd hb (by simp [hc rfl])
  | true => exact Timer.books_of_cancel hb

theorem Sane.erase (h : ks.Sane) {key : Bytes} {cancel : Bool}
    (hc : cancel = false → ks.timer.books key = false) : (ks.erase key cancel).Sane where
  data := h.data.drop key
  deadlines := h.deadlines.drop key
  timer := sound_cancel_if h.timer key cancel
  recorded := by
    intro other hb
    obtain ⟨hne, hb⟩ := books_cancel_if hc hb
    show ((ks.deadlines.drop key).find? other).isSome
    rw [Store.find?_drop h.deadlines, if_neg (Ne.symm hne)]
    exact h.recorded other hb
  stored := by
    intro other hd
    show ((ks.data.drop key).find? other).isSome
    change ((ks.deadlines.drop key).find? other).isSome at hd
    rw [Store.find?_drop h.deadlines] at hd
    rw [Store.find?_drop h.data]
    split at hd
    · cases hd
    · rename_i hne
      rw [if_neg hne]
      exact h.stored other hd

theorem Sane.undate (h : ks.Sane) (key : Bytes) : (ks.undate key).Sane where
  data := h.data
  deadlines := h.deadlines.drop key
  timer := sound_cancel_if h.timer key _
  recorded := by
    intro other hb
    have hc : (ks.deadlines.find? key).isSome = false → ks.timer.books key = false := by
      intro hn
      exact h.not_books (Option.not_isSome_iff_eq_none.mp (by simp [hn]))
    obtain ⟨hne, hb⟩ := books_cancel_if hc hb
    show ((ks.deadlines.drop key).find? other).isSome
    rw [Store.find?_drop h.deadlines, if_neg (Ne.symm hne)]
    exact h.recorded other hb
  stored := by
    intro other hd
    change ((ks.deadlines.drop key).find? other).isSome at hd
    rw [Store.find?_drop h.deadlines] at hd
    split at hd
    · cases hd
    · exact h.stored other hd

theorem Sane.date (h : ks.Sane) {key : Bytes} (hv : (ks.data.find? key).isSome) (now time : Nat) :
    (ks.date now key time).Sane where
  data := h.data
  deadlines := h.deadlines.put key time
  timer := h.timer.add _ key
  recorded := by
    intro other hb
    show ((ks.deadlines.put key time).find? other).isSome
    rw [Store.find?_put h.deadlines]
    rcases Timer.books_of_add hb with rfl | hb
    · rw [if_pos rfl]
      rfl
    · split
      · rfl
      · exact h.recorded other hb
  stored := by
    intro other hd
    change ((ks.deadlines.put key time).find? other).isSome at hd
    rw [Store.find?_put h.deadlines] at hd
    split at hd
    · rename_i he
      exact he ▸ hv
    · exact h.stored other hd

theorem Sane.place (h : ks.Sane) (key : Bytes) (value : Value) : (ks.place key value).Sane where
  data := h.data.put key value
  deadlines := h.deadlines
  timer := h.timer
  recorded := h.recorded
  stored := by
    intro other hd
    show ((ks.data.put key value).find? other).isSome
    rw [Store.find?_put h.data]
    split
    · rfl
    · exact h.stored other hd

theorem Sane.make (h : ks.Sane) : Sane { ks with made := ks.made + 1 } :=
  ⟨h.data, h.deadlines, h.timer, h.recorded, h.stored⟩

theorem find?_place (h : ks.Sane) (key : Bytes) (value : Value) :
    (ks.place key value).data.find? key = some value :=
  (Store.find?_put h.data key value key).trans (if_pos rfl)

theorem sound_cancelAll {t : Timer Bytes} (h : t.Sound) (keys : List Bytes) :
    (cancelAll t keys).Sound := by
  induction keys generalizing t with
  | nil => exact h
  | cons key keys ih => exact ih (h.cancel key)

theorem books_cancelAll {t : Timer Bytes} {keys : List Bytes} {key : Bytes}
    (hb : (cancelAll t keys).books key) : key ∉ keys ∧ t.books key := by
  induction keys generalizing t with
  | nil => exact ⟨List.not_mem_nil, hb⟩
  | cons k keys ih =>
    obtain ⟨hnot, hb⟩ := ih hb
    obtain ⟨hne, hb⟩ := Timer.books_of_cancel hb
    exact ⟨by simp [hne, hnot], hb⟩

theorem Sane.undateAll (h : ks.Sane) {data : Store Value} (hd : data.Sound) :
    (ks.undateAll data).Sane where
  data := hd
  deadlines := h.deadlines.clear
  timer := sound_cancelAll h.timer _
  recorded := by
    intro key hb
    obtain ⟨hnot, hb⟩ := books_cancelAll hb
    exact absurd (h.deadlines.mem_sortedKeys.mpr (h.recorded key hb)) hnot
  stored := by
    intro key hf
    change (ks.deadlines.clear.find? key).isSome at hf
    rw [Store.find?_clear] at hf
    cases hf

end Keyspace

/-! ## Steps of commands -/

namespace Keyspace

open Command

variable {α β : Type} {ks : Keyspace}

@[simp] theorem run_get (ks : Keyspace) : ks.run get = (.ok ks, ks) := rfl

@[simp] theorem run_modify (ks : Keyspace) (f : Keyspace → Keyspace) :
    ks.run (modify f) = (.ok (), f ks) := rfl

@[simp] theorem run_lift (ks : Keyspace) (result : Except Error α) :
    ks.run (liftM result) = (result, ks) := rfl

theorem run_map (ks : Keyspace) (f : α → β) (c : Command α) :
    ks.run (f <$> c) = ((ks.run c).1.map f, (ks.run c).2) := by
  rw [map_eq_pure_bind, run_bind]
  cases ks.run c with
  | mk result ks' => cases result <;> rfl

theorem run_discard (ks : Keyspace) (c : Command α) :
    ks.run (discard c) = ((ks.run c).1.map fun _ => (), (ks.run c).2) :=
  run_map ks _ c

theorem run_discard_ok {ks ks' : Keyspace} {c : Command α} {a : α} (h : ks.run c = (.ok a, ks')) :
    ks.run (discard c) = (.ok (), ks') := by
  rw [run_discard, h]
  rfl

theorem run_bind_ok {ks ks' : Keyspace} {c : Command α} {a : α} (h : ks.run c = (.ok a, ks'))
    (f : α → Command β) : ks.run (c >>= f) = ks'.run (f a) := by
  rw [run_bind, h]

theorem run_readData (ks : Keyspace) (f : Store Value → Except Error α) :
    ks.run (readData f) = (f ks.data, ks) := by
  unfold readData
  rw [run_bind_ok (run_get ks)]
  rfl

theorem run_editData {f : Store Value → Except Error (Store Value × α)} {data : Store Value} {a : α}
    (h : f ks.data = .ok (data, a)) : ks.run (editData f) = (.ok a, { ks with data := data }) := by
  unfold editData
  rw [run_bind_ok (run_get ks), h]
  rfl

theorem run_readDeadlines (ks : Keyspace) (f : Store Nat → Except Error α) :
    ks.run (readDeadlines f) = (f ks.deadlines, ks) := by
  unfold readDeadlines
  rw [run_bind_ok (run_get ks)]
  rfl

theorem run_editDeadlines {f : Store Nat → Except Error (Store Nat × α)} {deadlines : Store Nat}
    {a : α} (h : f ks.deadlines = .ok (deadlines, a)) :
    ks.run (editDeadlines f) = (.ok a, { ks with deadlines := deadlines }) := by
  unfold editDeadlines
  rw [run_bind_ok (run_get ks), h]
  rfl

theorem run_editTimer (ks : Keyspace) (f : Timer Bytes → Timer Bytes) :
    ks.run (editTimer f) = (.ok (), { ks with timer := f ks.timer }) :=
  rfl

/-! ### Reading -/

theorem run_lookup (h : ks.Sane) (key : Bytes) :
    ks.run (lookup key) = (.ok (ks.data.find? key), ks) := by
  unfold lookup
  rw [run_readData, Store.get?_eq h.data.size_pos]

theorem run_contains (h : ks.Sane) (key : Bytes) :
    ks.run (readData (·.contains key)) = (.ok (ks.data.find? key).isSome, ks) := by
  rw [run_readData, Store.contains_eq h.data.size_pos]

theorem run_deadline? (h : ks.Sane) (key : Bytes) :
    ks.run (deadline? key) = (.ok (ks.deadlines.find? key), ks) := by
  unfold deadline?
  rw [run_readDeadlines, Store.get?_eq h.deadlines.size_pos]

theorem run_isDue (h : ks.Sane) (now : Nat) (key : Bytes) :
    ks.run (isDue now key) = (.ok (ks.due now key), ks) := by
  unfold isDue
  rw [run_bind_ok (run_deadline? h key)]
  rfl

/-! ### Writing -/

theorem run_put (h : ks.Sane) (key : Bytes) (value : Value) :
    ks.run (put key value) = (.ok (), ks.place key value) := by
  unfold put
  apply run_discard_ok
  apply run_editData
  exact Store.insert_eq_put h.data key value

theorem run_insertNew (h : ks.Sane) (key : Bytes) (value : Value) :
    ks.run (editData (·.insertNew key value)) =
      if (ks.data.find? key).isSome then (.ok false, ks) else (.ok true, ks.place key value) := by
  have hi := Store.insertNew_eq_put h.data key value
  split
  · rename_i hv
    rw [if_pos hv] at hi
    exact run_editData hi
  · rename_i hv
    rw [if_neg hv] at hi
    exact run_editData hi

theorem run_purgeIfDue (h : ks.Sane) (now : Nat) (key : Bytes) :
    ks.run (purgeIfDue now key) =
      if ks.due now key then (.ok true, ks.erase key false) else (.ok false, ks) := by
  unfold purgeIfDue
  rw [run_bind_ok (run_isDue h now key)]
  split
  · rw [run_bind_ok (run_discard_ok (run_editData (Store.erase_eq_drop h.data key))),
      run_bind_ok (run_discard_ok (run_editDeadlines (Store.erase_eq_drop h.deadlines key)))]
    rfl
  · rfl

/-- The keyspace after a command has looked at the key. -/
def purge (now : Nat) (ks : Keyspace) (key : Bytes) : Keyspace :=
  if ks.due now key then ks.erase key true else ks

theorem run_checkLive (h : ks.Sane) (now : Nat) (key : Bytes) :
    ks.run (checkLive now key) = (.ok (!ks.due now key), ks.purge now key) := by
  unfold checkLive purge
  rw [run_bind, run_purgeIfDue h]
  cases ks.due now key with
  | true => rfl
  | false => rfl

theorem run_checkLive_live (h : ks.Sane) {now : Nat} {key : Bytes} (hd : ks.due now key = false) :
    ks.run (checkLive now key) = (.ok true, ks) := by
  rw [run_checkLive h]
  unfold purge
  rw [hd]
  rfl

theorem Sane.purge (h : ks.Sane) (now : Nat) (key : Bytes) : (ks.purge now key).Sane := by
  unfold Keyspace.purge
  split
  · exact h.erase nofun
  · exact h

theorem run_expireAt (h : ks.Sane) (now : Nat) (key : Bytes) (time : Nat) :
    ks.run (expireAt now key time) =
      if (ks.data.find? key).isSome then (.ok true, ks.date now key time) else (.ok false, ks) := by
  unfold expireAt
  rw [run_bind_ok (run_contains h key)]
  split
  · rw [run_bind_ok (run_discard_ok (run_editDeadlines (Store.insert_eq_put h.deadlines key time)))]
    rfl
  · rfl

theorem run_dropDeadline (h : ks.Sane) (key : Bytes) :
    ks.run (dropDeadline key) = (.ok (ks.deadlines.find? key).isSome, ks.undate key) := by
  unfold dropDeadline undate
  rw [run_bind_ok (run_editDeadlines (Store.erase_eq_drop h.deadlines key))]
  cases (ks.deadlines.find? key).isSome with
  | true => rfl
  | false => rfl

theorem run_removeKey (h : ks.Sane) (key : Bytes) :
    ks.run (removeKey key) =
      (.ok (ks.data.find? key).isSome, ks.erase key (ks.deadlines.find? key).isSome) := by
  unfold removeKey
  rw [run_bind_ok (run_discard_ok (run_dropDeadline h key)),
    run_editData (Store.erase_eq_drop h.data key)]
  rfl

theorem Sane.erase_recorded (h : ks.Sane) (key : Bytes) :
    (ks.erase key (ks.deadlines.find? key).isSome).Sane := by
  apply h.erase
  intro hn
  exact h.not_books (Option.not_isSome_iff_eq_none.mp (by simp [hn]))

theorem run_cancelAll (ks : Keyspace) (keys : List Bytes) :
    ks.run (keys.forM fun key => editTimer (·.cancel key)) =
      (.ok (), { ks with timer := cancelAll ks.timer keys }) := by
  induction keys generalizing ks with
  | nil => rfl
  | cons key keys ih =>
    unfold List.forM
    rw [run_bind_ok (run_editTimer ks _), ih]
    rfl

theorem run_clearDeadlines (ks : Keyspace) :
    ks.run clearDeadlines = (.ok (), ks.undateAll ks.data) := by
  unfold clearDeadlines
  rw [run_bind_ok (run_get ks)]
  dsimp only
  rw [run_bind_ok (run_cancelAll ks _)]
  rfl

theorem run_flush (ks : Keyspace) : ks.run flush = (.ok (), ks.undateAll ks.data.clear) := by
  unfold flush
  rw [run_bind_ok (run_modify ks _), run_clearDeadlines]
  rfl

theorem run_freshSet (ks : Keyspace) :
    ks.run freshSet =
      (.ok (.empty ks.config.maxLevel (ks.supply ks.made)), { ks with made := ks.made + 1 }) :=
  rfl

end Keyspace

end KeyEngine
