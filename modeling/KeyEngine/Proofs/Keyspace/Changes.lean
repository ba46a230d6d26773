import KeyEngine.Proofs.Keyspace.Requests
import Mathlib.Logic.Relation

/-!
# Changes

All that a command does to a keyspace is a sequence of changes of a few kinds. Two kinds of them leave
everything but due keys as it was: a look at a key, which purges it if it is due, and the drawing of towers
for a set that is to be made. A careful command has made no other change where it fails. It looks first,
and once it writes it cannot fail any more.
-/

namespace KeyEngine

inductive Change where
  | look (key : Bytes)
  | draw
  | place (key : Bytes) (value : Value)
  | remove (key : Bytes)
  | undate (key : Bytes)
  | date (key : Bytes) (time : Nat)
  | undateAll
  | flush

namespace Change

def IsLook : Change → Prop
  | look _ | draw => True
  | _ => False

def apply (now : Nat) (ks : Keyspace) : Change → Keyspace
  | look key => ks.purge now key
  | draw => { ks with made := ks.made + 1 }
  | place key value => ks.place key value
  | remove key => ks.erase key (ks.deadlines.find? key).isSome
  | undate key => ks.undate key
  | date key time => if (ks.data.find? key).isSome then ks.date now key time else ks
  | undateAll => ks.undateAll ks.data
  | flush => ks.undateAll ks.data.clear

end Change

namespace Keyspace

variable {P Q : Change → Prop} {now : Nat} {ks ks' : Keyspace}

/-- The second keyspace comes out of the first by changes of the given kinds. -/
def Changed (P : Change → Prop) (now : Nat) : Keyspace → Keyspace → Prop :=
  Relation.ReflTransGen fun ks ks' => ∃ c, P c ∧ ks' = c.apply now ks

theorem changed_apply {c : Change} (hc : P c) (ks : Keyspace) : Changed P now ks (c.apply now ks) :=
  .single ⟨c, hc, rfl⟩

theorem Changed.mono (h : Changed P now ks ks') (hPQ : ∀ c, P c → Q c) : Changed Q now ks ks' := by
  induction h with
  | refl => exact .refl
  | tail _ hstep ih =>
    obtain ⟨c, hc, he⟩ := hstep
    exact ih.tail ⟨c, hPQ c hc, he⟩

theorem Changed.keeps (h : Changed P now ks ks') {Inv : Keyspace → Prop}
    (hInv : ∀ ks c, P c → Inv ks → Inv (c.apply now ks)) (hks : Inv ks) : Inv ks' := by
  induction h with
  | refl => exact hks
  | tail _ hstep ih =>
    obtain ⟨c, hc, rfl⟩ := hstep
    exact hInv _ c hc ih

theorem Sane.apply (h : ks.Sane) (c : Change) : (c.apply now ks).Sane := by
  cases c with
  | look key => exact h.purge now key
  | draw => exact h.make
  | place key value => exact h.place key value
  | remove key => exact h.erase_recorded key
  | undate key => exact h.undate key
  | date key time =>
    unfold Change.apply
    dsimp only
    split
    · rename_i hv
      exact h.date hv now time
    · exact h
  | undateAll => exact h.undateAll h.data
  | flush => exact h.undateAll h.data.clear

theorem Changed.sane (h : Changed P now ks ks') (hks : ks.Sane) : ks'.Sane :=
  h.keeps (fun _ c _ hs => hs.apply c) hks

end Keyspace

/-! ## Commands that look, that are sure, and that are careful -/

namespace Command

open Keyspace

variable {α β : Type} {now : Nat} {key : Bytes}

/-- The command does no more than look, whether it fails or not. -/
def Looks (now : Nat) (c : Command α) : Prop :=
  ∀ ks : Keyspace, ks.Sane → Changed Change.IsLook now ks (ks.run c).2

/-- The command does not fail. -/
def Sure (now : Nat) (c : Command α) : Prop :=
  ∀ ks : Keyspace, ks.Sane →
    ∃ a ks', ks.run c = (.ok a, ks') ∧ Changed (fun _ => True) now ks ks'

/-- The command looks, and does not fail. -/
def Reads (now : Nat) (c : Command α) : Prop :=
  ∀ ks : Keyspace, ks.Sane →
    ∃ a ks', ks.run c = (.ok a, ks') ∧ Changed Change.IsLook now ks ks'

/-- If the command fails, it has done no more than look. -/
def Careful (now : Nat) (c : Command α) : Prop :=
  ∀ ks : Keyspace, ks.Sane →
    Changed (fun _ => True) now ks (ks.run c).2 ∧
      ∀ e, (ks.run c).1 = .error e → Changed Change.IsLook now ks (ks.run c).2

theorem Reads.looks {c : Command α} (hc : Reads now c) : Looks now c := by
  intro ks h
  obtain ⟨a, ks', hr, hs⟩ := hc ks h
  rw [hr]
  exact hs

theorem Reads.sure {c : Command α} (hc : Reads now c) : Sure now c := by
  intro ks h
  obtain ⟨a, ks', hr, hs⟩ := hc ks h
  exact ⟨a, ks', hr, hs.mono fun _ _ => trivial⟩

theorem Looks.careful {c : Command α} (hc : Looks now c) : Careful now c := by
  intro ks h
  exact ⟨(hc ks h).mono fun _ _ => trivial, fun _ _ => hc ks h⟩

theorem Sure.careful {c : Command α} (hc : Sure now c) : Careful now c := by
  intro ks h
  obtain ⟨a, ks', hr, hs⟩ := hc ks h
  rw [hr]
  exact ⟨hs, nofun⟩

/-! ### Programs -/

theorem looks_pure (a : α) : Looks now (pure a) := fun _ _ => .refl

theorem looks_throw (e : Error) : Looks now (throw e : Command α) := fun _ _ => .refl

theorem sure_pure (a : α) : Sure now (pure a) := fun ks _ => ⟨a, ks, rfl, .refl⟩

theorem reads_pure (a : α) : Reads now (pure a) := fun ks _ => ⟨a, ks, rfl, .refl⟩

theorem Looks.bind {c : Command α} {f : α → Command β} (hc : Looks now c)
    (hf : ∀ a, Looks now (f a)) : Looks now (c >>= f) := by
  intro ks h
  have hs := hc ks h
  rw [run_bind]
  rcases hr : ks.run c with ⟨result, t⟩
  rw [hr] at hs
  cases result with
  | error e => exact hs
  | ok a => exact hs.trans (hf a t (hs.sane h))

theorem bind_ok_changed {c : Command α} {f : α → Command β} {P : Change → Prop}
    (hc : ∀ ks : Keyspace, ks.Sane → ∃ a ks', ks.run c = (.ok a, ks') ∧ Changed P now ks ks')
    (hf : ∀ a (ks : Keyspace), ks.Sane → ∃ b ks', ks.run (f a) = (.ok b, ks') ∧ Changed P now ks ks')
    (ks : Keyspace) (h : ks.Sane) : ∃ b ks', ks.run (c >>= f) = (.ok b, ks') ∧ Changed P now ks ks' := by
  obtain ⟨a, t, hr, hs⟩ := hc ks h
  obtain ⟨b, t', hr', hs'⟩ := hf a t (hs.sane h)
  exact ⟨b, t', (run_bind_ok hr f).trans hr', hs.trans hs'⟩

theorem Sure.bind {c : Command α} {f : α → Command β} (hc : Sure now c)
    (hf : ∀ a, Sure now (f a)) : Sure now (c >>= f) :=
  bind_ok_changed hc hf

theorem Reads.bind {c : Command α} {f : α → Command β} (hc : Reads now c)
    (hf : ∀ a, Reads now (f a)) : Reads now (c >>= f) :=
  bind_ok_changed hc hf

theorem Looks.bind_careful {c : Command α} {f : α → Command β} (hc : Looks now c)
    (hf : ∀ a, Careful now (f a)) : Careful now (c >>= f) := by
  intro ks h
  have hs := hc ks h
  rw [run_bind]
  rcases hr : ks.run c with ⟨result, t⟩
  rw [hr] at hs
  cases result with
  | error e => exact ⟨hs.mono fun _ _ => trivial, fun _ _ => hs⟩
  | ok a =>
    obtain ⟨hs', he'⟩ := hf a t (hs.sane h)
    exact ⟨(hs.mono fun _ _ => trivial).trans hs', fun e he => hs.trans (he' e he)⟩

theorem Careful.bind_sure {c : Command α} {f : α → Command β} (hc : Careful now c)
    (hf : ∀ a, Sure now (f a)) : Careful now (c >>= f) := by
  intro ks h
  obtain ⟨hs, he⟩ := hc ks h
  rw [run_bind]
  rcases hr : ks.run c with ⟨result, t⟩
  rw [hr] at hs he
  cases result with
  | error e => exact ⟨hs, fun e' _ => he e rfl⟩
  | ok a =>
    -- There may have been writes by now, so a failure of what follows would be too late.
    obtain ⟨b, t', hr', hs'⟩ := hf a t (hs.sane h)
    dsimp only
    rw [hr']
    exact ⟨hs.trans hs', nofun⟩

theorem Looks.map {c : Command α} (hc : Looks now c) (f : α → β) : Looks now (f <$> c) := by
  rw [map_eq_pure_bind]
  exact hc.bind fun a => looks_pure (f a)

theorem Sure.map {c : Command α} (hc : Sure now c) (f : α → β) : Sure now (f <$> c) := by
  rw [map_eq_pure_bind]
  exact hc.bind fun a => sure_pure (f a)

theorem Reads.map {c : Command α} (hc : Reads now c) (f : α → β) : Reads now (f <$> c) := by
  rw [map_eq_pure_bind]
  exact hc.bind fun a => reads_pure (f a)

theorem Careful.map {c : Command α} (hc : Careful now c) (f : α → β) : Careful now (f <$> c) := by
  rw [map_eq_pure_bind]
  exact hc.bind_sure fun a => sure_pure (f a)

theorem Looks.discard {c : Command α} (hc : Looks now c) : Looks now (discard c) :=
  hc.map _

theorem Sure.discard {c : Command α} (hc : Sure now c) : Sure now (discard c) :=
  hc.map _

theorem careful_guard {p : Prop} [Decidable p] {e : Error} {f : β → Command α} {c : Command α}
    (hc : Careful now c) : Careful now (if p then do let b ← throw e; f b else c) := by
  split
  · exact (looks_throw e : Looks now (throw e : Command α)).careful
  · exact hc

/-! ### Steps -/

theorem looks_lift (result : Except Error α) : Looks now (liftM result : Command α) :=
  fun _ _ => .refl

theorem looks_ofFault (result : Except Fault α) : Looks now (ofFault result) := by
  unfold ofFault
  cases result with
  | ok a => exact looks_pure a
  | error fault => exact looks_throw _

theorem reads_of_run {c : Command α} (hc : ∀ ks : Keyspace, ks.Sane → ∃ a, ks.run c = (.ok a, ks)) :
    Reads now c := by
  intro ks h
  obtain ⟨a, hr⟩ := hc ks h
  exact ⟨a, ks, hr, .refl⟩

theorem reads_lookup (key : Bytes) : Reads now (lookup key) :=
  reads_of_run fun _ h => ⟨_, run_lookup h key⟩

theorem reads_contains (key : Bytes) : Reads now (readData (·.contains key)) :=
  reads_of_run fun _ h => ⟨_, run_contains h key⟩

theorem reads_deadline? (key : Bytes) : Reads now (deadline? key) :=
  reads_of_run fun _ h => ⟨_, run_deadline? h key⟩

theorem reads_get : Reads now (getThe Keyspace : Command Keyspace) :=
  reads_of_run fun ks _ => ⟨ks, rfl⟩

theorem reads_freshSet : Reads now freshSet :=
  fun ks _ => ⟨_, _, run_freshSet ks, changed_apply (c := .draw) trivial ks⟩

theorem reads_checkLive (key : Bytes) : Reads now (checkLive now key) :=
  fun ks h => ⟨_, _, run_checkLive h now key, changed_apply (c := .look key) trivial ks⟩

theorem looks_lookup (key : Bytes) : Looks now (lookup key) :=
  (reads_lookup key).looks

theorem looks_checkLive (key : Bytes) : Looks now (checkLive now key) :=
  (reads_checkLive key).looks

theorem looks_checkAll (keys : List Bytes) : Looks now (checkAll now keys) := by
  unfold checkAll
  induction keys with
  | nil => exact looks_pure ()
  | cons key keys ih =>
    unfold List.forM
    exact (looks_checkLive key).discard.bind fun _ => ih

theorem sure_of_run {c : Command α} (x : Change)
    (hc : ∀ ks : Keyspace, ks.Sane → ∃ a, ks.run c = (.ok a, x.apply now ks)) : Sure now c := by
  intro ks h
  obtain ⟨a, hr⟩ := hc ks h
  exact ⟨a, _, hr, changed_apply trivial ks⟩

theorem sure_put (key : Bytes) (value : Value) : Sure now (put key value) :=
  sure_of_run (.place key value) fun _ h => ⟨_, run_put h key value⟩

theorem sure_insertNew (key : Bytes) (value : Value) :
    Sure now (editData (·.insertNew key value)) := by
  intro ks h
  rw [run_insertNew h]
  split
  · exact ⟨_, _, rfl, .refl⟩
  · exact ⟨_, _, rfl, changed_apply (c := .place key value) trivial ks⟩

theorem sure_dropDeadline (key : Bytes) : Sure now (dropDeadline key) :=
  sure_of_run (.undate key) fun _ h => ⟨_, run_dropDeadline h key⟩

theorem sure_removeKey (key : Bytes) : Sure now (removeKey key) :=
  sure_of_run (.remove key) fun _ h => ⟨_, run_removeKey h key⟩

theorem sure_expireAt (key : Bytes) (time : Nat) : Sure now (expireAt now key time) := by
  apply sure_of_run (.date key time)
  intro ks h
  rw [run_expireAt h]
  unfold Change.apply
  dsimp only
  split
  · exact ⟨_, rfl⟩
  · exact ⟨_, rfl⟩

theorem sure_clearDeadlines : Sure now clearDeadlines :=
  sure_of_run .undateAll fun ks _ => ⟨_, run_clearDeadlines ks⟩

theorem sure_flush : Sure now flush :=
  sure_of_run .flush fun ks _ => ⟨_, run_flush ks⟩

end Command

end KeyEngine
