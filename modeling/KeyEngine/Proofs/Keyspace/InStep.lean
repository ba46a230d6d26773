import KeyEngine.Proofs.Keyspace.Careful
import KeyEngine.Proofs.Keyspace.Expiry
import Mathlib.Data.Set.Card

/-!
# Values, deadlines and tasks in step

A key with a task has a deadline, and a key with a deadline has a value. While the timer is not stopped
every deadline has its task as well, as long as no task fires before the deadline of its key: the task
would be gone, and the deadline would stay.
-/

namespace KeyEngine.Keyspace

variable {now : Nat} {ks : Keyspace}

/-! ## Changes -/

structure InStep (ks : Keyspace) : Prop where
  sane : ks.Sane
  runs : ks.timer.wheel?.isSome
  booked : ∀ key, (ks.deadlines.find? key).isSome → ks.timer.books key

theorem inStep_new (config : Config) (supply : Nat → Towers) : (new config supply).InStep where
  sane := sane_new config supply
  runs := rfl
  booked := by
    intro key hd
    unfold new at hd
    simp [Store.find?_empty] at hd

theorem isSome_wheel?_cancel_if {t : Timer Bytes} (h : t.wheel?.isSome) (key : Bytes) (cancel : Bool) :
    (if cancel then t.cancel key else t).wheel?.isSome := by
  cases cancel with
  | false => exact h
  | true => simpa using h

theorem InStep.booked_drop (h : ks.InStep) (key : Bytes) (cancel : Bool) {other : Bytes}
    (hd : ((ks.deadlines.drop key).find? other).isSome) :
    (if cancel then ks.timer.cancel key else ks.timer).books other := by
  rw [Store.find?_drop h.sane.deadlines] at hd
  by_cases hk : key = other
  · simp [hk] at hd
  · rw [if_neg hk] at hd
    cases cancel with
    | false => exact h.booked other hd
    | true => simpa [Timer.books_cancel, hk] using h.booked other hd

theorem InStep.erase (h : ks.InStep) {key : Bytes} {cancel : Bool} (hs : (ks.erase key cancel).Sane) :
    (ks.erase key cancel).InStep where
  sane := hs
  runs := isSome_wheel?_cancel_if h.runs key cancel
  booked _ hd := h.booked_drop key cancel hd

theorem InStep.date (h : ks.InStep) {key : Bytes} (hv : (ks.data.find? key).isSome) (time : Nat) :
    (ks.date now key time).InStep where
  sane := h.sane.date hv now time
  runs := by simpa [Keyspace.date] using h.runs
  booked := by
    intro other hd
    change ((ks.deadlines.put key time).find? other).isSome at hd
    show (ks.timer.add _ (some key) key).books other
    rw [Store.find?_put h.sane.deadlines] at hd
    rw [Timer.books_add]
    by_cases hk : key = other
    · rw [if_pos hk]
      exact h.runs
    · rw [if_neg hk] at hd ⊢
      exact h.booked other hd

theorem isSome_wheel?_cancelAll {t : Timer Bytes} (h : t.wheel?.isSome) (keys : List Bytes) :
    (cancelAll t keys).wheel?.isSome := by
  induction keys generalizing t with
  | nil => exact h
  | cons key keys ih => exact ih (by simpa using h)

theorem InStep.undateAll (h : ks.InStep) {data : Store Value} (hd : data.Sound) :
    (ks.undateAll data).InStep where
  sane := h.sane.undateAll hd
  runs := isSome_wheel?_cancelAll h.runs _
  booked := by
    intro key hk
    change (ks.deadlines.clear.find? key).isSome at hk
    simp [Store.find?_clear] at hk

theorem InStep.apply (h : ks.InStep) (c : Change) : (c.apply now ks).InStep := by
  have hs : (c.apply now ks).Sane := h.sane.apply c
  cases c with
  | look key =>
    show (ks.purge now key).InStep
    unfold purge
    by_cases hd : ks.due now key = true
    · rw [if_pos hd]
      exact h.erase (h.sane.erase nofun)
    · rw [if_neg hd]
      exact h
  | draw => exact ⟨hs, h.runs, h.booked⟩
  | place key value => exact ⟨hs, h.runs, h.booked⟩
  | remove key => exact h.erase hs
  | undate key =>
    exact ⟨hs, isSome_wheel?_cancel_if h.runs key _, fun _ hd => h.booked_drop key _ hd⟩
  | date key time =>
    show InStep (if (ks.data.find? key).isSome then ks.date now key time else ks)
    by_cases hv : (ks.data.find? key).isSome
    · rw [if_pos hv]
      exact h.date hv time
    · rw [if_neg hv]
      exact h
  | undateAll => exact h.undateAll h.sane.data
  | flush => exact h.undateAll h.sane.data.clear

theorem InStep.run {α : Type} (h : ks.InStep) {c : Command α} (hc : Command.Careful now c) :
    (ks.run c).2.InStep :=
  (hc ks h.sane).1.keeps (fun _ c _ ht => ht.apply c) h

/-! ## Ticks -/

theorem find?_deadlines_fire (h : ks.Sane) {key : Bytes}
    (ht : ∀ time, ks.deadlines.find? key = some time → time ≤ now) (other : Bytes) :
    (ks.fire now key).1.deadlines.find? other =
      if key = other then none else ks.deadlines.find? other := by
  rw [fire_eq h]
  unfold due
  cases hf : ks.deadlines.find? key with
  | none =>
    by_cases hk : key = other
    · subst hk
      simp [hf]
    · simp [hk]
  | some time =>
    simp only [Option.any_some, ht time hf, decide_true, if_true]
    exact Store.find?_drop h.deadlines key other

theorem inStep_fireAll (h : ks.Sane) (hw : ks.timer.wheel?.isSome) {keys : List Bytes}
    (hb : ∀ key ∈ keys, ks.timer.books key = false)
    (hd : ∀ key, (ks.deadlines.find? key).isSome → key ∈ keys ∨ ks.timer.books key)
    (ht : ∀ key ∈ keys, ∀ time, ks.deadlines.find? key = some time → time ≤ now) :
    (fireAll now keys ks).1.InStep := by
  -- All along, a deadline without a task belongs to a key that is still to be fired.
  induction keys generalizing ks with
  | nil =>
    refine ⟨h, hw, ?_⟩
    intro key hk
    exact (hd key hk).resolve_left List.not_mem_nil
  | cons key keys ih =>
    obtain ⟨hs, htimer⟩ := sane_fire h (hb key List.mem_cons_self) now
    have hf := find?_deadlines_fire h (ht key List.mem_cons_self)
    show (fireAll now keys (ks.fire now key).1).1.InStep
    apply ih hs
    · rwa [htimer]
    · intro k hk
      rw [htimer]
      exact hb k (List.mem_cons_of_mem key hk)
    · intro k hk
      rw [htimer]
      rw [hf] at hk
      by_cases he : key = k
      · simp [he] at hk
      · rw [if_neg he] at hk
        simpa [Ne.symm he] using hd k hk
    · intro k hk time htime
      rw [hf] at htime
      by_cases he : key = k
      · simp [he] at htime
      · rw [if_neg he] at htime
        exact ht k (List.mem_cons_of_mem key hk) time htime

theorem InStep.tick (h : ks.InStep)
    (ht : ∀ key ∈ ks.timer.tick.2, ∀ time, ks.deadlines.find? key = some time → time ≤ now) :
    (ks.tick now).1.InStep := by
  apply inStep_fireAll h.sane.tickTimer (Timer.isSome_wheel?_tick h.runs) h.sane.timer.books_fired _ ht
  intro key hd
  exact h.sane.timer.books_tick (h.booked key hd)

/-! ## Runs -/

/-- The tasks that fire at the event do so at or past the deadlines of their keys. -/
def OnTime (ks : Keyspace) : Event → Prop
  | .tick now => ∀ key ∈ ks.timer.tick.2, ∀ time, ks.deadlines.find? key = some time → time ≤ now
  | _ => True

def afterAll (ks : Keyspace) : List Event → Keyspace
  | [] => ks
  | e :: es => (ks.after e).afterAll es

def AllOnTime (ks : Keyspace) : List Event → Prop
  | [] => True
  | e :: es => ks.OnTime e ∧ (ks.after e).AllOnTime es

theorem Sane.afterAll (h : ks.Sane) (es : List Event) : (ks.afterAll es).Sane := by
  induction es generalizing ks with
  | nil => exact h
  | cons e es ih => exact ih (h.after e)

theorem InStep.after (h : ks.InStep) {e : Event} (he : e ≠ .stop) (ht : ks.OnTime e) :
    (ks.after e).InStep := by
  cases e with
  | request now request => exact h.run (Command.careful_ofRequest request)
  | deadlineCall now call => exact h.run (Command.sure_ofDeadlineCall call).careful
  | tick now => exact h.tick ht
  | start hasRuntime =>
    have hs := h.sane.after (.start hasRuntime)
    obtain ⟨timer, hw, heq⟩ := after_start ks hasRuntime
    rw [heq] at hs ⊢
    refine ⟨hs, hw ▸ h.runs, ?_⟩
    intro key hd
    rw [Timer.books_congr hw]
    exact h.booked key hd
  | stop => exact absurd rfl he

theorem InStep.afterAll (h : ks.InStep) {es : List Event} (hes : Event.stop ∉ es)
    (ht : ks.AllOnTime es) : (ks.afterAll es).InStep := by
  induction es generalizing ks with
  | nil => exact h
  | cons e es ih =>
    rw [List.mem_cons, not_or] at hes
    exact ih (h.after (Ne.symm hes.1) ht.1) hes.2 ht.2

theorem encard_dated (h : ks.Sane) :
    {key | (ks.deadlines.find? key).isSome}.encard = ks.deadlines.count := by
  have hkeys : {key | (ks.deadlines.find? key).isSome} = (ks.deadlines.keys.toFinset : Set Bytes) := by
    ext key
    simp [h.deadlines.mem_keys]
  rw [hkeys, Set.encard_coe_eq_coe_finsetCard, List.toFinset_card_of_nodup h.deadlines.nodup_keys,
    h.deadlines.count_eq]

/-- Whatever has happened to a keyspace, tasks are booked only for keys with a deadline, deadlines are
recorded only for keys with a value, and the counter tells how many there are. While the timer has not
been stopped and no task has fired early, the keys with a deadline are just those with a task. -/
theorem deadlines_in_step (config : Config) (supply : Nat → Towers) (es : List Event) :
    let ks := (new config supply).afterAll es
    (∀ key, ks.timer.books key ↔ ks.timer.Waits key) ∧
    (∀ key, ks.timer.books key → (ks.deadlines.find? key).isSome) ∧
    (∀ key, (ks.deadlines.find? key).isSome → (ks.data.find? key).isSome) ∧
    {key | (ks.deadlines.find? key).isSome}.encard = ks.deadlines.count ∧
    (Event.stop ∉ es → (new config supply).AllOnTime es →
      ∀ key, (ks.deadlines.find? key).isSome ↔ ks.timer.books key) := by
  intro ks
  have h : ks.Sane := (sane_new config supply).afterAll es
  refine ⟨h.timer.books_iff, h.recorded, h.stored, encard_dated h, ?_⟩
  intro hes ht key
  have hstep : ks.InStep := (inStep_new config supply).afterAll hes ht
  exact ⟨hstep.booked key, h.recorded key⟩

/-- The task of a key that is due at once fires at the first tick, and another key gets its deadline
after that. -/
theorem deadlines_in_step_tick :
    let es := [.request 0 (.setFor [1] [2] 0), .start true, .tick 5, .request 6 (.setFor [3] [4] 9)]
    let ks := standard.afterAll es
    Event.stop ∉ es ∧ standard.AllOnTime es ∧
      ∀ key, (ks.deadlines.find? key).isSome ↔ ks.timer.books key := by
  intro es ks
  have hstop : Event.stop ∉ es := by simp [es]
  have htime : standard.AllOnTime es := by
    refine ⟨trivial, trivial, ?_, trivial, trivial⟩
    intro key _ time hf
    obtain ⟨timer, -, hstart⟩ := after_start (standard.after (.request 0 (.setFor [1] [2] 0))) true
    rw [hstart] at hf
    change (standard.after (.request 0 (.setFor [1] [2] 0))).deadlines.find? key = _ at hf
    rw [(standard_setFor [1] [2] 0 key).2] at hf
    by_cases hk : [1] = key
    · rw [if_pos hk] at hf
      cases hf
      exact Nat.zero_le 5
    · rw [if_neg hk] at hf
      cases hf
  exact ⟨hstop, htime, (deadlines_in_step _ _ es).2.2.2.2 hstop htime⟩

end KeyEngine.Keyspace
