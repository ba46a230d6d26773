import KeyEngine.Proofs.Keyspace.Requests

/-!
# Reachable keyspaces

A keyspace starts without keys and goes through requests, calls on deadlines, ticks, and the start and
stop of its timer, in any order and at any readings of the clock. All along it stays sane, and a tick
takes away due keys alone.
-/

namespace KeyEngine

inductive Event where
  | request (now : Nat) (request : Request)
  | deadlineCall (now : Nat) (call : DeadlineCall)
  | tick (now : Nat)
  | start (hasRuntime : Bool)
  | stop

namespace Keyspace

/-- The keyspace after an event. A start that fails changes nothing. -/
def after (ks : Keyspace) : Event → Keyspace
  | .request now request => (ks.handle now request).2
  | .deadlineCall now call => (ks.handleDeadline now call).2
  | .tick now => (ks.tick now).1
  | .start hasRuntime =>
    match ks.start hasRuntime with
    | .ok ks => ks
    | .error _ => ks
  | .stop => ks.stop

inductive Reachable : Keyspace → Prop where
  | new (config : Config) (supply : Nat → Towers) : Reachable (new config supply)
  | step {ks : Keyspace} (e : Event) : Reachable ks → Reachable (ks.after e)

variable {ks ks' : Keyspace} {now : Nat}

/-! ## Calls on deadlines -/

theorem sane_handleDeadline (h : ks.Sane) (now : Nat) (call : DeadlineCall) :
    (ks.handleDeadline now call).2.Sane := by
  have hexpire : ∀ key time, (ks.run (Command.expireAt now key time)).2.Sane := by
    intro key time
    rw [run_expireAt h]
    split
    · rename_i hv
      exact h.date hv now time
    · exact h
  unfold handleDeadline Command.ofDeadlineCall
  cases call with
  | setTtl key seconds =>
    rw [run_map]
    exact hexpire key _
  | setTtlMillis key millis =>
    rw [run_map]
    exact hexpire key _
  | expireAt key time =>
    rw [run_map]
    exact hexpire key time
  | drop key =>
    rw [run_map, run_dropDeadline h]
    exact h.undate key
  | checkLive key =>
    rw [run_map, run_checkLive h]
    exact h.purge now key
  | deadline key =>
    rw [run_map, run_deadline? h]
    exact h
  | remaining key =>
    unfold Command.remaining
    rw [run_map, run_bind_ok (run_deadline? h key)]
    exact h
  | isEmpty => exact h
  | clear =>
    rw [run_bind_ok (run_clearDeadlines ks)]
    exact h.undateAll h.data

/-! ## Timers -/

theorem Sane.retime (h : ks.Sane) {timer : Timer Bytes} (ht : timer.Sound)
    (hb : ∀ key, timer.books key → ks.timer.books key) : Sane { ks with timer := timer } where
  data := h.data
  deadlines := h.deadlines
  timer := ht
  recorded key hk := h.recorded key (hb key hk)
  stored := h.stored

theorem after_start (ks : Keyspace) (hasRuntime : Bool) :
    ∃ timer : Timer Bytes, timer.wheel? = ks.timer.wheel? ∧
      ks.after (.start hasRuntime) = { ks with timer := timer } := by
  cases ht : ks.timer.start hasRuntime with
  | error e =>
    refine ⟨ks.timer, rfl, ?_⟩
    unfold after
    dsimp only
    unfold start
    rw [ht]
    rfl
  | ok timer =>
    refine ⟨timer, Timer.wheel?_start ht, ?_⟩
    unfold after
    dsimp only
    unfold start
    rw [ht]
    rfl

theorem sane_start (h : ks.Sane) (hasRuntime : Bool) : (ks.after (.start hasRuntime)).Sane := by
  obtain ⟨timer, hw, he⟩ := after_start ks hasRuntime
  rw [he]
  apply h.retime
  · intro w hw'
    exact h.timer w (hw ▸ hw')
  · intro key hb
    rwa [Timer.books_congr hw] at hb

theorem sane_stop (h : ks.Sane) : ks.stop.Sane := by
  apply h.retime
  · intro w hw
    rw [Timer.wheel?_stop] at hw
    cases hw
  · intro key hb
    unfold Timer.books at hb
    rw [Timer.wheel?_stop] at hb
    cases hb

/-! ## Ticks -/

/-- Some due keys are gone, and all else but the timer is as it was. -/
structure Lost (now : Nat) (ks ks' : Keyspace) : Prop where
  config : ks'.config = ks.config
  supply : ks'.supply = ks.supply
  made : ks'.made = ks.made
  locks : ks'.locks = ks.locks
  keys : ∀ key,
    (ks'.data.find? key = ks.data.find? key ∧ ks'.deadlines.find? key = ks.deadlines.find? key) ∨
      (ks.due now key = true ∧ ks'.data.find? key = none ∧ ks'.deadlines.find? key = none)

theorem Lost.trans {ks'' : Keyspace} (h : Lost now ks ks') (h' : Lost now ks' ks'') :
    Lost now ks ks'' where
  config := h'.config.trans h.config
  supply := h'.supply.trans h.supply
  made := h'.made.trans h.made
  locks := h'.locks.trans h.locks
  keys := by
    intro key
    rcases h.keys key with ⟨hv, hd⟩ | ⟨hdue, hv, hd⟩
    · rcases h'.keys key with ⟨hv', hd'⟩ | ⟨hdue', hn⟩
      · exact .inl ⟨hv'.trans hv, hd'.trans hd⟩
      · refine .inr ⟨?_, hn⟩
        unfold due at *
        rwa [hd] at hdue'
    · rcases h'.keys key with ⟨hv', hd'⟩ | ⟨-, hn⟩
      · exact .inr ⟨hdue, hv'.trans hv, hd'.trans hd⟩
      · exact .inr ⟨hdue, hn⟩

theorem fire_eq (h : ks.Sane) (now : Nat) (key : Bytes) :
    (ks.fire now key).1 = if ks.due now key then ks.erase key false else ks := by
  unfold fire
  rw [run_purgeIfDue h]
  cases ks.due now key <;> rfl

theorem lost_fire (h : ks.Sane) (now : Nat) (key : Bytes) : Lost now ks (ks.fire now key).1 := by
  rw [fire_eq h]
  split
  · rename_i hdue
    refine ⟨rfl, rfl, rfl, rfl, ?_⟩
    intro other
    by_cases ho : other = key
    · subst ho
      refine .inr ⟨hdue, ?_, ?_⟩
      · exact (Store.find?_drop h.data other other).trans (if_pos rfl)
      · exact (Store.find?_drop h.deadlines other other).trans (if_pos rfl)
    · have hb := SameBut.erase h key false
      exact .inl ⟨hb.data other ho, hb.deadlines other ho⟩
  · exact ⟨rfl, rfl, rfl, rfl, fun _ => .inl ⟨rfl, rfl⟩⟩

/-- A task that was fired is booked no more, so its key may go without a word to the timer. -/
theorem sane_fire (h : ks.Sane) {key : Bytes} (hb : ks.timer.books key = false) (now : Nat) :
    (ks.fire now key).1.Sane ∧ (ks.fire now key).1.timer = ks.timer := by
  rw [fire_eq h]
  split
  · exact ⟨h.erase fun _ => hb, rfl⟩
  · exact ⟨h, rfl⟩

theorem fireAll_spec (h : ks.Sane) {keys : List Bytes}
    (hb : ∀ key ∈ keys, ks.timer.books key = false) (now : Nat) :
    (fireAll now keys ks).1.Sane ∧ Lost now ks (fireAll now keys ks).1 := by
  induction keys generalizing ks with
  | nil => exact ⟨h, rfl, rfl, rfl, rfl, fun _ => .inl ⟨rfl, rfl⟩⟩
  | cons key keys ih =>
    obtain ⟨hs, ht⟩ := sane_fire h (hb key List.mem_cons_self) now
    obtain ⟨hs', hl'⟩ := ih hs fun k hk => by
      rw [ht]
      exact hb k (List.mem_cons_of_mem key hk)
    exact ⟨hs', (lost_fire h now key).trans hl'⟩

theorem Sane.tickTimer (h : ks.Sane) : Sane { ks with timer := ks.timer.tick.1 } :=
  h.retime h.timer.tick fun _ hb => (h.timer.books_of_tick hb).2

theorem tick_spec (h : ks.Sane) (now : Nat) :
    (ks.tick now).1.Sane ∧ Lost now ks (ks.tick now).1 := by
  obtain ⟨hsane, hl⟩ := fireAll_spec h.tickTimer h.timer.books_fired now
  exact ⟨hsane, hl.config, hl.supply, hl.made, hl.locks, hl.keys⟩

/-! ## Invariant -/

theorem Sane.after (h : ks.Sane) (e : Event) : (ks.after e).Sane := by
  cases e with
  | request now request =>
    have hc : Close False now ∅ ks ks := .refl h
    exact (hc.handle request).left
  | deadlineCall now call => exact sane_handleDeadline h now call
  | tick now => exact (tick_spec h now).1
  | start hasRuntime => exact sane_start h hasRuntime
  | stop => exact sane_stop h

theorem Reachable.sane (h : Reachable ks) : ks.Sane := by
  induction h with
  | new config supply => exact sane_new config supply
  | step e _ ih => exact ih.after e

end Keyspace

end KeyEngine
