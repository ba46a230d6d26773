import KeyEngine.Proofs.Keyspace.InStep
import KeyEngine.Proofs.Keyspace.Uniform
import KeyEngine.Proofs.Locks

/-!
# The sizes of a keyspace

Nothing that comes back from a keyspace tells how many shards, stripes, slots and levels it has, nor how high
the towers of its sets are.
-/

namespace KeyEngine

/-- What comes back from an event. -/
inductive Response where
  | reply (result : Except Error Reply)
  | outcomes (outcomes : List (Bytes × Outcome))
  | started (result : Except Error Unit)
  | stopped

namespace Keyspace

variable {ks ks' : Keyspace}

def respond (ks : Keyspace) : Event → Response
  | .request now request => .reply (ks.handle now request).1
  | .deadlineCall now call => .reply (ks.handleDeadline now call).1
  | .tick now => .outcomes (ks.tick now).2
  | .start hasRuntime => .started ((ks.start hasRuntime).map fun _ => ())
  | .stop => .stopped

/-- What comes back from events, and after each of them the number of keys and of deadlines. -/
def history (ks : Keyspace) : List Event → List (Response × Nat × Nat)
  | [] => []
  | e :: es => (ks.respond e, (ks.after e).size, (ks.after e).deadlines.count) :: (ks.after e).history es

theorem Parallel.step (h : Parallel ks ks') (e : Event) :
    ks.respond e = ks'.respond e ∧ Parallel (ks.after e) (ks'.after e) := by
  cases e with
  | request now request =>
    obtain ⟨ha, hs⟩ := Command.uniform_ofRequest request ks ks' h
    exact ⟨congrArg Response.reply ha.eq, hs⟩
  | deadlineCall now call =>
    obtain ⟨ha, hs⟩ := Command.uniform_ofDeadlineCall call ks ks' h
    exact ⟨congrArg Response.reply ha.eq, hs⟩
  | tick now =>
    obtain ⟨ho, hs⟩ := h.tick
    exact ⟨congrArg Response.outcomes ho, hs⟩
  | start hasRuntime =>
    obtain ⟨hr, hs⟩ := h.start hasRuntime
    exact ⟨congrArg Response.started hr, hs⟩
  | stop => exact ⟨rfl, h.stop⟩

theorem Parallel.run (h : Parallel ks ks') (es : List Event) :
    ks.history es = ks'.history es ∧ Parallel (ks.afterAll es) (ks'.afterAll es) := by
  induction es generalizing ks ks' with
  | nil => exact ⟨rfl, h⟩
  | cons e es ih =>
    obtain ⟨hr, hs⟩ := h.step e
    obtain ⟨hh, hks⟩ := ih hs
    refine ⟨?_, hks⟩
    rw [history, history, hr, hs.size_eq, hs.count_deadlines_eq, hh]

/-! ## Parts that stay -/

/-- What no event changes. -/
structure SameFrame (ks ks' : Keyspace) : Prop where
  locks : ks'.locks = ks.locks
  slots : ks'.timer.slotCount = ks.timer.slotCount

theorem slotCount_cancel_if (t : Timer Bytes) (key : Bytes) (cancel : Bool) :
    (if cancel then t.cancel key else t).slotCount = t.slotCount := by
  cases cancel <;> rfl

theorem slotCount_cancelAll (t : Timer Bytes) (keys : List Bytes) :
    (cancelAll t keys).slotCount = t.slotCount := by
  induction keys generalizing t with
  | nil => rfl
  | cons key keys ih => exact ih (t.cancel key)

theorem SameFrame.apply {now : Nat} (h : SameFrame ks ks') (c : Change) :
    SameFrame ks (c.apply now ks') := by
  cases c with
  | look key =>
    show SameFrame ks (ks'.purge now key)
    unfold purge
    split
    · exact ⟨h.locks, h.slots⟩
    · exact h
  | draw => exact ⟨h.locks, h.slots⟩
  | place key value => exact ⟨h.locks, h.slots⟩
  | remove key => exact ⟨h.locks, (slotCount_cancel_if _ key _).trans h.slots⟩
  | undate key => exact ⟨h.locks, (slotCount_cancel_if _ key _).trans h.slots⟩
  | date key time =>
    show SameFrame ks (if _ then ks'.date now key time else ks')
    split
    · exact ⟨h.locks, h.slots⟩
    · exact h
  | undateAll => exact ⟨h.locks, (slotCount_cancelAll _ _).trans h.slots⟩
  | flush => exact ⟨h.locks, (slotCount_cancelAll _ _).trans h.slots⟩

theorem SameFrame.run {α : Type} (h : ks.Sane) {now : Nat} {c : Command α}
    (hc : Command.Careful now c) : SameFrame ks (ks.run c).2 :=
  (hc ks h).1.keeps (fun _ c _ ht => SameFrame.apply ht c) ⟨rfl, rfl⟩

theorem timer_fireAll {now : Nat} (h : ks.Sane) {keys : List Bytes}
    (hb : ∀ key ∈ keys, ks.timer.books key = false) : (fireAll now keys ks).1.timer = ks.timer := by
  induction keys generalizing ks with
  | nil => rfl
  | cons key keys ih =>
    rw [List.forall_mem_cons] at hb
    obtain ⟨hs, ht⟩ := sane_fire h hb.1 now
    exact (ih hs (by rw [ht]; exact hb.2)).trans ht

theorem slotCount_tick (t : Timer Bytes) : t.tick.1.slotCount = t.slotCount := by
  unfold Timer.tick
  split <;> rfl

theorem slotCount_start {t t' : Timer Bytes} {hasRuntime : Bool} (h : t.start hasRuntime = .ok t') :
    t'.slotCount = t.slotCount := by
  unfold Timer.start at h
  split at h
  · cases h
  · split at h
    · cases h
      rfl
    · cases h

theorem SameFrame.after (h : ks.Sane) (e : Event) : SameFrame ks (ks.after e) := by
  cases e with
  | request now request => exact .run h (Command.careful_ofRequest request)
  | deadlineCall now call => exact .run h (Command.sure_ofDeadlineCall call).careful
  | tick now =>
    have ht : (ks.tick now).1.timer = ks.timer.tick.1 := timer_fireAll h.tickTimer h.timer.books_fired
    refine ⟨(tick_spec h now).2.locks, ?_⟩
    show (ks.tick now).1.timer.slotCount = _
    rw [ht, slotCount_tick]
  | start hasRuntime =>
    unfold Keyspace.after Keyspace.start
    dsimp only
    cases ht : ks.timer.start hasRuntime with
    | error e => exact ⟨rfl, rfl⟩
    | ok timer => exact ⟨rfl, slotCount_start ht⟩
  | stop => exact ⟨rfl, rfl⟩

theorem SameFrame.afterAll (h : ks.Sane) (es : List Event) : SameFrame ks (ks.afterAll es) := by
  induction es generalizing ks with
  | nil => exact ⟨rfl, rfl⟩
  | cons e es ih =>
    have he := SameFrame.after h e
    have hes := ih (h.after e)
    exact ⟨hes.locks.trans he.locks, hes.slots.trans he.slots⟩

/-- Places on the wheel are worked out with numbers that fit a word, and the locks of any keys can be taken
together in either mode, and let go again. -/
structure Roomy (ks : Keyspace) : Prop where
  places : ∀ w, ks.timer.phase = .running w → ∀ delay, w.cursor + w.ticks delay % w.slots.size < 2 ^ 64
  locks : ∀ mode keys, ∃ stripes held, ks.locks.stripesOf keys = .ok stripes ∧
    ks.locks.acquire mode stripes = some held ∧ held.release ⟨mode, stripes⟩ = ks.locks

theorem roomy_afterAll {config : Config} {supply : Nat → Towers} {es : List Event}
    (h : Parallel ((new config supply).afterAll es) ks') (hslots : config.slots ≤ 2 ^ 63) :
    ((new config supply).afterAll es).Roomy := by
  have hframe := SameFrame.afterAll (sane_new config supply) es
  have hcount : ((new config supply).afterAll es).timer.slotCount ≤ 2 ^ 63 := by
    rw [hframe.slots]
    show max (max config.slots 1) 1 ≤ 2 ^ 63
    omega
  constructor
  · intro w hw delay
    exact h.timer.position_lt hcount hw delay
  · intro mode keys
    rw [hframe.locks]
    exact LockTable.acquire_empty _ mode keys

/-- Keyspaces of any sizes, if only their ticks are equally long, give the same answers, errors and
outcomes to the same events, and count as many keys and deadlines after each of them. The places on their
wheels can be worked out, and their locks taken, after any events. -/
theorem geometry_unseen (config config' : Config) (supply supply' : Nat → Towers) (es : List Event)
    (hinterval : config.interval = config'.interval) (hslots : config.slots ≤ 2 ^ 63)
    (hslots' : config'.slots ≤ 2 ^ 63) :
    (new config supply).history es = (new config' supply').history es ∧
      ((new config supply).afterAll es).Roomy ∧ ((new config' supply').afterAll es).Roomy := by
  obtain ⟨hhistory, -⟩ := (parallel_new hinterval supply supply').run es
  obtain ⟨-, hself⟩ := (parallel_new (rfl : config.interval = _) supply supply).run es
  obtain ⟨-, hself'⟩ := (parallel_new (rfl : config'.interval = _) supply' supply').run es
  exact ⟨hhistory, roomy_afterAll hself hslots, roomy_afterAll hself' hslots'⟩

/-- The smallest keyspace that there is, and one of the largest. -/
theorem geometry_unseen_sizes :
    let small : Config := ⟨0, 0, .ofMillis 10, 0, 0⟩
    let large : Config := ⟨10 ^ 9, 10 ^ 9, .ofMillis 10, 2 ^ 63, 10 ^ 9⟩
    let es := [.request 0 (.addMembers [1] [⟨.one, [2]⟩, ⟨.zero, [3]⟩] {}), .request 0 (.expireMillis [1] 25 .always),
      .start true, .tick 10, .request 20 (.range [1] 0 (-1)), .tick 20, .tick 30, .tick 40, .request 40 .size]
    small.interval = large.interval ∧ small.slots ≤ 2 ^ 63 ∧ large.slots ≤ 2 ^ 63 ∧
      (new small fun _ => ⟨fun _ => 1, 0⟩).history es = (new large Towers.seeded).history es ∧
      ((new small fun _ => ⟨fun _ => 1, 0⟩).afterAll es).Roomy ∧ ((new large Towers.seeded).afterAll es).Roomy := by
  intro small large es
  have hslots : small.slots ≤ 2 ^ 63 := by decide
  have hslots' : large.slots ≤ 2 ^ 63 := by decide
  exact ⟨rfl, hslots, hslots', geometry_unseen small large _ _ es rfl hslots hslots'⟩

end Keyspace

end KeyEngine
