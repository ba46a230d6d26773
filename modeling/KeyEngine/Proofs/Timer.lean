import KeyEngine.Proofs.Wheel
import KeyEngine.Timer

/-!
# The wheel behind a timer

A timer that has not been started yet keeps its commands in a queue. What counts is the wheel that they
lead to, so a timer is looked at through the wheel it runs or will run.
-/

namespace KeyEngine.Timer

section

variable {α : Type}

def settled (t : Timer α) : TimerPhase α :=
  match t.phase with
  | .waiting queue => queue.foldl obey (.running (.empty t.interval t.slotCount))
  | phase => phase

def wheelOf : TimerPhase α → Option (Wheel α)
  | .running w => some w
  | _ => none

def wheel? (t : Timer α) : Option (Wheel α) :=
  wheelOf t.settled

theorem settled_send (t : Timer α) (c : TimerCommand α) :
    (t.send c).settled = obey t.settled c := by
  unfold settled send
  cases hp : t.phase with
  | waiting queue =>
    simp only [obey]
    rw [List.foldl_append]
    rfl
  | running w => cases c <;> rfl
  | stopped => rfl

@[simp] theorem wheel?_add (t : Timer α) (delay : Duration) (key : Option Bytes) (payload : α) :
    (t.add delay key payload).wheel? = t.wheel?.map (·.add delay key payload) := by
  unfold wheel? add
  rw [settled_send]
  cases t.settled <;> rfl

@[simp] theorem wheel?_cancel (t : Timer α) (key : Bytes) :
    (t.cancel key).wheel? = t.wheel?.map fun w => (w.remove key).1 := by
  unfold wheel? cancel
  rw [settled_send]
  cases t.settled <;> rfl

@[simp] theorem wheel?_stop (t : Timer α) : t.stop.wheel? = none := by
  unfold wheel? stop
  rw [settled_send]
  cases t.settled <;> rfl

theorem foldl_obey_ne_waiting (cs : List (TimerCommand α)) {phase : TimerPhase α}
    (h : ∀ queue, phase ≠ .waiting queue) (queue : List (TimerCommand α)) :
    cs.foldl obey phase ≠ .waiting queue := by
  induction cs generalizing phase with
  | nil => exact h queue
  | cons c cs ih =>
    apply ih
    intro q
    cases phase with
    | waiting q' => exact absurd rfl (h q')
    | running w => cases c <;> simp [obey]
    | stopped => simp [obey]

/-- A start only carries out what the queue holds. -/
theorem wheel?_start {t t' : Timer α} {hasRuntime : Bool} (h : t.start hasRuntime = .ok t') :
    t'.wheel? = t.wheel? := by
  unfold start at h
  split at h
  · cases h
  · cases hp : t.phase with
    | waiting queue =>
      rw [hp] at h
      cases h
      unfold wheel? settled
      rw [hp]
      dsimp only
      split
      · rename_i q hq
        exact absurd hq (foldl_obey_ne_waiting queue (by simp) q)
      · rfl
    | running w =>
      rw [hp] at h
      cases h
    | stopped =>
      rw [hp] at h
      cases h

/-- A tick moves a wheel that runs, and nothing else. -/
theorem tick_cases (t : Timer α) :
    t.tick = (t, []) ∨
      ∃ w, t.wheel? = some w ∧ t.tick.1.wheel? = some w.tick.1 ∧
        t.tick.2 = w.tick.2.map (·.payload) := by
  cases hp : t.phase with
  | waiting queue =>
    left
    unfold tick
    rw [hp]
  | running w =>
    right
    refine ⟨w, ?_, ?_, ?_⟩
    · unfold wheel? settled
      rw [hp]
      rfl
    · unfold tick
      rw [hp]
      rfl
    · unfold tick
      rw [hp]
  | stopped =>
    left
    unfold tick
    rw [hp]

theorem wheel?_new (interval : Duration) (n : Nat) :
    (new interval n : Timer α).wheel? =
      some (.empty (interval.atLeast (.ofMillis 1)) (max n 1)) :=
  rfl

@[simp] theorem started_send (t : Timer α) (c : TimerCommand α) :
    (t.send c).started = t.started := by
  unfold started send
  cases t.phase with
  | waiting queue => rfl
  | running w => cases c <;> rfl
  | stopped => rfl

end

/-! ## Sound timers -/

def Sound (t : Timer Bytes) : Prop :=
  ∀ w, t.wheel? = some w → w.Sound

def books (t : Timer Bytes) (key : Bytes) : Bool :=
  t.wheel?.any (·.contains key)

variable {t t' : Timer Bytes}

theorem sound_new (interval : Duration) (n : Nat) : (new interval n : Timer Bytes).Sound := by
  intro w hw
  rw [wheel?_new] at hw
  cases hw
  exact Wheel.sound_empty _ (by omega)

theorem Sound.add (h : t.Sound) (delay : Duration) (key : Bytes) :
    (t.add delay (some key) key).Sound := by
  intro w hw
  rw [wheel?_add] at hw
  obtain ⟨v, hv, rfl⟩ := Option.map_eq_some_iff.mp hw
  exact (h v hv).add delay key

theorem Sound.cancel (h : t.Sound) (key : Bytes) : (t.cancel key).Sound := by
  intro w hw
  rw [wheel?_cancel] at hw
  obtain ⟨v, hv, rfl⟩ := Option.map_eq_some_iff.mp hw
  exact (h v hv).remove key

theorem Sound.tick (h : t.Sound) : t.tick.1.Sound := by
  intro w hw
  rcases t.tick_cases with he | ⟨v, hv, hv', -⟩
  · rw [he] at hw
    exact h w hw
  · rw [hv'] at hw
    cases hw
    exact (h v hv).tick

theorem books_new (interval : Duration) (n : Nat) (key : Bytes) :
    (new interval n : Timer Bytes).books key = false := by
  unfold books
  rw [wheel?_new]
  simp [Wheel.contains, Wheel.empty]

theorem books_congr (h : t.wheel? = t'.wheel?) (key : Bytes) : t.books key = t'.books key := by
  unfold books
  rw [h]

theorem books_cancel (t : Timer Bytes) (key other : Bytes) :
    (t.cancel key).books other = if key = other then false else t.books other := by
  unfold books
  rw [wheel?_cancel]
  cases t.wheel? with
  | none => simp
  | some w =>
    simp only [Option.map_some, Option.any_some, Wheel.contains,
      Std.HashMap.contains_eq_isSome_getElem?, Wheel.index_remove]
    by_cases h : key = other
    · simp [h]
    · simp [h]

theorem books_add (t : Timer Bytes) (delay : Duration) (key other : Bytes) :
    (t.add delay (some key) key).books other =
      if key = other then t.wheel?.isSome else t.books other := by
  unfold books
  rw [wheel?_add]
  cases t.wheel? with
  | none => simp
  | some w =>
    simp only [Option.map_some, Option.any_some, Wheel.contains,
      Std.HashMap.contains_eq_isSome_getElem?, Wheel.index_add]
    by_cases h : key = other
    · simp [h]
    · simp [h]

theorem books_of_cancel {key other : Bytes} (h : (t.cancel key).books other) :
    other ≠ key ∧ t.books other := by
  rw [books_cancel] at h
  split at h
  · cases h
  · rename_i hne
    exact ⟨Ne.symm hne, h⟩

theorem books_of_add {delay : Duration} {key other : Bytes}
    (h : (t.add delay (some key) key).books other) : other = key ∨ t.books other := by
  rw [books_add] at h
  split at h
  · rename_i he
    exact .inl he.symm
  · exact .inr h

theorem Sound.books_of_tick (h : t.Sound) {key : Bytes} (hb : t.tick.1.books key) :
    key ∉ t.tick.2 ∧ t.books key := by
  classical
  rcases t.tick_cases with he | ⟨w, hw, hw', hf⟩
  · rw [he] at hb ⊢
    exact ⟨List.not_mem_nil, hb⟩
  · unfold books at *
    rw [hw'] at hb
    simp only [hw, Option.any_some, Wheel.contains, Std.HashMap.contains_eq_isSome_getElem?] at hb ⊢
    rw [(h w hw).index_tick] at hb
    split at hb
    · cases hb
    · rename_i hnot
      refine ⟨?_, hb⟩
      rw [hf]
      simpa using hnot

/-- A task that has been fired is booked no more. -/
theorem Sound.books_fired (h : t.Sound) : ∀ key ∈ t.tick.2, t.tick.1.books key = false := by
  intro key hk
  by_contra hb
  exact (h.books_of_tick (eq_true_of_ne_false hb)).1 hk

/-! ### What a running timer books -/

/-- Some task in a slot carries the key. -/
def Waits (t : Timer Bytes) (key : Bytes) : Prop :=
  ∃ w, t.wheel? = some w ∧ ∃ s, ∃ x ∈ w.tasksAt s, x.2.key = some key

theorem Sound.books_iff (h : t.Sound) (key : Bytes) : t.books key ↔ t.Waits key := by
  unfold books Waits
  cases hw : t.wheel? with
  | none => simp
  | some w =>
    have hs := h w hw
    simp only [Option.any_some, Wheel.contains, Std.HashMap.contains_eq_isSome_getElem?,
      Option.some.injEq, exists_eq_left']
    constructor
    · intro hi
      obtain ⟨⟨s, n⟩, hi⟩ := Option.isSome_iff_exists.mp hi
      obtain ⟨task, ht, rfl⟩ := (hs.index_iff key s n).mp hi
      exact ⟨s, _, ht, hs.keyed s n task ht⟩
    · rintro ⟨s, ⟨n, task⟩, ht, hk⟩
      obtain rfl : task.payload = key := by simpa [hs.keyed s n task ht] using hk
      simp [hs.index_eq ht]

theorem Sound.books_tick (h : t.Sound) {key : Bytes} (hb : t.books key) :
    key ∈ t.tick.2 ∨ t.tick.1.books key := by
  classical
  rcases t.tick_cases with he | ⟨w, hw, hw', hf⟩
  · rw [he]
    exact .inr hb
  · unfold books at *
    rw [hw', hf]
    simp only [hw, Option.any_some, Wheel.contains, Std.HashMap.contains_eq_isSome_getElem?] at hb ⊢
    rw [(h w hw).index_tick]
    by_cases hk : ∃ task ∈ w.tick.2, task.payload = key
    · left
      simpa using hk
    · right
      simpa [hk] using hb

theorem isSome_wheel?_tick (hw : t.wheel?.isSome) : t.tick.1.wheel?.isSome := by
  rcases t.tick_cases with he | ⟨w, -, hw', -⟩
  · rwa [he]
  · simp [hw']

/-! ## Timers that agree on some keys -/

variable {L L' : Bytes → Bool}

structure Agree (L : Bytes → Bool) (t t' : Timer Bytes) : Prop where
  interval : t.interval = t'.interval
  slotCount : t.slotCount = t'.slotCount
  started : t.started = t'.started
  wheels : Option.Rel (Wheel.Agree L) t.wheel? t'.wheel?

theorem Agree.refl (L : Bytes → Bool) (t : Timer Bytes) : t.Agree L t := by
  refine ⟨rfl, rfl, rfl, ?_⟩
  cases t.wheel? with
  | none => exact .none
  | some w => exact .some (.refl L w)

theorem Agree.wheel_cases (h : t.Agree L t') :
    (t.wheel? = none ∧ t'.wheel? = none) ∨
      ∃ w w', t.wheel? = some w ∧ t'.wheel? = some w' ∧ w.Agree L w' := by
  have hr := h.wheels
  generalize t.wheel? = o at hr ⊢
  generalize t'.wheel? = o' at hr ⊢
  cases hr with
  | none => exact .inl ⟨rfl, rfl⟩
  | some hr => exact .inr ⟨_, _, rfl, rfl, hr⟩

theorem Agree.symm (h : t.Agree L t') : t'.Agree L t := by
  refine ⟨h.interval.symm, h.slotCount.symm, h.started.symm, ?_⟩
  rcases h.wheel_cases with ⟨hw, hw'⟩ | ⟨w, w', hw, hw', hr⟩
  · rw [hw, hw']
    exact .none
  · rw [hw, hw']
    exact .some hr.symm

theorem Agree.trans {t'' : Timer Bytes} (h : t.Agree L t') (h' : t'.Agree L t'') :
    t.Agree L t'' := by
  refine ⟨h.interval.trans h'.interval, h.slotCount.trans h'.slotCount,
    h.started.trans h'.started, ?_⟩
  rcases h.wheel_cases with ⟨hw, hw'⟩ | ⟨w, w', hw, hw', hr⟩
  · rcases h'.wheel_cases with ⟨-, hv⟩ | ⟨u, -, hu, -⟩
    · rw [hw, hv]
      exact .none
    · rw [hw'] at hu
      cases hu
  · rcases h'.wheel_cases with ⟨hu, -⟩ | ⟨u, v, hu, hv, hr'⟩
    · rw [hw'] at hu
      cases hu
    · rw [hw'] at hu
      cases hu
      rw [hw, hv]
      exact .some (hr.trans hr')

theorem Agree.mono (h : t.Agree L t') (hL : ∀ k, L' k = true → L k = true) : t.Agree L' t' := by
  refine ⟨h.interval, h.slotCount, h.started, ?_⟩
  rcases h.wheel_cases with ⟨hw, hw'⟩ | ⟨w, w', hw, hw', hr⟩
  · rw [hw, hw']
    exact .none
  · rw [hw, hw']
    exact .some (hr.mono hL)

theorem Agree.cancel_left (h : t.Agree L t') (ht : t.Sound) {key : Bytes} (hk : L key = false) :
    (t.cancel key).Agree L t' := by
  refine ⟨h.interval, h.slotCount, ?_, ?_⟩
  · exact (started_send t _).trans h.started
  · rw [wheel?_cancel]
    rcases h.wheel_cases with ⟨hw, hw'⟩ | ⟨w, w', hw, hw', hr⟩
    · rw [hw, hw']
      exact .none
    · rw [hw, hw']
      exact .some (hr.remove_left (ht w hw) hk)

theorem Agree.add (h : t.Agree L t') (ht : t.Sound) (ht' : t'.Sound) {key : Bytes}
    (hL : ∀ k, k ≠ key → L' k = true → L k = true) (delay : Duration) :
    (t.add delay (some key) key).Agree L' (t'.add delay (some key) key) := by
  refine ⟨h.interval, h.slotCount, ?_, ?_⟩
  · exact (started_send t _).trans (h.started.trans (started_send t' _).symm)
  · rw [wheel?_add, wheel?_add]
    rcases h.wheel_cases with ⟨hw, hw'⟩ | ⟨w, w', hw, hw', hr⟩
    · rw [hw, hw']
      exact .none
    · rw [hw, hw']
      exact .some (hr.add (ht w hw) (ht' w' hw') hL delay)

structure Alike (t t' : Timer Bytes) : Prop where
  interval : t.interval = t'.interval
  slotCount : t.slotCount = t'.slotCount
  started : t.started = t'.started
  wheels : Option.Rel Wheel.Alike t.wheel? t'.wheel?

theorem Agree.alike (h : t.Agree L t') (ht : t.Sound) (ht' : t'.Sound)
    (hL : ∀ key, t.books key → L key = true) (hL' : ∀ key, t'.books key → L key = true) :
    t.Alike t' := by
  refine ⟨h.interval, h.slotCount, h.started, ?_⟩
  unfold books at hL hL'
  rcases h.wheel_cases with ⟨hw, hw'⟩ | ⟨w, w', hw, hw', hr⟩
  · rw [hw, hw']
    exact .none
  · rw [hw] at hL
    rw [hw'] at hL'
    rw [hw, hw']
    exact .some (hr.alike (ht w hw) (ht' w' hw') hL hL')

end KeyEngine.Timer
