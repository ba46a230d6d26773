import KeyEngine.Proofs.Dealing
import KeyEngine.Proofs.Timer

/-!
# The life of a timer

A timer waits, runs and is stopped, and the same calls mean something else in each phase. What it answers
to any call can be told from the calls before it alone: which commands were sent, in which order, how many
ticks there were since the first start, and whether a stop is among them.
-/

namespace KeyEngine

inductive TimerStep (α : Type) where
  | start (hasRuntime : Bool)
  | send (c : TimerCommand α)
  | tick

inductive TimerAnswer (α : Type) where
  | started (failure : Option Error)
  | sent
  | ran (names : List α) (log : List String)
deriving DecidableEq

/-! ## Running jobs -/

namespace Job

variable {α : Type}

theorem run_dispatch (job : Job α) (t : Trace α) :
    job.dispatch.run t =
      ((), ⟨t.names ++ [job.name], t.log ++ (job.failure.map Failure.reason).toList⟩) := by
  obtain ⟨name, failure⟩ := job
  cases failure with
  | none =>
    show ((), (⟨t.names ++ [name], t.log⟩ : Trace α)) = _
    simp
  | some failure => rfl

theorem run_forM_dispatch (jobs : List (Job α)) (t : Trace α) :
    (jobs.forM dispatch).run t =
      ((), ⟨t.names ++ jobs.map (·.name), t.log ++ jobs.filterMap (·.failure.map Failure.reason)⟩) := by
  induction jobs generalizing t with
  | nil =>
    show ((), t) = _
    simp
  | cons job jobs ih =>
    show (jobs.forM dispatch).run (job.dispatch.run t).2 = _
    rw [run_dispatch, ih]
    cases hf : job.failure <;> simp [hf]

/-- Every job records its name, those after one that fails as well. -/
theorem run_eq (jobs : List (Job α)) :
    run jobs = (jobs.map (·.name), jobs.filterMap (·.failure.map Failure.reason)) := by
  unfold run
  rw [run_forM_dispatch]
  simp

end Job

/-! ## What a history owes -/

namespace TimerStep

variable {α β : Type}

/-- Whether it is a start where there is a runtime. -/
def isStart : TimerStep α → Bool
  | .start hasRuntime => hasRuntime
  | _ => false

def isStop : TimerStep α → Bool
  | .send .stop => true
  | _ => false

/-- What the wheel goes through: the commands in their order, and the ticks since the start. -/
def driven : Bool → List (TimerStep α) → List (WheelStep α)
  | _, [] => []
  | started, .start hasRuntime :: past => driven (started || hasRuntime) past
  | started, .send (.add delay key payload) :: past => .add delay key payload :: driven started past
  | started, .send (.cancel key) :: past => .remove key :: driven started past
  | started, .send .stop :: past => driven started past
  | true, .tick :: past => .tick :: driven true past
  | false, .tick :: past => driven false past

/-- What fires if a tick comes next. -/
def due (interval : Duration) (past : List (TimerStep α)) : List α :=
  if past.any isStart && !past.any isStop then
    (WheelStep.bookedFor interval (WheelStep.ticksIn (driven false past) + 1) 0 (driven false past)).map Prod.snd
  else []

/-- Whether the key is booked for some tick to come. -/
def Books (interval : Duration) (past : List (TimerStep α)) (key : Bytes) : Prop :=
  past.any isStop = false ∧ ∃ tick, WheelStep.ticksIn (driven false past) < tick ∧
    some key ∈ (WheelStep.bookedFor interval tick 0 (driven false past)).map Prod.fst

/-- The answer to the next step. -/
def owed (interval : Duration) (past : List (TimerStep (Job α))) : TimerStep (Job α) → TimerAnswer α
  | .start false => .started (some .noRuntime)
  | .start true => .started (if past.any isStart then some .timerAlreadyStarted else none)
  | .send _ => .sent
  | .tick => .ran ((due interval past).map (·.name)) ((due interval past).filterMap (·.failure.map Failure.reason))

theorem driven_append (started : Bool) (past : List (TimerStep α)) (x : TimerStep α) :
    driven started (past ++ [x]) = driven started past ++ driven (started || past.any isStart) [x] := by
  induction past generalizing started with
  | nil => simp [driven]
  | cons y past ih =>
    cases y with
    | start hasRuntime => simp [driven, ih, isStart, Bool.or_assoc]
    | send c => cases c <;> simp [driven, ih, isStart]
    | tick => cases started <;> simp [driven, ih, isStart]

end TimerStep

/-! ## What a history does -/

namespace Timer

open TimerStep

variable {α : Type}

def step (t : Timer (Job α)) : TimerStep (Job α) → Timer (Job α) × TimerAnswer α
  | .start hasRuntime =>
    match t.start hasRuntime with
    | .ok t' => (t', .started none)
    | .error failure => (t, .started (some failure))
  | .send c => (t.send c, .sent)
  | .tick =>
    let (t, jobs) := t.tick
    let (names, log) := Job.run jobs
    (t, .ran names log)

def after (t : Timer (Job α)) (past : List (TimerStep (Job α))) : Timer (Job α) :=
  past.foldl (fun t x => (t.step x).1) t

theorem after_append (t : Timer (Job α)) (past later : List (TimerStep (Job α))) :
    t.after (past ++ later) = (t.after past).after later :=
  List.foldl_append

theorem settled_of_started {t : Timer α} (h : t.started = true) : t.settled = t.phase := by
  unfold started at h
  unfold settled
  cases hp : t.phase with
  | waiting queue => simp [hp] at h
  | running w => rfl
  | stopped => rfl

theorem start_of_started {t : Timer α} (h : t.started = true) :
    t.start true = .error .timerAlreadyStarted := by
  unfold started at h
  unfold start
  cases hp : t.phase with
  | waiting queue => simp [hp] at h
  | running w => rfl
  | stopped => rfl

theorem start_of_waiting {t : Timer α} (h : t.started = false) :
    t.start true = .ok { t with phase := t.settled } := by
  unfold started at h
  unfold start settled
  cases hp : t.phase with
  | waiting queue => rfl
  | running w => simp [hp] at h
  | stopped => simp [hp] at h

/-- What a timer is after these steps. As long as it waits, its queue leads to the phase that it will have. -/
structure Past (interval : Duration) (slotCount : Nat) (past : List (TimerStep α)) (t : Timer α) : Prop where
  pace : t.interval = interval
  slots : t.slotCount = slotCount
  started : t.started = past.any isStart
  settled : t.settled = if past.any isStop then .stopped else
    .running (perform Wheel.step (.empty interval slotCount) (driven false past)).1

variable {interval : Duration} {slotCount : Nat} {past : List (TimerStep α)} {t : Timer α} {x : TimerStep α}

theorem past_new (interval : Duration) (n : Nat) :
    Past (interval.atLeast (.ofMillis 1)) (max n 1) [] (new interval n : Timer α) where
  pace := rfl
  slots := rfl
  started := rfl
  settled := rfl

/-- A step that the timer does not answer by a change. -/
theorem Past.idle (h : Past interval slotCount past t) (hstart : x.isStart = true → t.started = true)
    (hstop : x.isStop = false) (hdriven : driven t.started [x] = []) :
    Past interval slotCount (past ++ [x]) t where
  pace := h.pace
  slots := h.slots
  started := by
    rw [List.any_append, ← h.started]
    cases hx : x.isStart with
    | false => simp [hx]
    | true => simp [hx, hstart hx]
  settled := by
    rw [driven_append, Bool.false_or, ← h.started, hdriven, List.append_nil, h.settled]
    simp [hstop]

theorem Past.send (h : Past interval slotCount past t) (c : TimerCommand α) :
    Past interval slotCount (past ++ [.send c]) (t.send c) where
  pace := h.pace
  slots := h.slots
  started := by
    rw [started_send, h.started]
    simp [isStart]
  settled := by
    rw [settled_send, h.settled, driven_append, perform_append, List.any_append]
    by_cases hstop : past.any isStop
    · simp [hstop, obey]
    · cases c <;> simp [hstop, obey, isStop, driven, perform, Wheel.step]

theorem Past.begin (h : Past interval slotCount past t) :
    Past interval slotCount (past ++ [.start true]) { t with phase := t.settled } where
  pace := h.pace
  slots := h.slots
  started := by
    rw [h.settled]
    by_cases hstop : past.any isStop <;> simp [hstop, Timer.started, isStart]
  settled := by
    have hsame : ({ t with phase := t.settled } : Timer α).settled = t.settled := by
      rw [h.settled]
      by_cases hstop : past.any isStop <;> simp [hstop, Timer.settled]
    rw [hsame, h.settled, driven_append]
    simp [driven, isStop]

theorem tick_of_running {w : Wheel α} (h : t.phase = .running w) :
    t.tick = ({ t with phase := .running w.tick.1 }, w.tick.2.map (·.payload)) := by
  unfold Timer.tick
  rw [h]

theorem tick_of_idle (h : ∀ w, t.phase ≠ .running w) : t.tick = (t, []) := by
  unfold Timer.tick
  split
  · rename_i w hw
    exact absurd hw (h w)
  · rfl

/-- The wheel turns from the start until a stop. -/
theorem Past.running_iff (h : Past interval slotCount past t) (w : Wheel α) :
    t.phase = .running w ↔ past.any isStart = true ∧ past.any isStop = false ∧
      w = (perform Wheel.step (.empty interval slotCount) (driven false past)).1 := by
  rw [← h.started]
  by_cases ht : t.started
  · rw [← settled_of_started ht, h.settled]
    by_cases hstop : past.any isStop
    · simp [hstop]
    · simp [hstop, ht, eq_comm]
  · have hw : t.phase ≠ .running w := by
      intro hw
      simp [Timer.started, hw] at ht
    simp [hw, ht]

theorem Past.tick_running (h : Past interval slotCount past t) (hn : 0 < slotCount)
    (hstart : past.any isStart = true) (hstop : past.any isStop = false) :
    Past interval slotCount (past ++ [.tick]) t.tick.1 ∧ t.tick.2 = due interval past := by
  have hw := (h.running_iff _).mpr ⟨hstart, hstop, rfl⟩
  rw [tick_of_running hw]
  refine ⟨⟨h.pace, h.slots, ?_, ?_⟩, ?_⟩
  · simp [Timer.started, hstart]
  · rw [driven_append, perform_append, List.any_append]
    simp [Timer.settled, hstart, hstop, isStop, driven, perform, Wheel.step]
  · have hfired := Wheel.fired_perform interval hn (driven false past)
    unfold due
    rw [hstart, hstop, ← hfired]
    simp

theorem Past.tick (h : Past interval slotCount past t) (hn : 0 < slotCount) :
    Past interval slotCount (past ++ [.tick]) t.tick.1 ∧ t.tick.2 = due interval past := by
  by_cases hruns : past.any isStart = true ∧ past.any isStop = false
  · exact h.tick_running hn hruns.1 hruns.2
  · have hidle : ∀ w, t.phase ≠ .running w := by
      intro w hw
      obtain ⟨hstart, hstop, -⟩ := (h.running_iff w).mp hw
      exact hruns ⟨hstart, hstop⟩
    rw [tick_of_idle hidle]
    by_cases hstart : past.any isStart
    · have hstop : past.any isStop = true := by simpa [hstart] using hruns
      refine ⟨⟨h.pace, h.slots, ?_, ?_⟩, ?_⟩
      · simp [h.started, hstart]
      · simp [h.settled, hstop]
      · simp [due, hstop]
    · refine ⟨h.idle (by simp [isStart]) rfl ?_, by simp [due, hstart]⟩
      rw [h.started]
      simp [hstart, driven]

/-- Every step is answered as the steps before it demand. -/
theorem Past.step {past : List (TimerStep (Job α))} {t : Timer (Job α)} (h : Past interval slotCount past t)
    (hn : 0 < slotCount) (x : TimerStep (Job α)) :
    Past interval slotCount (past ++ [x]) (t.step x).1 ∧ (t.step x).2 = owed interval past x := by
  cases x with
  | start hasRuntime =>
    cases hasRuntime with
    | false =>
      refine ⟨h.idle (by simp [isStart]) rfl ?_, rfl⟩
      simp [driven]
    | true =>
      by_cases ht : t.started
      · simp only [Timer.step, start_of_started ht, owed, ← h.started, ht]
        refine ⟨h.idle (fun _ => ht) rfl ?_, rfl⟩
        simp [driven]
      · have hwaits : t.started = false := by simpa using ht
        simp only [Timer.step, start_of_waiting hwaits, owed, ← h.started, hwaits]
        exact ⟨h.begin, rfl⟩
  | send c => exact ⟨h.send c, rfl⟩
  | tick =>
    obtain ⟨hpast, hdue⟩ := h.tick hn
    simp only [Timer.step, Job.run_eq, hdue]
    exact ⟨hpast, rfl⟩

theorem past_after (interval : Duration) (n : Nat) (past : List (TimerStep (Job α))) :
    Past (interval.atLeast (.ofMillis 1)) (max n 1) past ((new interval n).after past) := by
  induction past using List.reverseRecOn with
  | nil => exact past_new interval n
  | append_singleton past x ih =>
    rw [after_append]
    exact (ih.step (by omega) x).1

theorem Past.isScheduled (h : Past interval slotCount past t) (hn : 0 < slotCount) (key : Bytes) :
    (past.any isStart = false → t.isScheduled key = none) ∧
      (past.any isStart = true → ∃ b, t.isScheduled key = some b ∧ (b = true ↔ Books interval past key)) := by
  constructor
  · intro hstart
    have ht := h.started
    unfold Timer.isScheduled
    cases hp : t.phase with
    | waiting queue => rfl
    | running w => simp [Timer.started, hp, hstart] at ht
    | stopped => simp [Timer.started, hp, hstart] at ht
  · intro hstart
    have hphase := settled_of_started (h.started.trans hstart)
    rw [h.settled] at hphase
    unfold Timer.isScheduled Books
    rw [← hphase]
    by_cases hstop : past.any isStop
    · exact ⟨false, by simp [hstop]⟩
    · simp only [hstop]
      exact ⟨_, rfl, by simp [Wheel.contains_perform interval hn]⟩

theorem Past.stopped (h : Past interval slotCount past t) (hstart : past.any isStart = true)
    (hstop : past.any isStop = true) : t.phase = .stopped := by
  rw [← settled_of_started (h.started.trans hstart), h.settled, if_pos hstop]

theorem after_of_stopped {t : Timer (Job α)} (h : t.phase = .stopped) (later : List (TimerStep (Job α))) :
    t.after later = t := by
  have hstep : ∀ x, (t.step x).1 = t := by
    intro x
    have ht : t = ⟨t.interval, t.slotCount, .stopped⟩ := by
      rw [← h]
    rw [ht]
    cases x with
    | start hasRuntime => cases hasRuntime <;> rfl
    | send c => rfl
    | tick => rfl
  induction later with
  | nil => rfl
  | cons x later ih =>
    show (t.step x).1.after later = t
    rw [hstep, ih]

end Timer

/-! ## Jobs by their names -/

section

variable {α β : Type}

def TimerCommand.map (f : α → β) : TimerCommand α → TimerCommand β
  | .add delay key payload => .add delay key (f payload)
  | .cancel key => .cancel key
  | .stop => .stop

def TimerStep.map (f : α → β) : TimerStep α → TimerStep β
  | .start hasRuntime => .start hasRuntime
  | .send c => .send (c.map f)
  | .tick => .tick

/-- The answer without what has been logged. -/
def TimerAnswer.quiet : TimerAnswer α → TimerAnswer α
  | .ran names _ => .ran names []
  | answer => answer

namespace TimerStep

theorem isStart_map (f : α → β) (x : TimerStep α) : (x.map f).isStart = x.isStart := by
  cases x <;> rfl

theorem isStop_map (f : α → β) (x : TimerStep α) : (x.map f).isStop = x.isStop := by
  cases x with
  | send c => cases c <;> rfl
  | _ => rfl

theorem any_map {p : TimerStep α → Bool} {q : TimerStep β → Bool} {f : α → β} (h : ∀ x, q (map f x) = p x)
    (past : List (TimerStep α)) : (past.map (map f)).any q = past.any p := by
  rw [List.any_map]
  congr 1
  funext x
  exact h x

theorem driven_map (f : α → β) (started : Bool) (past : List (TimerStep α)) :
    driven started (past.map (map f)) = (driven started past).map (WheelStep.map f) := by
  induction past generalizing started with
  | nil => rfl
  | cons x past ih =>
    cases x with
    | start hasRuntime => exact ih _
    | send c => cases c <;> simp [driven, map, TimerCommand.map, WheelStep.map, ih]
    | tick => cases started <;> simp [driven, map, WheelStep.map, ih]

theorem due_map (interval : Duration) (f : α → β) (past : List (TimerStep α)) :
    due interval (past.map (map f)) = (due interval past).map f := by
  unfold due
  rw [any_map (isStart_map f), any_map (isStop_map f), driven_map, WheelStep.ticksIn_map, WheelStep.bookedFor_map]
  split
  · simp
  · rfl

theorem books_map (interval : Duration) (f : α → β) (past : List (TimerStep α)) (key : Bytes) :
    Books interval (past.map (map f)) key ↔ Books interval past key := by
  unfold Books
  simp only [any_map (isStop_map f), driven_map, WheelStep.ticksIn_map, WheelStep.bookedFor_map, List.map_map]
  rfl

theorem any_isStart_congr (f : α → β) {past past' : List (TimerStep α)}
    (h : past'.map (map f) = past.map (map f)) : past'.any isStart = past.any isStart := by
  rw [← any_map (isStart_map f), h, any_map (isStart_map f)]

/-- Which jobs run does not depend on which of them fail. -/
theorem quiet_owed (interval : Duration) {past past' : List (TimerStep (Job α))} {x x' : TimerStep (Job α)}
    (hpast : past'.map (map Job.name) = past.map (map Job.name)) (hx : x'.map Job.name = x.map Job.name) :
    (owed interval past' x').quiet = (owed interval past x).quiet := by
  have hstart := any_isStart_congr Job.name hpast
  have hnames : (due interval past').map Job.name = (due interval past).map Job.name := by
    rw [← due_map, hpast, due_map]
  cases x with
  | start hasRuntime =>
    cases x' with
    | start hasRuntime' =>
      cases hx
      cases hasRuntime with
      | false => rfl
      | true => simp only [owed, hstart]
    | _ => cases hx
  | send c =>
    cases x' with
    | send c' => rfl
    | _ => cases hx
  | tick =>
    cases x' with
    | tick => simp only [owed, TimerAnswer.quiet, hnames]
    | _ => cases hx

end TimerStep

end

/-! ## Lives -/

namespace Timer

open TimerStep

theorem Past.isScheduled_congr {α β : Type} {interval : Duration} {slotCount : Nat}
    {past past' : List (TimerStep α)} {t t' : Timer α} (h : Past interval slotCount past t)
    (h' : Past interval slotCount past' t') (hn : 0 < slotCount) (f : α → β)
    (hpast : past'.map (map f) = past.map (map f)) (key : Bytes) : t'.isScheduled key = t.isScheduled key := by
  have hstart := any_isStart_congr f hpast
  by_cases hs : past.any isStart
  · obtain ⟨b, hb, hiff⟩ := (h.isScheduled hn key).2 hs
    obtain ⟨b', hb', hiff'⟩ := (h'.isScheduled hn key).2 (hstart.trans hs)
    have hsame : b' = true ↔ b = true := by
      rw [hiff, hiff', ← books_map interval f, hpast, books_map]
    rw [hb, hb', Bool.eq_iff_iff.mpr hsame]
  · have hnot : past.any isStart = false := by simpa using hs
    rw [(h.isScheduled hn key).1 hnot, (h'.isScheduled hn key).1 (hstart.trans hnot)]

/-- What a timer answers can be told from the steps before. Commands count in the order in which they were
sent, with the ticks since the start; only the first start where there is a runtime succeeds, and one
without a runtime leaves no trace. Once a timer is started and stopped, in whichever order, nothing changes
it and nothing fires. Jobs that fail change nothing but the log. -/
theorem steps_answered {α : Type} (interval : Duration) (slotCount : Nat) (past : List (TimerStep (Job α))) :
    let pace := interval.atLeast (.ofMillis 1)
    let t := (new interval slotCount : Timer (Job α)).after past
    (∀ x, (t.step x).2 = owed pace past x) ∧
    (∀ key, (past.any isStart = false → t.isScheduled key = none) ∧
      (past.any isStart = true → ∃ b, t.isScheduled key = some b ∧ (b = true ↔ Books pace past key))) ∧
    (∀ later, (new interval slotCount).after (past ++ .start false :: later) =
      (new interval slotCount).after (past ++ later)) ∧
    (past.any isStart = true → past.any isStop = true → ∀ later,
      t.after later = t ∧ (t.step .tick).2 = .ran [] [] ∧ ∀ key, t.isScheduled key = some false) ∧
    ∀ past' x x', past'.map (map Job.name) = past.map (map Job.name) → x'.map Job.name = x.map Job.name →
      let t' := (new interval slotCount : Timer (Job α)).after past'
      (t'.step x').2.quiet = (t.step x).2.quiet ∧ ∀ key, t'.isScheduled key = t.isScheduled key := by
  intro pace t
  have hn : 0 < max slotCount 1 := by omega
  have ht := past_after interval slotCount past
  refine ⟨fun x => (ht.step hn x).2, fun key => ht.isScheduled hn key, ?_, ?_, ?_⟩
  · intro later
    rw [after_append, after_append]
    rfl
  · intro hstart hstop later
    have hphase := ht.stopped hstart hstop
    refine ⟨after_of_stopped hphase later, ?_, ?_⟩
    · rw [(ht.step hn .tick).2]
      simp [owed, due, hstop]
    · intro key
      unfold isScheduled
      rw [hphase]
  · intro past' x x' hpast hx t'
    have ht' := past_after interval slotCount past'
    constructor
    · rw [(ht.step hn x).2, (ht'.step hn x').2]
      exact quiet_owed pace hpast hx
    · exact ht.isScheduled_congr ht' hn Job.name hpast

/-- A job booked before the start fires at the third tick after it, and fails; a timer stopped before its
start never fires. -/
theorem steps_answered_queue :
    let queue (failure : Option Failure) : List (TimerStep (Job Nat)) :=
      [.send (.add (.ofMillis 15) (some [1]) ⟨10, failure⟩), .tick, .start false]
    let past (failure : Option Failure) := queue failure ++ [.start true, .tick, .tick]
    let dead : List (TimerStep (Job Nat)) := [.send .stop] ++ queue none ++ [.start true]
    let new : Timer (Job Nat) := new (.ofMillis 10) 4
    (new.after (queue none)).isScheduled [1] = none ∧
      (new.after (past (some .wordless))).isScheduled [1] = some true ∧
      ((new.after (past (some .wordless))).step .tick).2 = .ran [10] ["unknown panic"] ∧
      ((new.after (past none)).step .tick).2.quiet = .ran [10] [] ∧
      ((new.after dead).step (.start true)).2 = .started (some .timerAlreadyStarted) ∧
      (new.after dead).after (queue none) = new.after dead ∧ (new.after dead).isScheduled [1] = some false := by
  intro queue past dead new
  obtain ⟨-, hwaits, -, -, -⟩ := steps_answered (.ofMillis 10) 4 (queue none)
  obtain ⟨hruns, hbooks, -, -, hquiet⟩ := steps_answered (.ofMillis 10) 4 (past (some .wordless))
  obtain ⟨hdead, -, -, hstopped, -⟩ := steps_answered (.ofMillis 10) 4 dead
  have hran : ((new.after (past (some .wordless))).step .tick).2 = .ran [10] ["unknown panic"] :=
    (hruns .tick).trans (by decide)
  obtain ⟨b, hb, hiff⟩ := (hbooks [1]).2 (by decide)
  have hbooked : b = true := hiff.mpr ⟨by decide, 3, by decide, by decide⟩
  obtain ⟨hsame, -, hfalse⟩ := hstopped (by decide) (by decide) (queue none)
  refine ⟨(hwaits [1]).1 (by decide), hbooked ▸ hb, hran, ?_, (hdead (.start true)).trans (by decide), hsame, hfalse [1]⟩
  have hnames := (hquiet (past none) .tick .tick rfl rfl).1
  exact hnames.trans (congrArg TimerAnswer.quiet hran)

end Timer

end KeyEngine
