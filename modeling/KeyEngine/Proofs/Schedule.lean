import KeyEngine.Wheel
import Mathlib.Algebra.Order.Floor.Div

/-!
# Schedule

A schedule is a plain table of bookings, each for a tick counted from the start. It says what a wheel owes
to those who book tasks on it, without slots and laps. After a history of steps, the tasks booked for a tick
to come are those that the history added for it and took off by nothing later.
-/

namespace KeyEngine

structure Booking (α : Type) where
  /-- The tick at which the task fires; the first tick has number one. -/
  tick : Nat
  key : Option Bytes
  payload : α

namespace Booking

variable {α : Type}

def isUnder (key : Bytes) (b : Booking α) : Bool :=
  b.key = some key

def task (b : Booking α) : Option Bytes × α :=
  (b.key, b.payload)

end Booking

structure Schedule (α : Type) where
  /-- The number of ticks so far. -/
  passed : Nat
  /-- The bookings in the order in which they were made. -/
  bookings : List (Booking α)

namespace Schedule

variable {α : Type}

def empty : Schedule α := ⟨0, []⟩

/-- The ticks that a delay takes, as far as a word can count them. -/
def wait (interval delay : Duration) : Nat :=
  min (delay.nanos ⌈/⌉ interval.nanos) wordMax

def contains (s : Schedule α) (key : Bytes) : Bool :=
  s.bookings.any (·.isUnder key)

def pending (s : Schedule α) : Nat :=
  s.bookings.length

/-- Drops the booking under the key, and answers whether there was one. -/
def remove (s : Schedule α) (key : Bytes) : Schedule α × Bool :=
  ({ s with bookings := s.bookings.filter (!·.isUnder key) }, s.contains key)

def add (interval : Duration) (s : Schedule α) (delay : Duration) (key : Option Bytes) (payload : α) :
    Schedule α :=
  let s := match key with
    | some k => (s.remove k).1
    | none => s
  { s with bookings := s.bookings ++ [⟨s.passed + wait interval delay + 1, key, payload⟩] }

/-- Fires what is booked for the next tick, and drops it. -/
def tick (s : Schedule α) : Schedule α × List (Booking α) :=
  ({ passed := s.passed + 1, bookings := s.bookings.filter (·.tick ≠ s.passed + 1) },
    s.bookings.filter (·.tick = s.passed + 1))

end Schedule

/-! ## Histories -/

inductive WheelStep (α : Type) where
  | add (delay : Duration) (key : Option Bytes) (payload : α)
  | remove (key : Bytes)
  | tick

inductive WheelAnswer (α : Type) where
  | booked
  | removed (found : Bool)
  | fired (tasks : List (Option Bytes × α))
deriving DecidableEq

section

variable {α σ : Type}

/-- The state after a history of steps, and the answer to each of them. -/
def perform (step : σ → WheelStep α → σ × WheelAnswer α) (s : σ) :
    List (WheelStep α) → σ × List (WheelAnswer α)
  | [] => (s, [])
  | x :: xs =>
    let (s, answer) := step s x
    let (s, answers) := perform step s xs
    (s, answer :: answers)

theorem perform_append (step : σ → WheelStep α → σ × WheelAnswer α) (s : σ) (xs ys : List (WheelStep α)) :
    (perform step s (xs ++ ys)).1 = (perform step (perform step s xs).1 ys).1 := by
  induction xs generalizing s with
  | nil => rfl
  | cons x xs ih => exact ih (step s x).1

def Schedule.step (interval : Duration) (s : Schedule α) : WheelStep α → Schedule α × WheelAnswer α
  | .add delay key payload => (s.add interval delay key payload, .booked)
  | .remove key => ((s.remove key).1, .removed (s.remove key).2)
  | .tick => (s.tick.1, .fired (s.tick.2.map Booking.task))

namespace WheelStep

/-- Whether the step takes off a task that waits under the key. -/
def clears (key : Option Bytes) : WheelStep α → Bool
  | .add _ k _ => k.isSome && k = key
  | .remove k => key = some k
  | .tick => false

def ticksIn (steps : List (WheelStep α)) : Nat :=
  steps.countP fun
    | .tick => true
    | _ => false

/-- Of the tasks that a history adds, those that are booked for tick `n` and that nothing later in the
history takes off. Before the history there were `passed` ticks. -/
def bookedFor (interval : Duration) (n : Nat) : Nat → List (WheelStep α) → List (Option Bytes × α)
  | _, [] => []
  | passed, .add delay key payload :: steps =>
    if passed + Schedule.wait interval delay + 1 = n ∧ ¬ steps.any (·.clears key) then
      (key, payload) :: bookedFor interval n passed steps
    else bookedFor interval n passed steps
  | passed, .remove _ :: steps => bookedFor interval n passed steps
  | passed, .tick :: steps => bookedFor interval n (passed + 1) steps

end WheelStep

end

/-! ## What a history leaves booked -/

section

variable {α : Type}

open WheelStep

theorem Schedule.passed_step (interval : Duration) (s : Schedule α) (x : WheelStep α) :
    (s.step interval x).1.passed = s.passed + ticksIn [x] := by
  cases x with
  | add delay key payload => cases key <;> rfl
  | remove key => rfl
  | tick => rfl

theorem ticksIn_cons (x : WheelStep α) (steps : List (WheelStep α)) :
    ticksIn (x :: steps) = ticksIn [x] + ticksIn steps := by
  unfold ticksIn
  rw [← List.singleton_append, List.countP_append]

theorem Schedule.passed_perform (interval : Duration) (s : Schedule α) (steps : List (WheelStep α)) :
    (perform (Schedule.step interval) s steps).1.passed = s.passed + ticksIn steps := by
  induction steps generalizing s with
  | nil => rfl
  | cons x steps ih =>
    show (perform _ (s.step interval x).1 steps).1.passed = _
    rw [ih, s.passed_step, ticksIn_cons x steps, Nat.add_assoc]

theorem Schedule.bookings_add (interval : Duration) (s : Schedule α) (delay : Duration)
    (key : Option Bytes) (payload : α) :
    (s.add interval delay key payload).bookings =
      s.bookings.filter (fun b => !(WheelStep.add delay key payload).clears b.key) ++
        [⟨s.passed + wait interval delay + 1, key, payload⟩] := by
  cases key with
  | none =>
    show s.bookings ++ _ = s.bookings.filter (fun _ => true) ++ _
    rw [List.filter_true]
  | some k =>
    show s.bookings.filter _ ++ _ = _
    congr 2
    funext b
    simp [Booking.isUnder, clears, eq_comm]

theorem bookedFor_add (interval : Duration) (n passed : Nat) (delay : Duration) (key : Option Bytes)
    (payload : α) (steps : List (WheelStep α)) :
    bookedFor interval n passed (.add delay key payload :: steps) =
      if passed + Schedule.wait interval delay + 1 = n ∧ ¬ steps.any (·.clears key) then
        (key, payload) :: bookedFor interval n passed steps
      else bookedFor interval n passed steps :=
  rfl

/-- Of what is booked for a tick to come, what the history adds is left and what it does not clear. -/
theorem Schedule.bookings_perform (interval : Duration) {n : Nat} (s : Schedule α)
    (steps : List (WheelStep α)) (hn : s.passed + ticksIn steps < n) :
    ((perform (Schedule.step interval) s steps).1.bookings.filter (·.tick = n)).map Booking.task =
      (s.bookings.filter fun b => b.tick = n && !steps.any (·.clears b.key)).map Booking.task ++
        bookedFor interval n s.passed steps := by
  induction steps generalizing s with
  | nil => simp [perform, bookedFor]
  | cons x steps ih =>
    rw [ticksIn_cons, ← Nat.add_assoc, ← s.passed_step interval x] at hn
    refine (ih (s.step interval x).1 hn).trans ?_
    cases x with
    | add delay key payload =>
      rw [s.passed_step]
      show ((s.add interval delay key payload).bookings.filter _).map _ ++
        bookedFor interval n s.passed steps = _
      rw [Schedule.bookings_add, List.filter_append, List.filter_filter, List.map_append,
        List.append_assoc]
      congr 1
      · congr 2
        funext b
        rw [List.any_cons, Bool.not_or, Bool.and_assoc, Bool.and_comm (!clears _ _)]
      · rw [bookedFor_add]
        simp only [List.filter_cons, Bool.and_eq_true, decide_eq_true_eq, Bool.not_eq_true',
          Bool.not_eq_true]
        split <;> rfl
    | remove key =>
      show ((s.bookings.filter _).filter _).map _ ++ bookedFor interval n s.passed steps =
        _ ++ bookedFor interval n s.passed steps
      rw [List.filter_filter]
      congr 2
      apply List.filter_congr
      intro b _
      rw [List.any_cons, Bool.not_or, Bool.and_assoc, Bool.and_comm (!clears _ _)]
      rfl
    | tick =>
      show ((s.bookings.filter _).filter _).map _ ++ bookedFor interval n (s.passed + 1) steps =
        _ ++ bookedFor interval n (s.passed + 1) steps
      rw [List.filter_filter]
      congr 2
      apply List.filter_congr
      intro b _
      have hlater : b.tick = n → b.tick ≠ s.passed + 1 := by
        change s.passed + 1 + ticksIn steps < n at hn
        omega
      rw [List.any_cons]
      by_cases hb : b.tick = n
      · simp [hlater hb, clears]
      · simp [hb]

/-! From the start on, the history alone says what is booked. -/

theorem Schedule.passed_history (interval : Duration) (steps : List (WheelStep α)) :
    (perform (Schedule.step interval) .empty steps).1.passed = ticksIn steps := by
  rw [Schedule.passed_perform]
  exact Nat.zero_add _

theorem Schedule.bookings_history (interval : Duration) {n : Nat} (steps : List (WheelStep α))
    (hn : ticksIn steps < n) :
    ((perform (Schedule.step interval) .empty steps).1.bookings.filter (·.tick = n)).map Booking.task =
      bookedFor interval n 0 steps := by
  rw [Schedule.bookings_perform]
  · rfl
  · exact (Nat.zero_add _).trans_lt hn

end

/-! ## Payloads are only handed on -/

section

variable {α β : Type}

namespace WheelStep

def map (f : α → β) : WheelStep α → WheelStep β
  | .add delay key payload => .add delay key (f payload)
  | .remove key => .remove key
  | .tick => .tick

theorem any_clears_map (f : α → β) (key : Option Bytes) (steps : List (WheelStep α)) :
    (steps.map (map f)).any (·.clears key) = steps.any (·.clears key) := by
  rw [List.any_map]
  congr 1
  funext x
  cases x <;> rfl

theorem ticksIn_map (f : α → β) (steps : List (WheelStep α)) : ticksIn (steps.map (map f)) = ticksIn steps := by
  unfold ticksIn
  rw [List.countP_map]
  congr 1
  funext x
  cases x <;> rfl

theorem bookedFor_map (interval : Duration) (n passed : Nat) (f : α → β) (steps : List (WheelStep α)) :
    bookedFor interval n passed (steps.map (map f)) =
      (bookedFor interval n passed steps).map (Prod.map id f) := by
  induction steps generalizing passed with
  | nil => rfl
  | cons x steps ih =>
    cases x with
    | add delay key payload =>
      simp only [List.map_cons, map, bookedFor_add, any_clears_map, ih]
      split <;> rfl
    | remove key => exact ih passed
    | tick => exact ih (passed + 1)

end WheelStep

end

end KeyEngine
