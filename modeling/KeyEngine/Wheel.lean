import KeyEngine.Bytes
import KeyEngine.Duration
import Std.Data.HashMap

/-!
# Wheel of slots

A ring of slots, one for each tick. A cursor visits one slot at a tick and fires what is due there. A
task booked further ahead than one lap waits for as many visits as there are whole laps. A task may
carry a key, and an index tells where the task of a key waits.
-/

namespace KeyEngine

structure Task (α : Type) where
  key : Option Bytes
  /-- Visits of the cursor to let pass. -/
  laps : Nat
  payload : α
deriving Repr

structure Wheel (α : Type) where
  interval : Duration
  /-- The tasks of each slot, by ascending number. -/
  slots : Array (List (Nat × Task α))
  /-- The slot and the number of the task of a key. -/
  index : Std.HashMap Bytes (Nat × Nat)
  cursor : Nat
  nextNumber : Nat

namespace Wheel

variable {α : Type}

def empty (interval : Duration) (slotCount : Nat) : Wheel α where
  interval := interval
  slots := Array.replicate slotCount []
  index := ∅
  cursor := 0
  nextNumber := 0

/-- The number of ticks that cover the delay, a part of one counting in full, as far as a word can
count them. -/
def ticks (w : Wheel α) (delay : Duration) : Nat :=
  min ((delay.nanos + w.interval.nanos - 1) / w.interval.nanos) wordMax

/-- The slot in which a task so far ahead waits, and the laps it waits there. -/
def position (w : Wheel α) (delay : Duration) : Nat × Nat :=
  let n := w.slots.size
  let t := w.ticks delay
  ((w.cursor + t % n) % n, t / n)

def contains (w : Wheel α) (key : Bytes) : Bool :=
  w.index.contains key

def pending (w : Wheel α) : Nat :=
  w.slots.toList.flatten.length

/-- Takes the task of the key off, and answers whether there was one. -/
def remove (w : Wheel α) (key : Bytes) : Wheel α × Bool :=
  match w.index[key]? with
  | none => (w, false)
  | some (slot, number) =>
    ({ w with
        index := w.index.erase key
        slots := w.slots.modify slot (·.filter (·.1 ≠ number)) },
      (w.slots[slot]?.getD []).any (·.1 = number))

/-- Books a task. A task that waits under the same key is taken off first. -/
def add (w : Wheel α) (delay : Duration) (key : Option Bytes) (payload : α) : Wheel α :=
  let w := match key with
    | some k => (w.remove k).1
    | none => w
  let (slot, laps) := w.position delay
  let number := w.nextNumber
  { w with
    index := match key with
      | some k => w.index.insert k (slot, number)
      | none => w.index
    slots := w.slots.modify slot (· ++ [(number, ⟨key, laps, payload⟩)])
    nextNumber := number + 1 }

/-- Visits the slot under the cursor and moves on. Answers the tasks that are due, in the order in
which they were booked. -/
def tick (w : Wheel α) : Wheel α × List (Task α) :=
  let slot := w.slots[w.cursor]?.getD []
  let due := (slot.filter (·.2.laps = 0)).map (·.2)
  let waiting := (slot.filter (·.2.laps ≠ 0)).map fun (number, task) =>
    (number, { task with laps := task.laps - 1 })
  ({ w with
      slots := w.slots.setIfInBounds w.cursor waiting
      index := (due.filterMap (·.key)).foldl (·.erase ·) w.index
      cursor := (w.cursor + 1) % w.slots.size },
    due)

end Wheel

end KeyEngine
