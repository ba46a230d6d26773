import KeyEngine.SortedSet.Basic

/-!
# Ranges of a sorted set

Members are listed by a window of ranks or by a range of scores, upwards or downwards, the latter also
with some left out at the start and a limit to their number.
-/

namespace KeyEngine.SortedSet

/-- The window from `start` to `stop` among `len` ranks from zero. A negative index counts from the end;
a window that reaches past an end is cut off there. -/
def window (start stop : Int) (len : Nat) : Option (Nat × Nat) :=
  if len = 0 then none
  else
    let start := if start < 0 then max (start + len) 0 else start
    let stop := if stop < 0 then stop + len else min stop (len - 1)
    if stop < start ∨ len ≤ start then none else some (start.toNat, stop.toNat)

def range (s : SortedSet) (start stop : Int) : Except Fault (List Entry) :=
  match window start stop s.count with
  | none => return []
  | some (start, stop) => return s.entries (← s.list.rankRange (start + 1) (stop + 1))

/-- The entries with ranks in the window, ranks counted from the highest, descending. -/
def revRange (s : SortedSet) (start stop : Int) : Except Fault (List Entry) :=
  match window start stop s.count with
  | none => return []
  | some (start, stop) =>
    return (s.entries (← s.list.rankRange (s.count - stop) (s.count - start))).reverse

def scoreRange (s : SortedSet) (r : ScoreRange) : Except Fault (List Entry) :=
  return s.entries (← s.list.scoreRange r)

def revScoreRange (s : SortedSet) (r : ScoreRange) : Except Fault (List Entry) :=
  return (s.entries (← s.list.scoreRange r)).reverse

/-- Leaves out some entries at the start, and lists at most so many of the others. -/
structure Limit where
  offset : Nat
  count : Option Nat
deriving DecidableEq, Repr

/-- The ranks from the first to the last, without those that the limit leaves out at the low end. -/
def Limit.low (limit : Limit) (first last : Nat) : Option (Nat × Nat) :=
  let start := first + limit.offset
  match limit.count with
  | some 0 => none
  | some n => some (start, min last (start + (n - 1)))
  | none => some (start, last)

/-- The ranks from the first to the last, without those that the limit leaves out at the high end. -/
def Limit.high (limit : Limit) (first last : Nat) : Option (Nat × Nat) :=
  if last - first < limit.offset then none
  else
    let stop := last - limit.offset
    match limit.count with
    | some 0 => none
    | some n => some (max first (stop + 1 - n), stop)
    | none => some (first, stop)

/-- The part of the score range that the limit leaves, ascending. Only this part is walked. -/
def scoreRangeLimit (s : SortedSet) (r : ScoreRange) (limit : Limit) : Except Fault (List Entry) := do
  match (← s.list.rankBounds r).bind fun (first, last) => limit.low first last with
  | none => return []
  | some (start, stop) => return s.entries (← s.list.rankRange start stop)

def revScoreRangeLimit (s : SortedSet) (r : ScoreRange) (limit : Limit) : Except Fault (List Entry) := do
  match (← s.list.rankBounds r).bind fun (first, last) => limit.high first last with
  | none => return []
  | some (start, stop) => return (s.entries (← s.list.rankRange start stop)).reverse

def countInRange (s : SortedSet) (r : ScoreRange) : Except Fault Nat := do
  match ← s.list.rankBounds r with
  | none => return 0
  | some (first, last) => return last + 1 - first

end KeyEngine.SortedSet
