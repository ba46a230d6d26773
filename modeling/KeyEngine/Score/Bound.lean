import KeyEngine.Error
import KeyEngine.Score.Decimal

/-!
# Bounds and ranges of scores

One end of a range includes its score, excludes it, or is open to all scores on its side.
-/

namespace KeyEngine

inductive Bound where
  | inclusive (s : Score)
  | exclusive (s : Score)
  | bottom
  | top
deriving DecidableEq, Repr

namespace Bound

/-- Whether the score lies inside of the bound taken as a lower end. -/
def admitsFromBelow (b : Bound) (x : Score) : Bool :=
  match b with
  | inclusive s => s.le x
  | exclusive s => s.lt x
  | bottom => true
  | top => false

/-- Whether the score lies inside of the bound taken as an upper end. -/
def admitsFromAbove (b : Bound) (x : Score) : Bool :=
  match b with
  | inclusive s => x.le s
  | exclusive s => x.lt s
  | top => true
  | bottom => false

/-! ## Text -/

def text : Bound → List Char
  | inclusive s => s.text
  | exclusive s => '(' :: s.text
  | bottom => "-inf".toList
  | top => "+inf".toList

/-- An infinite score makes the bound an unbounded end, open or not. -/
def ofScore (isOpen : Bool) (s : Score) : Bound :=
  if s = .negInf then bottom
  else if s = .posInf then top
  else if isOpen then exclusive s
  else inclusive s

/-- Splits off an opening parenthesis, the mark of an excluded score. -/
def splitOpen : List Char → Bool × List Char
  | '(' :: cs => (true, cs)
  | cs => (false, cs)

/-- Reads an unbounded end, or a number after an optional opening parenthesis. -/
def read (cs : List Char) : Except Error Bound :=
  let word := cs.map Char.toLower
  if word = "-inf".toList then .ok bottom
  else if word = "+inf".toList ∨ word = "inf".toList then .ok top
  else
    let (isOpen, number) := splitOpen cs
    match Score.read? number with
    | none => .error .notAFloat
    | some s => if s.isNaN then .error .notAFloat else .ok (ofScore isOpen s)

end Bound

structure ScoreRange where
  min : Bound
  max : Bound
deriving DecidableEq, Repr

namespace ScoreRange

def between (min max : Score) : ScoreRange := ⟨.inclusive min, .inclusive max⟩

def all : ScoreRange := ⟨.bottom, .top⟩

def contains (r : ScoreRange) (x : Score) : Bool :=
  r.min.admitsFromBelow x && r.max.admitsFromAbove x

def isAbove (r : ScoreRange) (x : Score) : Bool :=
  !r.max.admitsFromAbove x

/-- The ends alone show that no score lies in the range. -/
def isEmpty (r : ScoreRange) : Bool :=
  match r.min, r.max with
  | .top, _ => true
  | _, .bottom => true
  | .bottom, _ => false
  | _, .top => false
  | .inclusive a, .inclusive b => b.lt a
  | .inclusive a, .exclusive b => b.le a
  | .exclusive a, .inclusive b => b.le a
  | .exclusive a, .exclusive b => b.le a

def reversed (r : ScoreRange) : ScoreRange := ⟨r.max, r.min⟩

def text (r : ScoreRange) : List Char :=
  r.min.text ++ ' ' :: r.max.text

/-- Reads the lower end first. -/
def read (min max : List Char) : Except Error ScoreRange := do
  let lo ← Bound.read min
  let hi ← Bound.read max
  return ⟨lo, hi⟩

end ScoreRange

end KeyEngine
