/-!
# Scores

A score is a binary floating-point number of sixty-four bits, held as those bits: one sign, eleven of
exponent, fifty-two of fraction. Scores are compared through `key`, an integer that orders them on
the number line, and added and multiplied as the hardware does.
-/

namespace KeyEngine

structure Score where
  bits : UInt64
deriving DecidableEq, Repr

namespace Score

/-! ## Parts -/

/-- The magnitude bits of infinity; every larger magnitude is not a number. -/
def infinite : Nat := 0x7FF0000000000000

def signBit : Nat := 0x8000000000000000

/-- The leading bit of a significand, which is not written down. -/
def hiddenBit : Nat := 0x10000000000000

def magnitude (s : Score) : Nat :=
  s.bits.toNat % signBit

def negative (s : Score) : Bool :=
  signBit ≤ s.bits.toNat

def isNaN (s : Score) : Bool :=
  infinite < s.magnitude

def ofMagnitude (negative : Bool) (magnitude : Nat) : Score :=
  ⟨.ofNat (if negative then signBit + magnitude else magnitude)⟩

def zero : Score := ofMagnitude false 0

def one : Score := ofMagnitude false 0x3FF0000000000000

def posInf : Score := ofMagnitude false infinite

def negInf : Score := ofMagnitude true infinite

/-- The magnitude is `significand * 2 ^ exponent`, for a finite score. -/
def significand (s : Score) : Nat :=
  if s.magnitude < hiddenBit then s.magnitude else s.magnitude % hiddenBit + hiddenBit

def exponent (s : Score) : Int :=
  if s.magnitude < hiddenBit then -1074 else (s.magnitude / hiddenBit : Nat) - 1075

/-- The value of a finite score that is an integer. -/
def toInt? (s : Score) : Option Int :=
  if infinite ≤ s.magnitude then none
  else
    let sign : Int := if s.negative then -1 else 1
    match s.exponent with
    | .ofNat e => some (sign * (s.significand * Nat.pow 2 e : Nat))
    | .negSucc e =>
      if s.significand % Nat.pow 2 (e + 1) = 0 then some (sign * (s.significand / Nat.pow 2 (e + 1) : Nat))
      else none

/-! ## Order -/

/-- Orders the numbers, infinities included; the two zeros share a key. -/
def key (s : Score) : Int :=
  if s.negative then -s.magnitude else s.magnitude

/-- Both are numbers, and the first is below. -/
def lt (a b : Score) : Bool :=
  !a.isNaN && !b.isNaN && a.key < b.key

def le (a b : Score) : Bool :=
  !a.isNaN && !b.isNaN && a.key ≤ b.key

/-- Both are numbers, and equal ones. -/
def same (a b : Score) : Bool :=
  !a.isNaN && !b.isNaN && a.key = b.key

theorem lt_iff {a b : Score} :
    a.lt b = true ↔ a.isNaN = false ∧ b.isNaN = false ∧ a.key < b.key := by
  simp [lt, and_assoc]

theorem le_iff {a b : Score} :
    a.le b = true ↔ a.isNaN = false ∧ b.isNaN = false ∧ a.key ≤ b.key := by
  simp [le, and_assoc]

theorem same_iff {a b : Score} :
    a.same b = true ↔ a.isNaN = false ∧ b.isNaN = false ∧ a.key = b.key := by
  simp [same, and_assoc]

theorem lt_irrefl (a : Score) : a.lt a = false := by
  simp [lt]

def min (a b : Score) : Score :=
  if b.lt a then b else a

def max (a b : Score) : Score :=
  if a.lt b then b else a

/-! ## Arithmetic -/

def add (a b : Score) : Score :=
  ⟨(Float.ofBits a.bits + Float.ofBits b.bits).toBits⟩

def mul (a b : Score) : Score :=
  ⟨(Float.ofBits a.bits * Float.ofBits b.bits).toBits⟩

def zeroIfNaN (s : Score) : Score :=
  if s.isNaN then zero else s

end Score

end KeyEngine
