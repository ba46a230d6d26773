/-!
# Durations

A length of time, counted in nanoseconds.
-/

namespace KeyEngine

def wordMax : Nat := 0xFFFFFFFFFFFFFFFF

structure Duration where
  nanos : Nat
deriving DecidableEq, Repr

namespace Duration

def ofMicros (n : Nat) : Duration := ⟨n * 1000⟩

def ofMillis (n : Nat) : Duration := ⟨n * 1000000⟩

/-- The largest duration: a full word of seconds and one nanosecond less than another second. -/
def longest : Duration := ⟨wordMax * 1000000000 + 999999999⟩

def micros (d : Duration) : Nat := d.nanos / 1000

def atLeast (d e : Duration) : Duration :=
  if d.nanos < e.nanos then e else d

/-! ## Text -/

def dropTrailingZeros (cs : List Char) : List Char :=
  (cs.reverse.dropWhile (· = '0')).reverse

/-- Writes `n` with exactly `width` digits, for `n` below the power of ten. -/
def padded (width n : Nat) : List Char :=
  let digits := Nat.toDigits 10 n
  List.replicate (width - digits.length) '0' ++ digits

/-- The count of units of `10 ^ places` nanoseconds, with the fraction that is left. -/
def inUnit (d : Duration) (places : Nat) (unit : String) : String :=
  let fraction := dropTrailingZeros (padded places (d.nanos % Nat.pow 10 places))
  let point := if fraction.isEmpty then [] else '.' :: fraction
  String.ofList (Nat.toDigits 10 (d.nanos / Nat.pow 10 places) ++ point) ++ unit

/-- The duration in the largest unit of which there is at least one. -/
def text (d : Duration) : String :=
  if 1000000000 ≤ d.nanos then d.inUnit 9 "s"
  else if 1000000 ≤ d.nanos then d.inUnit 6 "ms"
  else if 1000 ≤ d.nanos then d.inUnit 3 "µs"
  else d.inUnit 0 "ns"

end Duration

end KeyEngine
