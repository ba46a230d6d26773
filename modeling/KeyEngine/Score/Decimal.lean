import KeyEngine.Score.Basic

/-!
# Decimal text of scores

A decimal is a whole number times a power of ten. Reading a decimal rounds it to the nearest score, a
tie to the even one. Printing finds the decimal of fewest digits that reads back, the nearest of those,
and writes it without an exponent.
-/

namespace KeyEngine

/-- The number `digits * 10 ^ exponent`. -/
structure Decimal where
  digits : Nat
  exponent : Int
deriving DecidableEq, Repr

namespace Decimal

/-! ## Rounding -/

/-- The quotient rounded to the nearest whole number, a tie to the even one. -/
def roundDiv (n d : Nat) : Nat :=
  let q := n / d
  let r := n % d
  if 2 * r < d then q else if d < 2 * r then q + 1 else q + q % 2

/-- Numerator and denominator of `n / d` divided by `2 ^ e`. -/
def scaled (n d : Nat) : Int → Nat × Nat
  | .ofNat e => (n, d * Nat.pow 2 e)
  | .negSucc e => (n * Nat.pow 2 (e + 1), d)

/-- The exponent of the unit in which `n / d` is rounded: the quotient has fifty-three bits in it,
unless the unit is the smallest there is. -/
def unitExponent (n d : Nat) : Int :=
  let e : Int := Nat.log2 n - Nat.log2 d - 52
  let (a, b) := scaled n d e
  max (if a < Score.hiddenBit * b then e - 1 else e) (-1074)

/-- The magnitude bits of the score nearest to `n / d`. Counting units past a power of two moves on to
the next exponent by itself. -/
def nearest (n d : Nat) : Nat :=
  let e := unitExponent n d
  let (a, b) := scaled n d e
  min (roundDiv a b + (e + 1074).toNat * Score.hiddenBit) Score.infinite

def digitCount (n : Nat) : Nat :=
  (Nat.toDigits 10 n).length

def ratio (d : Decimal) : Nat × Nat :=
  match d.exponent with
  | .ofNat e => (d.digits * Nat.pow 10 e, 1)
  | .negSucc e => (d.digits, Nat.pow 10 (e + 1))

/-- The magnitude bits of the score nearest to the decimal. What lies far outside the range of scores is
settled by its size alone. -/
def round (d : Decimal) : Nat :=
  let size := d.exponent + digitCount d.digits
  if d.digits = 0 ∨ size < -330 then 0
  else if 310 < size then Score.infinite
  else nearest d.ratio.1 d.ratio.2

/-! ## Reading -/

def ofDigits (cs : List Char) : Nat :=
  cs.foldl (fun n c => 10 * n + (c.toNat - 48)) 0

/-- Splits off a sign: whether it is a minus, and the rest. -/
def splitSign : List Char → Bool × List Char
  | '-' :: cs => (true, cs)
  | '+' :: cs => (false, cs)
  | cs => (false, cs)

/-- The exponent that follows the digits: none at all, or a mark, perhaps a sign, and digits to the
end. -/
def readExponent : List Char → Option Int
  | [] => some 0
  | c :: cs =>
    let (negative, ds) := splitSign cs
    if c.toLower = 'e' ∧ !ds.isEmpty ∧ ds.all Char.isDigit then
      some (if negative then -(ofDigits ds : Int) else ofDigits ds)
    else none

/-- Splits off the fraction: the digits after a point, and the rest. -/
def splitFraction : List Char → List Char × List Char
  | '.' :: cs => (cs.takeWhile Char.isDigit, cs.dropWhile Char.isDigit)
  | cs => ([], cs)

/-- Reads digits with an optional point among them, and an optional exponent. -/
def read? (cs : List Char) : Option Decimal :=
  let whole := cs.takeWhile Char.isDigit
  let (fraction, rest) := splitFraction (cs.dropWhile Char.isDigit)
  if whole.isEmpty ∧ fraction.isEmpty then none
  else (readExponent rest).map fun e => ⟨ofDigits (whole ++ fraction), e - fraction.length⟩

/-! ## Fewest digits -/

/-- The exponent of the first digit of `n / d`. -/
def leading (n d : Nat) : Int :=
  if d ≤ n then digitCount (n / d) - 1
  else
    let k := digitCount (d / n)
    if d ≤ n * Nat.pow 10 (k - 1) then 1 - k else -k

/-- The neighbours of `n / d` among the multiples of `10 ^ k`, the nearer first, of two equally near the
upper. -/
def neighbours (n d : Nat) (k : Int) : List Decimal :=
  let (a, b) := match k with
    | .ofNat e => (n, d * Nat.pow 10 e)
    | .negSucc e => (n * Nat.pow 10 (e + 1), d)
  let q := a / b
  if 2 * (a % b) < b then [⟨q, k⟩, ⟨q + 1, k⟩] else [⟨q + 1, k⟩, ⟨q, k⟩]

/-- The magnitude of a finite score as a quotient of whole numbers. -/
def exact (s : Score) : Nat × Nat :=
  match s.exponent with
  | .ofNat e => (s.significand * Nat.pow 2 e, 1)
  | .negSucc e => (s.significand, Nat.pow 2 (e + 1))

/-- The magnitude of a finite score written out in full: `m / 2 ^ e` is `m * 5 ^ e` over a power of
ten. -/
def full (s : Score) : Decimal :=
  match s.exponent with
  | .ofNat e => ⟨s.significand * Nat.pow 2 e, 0⟩
  | .negSucc e => ⟨s.significand * Nat.pow 5 (e + 1), -(e + 1 : Nat)⟩

/-- The first decimal that reads back as the magnitude of the score, trying one digit, then two, up to
seventeen. -/
def shortest (s : Score) : Decimal :=
  if s.magnitude = 0 then ⟨0, 0⟩
  else
    let (n, d) := exact s
    let top := leading n d
    let candidates := (List.range 17).flatMap fun i : Nat => neighbours n d (top - i)
    (candidates.find? (·.round = s.magnitude)).getD (full s)

/-! ## Printing -/

def zeros (n : Nat) : List Char :=
  List.replicate n '0'

/-- Writes the decimal without an exponent and without zeros at the end of a fraction. -/
def positional (d : Decimal) : List Char :=
  let cs := Nat.toDigits 10 d.digits
  match d.exponent with
  | .ofNat e => if d.digits = 0 then cs else cs ++ zeros e
  | .negSucc e =>
    let cs := zeros (e + 2 - cs.length) ++ cs
    let point := cs.length - (e + 1)
    let fraction := ((cs.drop point).reverse.dropWhile (· = '0')).reverse
    if fraction.isEmpty then cs.take point else cs.take point ++ '.' :: fraction

end Decimal

namespace Score

/-- Reads an optional sign and a decimal or one of the words for infinity and for no number, in either
case of letters. -/
def read? (text : List Char) : Option Score :=
  let (negative, cs) := Decimal.splitSign text
  let word := cs.map Char.toLower
  if word = "inf".toList ∨ word = "infinity".toList then some (ofMagnitude negative infinite)
  else if word = "nan".toList then some (ofMagnitude negative 0x7FF8000000000000)
  else (Decimal.read? cs).map fun d => ofMagnitude negative d.round

def text (s : Score) : List Char :=
  if s.isNaN then "NaN".toList
  else
    let sign := if s.negative then ['-'] else []
    if s.magnitude = infinite then sign ++ "inf".toList
    else sign ++ (Decimal.shortest s).positional

def ofInt (n : Int) : Score :=
  ofMagnitude (n < 0) (Decimal.round ⟨n.natAbs, 0⟩)

end Score

end KeyEngine
