import KeyEngine.Bytes

/-!
# Glob patterns

A pattern is read into tokens: a star for any run of bytes, and every other token for exactly one
byte. `accepts` decides whether a text can be cut into pieces that match the tokens in order, which
is what `Matches` says.
-/

namespace KeyEngine.Glob

/-- One entry of a class: a single byte, or all bytes between two. -/
inductive Item where
  | byte (b : UInt8)
  | span (a b : UInt8)
deriving DecidableEq, Repr

inductive Token where
  | star
  | any
  | byte (b : UInt8)
  | cls (negated : Bool) (items : List Item)
  /-- A class without its closing bracket. -/
  | unclosed
deriving DecidableEq, Repr

/-! ## Reading a pattern -/

def starByte : UInt8 := 0x2A
def anyByte : UInt8 := 0x3F
def openByte : UInt8 := 0x5B
def closeByte : UInt8 := 0x5D
def escapeByte : UInt8 := 0x5C
def hyphenByte : UInt8 := 0x2D
def negateByte : UInt8 := 0x5E

/-- The items up to the first closing bracket that stands where an item would begin, and the rest of
the pattern. -/
def items : Bytes → Option (List Item × Bytes)
  | [] => none
  | a :: rest =>
    if a = closeByte then some ([], rest)
    else if a = escapeByte then
      match rest with
      | [] => none
      | x :: rest => (items rest).map fun (is, r) => (.byte x :: is, r)
    else
      match rest with
      | h :: b :: rest' =>
        if h = hyphenByte ∧ b ≠ closeByte then
          (items rest').map fun (is, r) => (.span a b :: is, r)
        else (items (h :: b :: rest')).map fun (is, r) => (.byte a :: is, r)
      | rest => (items rest).map fun (is, r) => (.byte a :: is, r)

def cls (body : Bytes) : Option (Token × Bytes) :=
  match body with
  | b :: rest =>
    if b = negateByte then (items rest).map fun (is, r) => (.cls true is, r)
    else (items (b :: rest)).map fun (is, r) => (.cls false is, r)
  | [] => none

theorem length_items {s r : Bytes} {is : List Item} (h : items s = some (is, r)) :
    r.length < s.length := by
  fun_induction items s generalizing is with
  | case1 => cases h
  | case2 => simp_all
  | case3 => cases h
  | case4 _ _ _ ih | case5 _ _ _ _ _ _ _ ih | case6 _ _ _ _ _ _ _ ih | case7 _ _ _ _ _ ih =>
    obtain ⟨⟨is', r'⟩, h', he⟩ := Option.map_eq_some_iff.1 h
    cases he
    have := ih h'
    simp only [List.length_cons] at *
    omega

theorem length_cls {s r : Bytes} {t : Token} (h : cls s = some (t, r)) : r.length < s.length := by
  unfold cls at h
  split at h
  · split at h <;>
    · obtain ⟨⟨is, r'⟩, h', he⟩ := Option.map_eq_some_iff.1 h
      cases he
      have := length_items h'
      simp only [List.length_cons] at *; omega
  · cases h

/-- The tokens of a pattern. A final backslash stands for itself, and nothing after an unclosed
class can matter. -/
def tokens : Bytes → List Token
  | [] => []
  | a :: rest =>
    if a = starByte then .star :: tokens rest
    else if a = anyByte then .any :: tokens rest
    else if a = openByte then
      match h : cls rest with
      | none => [.unclosed]
      | some (t, rest') =>
        have := length_cls h
        t :: tokens rest'
    else if a = escapeByte then
      match rest with
      | [] => [.byte escapeByte]
      | x :: rest => .byte x :: tokens rest
    else .byte a :: tokens rest
termination_by s => s.length

/-! ## Matching -/

def Item.admits (b : UInt8) : Item → Bool
  | .byte a => a = b
  | .span x y => if x ≤ y then x ≤ b && b ≤ y else y ≤ b && b ≤ x

/-- Whether a token other than a star matches the byte. -/
def Token.admits (b : UInt8) : Token → Bool
  | .star => false
  | .any => true
  | .byte a => a = b
  | .cls negated is => is.any (·.admits b) != negated
  | .unclosed => false

/-- The text can be cut into consecutive pieces that match the tokens in order. -/
inductive Matches : List Token → Bytes → Prop
  | nil : Matches [] []
  | star {ts : List Token} (run : Bytes) {s : Bytes} : Matches ts s → Matches (.star :: ts) (run ++ s)
  | one {t : Token} {ts : List Token} {b : UInt8} {s : Bytes} :
      t.admits b = true → Matches ts s → Matches (t :: ts) (b :: s)

/-- How an attempt at one place of the text ends. -/
inductive Verdict where
  | matched
  /-- No match here; a star before may still take in more. -/
  | stuck
  /-- No match here, nor anywhere further on. -/
  | spent
deriving DecidableEq, Repr

/-- Tries one place of the text after another, until an attempt is not stuck. -/
def sweep (attempt : Bytes → Verdict) : Bytes → Verdict
  | [] =>
    match attempt [] with
    | .stuck => .spent
    | v => v
  | b :: s =>
    match attempt (b :: s) with
    | .stuck => sweep attempt s
    | v => v

/-- A star takes in one byte after another until the rest is not stuck. A later star that has come to
nothing leaves nothing to an earlier one, so no attempt is made twice. -/
def attempt : List Token → Bytes → Verdict
  | [], [] => .matched
  | [], _ :: _ => .stuck
  | .star :: ts, s => sweep (attempt ts) s
  | _ :: _, [] => .spent
  | t :: ts, b :: s => if t.admits b then attempt ts s else .stuck

def accepts (pattern text : Bytes) : Bool :=
  attempt (tokens pattern) text = .matched

def acceptsAll (pattern : Bytes) : Bool :=
  pattern = [starByte]

end KeyEngine.Glob
