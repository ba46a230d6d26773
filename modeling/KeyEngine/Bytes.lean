/-!
# Byte strings

Keys, values and members are strings of bytes, ordered byte by byte as lists are.
-/

namespace KeyEngine

abbrev Bytes := List UInt8

namespace Bytes

def ofString (s : String) : Bytes :=
  s.toUTF8.data.toList

/-- The byte string sorts at or before the other. -/
def le (a b : Bytes) : Bool :=
  !decide (b < a)

def sort (keys : List Bytes) : List Bytes :=
  keys.mergeSort le

/-! ## Quoted form -/

def hexDigits (b : UInt8) : List Char :=
  [Nat.digitChar (b.toNat / 16), Nat.digitChar (b.toNat % 16)]

/-- Printable ASCII stands for itself; the quote and the backslash are escaped, five controls have
names, and any other byte is written in hexadecimal. -/
def escape (b : UInt8) : List Char :=
  if b = 0x0A then ['\\', 'n']
  else if b = 0x0D then ['\\', 'r']
  else if b = 0x09 then ['\\', 't']
  else if b = 0x00 then ['\\', '0']
  else if b = 0x5C then ['\\', '\\']
  else if b = 0x22 then ['\\', '"']
  else if 0x20 ≤ b ∧ b ≤ 0x7E then [Char.ofNat b.toNat]
  else '\\' :: 'x' :: hexDigits b

def quoted (s : Bytes) : String :=
  String.ofList ('b' :: '"' :: (s.flatMap escape ++ ['"']))

end Bytes

end KeyEngine
