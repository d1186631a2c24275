/-!
The bytes that JSON text is made of, and the runs it is cut into.
-/

namespace ConfigChain

/-- A text as it is stored. -/
abbrev Bytes := List UInt8

namespace Json

abbrev space : UInt8 := 0x20
abbrev newline : UInt8 := 0x0A
abbrev quote : UInt8 := 0x22
abbrev backslash : UInt8 := 0x5C
abbrev slash : UInt8 := 0x2F
abbrev star : UInt8 := 0x2A
abbrev comma : UInt8 := 0x2C
abbrev colon : UInt8 := 0x3A
abbrev minus : UInt8 := 0x2D
abbrev plus : UInt8 := 0x2B
abbrev point : UInt8 := 0x2E
abbrev openList : UInt8 := 0x5B
abbrev closeList : UInt8 := 0x5D
abbrev openObject : UInt8 := 0x7B
abbrev closeObject : UInt8 := 0x7D
abbrev letterB : UInt8 := 0x62
abbrev letterE : UInt8 := 0x65
abbrev capitalE : UInt8 := 0x45
abbrev letterF : UInt8 := 0x66
abbrev letterN : UInt8 := 0x6E
abbrev letterR : UInt8 := 0x72
abbrev letterT : UInt8 := 0x74
abbrev letterU : UInt8 := 0x75

/-- Blanks may stand before and after every token. -/
def isBlank (b : UInt8) : Bool := b = space || b = newline || b = 0x09 || b = 0x0D

/-- A decimal digit. -/
def isDigit (b : UInt8) : Bool := 0x30 ≤ b && b ≤ 0x39

/-- The value of a decimal digit. -/
def digitValue (b : UInt8) : Nat := b.toNat - 0x30

/-- The value of a hexadecimal digit. -/
def hexValue? (b : UInt8) : Option Nat :=
  if isDigit b then some (digitValue b)
  else if 0x61 ≤ b ∧ b ≤ 0x66 then some (b.toNat - 0x61 + 10)
  else if 0x41 ≤ b ∧ b ≤ 0x46 then some (b.toNat - 0x41 + 10)
  else none

/-- What follows the blanks. -/
def skipBlanks (s : Bytes) : Bytes := s.dropWhile isBlank

/-- The digits that come first. -/
def digits (s : Bytes) : List Nat := (s.takeWhile isDigit).map digitValue

/-- What follows the digits that come first. -/
def afterDigits (s : Bytes) : Bytes := s.dropWhile isDigit

theorem length_dropWhile_le (p : UInt8 → Bool) (s : Bytes) : (s.dropWhile p).length ≤ s.length :=
  (List.dropWhile_sublist p).length_le

theorem length_skipBlanks_le (s : Bytes) : (skipBlanks s).length ≤ s.length :=
  length_dropWhile_le isBlank s

theorem length_afterDigits_le (s : Bytes) : (afterDigits s).length ≤ s.length :=
  length_dropWhile_le isDigit s

end Json

end ConfigChain
