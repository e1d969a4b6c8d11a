import PrefixArith.Decimal.Nearest

namespace PrefixArith.Numeral

open Binary64

/-- The number of a power's digits. Once 65536 is reached, further digits are ignored. -/
def power (digits : List Char) : Nat :=
  digits.foldl (fun n c => if n < 65536 then 10 * n + (c.toNat - '0'.toNat) else n) 0

def power? (s : List Char) : Option Nat :=
  if s ≠ [] ∧ s.all Char.isDigit then some (power s) else none

/-- What follows the mantissa: nothing, or `e` and a power of ten that may have a sign. -/
def exponent? : List Char → Option Int
  | [] => some 0
  | c :: rest =>
    if c = 'e' ∨ c = 'E' then
      match rest with
      | '+' :: digits => (power? digits).map fun n => (n : Int)
      | '-' :: digits => (power? digits).map fun n => -(n : Int)
      | digits => (power? digits).map fun n => (n : Int)
    else none

def fraction : List Char → List Char × List Char
  | '.' :: rest => (rest.takeWhile Char.isDigit, rest.dropWhile Char.isDigit)
  | rest => ([], rest)

/-- A decimal without sign: digits before or behind a point, at least one, and a power of ten. -/
def decimal? (s : List Char) : Option Decimal :=
  let whole := s.takeWhile Char.isDigit
  let (places, rest) := fraction (s.dropWhile Char.isDigit)
  if whole = [] ∧ places = [] then none
  else (exponent? rest).map fun e =>
    ⟨Nat.ofDigitChars 10 (whole ++ places) 0, e - places.length⟩

def isInfinity (s : List Char) : Bool :=
  let lower := s.map Char.toLower
  lower == "inf".toList || lower == "infinity".toList

def rank? (s : List Char) : Option Nat :=
  if isInfinity s then some infinityRank else (decimal? s).map Decimal.nearest

def ofCharacters? : List Char → Option Float
  | '+' :: s => (rank? s).map (ofRank false)
  | '-' :: s => (rank? s).map (ofRank true)
  | s => (rank? s).map (ofRank false)

/-- The double of a text, if it is a numeral; it is never NaN. -/
def read? (s : String) : Option Float := ofCharacters? s.toList

example : read? "-.5e1" = some (-5.0) := by decide +kernel
example : read? "5." = some 5.0 := by decide +kernel
example : read? "." = none := by decide +kernel
example : read? "1e400" = some (ofRank false infinityRank) := by decide +kernel
example : read? "-Inf" = some (ofRank true infinityRank) := by decide +kernel
example : read? "nan" = none := by decide +kernel

end PrefixArith.Numeral
