import PrefixArith.Decimal.Shortest
import PrefixArith.Numeral.Layout

namespace PrefixArith.Numeral

open Binary64

structure Style where
  /-- The least magnitude written positionally. -/
  least : Decimal
  /-- The magnitude from which on numbers are not written positionally. -/
  bound : Decimal
  /-- What stands before a power of ten that is not negative. -/
  plus : List Char
  /-- What follows the digits of a whole number. -/
  tail : List Char
  /-- The spelling of infinity. -/
  infinity : List Char
  /-- Whether the sign of a negative zero is written. -/
  signedZero : Bool

/-- Literals of expressions: positional from 1e-6 up to 1e21, without sign on a zero. -/
def Style.literal : Style := ⟨⟨1, -6⟩, ⟨1, 21⟩, ['+'], [], "Infinity".toList, false⟩

/-- Results in running text: positional whatever the magnitude. -/
def Style.plain : Style := ⟨⟨0, 0⟩, ⟨1, 309⟩, [], [], "inf".toList, true⟩

/-- Results in lists: positional from 1e-4 up to 1e16, and a whole number keeps a place behind the
point. -/
def Style.pointed : Style := ⟨⟨1, -4⟩, ⟨1, 16⟩, [], ".0".toList, "inf".toList, true⟩

/-- A decimal in a style: positional if the double of this rank lies in the style's range. -/
def Style.layout (style : Style) (rank : Nat) (d : Decimal) : List Char :=
  let digits := Nat.toDigits 10 d.digits
  let point := digits.length + d.exponent
  if style.least.nearest ≤ rank ∧ rank < style.bound.nearest then
    positional style.tail digits point
  else scientific style.plus digits point

def Style.magnitude (style : Style) (rank : Nat) : List Char :=
  if rank = infinityRank then style.infinity
  else if rank = 0 then '0' :: style.tail
  else style.layout rank (Decimal.shortest rank)

def Style.characters (style : Style) (v : Float) : List Char :=
  if v.isNaN then "NaN".toList
  else if isSigned v ∧ (rank v ≠ 0 ∨ style.signedZero) then '-' :: style.magnitude (rank v)
  else style.magnitude (rank v)

def write (style : Style) (v : Float) : String := String.ofList (style.characters v)

theorem write_of_isNaN {style : Style} {v : Float} (h : v.isNaN = true) :
    write style v = "NaN" := by
  rw [write, Style.characters, if_pos h]
  rfl

example : write .literal 999999999999999900000.0 = "999999999999999900000" := by decide +kernel
example : write .literal 1e21 = "1e+21" := by decide +kernel
example : write .literal 1e-6 = "0.000001" := by decide +kernel
example : write .literal 1e-7 = "1e-7" := by decide +kernel
example : write .literal (-0.0) = "0" := by decide +kernel
example : write .plain 1e21 = "1000000000000000000000" := by decide +kernel
example : write .pointed (-0.0) = "-0.0" := by decide +kernel
example : write .pointed 1e16 = "1e16" := by decide +kernel

end PrefixArith.Numeral
