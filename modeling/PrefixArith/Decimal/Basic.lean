import PrefixArith.Binary64.Rank

namespace PrefixArith

/-- The number `digits · 10^exponent`. -/
structure Decimal where
  digits : Nat
  exponent : Int
deriving Repr, DecidableEq

/-- A magnitude of `num / den` half units, each half of the least positive double. -/
structure Magnitude where
  num : Nat
  den : Nat
deriving Repr, DecidableEq

def Decimal.magnitude (d : Decimal) : Magnitude :=
  ⟨(d.digits * Nat.pow 10 d.exponent.toNat) <<< (Binary64.scale + 1),
    Nat.pow 10 (-d.exponent).toNat⟩

theorem Decimal.magnitude_den_pos (d : Decimal) : 0 < d.magnitude.den := Nat.pow_pos (by decide)

end PrefixArith
