import PrefixArith.Operation.Result

namespace PrefixArith
open Binary64

inductive Extremum where
  | least
  | greatest
deriving Repr, DecidableEq

namespace Extremum

def operation : Extremum → Operation
  | least => .min
  | greatest => .max

/-- The double at the other end, from which the search starts. -/
def start : Extremum → Float
  | least => ofRank false infinityRank
  | greatest => ofRank true infinityRank

/-- A double is at least as near to this end as another one; NaN is near to neither. -/
def Reaches : Extremum → Float → Float → Prop
  | least, a, b => a ≤ b
  | greatest, a, b => b ≤ a

/-- What may be kept of two doubles: NaN if either of them is NaN, and otherwise whatever compares
equal to one of them and is as near to this end as both. -/
inductive Keeps (side : Extremum) (a b : Float) : Float → Prop
  | nan {c : Float} (h : a.isNaN = true ∨ b.isNaN = true) (hc : c.isNaN = true) : Keeps side a b c
  | nearer {c : Float} (ha : a.isNaN = false) (hb : b.isNaN = false)
      (heither : (c == a) = true ∨ (c == b) = true) (hleft : side.Reaches c a)
      (hright : side.Reaches c b) : Keeps side a b c

/-- What may be kept when doubles are taken in one after the other and `a` was kept before. -/
inductive KeepsAll (side : Extremum) : Float → List Float → Float → Prop
  | nil (a : Float) : KeepsAll side a [] a
  | cons {a x b r : Float} {xs : List Float} (hstep : side.Keeps a x b)
      (hrest : KeepsAll side b xs r) : KeepsAll side a (x :: xs) r

def Gives (side : Extremum) (xs : List Float) (r : Float) : Prop := side.KeepsAll side.start xs r

end Extremum

end PrefixArith
