import PrefixArith.Binary64.Rank
import PrefixArith.Operation.Basic

namespace PrefixArith

namespace Aggregate

open Binary64

def lesser (a b : Float) : Float :=
  if a.isNaN || b.isNaN then 0.0 / 0.0 else if b < a then b else a

def greater (a b : Float) : Float :=
  if a.isNaN || b.isNaN then 0.0 / 0.0 else if a < b then b else a

/-- The least of the operands: infinity if there is none, and NaN if any of them is. -/
def least (xs : List Float) : Float := xs.foldl lesser (ofRank false infinityRank)

def greatest (xs : List Float) : Float := xs.foldl greater (ofRank true infinityRank)

/-- The sum from left to right. It starts at negative zero, which changes no operand. -/
def sum (xs : List Float) : Float := xs.foldl (· + ·) (-0.0)

def mean (xs : List Float) : Float := sum xs / Float.ofNat xs.length

end Aggregate

/-- The value of an operation, defined for as many operands as its arity admits. Of the two
operands of `atan2` the ordinate is the first. -/
def Operation.result? : Operation → List Float → Option Float
  | add, [a, b] => some (a + b)
  | sub, [a, b] => some (a - b)
  | mul, [a, b] => some (a * b)
  | div, [a, b] => some (a / b)
  | neg, [a] => some (-a)
  | atan, [a] => some a.atan
  | atan2, [y, x] => some (y.atan2 x)
  | min, xs => some (Aggregate.least xs)
  | max, xs => some (Aggregate.greatest xs)
  | sum, xs => some (Aggregate.sum xs)
  | avg, xs => some (Aggregate.mean xs)
  | _, _ => none

theorem Operation.isSome_result? (op : Operation) (xs : List Float) :
    (op.result? xs).isSome = op.arity.admits xs.length := by
  rcases xs with _ | ⟨a, _ | ⟨b, _ | ⟨c, xs⟩⟩⟩ <;> cases op <;>
    simp [result?, arity, Arity.admits, Arity.mismatch?]

end PrefixArith
