import PrefixArith.Expr.Basic
import PrefixArith.Fault
import PrefixArith.Numeral.Read

namespace PrefixArith

inductive Atom where
  | operation (op : Operation)
  | var (name : Variable)
  | number (value : Float)
deriving Repr, DecidableEq

/-- Symbols of operations come first, so `-` is an operation although it begins numerals. -/
def Atom.ofWord? (word : String) : Option Atom :=
  match Operation.ofSymbol? word with
  | some op => some (.operation op)
  | none =>
    match Variable.ofName? word with
    | some v => some (.var v)
    | none => (Numeral.read? word).map .number

end PrefixArith
