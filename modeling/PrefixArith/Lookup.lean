import PrefixArith.Operation.Basic
import PrefixArith.Variable

namespace PrefixArith

inductive LookupError where
  | operation (name : String)
  | var (name : String)
deriving Repr, DecidableEq

def LookupError.message : LookupError → String
  | operation name => "Unknown operation: " ++ name
  | var name => "Unknown variable: " ++ name

def Operation.lookUp (name : String) : Except LookupError Operation :=
  match ofSymbol? name with
  | some op => .ok op
  | none => .error (.operation name)

def Variable.lookUp (name : String) : Except LookupError Variable :=
  match ofName? name with
  | some v => .ok v
  | none => .error (.var name)

end PrefixArith
