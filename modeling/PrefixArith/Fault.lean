import PrefixArith.Operation.Basic

namespace PrefixArith

inductive LeafKind where
  | named
  | numeral
deriving Repr, DecidableEq

def LeafKind.noun : LeafKind → String
  | named => "variable"
  | numeral => "number"

/-- The first thing wrong with a text. Positions count its characters from 1. -/
inductive Fault where
  /-- There is no expression at all. -/
  | empty
  /-- A parenthesis opens where none may. -/
  | strayOpening (position : Nat)
  /-- A parenthesis closes where none is open or nothing has been read since. -/
  | strayClosing (position : Nat)
  /-- A word is no operation, no variable and no number. -/
  | unknownWord (token : String) (position : Nat)
  /-- A variable or number stands where no operand may. -/
  | strayLeaf (kind : LeafKind) (token : String) (position : Nat)
  /-- An operation stands elsewhere than at the front. -/
  | strayOperation (operation : Operation) (position : Nat)
  /-- A call, which ends at the position, has the wrong number of operands. -/
  | wrongCount (operation : Operation) (position expected found : Nat)
  /-- The text ends inside a parenthesis. -/
  | unclosed (position : Nat)
  /-- Something follows a complete expression. -/
  | surplus (token : String) (position : Nat)
  /-- The text cannot be cut into tokens. -/
  | unreadable (reason : String)
deriving Repr, DecidableEq

namespace Fault

def position? : Fault → Option Nat
  | empty | unreadable _ => none
  | strayOpening p | strayClosing p | unknownWord _ p | strayLeaf _ _ p
  | strayOperation _ p | wrongCount _ p _ _ | unclosed p | surplus _ p => some p

def shortage (expected found : Nat) : String :=
  if found < expected then "Not enough" else "Too much"

def message : Fault → String
  | empty => "Empty string found!"
  | strayOpening p => "An unexpected opening parenthesis found at position " ++ p.repr ++ "!"
  | strayClosing p => "An unexpected closing parenthesis found at position " ++ p.repr ++ "!"
  | unknownWord token p =>
    "An unknown token \"" ++ token ++ "\" found at position " ++ p.repr ++ "!"
  | strayLeaf kind token p =>
    "A " ++ kind.noun ++ " \"" ++ token ++ "\" found at position " ++ p.repr ++
      ", but not expected!"
  | strayOperation op p =>
    "An operator \"" ++ op.symbol ++ "\" found at position " ++ p.repr ++ ", but not expected!"
  | wrongCount op p expected found =>
    shortage expected found ++ " arguments for \"" ++ op.symbol ++ "\" at position " ++ p.repr ++
      " found! (" ++ found.repr ++ " instead of " ++ expected.repr ++ ")"
  | unclosed p => "A closing parenthesis expected at position " ++ p.repr ++ "!"
  | surplus token p => "An unexpected token " ++ token ++ " found at position " ++ p.repr ++ "!"
  | unreadable reason => "Unable to tokenize input: " ++ reason

end Fault

end PrefixArith
