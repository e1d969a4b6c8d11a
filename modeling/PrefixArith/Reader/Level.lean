import PrefixArith.Expr.Text
import PrefixArith.Fault

namespace PrefixArith.Reader

/-- An operation that waits for its operands or a finished expression, and where it begins. -/
inductive Entry where
  | head (operation : Operation) (position : Nat)
  | operand (expr : Expr) (position : Nat)
deriving Repr

namespace Entry

def position : Entry → Nat
  | head _ p => p
  | operand _ p => p

def text : Entry → String
  | head op _ => op.symbol
  | operand e _ => e.postfixText

def expr : Entry → Except Fault Expr
  | head op p => .error (.strayOperation op p)
  | operand e _ => .ok e

end Entry

structure Level where
  openedAt : Nat
  entries : Array Entry
deriving Repr

namespace Level

def empty (openedAt : Nat) : Level := ⟨openedAt, #[]⟩

def isEmpty (level : Level) : Bool := level.entries.isEmpty

def push (level : Level) (entry : Entry) : Level :=
  { level with entries := level.entries.push entry }

def call (op : Operation) (stop : Nat) (operands : List Expr) : Except Fault Expr :=
  match op.arity.mismatch? operands.length with
  | some expected => .error (.wrongCount op stop expected operands.length)
  | none => .ok (.call op operands)

/-- The expression of a level that ends at `stop`. Without an operation in front there is only one
entry, or else the last one is too many. -/
def toExpr (level : Level) (stop : Nat) : Except Fault Expr :=
  match level.entries.toList with
  | [] => .error .empty
  | .head op _ :: rest => rest.mapM Entry.expr >>= call op stop
  | .operand e _ :: rest =>
    match rest.getLast? with
    | none => .ok e
    | some extra => .error (.surplus extra.text extra.position)

@[simp] theorem toList_entries_push (level : Level) (entry : Entry) :
    (level.push entry).entries.toList = level.entries.toList ++ [entry] := by
  simp [push]

@[simp] theorem openedAt_push (level : Level) (entry : Entry) :
    (level.push entry).openedAt = level.openedAt := rfl

end Level

end PrefixArith.Reader
