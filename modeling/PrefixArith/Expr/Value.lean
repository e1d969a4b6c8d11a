import PrefixArith.Expr.Basic
import PrefixArith.Operation.Result

namespace PrefixArith

inductive EvalError where
  /-- The assignment is too short for a variable. -/
  | unbound (name : Variable) (index supplied : Nat)
  /-- A call holds another number of operands than its operation takes. -/
  | wrongCount (operation : Operation) (expected found : Nat)
  /-- An operation has no value on as many operands. -/
  | undefined (operation : Operation) (count : Nat)
deriving Repr, DecidableEq

def EvalError.message : EvalError → String
  | unbound v index supplied =>
    "No value supplied for variable \"" ++ v.name ++ "\" (index " ++ index.repr ++ ", " ++
      supplied.repr ++ " values given)"
  | wrongCount op expected found =>
    "Operation \"" ++ op.symbol ++ "\" applied to " ++ found.repr ++ " operands (" ++
      expected.repr ++ " expected)"
  | undefined op count =>
    "Operation \"" ++ op.symbol ++ "\" has no value on " ++ count.repr ++ " operands"

def Operation.value (op : Operation) (xs : List Float) : Except EvalError Float :=
  match op.result? xs with
  | some v => .ok v
  | none => .error (.undefined op xs.length)

namespace Expr

mutual

/-- The value on an assignment, where the variable of index `i` has the value at place `i`. A call's
operands are counted before any of them is asked for its value. -/
def value (assignment : List Float) : Expr → Except EvalError Float
  | const c => .ok c
  | var v =>
    match assignment[v.index]? with
    | some x => .ok x
    | none => .error (.unbound v v.index assignment.length)
  | call op es =>
    match op.arity.mismatch? es.length with
    | some expected => .error (.wrongCount op expected es.length)
    | none => values assignment es >>= op.value

def values (assignment : List Float) : List Expr → Except EvalError (List Float)
  | [] => .ok []
  | e :: es => do
    let x ← value assignment e
    let xs ← values assignment es
    return x :: xs

end

def valueOnEach (rows : List (List Float)) (e : Expr) : Except EvalError (List Float) :=
  rows.mapM fun row => e.value row

theorem values_eq_mapM (assignment : List Float) (es : List Expr) :
    values assignment es = es.mapM fun e => e.value assignment := by
  induction es with
  | nil => rfl
  | cons e es ih => rw [values, ih, List.mapM_cons]

end Expr

end PrefixArith
