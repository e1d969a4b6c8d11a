import PrefixArith.Diagnostic
import PrefixArith.Expr.Value
import PrefixArith.Reader.State

namespace PrefixArith

/-- The expression of a text, such as `(+ x (negate 2))`, or the first fault in it. The outermost
call may do without its parentheses. -/
def Expr.parse (source : String) : Except Diagnostic Expr :=
  (Reader.read (Token.ofText source)).mapError (Diagnostic.located source)

example : (Expr.parse "(+ x (negate 2))").toOption.map Expr.postfixText = some "x 2 negate +" := by
  decide +kernel

example : (Expr.parse "sum x (atan2 y 1e7)").toOption.map Expr.prefixText =
    some "(sum x (atan2 y 10000000))" := by
  decide +kernel

inductive Failure where
  | parse (diagnostic : Diagnostic)
  | value (error : EvalError)
deriving Repr, DecidableEq

def Failure.text : Failure → String
  | parse d => d.text
  | value e => e.message

def evaluate (source : String) (assignment : List Float) : Except Failure Float :=
  (Expr.parse source).mapError Failure.parse >>= fun e =>
    (e.value assignment).mapError Failure.value

def evaluateOnEach (source : String) (rows : List (List Float)) : Except Failure (List Float) :=
  (Expr.parse source).mapError Failure.parse >>= fun e =>
    (e.valueOnEach rows).mapError Failure.value

end PrefixArith
