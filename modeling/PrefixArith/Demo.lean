import PrefixArith.Session

namespace PrefixArith.Demo

def simpleExpression : List String :=
  (match Expr.parse "(+ (* x x) (negate (atan2 y z)))" with
    | .error d => [d.text]
    | .ok e =>
      ["prefix:  " ++ e.prefixText,
        "postfix: " ++ e.postfixText,
        match e.value [3, 1, 1] with
        | .ok v => "Result: " ++ Numeral.write .plain v
        | .error err => "Error: " ++ err.message]) ++
    ["(sum)", "(avg)", "(min3)", "(sum x y z)"].map fun source =>
      source ++ " => " ++
        match evaluate source [1, 2, 3] with
        | .ok v => "Ok(" ++ Numeral.write .pointed v ++ ")"
        | .error f => "Err(" ++ f.text ++ ")"

def batchEvaluation : List String :=
  match evaluateOnEach "(/ (* x y) z)" [[120, 3000, 2], [80, 6000, 4], [95.5, 4500, 8]] with
  | .error f => [f.text]
  | .ok vs => vs.mapIdx fun i v => "Result " ++ i.repr ++ ": " ++ Numeral.write .pointed v

def diagnostics : List String :=
  ["", "(+ 1)", "(negate 1 2)", "(+ 1 2", "(+ 1 2))", "\t(+\tx w)", "(+ - 1 2)", "x y",
    "(+ 1 2) (- 3 4)"].flatMap fun source =>
    match Expr.parse source with
    | .error d => [d.text, ""]
    | .ok e => [source.quote ++ " parsed as " ++ e.prefixText, ""]

def all : List (String × List String) :=
  [("simple_expression", simpleExpression), ("batch_evaluation", batchEvaluation),
    ("diagnostics", diagnostics)]

def output? (name : String) : Option String :=
  (all.lookup name).map fun lines => String.join (lines.map fun line => line ++ "\n")

end PrefixArith.Demo
