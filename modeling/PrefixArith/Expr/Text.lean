import PrefixArith.Expr.Basic

namespace PrefixArith.Expr

mutual

/-- Calls in parentheses, each operation before its operands: `(+ x (negate 2))`. A call without
operands keeps the space behind its operation: `(sum )`. -/
def prefixText : Expr → String
  | const c => Numeral.write .literal c
  | var v => v.name
  | call op es => "(" ++ op.symbol ++ " " ++ " ".intercalate (prefixTexts es) ++ ")"

def prefixTexts : List Expr → List String
  | [] => []
  | e :: es => prefixText e :: prefixTexts es

end

/-- The operands' words and then the operation's, without parentheses: `x 2 negate +`. -/
def postfixText (e : Expr) : String := " ".intercalate (e.postorder.map Label.name)

theorem prefixTexts_eq_map (es : List Expr) : prefixTexts es = es.map prefixText := by
  induction es with
  | nil => rfl
  | cons e es ih => rw [prefixTexts, ih, List.map_cons]

theorem intercalate_postorderAll (es : List Expr) (w : String) :
    " ".intercalate ((postorderAll es).map Label.name ++ [w]) =
      String.join (es.map fun e => e.postfixText ++ " ") ++ w := by
  induction es with
  | nil => simp [postorderAll]
  | cons e es ih =>
    have hne : e.postorder.map Label.name ≠ [] := by simpa using e.postorder_ne_nil
    rw [postorderAll, List.map_append, List.append_assoc,
      String.intercalate_append_of_ne_nil hne (by simp), ih, List.map_cons, String.join_cons,
      String.append_assoc, String.append_assoc, String.append_assoc]
    rfl

/-- A call is written as its operands, each with a space behind it, and then its symbol. -/
theorem postfixText_call (op : Operation) (es : List Expr) :
    (call op es).postfixText = String.join (es.map fun e => e.postfixText ++ " ") ++ op.symbol := by
  rw [postfixText, postorder, List.map_append]
  exact intercalate_postorderAll es op.symbol

end PrefixArith.Expr
