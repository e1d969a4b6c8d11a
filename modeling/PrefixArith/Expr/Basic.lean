import PrefixArith.Numeral.Write
import PrefixArith.Operation.Basic
import PrefixArith.Variable

namespace PrefixArith

inductive Expr where
  | const (value : Float)
  | var (name : Variable)
  | call (operation : Operation) (operands : List Expr)
deriving Repr

/-- What a node says apart from its operands, of which it keeps the number. -/
inductive Label where
  | const (value : Float)
  | var (name : Variable)
  | call (operation : Operation) (count : Nat)
deriving Repr, DecidableEq

namespace Expr

def operands : Expr → List Expr
  | call _ es => es
  | _ => []

def label : Expr → Label
  | const c => .const c
  | var v => .var v
  | call op es => .call op es.length

end Expr

def Label.name : Label → String
  | const c => Numeral.write .literal c
  | var v => v.name
  | call op _ => op.symbol

namespace Expr

def name (e : Expr) : String := e.label.name

mutual

/-- Same shape and names, and constants equal as doubles: NaN differs from itself, and the two
zeros are equal. -/
def same : Expr → Expr → Bool
  | const c, const d => c == d
  | var v, var w => v == w
  | call f as, call g bs => f == g && sameAll as bs
  | _, _ => false

def sameAll : List Expr → List Expr → Bool
  | [], [] => true
  | a :: as, b :: bs => same a b && sameAll as bs
  | _, _ => false

end

instance : BEq Expr := ⟨same⟩

mutual

def preorder : Expr → List Label
  | const c => [.const c]
  | var v => [.var v]
  | call op es => .call op es.length :: preorderAll es

def preorderAll : List Expr → List Label
  | [] => []
  | e :: es => preorder e ++ preorderAll es

end

mutual

def postorder : Expr → List Label
  | const c => [.const c]
  | var v => [.var v]
  | call op es => postorderAll es ++ [.call op es.length]

def postorderAll : List Expr → List Label
  | [] => []
  | e :: es => postorder e ++ postorderAll es

end

theorem postorderAll_eq_flatMap (es : List Expr) : postorderAll es = es.flatMap postorder := by
  induction es with
  | nil => rfl
  | cons e es ih => rw [postorderAll, ih, List.flatMap_cons]

theorem preorderAll_eq_flatMap (es : List Expr) : preorderAll es = es.flatMap preorder := by
  induction es with
  | nil => rfl
  | cons e es ih => rw [preorderAll, ih, List.flatMap_cons]

theorem postorder_ne_nil (e : Expr) : e.postorder ≠ [] := by
  cases e <;> simp [postorder]

end Expr

end PrefixArith
