import PrefixArith.Expr.Basic

namespace PrefixArith

/-- A leaf goes onto the stack, and a call takes its operands off it, the last one first. The
stack's first element is its top. -/
def Label.push? : Label → List Expr → Option (List Expr)
  | const c, stack => some (.const c :: stack)
  | var v, stack => some (.var v :: stack)
  | call op count, stack =>
    if count ≤ stack.length then
      some (.call op (stack.take count).reverse :: stack.drop count)
    else none

def Label.pushAll? (labels : List Label) (stack : List Expr) : Option (List Expr) :=
  labels.foldlM (fun stack label => label.push? stack) stack

def Expr.ofPostorder? (labels : List Label) : Option Expr :=
  match Label.pushAll? labels [] with
  | some [e] => some e
  | _ => none

theorem Label.pushAll?_append (as bs : List Label) (stack : List Expr) :
    pushAll? (as ++ bs) stack = (pushAll? as stack).bind (pushAll? bs) := by
  simp only [pushAll?, List.foldlM_append]
  rfl

mutual

theorem Label.pushAll?_postorder (e : Expr) (stack : List Expr) :
    pushAll? e.postorder stack = some (e :: stack) :=
  match e with
  | .const _ => rfl
  | .var _ => rfl
  | .call op es => by
    rw [Expr.postorder, pushAll?_append, pushAll?_postorderAll es stack]
    simp [pushAll?, push?]

theorem Label.pushAll?_postorderAll (es : List Expr) (stack : List Expr) :
    pushAll? (Expr.postorderAll es) stack = some (es.reverse ++ stack) :=
  match es with
  | [] => rfl
  | e :: es => by
    rw [Expr.postorderAll, pushAll?_append, pushAll?_postorder e stack]
    simp [pushAll?_postorderAll es (e :: stack)]

end

theorem Expr.ofPostorder?_postorder (e : Expr) : ofPostorder? e.postorder = some e := by
  rw [ofPostorder?, Label.pushAll?_postorder]

/-- The order of labels, each with its count, determines the expression. -/
theorem Expr.postorder_injective {a b : Expr} (h : a.postorder = b.postorder) : a = b := by
  have ha := ofPostorder?_postorder a
  rw [h, ofPostorder?_postorder] at ha
  exact (Option.some.inj ha).symm

instance : DecidableEq Expr := fun a b =>
  decidable_of_iff (a.postorder = b.postorder) ⟨Expr.postorder_injective, congrArg _⟩

end PrefixArith
