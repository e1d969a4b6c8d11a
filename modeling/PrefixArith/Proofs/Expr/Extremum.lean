import PrefixArith.Proofs.Expr.ZeroSigns
import PrefixArith.Proofs.Operation.Extremum

namespace PrefixArith
open Binary64

namespace Related
variable {α β α' : Type} {R : α → β → Prop} {S : α' → β → Prop} {m : Except EvalError α}
  {n : Except EvalError β}

theorem bind_left {f : α → Except EvalError α'} (h : Related R m n)
    (hf : ∀ x y, R x y → ∃ x', f x = .ok x' ∧ S x' y) : Related S (m >>= f) n := by
  cases h with
  | value h =>
    obtain ⟨x', hx', hS⟩ := hf _ _ h
    change Related S (f _) _
    rw [hx']
    exact .value hS
  | error err => exact .error err

end Related

namespace Expr

mutual

/-- The operands that an expression stands for in a call of an operation: its own ones, taken apart
in turn, if it is itself a call of that operation, and the expression if it is not. -/
def unnested (op : Operation) : Expr → List Expr
  | const c => [const c]
  | var v => [var v]
  | call op' es => if op' = op then unnestedAll op es else [call op' es]

def unnestedAll (op : Operation) : List Expr → List Expr
  | [] => []
  | e :: es => unnested op e ++ unnestedAll op es

end

example : unnested .min (call .min [call .min [var .x, call .min []], call .max [var .y]]) =
    [var .x, call .max [var .y]] := rfl

variable {apply : Operation → List Float → Except EvalError Float} {assignment : List Float}

theorem valuesUsing_append (es fs : List Expr) :
    valuesUsing apply assignment (es ++ fs) = (do
      let xs ← valuesUsing apply assignment es
      let ys ← valuesUsing apply assignment fs
      return xs ++ ys) := by
  induction es with
  | nil =>
    change _ = valuesUsing apply assignment fs >>= pure
    rw [bind_pure]
    rfl
  | cons e es ih =>
    rw [List.cons_append, valuesUsing, valuesUsing, ih]
    simp only [bind_assoc, pure_bind, List.cons_append]

end Expr

namespace Extremum

variable {side : Extremum} {apply : Operation → List Float → Except EvalError Float}
  {assignment : List Float}

/-- Doubles are the same number exactly if they have the same place. -/
theorem sameNumber_iff (side : Extremum) {x y : Float} :
    SameNumber x y ↔ side.place x = side.place y := by
  constructor
  · rintro (⟨hx, hy⟩ | heq)
    · rw [place_of_isNaN hx, place_of_isNaN hy]
    · obtain ⟨hx, hy⟩ := isNaN_eq_false_of_beq heq
      exact (side.beq_iff_place_eq hx hy).1 heq
  · intro hplace
    have hnan := isNaN_eq_of_place_eq hplace
    cases hx : x.isNaN with
    | true => exact Or.inl ⟨hx, hnan.symm.trans hx⟩
    | false => exact Or.inr ((side.beq_iff_place_eq hx (hnan.symm.trans hx)).2 hplace)

theorem Gives.sameNumber {xs ys : List Float} {r s : Float} (hr : side.Gives xs r)
    (hs : side.Gives ys s) (h : side.nearestPlace xs = side.nearestPlace ys) : SameNumber r s := by
  rw [side.sameNumber_iff, hr.place_eq, hs.place_eq, h]

/-- What stands for the operations gives, of any operands, an extremum that they may have. -/
def Interprets (side : Extremum) (apply : Operation → List Float → Except EvalError Float) : Prop :=
  ∀ xs, ∃ r, apply side.operation xs = .ok r ∧ side.Gives xs r

theorem interprets_value (side : Extremum) : side.Interprets Operation.value := by
  intro xs
  cases side with
  | least => exact ⟨_, rfl, gives_least xs⟩
  | greatest => exact ⟨_, rfl, gives_greatest xs⟩

theorem valueUsing_call (side : Extremum) (es : List Expr) :
    (Expr.call side.operation es).valueUsing apply assignment =
      Expr.valuesUsing apply assignment es >>= apply side.operation := by
  rw [Expr.valueUsing]
  cases side <;> rfl

theorem related_singleton (e : Expr) :
    Related (fun x ys => side.place x = side.nearestPlace ys) (e.valueUsing apply assignment)
      (Expr.valuesUsing apply assignment [e]) := by
  rw [Expr.valuesUsing]
  cases e.valueUsing apply assignment with
  | error err => exact .error err
  | ok x => exact .value (nearestPlace_singleton side x).symm

-- By recursion on the expression. A nested call has the place of its own nearest operand, which the
-- call around it finds among its operands just as well.
mutual

theorem related_unnested (happly : side.Interprets apply) (e : Expr) :
    Related (fun x ys => side.place x = side.nearestPlace ys) (e.valueUsing apply assignment)
      (Expr.valuesUsing apply assignment (e.unnested side.operation)) :=
  match e with
  | .const c => related_singleton (.const c)
  | .var v => related_singleton (.var v)
  | .call op es => by
    rw [Expr.unnested]
    split
    · rename_i hop
      subst hop
      rw [valueUsing_call]
      apply (related_unnestedAll happly es).bind_left
      intro xs ys hnearest
      obtain ⟨r, hr, hgives⟩ := happly xs
      exact ⟨r, hr, hgives.place_eq.trans hnearest⟩
    · exact related_singleton (.call op es)

theorem related_unnestedAll (happly : side.Interprets apply) (es : List Expr) :
    Related (fun xs ys => side.nearestPlace xs = side.nearestPlace ys)
      (Expr.valuesUsing apply assignment es)
      (Expr.valuesUsing apply assignment (Expr.unnestedAll side.operation es)) :=
  match es with
  | [] => .value rfl
  | e :: es => by
    rw [Expr.unnestedAll, Expr.valuesUsing_append, Expr.valuesUsing]
    refine (related_unnested happly e).bind fun x ys _ _ hx => ?_
    refine (related_unnestedAll happly es).bind fun xs zs _ _ hxs => ?_
    apply Related.value
    rw [nearestPlace_cons, nearestPlace_append, hx, hxs]

end

theorem sameNumber_unnestedAll (happly : side.Interprets apply) (es : List Expr) :
    Related SameNumber ((Expr.call side.operation es).valueUsing apply assignment)
      ((Expr.call side.operation (Expr.unnestedAll side.operation es)).valueUsing apply
        assignment) := by
  rw [valueUsing_call, valueUsing_call]
  refine (related_unnestedAll happly es).bind fun xs ys _ _ hnearest => ?_
  obtain ⟨r, hr, hgives⟩ := happly xs
  obtain ⟨s, hs, hgives'⟩ := happly ys
  rw [hr, hs]
  exact .value (hgives.sameNumber hgives' hnearest)

/-- The value of the operation is an extremum that the operands may have, and what these may have
hangs on no choice between two zeros. It is NaN exactly if an operand is NaN, and otherwise at least
as near to its end as every operand and equal to one of them, or the infinity at the other end if
there is none. Operands in another order have the same one, and so have the extrema of two parts of
them. Hence a call has the same value when calls of the same operation among its operands, nested in
any way, give way to their own operands. -/
theorem order_independent (side : Extremum) :
    side.Interprets Operation.value ∧
      (∀ (xs : List Float) (r : Float), side.Gives xs r →
        (r.isNaN = true ↔ ∃ x ∈ xs, x.isNaN = true) ∧
        (r.isNaN = false → (∀ x ∈ xs, side.Reaches r x) ∧
          (xs = [] ∧ r = side.start ∨ ∃ x ∈ xs, (r == x) = true))) ∧
      (∀ (xs ys : List Float) (r s : Float), xs.Perm ys → side.Gives xs r → side.Gives ys s →
        SameNumber r s) ∧
      (∀ (xs ys : List Float) (a b r s : Float), side.Gives xs a → side.Gives ys b →
        side.Gives (xs ++ ys) r → side.Gives [a, b] s → SameNumber r s) ∧
      (∀ (es : List Expr) (assignment : List Float),
        Related SameNumber ((Expr.call side.operation es).value assignment)
          ((Expr.call side.operation (Expr.unnestedAll side.operation es)).value assignment)) ∧
      ∀ apply : Operation → List Float → Except EvalError Float, side.Interprets apply →
        ∀ (es : List Expr) (assignment : List Float),
          Related SameNumber ((Expr.call side.operation es).valueUsing apply assignment)
            ((Expr.call side.operation (Expr.unnestedAll side.operation es)).valueUsing apply
              assignment) := by
  refine ⟨interprets_value side, ?_, ?_, ?_, ?_, ?_⟩
  · intro xs r h
    refine ⟨h.isNaN_iff, fun hr => ⟨fun x hx => h.reaches hr hx, ?_⟩⟩
    by_cases hxs : xs = []
    · subst hxs
      exact Or.inl ⟨rfl, h.eq_start⟩
    · exact Or.inr (h.exists_mem_beq hr hxs)
  · intro xs ys r s hperm hr hs
    exact hr.sameNumber hs (nearestPlace_perm hperm)
  · intro xs ys a b r s ha hb hr hs
    apply hr.sameNumber hs
    rw [nearestPlace_append, nearestPlace_cons, nearestPlace_singleton, ha.place_eq, hb.place_eq]
  · intro es assignment
    have hvalue (e : Expr) : e.valueUsing Operation.value assignment = e.value assignment :=
      Expr.valueUsing_eq_value (fun _ _ _ => rfl) e
    rw [← hvalue, ← hvalue]
    exact sameNumber_unnestedAll (interprets_value side) es
  · intro apply happly es assignment
    exact sameNumber_unnestedAll happly es

/-- Of the two zeros in either order, the one may be the least here and the other one there. -/
theorem order_independent_zeros :
    [0.0, -0.0].Perm [-0.0, 0.0] ∧ least.Gives [0.0, -0.0] (-0.0) ∧ least.Gives [-0.0, 0.0] 0.0 ∧
      SameNumber (-0.0) 0.0 := by
  have hswap : [0.0, -0.0].Perm [-0.0, (0.0 : Float)] := .swap _ _ _
  have hnegative : least.Gives [0.0, -0.0] (-0.0) := gives_second_of_beq rfl
  have hpositive : least.Gives [-0.0, 0.0] 0.0 := gives_second_of_beq rfl
  obtain ⟨-, -, hperm, -⟩ := order_independent least
  exact ⟨hswap, hnegative, hpositive, hperm _ _ _ _ hswap hnegative hpositive⟩

end Extremum

end PrefixArith
