import Mathlib.Data.List.Forall2
import PrefixArith.Expr.Value

namespace PrefixArith

def Label.defect? (supplied : Nat) : Label → Option EvalError
  | const _ => none
  | var v => if v.index < supplied then none else some (.unbound v v.index supplied)
  | call op count => (op.arity.mismatch? count).map fun due => .wrongCount op due count

def Label.firstDefect? (supplied : Nat) (labels : List Label) : Option EvalError :=
  labels.findSome? (defect? supplied)

theorem Label.firstDefect?_append (supplied : Nat) (as bs : List Label) :
    firstDefect? supplied (as ++ bs) = (firstDefect? supplied as).or (firstDefect? supplied bs) :=
  List.findSome?_append

theorem Label.firstDefect?_cons (supplied : Nat) (l : Label) (ls : List Label) :
    firstDefect? supplied (l :: ls) = (l.defect? supplied).or (firstDefect? supplied ls) := by
  rw [firstDefect?, List.findSome?_cons]
  cases l.defect? supplied <;> rfl

theorem Label.firstDefect?_var (supplied : Nat) (v : Variable) :
    firstDefect? supplied (Expr.var v).preorder =
      if v.index < supplied then none else some (.unbound v v.index supplied) := by
  rw [Expr.preorder, firstDefect?_cons, firstDefect?, List.findSome?_nil, Option.or_none]
  rfl

namespace Operation

/-- An operation has a value on as many operands as it takes. -/
theorem exists_value {op : Operation} {xs : List Float}
    (h : op.arity.admits xs.length = true) : ∃ x, op.value xs = .ok x := by
  rw [← isSome_result?] at h
  obtain ⟨x, hx⟩ := Option.isSome_iff_exists.1 h
  exact ⟨x, by rw [value, hx]⟩

end Operation

namespace Expr

variable {assignment : List Float}

theorem value_var_of_lt {v : Variable} (h : v.index < assignment.length) :
    (var v).value assignment = .ok assignment[v.index] := by
  rw [value, List.getElem?_eq_getElem h]

theorem value_var_of_le {v : Variable} (h : assignment.length ≤ v.index) :
    (var v).value assignment = .error (.unbound v v.index assignment.length) := by
  rw [value, List.getElem?_eq_none h]

theorem value_call_of_admits {op : Operation} {es : List Expr}
    (h : op.arity.admits es.length = true) :
    (call op es).value assignment = values assignment es >>= op.value := by
  rw [value, Arity.mismatch?_eq_none_iff.2 h]

-- By recursion on the expression. The count of the values is carried along, since it is what the
-- operation's arity was asked about.
mutual

theorem exists_value (e : Expr) (h : Label.firstDefect? assignment.length e.preorder = none) :
    ∃ x, e.value assignment = .ok x :=
  match e with
  | const c => ⟨c, rfl⟩
  | var v => by
    rw [Label.firstDefect?_var] at h
    by_cases hlt : v.index < assignment.length
    · exact ⟨_, value_var_of_lt hlt⟩
    · rw [if_neg hlt] at h
      cases h
  | call op es => by
    rw [preorder, Label.firstDefect?_cons, Option.or_eq_none_iff, Label.defect?,
      Option.map_eq_none_iff, Arity.mismatch?_eq_none_iff] at h
    obtain ⟨xs, hxs, hlength⟩ := exists_values es h.2
    rw [value_call_of_admits h.1, hxs]
    rw [← hlength] at h
    exact Operation.exists_value h.1

theorem exists_values (es : List Expr)
    (h : Label.firstDefect? assignment.length (preorderAll es) = none) :
    ∃ xs, values assignment es = .ok xs ∧ xs.length = es.length :=
  match es with
  | [] => ⟨[], rfl, rfl⟩
  | e :: es => by
    rw [preorderAll, Label.firstDefect?_append, Option.or_eq_none_iff] at h
    obtain ⟨x, hx⟩ := exists_value e h.1
    obtain ⟨xs, hxs, hlength⟩ := exists_values es h.2
    refine ⟨x :: xs, ?_, congrArg (· + 1) hlength⟩
    rw [values, hx, hxs]
    rfl

end

-- By recursion along the preorder: whatever comes before the first defect has a value.
mutual

theorem value_eq_error (e : Expr) {err : EvalError}
    (h : Label.firstDefect? assignment.length e.preorder = some err) :
    e.value assignment = .error err :=
  match e with
  | const c => by cases h
  | var v => by
    rw [Label.firstDefect?_var] at h
    by_cases hlt : v.index < assignment.length
    · rw [if_pos hlt] at h
      cases h
    · rw [if_neg hlt] at h
      rw [value_var_of_le (Nat.le_of_not_lt hlt), Option.some.inj h]
  | call op es => by
    rw [preorder, Label.firstDefect?_cons, Label.defect?] at h
    cases hcount : op.arity.mismatch? es.length with
    | some due =>
      rw [hcount, Option.map_some, Option.some_or] at h
      rw [value, hcount, ← Option.some.inj h]
    | none =>
      rw [hcount, Option.map_none, Option.none_or] at h
      rw [value_call_of_admits (Arity.mismatch?_eq_none_iff.1 hcount), values_eq_error es h]
      rfl

theorem values_eq_error (es : List Expr) {err : EvalError}
    (h : Label.firstDefect? assignment.length (preorderAll es) = some err) :
    values assignment es = .error err :=
  match es with
  | [] => by cases h
  | e :: es => by
    rw [preorderAll, Label.firstDefect?_append] at h
    cases he : Label.firstDefect? assignment.length e.preorder with
    | some err' =>
      rw [he, Option.some_or] at h
      rw [values, value_eq_error e he, Option.some.inj h]
      rfl
    | none =>
      rw [he, Option.none_or] at h
      obtain ⟨x, hx⟩ := exists_value e he
      rw [values, hx, values_eq_error es h]
      rfl

end

theorem exists_value_iff {e : Expr} :
    (∃ x, e.value assignment = .ok x) ↔ Label.firstDefect? assignment.length e.preorder = none := by
  refine ⟨?_, exists_value e⟩
  rintro ⟨x, hx⟩
  cases h : Label.firstDefect? assignment.length e.preorder with
  | none => rfl
  | some err =>
    rw [value_eq_error e h] at hx
    cases hx

theorem value_eq_error_iff {e : Expr} {err : EvalError} :
    e.value assignment = .error err ↔
      Label.firstDefect? assignment.length e.preorder = some err := by
  refine ⟨?_, value_eq_error e⟩
  intro h
  cases hdefect : Label.firstDefect? assignment.length e.preorder with
  | none =>
    obtain ⟨x, hx⟩ := exists_value e hdefect
    rw [hx] at h
    cases h
  | some err' =>
    rw [value_eq_error e hdefect] at h
    rw [Except.error.inj h]

end Expr

theorem Label.defect?_ne_undefined {supplied : Nat} {l : Label} (op : Operation) (count : Nat) :
    l.defect? supplied ≠ some (.undefined op count) := by
  cases l with
  | const c => exact nofun
  | var v =>
    rw [defect?]
    split
    · exact nofun
    · exact nofun
  | call op' count' =>
    rw [defect?]
    cases op'.arity.mismatch? count' with
    | none => exact nofun
    | some due => exact nofun

/-- The error names the variable's own index, which lies past the end of the values. -/
theorem Label.eq_var_of_defect? {supplied given index : Nat} {l : Label} {v : Variable}
    (h : l.defect? supplied = some (.unbound v index given)) :
    l = .var v ∧ index = v.index ∧ given = supplied ∧ supplied ≤ v.index := by
  cases l with
  | const c => cases h
  | call op count =>
    obtain ⟨due, -, hdue⟩ := Option.map_eq_some_iff.1 h
    cases hdue
  | var u =>
    rw [defect?] at h
    by_cases hlt : u.index < supplied
    · rw [if_pos hlt] at h
      cases h
    · rw [if_neg hlt] at h
      cases h
      exact ⟨rfl, rfl, rfl, Nat.le_of_not_lt hlt⟩

theorem Expr.value_eq_unbound {e : Expr} {assignment : List Float} {v : Variable}
    {index supplied : Nat} (h : e.value assignment = .error (.unbound v index supplied)) :
    Label.var v ∈ e.preorder ∧ index = v.index ∧ supplied = assignment.length ∧
      assignment.length ≤ v.index := by
  rw [value_eq_error_iff, Label.firstDefect?] at h
  obtain ⟨l, hmem, hl⟩ := List.exists_of_findSome?_eq_some h
  obtain ⟨rfl, hindex⟩ := Label.eq_var_of_defect? hl
  exact ⟨hmem, hindex⟩

namespace Expr

mutual

/-- The value on an assignment where `apply` stands for the operations. -/
def valueUsing (apply : Operation → List Float → Except EvalError Float)
    (assignment : List Float) : Expr → Except EvalError Float
  | const c => .ok c
  | var v =>
    match assignment[v.index]? with
    | some x => .ok x
    | none => .error (.unbound v v.index assignment.length)
  | call op es =>
    match op.arity.mismatch? es.length with
    | some expected => .error (.wrongCount op expected es.length)
    | none => valuesUsing apply assignment es >>= apply op

def valuesUsing (apply : Operation → List Float → Except EvalError Float)
    (assignment : List Float) : List Expr → Except EvalError (List Float)
  | [] => .ok []
  | e :: es => do
    let x ← valueUsing apply assignment e
    let xs ← valuesUsing apply assignment es
    return x :: xs

end

variable {assignment : List Float} {apply : Operation → List Float → Except EvalError Float}

theorem forall₂_of_valuesUsing {es : List Expr} {xs : List Float}
    (h : valuesUsing apply assignment es = .ok xs) :
    List.Forall₂ (fun e x => e.valueUsing apply assignment = .ok x) es xs := by
  induction es generalizing xs with
  | nil =>
    obtain rfl := Except.ok.inj h
    exact .nil
  | cons e es ih =>
    rw [valuesUsing] at h
    cases he : valueUsing apply assignment e with
    | error err =>
      rw [he] at h
      cases h
    | ok x =>
      cases hes : valuesUsing apply assignment es with
      | error err =>
        rw [he, hes] at h
        cases h
      | ok ys =>
        rw [he, hes] at h
        obtain rfl := Except.ok.inj h
        exact .cons he (ih hes)

theorem length_of_valuesUsing {es : List Expr} {xs : List Float}
    (h : valuesUsing apply assignment es = .ok xs) : xs.length = es.length :=
  (forall₂_of_valuesUsing h).length_eq.symm

-- By recursion on the expression: the count that the arity was asked about is that of the values,
-- so `apply` is never given any other number of operands.
mutual

theorem valueUsing_eq_value
    (happly : ∀ op xs, op.arity.admits xs.length = true → apply op xs = op.value xs) (e : Expr) :
    e.valueUsing apply assignment = e.value assignment :=
  match e with
  | const _ => rfl
  | var _ => rfl
  | call op es => by
    rw [valueUsing, value]
    cases hcount : op.arity.mismatch? es.length with
    | some due => rfl
    | none =>
      have ih := valuesUsing_eq_values happly es
      dsimp only
      rw [← ih]
      cases hes : valuesUsing apply assignment es with
      | error err => rfl
      | ok xs =>
        rw [← length_of_valuesUsing hes, Arity.mismatch?_eq_none_iff] at hcount
        exact happly op xs hcount

theorem valuesUsing_eq_values
    (happly : ∀ op xs, op.arity.admits xs.length = true → apply op xs = op.value xs)
    (es : List Expr) : valuesUsing apply assignment es = values assignment es :=
  match es with
  | [] => rfl
  | e :: es => by
    rw [valuesUsing, values, valueUsing_eq_value happly e, valuesUsing_eq_values happly es]

end

/-- An expression has a value exactly if no node has a defect, and otherwise fails with the defect
of the first node in preorder that has one. Operations are only applied to as many operands as they
take: whatever else stands for them on other numbers of operands, the outcome is the same, and it is
never that an operation has no value. -/
theorem value_outcome (e : Expr) (assignment : List Float) :
    ((∃ x, e.value assignment = .ok x) ↔
        ∀ l ∈ e.preorder, l.defect? assignment.length = none) ∧
      (∀ err, e.value assignment = .error err ↔
        ∃ before l after, e.preorder = before ++ l :: after ∧
          l.defect? assignment.length = some err ∧
          ∀ l' ∈ before, l'.defect? assignment.length = none) ∧
      (∀ apply : Operation → List Float → Except EvalError Float,
        (∀ op xs, op.arity.admits xs.length = true → apply op xs = op.value xs) →
          e.valueUsing apply assignment = e.value assignment) ∧
      ∀ op count, e.value assignment ≠ .error (.undefined op count) := by
  refine ⟨?_, ?_, ?_, ?_⟩
  · rw [exists_value_iff, Label.firstDefect?, List.findSome?_eq_none_iff]
  · intro err
    rw [value_eq_error_iff, Label.firstDefect?, List.findSome?_eq_some_iff]
  · intro apply happly
    exact valueUsing_eq_value happly e
  · intro op count h
    rw [value_eq_error_iff, Label.firstDefect?] at h
    obtain ⟨l, -, hl⟩ := List.exists_of_findSome?_eq_some h
    exact Label.defect?_ne_undefined op count hl

end Expr

end PrefixArith
