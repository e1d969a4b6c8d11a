import PrefixArith.Expr.Postorder
import PrefixArith.Proofs.Binary64.Zeros
import PrefixArith.Proofs.Expr.Defects
import PrefixArith.Proofs.Expr.Reparse

namespace PrefixArith
open Binary64

inductive Related {α β : Type} (R : α → β → Prop) :
    Except EvalError α → Except EvalError β → Prop
  | value {x : α} {y : β} (h : R x y) : Related R (.ok x) (.ok y)
  | error (err : EvalError) : Related R (.error err) (.error err)

namespace Related
variable {α β α' β' : Type} {R : α → β → Prop} {S : α' → β' → Prop}
  {m : Except EvalError α} {n : Except EvalError β}

theorem bind {f : α → Except EvalError α'} {g : β → Except EvalError β'} (h : Related R m n)
    (hfg : ∀ x y, m = .ok x → n = .ok y → R x y → Related S (f x) (g y)) :
    Related S (m >>= f) (n >>= g) := by
  cases h with
  | value h => exact hfg _ _ rfl rfl h
  | error err => exact .error err

theorem mono {R' : α → β → Prop} (h : Related R m n) (hR : ∀ x y, R x y → R' x y) :
    Related R' m n := by
  cases h with
  | value h => exact .value (hR _ _ h)
  | error err => exact .error err

theorem error_iff (h : Related R m n) (err : EvalError) : m = .error err ↔ n = .error err := by
  cases h with
  | value => exact ⟨nofun, nofun⟩
  | error err' => rw [Except.error.injEq, Except.error.injEq]

end Related

/-- Both are NaN, or they compare equal. -/
def SameNumber (x y : Float) : Prop := (x.isNaN = true ∧ y.isNaN = true) ∨ (x == y) = true

/-- A function that gives both zeros back, as the arctangent does. -/
structure KeepsZeros (f : Float → Float) : Prop where
  positive : f 0.0 = 0.0
  negative : f (-0.0) = -0.0

theorem KeepsZeros.isZero {f : Float → Float} (hf : KeepsZeros f) {x : Float} (hx : IsZero x) :
    IsZero (f x) := by
  rcases hx with rfl | rfl
  · exact Or.inl hf.positive
  · exact Or.inr hf.negative

theorem KeepsZeros.alike {f : Float → Float} (hf : KeepsZeros f) {x y : Float} (h : Alike x y) :
    Alike (f x) (f y) := by
  rcases h with rfl | ⟨hx, hy⟩
  · exact .refl _
  · exact Or.inr ⟨hf.isZero hx, hf.isZero hy⟩

theorem exists_one_of_forall₂ {α β : Type} {R : α → β → Prop} {xs : List α} {ys : List β}
    (h : List.Forall₂ R xs ys) (hlength : xs.length = 1) :
    ∃ a b, xs = [a] ∧ ys = [b] ∧ R a b := by
  obtain ⟨a, rfl⟩ := List.length_eq_one_iff.1 hlength
  obtain ⟨b, ys, hab, hnil, rfl⟩ := List.forall₂_cons_left_iff.1 h
  obtain rfl := List.forall₂_nil_left_iff.1 hnil
  exact ⟨a, b, rfl, rfl, hab⟩

theorem exists_two_of_forall₂ {α β : Type} {R : α → β → Prop} {xs : List α} {ys : List β}
    (h : List.Forall₂ R xs ys) (hlength : xs.length = 2) :
    ∃ a b c d, xs = [a, b] ∧ ys = [c, d] ∧ R a c ∧ R b d := by
  obtain ⟨a, b, rfl⟩ := List.length_eq_two.1 hlength
  obtain ⟨c, ys, hac, htail, rfl⟩ := List.forall₂_cons_left_iff.1 h
  obtain ⟨b', d, hb, rfl, hbd⟩ := exists_one_of_forall₂ htail rfl
  obtain rfl := List.head_eq_of_cons_eq hb
  exact ⟨a, b, c, d, rfl, rfl, hac, hbd⟩

namespace Operation

/-- The value of an operation where `atan` is the arctangent, the one function here that is known by
nothing but what is asked of it. -/
def valueWith (atan : Float → Float) : Operation → List Float → Except EvalError Float
  | .atan, [x] => .ok (atan x)
  | op, xs => op.value xs

theorem valueWith_atan (op : Operation) (xs : List Float) :
    op.valueWith Float.atan xs = op.value xs := by
  unfold valueWith
  split <;> rfl

/-- Whether the result may hang on the sign of a zero at a place among the operands. -/
def tellsZeroSign : Operation → Nat → Bool
  | div, place => place == 1
  | atan2, _ => true
  | _, _ => false

/-- On operands that differ in signs of zeros at most, and not where these can be told, an operation
has values that differ in the sign of a zero at most. -/
theorem related_valueWith {atan : Float → Float} {Q : Prop} (hatan : Q → KeepsZeros atan)
    {op : Operation} {xs ys : List Float} (hadmits : op.arity.admits xs.length = true)
    (h : List.Forall₂ (fun x y => Q → Alike x y) xs ys)
    (htold : Q → ∀ i, op.tellsZeroSign i = true → xs[i]? = ys[i]?) :
    Related (fun x y => Q → Alike x y) (op.valueWith atan xs) (op.valueWith atan ys) := by
  have hall (hq : Q) : List.Forall₂ Alike xs ys := h.imp fun _ _ hxy => hxy hq
  cases op with
  | add =>
    obtain ⟨a, b, c, d, rfl, rfl, hac, hbd⟩ :=
      exists_two_of_forall₂ h ((Arity.admits_exactly _ _).1 hadmits)
    exact .value fun hq => (hac hq).add (hbd hq)
  | sub =>
    obtain ⟨a, b, c, d, rfl, rfl, hac, hbd⟩ :=
      exists_two_of_forall₂ h ((Arity.admits_exactly _ _).1 hadmits)
    exact .value fun hq => (hac hq).sub (hbd hq)
  | mul =>
    obtain ⟨a, b, c, d, rfl, rfl, hac, hbd⟩ :=
      exists_two_of_forall₂ h ((Arity.admits_exactly _ _).1 hadmits)
    exact .value fun hq => (hac hq).mul (hbd hq)
  | div =>
    obtain ⟨a, b, c, d, rfl, rfl, hac, -⟩ :=
      exists_two_of_forall₂ h ((Arity.admits_exactly _ _).1 hadmits)
    refine .value fun hq => ?_
    -- the divisor is the same in both, its sign included
    obtain rfl : b = d := Option.some.inj (htold hq 1 rfl)
    exact (hac hq).div b
  | neg =>
    obtain ⟨a, b, rfl, rfl, hab⟩ :=
      exists_one_of_forall₂ h ((Arity.admits_exactly _ _).1 hadmits)
    exact .value fun hq => (hab hq).neg
  | atan =>
    obtain ⟨a, b, rfl, rfl, hab⟩ :=
      exists_one_of_forall₂ h ((Arity.admits_exactly _ _).1 hadmits)
    exact .value fun hq => (hatan hq).alike (hab hq)
  | atan2 =>
    obtain ⟨a, b, c, d, rfl, rfl, -, -⟩ :=
      exists_two_of_forall₂ h ((Arity.admits_exactly _ _).1 hadmits)
    refine .value fun hq => ?_
    obtain rfl : a = c := Option.some.inj (htold hq 0 rfl)
    obtain rfl : b = d := Option.some.inj (htold hq 1 rfl)
    exact .refl _
  | min => exact .value fun hq => Aggregate.least_alike (hall hq)
  | max => exact .value fun hq => Aggregate.greatest_alike (hall hq)
  | sum => exact .value fun hq => Aggregate.sum_alike (hall hq)
  | avg => exact .value fun hq => Aggregate.mean_alike (hall hq)

end Operation

namespace Expr

mutual

def Everywhere (P : Operation → List Expr → Prop) : Expr → Prop
  | const _ => True
  | var _ => True
  | call op es => P op es ∧ EverywhereAll P es

def EverywhereAll (P : Operation → List Expr → Prop) : List Expr → Prop
  | [] => True
  | e :: es => Everywhere P e ∧ EverywhereAll P es

end

theorem dropZeroSignsAll_eq_map (es : List Expr) : dropZeroSignsAll es = es.map dropZeroSigns := by
  induction es with
  | nil => rfl
  | cons e es ih => rw [dropZeroSignsAll, ih, List.map_cons]

mutual

/-- Where no negative zero occurs there is no sign to drop. -/
theorem dropZeroSigns_of_notMem (e : Expr) (h : Label.const (-0.0) ∉ e.preorder) :
    e.dropZeroSigns = e :=
  match e with
  | const c => by
    have hc : c ≠ -0.0 := by
      rintro rfl
      exact h List.mem_cons_self
    rw [dropZeroSigns, Numeral.dropZeroSign_of_ne hc]
  | var _ => rfl
  | call op es => by
    rw [dropZeroSigns, dropZeroSignsAll_of_notMem es fun hes => h (List.mem_cons_of_mem _ hes)]

theorem dropZeroSignsAll_of_notMem (es : List Expr) (h : Label.const (-0.0) ∉ preorderAll es) :
    dropZeroSignsAll es = es :=
  match es with
  | [] => rfl
  | e :: es => by
    rw [preorderAll, List.mem_append, not_or] at h
    rw [dropZeroSignsAll, dropZeroSigns_of_notMem e h.1, dropZeroSignsAll_of_notMem es h.2]

end

variable (atan : Float → Float) (assignment : List Float)

def HidesAt (es : List Expr) (i : Nat) : Prop :=
  ∀ e x, es[i]? = some e → Label.const (-0.0) ∈ e.preorder →
    e.valueUsing (Operation.valueWith atan) assignment = .ok x → ¬IsZero x

/-- Nowhere in the expression does an operation get a zero, at a place where it can tell its sign,
from an operand in which a negative zero occurs. -/
def HidesZeroSigns (e : Expr) : Prop :=
  e.Everywhere fun op es => ∀ i, op.tellsZeroSign i = true → HidesAt atan assignment es i

variable {atan assignment}

theorem getElem?_eq_of_hidesAt {es : List Expr} {xs ys : List Float}
    (hxs : List.Forall₂ (fun e x =>
      e.valueUsing (Operation.valueWith atan) assignment = .ok x) es xs)
    (hys : List.Forall₂ (fun e y =>
      e.dropZeroSigns.valueUsing (Operation.valueWith atan) assignment = .ok y) es ys)
    (h : List.Forall₂ Alike xs ys) {i : Nat} (hi : HidesAt atan assignment es i) :
    xs[i]? = ys[i]? := by
  induction hxs generalizing ys i with
  | nil =>
    cases h
    rfl
  | @cons e x es xs hx hxs ih =>
    cases hys with
    | @cons _ y _ ys hy hys =>
      cases h with
      | cons hxy h =>
        cases i with
        | succ i => exact ih hys h hi
        | zero =>
          refine congrArg some ?_
          by_cases hmem : Label.const (-0.0) ∈ e.preorder
          · exact hxy.eq_of_not_isZero (hi e x rfl hmem hx)
          · rw [dropZeroSigns_of_notMem e hmem, hx] at hy
            exact Except.ok.inj hy

-- The errors agree whatever happens to the zeros, and the values where these are hidden; `Q` lets
-- one induction do for both.
mutual

theorem related_dropZeroSigns {Q : Prop} (hatan : Q → KeepsZeros atan) (e : Expr)
    (h : Q → e.HidesZeroSigns atan assignment) :
    Related (fun x y => Q → Alike x y) (e.valueUsing (Operation.valueWith atan) assignment)
      (e.dropZeroSigns.valueUsing (Operation.valueWith atan) assignment) :=
  match e with
  | const c => by
    refine .value fun _ => ?_
    unfold Numeral.dropZeroSign
    split
    · rename_i hc
      exact Or.inr ⟨Or.inr hc, Or.inl rfl⟩
    · exact .refl c
  | var v => by
    rw [dropZeroSigns, valueUsing]
    split
    · exact .value fun _ => .refl _
    · exact .error _
  | call op es => by
    rw [dropZeroSigns, valueUsing, valueUsing, length_dropZeroSignsAll]
    cases hcount : op.arity.mismatch? es.length with
    | some due => exact .error _
    | none =>
      refine (related_dropZeroSignsAll hatan es fun hq => (h hq).2).bind ?_
      intro xs ys hxs hys hrelated
      rw [← length_of_valuesUsing hxs, Arity.mismatch?_eq_none_iff] at hcount
      refine Operation.related_valueWith hatan hcount hrelated ?_
      intro hq i htells
      have hys' := forall₂_of_valuesUsing hys
      rw [dropZeroSignsAll_eq_map, List.forall₂_map_left_iff] at hys'
      exact getElem?_eq_of_hidesAt (forall₂_of_valuesUsing hxs) hys'
        (hrelated.imp fun _ _ hxy => hxy hq) ((h hq).1 i htells)

theorem related_dropZeroSignsAll {Q : Prop} (hatan : Q → KeepsZeros atan) (es : List Expr)
    (h : Q → EverywhereAll (fun op es => ∀ i, op.tellsZeroSign i = true →
      HidesAt atan assignment es i) es) :
    Related (List.Forall₂ fun x y => Q → Alike x y)
      (valuesUsing (Operation.valueWith atan) assignment es)
      (valuesUsing (Operation.valueWith atan) assignment (dropZeroSignsAll es)) :=
  match es with
  | [] => .value .nil
  | e :: es => by
    rw [dropZeroSignsAll, valuesUsing, valuesUsing]
    refine (related_dropZeroSigns hatan e fun hq => (h hq).1).bind fun x y _ _ hxy => ?_
    refine (related_dropZeroSignsAll hatan es fun hq => (h hq).2).bind fun xs ys _ _ hxys => ?_
    exact .value (.cons hxy hxys)

end

theorem valueUsing_atan (e : Expr) :
    e.valueUsing (Operation.valueWith Float.atan) assignment = e.value assignment :=
  valueUsing_eq_value (fun op xs _ => op.valueWith_atan xs) e

/-- The text of an expression that was read reads back. What it reads back as has the same error on
an assignment or none either, and if the signs of negative zeros stay hidden there, it has the same
value up to the sign of a zero. -/
theorem value_prefixText {source : String} {e : Expr} (h : parse source = .ok e)
    {atan : Float → Float} (hatan : KeepsZeros atan) (assignment : List Float) :
    ∃ e', parse e.prefixText = .ok e' ∧
      (∀ err, e.value assignment = .error err ↔ e'.value assignment = .error err) ∧
      (e.HidesZeroSigns atan assignment →
        Related SameNumber (e.valueUsing (Operation.valueWith atan) assignment)
          (e'.valueUsing (Operation.valueWith atan) assignment)) := by
  have hflaw := (parse_eq_ok.1 h).valid.firstFlaw?
  refine ⟨e.dropZeroSigns, ?_, ?_, ?_⟩
  · rw [parse_eq_ok, Lexeme.ofText_prefixText]
    exact .operand (operand_lexemes e hflaw)
  · rw [← valueUsing_atan, ← valueUsing_atan]
    exact (related_dropZeroSigns False.elim e False.elim).error_iff
  · intro hhides
    exact (related_dropZeroSigns (fun _ : True => hatan) e fun _ => hhides).mono
      fun x y hxy => (hxy trivial).isNaN_or_beq

/-- Both zeros lose their signs, the one above the division bar and the one below it, which is added
to something else. -/
theorem value_prefixText_quotient :
    ∃ e e', parse "(atan (/ -0 (+ x -0)))" = .ok e ∧ KeepsZeros id ∧
      e.HidesZeroSigns id [2.0] ∧ e.prefixText = "(atan (/ 0 (+ x 0)))" ∧
      parse "(atan (/ 0 (+ x 0)))" = .ok e' ∧
      Related SameNumber (e.valueUsing (Operation.valueWith id) [2.0])
        (e'.valueUsing (Operation.valueWith id) [2.0]) := by
  have hread : parse "(atan (/ -0 (+ x -0)))" = .ok
      (.call .atan [.call .div [.const (-0.0), .call .add [.var .x, .const (-0.0)]]]) := by
    decide +kernel
  have hzeros : KeepsZeros id := ⟨rfl, rfl⟩
  have hhides : HidesZeroSigns id [2.0]
      (.call .atan [.call .div [.const (-0.0), .call .add [.var .x, .const (-0.0)]]]) := by
    refine ⟨nofun, ⟨?_, trivial, ⟨nofun, trivial, trivial, trivial⟩, trivial⟩, trivial⟩
    intro i hi e x he _ hx hzero
    obtain rfl : i = 1 := eq_of_beq hi
    obtain rfl := Option.some.inj he
    have hdivisor : valueUsing (Operation.valueWith id) [2.0]
        (.call .add [.var .x, .const (-0.0)]) = .ok 2.0 := by
      decide +kernel
    obtain rfl : x = 2.0 := Except.ok.inj (hx.symm.trans hdivisor)
    exact hzero.elim (by decide +kernel) (by decide +kernel)
  obtain ⟨e', he', -, hsame⟩ := value_prefixText hread hzeros [2.0]
  have htext : prefixText (.call .atan
      [.call .div [.const (-0.0), .call .add [.var .x, .const (-0.0)]]]) =
        "(atan (/ 0 (+ x 0)))" := by
    decide +kernel
  rw [htext] at he'
  exact ⟨_, e', hread, hzeros, hhides, htext, he', hsame hhides⟩

/-- A negative zero below the division bar: the quotient is the negative infinity, and the positive
one once the text is read back. -/
theorem value_prefixText_negative_zero_divisor :
    ∃ e e', parse "(/ 1 -0)" = .ok e ∧ e.prefixText = "(/ 1 0)" ∧ parse "(/ 1 0)" = .ok e' ∧
      e.value [] = .ok (ofRank true infinityRank) ∧
      e'.value [] = .ok (ofRank false infinityRank) ∧
      ¬Related SameNumber (e.value []) (e'.value []) := by
  have hvalue : value [] (.call .div [.const 1.0, .const (-0.0)]) =
      .ok (ofRank true infinityRank) := by
    decide +kernel
  have hvalue' : value [] (.call .div [.const 1.0, .const 0.0]) =
      .ok (ofRank false infinityRank) := by
    decide +kernel
  refine ⟨.call .div [.const 1.0, .const (-0.0)], .call .div [.const 1.0, .const 0.0], ?_, ?_, ?_,
    hvalue, hvalue', ?_⟩
  · decide +kernel
  · decide +kernel
  · decide +kernel
  · rw [hvalue, hvalue']
    rintro ⟨⟨hnan, -⟩ | hequal⟩
    · exact absurd hnan (by decide +kernel)
    · exact absurd hequal (by decide +kernel)

end Expr

end PrefixArith
