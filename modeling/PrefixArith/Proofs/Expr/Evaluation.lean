import PrefixArith.Proofs.Expr.Defects
import PrefixArith.Proofs.Reader.Acceptance

namespace PrefixArith

/-- The variables that a text names, in order and as often as it does. -/
def Variable.ofText (source : String) : List Variable :=
  (Lexeme.words (Lexeme.ofText source)).filterMap ofName?

def Variable.firstUnbound? (supplied : Nat) (vs : List Variable) : Option Variable :=
  vs.find? fun v => decide (supplied ≤ v.index)

theorem Variable.firstUnbound?_cons (supplied : Nat) (v : Variable) (vs : List Variable) :
    firstUnbound? supplied (v :: vs) =
      if v.index < supplied then firstUnbound? supplied vs else some v := by
  rw [firstUnbound?, List.find?_cons]
  by_cases hlt : v.index < supplied
  · have hbound : decide (supplied ≤ v.index) = false := by simpa using hlt
    rw [if_pos hlt, hbound]
    rfl
  · have hunbound : decide (supplied ≤ v.index) = true := by simpa using hlt
    rw [if_neg hlt, hunbound]

/-- Every variable has a value exactly if the assignment is long enough for each. -/
theorem Variable.firstUnbound?_eq_none_iff {supplied : Nat} {vs : List Variable} :
    firstUnbound? supplied vs = none ↔ ∀ v ∈ vs, v.index < supplied := by
  simp only [firstUnbound?, List.find?_eq_none, decide_eq_true_eq, Nat.not_le]

/-- An assignment of all variables binds any of them. -/
theorem Variable.firstUnbound?_of_all {supplied : Nat} (h : all.length ≤ supplied)
    (vs : List Variable) : firstUnbound? supplied vs = none := by
  rw [firstUnbound?_eq_none_iff]
  intro v _
  exact Nat.lt_of_lt_of_le v.index_lt h

def Atom.toVariable? : Atom → Option Variable
  | var v => some v
  | _ => none

/-- A word names a variable exactly if it means one, since no name is a symbol. -/
theorem Atom.bind_toVariable?_ofWord? (w : String) :
    (ofWord? w).bind toVariable? = Variable.ofName? w := by
  cases hv : Variable.ofName? w with
  | some v =>
    rw [ofWord?_eq_var_iff.2 ⟨ofSymbol?_of_ofName? hv, hv⟩]
    rfl
  | none =>
    unfold ofWord?
    rw [hv]
    cases Operation.ofSymbol? w <;> cases Numeral.read? w <;> rfl

def Label.toVariable? (l : Label) : Option Variable := l.atom.toVariable?

/-- The words of an expression name the variables of its nodes in preorder. -/
theorem filterMap_ofName?_words {ws : List String} {ls : List Label}
    (h : ws.map Atom.ofWord? = ls.map fun l => some l.atom) :
    ws.filterMap Variable.ofName? = ls.filterMap Label.toVariable? := by
  have hws : ws.filterMap Variable.ofName? =
      (ws.map Atom.ofWord?).filterMap fun a => a.bind Atom.toVariable? := by
    rw [List.filterMap_map]
    apply congrFun (congrArg List.filterMap _)
    funext w
    exact (Atom.bind_toVariable?_ofWord? w).symm
  rw [hws, h, List.filterMap_map]
  rfl

/-- Where every node is valid, the only defects are variables without value. -/
theorem Label.firstDefect?_of_valid {ls : List Label} (h : ∀ l ∈ ls, l.Valid) (supplied : Nat) :
    firstDefect? supplied ls =
      (Variable.firstUnbound? supplied (ls.filterMap toVariable?)).map
        fun v => .unbound v v.index supplied := by
  induction ls with
  | nil => rfl
  | cons l ls ih =>
    have ih := ih fun l' hl' => h l' (List.mem_cons_of_mem l hl')
    have hl := h l List.mem_cons_self
    rw [firstDefect?_cons, ih]
    cases l with
    | const c => rfl
    | call op count =>
      rw [defect?, Arity.mismatch?_eq_none_iff.2 hl]
      rfl
    | var v =>
      change _ = (Variable.firstUnbound? supplied (v :: ls.filterMap toVariable?)).map _
      rw [defect?, Variable.firstUnbound?_cons]
      by_cases hlt : v.index < supplied
      · rw [if_pos hlt, if_pos hlt]
        rfl
      · rw [if_neg hlt, if_neg hlt]
        rfl

/-- The first variable of a text that has no value, if all its nodes are valid. -/
theorem firstDefect?_preorder {source : String} {e : Expr} (h : Expr.parse source = .ok e)
    (supplied : Nat) :
    Label.firstDefect? supplied e.preorder =
      (Variable.firstUnbound? supplied (Variable.ofText source)).map
        fun v => .unbound v v.index supplied := by
  have hsentence := Expr.parse_eq_ok.1 h
  rw [Label.firstDefect?_of_valid hsentence.valid, Variable.ofText,
    filterMap_ofName?_words hsentence.words]

section
variable {source : String} {assignment : List Float}

theorem evaluate_of_parse_error {d : Diagnostic} (h : Expr.parse source = .error d) :
    evaluate source assignment = .error (.parse d) := by
  rw [evaluate, h]
  rfl

theorem evaluate_of_parse_ok {e : Expr} (h : Expr.parse source = .ok e) :
    evaluate source assignment = (e.value assignment).mapError Failure.value := by
  rw [evaluate, h]
  rfl

/-- Every variable that the text names has a value. -/
theorem exists_evaluate {e : Expr} (h : Expr.parse source = .ok e)
    (hbound : Variable.firstUnbound? assignment.length (Variable.ofText source) = none) :
    ∃ x, evaluate source assignment = .ok x := by
  have hnone : Label.firstDefect? assignment.length e.preorder = none := by
    rw [firstDefect?_preorder h, hbound]
    rfl
  obtain ⟨x, hx⟩ := e.exists_value hnone
  refine ⟨x, ?_⟩
  rw [evaluate_of_parse_ok h, hx]
  rfl

theorem evaluate_unbound {e : Expr} (h : Expr.parse source = .ok e) {v : Variable}
    (hv : Variable.firstUnbound? assignment.length (Variable.ofText source) = some v) :
    evaluate source assignment = .error (.value (.unbound v v.index assignment.length)) := by
  have hsome : Label.firstDefect? assignment.length e.preorder =
      some (.unbound v v.index assignment.length) := by
    rw [firstDefect?_preorder h, hv]
    rfl
  rw [evaluate_of_parse_ok h, e.value_eq_error hsome]
  rfl

/-- Where there is no value, either there is no expression or a variable is unbound. -/
theorem evaluate_error_cases {f : Failure} (h : evaluate source assignment = .error f) :
    (∃ d, f = .parse d) ∨ ∃ v, f = .value (.unbound v v.index assignment.length) := by
  cases hparse : Expr.parse source with
  | error d =>
    rw [evaluate_of_parse_error hparse] at h
    exact Or.inl ⟨d, (Except.error.inj h).symm⟩
  | ok e =>
    cases hfind : Variable.firstUnbound? assignment.length (Variable.ofText source) with
    | none =>
      obtain ⟨x, hx⟩ := exists_evaluate hparse hfind
      rw [hx] at h
      cases h
    | some v =>
      rw [evaluate_unbound hparse hfind] at h
      exact Or.inr ⟨v, (Except.error.inj h).symm⟩

end

/-- A text has the diagnostic of its reading or, if it reads, a value unless a variable that it
names has none; then the first such variable in the text is reported. No call is found to have the
wrong number of operands, no operation is applied to operands on which it has no value, and with a
value for every variable nothing but reading can fail. -/
theorem evaluate_outcome (source : String) (assignment : List Float) :
    (match Expr.parse source with
      | .error d => evaluate source assignment = .error (.parse d)
      | .ok _ =>
        match Variable.firstUnbound? assignment.length (Variable.ofText source) with
        | none => ∃ x, evaluate source assignment = .ok x
        | some v =>
          evaluate source assignment = .error (.value (.unbound v v.index assignment.length))) ∧
      (∀ op expected found,
        evaluate source assignment ≠ .error (.value (.wrongCount op expected found))) ∧
      (∀ op count, evaluate source assignment ≠ .error (.value (.undefined op count))) ∧
      (Variable.all.length ≤ assignment.length →
        ∀ e, Expr.parse source = .ok e → ∃ x, evaluate source assignment = .ok x) := by
  refine ⟨?_, ?_, ?_, ?_⟩
  · cases hparse : Expr.parse source with
    | error d => exact evaluate_of_parse_error hparse
    | ok e =>
      dsimp only
      cases hfind : Variable.firstUnbound? assignment.length (Variable.ofText source) with
      | none => exact exists_evaluate hparse hfind
      | some v => exact evaluate_unbound hparse hfind
  · intro op expected found h
    rcases evaluate_error_cases h with ⟨d, hd⟩ | ⟨v, hv⟩
    · cases hd
    · cases hv
  · intro op count h
    rcases evaluate_error_cases h with ⟨d, hd⟩ | ⟨v, hv⟩
    · cases hd
    · cases hv
  · intro hall e hparse
    exact exists_evaluate hparse (Variable.firstUnbound?_of_all hall _)

end PrefixArith
