import PrefixArith.Atom
import PrefixArith.Proofs.Numeral.Reading
import PrefixArith.Token

namespace PrefixArith

namespace Atom

theorem ofWord?_eq_operation_iff {w : String} {op : Operation} :
    ofWord? w = some (.operation op) ↔ Operation.ofSymbol? w = some op := by
  unfold ofWord?
  cases Operation.ofSymbol? w <;> cases Variable.ofName? w <;> simp

theorem ofWord?_eq_var_iff {w : String} {v : Variable} :
    ofWord? w = some (.var v) ↔ Operation.ofSymbol? w = none ∧ Variable.ofName? w = some v := by
  unfold ofWord?
  cases Operation.ofSymbol? w <;> cases Variable.ofName? w <;> simp

theorem ofWord?_eq_number_iff {w : String} {c : Float} :
    ofWord? w = some (.number c) ↔
      Operation.ofSymbol? w = none ∧ Variable.ofName? w = none ∧ Numeral.read? w = some c := by
  unfold ofWord?
  cases Operation.ofSymbol? w <;> cases Variable.ofName? w <;> simp

/-- A variable's name is no symbol. -/
theorem ofSymbol?_of_ofName? {w : String} {v : Variable} (h : Variable.ofName? w = some v) :
    Operation.ofSymbol? w = none := by
  rw [Variable.ofName?_eq_some_iff] at h
  subst h
  cases v <;> decide

end Atom

def Lexeme.ofText (source : String) : List Lexeme := (Token.ofText source).map Token.lexeme

def Lexeme.words : List Lexeme → List String
  | [] => []
  | opening :: us | closing :: us => words us
  | word w :: us => w :: words us

@[simp] theorem Lexeme.words_append (us vs : List Lexeme) :
    words (us ++ vs) = words us ++ words vs := by
  induction us with
  | nil => rfl
  | cons u us ih => cases u <;> simp [words, ih]

def Lexeme.startsWithOperation : List Lexeme → Bool
  | word w :: _ => (Operation.ofSymbol? w).isSome
  | _ => false

theorem Lexeme.startsWithOperation_append {us vs : List Lexeme} (h : us ≠ []) :
    startsWithOperation (us ++ vs) = startsWithOperation us := by
  cases us with
  | nil => exact absurd rfl h
  | cons u us => cases u <;> rfl

def Expr.isLeaf : Expr → Bool
  | const _ | var _ => true
  | call _ _ => false

/-- What can be spelled: a constant that is a number, a variable, or an operation with as many
operands as it takes. -/
def Label.Valid : Label → Prop
  | const c => c.isNaN = false
  | var _ => True
  | call op count => op.arity.admits count = true

def Expr.Valid (e : Expr) : Prop := ∀ l ∈ e.preorder, l.Valid

def Label.atom : Label → Atom
  | const c => .number c
  | var v => .var v
  | call op _ => .operation op

namespace Grammar

/-- A leaf is one word, which names a variable or, being neither a symbol nor such a name, is a
numeral of a number. -/
inductive Leaf : String → Expr → Prop
  | var {w : String} {v : Variable} (hvar : Variable.ofName? w = some v) : Leaf w (.var v)
  | number {w : String} {c : Float} (hop : Operation.ofSymbol? w = none)
      (hvar : Variable.ofName? w = none) (hc : Numeral.read? w = some c) (hnan : c.isNaN = false) :
      Leaf w (.const c)

mutual

/-- An operand is a leaf, or an operation with as many operands as it takes, in parentheses. -/
inductive Operand : List Lexeme → Expr → Prop
  | leaf {w : String} {e : Expr} (he : Leaf w e) : Operand [.word w] e
  | call {w : String} {op : Operation} {us : List Lexeme} {es : List Expr}
      (hw : Operation.ofSymbol? w = some op) (hes : Operands us es)
      (hcount : op.arity.admits es.length = true) :
      Operand (.opening :: .word w :: (us ++ [.closing])) (.call op es)

inductive Operands : List Lexeme → List Expr → Prop
  | nil : Operands [] []
  | cons {us vs : List Lexeme} {e : Expr} {es : List Expr} (he : Operand us e)
      (hes : Operands vs es) : Operands (us ++ vs) (e :: es)

end

/-- A whole text is an operand, or a call that does without its parentheses. -/
inductive Sentence : List Lexeme → Expr → Prop
  | operand {us : List Lexeme} {e : Expr} (he : Operand us e) : Sentence us e
  | call {w : String} {op : Operation} {us : List Lexeme} {es : List Expr}
      (hw : Operation.ofSymbol? w = some op) (hes : Operands us es)
      (hcount : op.arity.admits es.length = true) : Sentence (.word w :: us) (.call op es)

theorem Leaf.of_var {w : String} {v : Variable} (h : Atom.ofWord? w = some (.var v)) :
    Leaf w (.var v) :=
  .var (Atom.ofWord?_eq_var_iff.1 h).2

theorem Leaf.of_number {w : String} {c : Float} (h : Atom.ofWord? w = some (.number c)) :
    Leaf w (.const c) := by
  obtain ⟨hop, hvar, hc⟩ := Atom.ofWord?_eq_number_iff.1 h
  exact .number hop hvar hc (Numeral.isNaN_of_read? hc)

theorem Leaf.ofWord? {w : String} {e : Expr} (h : Leaf w e) :
    Atom.ofWord? w = some e.label.atom := by
  cases h with
  | var hvar => exact Atom.ofWord?_eq_var_iff.2 ⟨Atom.ofSymbol?_of_ofName? hvar, hvar⟩
  | number hop hvar hc _ => exact Atom.ofWord?_eq_number_iff.2 ⟨hop, hvar, hc⟩

theorem Leaf.isLeaf {w : String} {e : Expr} (h : Leaf w e) : e.isLeaf = true := by
  cases h <;> rfl

theorem Operand.exists_leaf {us : List Lexeme} {e : Expr} (h : Operand us e)
    (he : e.isLeaf = true) : ∃ w, us = [.word w] ∧ Leaf w e := by
  cases h with
  | leaf hw => exact ⟨_, rfl, hw⟩
  | call => simp [Expr.isLeaf] at he

/-- An operand is a leaf, which is no operation, or starts with a parenthesis. -/
theorem Operand.not_startsWithOperation {us : List Lexeme} {e : Expr} (h : Operand us e) :
    Lexeme.startsWithOperation us = false := by
  cases h with
  | leaf he =>
    cases he with
    | var hvar =>
      rw [Lexeme.startsWithOperation, Atom.ofSymbol?_of_ofName? hvar, Option.isSome_none]
    | number hop => rw [Lexeme.startsWithOperation, hop, Option.isSome_none]
  | call => rfl

mutual

theorem Operand.count_eq {us : List Lexeme} {e : Expr} :
    Operand us e → us.count .opening = us.count .closing
  | .leaf _ => by simp
  | .call _ hes _ => by
    have ih := hes.count_eq
    simp [List.count_append, ih]

theorem Operands.count_eq {us : List Lexeme} {es : List Expr} :
    Operands us es → us.count .opening = us.count .closing
  | .nil => rfl
  | .cons he hes => by
    have ihe := he.count_eq
    have ih := hes.count_eq
    rw [List.count_append, List.count_append, ihe, ih]

end

theorem Operand.ne_nil {us : List Lexeme} {e : Expr} (h : Operand us e) : us ≠ [] := by
  cases h <;> simp

theorem Operand.getLast?_ne {us : List Lexeme} {e : Expr} (h : Operand us e) :
    us.getLast? ≠ some .opening := by
  cases h with
  | leaf => simp
  | @call w _ us =>
    rw [← List.cons_append, ← List.cons_append, List.getLast?_concat]
    simp

/-- Every parenthesis that opens is followed by an operation. -/
def Headed (us : List Lexeme) : Prop :=
  ∀ vs ws, us = vs ++ .opening :: ws →
    ∃ w op xs, ws = .word w :: xs ∧ Operation.ofSymbol? w = some op

theorem Headed.append {us vs : List Lexeme} (hus : Headed us) (hvs : Headed vs) :
    Headed (us ++ vs) := by
  intro as bs h
  rcases List.append_eq_append_iff.1 h with ⟨cs, -, hcs⟩ | ⟨cs, hcs, hbs⟩
  · exact hvs cs bs hcs
  · cases cs with
    | nil => exact hvs [] bs hbs.symm
    | cons c cs =>
      obtain ⟨rfl, rfl⟩ := List.cons.inj hbs
      obtain ⟨w, op, xs, rfl, hw⟩ := hus as cs hcs
      exact ⟨w, op, xs ++ vs, rfl, hw⟩

theorem Headed.of_not_mem {us : List Lexeme} (h : Lexeme.opening ∉ us) : Headed us := by
  intro vs ws hus
  exact absurd (hus ▸ List.mem_append_right vs List.mem_cons_self) h

theorem Headed.group {w : String} {op : Operation} {us : List Lexeme}
    (hw : Operation.ofSymbol? w = some op) (hus : Headed us) :
    Headed (.opening :: .word w :: us) := by
  intro vs ws h
  cases vs with
  | nil =>
    obtain ⟨-, rfl⟩ := List.cons.inj h
    exact ⟨w, op, us, rfl, hw⟩
  | cons v vs =>
    have hword : Headed [Lexeme.word w] := .of_not_mem (by simp)
    exact hword.append hus vs ws (List.cons.inj h).2

mutual

theorem Operand.headed {us : List Lexeme} {e : Expr} : Operand us e → Headed us
  | .leaf _ => .of_not_mem (by simp)
  | .call hw hes _ => .group hw (hes.headed.append (.of_not_mem (by simp)))

theorem Operands.headed {us : List Lexeme} {es : List Expr} : Operands us es → Headed us
  | .nil => .of_not_mem (by simp)
  | .cons he hes => he.headed.append hes.headed

end

theorem Sentence.headed {us : List Lexeme} {e : Expr} (h : Sentence us e) : Headed us := by
  cases h with
  | operand he => exact he.headed
  | @call w _ _ _ _ hes _ =>
    have hword : Headed [Lexeme.word w] := .of_not_mem (by simp)
    exact hword.append hes.headed

mutual

theorem Operand.words {us : List Lexeme} {e : Expr} : Operand us e →
    (Lexeme.words us).map Atom.ofWord? = e.preorder.map fun l => some l.atom
  | .leaf he => by
    have hw := congrArg (fun a => [a]) he.ofWord?
    cases he <;> exact hw
  | .call hw hes _ => by
    have ih := hes.words
    have hop := Atom.ofWord?_eq_operation_iff.2 hw
    rw [Lexeme.words, Lexeme.words, Lexeme.words_append, List.map_cons, List.map_append, ih, hop]
    simp [Lexeme.words, Expr.preorder, Label.atom]

theorem Operands.words {us : List Lexeme} {es : List Expr} : Operands us es →
    (Lexeme.words us).map Atom.ofWord? =
      (Expr.preorderAll es).map fun l => some l.atom
  | .nil => rfl
  | .cons he hes => by
    have ihe := he.words
    have ih := hes.words
    rw [Lexeme.words_append, List.map_append, ihe, ih, Expr.preorderAll, List.map_append]

end

/-- Every node is spelled by one word, and the words stand in the order of the nodes. -/
theorem Sentence.words {us : List Lexeme} {e : Expr} (h : Sentence us e) :
    (Lexeme.words us).map Atom.ofWord? = e.preorder.map fun l => some l.atom := by
  cases h with
  | operand he => exact he.words
  | call hw hes hcount =>
    have ih := hes.words
    have hop := Atom.ofWord?_eq_operation_iff.2 hw
    rw [Lexeme.words, List.map_cons, ih, hop]
    rfl

mutual

theorem Operand.valid {us : List Lexeme} {e : Expr} : Operand us e → e.Valid
  | .leaf he => by
    intro l hl
    cases he with
    | var =>
      rw [List.mem_singleton.1 hl]
      trivial
    | number _ _ _ hnan =>
      rw [List.mem_singleton.1 hl]
      exact hnan
  | .call _ hes hcount => by
    intro l hl
    rcases List.mem_cons.1 hl with rfl | hl
    · exact hcount
    · exact hes.valid l hl

theorem Operands.valid {us : List Lexeme} {es : List Expr} :
    Operands us es → ∀ l ∈ Expr.preorderAll es, l.Valid
  | .nil => by
    intro l hl
    cases hl
  | .cons he hes => by
    intro l hl
    rcases List.mem_append.1 hl with hl | hl
    · exact he.valid l hl
    · exact hes.valid l hl

end

theorem Sentence.valid {us : List Lexeme} {e : Expr} (h : Sentence us e) : e.Valid := by
  cases h with
  | operand he => exact he.valid
  | call hw hes hcount => exact (Operand.call hw hes hcount).valid

end Grammar

end PrefixArith
