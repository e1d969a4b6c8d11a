import PrefixArith.Proofs.Grammar
import PrefixArith.Reader.State

namespace PrefixArith.LookBack
open Grammar

def justOpened (before : List Lexeme) : Bool := decide (before.getLast? = some .opening)

def isLoneLeaf : List Lexeme → Bool
  | [.word w] =>
    match Atom.ofWord? w with
    | some (.var _) | some (.number _) => true
    | _ => false
  | _ => false

/-- The lexemes behind the last opening parenthesis behind which as many open as close. -/
def openGroup? : List Lexeme → Option (List Lexeme)
  | [] => none
  | u :: us =>
    match openGroup? us with
    | some vs => some vs
    | none => if u = .opening ∧ us.count .opening = us.count .closing then some us else none

/-- The number of words and groups that stand in no group, where `depth` groups are open at
first. -/
def itemCount : Nat → List Lexeme → Nat
  | _, [] => 0
  | depth, .word _ :: us => (if depth = 0 then 1 else 0) + itemCount depth us
  | depth, .opening :: us => (if depth = 0 then 1 else 0) + itemCount (depth + 1) us
  | depth, .closing :: us => itemCount (depth - 1) us

def countFault? (stop : Nat) : List Lexeme → Option Fault
  | .word w :: us =>
    match Operation.ofSymbol? w with
    | some op =>
      (op.arity.mismatch? (itemCount 0 us)).map fun due =>
        .wrongCount op stop due (itemCount 0 us)
    | none => none
  | _ => none

/-- What is wrong with a token behind the lexemes before it. -/
def objection? (before : List Lexeme) (t : Token) : Option Fault :=
  match t.lexeme with
  | .opening =>
    if justOpened before || isLoneLeaf before then some (.strayOpening t.position) else none
  | .closing =>
    if before.count .opening = before.count .closing ∨ justOpened before = true then
      some (.strayClosing t.position)
    else (openGroup? before).bind (countFault? t.position)
  | .word w =>
    match Atom.ofWord? w with
    | none => some (.unknownWord w t.position)
    | some (.operation op) =>
      if before = [] ∨ justOpened before = true then none else some (.strayOperation op t.position)
    | some (.var _) =>
      if justOpened before || isLoneLeaf before then some (.strayLeaf .named w t.position) else none
    | some (.number _) =>
      if justOpened before || isLoneLeaf before then some (.strayLeaf .numeral w t.position)
      else none

theorem objection?_closing (before : List Lexeme) (p : Nat) :
    objection? before ⟨.closing, p⟩ =
      if before.count .opening = before.count .closing ∨ justOpened before = true then
        some (.strayClosing p)
      else (openGroup? before).bind (countFault? p) :=
  rfl

def objectionAt? (tokens : List Token) (i : Nat) : Option Fault :=
  tokens[i]?.bind (objection? ((tokens.take i).map Token.lexeme))

example : objectionAt? (Token.ofText "(+ x (sum) y)") 7 = some (.wrongCount .add 13 2 3) := by
  decide +kernel

example : objectionAt? (Token.ofText "x (sum)") 1 = some (.strayOpening 3) := by decide +kernel

/-- What is wrong when tokens end to none of which there is an objection: there are none, a
parenthesis is still open, the operation in front does not take that many operands, or without such
an operation the last operand is too many. -/
inductive EndFault : List Token → Fault → Prop
  | empty : EndFault [] .empty
  | unclosed {ts : List Token}
      (h : (ts.map Token.lexeme).count .closing < (ts.map Token.lexeme).count .opening) :
      EndFault ts (.unclosed (Reader.stopOf ts))
  | count {ts : List Token} {f : Fault}
      (h : (ts.map Token.lexeme).count .opening = (ts.map Token.lexeme).count .closing)
      (hf : countFault? (Reader.stopOf ts) (ts.map Token.lexeme) = some f) : EndFault ts f
  | surplus {ts us : List Token} {t : Token} {e : Expr} (hts : ts ≠ [])
      (h : (ts.map Token.lexeme).count .opening = (ts.map Token.lexeme).count .closing)
      (hop : Lexeme.startsWithOperation (ts.map Token.lexeme) = false)
      (he : Operand ((t :: us).map Token.lexeme) e) :
      EndFault (ts ++ t :: us) (.surplus e.postfixText t.position)

theorem isLoneLeaf_iff {us : List Lexeme} :
    isLoneLeaf us = true ↔ ∃ w e, us = [.word w] ∧ Leaf w e := by
  constructor
  · intro h
    unfold isLoneLeaf at h
    split at h
    · rename_i w
      split at h
      · rename_i v hw
        exact ⟨w, .var v, rfl, .of_var hw⟩
      · rename_i c hw
        exact ⟨w, .const c, rfl, .of_number hw⟩
      · simp at h
    · simp at h
  · rintro ⟨w, e, rfl, he⟩
    have hw := he.ofWord?
    cases he <;> simp only [isLoneLeaf, hw, Expr.label, Label.atom]

theorem isLoneLeaf_of_opening_mem {us : List Lexeme} (h : Lexeme.opening ∈ us) :
    isLoneLeaf us = false := by
  rw [← Bool.not_eq_true, isLoneLeaf_iff]
  rintro ⟨w, e, rfl, -⟩
  simp at h

theorem isLoneLeaf_of_operation {w : String} {op : Operation} {us : List Lexeme}
    (hw : Operation.ofSymbol? w = some op) : isLoneLeaf (.word w :: us) = false := by
  cases us with
  | nil => simp only [isLoneLeaf, Atom.ofWord?_eq_operation_iff.2 hw]
  | cons => rfl

def Closed (us : List Lexeme) : Prop :=
  ∀ vs, vs <:+ us → vs.count .opening ≤ vs.count .closing

theorem Closed.of_not_mem {us : List Lexeme} (h : Lexeme.opening ∉ us) : Closed us := by
  intro vs hvs
  have hnot : Lexeme.opening ∉ vs := fun hmem => h (hvs.subset hmem)
  rw [List.count_eq_zero.2 hnot]
  exact Nat.zero_le _

theorem Closed.append {us vs : List Lexeme} (hus : Closed us) (hvs : Closed vs) :
    Closed (us ++ vs) := by
  rintro ws ⟨as, has⟩
  rcases List.append_eq_append_iff.1 has with ⟨bs, hbs, rfl⟩ | ⟨bs, -, rfl⟩
  · have hleft := hus bs ⟨as, hbs.symm⟩
    have hright := hvs vs (List.suffix_refl vs)
    simp only [List.count_append]
    omega
  · exact hvs ws ⟨bs, rfl⟩

theorem Closed.word {us : List Lexeme} (h : Closed us) (w : String) : Closed (.word w :: us) :=
  Closed.append (.of_not_mem (by simp) : Closed [Lexeme.word w]) h

theorem Closed.tail {u : Lexeme} {us : List Lexeme} (h : Closed (u :: us)) : Closed us :=
  fun vs hvs => h vs (hvs.trans (List.suffix_cons u us))

/-- What ends behind a group closes more parentheses than it opens. -/
theorem Closed.count_lt {us vs : List Lexeme} (h : Closed us) (hvs : vs <:+ us ++ [.closing])
    (hne : vs ≠ []) : vs.count .opening < vs.count .closing := by
  rcases List.suffix_concat_iff.1 hvs with rfl | ⟨ws, rfl, hws⟩
  · exact absurd rfl hne
  · have hcount := h ws hws
    simp only [List.count_append, List.count_cons, List.count_nil]
    simp only [reduceCtorEq, beq_iff_eq, if_false, if_true]
    omega

mutual

theorem closed_of_operand {us : List Lexeme} {e : Expr} : Operand us e → Closed us
  | .leaf _ => .of_not_mem (by simp)
  | @Operand.call w op vs es hw hes hcount => by
    have hinside := (closed_of_operands hes).word w
    have hwhole := (Operand.call hw hes hcount).count_eq
    -- a proper end of the group ends with its closing parenthesis
    intro ws hws
    rcases List.suffix_cons_iff.1 hws with rfl | hws
    · exact hwhole.le
    · cases hempty : ws with
      | nil => exact le_rfl
      | cons x xs =>
        rw [← hempty]
        exact (hinside.count_lt hws (by simp [hempty])).le

theorem closed_of_operands {us : List Lexeme} {es : List Expr} : Operands us es → Closed us
  | .nil => .of_not_mem (by simp)
  | .cons he hes => (closed_of_operand he).append (closed_of_operands hes)

end

/-- No parenthesis is open behind closed groups. -/
theorem openGroup?_of_closed {us : List Lexeme} (h : Closed us) : openGroup? us = none := by
  induction us with
  | nil => rfl
  | cons u us ih =>
    rw [openGroup?, ih h.tail]
    refine if_neg ?_
    rintro ⟨rfl, hcount⟩
    have hle := h _ (List.suffix_refl _)
    simp only [List.count_cons, reduceCtorEq, beq_iff_eq, if_false, if_true] at hle
    omega

theorem openGroup?_append {us vs : List Lexeme} (h : Closed vs)
    (hcount : vs.count .opening = vs.count .closing) :
    openGroup? (us ++ .opening :: vs) = some vs := by
  induction us with
  | nil => rw [List.nil_append, openGroup?, openGroup?_of_closed h, if_pos ⟨rfl, hcount⟩]
  | cons u us ih => rw [List.cons_append, openGroup?, ih]

mutual

theorem itemCount_operand {us : List Lexeme} {e : Expr} :
    Operand us e → ∀ depth vs,
      itemCount depth (us ++ vs) = (if depth = 0 then 1 else 0) + itemCount depth vs
  | .leaf _, _, _ => rfl
  | @Operand.call w op us es hw hes _, depth, vs => by
    have ih := itemCount_operands hes (depth + 1) (.closing :: vs)
    rw [List.cons_append, List.cons_append, List.append_assoc, List.singleton_append, itemCount,
      itemCount, ih, itemCount]
    simp

theorem itemCount_operands {us : List Lexeme} {es : List Expr} :
    Operands us es → ∀ depth vs,
      itemCount depth (us ++ vs) = (if depth = 0 then es.length else 0) + itemCount depth vs
  | .nil, depth, vs => by simp
  | @Operands.cons us us' e es he hes, depth, vs => by
    have ihe := itemCount_operand he depth (us' ++ vs)
    have ih := itemCount_operands hes depth vs
    rw [List.append_assoc, ihe, ih, List.length_cons]
    split <;> omega

end

theorem itemCount_eq_length {us : List Lexeme} {es : List Expr} (h : Operands us es) :
    itemCount 0 us = es.length := by
  have hcount := itemCount_operands h 0 []
  simpa [itemCount] using hcount

theorem countFault?_eq_none {us : List Lexeme} (h : Lexeme.startsWithOperation us = false)
    (stop : Nat) : countFault? stop us = none := by
  unfold countFault?
  split
  · rename_i w us
    replace h : Operation.ofSymbol? w = none := by simpa [Lexeme.startsWithOperation] using h
    rw [h]
  · rfl

theorem countFault?_operands {w : String} {op : Operation} {us : List Lexeme} {es : List Expr}
    (hw : Operation.ofSymbol? w = some op) (hes : Operands us es) (stop : Nat) :
    countFault? stop (.word w :: us) =
      (op.arity.mismatch? es.length).map fun due => .wrongCount op stop due es.length := by
  simp only [countFault?, hw, itemCount_eq_length hes]

/-- An operand is not the end of a longer one. -/
theorem eq_nil_of_operand_append {as us : List Lexeme} {e e' : Expr} (h : Operand (as ++ us) e)
    (hus : Operand us e') : as = [] := by
  cases as with
  | nil => rfl
  | cons a as =>
    generalize hvs : a :: as ++ us = vs at h
    cases h with
    | leaf =>
      have hlength := congrArg List.length hvs
      have hne := List.length_pos_of_ne_nil hus.ne_nil
      simp only [List.length_append, List.length_cons, List.length_nil] at hlength
      omega
    | @call w op ws es hw hes hcount =>
      -- a proper end of a call closes more parentheses than it opens, and an operand does not
      have hlt := ((closed_of_operands hes).word w).count_lt ⟨as, (List.cons.inj hvs).2⟩ hus.ne_nil
      exact absurd hus.count_eq hlt.ne

theorem operand_suffix_unique {as bs us vs : List Lexeme} {e e' : Expr} (hus : Operand us e)
    (hvs : Operand vs e') (h : as ++ us = bs ++ vs) : us = vs := by
  rcases List.append_eq_append_iff.1 h with ⟨cs, -, rfl⟩ | ⟨cs, -, rfl⟩
  · rw [eq_nil_of_operand_append hus hvs, List.nil_append]
  · rw [eq_nil_of_operand_append hvs hus, List.nil_append]

end PrefixArith.LookBack
