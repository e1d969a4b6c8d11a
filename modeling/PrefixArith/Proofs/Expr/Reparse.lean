import PrefixArith.Proofs.Expr.Lexemes
import PrefixArith.Proofs.Reader.Acceptance

namespace PrefixArith

/-- What a reader finds wrong with the word or the call of a label, but for the place. -/
def Label.flaw? : Label → Option (Nat → Fault)
  | const c => if c.isNaN then some (.unknownWord "NaN") else none
  | var _ => none
  | call op count => (op.arity.mismatch? count).map fun due p => .wrongCount op p due count

def Label.firstFlaw? (labels : List Label) : Option (Nat → Fault) := labels.findSome? flaw?

theorem Label.firstFlaw?_append (as bs : List Label) :
    firstFlaw? (as ++ bs) = (firstFlaw? as).or (firstFlaw? bs) :=
  List.findSome?_append

theorem Label.firstFlaw?_const (c : Float) :
    firstFlaw? (Expr.const c).postorder =
      if c.isNaN then some (.unknownWord "NaN") else none := by
  change List.findSome? flaw? [const c] = _
  rw [List.findSome?_cons, flaw?]
  cases c.isNaN <;> rfl

theorem Label.isNaN_of_firstFlaw? {c : Float}
    (h : firstFlaw? (Expr.const c).postorder = none) : c.isNaN = false := by
  rw [firstFlaw?_const] at h
  rw [← Bool.not_eq_true]
  intro hc
  rw [if_pos hc] at h
  cases h

theorem Label.firstFlaw?_call (op : Operation) (es : List Expr) :
    firstFlaw? (Expr.call op es).postorder =
      (firstFlaw? (Expr.postorderAll es)).or (Label.call op es.length).flaw? := by
  rw [Expr.postorder, firstFlaw?_append]
  cases h : (Label.call op es.length).flaw? <;> simp [firstFlaw?, h]

namespace Expr

mutual

/-- The expression without signs on its zeros; every other constant stays the same bit for bit. -/
def dropZeroSigns : Expr → Expr
  | const c => const (Numeral.dropZeroSign c)
  | var v => var v
  | call op es => call op (dropZeroSignsAll es)

def dropZeroSignsAll : List Expr → List Expr
  | [] => []
  | e :: es => dropZeroSigns e :: dropZeroSignsAll es

end

theorem length_dropZeroSignsAll (es : List Expr) : (dropZeroSignsAll es).length = es.length := by
  induction es with
  | nil => rfl
  | cons e es ih => rw [dropZeroSignsAll, List.length_cons, List.length_cons, ih]

end Expr

namespace Numeral

theorem write_dropZeroSign (v : Float) : write .literal (dropZeroSign v) = write .literal v := by
  by_cases h : v = -0.0
  · rw [h]
    decide +kernel
  · rw [dropZeroSign_of_ne h]

theorem dropZeroSign_beq {v : Float} (h : v.isNaN = false) : (dropZeroSign v == v) = true := by
  by_cases hv : v = -0.0
  · rw [hv]
    decide +kernel
  · rw [dropZeroSign_of_ne hv]
    exact Binary64.beq_self h

theorem read?_symbol (op : Operation) : read? op.symbol = none := by
  cases op <;> decide +kernel

theorem read?_name (v : Variable) : read? v.name = none := by
  cases v <;> decide +kernel

/-- A numeral is no symbol and no name, since neither of these reads as a number. -/
theorem ofWord?_of_read? {w : String} {c : Float} (h : read? w = some c) :
    Atom.ofWord? w = some (.number c) := by
  rw [Atom.ofWord?_eq_number_iff]
  refine ⟨?_, ?_, h⟩
  · cases hop : Operation.ofSymbol? w with
    | none => rfl
    | some op =>
      rw [Operation.ofSymbol?_eq_some_iff.1 hop, read?_symbol] at h
      cases h
  · cases hv : Variable.ofName? w with
    | none => rfl
    | some v =>
      rw [Variable.ofName?_eq_some_iff.1 hv, read?_name] at h
      cases h

end Numeral

namespace Expr

mutual

theorem prefixText_dropZeroSigns (e : Expr) : e.dropZeroSigns.prefixText = e.prefixText :=
  match e with
  | .const c => Numeral.write_dropZeroSign c
  | .var _ => rfl
  | .call op es => by
    rw [dropZeroSigns, prefixText, prefixTexts_dropZeroSignsAll es]
    rfl

theorem prefixTexts_dropZeroSignsAll (es : List Expr) :
    prefixTexts (dropZeroSignsAll es) = prefixTexts es :=
  match es with
  | [] => rfl
  | e :: es => by
    rw [dropZeroSignsAll, prefixTexts, prefixText_dropZeroSigns e,
      prefixTexts_dropZeroSignsAll es]
    rfl

end

mutual

theorem postorder_perm (e : Expr) : e.postorder.Perm e.preorder :=
  match e with
  | const _ => .refl _
  | var _ => .refl _
  | call _ es =>
    (List.perm_append_singleton _ _).trans ((postorderAll_perm es).cons _)

theorem postorderAll_perm (es : List Expr) : (postorderAll es).Perm (preorderAll es) :=
  match es with
  | [] => .refl _
  | e :: es => (postorder_perm e).append (postorderAll_perm es)

end

/-- What is valid has no flaw. -/
theorem Valid.firstFlaw? {e : Expr} (h : e.Valid) : Label.firstFlaw? e.postorder = none := by
  rw [Label.firstFlaw?, List.findSome?_eq_none_iff]
  intro l hl
  have hvalid := h l ((postorder_perm e).mem_iff.1 hl)
  cases l with
  | const c =>
    have hc : c.isNaN = false := hvalid
    rw [Label.flaw?, hc]
    rfl
  | var _ => rfl
  | call op count =>
    rw [Label.flaw?, Option.map_eq_none_iff, Arity.mismatch?_eq_none_iff]
    exact hvalid

open Grammar

mutual

theorem same_dropZeroSigns (e : Expr) (h : Label.firstFlaw? e.postorder = none) :
    same e.dropZeroSigns e = true :=
  match e with
  | .const c => by
    have hc : c.isNaN = false := Label.isNaN_of_firstFlaw? h
    exact Numeral.dropZeroSign_beq hc
  | .var v => by simp [dropZeroSigns, same]
  | .call op es => by
    rw [Label.firstFlaw?_call, Option.or_eq_none_iff] at h
    rw [dropZeroSigns, same, same_dropZeroSignsAll es h.1]
    simp

theorem same_dropZeroSignsAll (es : List Expr)
    (h : Label.firstFlaw? (postorderAll es) = none) : sameAll (dropZeroSignsAll es) es = true :=
  match es with
  | [] => rfl
  | e :: es => by
    rw [postorderAll, Label.firstFlaw?_append, Option.or_eq_none_iff] at h
    rw [dropZeroSignsAll, sameAll, same_dropZeroSigns e h.1, same_dropZeroSignsAll es h.2]
    rfl

end

mutual

/-- The lexemes of an expression without flaw spell it, but for the signs of zeros. -/
theorem operand_lexemes (e : Expr) (h : Label.firstFlaw? e.postorder = none) :
    Operand e.lexemes e.dropZeroSigns :=
  match e with
  | .const c => by
    have hc : c.isNaN = false := Label.isNaN_of_firstFlaw? h
    exact .leaf (.of_number (Numeral.ofWord?_of_read? (Numeral.read?_write hc)))
  | .var v => .leaf (.var (Variable.ofName?_name v))
  | .call op es => by
    rw [Label.firstFlaw?_call, Option.or_eq_none_iff, Label.flaw?, Option.map_eq_none_iff] at h
    have hcount : op.arity.admits (dropZeroSignsAll es).length = true := by
      rw [length_dropZeroSignsAll, ← Arity.mismatch?_eq_none_iff]
      exact h.2
    exact .call (Operation.ofSymbol?_symbol op) (operands_lexemesAll es h.1) hcount

theorem operands_lexemesAll (es : List Expr)
    (h : Label.firstFlaw? (postorderAll es) = none) :
    Operands (lexemesAll es) (dropZeroSignsAll es) :=
  match es with
  | [] => .nil
  | e :: es => by
    rw [postorderAll, Label.firstFlaw?_append, Option.or_eq_none_iff] at h
    exact .cons (operand_lexemes e h.1) (operands_lexemesAll es h.2)

end

open Reader

theorem step_unknown (s : State) {w : String} (hw : Atom.ofWord? w = none) (p : Nat) :
    s.step ⟨.word w, p⟩ = .error (.unknownWord w p) := by
  unfold State.step State.word
  simp only [hw]

def StopsAt (s : State) (ts : List Token) (flaw : Nat → Fault) : Prop :=
  ∃ p, ts.foldlM State.step s = .error (flaw p)

theorem StopsAt.append {s : State} {ts : List Token} {flaw : Nat → Fault} (h : StopsAt s ts flaw)
    (us : List Token) : StopsAt s (ts ++ us) flaw := by
  obtain ⟨p, hp⟩ := h
  refine ⟨p, ?_⟩
  rw [List.foldlM_append, hp]
  rfl

-- By recursion on the expression, along its postorder: whatever comes before the first flaw is read
-- as an operand, and the run stops inside the first operand that has one.
mutual

theorem stopsAt_flaw (e : Expr) {flaw : Nat → Fault}
    (h : Label.firstFlaw? e.postorder = some flaw) {ts : List Token} {s : State}
    (hts : ts.map Token.lexeme = e.lexemes) (hs : s.next.admitsItem = true) :
    StopsAt s ts flaw :=
  match e with
  | .const c => by
    obtain ⟨p, rfl⟩ := map_lexeme_singleton hts
    rw [Label.firstFlaw?_const] at h
    by_cases hc : c.isNaN = true
    · rw [if_pos hc] at h
      obtain rfl := Option.some.inj h
      refine ⟨p, ?_⟩
      have hword : Atom.ofWord? "NaN" = none := by decide +kernel
      rw [List.foldlM_cons, Numeral.write_of_isNaN hc, step_unknown s hword]
      rfl
    · rw [if_neg hc] at h
      cases h
  | .var _ => by cases h
  | .call op es => by
    obtain ⟨p, ts₁, rfl, hts₁⟩ := map_lexeme_cons hts
    obtain ⟨q, ts₂, rfl, hts₂⟩ := map_lexeme_cons hts₁
    obtain ⟨ts₃, ts₄, rfl, hts₃, hts₄⟩ := map_lexeme_append hts₂
    have hop := Operation.ofSymbol?_symbol op
    rw [Label.firstFlaw?_call] at h
    cases hes : Label.firstFlaw? (postorderAll es) with
    | some flaw' =>
      rw [hes, Option.some_or] at h
      obtain rfl := Option.some.inj h
      have hinside := stopsAt_flaws es hes
        (s := ⟨s.outer, (Level.empty p).push (.head op q) :: s.inner, .operand⟩) hts₃ rfl rfl
      obtain ⟨r, hr⟩ := hinside.append ts₄
      exact ⟨r, by rw [foldlM_opening p q hop hs, hr]⟩
    -- all operands are read, and the count is wrong when the group closes
    | none =>
      rw [hes, Option.none_or, Label.flaw?, Option.map_eq_some_iff] at h
      obtain ⟨due, hdue, rfl⟩ := h
      obtain ⟨r, rfl⟩ := map_lexeme_singleton hts₄
      obtain ⟨level, xs, -, hlevel, hxs, hfold⟩ := foldlM_group p q hop hs fun _ hnext hcur =>
        readsAll_of_operands (operands_lexemesAll es hes) hts₃ hnext hcur
      have hclose := @step_closing s.outer level s.inner .operand op q xs _ hlevel hxs r
      refine ⟨r, ?_⟩
      rw [← List.cons_append, ← List.cons_append, List.foldlM_append, hfold]
      change List.foldlM State.step _ [⟨.closing, r⟩] = _
      rw [List.foldlM_cons, hclose, Level.call, length_dropZeroSignsAll, hdue]
      rfl

theorem stopsAt_flaws (es : List Expr) {flaw : Nat → Fault}
    (h : Label.firstFlaw? (postorderAll es) = some flaw) {ts : List Token} {s : State}
    (hts : ts.map Token.lexeme = lexemesAll es) (hnext : s.next = .operand)
    (hcur : s.current.isEmpty = false) : StopsAt s ts flaw :=
  match es with
  | [] => by simp [postorderAll, Label.firstFlaw?] at h
  | e :: es => by
    obtain ⟨ts₁, ts₂, rfl, hts₁, hts₂⟩ := map_lexeme_append hts
    have hadmits : s.next.admitsItem = true := by
      rw [hnext]
      rfl
    rw [postorderAll, Label.firstFlaw?_append] at h
    cases he : Label.firstFlaw? e.postorder with
    | some flaw' =>
      rw [he, Option.some_or] at h
      obtain rfl := Option.some.inj h
      exact (stopsAt_flaw e he hts₁ hadmits).append ts₂
    | none =>
      rw [he, Option.none_or] at h
      have hreads := reads_of_operand (operand_lexemes e he) hts₁ hadmits
      obtain ⟨p, hfold⟩ := hreads.push hnext hcur
      have hstay := State.isEmpty_current_push s (.operand e.dropZeroSigns p)
      obtain ⟨r, hr⟩ := stopsAt_flaws es h hts₂ ((State.next_push s _).trans hnext) hstay
      refine ⟨r, ?_⟩
      rw [List.foldlM_append, hfold]
      exact hr

end

/-- An expression without flaw reads back with the same text, and as an equal expression: only the
signs of zeros are lost. Any other expression fails with its first flaw in postorder. -/
theorem parse_prefixText (e : Expr) :
    match Label.firstFlaw? e.postorder with
    | none =>
      parse e.prefixText = .ok e.dropZeroSigns ∧ (e.dropZeroSigns == e) = true ∧
        e.dropZeroSigns.prefixText = e.prefixText
    | some flaw => ∃ p, parse e.prefixText = .error (.located e.prefixText (flaw p)) := by
  have hlexemes := Lexeme.ofText_prefixText e
  cases h : Label.firstFlaw? e.postorder with
  | none =>
    refine ⟨?_, same_dropZeroSigns e h, prefixText_dropZeroSigns e⟩
    rw [parse_eq_ok, hlexemes]
    exact .operand (operand_lexemes e h)
  | some flaw =>
    obtain ⟨p, hp⟩ := stopsAt_flaw e h (s := State.initial) hlexemes rfl
    refine ⟨p, ?_⟩
    rw [parse, Reader.read, hp]
    rfl

end Expr

end PrefixArith
