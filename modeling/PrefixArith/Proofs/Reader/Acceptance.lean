import PrefixArith.Expr.Parse
import PrefixArith.Proofs.Reader.History

namespace PrefixArith

namespace Reader
open Grammar

variable {s : State} {ts : List Token}

/-- An empty level would end in the same fault that is reported in its stead. -/
theorem State.conclude_eq_toExpr (outer : Level) (next : Next) (stop : Nat) :
    State.conclude ⟨outer, [], next⟩ stop = outer.toExpr stop := by
  change (if outer.isEmpty then .error .empty else outer.toExpr stop) = _
  by_cases hempty : outer.isEmpty = true
  · rw [if_pos hempty, Level.toExpr, Level.isEmpty_iff.1 hempty]
  · rw [if_neg hempty]

theorem After.conclude (h : After s ts) {stop : Nat} {e : Expr} (hs : s.conclude stop = .ok e) :
    Sentence (ts.map Token.lexeme) e := by
  obtain ⟨outer, inner, next⟩ := s
  cases inner with
  | cons => simp [State.conclude] at hs
  | nil =>
    rw [State.conclude_eq_toExpr] at hs
    cases h.ended with
    | nothing hnil => simp [Level.toExpr, hnil] at hs
    | call hw hes hexpr =>
      rw [hexpr, Level.call] at hs
      split at hs
      · simp at hs
      · rename_i hcount
        obtain rfl := Except.ok.inj hs
        exact .call hw hes (Arity.mismatch?_eq_none_iff.1 hcount)
    | lone he hexpr =>
      rw [hexpr] at hs
      obtain rfl := Except.ok.inj hs
      exact .operand he
    -- a second operand is never accepted
    | more _ _ _ _ hexpr =>
      rw [hexpr] at hs
      cases hs

theorem sentence_of_read {e : Expr} (h : read ts = .ok e) : Sentence (ts.map Token.lexeme) e := by
  unfold read at h
  cases hs : ts.foldlM State.step State.initial with
  | error f =>
    rw [hs] at h
    cases h
  | ok s =>
    rw [hs] at h
    exact (After.initial.foldlM hs).conclude h

def Next.admitsItem (next : Next) : Bool := next.admitsOperand && next.admitsOpening

theorem Next.admitsItem_iff {next : Next} :
    next.admitsItem = true ↔ next.admitsOperand = true ∧ next.admitsOpening = true :=
  Bool.and_eq_true_iff

theorem step_opening (h : s.next.admitsOpening = true) (p : Nat) :
    s.step ⟨.opening, p⟩ = .ok ⟨s.outer, .empty p :: s.inner, .operation⟩ :=
  if_pos h

theorem step_operation {w : String} {op : Operation} (hw : Operation.ofSymbol? w = some op)
    (h : s.next.admitsOperation = true) (p : Nat) :
    s.step ⟨.word w, p⟩ = .ok (State.push { s with next := .operand } (.head op p)) := by
  rw [← State.push_with_next]
  unfold State.step State.word
  simp only [Atom.ofWord?_eq_operation_iff.2 hw, h, if_true]

theorem step_leaf {w : String} {e : Expr} (he : Leaf w e) (h : s.next.admitsOperand = true)
    (p : Nat) :
    s.step ⟨.word w, p⟩ =
      .ok (State.push { s with next := .afterLeaf s.current.isEmpty } (.operand e p)) := by
  have hw := he.ofWord?
  rw [← State.push_with_next]
  unfold State.step State.word
  cases he <;> simp only [hw, Expr.label, Label.atom, State.leaf, h, if_true]

/-- A level that holds a call becomes an operand of the level around it, unless the count is
wrong. -/
theorem step_closing {outer level : Level} {levels : List Level} {next : Next} {op : Operation}
    {q : Nat} {xs : List Entry} {es : List Expr}
    (hlevel : level.entries.toList = .head op q :: xs) (hxs : xs.mapM Entry.expr = .ok es)
    (p : Nat) :
    State.step ⟨outer, level :: levels, next⟩ ⟨.closing, p⟩ =
      (Level.call op p es).map fun e =>
        State.push ⟨outer, levels, .operand⟩ (.operand e level.openedAt) := by
  have hempty : level.isEmpty = false := by
    rw [← Bool.not_eq_true, Level.isEmpty_iff, hlevel]
    exact List.cons_ne_nil _ _
  have hexpr : level.toExpr p = Level.call op p es := by
    rw [Level.toExpr, hlevel]
    change xs.mapM Entry.expr >>= Level.call op p = _
    rw [hxs]
    rfl
  unfold State.step State.ascend
  simp only [hempty, Bool.false_eq_true, if_false, hexpr]
  cases Level.call op p es <;> rfl

theorem Level.toList_entries_foldl_push (level : Level) (xs : List Entry) :
    (xs.foldl Level.push level).entries.toList = level.entries.toList ++ xs := by
  induction xs generalizing level with
  | nil => simp
  | cons x xs ih => simp [ih]

theorem Level.openedAt_foldl_push (level : Level) (xs : List Entry) :
    (xs.foldl Level.push level).openedAt = level.openedAt := by
  induction xs generalizing level with
  | nil => rfl
  | cons x xs ih => rw [List.foldl_cons, ih, Level.openedAt_push]

theorem State.foldl_push_outer (outer : Level) (next : Next) (xs : List Entry) :
    xs.foldl State.push ⟨outer, [], next⟩ = ⟨xs.foldl Level.push outer, [], next⟩ := by
  induction xs generalizing outer with
  | nil => rfl
  | cons x xs ih => exact ih (outer.push x)

theorem State.foldl_push_inner (outer level : Level) (levels : List Level) (next : Next)
    (xs : List Entry) :
    xs.foldl State.push ⟨outer, level :: levels, next⟩ =
      ⟨outer, xs.foldl Level.push level :: levels, next⟩ := by
  induction xs generalizing level with
  | nil => rfl
  | cons x xs ih => exact ih (level.push x)

theorem State.next_push (s : State) (x : Entry) : (s.push x).next = s.next := by
  obtain ⟨outer, _ | ⟨level, levels⟩, next⟩ := s <;> rfl

theorem State.isEmpty_current_push (s : State) (x : Entry) :
    (s.push x).current.isEmpty = false := by
  rw [← Bool.not_eq_true, Level.isEmpty_iff]
  obtain ⟨outer, _ | ⟨level, levels⟩, next⟩ := s <;> simp [State.push, State.current]

/-- Reading ends with one more operand, and after it more may come unless it was the first. -/
def Reads (s : State) (ts : List Token) (e : Expr) : Prop :=
  ∃ p next, ts.foldlM State.step s = .ok (State.push { s with next := next } (.operand e p)) ∧
    (s.current.isEmpty = false → next = .operand)

/-- Behind other entries an operand changes nothing but the current level. -/
theorem Reads.push {e : Expr} (h : Reads s ts e) (hnext : s.next = .operand)
    (hcur : s.current.isEmpty = false) :
    ∃ p, ts.foldlM State.step s = .ok (s.push (.operand e p)) := by
  obtain ⟨p, next, hfold, hafter⟩ := h
  obtain rfl := hafter hcur
  refine ⟨p, ?_⟩
  rw [hfold, ← hnext]

def ReadsAll (s : State) (ts : List Token) (es : List Expr) : Prop :=
  ∃ xs : List Entry, xs.mapM Entry.expr = .ok es ∧
    ts.foldlM State.step s = .ok (xs.foldl State.push s)

/-- An operation behind an opening parenthesis waits for its operands on a level of its own. -/
theorem foldlM_opening {w : String} {op : Operation} (p q : Nat)
    (hw : Operation.ofSymbol? w = some op) (hs : s.next.admitsItem = true) (ts : List Token) :
    (⟨.opening, p⟩ :: ⟨.word w, q⟩ :: ts).foldlM State.step s =
      ts.foldlM State.step
        ⟨s.outer, (Level.empty p).push (.head op q) :: s.inner, .operand⟩ := by
  have hop := @step_operation ⟨s.outer, .empty p :: s.inner, .operation⟩ _ _ hw rfl q
  rw [List.foldlM_cons, step_opening (Next.admitsItem_iff.1 hs).2]
  change List.foldlM State.step _ (_ :: ts) = _
  rw [List.foldlM_cons, hop]
  rfl

/-- Behind its operation a group collects operands. -/
theorem foldlM_group {w : String} {op : Operation} {es : List Expr} (p q : Nat)
    (hw : Operation.ofSymbol? w = some op) (hs : s.next.admitsItem = true)
    (hts : ∀ s : State, s.next = .operand → s.current.isEmpty = false → ReadsAll s ts es) :
    ∃ level xs, Level.openedAt level = p ∧ level.entries.toList = .head op q :: xs ∧
      xs.mapM Entry.expr = .ok es ∧
      (⟨.opening, p⟩ :: ⟨.word w, q⟩ :: ts).foldlM State.step s =
        .ok ⟨s.outer, level :: s.inner, .operand⟩ := by
  obtain ⟨xs, hxs, hfold⟩ :=
    hts ⟨s.outer, (Level.empty p).push (.head op q) :: s.inner, .operand⟩ rfl rfl
  refine ⟨xs.foldl Level.push ((Level.empty p).push (.head op q)), xs, ?_, ?_, hxs, ?_⟩
  · exact Level.openedAt_foldl_push _ xs
  · exact Level.toList_entries_foldl_push _ xs
  · rw [foldlM_opening p q hw hs, hfold, State.foldl_push_inner]

/-- Tokens that say a list of lexemes joined from two can be cut in two likewise. -/
theorem map_lexeme_append {us vs : List Lexeme} (h : ts.map Token.lexeme = us ++ vs) :
    ∃ ts₁ ts₂, ts = ts₁ ++ ts₂ ∧ ts₁.map Token.lexeme = us ∧ ts₂.map Token.lexeme = vs :=
  List.map_eq_append_iff.1 h

theorem map_lexeme_cons {u : Lexeme} {us : List Lexeme} (h : ts.map Token.lexeme = u :: us) :
    ∃ p ts', ts = ⟨u, p⟩ :: ts' ∧ ts'.map Token.lexeme = us := by
  obtain ⟨t, ts', rfl, rfl, hts⟩ := List.map_eq_cons_iff.1 h
  exact ⟨t.position, ts', rfl, hts⟩

theorem map_lexeme_singleton {u : Lexeme} (h : ts.map Token.lexeme = [u]) :
    ∃ p, ts = [⟨u, p⟩] := by
  obtain ⟨p, ts', rfl, hnil⟩ := map_lexeme_cons h
  exact ⟨p, by rw [List.map_eq_nil_iff.1 hnil]⟩

-- By recursion on the derivation. What may come next is forgotten between the two lemmas: operands
-- are only read where more of them may come, and a group always goes back to such a state.
mutual

theorem reads_of_operand {us : List Lexeme} {e : Expr} :
    Operand us e → ∀ {ts : List Token} {s : State}, ts.map Token.lexeme = us →
      s.next.admitsItem = true → Reads s ts e
  | .leaf he, ts, s, hts, hs => by
    obtain ⟨p, rfl⟩ := map_lexeme_singleton hts
    refine ⟨p, .afterLeaf s.current.isEmpty, ?_, fun h => by rw [h]; rfl⟩
    rw [List.foldlM_cons, step_leaf he (Next.admitsItem_iff.1 hs).1]
    rfl
  | @Operand.call w op vs es hw hes hcount, ts, s, hts, hs => by
    obtain ⟨p, ts₁, rfl, hts₁⟩ := map_lexeme_cons hts
    obtain ⟨q, ts₂, rfl, hts₂⟩ := map_lexeme_cons hts₁
    obtain ⟨ts₃, ts₄, rfl, hts₃, hts₄⟩ := map_lexeme_append hts₂
    obtain ⟨r, rfl⟩ := map_lexeme_singleton hts₄
    obtain ⟨level, xs, hopened, hlevel, hxs, hfold⟩ :=
      foldlM_group p q hw hs fun _ hnext hcur => readsAll_of_operands hes hts₃ hnext hcur
    have hclose := @step_closing s.outer level s.inner .operand op q xs es hlevel hxs r
    refine ⟨p, .operand, ?_, fun _ => rfl⟩
    -- the group up to its last operand, and then the parenthesis that closes it
    rw [← List.cons_append, ← List.cons_append, List.foldlM_append, hfold]
    change List.foldlM State.step _ [⟨.closing, r⟩] = _
    rw [List.foldlM_cons, hclose, Level.call, Arity.mismatch?_eq_none_iff.2 hcount, hopened]
    rfl

theorem readsAll_of_operands {us : List Lexeme} {es : List Expr} :
    Operands us es → ∀ {ts : List Token} {s : State}, ts.map Token.lexeme = us →
      s.next = .operand → s.current.isEmpty = false → ReadsAll s ts es
  | .nil, ts, s, hts, _, _ => by
    obtain rfl := List.map_eq_nil_iff.1 hts
    exact ⟨[], rfl, rfl⟩
  | @Operands.cons us vs e es he hes, ts, s, hts, hnext, hcur => by
    obtain ⟨ts₁, ts₂, rfl, hts₁, hts₂⟩ := map_lexeme_append hts
    have hadmits : s.next.admitsItem = true := by
      rw [hnext]
      rfl
    obtain ⟨p, hfold⟩ := (reads_of_operand he hts₁ hadmits).push hnext hcur
    obtain ⟨xs, hxs, hrest⟩ := readsAll_of_operands hes hts₂ ((State.next_push s _).trans hnext)
      (State.isEmpty_current_push s (.operand e p))
    refine ⟨.operand e p :: xs, ?_, ?_⟩
    · rw [List.mapM_cons, hxs]
      rfl
    · rw [List.foldlM_append, hfold]
      exact hrest

end

theorem read_of_sentence {e : Expr} (h : Sentence (ts.map Token.lexeme) e) : read ts = .ok e := by
  unfold read
  generalize hts : ts.map Token.lexeme = us at h
  cases h with
  | operand he =>
    obtain ⟨p, next, hfold, -⟩ := @reads_of_operand _ _ he _ State.initial hts rfl
    rw [hfold]
    rfl
  | @call w op us es hw hes hcount =>
    obtain ⟨p, ts', rfl, hts'⟩ := map_lexeme_cons hts
    have hop := @step_operation State.initial _ _ hw rfl p
    obtain ⟨xs, hxs, hfold⟩ :=
      @readsAll_of_operands _ _ hes _ ⟨(Level.empty 0).push (.head op p), [], .operand⟩ hts' rfl rfl
    have hlevel : (xs.foldl Level.push ((Level.empty 0).push (.head op p))).entries.toList =
        .head op p :: xs := Level.toList_entries_foldl_push _ xs
    rw [List.foldlM_cons, hop]
    change ts'.foldlM State.step ⟨(Level.empty 0).push (.head op p), [], .operand⟩ >>= _ = _
    rw [hfold, State.foldl_push_outer]
    change State.conclude ⟨_, [], .operand⟩ (stopOf _) = _
    rw [State.conclude_eq_toExpr, Level.toExpr, hlevel]
    change xs.mapM Entry.expr >>= Level.call op _ = _
    rw [hxs]
    change Level.call op _ es = _
    rw [Level.call, Arity.mismatch?_eq_none_iff.2 hcount]

theorem read_eq_ok_iff {e : Expr} : read ts = .ok e ↔ Sentence (ts.map Token.lexeme) e :=
  ⟨sentence_of_read, read_of_sentence⟩

end Reader

open Grammar

/-- Lexemes spell at most one expression, since a reader of their tokens finds only one. -/
theorem Grammar.Sentence.unique {us : List Lexeme} {e e' : Expr} (h : Sentence us e)
    (h' : Sentence us e') : e' = e := by
  have hlexemes : (us.map fun u => (⟨u, 0⟩ : Token)).map Token.lexeme = us := by
    rw [List.map_map]
    exact List.map_id us
  rw [← hlexemes] at h h'
  exact Except.ok.inj ((Reader.read_of_sentence h').symm.trans (Reader.read_of_sentence h))

theorem Expr.parse_eq_ok {source : String} {e : Expr} :
    parse source = .ok e ↔ Sentence (Lexeme.ofText source) e := by
  rw [Lexeme.ofText, ← Reader.read_eq_ok_iff, parse]
  cases Reader.read (Token.ofText source) <;> simp [Except.mapError]

theorem Expr.parse_eq_error {source : String} {d : Diagnostic} :
    parse source = .error d ↔
      ∃ f, Reader.read (Token.ofText source) = .error f ∧ Diagnostic.located source f = d := by
  rw [parse]
  cases Reader.read (Token.ofText source) <;> simp [Except.mapError]

/-- A text has an expression exactly if its lexemes spell it. Then they spell no other, its words
are the labels of the expression in preorder, and every parenthesis that opens is followed by an
operation. -/
theorem Expr.parse_eq_ok_iff_sentence (source : String) (e : Expr) :
    (parse source = .ok e ↔ Sentence (Lexeme.ofText source) e) ∧
      (Sentence (Lexeme.ofText source) e →
        (∀ e', Sentence (Lexeme.ofText source) e' → e' = e) ∧
        (Lexeme.words (Lexeme.ofText source)).map Atom.ofWord? =
          e.preorder.map (fun l => some l.atom) ∧
        Headed (Lexeme.ofText source)) :=
  ⟨parse_eq_ok, fun h => ⟨fun _ h' => h.unique h', h.words, h.headed⟩⟩

end PrefixArith
