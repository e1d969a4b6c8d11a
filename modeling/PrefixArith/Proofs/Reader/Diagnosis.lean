import PrefixArith.Proofs.Reader.Acceptance
import PrefixArith.Proofs.Reader.LookBack

namespace PrefixArith

namespace Reader
open Grammar LookBack

variable {s : State} {ts : List Token}

def nextAfter (before : List Lexeme) : Next :=
  if before = [] then .anything
  else if justOpened before then .operation
  else if isLoneLeaf before then .nothing
  else .operand

theorem Entry.Spelled.getLast? {x : Entry} (h : x.Spelled ts) :
    ts ≠ [] ∧ (ts.map Token.lexeme).getLast? ≠ some .opening := by
  cases h with
  | head => simp
  | operand he => exact ⟨List.cons_ne_nil _ _, he.getLast?_ne⟩

/-- No parenthesis was opened just before where entries end. -/
theorem Spelled.not_justOpened {xs : List Entry} {us : List Token} (h : Spelled xs us)
    (hne : xs ≠ []) :
    justOpened ((ts ++ us).map Token.lexeme) = false ∧ ts ++ us ≠ [] := by
  rw [← List.dropLast_append_getLast hne] at h
  obtain ⟨vs, ws, rfl, -, hx⟩ := h.of_concat
  obtain ⟨hws, hlast⟩ := hx.getLast?
  have hmap : ws.map Token.lexeme ≠ [] := by simpa using hws
  refine ⟨?_, by simp [hws]⟩
  rw [justOpened, decide_eq_false_iff_not, ← List.append_assoc, List.map_append,
    List.getLast?_append_of_ne_nil _ hmap]
  exact hlast

/-- Operands that do not start with a leaf are no lone leaf, and neither is a call. -/
theorem Waiting.not_isLoneLeaf {outer : Level} {levels : List Level} (hw : Waiting outer levels)
    (h : Stacked outer levels ts) (hne : levels = [] → outer.entries.toList ≠ []) :
    isLoneLeaf (ts.map Token.lexeme) = false := by
  cases h with
  | inner =>
    refine isLoneLeaf_of_opening_mem ?_
    simp
  | outer hts =>
    rcases hw.outer with hcall | ⟨hoperands, hleaf⟩
    · obtain ⟨w, p, us, op, es, rfl, hop, -, -⟩ := hcall.reading hts
      exact isLoneLeaf_of_operation hop
    · cases hxs : outer.entries.toList with
      | nil => exact absurd hxs (hne rfl)
      | cons x xs =>
        rw [hxs] at hts hoperands hleaf
        obtain ⟨e, p, rfl⟩ := hoperands x List.mem_cons_self
        cases hts with
        | cons hx _ =>
          refine isLoneLeaf_of_opening_mem ?_
          rw [List.map_append]
          cases hx with
          | operand he =>
            generalize hus : List.map Token.lexeme (_ :: _) = us at he
            cases he with
            | leaf he => exact absurd (hleaf _ rfl) (by simp [Entry.isLeaf, he.isLeaf])
            | call => simp

theorem Waiting.not_justOpened {outer : Level} {levels : List Level} (hw : Waiting outer levels)
    (h : Stacked outer levels ts) (hne : levels = [] → outer.entries.toList ≠ []) :
    justOpened (ts.map Token.lexeme) = false ∧ ts ≠ [] := by
  cases h with
  | outer hts => exact @Spelled.not_justOpened [] _ _ hts (hne rfl)
  | @inner level levels ts us _ hus =>
    have hcall := hw.levels level List.mem_cons_self
    have hopened :=
      @Spelled.not_justOpened (ts ++ [⟨.opening, level.openedAt⟩]) _ _ hus hcall.ne_nil
    rwa [List.append_assoc, List.singleton_append] at hopened

/-- The flags of the reader are what the lexemes so far tell. -/
theorem After.next_eq (h : After s ts) : s.next = nextAfter (ts.map Token.lexeme) := by
  obtain ⟨outer, inner, next⟩ := s
  obtain ⟨hstacked, hphase⟩ := h
  -- each phase is told by the last lexeme, and by whether it is the only one
  cases hphase with
  | start houter =>
    cases hstacked with
    | outer hts =>
      rw [houter] at hts
      rw [hts.eq_nil]
      rfl
  | leaf houter he =>
    cases hstacked with
    | outer hts =>
      rw [houter] at hts
      obtain ⟨w, hw, hleaf⟩ := hts.operand.exists_leaf he
      have hlone := isLoneLeaf_iff.2 ⟨w, _, hw, hleaf⟩
      have hopened : justOpened (ts.map Token.lexeme) = false := by rw [hw]; rfl
      have hne : ts.map Token.lexeme ≠ [] := by rw [hw]; exact List.cons_ne_nil _ _
      rw [nextAfter, if_neg hne, hopened, hlone]
      rfl
  | opened _ hlevel =>
    cases hstacked with
    | inner hstacked hus =>
      rw [hlevel] at hus
      rw [hus.eq_nil]
      simp [nextAfter, justOpened]
  | waiting hw hne =>
    have hlone := hw.not_isLoneLeaf hstacked hne
    obtain ⟨hopened, hts⟩ := hw.not_justOpened hstacked hne
    have hmap : ts.map Token.lexeme ≠ [] := by simpa using hts
    rw [nextAfter, if_neg hmap, hopened, hlone]
    rfl

/-- A parenthesis may open exactly where a leaf may stand. -/
theorem After.admitsOpening_eq (h : After s ts) :
    s.next.admitsOpening = s.next.admitsOperand := by
  cases h.phase <;> rfl

theorem After.admitsOperand_eq (h : After s ts) :
    s.next.admitsOperand =
      !(justOpened (ts.map Token.lexeme) || isLoneLeaf (ts.map Token.lexeme)) := by
  rw [h.next_eq, nextAfter]
  by_cases hnil : ts.map Token.lexeme = []
  · rw [if_pos hnil, hnil]
    rfl
  · rw [if_neg hnil]
    cases justOpened (ts.map Token.lexeme) <;> cases isLoneLeaf (ts.map Token.lexeme) <;> rfl

theorem After.admitsOperation_iff (h : After s ts) :
    s.next.admitsOperation = true ↔
      ts.map Token.lexeme = [] ∨ justOpened (ts.map Token.lexeme) = true := by
  rw [h.next_eq, nextAfter]
  by_cases hnil : ts.map Token.lexeme = []
  · simp [hnil, Next.anything]
  · rw [if_neg hnil]
    cases justOpened (ts.map Token.lexeme) <;> cases isLoneLeaf (ts.map Token.lexeme) <;>
      simp [hnil, Next.operation, Next.operand, Next.nothing]

theorem Level.call_eq_error_iff {op : Operation} {stop : Nat} {es : List Expr} {f : Fault} :
    Level.call op stop es = .error f ↔
      (op.arity.mismatch? es.length).map (fun due => Fault.wrongCount op stop due es.length) =
        some f := by
  unfold Level.call
  cases op.arity.mismatch? es.length <;> simp

theorem bind_pure_eq_error_iff {α β : Type} {x : Except Fault α} {f : Fault} (g : α → β) :
    (x >>= fun a => pure (g a)) = .error f ↔ x = .error f := by
  cases x with
  | ok a => exact ⟨nofun, nofun⟩
  | error f' =>
    change (Except.error f' : Except Fault β) = _ ↔ _
    rw [Except.error.injEq, Except.error.injEq]

/-- The innermost level is the group that looking back finds, with as many operands. -/
theorem IsCall.countFault? {level : Level} {us : List Token} (h : IsCall level.entries.toList)
    (hus : Spelled level.entries.toList us) (ts : List Token) (p : Nat) :
    ∃ op es, (∀ stop, level.toExpr stop = Level.call op stop es) ∧
      (openGroup? ((ts ++ ⟨.opening, level.openedAt⟩ :: us).map Token.lexeme)).bind
          (LookBack.countFault? p) =
        (op.arity.mismatch? es.length).map fun due => .wrongCount op p due es.length := by
  obtain ⟨w, q, vs, op, es, rfl, hop, hops, hexpr⟩ := h.reading hus
  have hbalanced : (Lexeme.word w :: vs.map Token.lexeme).count .opening =
      (Lexeme.word w :: vs.map Token.lexeme).count .closing := by
    simpa using hops.count_eq
  have hgroup := @openGroup?_append (ts.map Token.lexeme) _
    ((closed_of_operands hops).word w) hbalanced
  refine ⟨op, es, hexpr, ?_⟩
  rw [List.map_append, List.map_cons, List.map_cons, hgroup, Option.bind_some,
    countFault?_operands hop hops]

theorem After.ascend_eq_error_iff (h : After s ts) {p : Nat} {f : Fault} :
    s.ascend p = .error f ↔ objection? (ts.map Token.lexeme) ⟨.closing, p⟩ = some f := by
  obtain ⟨outer, inner, next⟩ := s
  obtain ⟨hstacked, hphase⟩ := h
  have hcount := hstacked.count_eq
  rw [objection?_closing]
  cases hstacked with
  | outer hts =>
    rw [if_pos (Or.inl hts.count_eq)]
    simp [State.ascend]
  | @inner level levels ts us hstacked hus =>
    have hne : ((ts ++ ⟨.opening, level.openedAt⟩ :: us).map Token.lexeme).count .opening ≠
        ((ts ++ ⟨.opening, level.openedAt⟩ :: us).map Token.lexeme).count .closing := by
      rw [hcount, List.length_cons]
      omega
    unfold State.ascend
    cases hphase with
    -- both sides look for an empty group first, and only then count
    | opened _ hlevel =>
      have hempty : level.isEmpty = true := Level.isEmpty_iff.2 hlevel
      rw [hlevel] at hus
      rw [hus.eq_nil]
      simp [hempty, justOpened]
    | waiting hw _ =>
      have hcall := hw.levels level List.mem_cons_self
      have hopened := (hw.not_justOpened (.inner hstacked hus) fun h => by cases h).1
      have hempty : level.isEmpty = false := by
        rw [← Bool.not_eq_true, Level.isEmpty_iff]
        exact hcall.ne_nil
      have hneither : ¬(_ ∨ justOpened _ = true) := not_or.2 ⟨hne, by rw [hopened]; decide⟩
      obtain ⟨op, es, hexpr, hfault⟩ := hcall.countFault? hus ts p
      rw [if_neg hneither, hfault]
      simp only [hempty, Bool.false_eq_true, if_false, hexpr]
      exact (bind_pure_eq_error_iff _).trans Level.call_eq_error_iff

theorem After.leaf_eq_error_iff (h : After s ts) {kind : LeafKind} {e : Expr} {w : String} {p : Nat}
    {f : Fault} :
    s.leaf kind e w p = .error f ↔
      (if justOpened (ts.map Token.lexeme) || isLoneLeaf (ts.map Token.lexeme) then
        some (Fault.strayLeaf kind w p) else none) = some f := by
  rw [State.leaf, h.admitsOperand_eq]
  cases justOpened (ts.map Token.lexeme) || isLoneLeaf (ts.map Token.lexeme) <;> simp

/-- A step fails exactly with the objection to its token. -/
theorem After.step_eq_error_iff (h : After s ts) {t : Token} {f : Fault} :
    s.step t = .error f ↔ objection? (ts.map Token.lexeme) t = some f := by
  obtain ⟨lexeme, p⟩ := t
  cases lexeme with
  | opening =>
    change s.descend p = _ ↔ _
    rw [State.descend, h.admitsOpening_eq, h.admitsOperand_eq]
    unfold objection?
    cases justOpened (ts.map Token.lexeme) || isLoneLeaf (ts.map Token.lexeme) <;> simp
  | closing => exact h.ascend_eq_error_iff
  | word w =>
    change s.word w p = _ ↔ _
    unfold State.word objection?
    dsimp only
    cases Atom.ofWord? w with
    | none => simp
    | some atom =>
      cases atom with
      | var v => exact h.leaf_eq_error_iff
      | number c => exact h.leaf_eq_error_iff
      | operation op =>
        have hadmits := h.admitsOperation_iff
        dsimp only
        simp only [List.map_eq_nil_iff] at hadmits ⊢
        by_cases hop : s.next.admitsOperation = true
        · rw [if_pos hop, if_pos (hadmits.1 hop)]
          simp
        · rw [if_neg hop, if_neg (hadmits.not.1 hop)]
          simp

theorem Ended.endFault {level : Level} (h : Ended level ts) {f : Fault}
    (hcount : (ts.map Token.lexeme).count .opening = (ts.map Token.lexeme).count .closing)
    (hf : level.toExpr (stopOf ts) = .error f) : EndFault ts f := by
  cases h with
  | nothing h =>
    rw [Level.toExpr, h] at hf
    obtain rfl := Except.error.inj hf
    exact .empty
  | call hw hes h =>
    refine .count hcount ?_
    rw [h] at hf
    rw [List.map_cons, countFault?_operands hw hes]
    exact Level.call_eq_error_iff.1 hf
  | lone he h =>
    rw [h] at hf
    cases hf
  | more hne hus hop he h =>
    rw [h] at hf
    obtain rfl := Except.error.inj hf
    exact .surplus hne hus hop he

/-- The faults of an end where no parenthesis is open. -/
theorem endFault_cases {f : Fault} (h : EndFault ts f)
    (hcount : (ts.map Token.lexeme).count .opening = (ts.map Token.lexeme).count .closing) :
    (ts = [] ∧ f = .empty) ∨ countFault? (stopOf ts) (ts.map Token.lexeme) = some f ∨
      ∃ us t vs e, ts = us ++ t :: vs ∧ us ≠ [] ∧
        Lexeme.startsWithOperation (us.map Token.lexeme) = false ∧
        Operand ((t :: vs).map Token.lexeme) e ∧ f = .surplus e.postfixText t.position := by
  cases h with
  | empty => exact Or.inl ⟨rfl, rfl⟩
  | unclosed h => exact absurd hcount h.ne'
  | count _ hf => exact Or.inr (Or.inl hf)
  | surplus hne _ hop he => exact Or.inr (Or.inr ⟨_, _, _, _, rfl, hne, hop, he, rfl⟩)

theorem Ended.toExpr_of_endFault {level : Level} (h : Ended level ts) {f : Fault}
    (hcount : (ts.map Token.lexeme).count .opening = (ts.map Token.lexeme).count .closing)
    (hf : EndFault ts f) : level.toExpr (stopOf ts) = .error f := by
  rcases endFault_cases hf hcount with ⟨hnil, rfl⟩ | hf | ⟨us, t, vs, e, hts, hne, hop, he, rfl⟩
  · cases h with
    | nothing h => rw [Level.toExpr, h]
    | call => cases hnil
    | lone he => exact absurd (congrArg (List.map Token.lexeme) hnil) he.ne_nil
    | more => simp at hnil
  · cases h with
    | nothing => cases hf
    | call hw hes h =>
      rw [List.map_cons, countFault?_operands hw hes] at hf
      rw [h]
      exact Level.call_eq_error_iff.2 hf
    | lone he =>
      rw [countFault?_eq_none (he.not_startsWithOperation)] at hf
      cases hf
    | @more us _ _ _ hne _ hop =>
      have hmap : us.map Token.lexeme ≠ [] := by simpa using hne
      rw [← Lexeme.startsWithOperation_append hmap] at hop
      rw [List.map_append, countFault?_eq_none hop] at hf
      cases hf
  · have hmap : us.map Token.lexeme ≠ [] := by simpa using hne
    cases h with
    | nothing => simp at hts
    | call hw =>
      have hfirst := @Lexeme.startsWithOperation_append _ ((t :: vs).map Token.lexeme) hmap
      rw [← List.map_append, ← hts, hop, List.map_cons, Lexeme.startsWithOperation, hw] at hfirst
      cases hfirst
    | lone hlone =>
      rw [hts, List.map_append] at hlone
      exact absurd (eq_nil_of_operand_append hlone he) hmap
    | @more us' vs' t' e' _ _ _ he' h =>
      -- both cut off an operand at the end, so they cut at the same place
      have hlexemes := congrArg (List.map Token.lexeme) hts
      rw [List.map_append, List.map_append] at hlexemes
      have hsuffix := operand_suffix_unique he' he hlexemes
      have hlength := congrArg List.length hsuffix
      rw [List.length_map, List.length_map] at hlength
      obtain ⟨-, htokens⟩ := List.append_inj' hts hlength
      obtain ⟨rfl, rfl⟩ := List.cons.inj htokens
      rw [h, Sentence.unique (.operand he) (.operand he')]

/-- At the end the reader fails exactly with the fault of the end. -/
theorem After.conclude_eq_error_iff (h : After s ts) {f : Fault} :
    s.conclude (stopOf ts) = .error f ↔ EndFault ts f := by
  obtain ⟨outer, inner, next⟩ := s
  have hcount := h.stacked.count_eq
  cases inner with
  | nil =>
    rw [State.conclude_eq_toExpr]
    exact ⟨h.ended.endFault hcount, h.ended.toExpr_of_endFault hcount⟩
  | cons level levels =>
    have hopen : (ts.map Token.lexeme).count .closing < (ts.map Token.lexeme).count .opening := by
      rw [hcount, List.length_cons]
      omega
    constructor
    · intro hf
      obtain rfl := Except.error.inj hf
      exact .unclosed hopen
    · intro hf
      cases hf with
      | empty => simp at hopen
      | unclosed => rfl
      | count h => exact absurd h hopen.ne'
      | surplus _ hus _ he =>
        rw [List.map_append, List.count_append, List.count_append, hus, he.count_eq] at hopen
        exact absurd hopen (lt_irrefl _)

/-- As long as there is no objection, tokens are taken. -/
theorem exists_after_take (tokens : List Token) {i : Nat}
    (h : ∀ j < i, objectionAt? tokens j = none) :
    ∃ s, (tokens.take i).foldlM State.step State.initial = .ok s ∧ After s (tokens.take i) := by
  induction i with
  | zero => exact ⟨State.initial, rfl, .initial⟩
  | succ i ih =>
    obtain ⟨s, hs, hafter⟩ := ih fun j hj => h j (hj.trans (Nat.lt_succ_self i))
    rw [List.take_add_one]
    have hnone := h i (Nat.lt_succ_self i)
    unfold objectionAt? at hnone
    cases ht : tokens[i]? with
    | none => exact ⟨s, by simpa using hs, by simpa using hafter⟩
    | some t =>
      rw [ht, Option.bind_some] at hnone
      cases hstep : s.step t with
      | error f =>
        rw [hafter.step_eq_error_iff.1 hstep] at hnone
        cases hnone
      | ok s' =>
        refine ⟨s', ?_, hafter.step hstep⟩
        rw [List.foldlM_append, hs]
        change List.foldlM State.step s [t] = _
        rw [List.foldlM_cons, hstep]
        rfl

theorem eq_take_append_cons_drop {tokens : List Token} {i : Nat} {t : Token}
    (h : tokens[i]? = some t) : tokens = tokens.take i ++ t :: tokens.drop (i + 1) := by
  obtain ⟨hi, rfl⟩ := List.getElem?_eq_some_iff.1 h
  rw [← List.drop_eq_getElem_cons hi, List.take_append_drop]

theorem read_of_objectionAt? {tokens : List Token} {i : Nat} {f : Fault}
    (h : objectionAt? tokens i = some f) (hbefore : ∀ j < i, objectionAt? tokens j = none) :
    read tokens = .error f := by
  obtain ⟨s, hs, hafter⟩ := exists_after_take tokens hbefore
  unfold objectionAt? at h
  obtain ⟨t, ht, hobjection⟩ := Option.bind_eq_some_iff.1 h
  unfold read
  rw [eq_take_append_cons_drop ht, List.foldlM_append, hs]
  change List.foldlM State.step s (t :: _) >>= _ = _
  rw [List.foldlM_cons, hafter.step_eq_error_iff.2 hobjection]
  rfl

/-- The fault of tokens is the first objection, or the fault of their end. -/
theorem read_eq_error_iff {tokens : List Token} {f : Fault} :
    read tokens = .error f ↔
      (∃ i, objectionAt? tokens i = some f ∧ ∀ j < i, objectionAt? tokens j = none) ∨
        ((∀ i, objectionAt? tokens i = none) ∧ EndFault tokens f) := by
  by_cases hnone : ∀ i, objectionAt? tokens i = none
  · obtain ⟨s, hs, hafter⟩ := exists_after_take tokens fun j (_ : j < tokens.length) => hnone j
    rw [List.take_length] at hs hafter
    have hread : read tokens = s.conclude (stopOf tokens) := by
      unfold read
      rw [hs]
      rfl
    rw [hread, hafter.conclude_eq_error_iff]
    simp [hnone]
  · have hsome : ∃ i, objectionAt? tokens i ≠ none := not_forall.1 hnone
    obtain ⟨g, hg⟩ := Option.ne_none_iff_exists'.1 (Nat.find_spec hsome)
    have hbefore : ∀ j < Nat.find hsome, objectionAt? tokens j = none :=
      fun j hj => not_not.1 (Nat.find_min hsome hj)
    have hread := read_of_objectionAt? hg hbefore
    -- any other first objection gives the result of the same run
    rw [hread, Except.error.injEq]
    constructor
    · rintro rfl
      exact Or.inl ⟨_, hg, hbefore⟩
    · rintro (⟨i, hi, hleast⟩ | ⟨hall, -⟩)
      · exact Except.error.inj (hread.symm.trans (read_of_objectionAt? hi hleast))
      · exact absurd hall hnone

end Reader

open LookBack

/-- A text fails with the first objection to one of its tokens, which looks back at the lexemes
before it; and where there is no objection, with the fault of its end. -/
theorem Expr.parse_eq_error_iff (source : String) (d : Diagnostic) :
    parse source = .error d ↔
      ∃ f, d = .located source f ∧
        ((∃ i, objectionAt? (Token.ofText source) i = some f ∧
            ∀ j < i, objectionAt? (Token.ofText source) j = none) ∨
          ((∀ i, objectionAt? (Token.ofText source) i = none) ∧
            EndFault (Token.ofText source) f)) := by
  simp only [← Reader.read_eq_error_iff]
  unfold parse
  cases Reader.read (Token.ofText source) with
  | ok e => simp [Except.mapError]
  | error g => simp [Except.mapError, eq_comm]

end PrefixArith
