import PrefixArith.Proofs.Grammar
import PrefixArith.Reader.State

namespace PrefixArith.Reader
open Grammar

/-- The tokens that an entry was read from; an operand begins where the first of them does. -/
inductive Entry.Spelled : Entry → List Token → Prop
  | head {w : String} {op : Operation} {p : Nat} (hw : Operation.ofSymbol? w = some op) :
      Spelled (.head op p) [⟨.word w, p⟩]
  | operand {e : Expr} {t : Token} {ts : List Token}
      (he : Operand ((t :: ts).map Token.lexeme) e) : Spelled (.operand e t.position) (t :: ts)

inductive Spelled : List Entry → List Token → Prop
  | nil : Spelled [] []
  | cons {x : Entry} {xs : List Entry} {ts us : List Token} (hx : x.Spelled ts)
      (hxs : Spelled xs us) : Spelled (x :: xs) (ts ++ us)

variable {ts us : List Token}

theorem Spelled.append {xs ys : List Entry} (hxs : Spelled xs ts)
    (hys : Spelled ys us) : Spelled (xs ++ ys) (ts ++ us) := by
  induction hxs with
  | nil => exact hys
  | cons hx _ ih =>
    rw [List.cons_append, List.append_assoc]
    exact .cons hx ih

theorem Spelled.concat {xs : List Entry} {x : Entry} (hxs : Spelled xs ts)
    (hx : x.Spelled us) : Spelled (xs ++ [x]) (ts ++ us) := by
  have h := hxs.append (.cons hx .nil)
  rwa [List.append_nil] at h

theorem Spelled.eq_nil (h : Spelled [] ts) : ts = [] := by
  cases h
  rfl

theorem Spelled.of_append {xs ys : List Entry} (h : Spelled (xs ++ ys) ts) :
    ∃ us vs, ts = us ++ vs ∧ Spelled xs us ∧ Spelled ys vs := by
  induction xs generalizing ts with
  | nil => exact ⟨[], ts, rfl, .nil, h⟩
  | cons x xs ih =>
    cases h with
    | @cons _ _ us₀ _ hx hxs =>
      obtain ⟨us, vs, rfl, hus, hvs⟩ := ih hxs
      exact ⟨us₀ ++ us, vs, (List.append_assoc _ _ _).symm, .cons hx hus, hvs⟩

theorem Spelled.of_concat {xs : List Entry} {x : Entry} (h : Spelled (xs ++ [x]) ts) :
    ∃ us vs, ts = us ++ vs ∧ Spelled xs us ∧ x.Spelled vs := by
  obtain ⟨us, vs, rfl, hus, hvs⟩ := h.of_append
  cases hvs with
  | cons hx hnil =>
    rw [hnil.eq_nil, List.append_nil]
    exact ⟨us, _, rfl, hus, hx⟩

theorem Spelled.count_eq {xs : List Entry} (h : Spelled xs ts) :
    (ts.map Token.lexeme).count .opening = (ts.map Token.lexeme).count .closing := by
  induction h with
  | nil => rfl
  | cons hx _ ih =>
    rw [List.map_append, List.count_append, List.count_append, ih]
    cases hx with
    | head => rfl
    | operand he => rw [he.count_eq]

theorem Spelled.operand {e : Expr} {p : Nat} (h : Spelled [.operand e p] ts) :
    Operand (ts.map Token.lexeme) e := by
  cases h with
  | cons hx hxs =>
    rw [hxs.eq_nil, List.append_nil]
    cases hx with
    | operand he => exact he

def Entry.isLeaf : Entry → Bool
  | head _ _ => false
  | operand e _ => e.isLeaf

def Entry.IsOperand (x : Entry) : Prop := ∃ e p, x = .operand e p

/-- The tokens of operands spell their expressions. -/
theorem Spelled.operands {xs : List Entry} (h : Spelled xs ts)
    (hxs : ∀ x ∈ xs, x.IsOperand) :
    ∃ es, xs.mapM Entry.expr = .ok es ∧ Operands (ts.map Token.lexeme) es := by
  induction h with
  | nil => exact ⟨[], rfl, .nil⟩
  | cons hx _ ih =>
    obtain ⟨es, hes, hops⟩ := ih fun x hx => hxs x (List.mem_cons_of_mem _ hx)
    obtain ⟨e, p, rfl⟩ := hxs _ List.mem_cons_self
    cases hx with
    | operand he =>
      refine ⟨e :: es, ?_, ?_⟩
      · rw [List.mapM_cons, hes]
        rfl
      · rw [List.map_append]
        exact .cons he hops

def IsCall (xs : List Entry) : Prop := ∃ op p ys, xs = .head op p :: ys ∧ ∀ y ∈ ys, y.IsOperand

def IsForest (xs : List Entry) : Prop :=
  (∀ x ∈ xs, x.IsOperand) ∧ ∀ x ∈ xs.head?, x.isLeaf = false

theorem IsCall.ne_nil {xs : List Entry} (h : IsCall xs) : xs ≠ [] := by
  obtain ⟨op, p, ys, rfl, -⟩ := h
  exact List.cons_ne_nil _ _

theorem IsCall.concat {xs : List Entry} {x : Entry} (h : IsCall xs) (hx : x.IsOperand) :
    IsCall (xs ++ [x]) := by
  obtain ⟨op, p, ys, rfl, hys⟩ := h
  refine ⟨op, p, ys ++ [x], rfl, ?_⟩
  intro y hy
  rcases List.mem_append.1 hy with hy | hy
  · exact hys y hy
  · rwa [List.mem_singleton.1 hy]

theorem isForest_nil : IsForest [] := ⟨fun _ h => by simp at h, fun _ h => by simp at h⟩

theorem IsForest.concat {xs : List Entry} {x : Entry} (h : IsForest xs) (hx : x.IsOperand)
    (hleaf : xs = [] → x.isLeaf = false) : IsForest (xs ++ [x]) := by
  refine ⟨?_, ?_⟩
  · intro y hy
    rcases List.mem_append.1 hy with hy | hy
    · exact h.1 y hy
    · rwa [List.mem_singleton.1 hy]
  · intro y hy
    cases xs with
    | nil =>
      obtain rfl : x = y := by simpa using hy
      exact hleaf rfl
    | cons z zs => exact h.2 y (by simpa using hy)

/-- What a level that holds a call was read from, and what becomes of it when it ends. -/
theorem IsCall.reading {level : Level} (h : IsCall level.entries.toList)
    (hts : Spelled level.entries.toList ts) :
    ∃ w p us op es, ts = ⟨.word w, p⟩ :: us ∧ Operation.ofSymbol? w = some op ∧
      Operands (us.map Token.lexeme) es ∧ ∀ stop, level.toExpr stop = Level.call op stop es := by
  obtain ⟨op, p, ys, hxs, hys⟩ := h
  rw [hxs] at hts
  cases hts with
  | @cons _ _ _ us hx hus =>
    cases hx with
    | @head w _ _ hw =>
      obtain ⟨es, hes, hops⟩ := hus.operands hys
      refine ⟨w, p, us, op, es, rfl, hw, hops, ?_⟩
      intro stop
      rw [Level.toExpr, hxs]
      change ys.mapM Entry.expr >>= Level.call op stop = _
      rw [hes]
      rfl

/-- The tokens read into the levels: those of the outermost one, and then for each level inside it
the parenthesis that opened it and its own. -/
inductive Stacked (outer : Level) : List Level → List Token → Prop
  | outer {ts : List Token} (h : Spelled outer.entries.toList ts) : Stacked outer [] ts
  | inner {level : Level} {levels : List Level} {ts us : List Token}
      (h : Stacked outer levels ts) (hus : Spelled level.entries.toList us) :
      Stacked outer (level :: levels) (ts ++ ⟨.opening, level.openedAt⟩ :: us)

theorem Stacked.push {outer : Level} {levels : List Level} {next : Next} {x : Entry}
    (h : Stacked outer levels ts) (hx : x.Spelled us) :
    Stacked (State.push ⟨outer, levels, next⟩ x).outer (State.push ⟨outer, levels, next⟩ x).inner
      (ts ++ us) := by
  cases h with
  | outer h =>
    refine .outer ?_
    change Spelled (outer.push x).entries.toList _
    rw [Level.toList_entries_push]
    exact h.concat hx
  | @inner level _ _ vs h hvs =>
    rw [List.append_assoc, List.cons_append]
    refine @Stacked.inner outer (level.push x) _ _ _ h ?_
    rw [Level.toList_entries_push]
    exact hvs.concat hx

/-- As many parentheses are open as there are inner levels. -/
theorem Stacked.count_eq {outer : Level} {levels : List Level} (h : Stacked outer levels ts) :
    (ts.map Token.lexeme).count .opening =
      (ts.map Token.lexeme).count .closing + levels.length := by
  induction h with
  | outer h => exact h.count_eq
  | inner _ hus ih =>
    have hcount := hus.count_eq
    simp only [List.map_append, List.map_cons, List.count_append, List.count_cons, ih, hcount,
      List.length_cons, reduceCtorEq, beq_iff_eq, if_true, if_false]
    omega

structure Waiting (outer : Level) (levels : List Level) : Prop where
  outer : IsCall outer.entries.toList ∨ IsForest outer.entries.toList
  levels : ∀ level ∈ levels, IsCall level.entries.toList

/-- The four phases: nothing is read; a single leaf is read, and nothing may follow; a parenthesis
was just opened, and its operation is due; or one more operand may come. -/
inductive State.Phase : State → Prop
  | start {outer : Level} (h : outer.entries.toList = []) : Phase ⟨outer, [], .anything⟩
  | leaf {outer : Level} {e : Expr} {p : Nat} (h : outer.entries.toList = [.operand e p])
      (he : e.isLeaf = true) : Phase ⟨outer, [], .nothing⟩
  | opened {outer level : Level} {levels : List Level} (hw : Waiting outer levels)
      (h : level.entries.toList = []) : Phase ⟨outer, level :: levels, .operation⟩
  | waiting {outer : Level} {levels : List Level} (hw : Waiting outer levels)
      (h : levels = [] → outer.entries.toList ≠ []) : Phase ⟨outer, levels, .operand⟩

theorem State.push_with_next (s : State) (x : Entry) (next : Next) :
    { s.push x with next := next } = State.push { s with next := next } x := by
  obtain ⟨outer, _ | ⟨level, levels⟩, _⟩ := s <;> rfl

theorem Waiting.push {outer : Level} {levels : List Level} {x : Entry}
    (hw : Waiting outer levels) (hx : x.IsOperand)
    (hleaf : levels = [] → outer.entries.toList = [] → x.isLeaf = false) :
    (State.push ⟨outer, levels, .operand⟩ x).Phase := by
  cases levels with
  | nil =>
    have hentries : (outer.push x).entries.toList = outer.entries.toList ++ [x] :=
      Level.toList_entries_push outer x
    refine @State.Phase.waiting (outer.push x) [] ⟨?_, fun _ h => by simp at h⟩ ?_
    · rw [hentries]
      rcases hw.outer with h | h
      · exact Or.inl (h.concat hx)
      · exact Or.inr (h.concat hx (hleaf rfl))
    · rw [hentries]
      simp
  | cons level levels =>
    refine @State.Phase.waiting outer (level.push x :: levels) ⟨hw.outer, ?_⟩
      fun h => absurd h (List.cons_ne_nil _ _)
    intro l hl
    rcases List.mem_cons.1 hl with rfl | hl
    · rw [Level.toList_entries_push]
      exact (hw.levels level List.mem_cons_self).concat hx
    · exact hw.levels l (List.mem_cons_of_mem _ hl)

theorem Level.isEmpty_iff {level : Level} : level.isEmpty = true ↔ level.entries.toList = [] := by
  simp [Level.isEmpty]

structure After (s : State) (ts : List Token) : Prop where
  stacked : Stacked s.outer s.inner ts
  phase : s.Phase

theorem After.initial : After State.initial [] := ⟨.outer .nil, .start rfl⟩

variable {s s' : State}

/-- Where a parenthesis may open, every open level takes one more operand. -/
theorem After.waiting (h : After s ts) (hs : s.next.admitsOpening = true) :
    Waiting s.outer s.inner := by
  cases h.phase with
  | start houter => exact ⟨Or.inr (houter ▸ isForest_nil), fun _ h => by simp at h⟩
  | leaf => simp [Next.nothing] at hs
  | opened => simp [Next.operation] at hs
  | waiting hw => exact hw

theorem After.descend (h : After s ts) {p : Nat} (hs : s.descend p = .ok s') :
    After s' (ts ++ [⟨.opening, p⟩]) := by
  unfold State.descend at hs
  split at hs
  · rename_i hadmits
    obtain rfl := Except.ok.inj hs
    exact ⟨.inner h.stacked .nil, .opened (h.waiting hadmits) rfl⟩
  · simp at hs

/-- A group that is closed spells the call it becomes. -/
theorem IsCall.closing {level : Level} (h : IsCall level.entries.toList)
    (hus : Spelled level.entries.toList us) {p : Nat} {e : Expr} (he : level.toExpr p = .ok e) :
    e.isLeaf = false ∧ (Entry.operand e level.openedAt).Spelled
      (⟨.opening, level.openedAt⟩ :: (us ++ [⟨.closing, p⟩])) := by
  obtain ⟨w, q, vs, op, es, rfl, hw, hops, hexpr⟩ := h.reading hus
  rw [hexpr, Level.call] at he
  split at he
  · simp at he
  · rename_i hcount
    obtain rfl := Except.ok.inj he
    refine ⟨rfl, @Entry.Spelled.operand _ ⟨.opening, level.openedAt⟩ _ ?_⟩
    have hcall := Operand.call hw hops (Arity.mismatch?_eq_none_iff.1 hcount)
    simpa using hcall

theorem After.ascend (h : After s ts) {p : Nat} (hs : s.ascend p = .ok s') :
    After s' (ts ++ [⟨.closing, p⟩]) := by
  obtain ⟨outer, inner, next⟩ := s
  obtain ⟨hstacked, hphase⟩ := h
  cases hstacked with
  | outer => simp [State.ascend] at hs
  | @inner level levels ts us hstacked hus =>
    unfold State.ascend at hs
    dsimp only at hs
    split at hs
    · simp at hs
    · rename_i hempty
      rw [Level.isEmpty_iff] at hempty
      -- only a level that holds a call is closed
      cases hphase with
      | opened _ hnil => exact absurd hnil hempty
      | waiting hw _ =>
        cases he : level.toExpr p with
        | error f =>
          rw [he] at hs
          cases hs
        | ok e =>
          rw [he] at hs
          obtain rfl := Except.ok.inj hs
          obtain ⟨hleaf, hspelled⟩ := (hw.levels level List.mem_cons_self).closing hus he
          have hbelow : Waiting outer levels :=
            ⟨hw.outer, fun l hl => hw.levels l (List.mem_cons_of_mem _ hl)⟩
          rw [List.append_assoc, List.cons_append]
          refine ⟨hstacked.push hspelled, ?_⟩
          exact hbelow.push ⟨e, level.openedAt, rfl⟩ fun _ _ => hleaf

theorem After.leaf (h : After s ts) {kind : LeafKind} {e : Expr} {w : String} {p : Nat}
    (he : Leaf w e) (hs : s.leaf kind e w p = .ok s') : After s' (ts ++ [⟨.word w, p⟩]) := by
  unfold State.leaf at hs
  split at hs
  · rename_i hadmits
    obtain rfl := Except.ok.inj hs
    have hspelled : (Entry.operand e p).Spelled [⟨.word w, p⟩] :=
      @Entry.Spelled.operand _ ⟨.word w, p⟩ _ (.leaf he)
    obtain ⟨outer, inner, next⟩ := s
    obtain ⟨hstacked, hphase⟩ := h
    refine ⟨hstacked.push hspelled, ?_⟩
    cases hphase with
    | @start outer houter =>
      have hempty : outer.isEmpty = true := Level.isEmpty_iff.2 houter
      have hpush : (outer.push (.operand e p)).entries.toList = [.operand e p] := by
        rw [Level.toList_entries_push, houter, List.nil_append]
      change State.Phase ⟨outer.push (.operand e p), [], .afterLeaf outer.isEmpty⟩
      rw [hempty]
      exact .leaf hpush he.isLeaf
    | leaf => simp [Next.nothing] at hadmits
    | opened => simp [Next.operation] at hadmits
    -- the level is not empty, so the leaf is not the whole text and more may follow
    | waiting hw hne =>
      have hcurrent : (State.current ⟨outer, inner, .operand⟩).isEmpty = false := by
        rw [← Bool.not_eq_true, Level.isEmpty_iff]
        cases inner with
        | nil => exact hne rfl
        | cons level levels => exact (hw.levels level List.mem_cons_self).ne_nil
      rw [hcurrent, State.push_with_next]
      exact hw.push ⟨e, p, rfl⟩ fun hinner houter => absurd houter (hne hinner)
  · simp at hs

/-- An operation is admitted only at the front of a level. -/
theorem After.head (h : After s ts) {op : Operation} {w : String} {p : Nat}
    (hw : Operation.ofSymbol? w = some op) (hs : s.next.admitsOperation = true) :
    After { s.push (.head op p) with next := .operand } (ts ++ [⟨.word w, p⟩]) := by
  obtain ⟨outer, inner, next⟩ := s
  obtain ⟨hstacked, hphase⟩ := h
  refine ⟨hstacked.push (.head hw), ?_⟩
  have hcall : ∀ level : Level, level.entries.toList = [] →
      IsCall (level.push (.head op p)).entries.toList := by
    intro level hlevel
    rw [Level.toList_entries_push, hlevel]
    exact ⟨op, p, [], rfl, fun _ h => by simp at h⟩
  cases hphase with
  | start houter =>
    have hpush := hcall outer houter
    exact @State.Phase.waiting (outer.push _) [] ⟨Or.inl hpush, fun _ h => by simp at h⟩
      fun _ => hpush.ne_nil
  | leaf => simp [Next.nothing] at hs
  | @opened _ level levels hwait hlevel =>
    refine @State.Phase.waiting outer (level.push _ :: levels) ⟨hwait.outer, ?_⟩
      fun h => absurd h (List.cons_ne_nil _ _)
    intro l hl
    rcases List.mem_cons.1 hl with rfl | hl
    · exact hcall level hlevel
    · exact hwait.levels l hl
  | waiting => simp [Next.operand] at hs

/-- A step that succeeds leads to the state after one more token. -/
theorem After.step (h : After s ts) {t : Token} (hs : s.step t = .ok s') :
    After s' (ts ++ [t]) := by
  obtain ⟨lexeme, p⟩ := t
  unfold State.step at hs
  cases lexeme with
  | opening => exact h.descend hs
  | closing => exact h.ascend hs
  | word w =>
    dsimp only at hs
    unfold State.word at hs
    cases hw : Atom.ofWord? w with
    | none => simp [hw] at hs
    | some atom =>
      rw [hw] at hs
      cases atom with
      | operation op =>
        dsimp only at hs
        split at hs
        · rename_i hadmits
          obtain rfl := Except.ok.inj hs
          exact h.head (Atom.ofWord?_eq_operation_iff.1 hw) hadmits
        · simp at hs
      | var v => exact h.leaf (.of_var hw) hs
      | number c => exact h.leaf (.of_number hw) hs

/-- A run that succeeds leads to the state after all its tokens. -/
theorem After.foldlM (h : After s ts) (hs : us.foldlM State.step s = .ok s') :
    After s' (ts ++ us) := by
  induction us generalizing s ts with
  | nil =>
    obtain rfl := Except.ok.inj hs
    rwa [List.append_nil]
  | cons t us ih =>
    rw [List.foldlM_cons] at hs
    cases ht : s.step t with
    | error f =>
      rw [ht] at hs
      cases hs
    | ok s₁ =>
      rw [ht] at hs
      have h₁ := ih (h.step ht) hs
      rwa [List.append_assoc] at h₁

/-- What the outermost level was read from, once no parenthesis is open: nothing, a call without
its parentheses, one operand, or more of them. -/
inductive Ended (level : Level) : List Token → Prop
  | nothing (h : level.entries.toList = []) : Ended level []
  | call {w : String} {p : Nat} {op : Operation} {us : List Token} {es : List Expr}
      (hw : Operation.ofSymbol? w = some op) (hes : Operands (us.map Token.lexeme) es)
      (h : ∀ stop, level.toExpr stop = Level.call op stop es) : Ended level (⟨.word w, p⟩ :: us)
  | lone {us : List Token} {e : Expr} (he : Operand (us.map Token.lexeme) e)
      (h : ∀ stop, level.toExpr stop = .ok e) : Ended level us
  | more {us vs : List Token} {t : Token} {e : Expr} (hne : us ≠ [])
      (hcount : (us.map Token.lexeme).count .opening = (us.map Token.lexeme).count .closing)
      (hop : Lexeme.startsWithOperation (us.map Token.lexeme) = false)
      (he : Operand ((t :: vs).map Token.lexeme) e)
      (h : ∀ stop, level.toExpr stop = .error (.surplus e.postfixText t.position)) :
      Ended level (us ++ t :: vs)

/-- Where operands come first, no operation does. -/
theorem Spelled.not_startsWithOperation {x : Entry} {xs : List Entry} (h : Spelled (x :: xs) ts)
    (hx : x.IsOperand) :
    ts ≠ [] ∧ Lexeme.startsWithOperation (ts.map Token.lexeme) = false := by
  obtain ⟨e, p, rfl⟩ := hx
  cases h with
  | cons hx _ =>
    cases hx with
    | operand he =>
      refine ⟨List.cons_ne_nil _ _, ?_⟩
      rw [List.map_append, Lexeme.startsWithOperation_append he.ne_nil]
      exact he.not_startsWithOperation

theorem Ended.of_operands {level : Level} (hts : Spelled level.entries.toList ts)
    (h : ∀ x ∈ level.entries.toList, x.IsOperand) : Ended level ts := by
  cases hxs : level.entries.toList with
  | nil =>
    rw [hxs] at hts
    rw [hts.eq_nil]
    exact .nothing hxs
  | cons x xs =>
    rw [hxs] at hts h
    obtain ⟨e, p, rfl⟩ := h x List.mem_cons_self
    rcases List.eq_nil_or_concat xs with rfl | ⟨ys, y, rfl⟩
    · refine .lone hts.operand fun stop => ?_
      rw [Level.toExpr, hxs]
      rfl
    · rw [List.concat_eq_append] at hxs hts h
      -- of several operands the last one is too many
      obtain ⟨us, vs, rfl, hus, hvs⟩ := @Spelled.of_concat _ (.operand e p :: ys) _ hts
      obtain ⟨hne, hop⟩ := hus.not_startsWithOperation ⟨e, p, rfl⟩
      obtain ⟨e', q, rfl⟩ := h y (by simp)
      cases hvs with
      | operand he =>
        refine .more hne hus.count_eq hop he fun stop => ?_
        rw [Level.toExpr, hxs]
        dsimp only
        rw [List.getLast?_concat]
        rfl

theorem After.ended {outer : Level} {next : Next} (h : After ⟨outer, [], next⟩ ts) :
    Ended outer ts := by
  obtain ⟨hstacked, hphase⟩ := h
  cases hstacked with
  | outer hts =>
    cases hphase with
    | start houter => exact .of_operands hts fun x hx => by simp [houter] at hx
    | leaf houter =>
      refine .of_operands hts fun x hx => ?_
      rw [houter, List.mem_singleton] at hx
      exact ⟨_, _, hx⟩
    | waiting hw =>
      rcases hw.outer with hcall | hforest
      · obtain ⟨w, p, us, op, es, rfl, hop, hops, hexpr⟩ := hcall.reading hts
        exact .call hop hops hexpr
      · exact .of_operands hts hforest.1

end PrefixArith.Reader
