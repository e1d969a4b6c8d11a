import PrefixArith.Proofs.Reader.History
import PrefixArith.Proofs.Token.Positions

namespace PrefixArith.Reader

/-- Every level begins with its operation and holds nothing but operands behind it. Only the
innermost one may still be empty. The outermost one may hold operands alone; then a leaf comes first
only if it is all that has been read. -/
structure State.Shaped (s : State) : Prop where
  around : ∀ level ∈ s.inner.tail, IsCall level.entries.toList
  innermost : ∀ level ∈ s.inner.head?,
    level.entries.toList = [] ∨ IsCall level.entries.toList
  outer : s.outer.entries.toList = [] ∨ IsCall s.outer.entries.toList ∨
    (∀ x ∈ s.outer.entries.toList, x.IsOperand) ∧ ∀ x ∈ s.outer.entries.toList.head?,
      x.isLeaf = true → s.outer.entries.toList = [x] ∧ s.inner = []

theorem Waiting.shaped_outer {outer : Level} {levels : List Level} (hw : Waiting outer levels)
    (inner : List Level) :
    outer.entries.toList = [] ∨ IsCall outer.entries.toList ∨
      (∀ x ∈ outer.entries.toList, x.IsOperand) ∧ ∀ x ∈ outer.entries.toList.head?,
        x.isLeaf = true → outer.entries.toList = [x] ∧ inner = [] := by
  rcases hw.outer with hcall | ⟨hoperands, hleaf⟩
  · exact Or.inr (Or.inl hcall)
  · refine Or.inr (Or.inr ⟨hoperands, ?_⟩)
    intro x hx hxleaf
    rw [hleaf x hx] at hxleaf
    cases hxleaf

theorem State.Phase.shaped {s : State} (h : s.Phase) : s.Shaped := by
  cases h with
  | start houter => exact ⟨by simp, by simp, Or.inl houter⟩
  | @leaf outer e p houter he =>
    refine ⟨by simp, by simp, Or.inr (Or.inr ⟨?_, ?_⟩)⟩
    · intro x hx
      rw [houter, List.mem_singleton] at hx
      exact ⟨e, p, hx⟩
    · intro x hx _
      rw [houter, List.head?_cons, Option.mem_some] at hx
      exact ⟨by rw [houter, hx], rfl⟩
  | @opened outer level levels hw hlevel =>
    refine ⟨hw.levels, ?_, hw.shaped_outer _⟩
    intro l hl
    obtain rfl := Option.some.inj hl
    exact Or.inl hlevel
  | @waiting outer levels hw _ =>
    refine ⟨fun l hl => hw.levels l (List.mem_of_mem_tail hl), ?_, hw.shaped_outer _⟩
    intro l hl
    exact Or.inr (hw.levels l (List.mem_of_mem_head? hl))

def isLoneLeafEntry : List Entry → Bool
  | [x] => x.isLeaf
  | _ => false

/-- What may come next, as the levels tell: anything at the start, only an operation on an empty
level, nothing behind a leaf that is all there is, and in all other cases one more operand. -/
def State.due (s : State) : Next :=
  if s.inner.isEmpty && s.outer.isEmpty then ⟨true, true, true⟩
  else if s.current.isEmpty then ⟨false, true, false⟩
  else if s.inner.isEmpty && isLoneLeafEntry s.outer.entries.toList then ⟨false, false, false⟩
  else ⟨true, false, true⟩

theorem Level.isEmpty_eq_false {level : Level} (h : level.entries.toList ≠ []) :
    level.isEmpty = false := by
  rw [← Bool.not_eq_true, Level.isEmpty_iff]
  exact h

theorem IsCall.not_isLoneLeafEntry {xs : List Entry} (h : IsCall xs) :
    isLoneLeafEntry xs = false := by
  obtain ⟨op, p, ys, rfl, -⟩ := h
  cases ys <;> rfl

theorem IsForest.not_isLoneLeafEntry {xs : List Entry} (h : IsForest xs) :
    isLoneLeafEntry xs = false := by
  match xs with
  | [] => rfl
  | [x] => exact h.2 x rfl
  | _ :: _ :: _ => rfl

theorem Waiting.due_eq {outer : Level} {levels : List Level} (hw : Waiting outer levels)
    (hne : levels = [] → outer.entries.toList ≠ []) (next : Next) :
    State.due ⟨outer, levels, next⟩ = ⟨true, false, true⟩ := by
  unfold State.due
  cases levels with
  | nil =>
    have hempty := Level.isEmpty_eq_false (hne rfl)
    have hlone : isLoneLeafEntry outer.entries.toList = false := by
      rcases hw.outer with hcall | hforest
      · exact hcall.not_isLoneLeafEntry
      · exact hforest.not_isLoneLeafEntry
    simp [State.current, hempty, hlone]
  | cons level levels =>
    have hempty := Level.isEmpty_eq_false (hw.levels level List.mem_cons_self).ne_nil
    simp [State.current, hempty]

theorem State.Phase.next_eq_due {s : State} (h : s.Phase) : s.next = s.due := by
  cases h with
  | start houter => simp [State.due, Level.isEmpty_iff.2 houter, Next.anything]
  | @leaf outer e p houter he =>
    have hempty : outer.isEmpty = false :=
      Level.isEmpty_eq_false (by rw [houter]; exact List.cons_ne_nil _ _)
    have hlone : isLoneLeafEntry outer.entries.toList = true := by
      rw [houter]
      exact he
    simp [State.due, State.current, hempty, hlone, Next.nothing]
  | opened _ hlevel =>
    simp [State.due, State.current, Level.isEmpty_iff.2 hlevel, Next.operation]
  | waiting hw hne => exact (hw.due_eq hne _).symm

/-- Positions increase within a level, and a level was opened behind whatever the levels around it
hold, and behind where they were opened. -/
structure State.Ordered (s : State) : Prop where
  entries : ∀ level ∈ s.inner ++ [s.outer],
    (level.entries.toList.map Entry.position).Pairwise (· < ·)
  around : (s.inner ++ [s.outer]).Pairwise fun level around =>
    ∀ x ∈ around.entries.toList, x.position < level.openedAt
  openedAt : s.inner.Pairwise fun level around => around.openedAt < level.openedAt

def positions (outer : Level) : List Level → List Nat
  | [] => outer.entries.toList.map Entry.position
  | level :: levels =>
    positions outer levels ++ level.openedAt :: level.entries.toList.map Entry.position

theorem Spelled.positions_sublist {xs : List Entry} {ts : List Token} (h : Spelled xs ts) :
    (xs.map Entry.position).Sublist (ts.map Token.position) := by
  induction h with
  | nil => exact List.Sublist.slnil
  | @cons x xs us _ hx _ ih =>
    have hmem : x.position ∈ us.map Token.position := by
      cases hx with
      | head => exact List.mem_singleton_self _
      | operand => exact List.mem_cons_self
    rw [List.map_append]
    exact (List.singleton_sublist.2 hmem).append ih

/-- Every position in the levels is that of a token, and they stand in the tokens' order. -/
theorem Stacked.positions_sublist {outer : Level} {levels : List Level} {ts : List Token}
    (h : Stacked outer levels ts) : (positions outer levels).Sublist (ts.map Token.position) := by
  induction h with
  | outer h => exact h.positions_sublist
  | inner _ hus ih =>
    rw [positions, List.map_append, List.map_cons]
    exact ih.append (hus.positions_sublist.cons_cons _)

theorem mem_positions_of_mem {outer level : Level} {levels : List Level} {x : Entry}
    (hlevel : level ∈ levels ++ [outer]) (hx : x ∈ level.entries.toList) :
    x.position ∈ positions outer levels := by
  induction levels with
  | nil =>
    rw [List.mem_singleton.1 hlevel] at hx
    exact List.mem_map_of_mem hx
  | cons l levels ih =>
    rw [positions, List.mem_append]
    rcases List.mem_cons.1 hlevel with rfl | hlevel
    · exact Or.inr (List.mem_cons_of_mem _ (List.mem_map_of_mem hx))
    · exact Or.inl (ih hlevel)

theorem openedAt_mem_positions {outer level : Level} {levels : List Level}
    (hlevel : level ∈ levels) : level.openedAt ∈ positions outer levels := by
  induction levels with
  | nil => cases hlevel
  | cons l levels ih =>
    rw [positions, List.mem_append]
    rcases List.mem_cons.1 hlevel with rfl | hlevel
    · exact Or.inr List.mem_cons_self
    · exact Or.inl (ih hlevel)

theorem ordered_of_pairwise {outer : Level} {levels : List Level} (next : Next)
    (h : (positions outer levels).Pairwise (· < ·)) : State.Ordered ⟨outer, levels, next⟩ := by
  induction levels with
  | nil => exact ⟨by simpa [positions] using h, by simp, List.Pairwise.nil⟩
  | cons level levels ih =>
    rw [positions, List.pairwise_append] at h
    obtain ⟨haround, hlevel, hcross⟩ := h
    obtain ⟨hentries, hbefore, hopened⟩ := ih haround
    refine ⟨?_, List.pairwise_cons.2 ⟨?_, hbefore⟩, List.pairwise_cons.2 ⟨?_, hopened⟩⟩
    · intro l hl
      rcases List.mem_cons.1 hl with rfl | hl
      · exact (List.pairwise_cons.1 hlevel).2
      · exact hentries l hl
    · intro l hl x hx
      exact hcross _ (mem_positions_of_mem hl hx) _ List.mem_cons_self
    · intro l hl
      exact hcross _ (openedAt_mem_positions hl) _ List.mem_cons_self

/-- Every expression built so far is valid at any depth: its calls have been counted, and no
constant is NaN. -/
def State.Sound (s : State) : Prop :=
  ∀ level ∈ s.inner ++ [s.outer], ∀ e p, Entry.operand e p ∈ level.entries.toList → e.Valid

theorem Spelled.valid {xs : List Entry} {ts : List Token} (h : Spelled xs ts) {e : Expr} {p : Nat}
    (hx : Entry.operand e p ∈ xs) : e.Valid := by
  induction h with
  | nil => cases hx
  | cons hspelled _ ih =>
    rcases List.mem_cons.1 hx with rfl | hx
    · cases hspelled with
      | operand he => exact he.valid
    · exact ih hx

theorem Stacked.sound {outer : Level} {levels : List Level} {ts : List Token}
    (h : Stacked outer levels ts) (next : Next) : State.Sound ⟨outer, levels, next⟩ := by
  induction h with
  | outer h =>
    intro level hlevel e p hx
    rw [List.mem_singleton.1 hlevel] at hx
    exact h.valid hx
  | inner _ hus ih =>
    intro level hlevel e p hx
    rcases List.mem_cons.1 hlevel with rfl | hlevel
    · exact hus.valid hx
    · exact ih level hlevel e p hx

theorem exists_mapM_expr {xs : List Entry} (h : ∀ x ∈ xs, x.IsOperand) :
    ∃ es, xs.mapM Entry.expr = .ok es := by
  induction xs with
  | nil => exact ⟨[], rfl⟩
  | cons x xs ih =>
    obtain ⟨e, p, rfl⟩ := h x List.mem_cons_self
    obtain ⟨es, hes⟩ := ih fun y hy => h y (List.mem_cons_of_mem _ hy)
    refine ⟨e :: es, ?_⟩
    rw [List.mapM_cons, hes]
    rfl

theorem Level.call_error {op : Operation} {stop : Nat} {es : List Expr} {f : Fault}
    (h : Level.call op stop es = .error f) : ∃ due, f = .wrongCount op stop due es.length := by
  unfold Level.call at h
  split at h
  · exact ⟨_, (Except.error.inj h).symm⟩
  · cases h

/-- The faults with which a level ends where it holds what it should: a wrong count, or an entry
too many. -/
def EndsLevel (f : Fault) : Prop :=
  (∃ op stop due found, f = .wrongCount op stop due found) ∨ ∃ token p, f = .surplus token p

theorem EndsLevel.ne_empty {f : Fault} (h : EndsLevel f) : f ≠ .empty := by
  rcases h with ⟨_, _, _, _, rfl⟩ | ⟨_, _, rfl⟩
  · exact Fault.noConfusion
  · exact Fault.noConfusion

theorem EndsLevel.ne_strayOperation {f : Fault} (h : EndsLevel f) (op : Operation) (p : Nat) :
    f ≠ .strayOperation op p := by
  rcases h with ⟨_, _, _, _, rfl⟩ | ⟨_, _, rfl⟩
  · exact Fault.noConfusion
  · exact Fault.noConfusion

theorem Level.toExpr_error {level : Level} (hne : level.entries.toList ≠ [])
    (h : IsCall level.entries.toList ∨ ∀ x ∈ level.entries.toList, x.IsOperand) {stop : Nat}
    {f : Fault} (hf : level.toExpr stop = .error f) : EndsLevel f := by
  rcases h with ⟨op, p, ys, hxs, hys⟩ | hoperands
  · obtain ⟨es, hes⟩ := exists_mapM_expr hys
    rw [Level.toExpr, hxs] at hf
    change ys.mapM Entry.expr >>= Level.call op stop = _ at hf
    rw [hes] at hf
    obtain ⟨due, rfl⟩ := Level.call_error hf
    exact Or.inl ⟨op, stop, due, es.length, rfl⟩
  · obtain ⟨x, xs, hxs⟩ := List.exists_cons_of_ne_nil hne
    obtain ⟨e, p, rfl⟩ := hoperands x (by rw [hxs]; exact List.mem_cons_self)
    rw [Level.toExpr, hxs] at hf
    dsimp only at hf
    split at hf
    · cases hf
    · exact Or.inr ⟨_, _, (Except.error.inj hf).symm⟩

variable {ts : List Token} {s : State}

theorem After.ordered (h : After s ts) (hts : ts.Pairwise fun t u => t.position < u.position) :
    s.Ordered := by
  have hpositions : (ts.map Token.position).Pairwise (· < ·) := List.pairwise_map.2 hts
  exact ordered_of_pairwise s.next (hpositions.sublist h.stacked.positions_sublist)

theorem After.toExpr_error (h : After s ts) {level : Level} (hlevel : level ∈ s.inner ++ [s.outer])
    (hne : level.isEmpty = false) {stop : Nat} {f : Fault} (hf : level.toExpr stop = .error f) :
    EndsLevel f := by
  have hentries : level.entries.toList ≠ [] := by
    rw [Ne, ← Level.isEmpty_iff, hne]
    decide
  apply Level.toExpr_error hentries ?_ hf
  obtain ⟨haround, hinnermost, houter⟩ := h.phase.shaped
  -- a level inside holds a call, and only the outermost one may hold operands alone
  rcases List.mem_append.1 hlevel with hlevel | hlevel
  · cases hinner : s.inner with
    | nil =>
      rw [hinner] at hlevel
      cases hlevel
    | cons l levels =>
      rw [hinner] at hlevel haround hinnermost
      rcases List.mem_cons.1 hlevel with rfl | hlevel
      · exact Or.inl ((hinnermost level rfl).resolve_left hentries)
      · exact Or.inl (haround level hlevel)
  · rw [List.mem_singleton.1 hlevel] at hentries ⊢
    rcases houter with hnil | hcall | hoperands
    · exact absurd hnil hentries
    · exact Or.inl hcall
    · exact Or.inr hoperands.1

/-- Once a token is read, the outermost level is empty only inside a parenthesis. -/
theorem After.isEmpty_outer (h : After s ts) (hts : ts ≠ []) (hinner : s.inner = []) :
    s.outer.isEmpty = false := by
  obtain ⟨outer, inner, next⟩ := s
  obtain rfl : inner = [] := hinner
  apply Level.isEmpty_eq_false
  intro hnil
  cases h.stacked with
  | outer hspelled =>
    rw [hnil] at hspelled
    exact hts hspelled.eq_nil

/-- A closing parenthesis is refused as a stray one, or as its level ends. -/
theorem After.ascend_error (h : After s ts) {p : Nat} {f : Fault} (hf : s.ascend p = .error f) :
    f = .strayClosing p ∨ EndsLevel f := by
  unfold State.ascend at hf
  split at hf
  · exact Or.inl (Except.error.inj hf).symm
  · rename_i level levels hinner
    split at hf
    · exact Or.inl (Except.error.inj hf).symm
    · rename_i hempty
      rw [Bool.not_eq_true] at hempty
      have hlevel : level ∈ s.inner ++ [s.outer] := by
        rw [hinner]
        exact List.mem_cons_self
      cases he : level.toExpr p with
      | error f' =>
        rw [he] at hf
        obtain rfl := Except.error.inj hf
        exact Or.inr (h.toExpr_error hlevel hempty he)
      | ok e =>
        rw [he] at hf
        cases hf

/-- The end of the tokens is refused for want of any, in a level, or as the outermost level ends. -/
theorem After.conclude_error (h : After s ts) {stop : Nat} {f : Fault}
    (hf : s.conclude stop = .error f) :
    f = .empty ∧ ts = [] ∨ f = .unclosed stop ∨ EndsLevel f := by
  unfold State.conclude at hf
  split at hf
  · rename_i hinner
    split at hf
    · rename_i hempty
      refine Or.inl ⟨(Except.error.inj hf).symm, ?_⟩
      by_contra hts
      rw [h.isEmpty_outer hts (List.isEmpty_iff.1 hinner)] at hempty
      cases hempty
    · rename_i hempty
      rw [Bool.not_eq_true] at hempty
      exact Or.inr (Or.inr (h.toExpr_error List.mem_concat_self hempty hf))
  · exact Or.inr (Or.inl (Except.error.inj hf).symm)

/-- What every state satisfies that tokens lead to without a fault: as many levels are open as
parentheses, the levels have their shape, their positions increase if those of the tokens do, as in
every text, all that has been built is valid, and what may come next is a function of the levels. So
ending a level that is not empty never finds it empty or an operation behind its front; neither does
a closing parenthesis, nor the end of the tokens unless there are none. -/
theorem reachable_state (h : ts.foldlM State.step State.initial = .ok s) :
    (ts.map Token.lexeme).count .opening =
        (ts.map Token.lexeme).count .closing + s.inner.length ∧
      s.Shaped ∧
      ((ts.Pairwise fun t u => t.position < u.position) → s.Ordered) ∧
      (∀ source, ts <+: Token.ofText source → s.Ordered) ∧
      s.Sound ∧
      s.next = s.due ∧
      (∀ level ∈ s.inner ++ [s.outer], level.isEmpty = false → ∀ stop,
        level.toExpr stop ≠ .error .empty ∧
          ∀ op p, level.toExpr stop ≠ .error (.strayOperation op p)) ∧
      (∀ stop, s.ascend stop ≠ .error .empty ∧
        ∀ op p, s.ascend stop ≠ .error (.strayOperation op p)) ∧
      ∀ stop, (s.conclude stop = .error .empty → ts = []) ∧
        ∀ op p, s.conclude stop ≠ .error (.strayOperation op p) := by
  have hafter : After s ts := After.initial.foldlM h
  refine ⟨hafter.stacked.count_eq, hafter.phase.shaped, hafter.ordered, ?_,
    hafter.stacked.sound s.next, hafter.phase.next_eq_due, ?_, ?_, ?_⟩
  · intro source hprefix
    have hpairwise := Token.pairwise_position_scan 1 source.toList
    exact hafter.ordered (hpairwise.sublist hprefix.sublist)
  · intro level hlevel hne stop
    constructor
    · intro hf
      exact (hafter.toExpr_error hlevel hne hf).ne_empty rfl
    · intro op p hf
      exact (hafter.toExpr_error hlevel hne hf).ne_strayOperation op p rfl
  · intro stop
    constructor
    · intro hf
      rcases hafter.ascend_error hf with hstray | hends
      · cases hstray
      · exact absurd rfl hends.ne_empty
    · intro op p hf
      rcases hafter.ascend_error hf with hstray | hends
      · cases hstray
      · exact absurd rfl (hends.ne_strayOperation op p)
  · intro stop
    constructor
    · intro hf
      rcases hafter.conclude_error hf with ⟨-, hts⟩ | hunclosed | hends
      · exact hts
      · cases hunclosed
      · exact absurd rfl hends.ne_empty
    · intro op p hf
      rcases hafter.conclude_error hf with ⟨hempty, -⟩ | hunclosed | hends
      · cases hempty
      · cases hunclosed
      · exact absurd rfl (hends.ne_strayOperation op p)

/-- Behind `(+ x (sum` two levels are open. -/
theorem reachable_state_two_levels :
    ∃ s, ([⟨.opening, 1⟩, ⟨.word "+", 2⟩, ⟨.word "x", 4⟩, ⟨.opening, 6⟩, ⟨.word "sum", 7⟩] :
        List Token).foldlM State.step State.initial = .ok s ∧ s.inner.length = 2 ∧ s.Shaped ∧
      s.Ordered ∧ s.Sound ∧ s.next = s.due := by
  obtain ⟨-, hshaped, hordered, -, hsound, hnext, -, -, -⟩ :=
    @reachable_state
      [⟨.opening, 1⟩, ⟨.word "+", 2⟩, ⟨.word "x", 4⟩, ⟨.opening, 6⟩, ⟨.word "sum", 7⟩]
      ⟨.empty 0, [⟨6, #[.head .sum 7]⟩, ⟨1, #[.head .add 2, .operand (.var .x) 4]⟩], .operand⟩ rfl
  exact ⟨_, rfl, rfl, hshaped, hordered (by decide), hsound, hnext⟩

end PrefixArith.Reader
