import Mathlib.Data.List.Forall2
import PrefixArith.Proofs.Expr.Postfix
import PrefixArith.Proofs.Expr.Readability

namespace PrefixArith

namespace Label

def same : Label → Label → Bool
  | const c, const d => c == d
  | var v, var w => v == w
  | call f m, call g n => f == g && m == n
  | _, _ => false

def Same (ls ms : List Label) : Prop := List.Forall₂ (fun l m => l.same m = true) ls ms

theorem name_eq_of_same {l m : Label} (h : l.same m = true) : l.name = m.name := by
  cases l <;> cases m <;> simp only [same, Bool.false_eq_true, beq_iff_eq, Bool.and_eq_true] at h
  case const.const c d => exact Numeral.write_eq_of_beq h
  case var.var v w => rw [h]
  case call.call f m g n => rw [h.1, h.2]

theorem Same.names {ls ms : List Label} (h : Same ls ms) : ls.map name = ms.map name := by
  induction h with
  | nil => rfl
  | cons hl _ ih => rw [List.map_cons, List.map_cons, name_eq_of_same hl, ih]

def isFixed : Label → Bool
  | call op count => op.arity = .exactly count
  | _ => true

end Label

theorem Numeral.write_ne_symbol {c : Float} (hc : c.isNaN = false) (op : Operation) :
    write .literal c ≠ op.symbol := by
  intro h
  have hread := read?_write hc
  rw [h, read?_symbol] at hread
  cases hread

theorem Variable.name_ne_symbol (v : Variable) (op : Operation) : v.name ≠ op.symbol := by
  intro h
  have hsymbol := Atom.ofSymbol?_of_ofName? (ofName?_name v)
  rw [h, Operation.ofSymbol?_symbol] at hsymbol
  cases hsymbol

namespace Label

variable {l m : Label}

/-- The word of an operation does not tell how many operands it has, but its arity does. -/
theorem same_of_name_eq (hl : l.isNaN = false) (hm : m.isNaN = false) (hl' : l.isFixed = true)
    (hm' : m.isFixed = true) (h : l.name = m.name) : l.same m = true := by
  cases l with
  | const c =>
    cases m with
    | const d => exact Numeral.beq_of_write_eq hl hm h
    | var w => exact absurd h (Numeral.write_ne_name hl w)
    | call g n => exact absurd h (Numeral.write_ne_symbol hl g)
  | var v =>
    cases m with
    | const d => exact absurd h.symm (Numeral.write_ne_name hm v)
    | var w => simpa [same] using Variable.name_injective h
    | call g n => exact absurd h (v.name_ne_symbol g)
  | call f count =>
    cases m with
    | const d => exact absurd h.symm (Numeral.write_ne_symbol hm f)
    | var w => exact absurd h.symm (w.name_ne_symbol f)
    | call g count' =>
      obtain rfl : f = g := Operation.symbol_injective h
      have hcount : Arity.exactly count = .exactly count' :=
        (of_decide_eq_true hl').symm.trans (of_decide_eq_true hm')
      simpa [same] using Arity.exactly.inj hcount

theorem same_of_names_eq : ∀ {ls ms : List Label}, (∀ l ∈ ls, l.isNaN = false) →
    (∀ m ∈ ms, m.isNaN = false) → (∀ l ∈ ls, l.isFixed = true) → (∀ m ∈ ms, m.isFixed = true) →
      ls.map name = ms.map name → Same ls ms
  | [], [], _, _, _, _, _ => .nil
  | l :: ls, m :: ms, hl, hm, hl', hm', h => by
    rw [List.forall_mem_cons] at hl hm hl' hm'
    obtain ⟨hname, hnames⟩ := List.cons.inj h
    exact .cons (same_of_name_eq hl.1 hm.1 hl'.1 hm'.1 hname)
      (same_of_names_eq hl.2 hm.2 hl'.2 hm'.2 hnames)

end Label

namespace Expr

theorem sameAll_iff_forall₂ : ∀ {as bs : List Expr},
    sameAll as bs = true ↔ List.Forall₂ (fun a b => same a b = true) as bs
  | [], [] => by simp [sameAll]
  | [], _ :: _ => by simp [sameAll]
  | _ :: _, [] => by simp [sameAll]
  | a :: as, b :: bs => by
    rw [sameAll, Bool.and_eq_true, sameAll_iff_forall₂, List.forall₂_cons]

theorem length_eq_of_sameAll {as bs : List Expr} (h : sameAll as bs = true) :
    as.length = bs.length :=
  (sameAll_iff_forall₂.1 h).length_eq

mutual

theorem same_postorder : ∀ {a b : Expr}, same a b = true → Label.Same a.postorder b.postorder
  | .const _, .const _, h => .cons h .nil
  | .var _, .var _, h => .cons h .nil
  | .call f as, .call g bs, h => by
    rw [same, Bool.and_eq_true, beq_iff_eq] at h
    have hroot : (Label.call f as.length).same (.call g bs.length) = true := by
      simp [Label.same, h.1, length_eq_of_sameAll h.2]
    exact List.rel_append (same_postorderAll h.2) (.cons hroot .nil)

theorem same_postorderAll : ∀ {as bs : List Expr}, sameAll as bs = true →
    Label.Same (postorderAll as) (postorderAll bs)
  | [], [], _ => .nil
  | a :: as, b :: bs, h => by
    rw [sameAll, Bool.and_eq_true] at h
    exact List.rel_append (same_postorder h.1) (same_postorderAll h.2)

end

end Expr

namespace Label

variable {l m : Label} {ls ms : List Label} {stack stack' pushed : List Expr}

theorem push?_same (h : l.same m = true) (hstack : Expr.sameAll stack stack' = true)
    (hpush : l.push? stack = some pushed) :
    ∃ pushed', m.push? stack' = some pushed' ∧ Expr.sameAll pushed pushed' = true := by
  cases l <;> cases m <;> simp only [same, Bool.false_eq_true, beq_iff_eq, Bool.and_eq_true] at h
  case const.const c d =>
    obtain rfl := Option.some.inj hpush
    exact ⟨_, rfl, by simp [Expr.sameAll, Expr.same, h, hstack]⟩
  case var.var v w =>
    obtain rfl := Option.some.inj hpush
    exact ⟨_, rfl, by simp [Expr.sameAll, Expr.same, h, hstack]⟩
  case call.call f count g count' =>
    obtain ⟨rfl, rfl⟩ := h
    -- both calls take the same number of operands off their stacks
    have hlength := Expr.length_eq_of_sameAll hstack
    rw [Expr.sameAll_iff_forall₂] at hstack
    change (if count ≤ stack.length then _ else none) = _ at hpush
    by_cases hcount : count ≤ stack.length
    · rw [if_pos hcount] at hpush
      obtain rfl := Option.some.inj hpush
      have htaken := List.forall₂_reverse_iff.2 (List.forall₂_take count hstack)
      have hleft := List.forall₂_drop count hstack
      refine ⟨_, if_pos (hlength ▸ hcount), ?_⟩
      rw [Expr.sameAll, Expr.same, Expr.sameAll_iff_forall₂.2 htaken,
        Expr.sameAll_iff_forall₂.2 hleft]
      simp
    · rw [if_neg hcount] at hpush
      cases hpush

/-- The same labels take stacks of equal expressions to stacks of equal expressions. -/
theorem pushAll?_same (h : Same ls ms) (hstack : Expr.sameAll stack stack' = true)
    (hpush : pushAll? ls stack = some pushed) :
    ∃ pushed', pushAll? ms stack' = some pushed' ∧ Expr.sameAll pushed pushed' = true := by
  induction h generalizing stack stack' with
  | nil =>
    obtain rfl := Option.some.inj hpush
    exact ⟨_, rfl, hstack⟩
  | @cons l m ls ms hl hls ih =>
    unfold pushAll? at hpush ⊢
    rw [List.foldlM_cons] at hpush
    obtain ⟨next, hnext, hrest⟩ := Option.bind_eq_some_iff.1 hpush
    obtain ⟨next', hnext', hsame⟩ := push?_same hl hstack hnext
    obtain ⟨pushed', hpushed', hsame'⟩ := ih hsame hrest
    refine ⟨pushed', ?_, hsame'⟩
    rw [List.foldlM_cons, hnext']
    exact hpushed'

end Label

namespace Expr

theorem same_of_same_postorder {a b : Expr} (h : Label.Same a.postorder b.postorder) :
    same a b = true := by
  have hempty : sameAll [] [] = true := rfl
  obtain ⟨pushed, hpushed, hsame⟩ :=
    Label.pushAll?_same h hempty (Label.pushAll?_postorder a [])
  rw [Label.pushAll?_postorder b []] at hpushed
  obtain rfl := Option.some.inj hpushed
  simpa [sameAll] using hsame

/-- Every operation of the expression has a fixed arity and as many operands. -/
def FixedArity (e : Expr) : Prop := ∀ l ∈ e.preorder, l.isFixed = true

instance (e : Expr) : Decidable (FixedArity e) :=
  inferInstanceAs (Decidable (∀ l ∈ e.preorder, l.isFixed = true))

theorem NaNFree.postorder {e : Expr} (h : NaNFree e) : ∀ l ∈ e.postorder, l.isNaN = false :=
  fun l hl => h l ((postorder_perm e).mem_iff.1 hl)

theorem FixedArity.postorder {e : Expr} (h : FixedArity e) :
    ∀ l ∈ e.postorder, l.isFixed = true :=
  fun l hl => h l ((postorder_perm e).mem_iff.1 hl)

theorem names_eq_of_postfixText_eq {a b : Expr} (h : a.postfixText = b.postfixText) :
    a.postorder.map Label.name = b.postorder.map Label.name := by
  have hlexemes := lexemes_postfixText a
  rw [h, lexemes_postfixText b] at hlexemes
  have hinjective : Function.Injective Lexeme.word := fun _ _ => Lexeme.word.inj
  apply List.map_injective_iff.2 hinjective
  rw [List.map_map, List.map_map]
  exact hlexemes.symm

/-- Expressions without NaN, in which every operation has a fixed arity and as many operands, are
equal exactly if their operands-first texts are. -/
theorem beq_iff_postfixText_eq {a b : Expr} (ha : NaNFree a) (hb : NaNFree b)
    (ha' : FixedArity a) (hb' : FixedArity b) :
    (a == b) = true ↔ a.postfixText = b.postfixText := by
  constructor
  · intro h
    rw [postfixText, postfixText, (same_postorder h).names]
  · intro h
    have hnames := names_eq_of_postfixText_eq h
    exact same_of_same_postorder (Label.same_of_names_eq ha.postorder hb.postorder ha'.postorder
      hb'.postorder hnames)

/-- The zeros of both signs make no difference. A negative number is told from the operation `-`,
and whether that comes before or behind another operation makes all the difference. -/
theorem beq_iff_postfixText_eq_sub :
    let a : Expr := .call .sub [.const (-1), .call .neg [.const 0]]
    let b : Expr := .call .sub [.const (-1), .call .neg [.const (-0)]]
    let c : Expr := .call .neg [.call .sub [.const (-1), .const 0]]
    (NaNFree a ∧ NaNFree b ∧ NaNFree c) ∧ (FixedArity a ∧ FixedArity b ∧ FixedArity c) ∧
      b.postfixText = "-1 0 negate -" ∧ (a == b) = true ∧ c.postfixText ≠ a.postfixText := by
  intro a b c
  have ha : NaNFree a := by decide +kernel
  have hb : NaNFree b := by decide +kernel
  have hc : NaNFree c := by decide +kernel
  have ha' : FixedArity a := by decide
  have hb' : FixedArity b := by decide
  have hc' : FixedArity c := by decide
  have htext : a.postfixText = "-1 0 negate -" := by decide +kernel
  have htext' : b.postfixText = "-1 0 negate -" := by decide +kernel
  refine ⟨⟨ha, hb, hc⟩, ⟨ha', hb', hc'⟩, htext',
    (beq_iff_postfixText_eq ha hb ha' hb').2 (htext.trans htext'.symm), ?_⟩
  intro h
  exact absurd ((beq_iff_postfixText_eq hc ha hc' ha').2 h) (by decide +kernel)

/-- Without a fixed arity it is not told which operation an operand belongs to. -/
example :
    (Expr.call .sum [.var .x, .call .sum [.var .y]]).postfixText =
      (Expr.call .sum [.call .sum [.var .x, .var .y]]).postfixText := by
  decide +kernel

end Expr

end PrefixArith
