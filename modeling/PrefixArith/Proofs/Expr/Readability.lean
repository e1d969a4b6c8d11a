import PrefixArith.Expr.Postorder
import PrefixArith.Proofs.Expr.Reparse

namespace PrefixArith

namespace Numeral

variable {c d : Float}

/-- The two zeros have one numeral. -/
theorem write_eq_of_beq (h : (c == d) = true) : write .literal c = write .literal d := by
  have hzeros : write .literal 0 = write .literal (-0) := by decide +kernel
  obtain ⟨-, -, heq | ⟨hc, hd⟩ | ⟨hc, hd⟩⟩ := Float.beq_iff_ne_nan_and_eq.1 h
  · rw [heq]
  · rw [hc, hd, hzeros]
  · rw [hc, hd, hzeros]

/-- A numeral reads back, so it tells numbers apart. -/
theorem beq_of_write_eq (hc : c.isNaN = false) (hd : d.isNaN = false)
    (h : write .literal c = write .literal d) : (c == d) = true := by
  have hread := read?_write hc
  rw [h, read?_write hd] at hread
  have hdrop : dropZeroSign d = dropZeroSign c := Option.some.inj hread
  obtain ⟨-, hcnan, hceq⟩ := Float.beq_iff_ne_nan_and_eq.1 (dropZeroSign_beq hc)
  obtain ⟨-, hdnan, hdeq⟩ := Float.beq_iff_ne_nan_and_eq.1 (dropZeroSign_beq hd)
  rw [hdrop] at hdeq
  refine Float.beq_iff_ne_nan_and_eq.2 ⟨hcnan, hdnan, ?_⟩
  grind

theorem write_ne_name (hc : c.isNaN = false) (v : Variable) : write .literal c ≠ v.name := by
  intro h
  have hread := read?_write hc
  rw [h, read?_name] at hread
  cases hread

end Numeral

theorem Variable.name_injective {v w : Variable} (h : v.name = w.name) : v = w := by
  have hname := ofName?_name v
  rw [h, ofName?_name] at hname
  exact (Option.some.inj hname).symm

theorem Operation.symbol_injective {f g : Operation} (h : f.symbol = g.symbol) : f = g := by
  have hsymbol := ofSymbol?_symbol f
  rw [h, ofSymbol?_symbol] at hsymbol
  exact (Option.some.inj hsymbol).symm

def Label.isNaN : Label → Bool
  | const c => c.isNaN
  | _ => false

namespace Expr

def NaNFree (e : Expr) : Prop := ∀ l ∈ e.preorder, l.isNaN = false

def NaNFreeAll (es : List Expr) : Prop := ∀ l ∈ preorderAll es, l.isNaN = false

instance (e : Expr) : Decidable (NaNFree e) :=
  inferInstanceAs (Decidable (∀ l ∈ e.preorder, l.isNaN = false))

mutual

theorem prefixText_eq_of_same : ∀ {a b : Expr}, same a b = true → a.prefixText = b.prefixText
  | .const _, .const _, h => Numeral.write_eq_of_beq h
  | .var v, .var w, h => by
    rw [same, beq_iff_eq] at h
    rw [h]
  | .call f as, .call g bs, h => by
    rw [same, Bool.and_eq_true, beq_iff_eq] at h
    rw [prefixText, prefixText, h.1, prefixTexts_eq_of_sameAll h.2]

theorem prefixTexts_eq_of_sameAll :
    ∀ {as bs : List Expr}, sameAll as bs = true → prefixTexts as = prefixTexts bs
  | [], [], _ => rfl
  | a :: as, b :: bs, h => by
    rw [sameAll, Bool.and_eq_true] at h
    rw [prefixTexts, prefixTexts, prefixText_eq_of_same h.1, prefixTexts_eq_of_sameAll h.2]

end

theorem NaNFree.of_const {c : Float} (h : NaNFree (.const c)) : c.isNaN = false :=
  h (.const c) List.mem_cons_self

theorem NaNFree.operands {op : Operation} {es : List Expr} (h : NaNFree (.call op es)) :
    NaNFreeAll es :=
  fun l hl => h l (List.mem_cons_of_mem _ hl)

theorem NaNFreeAll.head {e : Expr} {es : List Expr} (h : NaNFreeAll (e :: es)) : NaNFree e :=
  fun l hl => h l (List.mem_append_left _ hl)

theorem NaNFreeAll.tail {e : Expr} {es : List Expr} (h : NaNFreeAll (e :: es)) : NaNFreeAll es :=
  fun l hl => h l (List.mem_append_right _ hl)

/-- No expression begins with a closing parenthesis, so it is clear where operands end. -/
theorem lexemes_append_ne_closing (e : Expr) (us vs : List Lexeme) :
    e.lexemes ++ us ≠ .closing :: vs := by
  cases e <;> simp [lexemes]

-- By recursion on both expressions at once. What stands behind them is arbitrary, so that the end
-- of one operand need not be known to find the next.
mutual

theorem same_of_lexemes_append : ∀ {a b : Expr} {us vs : List Lexeme}, NaNFree a → NaNFree b →
    a.lexemes ++ us = b.lexemes ++ vs → same a b = true ∧ us = vs
  | .const c, .const d, us, vs, ha, hb, h => by
    obtain ⟨hword, hrest⟩ := List.cons.inj h
    exact ⟨Numeral.beq_of_write_eq ha.of_const hb.of_const (Lexeme.word.inj hword), hrest⟩
  | .const c, .var v, us, vs, ha, hb, h => by
    obtain ⟨hword, -⟩ := List.cons.inj h
    exact absurd (Lexeme.word.inj hword) (Numeral.write_ne_name ha.of_const v)
  | .var v, .const c, us, vs, ha, hb, h => by
    obtain ⟨hword, -⟩ := List.cons.inj h
    exact absurd (Lexeme.word.inj hword).symm (Numeral.write_ne_name hb.of_const v)
  | .var v, .var w, us, vs, ha, hb, h => by
    obtain ⟨hword, hrest⟩ := List.cons.inj h
    obtain rfl := Variable.name_injective (Lexeme.word.inj hword)
    exact ⟨by simp [same], hrest⟩
  | .const _, .call _ _, us, vs, ha, hb, h => by simp [lexemes] at h
  | .var _, .call _ _, us, vs, ha, hb, h => by simp [lexemes] at h
  | .call _ _, .const _, us, vs, ha, hb, h => by simp [lexemes] at h
  | .call _ _, .var _, us, vs, ha, hb, h => by simp [lexemes] at h
  | .call f as, .call g bs, us, vs, ha, hb, h => by
    rw [lexemes, lexemes, List.cons_append, List.cons_append, List.cons_append, List.cons_append,
      List.append_assoc, List.append_assoc] at h
    obtain ⟨hword, hrest⟩ := List.cons.inj (List.cons.inj h).2
    obtain rfl := Operation.symbol_injective (Lexeme.word.inj hword)
    obtain ⟨hall, hbehind⟩ := sameAll_of_lexemesAll_append ha.operands hb.operands hrest
    exact ⟨by simp [same, hall], hbehind⟩

theorem sameAll_of_lexemesAll_append : ∀ {as bs : List Expr} {us vs : List Lexeme},
    NaNFreeAll as → NaNFreeAll bs →
      lexemesAll as ++ .closing :: us = lexemesAll bs ++ .closing :: vs →
      sameAll as bs = true ∧ us = vs
  | [], [], us, vs, _, _, h => ⟨rfl, (List.cons.inj h).2⟩
  | [], b :: bs, us, vs, _, _, h => by
    rw [lexemesAll, lexemesAll, List.append_assoc] at h
    exact absurd h.symm (lexemes_append_ne_closing b _ us)
  | a :: as, [], us, vs, _, _, h => by
    rw [lexemesAll, lexemesAll, List.append_assoc] at h
    exact absurd h (lexemes_append_ne_closing a _ vs)
  | a :: as, b :: bs, us, vs, ha, hb, h => by
    rw [lexemesAll, lexemesAll, List.append_assoc, List.append_assoc] at h
    obtain ⟨hfirst, hrest⟩ := same_of_lexemes_append ha.head hb.head h
    obtain ⟨hall, hbehind⟩ := sameAll_of_lexemesAll_append ha.tail hb.tail hrest
    exact ⟨by rw [sameAll, hfirst, hall]; rfl, hbehind⟩

end

/-- Expressions without NaN are equal exactly if their operator-first texts are, whether or not
their operations take as many operands as they have. -/
theorem beq_iff_prefixText_eq {a b : Expr} (ha : NaNFree a) (hb : NaNFree b) :
    (a == b) = true ↔ a.prefixText = b.prefixText := by
  constructor
  · intro h
    exact prefixText_eq_of_same h
  · intro h
    have hlexemes : a.lexemes ++ [] = b.lexemes ++ [] := by
      rw [← Lexeme.ofText_prefixText, ← Lexeme.ofText_prefixText, h]
    exact (same_of_lexemes_append ha hb hlexemes).1

/-- A call without operands, a negative number behind the symbol `-` and the zeros of both signs, in
a call that has one operand too many; and an expression with the same words but other operands. -/
theorem beq_iff_prefixText_eq_sub :
    let zeros : List Expr := [.const (-1), .const 0]
    let a : Expr := .call .sub (.call .sum [] :: zeros)
    let b : Expr := .call .sub [.call .sum [], .const (-1), .const (-0)]
    let c : Expr := .call .sub [.call .sum zeros]
    (NaNFree a ∧ NaNFree b ∧ NaNFree c) ∧ a.prefixText = "(- (sum ) -1 0)" ∧
      (a == b) = true ∧ c.prefixText ≠ a.prefixText := by
  intro zeros a b c
  have ha : NaNFree a := by decide +kernel
  have hb : NaNFree b := by decide +kernel
  have hc : NaNFree c := by decide +kernel
  have htext : a.prefixText = "(- (sum ) -1 0)" := by decide +kernel
  have htext' : b.prefixText = "(- (sum ) -1 0)" := by decide +kernel
  refine ⟨⟨ha, hb, hc⟩, htext, (beq_iff_prefixText_eq ha hb).2 (htext.trans htext'.symm), ?_⟩
  intro h
  exact absurd ((beq_iff_prefixText_eq hc ha).2 h) (by decide +kernel)

end Expr

end PrefixArith
