import PrefixArith.Proofs.Expr.Lexemes
import PrefixArith.Proofs.Reader.Diagnosis
import PrefixArith.Proofs.Token.Positions

namespace PrefixArith

namespace Text

def Holds (source : String) (p : Nat) (c : Char) : Prop :=
  ∃ front back, source.toList = front ++ c :: back ∧ p = front.length + 1

/-- A word begins at a position: a run of word characters that goes on neither before the position
nor behind the word. -/
def HoldsWord (source : String) (p : Nat) (w : String) : Prop :=
  ∃ front back, source.toList = front ++ (w.toList ++ back) ∧ p = front.length + 1 ∧
    (Lexeme.word w).Between front back

/-- A position just behind the last character that is not blank. -/
def EndsAt (source : String) (p : Nat) : Prop :=
  ∃ front c back, source.toList = front ++ c :: back ∧ isBlank c = false ∧
    (∀ b ∈ back, isBlank b = true) ∧ p = front.length + 2

def suffixFrom (source : String) (p : Nat) : String := String.ofList (source.toList.drop (p - 1))

def Within (source : String) (p : Nat) : Prop := 1 ≤ p ∧ p ≤ source.length + 1

theorem EndsAt.within {source : String} {p : Nat} (h : EndsAt source p) : Within source p := by
  obtain ⟨front, c, back, hs, -, -, rfl⟩ := h
  rw [Within, ← String.length_toList, hs, List.length_append, List.length_cons]
  omega

end Text

/-- The text at a position is what the fault talks about. -/
def Fault.PointsAt (source : String) (p : Nat) : Fault → Prop
  | strayOpening _ => Text.Holds source p '('
  | strayClosing _ => Text.Holds source p ')'
  | unknownWord w _ | strayLeaf _ w _ => Text.HoldsWord source p w
  | strayOperation op _ => Text.HoldsWord source p op.symbol
  | wrongCount _ _ _ _ => Text.Holds source p ')' ∨ Text.EndsAt source p
  | unclosed _ => Text.EndsAt source p
  | surplus token _ =>
    ∃ e, Expr.parse (Text.suffixFrom source p) = .ok e ∧ e.postfixText = token
  | empty | unreadable _ => False

def Fault.Placed (source : String) (f : Fault) : Prop :=
  ∃ p, f.position? = some p ∧ Text.Within source p ∧ f.PointsAt source p

namespace Token

variable {source : String} {t : Token} {after : List Token} {front back : List Char}

theorem Cut.within (h : Cut 1 source.toList t after front back) :
    Text.Within source t.position := by
  rw [Text.Within, ← String.length_toList, h.split, h.position_eq, List.length_append]
  omega

theorem Cut.holds (h : Cut 1 source.toList t after front back) {c : Char}
    (hc : t.lexeme.text.toList = [c]) : Text.Holds source t.position c := by
  refine ⟨front, back, ?_, ?_⟩
  · rw [h.split, hc]
    rfl
  · rw [h.position_eq, Nat.add_comm]

theorem Cut.holdsWord (h : Cut 1 source.toList t after front back) {w : String}
    (hw : t.lexeme = .word w) : Text.HoldsWord source t.position w := by
  have hsplit := h.split
  have hbetween := h.between
  rw [hw] at hsplit hbetween
  exact ⟨front, back, hsplit, by rw [h.position_eq, Nat.add_comm], hbetween⟩

/-- The text from a token on has the lexemes of the token and of those behind it. -/
theorem Cut.ofText_suffixFrom (h : Cut 1 source.toList t after front back) :
    Lexeme.ofText (Text.suffixFrom source t.position) = (t :: after).map Token.lexeme := by
  have hdrop : source.toList.drop (t.position - 1) = t.lexeme.text.toList ++ back := by
    rw [h.split, h.position_eq, Nat.add_sub_cancel_left, List.drop_left]
  rw [Text.suffixFrom, hdrop, Lexeme.ofText_eq, String.toList_ofList, ← map_lexeme_scan t.position,
    h.scan_here]

/-- The last token of a text ends where all that is not blank ends. -/
theorem endsAt_stopOf (h : ofText source ≠ []) :
    Text.EndsAt source (Reader.stopOf (ofText source)) := by
  have hlast : ofText source = (ofText source).dropLast ++ [(ofText source).getLast h] :=
    (List.dropLast_append_getLast h).symm
  obtain ⟨front, c, back, hs, hc, hback, hstop⟩ := exists_last hlast
  refine ⟨front, c, back, hs, hc, hback, ?_⟩
  rw [Reader.stopOf, List.getLast?_eq_some_getLast h, Option.map_some, Option.getD_some, hstop]
  omega

end Token

open LookBack Grammar

theorem countFault?_eq_some {stop : Nat} {us : List Lexeme} {f : Fault}
    (h : countFault? stop us = some f) : ∃ op due found, f = .wrongCount op stop due found := by
  unfold countFault? at h
  split at h
  · split at h
    · obtain ⟨due, -, rfl⟩ := Option.map_eq_some_iff.1 h
      exact ⟨_, _, _, rfl⟩
    · cases h
  · cases h

/-- An objection to a token points at the token. -/
theorem Token.Cut.placed_of_objection {source : String} {t : Token} {after : List Token}
    {front back : List Char} (h : Cut 1 source.toList t after front back) {before : List Lexeme}
    {f : Fault} (hf : objection? before t = some f) : f.Placed source := by
  obtain ⟨lexeme, p⟩ := t
  cases lexeme with
  | opening =>
    have hparen := h.holds Lexeme.toList_text_opening
    unfold objection? at hf
    dsimp only at hf
    split at hf
    · obtain rfl := Option.some.inj hf
      exact ⟨p, rfl, h.within, hparen⟩
    · cases hf
  | closing =>
    have hparen := h.holds Lexeme.toList_text_closing
    rw [objection?_closing] at hf
    split at hf
    · obtain rfl := Option.some.inj hf
      exact ⟨p, rfl, h.within, hparen⟩
    · obtain ⟨us, -, hcount⟩ := Option.bind_eq_some_iff.1 hf
      obtain ⟨op, due, found, rfl⟩ := countFault?_eq_some hcount
      exact ⟨p, rfl, h.within, Or.inl hparen⟩
  | word w =>
    have hword := h.holdsWord rfl
    unfold objection? at hf
    dsimp only at hf
    split at hf
    · obtain rfl := Option.some.inj hf
      exact ⟨p, rfl, h.within, hword⟩
    · rename_i op hop
      split at hf
      · cases hf
      · obtain rfl := Option.some.inj hf
        refine ⟨p, rfl, h.within, ?_⟩
        rw [← Operation.symbol_of_ofSymbol? (Atom.ofWord?_eq_operation_iff.1 hop)] at hword
        exact hword
    -- a variable or a number, which the fault names by its word
    all_goals
      split at hf
      · obtain rfl := Option.some.inj hf
        exact ⟨p, rfl, h.within, hword⟩
      · cases hf

/-- The fault of the end of a text points at where it ends, or at the last operand. -/
theorem placed_of_endFault {source : String} {ts : List Token} {f : Fault}
    (hts : Token.ofText source = ts) (h : EndFault ts f) : f = .empty ∨ f.Placed source := by
  cases h with
  | empty => exact Or.inl rfl
  | unclosed hcount =>
    have hne : Token.ofText source ≠ [] := by
      rintro hnil
      rw [← hts, hnil] at hcount
      exact absurd hcount (lt_irrefl _)
    have hend := Token.endsAt_stopOf hne
    rw [hts] at hend
    exact Or.inr ⟨_, rfl, hend.within, hend⟩
  | count _ hf =>
    have hne : Token.ofText source ≠ [] := by
      rintro hnil
      rw [← hts, hnil] at hf
      cases hf
    have hend := Token.endsAt_stopOf hne
    rw [hts] at hend
    obtain ⟨op, due, found, rfl⟩ := countFault?_eq_some hf
    exact Or.inr ⟨_, rfl, hend.within, Or.inr hend⟩
  | @surplus us vs t e _ _ _ he =>
    obtain ⟨front, back, hcut⟩ := Token.exists_split hts
    refine Or.inr ⟨t.position, rfl, hcut.within, e, ?_, rfl⟩
    rw [Expr.parse_eq_ok, hcut.ofText_suffixFrom]
    exact .operand he

theorem placed_of_read {source : String} {f : Fault}
    (h : Reader.read (Token.ofText source) = .error f) : f = .empty ∨ f.Placed source := by
  rcases Reader.read_eq_error_iff.1 h with ⟨i, hi, -⟩ | ⟨-, hend⟩
  · unfold objectionAt? at hi
    obtain ⟨t, ht, hobjection⟩ := Option.bind_eq_some_iff.1 hi
    obtain ⟨front, back, hcut⟩ := Token.exists_split (Reader.eq_take_append_cons_drop ht)
    exact Or.inr (hcut.placed_of_objection hobjection)
  · exact placed_of_endFault rfl hend

/-- A text that has no expression has a diagnostic which points into it: the excerpt is the whole
text with the fault's position, and there stands what the fault talks about. Only the fault of a
blank text has no position and no excerpt. -/
theorem Expr.parse_error_points {source : String} {d : Diagnostic}
    (h : parse source = .error d) :
    (d.fault = .empty ∧ d.fault.position? = none ∧ d.excerpt = none) ∨
      ∃ p, d.fault.position? = some p ∧ 1 ≤ p ∧ p ≤ source.length + 1 ∧
        d.excerpt = some ⟨source, p⟩ ∧ d.fault.PointsAt source p := by
  unfold parse at h
  cases hread : Reader.read (Token.ofText source) with
  | ok e =>
    rw [hread] at h
    cases h
  | error f =>
    rw [hread] at h
    obtain rfl := Except.error.inj h
    rcases placed_of_read hread with rfl | ⟨p, hp, ⟨hlow, hhigh⟩, hpoints⟩
    · exact Or.inl ⟨rfl, rfl, rfl⟩
    · refine Or.inr ⟨p, hp, hlow, hhigh, ?_, hpoints⟩
      rw [Diagnostic.located, hp]
      rfl

/-- The operand that is one too many stands behind a wide blank, and another operand. -/
theorem Expr.parse_error_points_surplus :
    parse "\u3000(sum x) (avg x y) " =
        .error ⟨.surplus "x y avg" 10, some ⟨"\u3000(sum x) (avg x y) ", 10⟩⟩ ∧
      (Fault.surplus "x y avg" 10).PointsAt "\u3000(sum x) (avg x y) " 10 := by
  have h : parse "\u3000(sum x) (avg x y) " =
      .error ⟨.surplus "x y avg" 10, some ⟨"\u3000(sum x) (avg x y) ", 10⟩⟩ := by
    cbv
  rcases parse_error_points h with ⟨hempty, -, -⟩ | ⟨p, hp, -, -, -, hpoints⟩
  · cases hempty
  · obtain rfl := Option.some.inj hp
    exact ⟨h, hpoints⟩

end PrefixArith
