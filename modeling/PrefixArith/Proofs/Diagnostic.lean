import Mathlib.Data.List.TakeWhile
import PrefixArith.Expr.Postorder
import PrefixArith.Proofs.Expr.Lexemes
import PrefixArith.Proofs.Reader.Places
import PrefixArith.Text.Column

namespace PrefixArith

namespace Text

def OneLine (s : String) : Prop := '\n' ∉ s.toList

instance (s : String) : Decidable (OneLine s) := inferInstanceAs (Decidable ('\n' ∉ s.toList))

theorem OneLine.append {s t : String} (hs : OneLine s) (ht : OneLine t) : OneLine (s ++ t) := by
  rw [OneLine, String.toList_append, List.mem_append, not_or]
  exact ⟨hs, ht⟩

theorem lines_oneLine {s : String} (h : OneLine s) : lines s = [s] := by
  rw [lines, List.splitOn_eq_singleton h, List.map_singleton, String.ofList_toList]

/-- A line feed ends a line. -/
theorem lines_append (s t : String) : lines (s ++ "\n" ++ t) = lines s ++ lines t := by
  have hchars : (s ++ "\n" ++ t).toList = s.toList ++ '\n' :: t.toList := by simp
  rw [lines, hchars, List.splitOn_append_cons_self, List.map_append]
  rfl

theorem length_splitOn (s : List Char) : (s.splitOn '\n').length = s.count '\n' + 1 := by
  induction s with
  | nil => rfl
  | cons c s ih =>
    rw [List.splitOn_cons_eq_if_modifyHead]
    by_cases hc : c = '\n'
    · simp [hc, ih]
    · simp [hc, ih]

theorem length_lines (s : String) : (lines s).length = s.toList.count '\n' + 1 := by
  rw [lines, List.length_map, length_splitOn]

theorem advance_underneath (width start : Nat) (c : Char) :
    advance width start (underneath c) = advance width start c := by
  by_cases hc : c = '\t'
  · rw [hc]
    rfl
  · have hspace : ' ' ≠ '\t' := by decide
    simp only [advance, underneath, if_neg hc, if_neg hspace]

/-- What stands in a caret line is as wide as what stands above it. -/
theorem column_map_underneath (width : Nat) (s : List Char) :
    column width (s.map underneath) = column width s := by
  rw [column, List.foldl_map]
  simp only [advance_underneath]
  rfl

theorem columnOf?_caretLine {source : String} {p : Nat} (hp : p ≤ source.length + 1) (width : Nat) :
    columnOf? width '^' (caretLine source p) =
      some (column width (source.toList.take (p - 1))) := by
  have hshort : p - 1 - source.toList.length = 0 := by
    rw [String.length_toList]
    omega
  have hchars : (caretLine source p).toList =
      (source.toList.take (p - 1)).map underneath ++ ['^'] := by
    rw [toList_caretLine, hshort, List.replicate_zero, List.append_nil]
  have hfront : ∀ c ∈ (source.toList.take (p - 1)).map underneath, (c != '^') = true := by
    intro c hc
    obtain ⟨c', -, rfl⟩ := List.mem_map.1 hc
    unfold underneath
    split <;> decide
  rw [columnOf?, hchars, if_pos (by simp), List.takeWhile_append_of_pos hfront]
  simp only [List.takeWhile_cons, bne_self_eq_false, Bool.false_eq_true, if_false,
    List.append_nil, column_map_underneath]

theorem lineBefore_eq_iff {source : String} {p : Nat} :
    lineBefore source p = source.toList.take (p - 1) ↔ '\n' ∉ source.toList.take (p - 1) := by
  rw [lineBefore, List.reverse_eq_iff, List.takeWhile_eq_self_iff]
  constructor
  · intro h hmem
    simpa using h '\n' (List.mem_reverse.2 hmem)
  · intro h c hc
    rw [bne_iff_ne]
    rintro rfl
    exact h (List.mem_reverse.1 hc)

/-- What stands before a position on its line is no shorter than all that stands before it only if
it is all that does. -/
theorem lineBefore_eq_of_length {source : String} {p : Nat}
    (h : (lineBefore source p).length = (source.toList.take (p - 1)).length) :
    lineBefore source p = source.toList.take (p - 1) := by
  rw [lineBefore, List.length_reverse] at h
  rw [lineBefore, List.reverse_eq_iff]
  apply (List.takeWhile_prefix _).eq_of_length
  rw [h, List.length_reverse]

/-- The caret stands in the column of its character, whatever a tab's width, exactly if no line feed
comes before. -/
theorem columnOf?_caret_iff {source : String} {p : Nat} (hp : p ≤ source.length + 1) :
    (∀ width, 1 ≤ width → columnOf? width '^' (caretLine source p) =
        some (column width (lineBefore source p))) ↔ '\n' ∉ source.toList.take (p - 1) := by
  simp only [columnOf?_caretLine hp, Option.some.injEq]
  rw [← lineBefore_eq_iff]
  constructor
  · intro h
    have hone := h 1 (Nat.le_refl 1)
    rw [column_one, column_one] at hone
    exact lineBefore_eq_of_length hone.symm
  · intro h width _
    rw [h]

theorem oneLine_caretLine (source : String) (p : Nat) : OneLine (caretLine source p) := by
  rw [OneLine, toList_caretLine]
  simp only [List.mem_append, List.mem_map, List.mem_replicate, List.mem_singleton, not_or]
  refine ⟨⟨?_, by simp⟩, by decide⟩
  rintro ⟨c, -, hc⟩
  unfold underneath at hc
  split at hc
  · exact absurd hc (by decide)
  · exact absurd hc (by decide)

theorem oneLine_repr (n : Nat) : OneLine n.repr := by
  intro h
  rw [Nat.toList_repr] at h
  exact absurd (Numeral.isDigit_toDigits n '\n' h) (by decide)

theorem oneLine_of_inWord {s : String} (h : Numeral.InWord s.toList) : OneLine s :=
  fun hmem => absurd (h '\n' hmem) (by decide)

theorem oneLine_intercalate : ∀ {ws : List String}, (∀ w ∈ ws, OneLine w) →
    OneLine (" ".intercalate ws)
  | [], _ => by decide
  | [w], h => by
    rw [String.intercalate_singleton]
    exact h w List.mem_cons_self
  | w :: v :: ws, h => by
    rw [List.forall_mem_cons] at h
    have hspace : OneLine " " := by decide
    rw [String.intercalate_cons_cons]
    exact (h.1.append hspace).append (oneLine_intercalate h.2)

end Text

open Text

theorem Expr.oneLine_postfixText (e : Expr) : OneLine e.postfixText := by
  apply oneLine_intercalate
  intro w hw
  obtain ⟨l, -, rfl⟩ := List.mem_map.1 hw
  exact oneLine_of_inWord l.isWord_name.inWord

theorem Text.HoldsWord.oneLine {source : String} {p : Nat} {w : String}
    (h : HoldsWord source p w) : OneLine w := by
  obtain ⟨front, back, -, -, hbetween⟩ := h
  exact oneLine_of_inWord hbetween.2.1

theorem Operation.oneLine_symbol (op : Operation) : OneLine op.symbol :=
  oneLine_of_inWord op.isWord_symbol.inWord

/-- A message quotes words of the text, which have no line feed. -/
theorem Fault.oneLine_message {source : String} {p : Nat} {f : Fault}
    (h : f.PointsAt source p) : OneLine f.message := by
  cases f with
  | empty => cases h
  | unreadable reason => cases h
  | strayOpening q | strayClosing q | unclosed q =>
    refine .append (.append ?_ (oneLine_repr q)) ?_ <;> decide
  | unknownWord token q =>
    have htoken : OneLine token := Text.HoldsWord.oneLine h
    refine .append (.append (.append (.append ?_ htoken) ?_) (oneLine_repr q)) ?_ <;> decide
  | strayLeaf kind token q =>
    have hnoun : OneLine kind.noun := by cases kind <;> decide
    have htoken : OneLine token := Text.HoldsWord.oneLine h
    refine .append (.append (.append (.append (.append (.append ?_ hnoun) ?_) htoken) ?_)
      (oneLine_repr q)) ?_ <;> decide
  | strayOperation op q =>
    refine .append (.append (.append (.append ?_ op.oneLine_symbol) ?_) (oneLine_repr q)) ?_ <;>
      decide
  | wrongCount op q expected found =>
    have hshortage : OneLine (shortage expected found) := by
      unfold shortage
      split <;> decide
    refine .append (.append (.append (.append (.append (.append (.append (.append (.append
      hshortage ?_) op.oneLine_symbol) ?_) (oneLine_repr q)) ?_) (oneLine_repr found)) ?_)
      (oneLine_repr expected)) ?_ <;> decide
  | surplus token q =>
    obtain ⟨e, -, htoken⟩ := h
    have htoken' : OneLine token := htoken ▸ e.oneLine_postfixText
    refine .append (.append (.append (.append ?_ htoken') ?_) (oneLine_repr q)) ?_ <;> decide

/-- Below the message, which is one line, stand the lines of the text and the caret line. -/
theorem Diagnostic.lines_text {source : String} {f : Fault} {p : Nat}
    (hp : f.position? = some p) (hmessage : OneLine f.message) :
    lines (located source f).text =
      f.message :: (lines source ++ [caretLine source p]) := by
  have htext : (located source f).text =
      f.message ++ "\n" ++ (source ++ "\n" ++ caretLine source p) := by
    simp only [text, located, hp, Option.map_some, Option.getD_some, Excerpt.text,
      String.append_assoc]
  rw [htext, lines_append, lines_append, lines_oneLine hmessage,
    lines_oneLine (oneLine_caretLine source p)]
  rfl

/-- The diagnostic of a text with a fault at some place consists of the message, the lines of the
text and a caret line. These are three lines exactly if the text has no line feed, and the caret
stands in the column of its character, whatever a tab's width, exactly if no line feed comes before
it. -/
theorem Expr.caret_column {source : String} {d : Diagnostic} {p : Nat}
    (h : parse source = .error d) (hp : d.fault.position? = some p) :
    lines d.text = d.fault.message :: (lines source ++ [caretLine source p]) ∧
      ((lines d.text).length = 3 ↔ '\n' ∉ source.toList) ∧
      ('\n' ∉ source.toList → lines d.text = [d.fault.message, source, caretLine source p]) ∧
      ((∀ width, 1 ≤ width → columnOf? width '^' (caretLine source p) =
          some (column width (lineBefore source p))) ↔ '\n' ∉ source.toList.take (p - 1)) := by
  obtain ⟨f, hread, rfl⟩ := parse_eq_error.1 h
  rw [Diagnostic.fault_located] at hp
  rcases placed_of_read hread with rfl | ⟨q, hq, hwithin, hpoints⟩
  · cases hp
  obtain rfl : p = q := Option.some.inj (hp.symm.trans hq)
  have hlines : lines (Diagnostic.located source f).text =
      f.message :: (lines source ++ [caretLine source p]) :=
    Diagnostic.lines_text hp (Fault.oneLine_message hpoints)
  rw [Diagnostic.fault_located]
  refine ⟨hlines, ?_, ?_, columnOf?_caret_iff hwithin.2⟩
  · rw [hlines, List.length_cons, List.length_append, length_lines, List.length_singleton,
      ← List.count_eq_zero]
    omega
  · intro hsource
    rw [hlines, lines_oneLine hsource]
    rfl

/-- Tabs and a wide blank before the fault: the caret stands under the word whatever a tab's width.
-/
theorem Expr.caret_column_tabs :
    let source := "\t(+\u3000\tx w\t)"
    let d : Diagnostic := ⟨.unknownWord "w" 8, some ⟨source, 8⟩⟩
    (parse source = .error d ∧ d.fault.position? = some 8) ∧
      lines d.text = ["An unknown token \"w\" found at position 8!", source, "\t   \t  ^"] ∧
      ∀ width, 1 ≤ width → columnOf? width '^' "\t   \t  ^" =
        some (column width ['\t', '(', '+', '\u3000', '\t', 'x', ' ']) := by
  intro source d
  have h : parse source = .error d := by decide +kernel
  have hp : d.fault.position? = some 8 := rfl
  have hsource : '\n' ∉ source.toList := by decide
  have hbefore : '\n' ∉ source.toList.take (8 - 1) :=
    fun hmem => hsource (List.mem_of_mem_take hmem)
  have hcaret : caretLine source 8 = "\t   \t  ^" := by decide +kernel
  have hline : lineBefore source 8 = ['\t', '(', '+', '\u3000', '\t', 'x', ' '] := by decide +kernel
  obtain ⟨-, -, hlines, hcolumn⟩ := caret_column h hp
  rw [hcaret] at hlines hcolumn
  rw [hline] at hcolumn
  exact ⟨⟨h, hp⟩, hlines hsource, hcolumn.2 hbefore⟩

/-- Behind a line feed the caret stands too far to the right, and there are more lines than three.
-/
theorem Expr.caret_column_line_feed :
    let source := "(+ 1\nq)"
    let d : Diagnostic := ⟨.unknownWord "q" 6, some ⟨source, 6⟩⟩
    (parse source = .error d ∧ d.fault.position? = some 6) ∧
      lines d.text = ["An unknown token \"q\" found at position 6!", "(+ 1", "q)", "     ^"] ∧
      (lines d.text).length ≠ 3 ∧
      ∀ width, columnOf? width '^' "     ^" = some 5 ∧ column width (lineBefore source 6) = 0 := by
  intro source d
  have h : parse source = .error d := by decide +kernel
  have hline : lineBefore source 6 = [] := by decide +kernel
  refine ⟨⟨h, rfl⟩, by decide +kernel, by decide +kernel, ?_⟩
  intro width
  rw [hline]
  exact ⟨rfl, rfl⟩

end PrefixArith
