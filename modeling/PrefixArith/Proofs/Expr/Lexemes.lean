import PrefixArith.Expr.Text
import PrefixArith.Proofs.Grammar
import PrefixArith.Proofs.Numeral.RoundTrip
import PrefixArith.Proofs.Token.Positions

namespace PrefixArith

namespace Numeral

theorem isWordChar_of_isDigit {c : Char} (h : c.isDigit = true) : isWordChar c = true := by
  obtain ⟨hlow, hhigh⟩ := Char.isDigit_iff_toNat.1 h
  have hzero : '0'.toNat = 48 := rfl
  have hnine : '9'.toNat = 57 := rfl
  have hopen : c ≠ '(' := by
    rintro rfl
    exact absurd hlow (by decide)
  have hclose : c ≠ ')' := by
    rintro rfl
    exact absurd hlow (by decide)
  have hblank : Text.isBlank c = false := by
    simp only [Text.isBlank, Text.blankRanges, List.any_cons, List.any_nil, Bool.or_false,
      Bool.or_eq_false_iff, Bool.and_eq_false_iff, decide_eq_false_iff_not]
    omega
  simp [isWordChar, hopen, hclose, hblank]

def InWord (s : List Char) : Prop := ∀ c ∈ s, isWordChar c = true

theorem inWord_of_all {s : List Char} (h : s.all isWordChar = true) : InWord s :=
  List.all_eq_true.1 h

theorem inWord_of_isDigit {s : List Char} (h : ∀ c ∈ s, c.isDigit = true) : InWord s :=
  fun c hc => isWordChar_of_isDigit (h c hc)

theorem inWord_toDigits (n : Nat) : InWord (Nat.toDigits 10 n) :=
  inWord_of_isDigit (isDigit_toDigits n)

theorem InWord.append {s t : List Char} (hs : InWord s) (ht : InWord t) : InWord (s ++ t) := by
  intro c hc
  rcases List.mem_append.1 hc with hc | hc
  · exact hs c hc
  · exact ht c hc

theorem InWord.cons {c : Char} {s : List Char} (hc : isWordChar c = true) (hs : InWord s) :
    InWord (c :: s) :=
  List.forall_mem_cons.2 ⟨hc, hs⟩

theorem InWord.take {s : List Char} (hs : InWord s) (n : Nat) : InWord (s.take n) :=
  fun c hc => hs c (List.mem_of_mem_take hc)

theorem InWord.drop {s : List Char} (hs : InWord s) (n : Nat) : InWord (s.drop n) :=
  fun c hc => hs c (List.mem_of_mem_drop hc)

theorem inWord_nil : InWord [] := fun _ hc => by cases hc

theorem inWord_positional {digits : List Char} (h : InWord digits) (point : Int) :
    InWord (positional [] digits point) := by
  have hzeros (k : Nat) : InWord (List.replicate k '0') :=
    inWord_of_isDigit (isDigit_replicate_zero k)
  unfold positional
  split
  · exact .cons (by decide) (.cons (by decide) ((hzeros _).append h))
  · split
    · exact (h.append (hzeros _)).append inWord_nil
    · exact (h.take _).append (.cons (by decide) (h.drop _))

theorem inWord_scientific {digits : List Char} (h : InWord digits) (point : Int) :
    InWord (scientific ['+'] digits point) := by
  have hsign : InWord (if point < 1 then ['-'] else ['+']) := by
    split
    · exact .cons (by decide) inWord_nil
    · exact .cons (by decide) inWord_nil
  have hplaces : InWord (if digits.length ≤ 1 then [] else '.' :: digits.drop 1) := by
    split
    · exact inWord_nil
    · exact .cons (by decide) (h.drop 1)
  exact ((h.take 1).append hplaces).append
    (.cons (by decide) (hsign.append (inWord_toDigits _)))

theorem inWord_magnitude (r : Nat) : InWord (Style.literal.magnitude r) := by
  unfold Style.magnitude
  split
  · exact inWord_of_all (by decide)
  · split
    · exact inWord_of_all (by decide)
    · unfold Style.layout
      dsimp only
      split
      · exact inWord_positional (inWord_toDigits _) _
      · exact inWord_scientific (inWord_toDigits _) _

theorem inWord_characters (v : Float) : InWord (Style.literal.characters v) := by
  unfold Style.characters
  split
  · exact inWord_of_all (by decide)
  · split
    · exact .cons (by decide) (inWord_magnitude _)
    · exact inWord_magnitude _

theorem characters_ne_nil (v : Float) : Style.literal.characters v ≠ [] := by
  obtain ⟨c, s, hcs, -⟩ := exists_unsigned_magnitude (Binary64.rank v)
  unfold Style.characters
  split
  · decide
  · split
    · exact List.cons_ne_nil _ _
    · rw [hcs]
      exact List.cons_ne_nil _ _

end Numeral

structure IsWord (w : String) : Prop where
  ne_nil : w.toList ≠ []
  inWord : Numeral.InWord w.toList

theorem Numeral.isWord_write (v : Float) : IsWord (write .literal v) := by
  rw [write]
  refine ⟨?_, ?_⟩
  · rw [String.toList_ofList]
    exact characters_ne_nil v
  · rw [String.toList_ofList]
    exact inWord_characters v

theorem Variable.isWord_name (v : Variable) : IsWord v.name :=
  ⟨by cases v <;> decide, Numeral.inWord_of_all (by cases v <;> decide)⟩

theorem Operation.isWord_symbol (op : Operation) : IsWord op.symbol :=
  ⟨by cases op <;> decide, Numeral.inWord_of_all (by cases op <;> decide)⟩

theorem Label.isWord_name (l : Label) : IsWord l.name := by
  cases l with
  | const c => exact Numeral.isWord_write c
  | var v => exact v.isWord_name
  | call op _ => exact op.isWord_symbol

def Lexeme.ofCharacters (s : List Char) : List Lexeme := (Token.scan 1 s).map Token.lexeme

theorem Token.map_lexeme_scan (p : Nat) (s : List Char) :
    (scan p s).map Token.lexeme = Lexeme.ofCharacters s := by
  -- positions are the only thing in which the two runs differ
  suffices h : ∀ q, (scan p s).map Token.lexeme = (scan q s).map Token.lexeme from h 1
  fun_induction scan p s with
  | case1 => intro q; simp [scan]
  | case2 p rest ih => intro q; rw [scan]; simp [ih (q + 1)]
  | case3 p rest _ ih => intro q; rw [scan]; simp [ih (q + 1)]
  | case4 p c rest h₁ h₂ h₃ ih =>
    intro q
    rw [scan, if_neg h₁, if_neg h₂, if_pos h₃]
    exact ih (q + 1)
  | case5 p c rest h₁ h₂ h₃ tail ih =>
    intro q
    rw [scan, if_neg h₁, if_neg h₂, if_neg h₃, List.map_cons, List.map_cons,
      ih (q + 1 + tail.length)]

namespace Lexeme

theorem ofText_eq (source : String) : ofText source = ofCharacters source.toList := rfl

theorem ofCharacters_opening (s : List Char) :
    ofCharacters ('(' :: s) = .opening :: ofCharacters s := by
  rw [ofCharacters, Token.scan, if_pos rfl, List.map_cons, Token.map_lexeme_scan]

theorem ofCharacters_closing (s : List Char) :
    ofCharacters (')' :: s) = .closing :: ofCharacters s := by
  rw [ofCharacters, Token.scan, if_neg (by decide), if_pos rfl, List.map_cons,
    Token.map_lexeme_scan]

theorem ofCharacters_space (s : List Char) : ofCharacters (' ' :: s) = ofCharacters s := by
  rw [ofCharacters, Token.scan, if_neg (by decide), if_neg (by decide), if_pos (by decide),
    Token.map_lexeme_scan]

/-- No character with which a word would go on comes first. -/
def StopsWord (s : List Char) : Prop := ∀ c ∈ s.head?, isWordChar c = false

theorem stopsWord_nil : StopsWord [] := fun _ hc => by simp at hc

theorem stopsWord_cons {c : Char} (h : isWordChar c = false) (s : List Char) :
    StopsWord (c :: s) := by
  intro d hd
  obtain rfl : c = d := by simpa using hd
  exact h

theorem takeWhile_isWordChar {w s : List Char} (hw : Numeral.InWord w) (hs : StopsWord s) :
    (w ++ s).takeWhile isWordChar = w ∧ (w ++ s).dropWhile isWordChar = s := by
  have hstop : s.takeWhile isWordChar = [] ∧ s.dropWhile isWordChar = s := by
    cases s with
    | nil => exact ⟨rfl, rfl⟩
    | cons c s =>
      have hc := hs c rfl
      simp [hc]
  rw [List.takeWhile_append_of_pos hw, List.dropWhile_append_of_pos hw, hstop.1, hstop.2,
    List.append_nil]
  exact ⟨rfl, rfl⟩

end Lexeme

theorem Token.scan_word_append {w : String} (hw : IsWord w) {s : List Char}
    (hs : Lexeme.StopsWord s) (p : Nat) :
    scan p (w.toList ++ s) = ⟨.word w, p⟩ :: scan (p + w.length) s := by
  obtain ⟨c, t, hct⟩ := List.exists_cons_of_ne_nil hw.ne_nil
  have hword := hw.inWord
  rw [hct] at hword
  have ht : Numeral.InWord t := fun d hd => hword d (List.mem_cons_of_mem c hd)
  obtain ⟨htake, hdrop⟩ := Lexeme.takeWhile_isWordChar ht hs
  rw [hct, List.cons_append, scan_word (hword c List.mem_cons_self), htake, hdrop, ← hct,
    String.ofList_toList, String.length_toList]

theorem Lexeme.ofCharacters_word {w : String} (hw : IsWord w) {s : List Char}
    (hs : StopsWord s) : ofCharacters (w.toList ++ s) = .word w :: ofCharacters s := by
  rw [ofCharacters, Token.scan_word_append hw hs, List.map_cons, Token.map_lexeme_scan]

namespace Expr

mutual

def lexemes : Expr → List Lexeme
  | const c => [.word (Numeral.write .literal c)]
  | var v => [.word v.name]
  | call op es => .opening :: .word op.symbol :: (lexemesAll es ++ [.closing])

def lexemesAll : List Expr → List Lexeme
  | [] => []
  | e :: es => lexemes e ++ lexemesAll es

end

mutual

theorem ofCharacters_prefixText (e : Expr) {s : List Char} (hs : Lexeme.StopsWord s) :
    Lexeme.ofCharacters (e.prefixText.toList ++ s) = e.lexemes ++ Lexeme.ofCharacters s :=
  match e with
  | .const c => Lexeme.ofCharacters_word (Numeral.isWord_write c) hs
  | .var v => Lexeme.ofCharacters_word v.isWord_name hs
  | .call op es => by
    have hspace : Lexeme.StopsWord
        (' ' :: ((" ".intercalate (prefixTexts es)).toList ++ ')' :: s)) :=
      Lexeme.stopsWord_cons (by decide) _
    have hclose : Lexeme.StopsWord (')' :: s) := Lexeme.stopsWord_cons (by decide) _
    have hchars : (prefixText (.call op es)).toList ++ s =
        '(' :: (op.symbol.toList ++ ' ' ::
          ((" ".intercalate (prefixTexts es)).toList ++ ')' :: s)) := by
      simp [prefixText]
    rw [hchars, Lexeme.ofCharacters_opening, Lexeme.ofCharacters_word op.isWord_symbol hspace,
      Lexeme.ofCharacters_space, ofCharacters_prefixTexts es hclose, Lexeme.ofCharacters_closing,
      lexemes]
    simp

theorem ofCharacters_prefixTexts (es : List Expr) {s : List Char} (hs : Lexeme.StopsWord s) :
    Lexeme.ofCharacters ((" ".intercalate (prefixTexts es)).toList ++ s) =
      lexemesAll es ++ Lexeme.ofCharacters s :=
  match es with
  | [] => rfl
  | [e] => by
    have ih := ofCharacters_prefixText e hs
    simpa [prefixTexts, lexemesAll] using ih
  | e :: e' :: es => by
    have ih := ofCharacters_prefixTexts (e' :: es) hs
    have hspace : Lexeme.StopsWord
        (' ' :: ((" ".intercalate (prefixTexts (e' :: es))).toList ++ s)) :=
      Lexeme.stopsWord_cons (by decide) _
    have hchars : (" ".intercalate (prefixTexts (e :: e' :: es))).toList ++ s =
        e.prefixText.toList ++
          ' ' :: ((" ".intercalate (prefixTexts (e' :: es))).toList ++ s) := by
      simp [prefixTexts]
    rw [hchars, ofCharacters_prefixText e hspace, Lexeme.ofCharacters_space, ih,
      ← List.append_assoc]
    rfl

end

end Expr

theorem Lexeme.ofText_prefixText (e : Expr) : ofText e.prefixText = e.lexemes := by
  have h := e.ofCharacters_prefixText stopsWord_nil
  rw [List.append_nil] at h
  rw [ofText_eq, h]
  simp [ofCharacters, Token.scan]

end PrefixArith
