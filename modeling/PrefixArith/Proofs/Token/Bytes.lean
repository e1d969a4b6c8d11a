import PrefixArith.Proofs.Token.Tiling

namespace PrefixArith
open String (utf8Len utf8Len_append utf8Len_cons utf8Len_nil)

namespace Pattern

theorem repeated_char {ρ : Type} (admits : Char → Bool) (o : Nat) (s : List Char) :
    Match.repeated (run (.char admits : Pattern ρ)) ⟨o, s⟩ =
      ⟨⟨o + utf8Len (s.takeWhile admits), s.dropWhile admits⟩, []⟩ := by
  induction s generalizing o with
  | nil => exact Match.repeated_of_eq_none rfl
  | cons c s ih =>
    by_cases hc : admits c = true
    · rw [Match.repeated_of_eq_some (run_char_of_admits hc o s) (Nat.lt_succ_self _), ih,
        List.takeWhile_cons_of_pos hc, List.dropWhile_cons_of_pos hc, utf8Len_cons, Nat.add_assoc,
        Nat.add_comm c.utf8Size]
      rfl
    · rw [Match.repeated_of_eq_none (run_char_of_not_admits (by simpa using hc) o s),
        List.takeWhile_cons_of_neg hc, List.dropWhile_cons_of_neg hc]
      rfl

/-- A character of a word is one that is neither a parenthesis nor blank. -/
theorem run_wordChar : run wordChar = run (.char isWordChar) := by
  funext place
  obtain ⟨o, _ | ⟨c, s⟩⟩ := place
  · rfl
  · by_cases hopen : c = '('
    · simp [wordChar, opening, run, isWordChar, hopen]
    · by_cases hclose : c = ')'
      · simp [wordChar, opening, closing, run, isWordChar, hclose]
      · by_cases hblank : Text.isBlank c = true
        · simp [wordChar, opening, closing, blank, run, isWordChar, hblank]
        · simp [wordChar, opening, closing, blank, any, run, isWordChar, hopen, hclose, hblank]

theorem run_oneOrMore_wordChar {c : Char} (hc : isWordChar c = true) (o : Nat) (s : List Char) :
    (oneOrMore wordChar).run ⟨o, c :: s⟩ =
      some ⟨⟨o + utf8Len (c :: s.takeWhile isWordChar), s.dropWhile isWordChar⟩, []⟩ := by
  rw [oneOrMore, run, run_wordChar, run_char_of_admits hc, Option.bind_some, run, run_wordChar,
    repeated_char, utf8Len_cons, Nat.add_assoc, Nat.add_comm c.utf8Size]
  rfl

theorem run_token_opening (o : Nat) (s : List Char) :
    token.run ⟨o, '(' :: s⟩ = some ⟨⟨o + '('.utf8Size, s⟩, [⟨.opening, o, o + '('.utf8Size⟩]⟩ :=
  rfl

theorem run_token_closing (o : Nat) (s : List Char) :
    token.run ⟨o, ')' :: s⟩ = some ⟨⟨o + ')'.utf8Size, s⟩, [⟨.closing, o, o + ')'.utf8Size⟩]⟩ :=
  rfl

theorem run_token_word {c : Char} (hc : isWordChar c = true) (o : Nat) (s : List Char) :
    token.run ⟨o, c :: s⟩ =
      some ⟨⟨o + utf8Len (c :: s.takeWhile isWordChar), s.dropWhile isWordChar⟩,
        [⟨.word, o, o + utf8Len (c :: s.takeWhile isWordChar)⟩]⟩ := by
  have hword := run_oneOrMore_wordChar hc o s
  simp only [isWordChar, Bool.and_eq_true, bne_iff_ne] at hc
  have hopening : opening.run ⟨o, c :: s⟩ = none :=
    run_char_of_not_admits (by simpa using hc.1.1) o s
  have hclosing : closing.run ⟨o, c :: s⟩ = none :=
    run_char_of_not_admits (by simpa using hc.1.2) o s
  simp only [token, run, hopening, hclosing, hword, Option.map_none, Option.none_or,
    Option.map_some]

def afterBlanks (place : Place) : Place :=
  ⟨place.offset + utf8Len (place.rest.takeWhile Text.isBlank), place.rest.dropWhile Text.isBlank⟩

theorem run_many_blank (place : Place) :
    (Pattern.many blank).run place = some ⟨afterBlanks place, []⟩ :=
  congrArg some (repeated_char Text.isBlank place.offset place.rest)

theorem afterBlanks_of_not_blank {c : Char} (hc : Text.isBlank c = false) (o : Nat)
    (s : List Char) : afterBlanks ⟨o, c :: s⟩ = ⟨o, c :: s⟩ := by
  have hnot : ¬Text.isBlank c = true := by rw [hc]; decide
  rw [afterBlanks, List.takeWhile_cons_of_neg hnot, List.dropWhile_cons_of_neg hnot]
  rfl

theorem run_spacedTokens (place : Place) :
    spacedTokens.run place =
      some (Match.repeated (Pattern.seq token (.many blank)).run (afterBlanks place)) := by
  rw [spacedTokens, run, run_many_blank, Option.bind_some, run]
  rfl

theorem run_spacedTokens_nil (o : Nat) : spacedTokens.run ⟨o, []⟩ = some ⟨⟨o, []⟩, []⟩ := by
  rw [run_spacedTokens, Match.repeated_of_eq_none rfl]
  rfl

theorem run_spacedTokens_blank {c : Char} (hc : Text.isBlank c = true) (o : Nat) (s : List Char) :
    spacedTokens.run ⟨o, c :: s⟩ = spacedTokens.run ⟨o + c.utf8Size, s⟩ := by
  have hafter : afterBlanks ⟨o, c :: s⟩ = afterBlanks ⟨o + c.utf8Size, s⟩ := by
    rw [afterBlanks, afterBlanks, List.takeWhile_cons_of_pos hc, List.dropWhile_cons_of_pos hc,
      utf8Len_cons, Nat.add_assoc, Nat.add_comm c.utf8Size]
  rw [run_spacedTokens, run_spacedTokens, hafter]

/-- A token that comes first leaves the first span. -/
theorem run_spacedTokens_token {c : Char} {o : Nat} {s : List Char} (hc : Text.isBlank c = false)
    {place : Place} {span : Span TokenRule} (h : token.run ⟨o, c :: s⟩ = some ⟨place, [span]⟩)
    (hle : place.rest.length ≤ s.length) :
    spacedTokens.run ⟨o, c :: s⟩ =
      (spacedTokens.run place).map fun m => ⟨m.stop, span :: m.spans⟩ := by
  have hfirst : (Pattern.seq token (.many blank)).run ⟨o, c :: s⟩ =
      some ⟨afterBlanks place, [span]⟩ := by
    rw [run, h, Option.bind_some, run_many_blank]
    rfl
  have hlt : (afterBlanks place).rest.length < (c :: s).length := by
    have hsuffix := (List.dropWhile_suffix Text.isBlank (l := place.rest)).length_le
    exact Nat.lt_succ_of_le (hsuffix.trans hle)
  rw [run_spacedTokens, run_spacedTokens, afterBlanks_of_not_blank hc,
    Match.repeated_of_eq_some hfirst hlt]
  rfl

end Pattern

/-- A span is that of a piece: it begins behind as many bytes as the characters before the piece
take, and the piece has their number and one as its position. -/
def Span.Marks (source : List Char) (span : Span TokenRule) (q : Piece) : Prop :=
  span.rule.kind? = some q.kind ∧
    ∃ front back, source = front ++ (q.text.toList ++ back) ∧ span.start = utf8Len front ∧
      span.stop = utf8Len front + utf8Len q.text.toList ∧ q.position = 1 + front.length

namespace Pattern

/-- The characters behind others match to the end of the text, and the spans that this leaves are
those of the pieces. -/
def Spanned (front s : List Char) (ps : List Piece) : Prop :=
  ∃ spans, spacedTokens.run ⟨utf8Len front, s⟩ = some ⟨⟨utf8Len (front ++ s), []⟩, spans⟩ ∧
    List.Forall₂ (Span.Marks (front ++ s)) spans ps

theorem Spanned.blank {front s : List Char} {ps : List Piece} {c : Char}
    (hc : Text.isBlank c = true) (h : Spanned (front ++ [c]) s ps) : Spanned front (c :: s) ps := by
  obtain ⟨spans, hrun, hmarks⟩ := h
  rw [List.append_assoc, List.singleton_append] at hrun hmarks
  have hoffset : utf8Len (front ++ [c]) = utf8Len front + c.utf8Size := by
    rw [utf8Len_append, utf8Len_cons, utf8Len_nil, Nat.zero_add]
  refine ⟨spans, ?_, hmarks⟩
  rw [run_spacedTokens_blank hc, ← hoffset, hrun]

theorem Spanned.token {front s : List Char} {ps : List Piece} {t : Token} {rule : TokenRule}
    {c : Char} {w : List Char} (htext : t.lexeme.text.toList = c :: w)
    (hc : Text.isBlank c = false) (hkind : rule.kind? = some t.lexeme.kind)
    (hposition : t.position = 1 + front.length)
    (hrun : token.run ⟨utf8Len front, c :: (w ++ s)⟩ =
      some ⟨⟨utf8Len front + utf8Len (c :: w), s⟩,
        [⟨rule, utf8Len front, utf8Len front + utf8Len (c :: w)⟩]⟩)
    (h : Spanned (front ++ c :: w) s ps) : Spanned front (c :: (w ++ s)) (t.piece :: ps) := by
  obtain ⟨spans, hspans, hmarks⟩ := h
  rw [List.append_assoc, List.cons_append] at hspans hmarks
  have hle : s.length ≤ (w ++ s).length := by
    rw [List.length_append]
    omega
  refine ⟨⟨rule, utf8Len front, utf8Len front + utf8Len (c :: w)⟩ :: spans, ?_, ?_⟩
  · rw [run_spacedTokens_token hc hrun hle, ← utf8Len_append, hspans]
    rfl
  · refine .cons ⟨hkind, front, s, ?_, rfl, ?_, hposition⟩ hmarks
    · rw [Token.piece, htext]
      rfl
    · rw [Token.piece, htext]

/-- The position behind further characters. -/
theorem position_append {p n : Nat} {front w : List Char} (h : p = 1 + front.length)
    (hw : w.length = n) : p + n = 1 + (front ++ w).length := by
  rw [List.length_append]
  omega

/-- The spans of a text are those of its tokens. -/
theorem spanned_scan {base : Nat} {s : List Char} (front : List Char)
    (hbase : base = 1 + front.length) : Spanned front s ((Token.scan base s).map Token.piece) := by
  fun_induction Token.scan base s generalizing front with
  | case1 =>
    refine ⟨[], ?_, .nil⟩
    rw [run_spacedTokens_nil, List.append_nil]
  | case2 p rest ih =>
    exact @Spanned.token front rest _ ⟨.opening, p⟩ .opening '(' [] Lexeme.toList_text_opening
      (by decide) rfl hbase (run_token_opening _ _) (ih _ (position_append hbase rfl))
  | case3 p rest _ ih =>
    exact @Spanned.token front rest _ ⟨.closing, p⟩ .closing ')' [] Lexeme.toList_text_closing
      (by decide) rfl hbase (run_token_closing _ _) (ih _ (position_append hbase rfl))
  | case4 p c rest _ _ hblank ih => exact .blank hblank (ih _ (position_append hbase rfl))
  | case5 p c rest hopen hclose hblank tail =>
    rename_i ih
    have hc : isWordChar c = true := isWordChar_of_ne hopen hclose hblank
    have htext : (Lexeme.word (String.ofList (c :: tail))).text.toList = c :: tail := by
      rw [Lexeme.text_word, String.toList_ofList]
    have hrun := run_token_word hc (utf8Len front) rest
    have hsplit : rest = tail ++ rest.dropWhile isWordChar :=
      List.takeWhile_append_dropWhile.symm
    have hnext : p + 1 + tail.length = 1 + (front ++ c :: tail).length := by
      rw [Nat.add_assoc, Nat.add_comm 1]
      exact position_append hbase rfl
    have htoken := @Spanned.token front _ _ ⟨.word _, p⟩ .word c tail htext
      (isBlank_of_isWordChar hc) rfl hbase (by rw [← hsplit]; exact hrun) (ih _ hnext)
    rwa [← hsplit] at htoken

/-- Every text matches. -/
theorem run_tokens (s : List Char) :
    ∃ spans, tokens.run ⟨0, s⟩ =
        some ⟨⟨utf8Len s, []⟩, spans ++ [⟨.finish, utf8Len s, utf8Len s⟩]⟩ ∧
      List.Forall₂ (Span.Marks s) spans ((Token.scan 1 s).map Token.piece) := by
  obtain ⟨spans, hrun, hmarks⟩ := @spanned_scan 1 s [] rfl
  rw [List.nil_append, utf8Len_nil] at hrun
  refine ⟨spans, ?_, hmarks⟩
  simp only [tokens, run, hrun, if_true, Option.bind_some, Option.map_some, List.nil_append]

end Pattern

namespace Text

/-- A split falls between characters when it takes the bytes of some of them. -/
theorem splitBytes?_utf8Len (front back : List Char) :
    splitBytes? (utf8Len front) (front ++ back) = some (front, back) := by
  induction front with
  | nil =>
    rw [utf8Len_nil, List.nil_append, splitBytes?]
  | cons c front ih =>
    obtain ⟨n, hn⟩ : ∃ n, utf8Len (c :: front) = n + 1 :=
      Nat.exists_eq_succ_of_ne_zero (by rw [utf8Len_cons]; have := c.utf8Size_pos; omega)
    have hle : c.utf8Size ≤ n + 1 := by
      rw [← hn, utf8Len_cons]
      omega
    have hrest : n + 1 - c.utf8Size = utf8Len front := by
      rw [← hn, utf8Len_cons]
      omega
    rw [hn, List.cons_append, splitBytes?, if_pos hle, hrest, ih]
    rfl

theorem slice?_utf8Len (front mid back : List Char) :
    slice? (front ++ (mid ++ back)) (utf8Len front) (utf8Len front + utf8Len mid) = some mid := by
  rw [slice?, if_pos (Nat.le_add_right _ _), splitBytes?_utf8Len, Nat.add_sub_cancel_left]
  exact congrArg (Option.map Prod.fst) (splitBytes?_utf8Len mid back)

end Text

namespace Piece

theorem ofSpans?_append_finish (source : List Char) (n : Nat) (offset position : Nat)
    (spans : List (Span TokenRule)) :
    ofSpans? source offset position (spans ++ [⟨.finish, n, n⟩]) =
      ofSpans? source offset position spans := by
  induction spans generalizing offset position with
  | nil => rfl
  | cons span spans ih =>
    rw [List.cons_append, ofSpans?, ofSpans?]
    cases span.rule.kind? with
    | none => exact ih offset position
    | some kind =>
      simp only [ih]

/-- The cursor stands before a character with as many bytes and as many characters before it as it
says. From there on it takes each span to its piece. -/
theorem ofSpans?_of_marks {source : List Char} {spans : List (Span TokenRule)} {ps : List Piece}
    (h : List.Forall₂ (Span.Marks source) spans ps) (front back : List Char)
    (hsource : source = front ++ back) (hpositions : ∀ q ∈ ps, 1 + front.length ≤ q.position)
    (hordered : ps.Pairwise fun q r => q.stop ≤ r.position) :
    ofSpans? source (utf8Len front) (1 + front.length) spans = some ps := by
  -- the cursor stands behind `front`, counted in bytes and in characters
  induction h generalizing front back with
  | nil => rfl
  | @cons span q spans ps hmarks _ ih =>
    obtain ⟨hkind, front', back', hsource', hstart, hstop, hposition⟩ := hmarks
    have hle := hpositions q List.mem_cons_self
    obtain ⟨passed, rfl, -⟩ :=
      exists_append_of_append_eq (hsource.symm.trans hsource') (by omega)
    have hpassed : Text.slice? source (utf8Len front) span.start = some passed := by
      rw [hsource', hstart, utf8Len_append, List.append_assoc]
      exact Text.slice?_utf8Len front passed _
    have htext : Text.slice? source span.start span.stop = some q.text.toList := by
      rw [hsource', hstart, hstop]
      exact Text.slice?_utf8Len _ q.text.toList back'
    have hnext : 1 + front.length + passed.length = q.position := by
      rw [hposition, List.length_append, Nat.add_assoc]
    obtain ⟨hafter, hordered'⟩ := List.pairwise_cons.1 hordered
    have hlater : ofSpans? source span.start q.position spans = some ps := by
      rw [hstart, hposition]
      refine ih _ _ hsource' ?_ hordered'
      intro r hr
      have hfollows := hafter r hr
      unfold stop at hfollows
      omega
    rw [ofSpans?, hkind, hpassed, htext]
    simp only [hnext, hlater, Option.bind_eq_bind, Option.bind_some, String.ofList_toList]
    rfl

/-- Tokens found by byte offsets are those of the tokenizer, so they are always found. No other
pieces are parentheses and words that stand in the text in order, with nothing but blanks around
them and never two words side by side. The spans of the grammar have as many bytes before them as the
characters before their pieces take, and the positions are one more than the number of these
characters. -/
theorem ofText?_unique_tiling (source : String) :
    ofText? source = some ((Token.ofText source).map Token.piece) ∧
    (∀ ps, ofText? source = some ps ↔ Tiles 1 source.toList ps) ∧
    ∃ spans, Pattern.tokens.run ⟨0, source.toList⟩ = some ⟨⟨utf8Len source.toList, []⟩,
        spans ++ [⟨.finish, utf8Len source.toList, utf8Len source.toList⟩]⟩ ∧
      List.Forall₂ (Span.Marks source.toList) spans ((Token.ofText source).map Token.piece) := by
  obtain ⟨spans, hrun, hmarks⟩ := Pattern.run_tokens source.toList
  have htiles : Tiles 1 source.toList ((Token.ofText source).map Token.piece) := tiles_iff.2 rfl
  have hpieces : ofText? source = some ((Token.ofText source).map Token.piece) := by
    rw [ofText?, hrun, Option.bind_some, ofSpans?_append_finish]
    exact ofSpans?_of_marks hmarks [] _ rfl (fun q hq => (htiles.standsIn q hq).le_position)
      htiles.ordered
  refine ⟨hpieces, ?_, spans, hrun, hmarks⟩
  intro ps
  rw [hpieces, Option.some_inj, eq_comm]
  exact tiles_iff.symm

end Piece

end PrefixArith
