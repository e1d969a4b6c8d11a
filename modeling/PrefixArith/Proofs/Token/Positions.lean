import Mathlib.Data.List.Basic
import PrefixArith.Token

namespace PrefixArith

theorem Lexeme.toList_text_opening : opening.text.toList = ['('] := by decide

theorem Lexeme.toList_text_closing : closing.text.toList = [')'] := by decide

theorem isWordChar_opening : isWordChar '(' = false := by decide

theorem isWordChar_closing : isWordChar ')' = false := by decide

theorem isWordChar_of_isBlank {c : Char} (h : Text.isBlank c = true) : isWordChar c = false := by
  simp [isWordChar, h]

theorem isBlank_of_isWordChar {c : Char} (h : isWordChar c = true) : Text.isBlank c = false := by
  rw [← Bool.not_eq_true]
  intro hblank
  rw [isWordChar_of_isBlank hblank] at h
  cases h

theorem isWordChar_of_ne {c : Char} (hopen : c ≠ '(') (hclose : c ≠ ')')
    (hblank : ¬Text.isBlank c = true) : isWordChar c = true := by
  simp [isWordChar, hopen, hclose, hblank]

/-- What a lexeme is where it stands between two stretches of characters: a word is made of word
characters, and has a character of the kind neither before it nor behind it. -/
def Lexeme.Between (front back : List Char) : Lexeme → Prop
  | opening => True
  | closing => True
  | word w => w.toList ≠ [] ∧ (∀ c ∈ w.toList, isWordChar c = true) ∧
      (∀ c ∈ front.getLast?, isWordChar c = false) ∧ ∀ c ∈ back.head?, isWordChar c = false

/-- Of the stretch before a lexeme only the end matters. -/
theorem Lexeme.Between.append {l : Lexeme} {front back : List Char} (h : l.Between front back)
    (as : List Char) (has : front = [] → ∀ c ∈ as.getLast?, isWordChar c = false) :
    l.Between (as ++ front) back := by
  cases l with
  | opening => trivial
  | closing => trivial
  | word w =>
    obtain ⟨hne, hword, hfront, hback⟩ := h
    refine ⟨hne, hword, ?_, hback⟩
    by_cases hnil : front = []
    · rw [hnil, List.append_nil]
      exact has hnil
    · rwa [List.getLast?_append_of_ne_nil _ hnil]

theorem Lexeme.Between.cons {l : Lexeme} {front back : List Char} (h : l.Between front back)
    {c : Char} (hc : isWordChar c = false) : l.Between (c :: front) back := by
  apply h.append [c]
  intro _ d hd
  obtain rfl : c = d := by simpa using hd
  exact hc

/-- The last character of a lexeme is not blank. -/
theorem Lexeme.Between.exists_last {l : Lexeme} {front back : List Char}
    (h : l.Between front back) : ∃ cs c, l.text.toList = cs ++ [c] ∧ Text.isBlank c = false := by
  cases l with
  | opening => exact ⟨[], '(', toList_text_opening, by decide⟩
  | closing => exact ⟨[], ')', toList_text_closing, by decide⟩
  | word w =>
    obtain ⟨hne, hword, -, -⟩ := h
    refine ⟨w.toList.dropLast, w.toList.getLast hne, (List.dropLast_append_getLast hne).symm, ?_⟩
    exact isBlank_of_isWordChar (hword _ (List.getLast_mem hne))

namespace Token

theorem scan_eq_nil_iff {p : Nat} {s : List Char} :
    scan p s = [] ↔ ∀ c ∈ s, Text.isBlank c = true := by
  fun_induction scan p s with
  | case1 => simp
  | case2 p rest ih => simp [show Text.isBlank '(' = false by decide]
  | case3 p rest _ ih => simp [show Text.isBlank ')' = false by decide]
  | case4 p c rest _ _ hc ih => simp [ih, hc]
  | case5 p c rest _ _ hc tail ih => simp [hc]

theorem le_position {p : Nat} {s : List Char} : ∀ t ∈ scan p s, p ≤ t.position := by
  fun_induction scan p s with
  | case1 => simp
  | case2 p rest ih | case3 p rest _ ih =>
    intro t ht
    rcases List.mem_cons.1 ht with rfl | ht
    · exact Nat.le_refl p
    · exact Nat.le_of_succ_le (ih t ht)
  | case4 p c rest _ _ _ ih =>
    intro t ht
    exact Nat.le_of_succ_le (ih t ht)
  | case5 p c rest _ _ _ tail ih =>
    intro t ht
    rcases List.mem_cons.1 ht with rfl | ht
    · exact Nat.le_refl p
    · have hle := ih t ht
      omega

/-- Tokens stand in increasing order. -/
theorem pairwise_position_scan (p : Nat) (s : List Char) :
    (scan p s).Pairwise fun t u => t.position < u.position := by
  fun_induction scan p s with
  | case1 => exact List.Pairwise.nil
  | case2 p rest ih | case3 p rest _ ih =>
    refine List.pairwise_cons.2 ⟨?_, ih⟩
    intro t ht
    exact le_position t ht
  | case4 p c rest _ _ _ ih => exact ih
  | case5 p c rest _ _ _ tail ih =>
    refine List.pairwise_cons.2 ⟨?_, ih⟩
    intro t ht
    have hle := le_position t ht
    dsimp only
    omega

theorem scan_word {c : Char} (hc : isWordChar c = true) (p : Nat) (rest : List Char) :
    scan p (c :: rest) =
      ⟨.word (String.ofList (c :: rest.takeWhile isWordChar)), p⟩ ::
        scan (p + (c :: rest.takeWhile isWordChar).length) (rest.dropWhile isWordChar) := by
  have hword := hc
  simp only [isWordChar, Bool.and_eq_true, bne_iff_ne, Bool.not_eq_true'] at hword
  have hlength : p + 1 + (rest.takeWhile isWordChar).length =
      p + (c :: rest.takeWhile isWordChar).length := by
    rw [List.length_cons]
    omega
  rw [scan, if_neg hword.1.1, if_neg hword.1.2, if_neg (by rw [hword.2]; decide), ← hlength]

theorem head?_dropWhile_isWordChar (s : List Char) :
    ∀ c ∈ (s.dropWhile isWordChar).head?, isWordChar c = false := by
  intro c hc
  have hnot := List.head?_dropWhile_not isWordChar s
  rw [Option.mem_def.1 hc] at hnot
  exact hnot

theorem between_first_word {c : Char} (hc : isWordChar c = true) (rest : List Char) :
    (Lexeme.word (String.ofList (c :: rest.takeWhile isWordChar))).Between []
      (rest.dropWhile isWordChar) := by
  refine ⟨by simp, ?_, by simp, head?_dropWhile_isWordChar rest⟩
  intro d hd
  rw [String.toList_ofList] at hd
  rcases List.mem_cons.1 hd with rfl | hd
  · exact hc
  · exact List.all_eq_true.1 List.all_takeWhile d hd

/-- The characters cut right before a token: cutting them from there on gives the token and those
behind it. -/
structure Cut (p : Nat) (s : List Char) (t : Token) (after : List Token) (front back : List Char) :
    Prop where
  split : s = front ++ (t.lexeme.text.toList ++ back)
  position_eq : t.position = p + front.length
  scan_here : scan t.position (t.lexeme.text.toList ++ back) = t :: after
  scan_behind : scan t.stop back = after
  between : t.lexeme.Between front back

/-- The first token stands where no character comes before it. -/
theorem Cut.first {p : Nat} {s back : List Char} {l : Lexeme} {q : Nat}
    (hs : s = l.text.toList ++ back) (hq : q = p + l.text.length)
    (hscan : scan p s = ⟨l, p⟩ :: scan q back) (hbetween : l.Between [] back) :
    Cut p s ⟨l, p⟩ (scan q back) [] back where
  split := hs
  position_eq := rfl
  scan_here := hs ▸ hscan
  scan_behind := hq ▸ rfl
  between := hbetween

/-- One more character that belongs to no word may come first. -/
theorem Cut.cons {p : Nat} {s front back : List Char} {t : Token} {after : List Token}
    (h : Cut (p + 1) s t after front back) {c : Char} (hc : isWordChar c = false) :
    Cut p (c :: s) t after (c :: front) back where
  split := congrArg (List.cons c) h.split
  position_eq := by rw [h.position_eq, List.length_cons, Nat.add_assoc, Nat.add_comm 1]
  scan_here := h.scan_here
  scan_behind := h.scan_behind
  between := h.between.cons hc

/-- One more word may come first, which goes on as far as it can. -/
theorem Cut.word {p : Nat} {s w front back : List Char} {t : Token} {after : List Token}
    (h : Cut (p + w.length) s t after front back) (hs : ∀ c ∈ s.head?, isWordChar c = false) :
    Cut p (w ++ s) t after (w ++ front) back where
  split := by rw [h.split, List.append_assoc]
  position_eq := by rw [h.position_eq, List.length_append, Nat.add_assoc]
  scan_here := h.scan_here
  scan_behind := h.scan_behind
  between := by
    -- were nothing in between, this token would be a word too and belong to the first one
    cases hl : t.lexeme with
    | opening => trivial
    | closing => trivial
    | word w' =>
      have hbetween := h.between
      rw [hl] at hbetween
      apply hbetween.append
      rintro rfl
      obtain ⟨hne, hword, -, -⟩ := hbetween
      obtain ⟨d, ds, hw'⟩ := List.exists_cons_of_ne_nil hne
      have hd := hs d (by rw [h.split, hl, Lexeme.text_word, hw']; rfl)
      rw [hword d (by rw [hw']; exact List.mem_cons_self)] at hd
      cases hd

/-- A parenthesis is a token of its own: it comes first, or what comes first is behind it. -/
theorem exists_cut_of_parenthesis {p : Nat} {rest : List Char} {l : Lexeme} {c : Char}
    (htext : l.text.toList = [c]) (hc : isWordChar c = false) (hbetween : l.Between [] rest)
    (hscan : scan p (c :: rest) = ⟨l, p⟩ :: scan (p + 1) rest) {before after : List Token}
    {t : Token} (h : ⟨l, p⟩ :: scan (p + 1) rest = before ++ t :: after)
    (hrest : ∀ {before : List Token}, scan (p + 1) rest = before ++ t :: after →
      ∃ front back, Cut (p + 1) rest t after front back) :
    ∃ front back, Cut p (c :: rest) t after front back := by
  cases before with
  | nil =>
    obtain ⟨rfl, rfl⟩ := List.cons.inj h
    have hsplit : c :: rest = l.text.toList ++ rest := by
      rw [htext]
      rfl
    have hlength : p + 1 = p + l.text.length := by
      rw [← String.length_toList, htext]
      rfl
    exact ⟨[], rest, .first hsplit hlength hscan hbetween⟩
  | cons u before =>
    obtain ⟨front, back, hcut⟩ := hrest (List.cons.inj h).2
    exact ⟨c :: front, back, hcut.cons hc⟩

/-- Where tokens are cut in two, the characters can be cut likewise. -/
theorem exists_split {p : Nat} {s : List Char} {before after : List Token} {t : Token}
    (h : scan p s = before ++ t :: after) : ∃ front back, Cut p s t after front back := by
  fun_induction scan p s generalizing before with
  | case1 => simp at h
  | case2 p rest ih =>
    exact exists_cut_of_parenthesis Lexeme.toList_text_opening isWordChar_opening trivial
      (by simp [scan]) h ih
  | case3 p rest _ ih =>
    exact exists_cut_of_parenthesis Lexeme.toList_text_closing isWordChar_closing trivial
      (by simp [scan]) h ih
  | case4 p c rest _ _ hc ih =>
    obtain ⟨front, back, hcut⟩ := ih h
    exact ⟨c :: front, back, hcut.cons (isWordChar_of_isBlank hc)⟩
  | case5 p c rest hopen hclose hblank tail =>
    rename_i ih
    have hc : isWordChar c = true := isWordChar_of_ne hopen hclose hblank
    have hsplit : c :: rest = c :: tail ++ rest.dropWhile isWordChar := by
      rw [List.cons_append, List.takeWhile_append_dropWhile]
    -- the word that comes first is the token itself, or is passed as a whole
    cases before with
    | nil =>
      obtain ⟨rfl, rfl⟩ := List.cons.inj h
      refine ⟨[], rest.dropWhile isWordChar, .first ?_ ?_ ?_ (between_first_word hc rest)⟩
      · rw [Lexeme.text_word, String.toList_ofList, ← hsplit]
      · rw [Lexeme.text_word, String.length_ofList, List.length_cons, Nat.add_assoc, Nat.add_comm 1]
      · rw [scan_word hc, List.length_cons, Nat.add_assoc, Nat.add_comm 1]
    | cons u before =>
      obtain ⟨front, back, hcut⟩ := ih (List.cons.inj h).2
      rw [Nat.add_assoc, Nat.add_comm 1] at hcut
      rw [hsplit]
      exact ⟨c :: tail ++ front, back, hcut.word (head?_dropWhile_isWordChar rest)⟩

/-- The last token of a text ends where only blanks follow. -/
theorem exists_last {p : Nat} {s : List Char} {before : List Token} {t : Token}
    (h : scan p s = before ++ [t]) :
    ∃ front c back, s = front ++ c :: back ∧ Text.isBlank c = false ∧
      (∀ b ∈ back, Text.isBlank b = true) ∧ t.stop = p + front.length + 1 := by
  obtain ⟨front, back, hcut⟩ := exists_split h
  obtain ⟨cs, c, htext, hc⟩ := hcut.between.exists_last
  refine ⟨front ++ cs, c, back, ?_, hc, scan_eq_nil_iff.1 hcut.scan_behind, ?_⟩
  · rw [hcut.split, htext]
    simp
  · rw [stop, hcut.position_eq, ← String.length_toList, htext, List.length_append,
      List.length_append]
    simp only [List.length_singleton]
    omega

end Token

end PrefixArith
