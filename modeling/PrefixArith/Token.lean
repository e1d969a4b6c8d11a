import PrefixArith.Text.Blank

namespace PrefixArith

inductive Lexeme where
  | opening
  | closing
  | word (text : String)
deriving Repr, DecidableEq

/-- A lexeme and the position of its first character, counted from 1. -/
structure Token where
  lexeme : Lexeme
  position : Nat
deriving Repr, DecidableEq

def Lexeme.text : Lexeme → String
  | opening => "("
  | closing => ")"
  | word text => text

@[simp] theorem Lexeme.text_opening : opening.text = "(" := rfl

@[simp] theorem Lexeme.text_closing : closing.text = ")" := rfl

@[simp] theorem Lexeme.text_word (text : String) : (word text).text = text := rfl

def Token.stop (t : Token) : Nat := t.position + t.lexeme.text.length

def isWordChar (c : Char) : Bool := c != '(' && c != ')' && !Text.isBlank c

/-- The tokens of the characters that start at a position. A word goes on as far as it can. -/
def Token.scan (position : Nat) : List Char → List Token
  | [] => []
  | c :: rest =>
    if c = '(' then ⟨.opening, position⟩ :: scan (position + 1) rest
    else if c = ')' then ⟨.closing, position⟩ :: scan (position + 1) rest
    else if Text.isBlank c then scan (position + 1) rest
    else
      let tail := rest.takeWhile isWordChar
      ⟨.word (String.ofList (c :: tail)), position⟩ ::
        scan (position + 1 + tail.length) (rest.dropWhile isWordChar)
termination_by s => s.length
decreasing_by
  all_goals simp only [List.length_cons]
  all_goals have := (List.dropWhile_suffix isWordChar (l := rest)).length_le
  all_goals omega

def Token.ofText (source : String) : List Token := scan 1 source.toList

theorem filter_takeWhile_isWordChar (s : List Char) :
    (s.takeWhile isWordChar).filter (fun c => !Text.isBlank c) = s.takeWhile isWordChar := by
  rw [List.filter_eq_self]
  intro c hc
  have h := List.all_eq_true.1 (List.all_takeWhile (p := isWordChar) (l := s)) c hc
  simp only [isWordChar, Bool.and_eq_true] at h
  exact h.2

theorem Token.flatMap_text_scan (position : Nat) (s : List Char) :
    (scan position s).flatMap (fun t => t.lexeme.text.toList) =
      s.filter fun c => !Text.isBlank c := by
  fun_induction scan position s with
  | case1 => rfl
  | case2 position rest ih => simp [ih, show Text.isBlank '(' = false by decide]
  | case3 position rest h ih => simp [ih, show Text.isBlank ')' = false by decide]
  | case4 position c rest _ _ h ih => simp [ih, h]
  | case5 position c rest _ _ h tail ih =>
    have hsplit : rest = tail ++ rest.dropWhile isWordChar :=
      List.takeWhile_append_dropWhile.symm
    rw [List.flatMap_cons, ih, List.filter_cons_of_pos (by simpa using h)]
    conv => rhs; rw [hsplit, List.filter_append]
    simp [tail, filter_takeWhile_isWordChar]

theorem Token.flatMap_text_ofText (source : String) :
    (ofText source).flatMap (fun t => t.lexeme.text.toList) =
      source.toList.filter fun c => !Text.isBlank c :=
  flatMap_text_scan 1 source.toList

end PrefixArith
