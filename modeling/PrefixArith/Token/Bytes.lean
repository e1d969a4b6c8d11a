import PrefixArith.Pattern
import PrefixArith.Token

namespace PrefixArith

inductive TokenRule where
  | opening | closing | word | finish
deriving Repr, DecidableEq

namespace Pattern

def blank : Pattern TokenRule := .char Text.isBlank

def opening : Pattern TokenRule := .char (· == '(')

def closing : Pattern TokenRule := .char (· == ')')

def wordChar : Pattern TokenRule := .seq (.absent (.either opening (.either closing blank))) .any

def token : Pattern TokenRule :=
  .either (.rule .opening opening)
    (.either (.rule .closing closing) (.rule .word (.oneOrMore wordChar)))

def spacedTokens : Pattern TokenRule := .seq (.many blank) (.many (.seq token (.many blank)))

/-- Nothing but tokens and blanks from the beginning of the text to its end. -/
def tokens : Pattern TokenRule := .seq .atStart (.seq spacedTokens (.rule .finish .atEnd))

end Pattern

namespace Text

/-- So many bytes of characters and what follows them, unless that would cut a character in two or
there are too few. -/
def splitBytes? : Nat → List Char → Option (List Char × List Char)
  | 0, s => some ([], s)
  | _ + 1, [] => none
  | n + 1, c :: s =>
    if c.utf8Size ≤ n + 1 then
      (splitBytes? (n + 1 - c.utf8Size) s).map fun (front, back) => (c :: front, back)
    else none

/-- The characters from one byte offset to another, if these are in order and fall between
characters. -/
def slice? (s : List Char) (start stop : Nat) : Option (List Char) :=
  if start ≤ stop then
    (splitBytes? start s).bind fun (_, rest) => (splitBytes? (stop - start) rest).map Prod.fst
  else none

example : slice? "é(".toList 0 2 = some ['é'] := by decide
example : slice? "é(".toList 1 2 = none := by decide
example : slice? "é(".toList 2 0 = none := by decide

end Text

inductive TokenKind where
  | opening | closing | word
deriving Repr, DecidableEq

def TokenRule.kind? : TokenRule → Option TokenKind
  | opening => some .opening
  | closing => some .closing
  | word => some .word
  | finish => none

/-- A token's kind, the text that was found, and the position of its first character. -/
structure Piece where
  kind : TokenKind
  text : String
  position : Nat
deriving Repr, DecidableEq

namespace Piece

/-- The pieces of spans in order. A cursor stands at a byte offset and at the position of the
character there, and is moved on to the beginning of each token. -/
def ofSpans? (source : List Char) :
    (offset position : Nat) → List (Span TokenRule) → Option (List Piece)
  | _, _, [] => some []
  | offset, position, span :: spans =>
    match span.rule.kind? with
    | none => ofSpans? source offset position spans
    | some kind => do
      let passed ← Text.slice? source offset span.start
      let text ← Text.slice? source span.start span.stop
      let later ← ofSpans? source span.start (position + passed.length) spans
      return ⟨kind, String.ofList text, position + passed.length⟩ :: later

def ofText? (source : String) : Option (List Piece) :=
  (Pattern.tokens.run ⟨0, source.toList⟩).bind fun m => ofSpans? source.toList 0 1 m.spans

end Piece

def Lexeme.kind : Lexeme → TokenKind
  | opening => .opening
  | closing => .closing
  | word _ => .word

def Token.piece (t : Token) : Piece := ⟨t.lexeme.kind, t.lexeme.text, t.position⟩

example : Piece.ofText? "é(+\u3000x" =
    some [⟨.word, "é", 1⟩, ⟨.opening, "(", 2⟩, ⟨.word, "+", 3⟩, ⟨.word, "x", 5⟩] := by
  cbv

end PrefixArith
