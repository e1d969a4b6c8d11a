namespace PrefixArith.Text

def lines (s : String) : List String := (s.toList.splitOn '\n').map String.ofList

/-- The column behind a character in a column; a tab goes on to the next multiple of its width. -/
def advance (width column : Nat) (c : Char) : Nat :=
  if c = '\t' then (column / width + 1) * width else column + 1

def column (width : Nat) (s : List Char) : Nat := s.foldl (advance width) 0

def columnOf? (width : Nat) (c : Char) (line : String) : Option Nat :=
  if c ∈ line.toList then some (column width (line.toList.takeWhile (· != c))) else none

/-- What stands before a position on the same line, which is all back to the last line feed. -/
def lineBefore (source : String) (position : Nat) : List Char :=
  ((source.toList.take (position - 1)).reverse.takeWhile (· != '\n')).reverse

example : lines "(+ 1\n\tq)" = ["(+ 1", "\tq)"] := by decide +kernel
example : columnOf? 4 'q' "( \tq)" = some 4 := by decide +kernel
example : lineBefore "(+ 1\n\tq)" 7 = ['\t'] := by decide +kernel

/-- Where tabs are no wider than other characters, the columns are counted by these. -/
theorem column_one (s : List Char) : column 1 s = s.length := by
  suffices h : ∀ start, s.foldl (advance 1) start = start + s.length by
    rw [column, h, Nat.zero_add]
  induction s with
  | nil => exact fun start => rfl
  | cons c s ih =>
    intro start
    have hnext : advance 1 start c = start + 1 := by simp [advance]
    rw [List.foldl_cons, hnext, ih, List.length_cons]
    omega

end PrefixArith.Text
