namespace PrefixArith.Text

def underneath (c : Char) : Char := if c = '\t' then '\t' else ' '

/-- The line with a caret under the character at a position, counted from 1; a source that is too
short is taken to go on with spaces. Position 0 counts as 1. -/
def caretLine (source : String) (position : Nat) : String :=
  let before := source.toList.take (position - 1)
  let missing := List.replicate (position - 1 - before.length) ' '
  String.ofList (before.map underneath ++ missing ++ ['^'])

theorem toList_caretLine (source : String) (position : Nat) :
    (caretLine source position).toList =
      (source.toList.take (position - 1)).map underneath ++
        List.replicate (position - 1 - source.toList.length) ' ' ++ ['^'] := by
  simp only [caretLine, String.toList_ofList, List.length_take]
  congr 3
  omega

example : caretLine "\t(+\tx w)" 7 = "\t  \t  ^" := by decide +kernel
example : caretLine "(+ 1" 5 = "    ^" := by decide +kernel

end PrefixArith.Text
