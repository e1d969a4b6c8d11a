import PrefixArith.Demo

def main (args : List String) : IO UInt32 := do
  let mut status : UInt32 := 0
  for name in args do
    match PrefixArith.Demo.output? name with
    | some text => IO.print text
    | none =>
      IO.eprintln ("Unknown demonstration: " ++ name)
      status := 1
  return status
