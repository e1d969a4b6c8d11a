import PrefixArith.Numeral.Write

namespace PrefixArith.Numeral

def Style.exponential : Style :=
  ⟨⟨1, 309⟩, ⟨1, 309⟩, [], "e0".toList, "inf".toList, true⟩

def splitOnce? (separator : Char) (s : List Char) : Option (List Char × List Char) :=
  match s.dropWhile (· != separator) with
  | [] => none
  | _ :: behind => some (s.takeWhile (· != separator), behind)

/-- Puts a plus before a power of ten that has no minus. -/
def withPlus (s : List Char) : List Char :=
  match splitOnce? 'e' s with
  | none => s
  | some (mantissa, power) =>
    if power.head? = some '-' then s else mantissa ++ 'e' :: '+' :: power

/-- The numeral of a literal, its form chosen by comparing its magnitude with 1e-6 and 1e21. NaN
lies in no range. -/
def literal (v : Float) : String :=
  if v.isInf then if v < 0 then "-Infinity" else "Infinity"
  else if v == 0 then "0"
  else if 1e-6 ≤ v.abs ∧ v.abs < 1e21 then write .plain v
  else String.ofList (withPlus (Style.exponential.characters v))

example : literal 1e21 = "1e+21" := by decide +kernel
example : literal (-2.5e-7) = "-2.5e-7" := by decide +kernel
example : literal (0.0 / 0.0) = "NaN" := by decide +kernel

end PrefixArith.Numeral
