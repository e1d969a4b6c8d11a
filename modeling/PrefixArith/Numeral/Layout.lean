namespace PrefixArith.Numeral

/-- All places written out, zeros included. The point is the number of digits before it, which is
negative where zeros come first: `123` with point -1 is 0.0123. A whole number ends in `tail`. -/
def positional (tail digits : List Char) (point : Int) : List Char :=
  if point ≤ 0 then '0' :: '.' :: (List.replicate (-point).toNat '0' ++ digits)
  else if digits.length ≤ point.toNat then
    digits ++ List.replicate (point.toNat - digits.length) '0' ++ tail
  else digits.take point.toNat ++ '.' :: digits.drop point.toNat

/-- One digit before the decimal point and a power of ten; `plus` stands before a power that is
not negative. -/
def scientific (plus digits : List Char) (point : Int) : List Char :=
  digits.take 1 ++ (if digits.length ≤ 1 then [] else '.' :: digits.drop 1) ++
    'e' :: ((if point < 1 then ['-'] else plus) ++ Nat.toDigits 10 (point - 1).natAbs)

example : String.ofList (positional [] "123".toList 5) = "12300" := by decide
example : String.ofList (positional [] "123".toList 3) = "123" := by decide
example : String.ofList (positional [] "123".toList 1) = "1.23" := by decide
example : String.ofList (positional [] "123".toList 0) = "0.123" := by decide
example : String.ofList (positional [] "123".toList (-1)) = "0.0123" := by decide
example : String.ofList (positional ".0".toList "12".toList 3) = "120.0" := by decide
example : String.ofList (scientific ['+'] "123".toList 22) = "1.23e+21" := by decide
example : String.ofList (scientific [] "5".toList (-6)) = "5e-7" := by decide

end PrefixArith.Numeral
