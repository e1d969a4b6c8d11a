import PrefixArith.Numeral.Read
import PrefixArith.Proofs.Binary64.Bits

namespace PrefixArith.Numeral
open Binary64

theorem rank?_le {s : List Char} {r : Nat} (h : rank? s = some r) : r ≤ infinityRank := by
  unfold rank? at h
  split at h
  · simp only [Option.some.injEq] at h
    omega
  · obtain ⟨d, -, rfl⟩ := Option.map_eq_some_iff.1 h
    exact Nat.min_le_right _ _

theorem isNaN_of_read? {w : String} {c : Float} (h : read? w = some c) : c.isNaN = false := by
  unfold read? ofCharacters? at h
  split at h <;> obtain ⟨r, hr, rfl⟩ := Option.map_eq_some_iff.1 h <;>
    exact isNaN_ofRank _ (rank?_le hr)

theorem isDigit_toDigits (n : Nat) : ∀ c ∈ Nat.toDigits 10 n, c.isDigit = true :=
  fun _ hc => Nat.isDigit_of_mem_toDigits (by decide) (by decide) hc

def StopsDigits (rest : List Char) : Prop := ∀ c ∈ rest.head?, c.isDigit = false

theorem takeWhile_isDigit {ds rest : List Char} (hds : ∀ c ∈ ds, c.isDigit = true)
    (hrest : StopsDigits rest) : (ds ++ rest).takeWhile Char.isDigit = ds := by
  have hstop : rest.takeWhile Char.isDigit = [] := by
    cases rest with
    | nil => rfl
    | cons c rest => exact List.takeWhile_cons_of_neg (by simp [hrest c rfl])
  rw [List.takeWhile_append_of_pos hds, hstop, List.append_nil]

theorem dropWhile_isDigit {ds rest : List Char} (hds : ∀ c ∈ ds, c.isDigit = true)
    (hrest : StopsDigits rest) : (ds ++ rest).dropWhile Char.isDigit = rest := by
  rw [List.dropWhile_append_of_pos hds]
  cases rest with
  | nil => rfl
  | cons c rest => exact List.dropWhile_cons_of_neg (by simp [hrest c rfl])

/-- A whole number and its power. -/
theorem decimal?_whole {ds rest : List Char} (hds : ∀ c ∈ ds, c.isDigit = true) (hne : ds ≠ [])
    (hrest : StopsDigits rest) (hpoint : rest.head? ≠ some '.') :
    decimal? (ds ++ rest) =
      (exponent? rest).map fun x => ⟨Nat.ofDigitChars 10 ds 0, x⟩ := by
  have hfraction : fraction rest = ([], rest) := by
    unfold fraction
    split
    · simp at hpoint
    · rfl
  unfold decimal?
  rw [takeWhile_isDigit hds hrest, dropWhile_isDigit hds hrest, hfraction]
  simp [hne]

/-- Digits on both sides of a point, and a power. -/
theorem decimal?_point {ds ps rest : List Char} (hds : ∀ c ∈ ds, c.isDigit = true)
    (hps : ∀ c ∈ ps, c.isDigit = true) (hne : ds ≠ []) (hrest : StopsDigits rest) :
    decimal? (ds ++ '.' :: (ps ++ rest)) =
      (exponent? rest).map fun x => ⟨Nat.ofDigitChars 10 (ds ++ ps) 0, x - ps.length⟩ := by
  have hpoint : StopsDigits ('.' :: (ps ++ rest)) := by
    intro c hc
    simp only [List.head?_cons, Option.mem_def, Option.some.injEq] at hc
    subst hc
    decide
  unfold decimal?
  rw [takeWhile_isDigit hds hpoint, dropWhile_isDigit hds hpoint]
  simp only [fraction, takeWhile_isDigit hps hrest, dropWhile_isDigit hps hrest, hne, false_and,
    ↓reduceIte]

theorem power_eq_ofDigitChars (ds : List Char) (n : Nat)
    (h : Nat.ofDigitChars 10 ds n < 655360) :
    ds.foldl (fun n c => if n < 65536 then 10 * n + (c.toNat - '0'.toNat) else n) n =
      Nat.ofDigitChars 10 ds n := by
  induction ds generalizing n with
  | nil => simp
  | cons d ds ih =>
    rw [Nat.ofDigitChars_cons] at h ⊢
    have hgrows : 10 * n + (d.toNat - '0'.toNat) ≤
        Nat.ofDigitChars 10 ds (10 * n + (d.toNat - '0'.toNat)) := by
      rw [Nat.ofDigitChars_eq_ofDigitChars_zero]
      have := Nat.le_mul_of_pos_left (10 * n + (d.toNat - '0'.toNat))
        (Nat.pow_pos (n := ds.length) (show 0 < 10 by decide))
      omega
    rw [List.foldl_cons, if_pos (by omega)]
    exact ih _ h

theorem power?_toDigits {n : Nat} (hn : n < 655360) : power? (Nat.toDigits 10 n) = some n := by
  have hdigits : (Nat.toDigits 10 n).all Char.isDigit = true :=
    List.all_eq_true.2 (isDigit_toDigits n)
  have hpower : power (Nat.toDigits 10 n) = n := by
    have hvalue : Nat.ofDigitChars 10 (Nat.toDigits 10 n) 0 = n := Nat.ofDigitChars_ten_toDigits
    unfold power
    rw [power_eq_ofDigitChars _ _ (by omega), hvalue]
  rw [power?, if_pos ⟨Nat.toDigits_ne_nil, hdigits⟩, hpower]

/-- A power is read with its sign, which may be a plus. -/
theorem exponent?_e {x : Int} (hx : x.natAbs < 655360) :
    exponent? ('e' :: ((if x < 0 then ['-'] else ['+']) ++ Nat.toDigits 10 x.natAbs)) =
      some x := by
  by_cases hsign : x < 0
  · have habs : -(x.natAbs : Int) = x := by omega
    rw [if_pos hsign, List.singleton_append, exponent?, if_pos (Or.inl rfl), power?_toDigits hx]
    exact congrArg some habs
  · have habs : (x.natAbs : Int) = x := by omega
    rw [if_neg hsign, List.singleton_append, exponent?, if_pos (Or.inl rfl), power?_toDigits hx]
    exact congrArg some habs

end PrefixArith.Numeral
