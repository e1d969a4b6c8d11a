import Mathlib
import PrefixArith.Decimal.Shortest

namespace PrefixArith.Decimal
open Binary64

def value (d : Decimal) : ℚ := d.digits * 10 ^ d.exponent

theorem ten_zpow_pos (e : ℤ) : (0 : ℚ) < 10 ^ e := zpow_pos (by norm_num) e

/-- Powers with negative exponents are taken to the other side. -/
theorem zpow_mul_pow_neg (e : ℤ) :
    (10 : ℚ) ^ e * 10 ^ (-e).toNat = 10 ^ e.toNat := by
  rw [← zpow_natCast, ← zpow_natCast, ← zpow_add₀ (by norm_num)]
  congr 1
  omega

theorem value_le_value {d d' : Decimal} (hdigits : d.digits ≤ d'.digits)
    (hexponent : d.exponent ≤ d'.exponent) : d.value ≤ d'.value := by
  have hpow : (10 : ℚ) ^ d.exponent ≤ 10 ^ d'.exponent :=
    zpow_le_zpow_right₀ (by norm_num) hexponent
  unfold value
  gcongr

theorem value_pow_le_value_pow {a b : Int} (h : a ≤ b) :
    (⟨1, a⟩ : Decimal).value ≤ (⟨1, b⟩ : Decimal).value :=
  value_le_value (Nat.le_refl 1) h

theorem value_lt_value {d d' : Decimal} (hdigits : d.digits < d'.digits)
    (hexponent : d.exponent ≤ d'.exponent) : d.value < d'.value := by
  have hcast : (d.digits : ℚ) < d'.digits := Nat.cast_lt.2 hdigits
  calc d.value < d'.digits * 10 ^ d.exponent :=
        mul_lt_mul_of_pos_right hcast (ten_zpow_pos d.exponent)
    _ ≤ d'.value := value_le_value (d := ⟨d'.digits, d.exponent⟩) (Nat.le_refl _) hexponent

/-- Digits with zeros behind them. -/
theorem value_mul_pow (n k : Nat) (e : ℤ) :
    (⟨n * 10 ^ k, e⟩ : Decimal).value = (⟨n, e + k⟩ : Decimal).value := by
  unfold value
  rw [zpow_add₀ (by norm_num), zpow_natCast]
  push_cast
  ring

theorem magnitude_num (d : Decimal) :
    (d.magnitude.num : ℚ) = 2 ^ (scale + 1) * d.value * d.magnitude.den := by
  have hpow := zpow_mul_pow_neg d.exponent
  unfold magnitude value
  simp only [Nat.pow_eq, Nat.shiftLeft_eq]
  push_cast
  rw [← hpow]
  ring

/-- A decimal rounds to at most a double when it lies below the midpoint above it, or on the
midpoint while the rank is even. -/
theorem atMost_iff_value {d : Decimal} {r : Nat} : d.magnitude.atMost r = true ↔
    2 ^ (scale + 1) * d.value < halfway r ∨
      (2 ^ (scale + 1) * d.value = halfway r ∧ r % 2 = 0) := by
  have hden : (0 : ℚ) < d.magnitude.den := Nat.cast_pos.2 d.magnitude_den_pos
  have hlt : d.magnitude.num < halfway r * d.magnitude.den ↔
      2 ^ (scale + 1) * d.value < halfway r := by
    rw [← mul_lt_mul_iff_of_pos_right hden, ← magnitude_num]
    exact_mod_cast Iff.rfl
  have heq : d.magnitude.num = halfway r * d.magnitude.den ↔
      2 ^ (scale + 1) * d.value = halfway r := by
    rw [← mul_left_inj' hden.ne', ← magnitude_num]
    exact_mod_cast Iff.rfl
  rw [Magnitude.atMost_iff, hlt, heq]

theorem nearest_le_infinityRank (d : Decimal) : d.nearest ≤ infinityRank := Nat.min_le_right _ _

/-- Greater decimals round to greater doubles, or to the same. -/
theorem nearest_le_nearest {d d' : Decimal} (h : d.value ≤ d'.value) : d.nearest ≤ d'.nearest := by
  rcases Nat.eq_or_lt_of_le (nearest_le_infinityRank d') with hinf | hlt
  · rw [hinf]
    exact nearest_le_infinityRank d
  · have hmul : 2 ^ (scale + 1) * d.value ≤ 2 ^ (scale + 1) * d'.value := by gcongr
    rw [nearest_le_iff hlt, atMost_iff_value]
    rcases atMost_iff_value.1 ((nearest_le_iff hlt).1 (Nat.le_refl _)) with hbelow | ⟨hon, heven⟩
    · exact Or.inl (hmul.trans_lt hbelow)
    · rcases hmul.lt_or_eq with hless | hsame
      · exact Or.inl (hless.trans_eq hon)
      · exact Or.inr ⟨hsame.trans hon, heven⟩

theorem nearest_congr {d d' : Decimal} (h : d.value = d'.value) : d.nearest = d'.nearest :=
  Nat.le_antisymm (nearest_le_nearest h.le) (nearest_le_nearest h.ge)

/-- What lies between two decimals that round to one double rounds to it. -/
theorem nearest_eq_of_between {d d' d'' : Decimal} {r : Nat} (h : d.nearest = r)
    (h'' : d''.nearest = r) (hle : d.value ≤ d'.value) (hle' : d'.value ≤ d''.value) :
    d'.nearest = r :=
  Nat.le_antisymm ((nearest_le_nearest hle').trans_eq h'')
    (h.symm.trans_le (nearest_le_nearest hle))

theorem nearest_exact {r : Nat} (hr : r < infinityRank) : (exact r).nearest = r :=
  (roundsTo_iff hr).1 (exact_roundsTo r)

end PrefixArith.Decimal
