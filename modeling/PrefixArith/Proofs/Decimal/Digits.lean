import PrefixArith.Proofs.Binary64.Bits
import PrefixArith.Proofs.Decimal.Rounding

namespace PrefixArith.Decimal
open Binary64

variable {r : Nat}

theorem value_exact (r : Nat) : 2 ^ scale * (exact r).value = units r := by
  have hten : (10 : ℚ) ^ scale = 2 ^ scale * 5 ^ scale := by
    rw [← mul_pow]
    norm_num
  have htwo : (2 : ℚ) ^ scale ≠ 0 := pow_ne_zero _ (by norm_num)
  have hfive : (5 : ℚ) ^ scale ≠ 0 := pow_ne_zero _ (by norm_num)
  unfold value exact
  rw [zpow_neg, zpow_natCast, hten, Nat.pow_eq]
  push_cast
  field_simp

/-- The steps below a double are those whose decimals are not above it. -/
theorem value_le_exact_iff {t : Nat} {e : Int} :
    (⟨t, e⟩ : Decimal).value ≤ (exact r).value ↔ t ≤ stepsBelow r e := by
  have hstep : 0 < Nat.pow 10 e.toNat <<< scale := by
    rw [Nat.shiftLeft_eq]
    exact Nat.mul_pos (Nat.pow_pos (by decide)) (Nat.two_pow_pos scale)
  have hscaled : (0 : ℚ) < 2 ^ scale * 10 ^ (-e).toNat := by positivity
  have ht : (⟨t, e⟩ : Decimal).value * (2 ^ scale * 10 ^ (-e).toNat) =
      (t * Nat.pow 10 e.toNat <<< scale : Nat) := by
    unfold value
    rw [Nat.shiftLeft_eq, Nat.pow_eq]
    push_cast
    rw [← zpow_mul_pow_neg e]
    ring
  have hr : (exact r).value * (2 ^ scale * 10 ^ (-e).toNat) =
      (units r * Nat.pow 10 (-e).toNat : Nat) := by
    rw [Nat.pow_eq]
    push_cast
    rw [← value_exact r]
    ring
  rw [stepsBelow, Nat.le_div_iff_mul_le hstep, ← mul_le_mul_iff_of_pos_right hscaled, ht, hr,
    Nat.cast_le]

theorem lt_value_iff {t : Nat} {e : Int} :
    (exact r).value < (⟨t, e⟩ : Decimal).value ↔ stepsBelow r e < t := by
  rw [← not_le, value_le_exact_iff, not_le]

/-- A grid with a decimal that rounds to a double has a neighbour of the double that does. -/
theorem exists_onGrid? (hr : r < infinityRank) {t : Nat} {e : Int}
    (h : (⟨t, e⟩ : Decimal).nearest = r) : ∃ d, onGrid? r e = some d := by
  apply exists_select?
  rw [roundsTo_iff hr, roundsTo_iff hr]
  rcases Nat.lt_or_ge (stepsBelow r e) t with habove | hbelow
  · right
    refine nearest_eq_of_between (nearest_exact hr) h ?_ ?_
    · exact (lt_value_iff.2 (Nat.lt_succ_self _)).le
    · exact value_le_value habove (Int.le_refl _)
  · left
    refine nearest_eq_of_between h (nearest_exact hr) ?_ ?_
    · exact value_le_value hbelow (Int.le_refl _)
    · exact value_le_exact_iff.2 (Nat.le_refl _)

theorem two_pow_le_ten_pow {a b : Nat} (h : a ≤ 3 * b) : 2 ^ a ≤ 10 ^ b :=
  calc 2 ^ a ≤ 2 ^ (3 * b) := Nat.pow_le_pow_right (by decide) h
    _ = 8 ^ b := Nat.pow_mul 2 3 b
    _ ≤ 10 ^ b := Nat.pow_le_pow_left (by decide) b

theorem exact_digits_lt {n : Nat} (hn : 53 + r / binadeSize ≤ 3 * n) :
    (exact r).digits < 10 ^ (n + scale) := by
  have hunits : units r < 10 ^ n :=
    (units_lt_two_pow (Nat.le_refl _)).trans_le (two_pow_le_ten_pow hn)
  have hfive : 5 ^ scale ≤ 10 ^ scale := Nat.pow_le_pow_left (by decide) scale
  rw [Nat.pow_add]
  exact Nat.mul_lt_mul_of_lt_of_le hunits hfive (Nat.pow_pos (by decide))

theorem lt_pow_digitCount {n k : Nat} (hn : n < 10 ^ k) (hk : k + 1 < 2048) :
    n < 10 ^ digitCount n := by
  have hmono : ∀ i j, i ≤ j → decide (n < Nat.pow 10 i) = true →
      decide (n < Nat.pow 10 j) = true := by
    intro i j hij hi
    rw [decide_eq_true_iff] at hi ⊢
    exact hi.trans_le (Nat.pow_le_pow_right (by decide) hij)
  have hle : digitCount n ≤ k :=
    (leastFrom_le_iff hmono 11 0 k (Nat.zero_le _) (by simpa using hk)).2 (decide_eq_true hn)
  have hself := (leastFrom_le_iff hmono 11 0 (digitCount n) (Nat.zero_le _)
    (by simp; omega)).1 (Nat.le_refl _)
  exact of_decide_eq_true hself

theorem exact_digits_lt_pow_digitCount (hr : r < infinityRank) :
    (exact r).digits < 10 ^ digitCount (exact r).digits := by
  have hbinade : 53 + r / binadeSize ≤ 3 * 700 := by
    unfold infinityRank at hr
    unfold binadeSize at hr ⊢
    omega
  have hscale : 700 + scale + 1 < 2048 := by
    unfold scale
    decide
  exact lt_pow_digitCount (exact_digits_lt hbinade) hscale

/-- The double lies below the one step of the first grid. -/
theorem exact_value_lt (hr : r < infinityRank) :
    (exact r).value < (⟨1, digitCount (exact r).digits - scale⟩ : Decimal).value := by
  have hpow : ((exact r).digits : ℚ) < 10 ^ digitCount (exact r).digits := by
    exact_mod_cast exact_digits_lt_pow_digitCount hr
  have hstep := ten_zpow_pos (-scale)
  unfold value
  rw [Nat.cast_one, one_mul, sub_eq_add_neg, zpow_add₀ (by norm_num), zpow_natCast]
  exact mul_lt_mul_of_pos_right hpow hstep

/-- If no decimal of the grid before the search rounds to the double, none of the grid before the
one where it ends does. -/
theorem nearest_ne_of_coarser (hr : r < infinityRank) (n : Nat)
    (h : ∀ t, (⟨t, n + 1 - scale⟩ : Decimal).nearest ≠ r) (t : Nat) :
    (⟨t, (shortestFrom r n).exponent + 1⟩ : Decimal).nearest ≠ r := by
  induction n with
  | zero =>
    have hexponent : (shortestFrom r 0).exponent + 1 = ((0 : Nat) : Int) + 1 - scale := by
      change -(scale : Int) + 1 = _
      omega
    rw [hexponent]
    exact h t
  | succ n ih =>
    rw [shortestFrom]
    cases hgrid : onGrid? r (n + 1 - scale) with
    | none =>
      apply ih
      intro t ht
      obtain ⟨d, hd⟩ := exists_onGrid? hr ht
      rw [hd] at hgrid
      cases hgrid
    | some d =>
      have hexponent : d.exponent = n + 1 - scale := by
        rcases eq_of_onGrid? hgrid with rfl | rfl <;> rfl
      have hnext : d.exponent + 1 = ((n + 1 : Nat) : Int) + 1 - scale := by omega
      rw [Option.getD_some, hnext]
      exact h t

theorem nearest_zero_digits (e : Int) : (⟨0, e⟩ : Decimal).nearest = 0 := by
  have hinfinity : 0 < infinityRank := by decide
  apply Nat.eq_zero_of_le_zero
  rw [nearest_le_iff hinfinity, atMost_iff_value]
  left
  have hhalfway : halfway 0 = 1 := by decide
  rw [hhalfway, value, Nat.cast_zero, zero_mul, mul_zero]
  exact zero_lt_one

theorem digits_pos_of_nearest {d : Decimal} (hd : d.nearest = r) (hpos : r ≠ 0) : 0 < d.digits := by
  apply Nat.pos_of_ne_zero
  intro hzero
  obtain ⟨t, e⟩ := d
  obtain rfl : t = 0 := hzero
  exact hpos (hd.symm.trans (nearest_zero_digits e))

/-- On a grid before the first one there is at most the power of ten above the double, and that has
one digit on the first one. -/
theorem digits_le_one_of_coarser (hr : r < infinityRank) (hpos : r ≠ 0) {t : Nat}
    (ht : (⟨t, digitCount (exact r).digits + 1 - scale⟩ : Decimal).nearest = r) :
    (shortest r).digits ≤ 1 := by
  have habove := exact_value_lt hr
  -- one step of the finer grid lies between the double and the decimal on the coarser one
  have hstep : (⟨1, digitCount (exact r).digits - scale⟩ : Decimal).nearest = r := by
    refine nearest_eq_of_between (nearest_exact hr) ht habove.le ?_
    have hcoarser := value_mul_pow t 1 (digitCount (exact r).digits - scale)
    have hexponent : (digitCount (exact r).digits - scale + (1 : Nat) : Int) =
        digitCount (exact r).digits + 1 - scale := by omega
    rw [hexponent] at hcoarser
    have htpos : 0 < t := digits_pos_of_nearest ht hpos
    have hten : 1 ≤ t * 10 ^ 1 := by omega
    rw [← hcoarser]
    exact value_le_value hten (Int.le_refl _)
  obtain ⟨d, hd⟩ := exists_onGrid? hr hstep
  have hshortest : shortest r = d := by
    unfold shortest
    cases hcount : digitCount (exact r).digits with
    | zero =>
      have hlt := exact_digits_lt_pow_digitCount hr
      have hdigits := digits_pos_of_nearest (nearest_exact hr) hpos
      rw [hcount] at hlt
      omega
    | succ n =>
      rw [hcount] at hd
      rw [shortestFrom]
      push_cast at hd
      rw [hd, Option.getD_some]
  have hsteps := lt_value_iff.1 habove
  rw [hshortest]
  rcases eq_of_onGrid? hd with rfl | rfl
  · exact Nat.le_of_lt hsteps
  · exact hsteps

theorem nearest_shortest_coarser_ne (hr : r < infinityRank) (hpos : r ≠ 0)
    (hdigits : 1 < (shortest r).digits) (t : Nat) :
    (⟨t, (shortest r).exponent + 1⟩ : Decimal).nearest ≠ r := by
  apply nearest_ne_of_coarser hr
  intro t ht
  exact absurd (digits_le_one_of_coarser hr hpos ht) (Nat.not_le_of_lt hdigits)

/-- A decimal has the fewest digits if no decimal of the next coarser grid rounds as it does. -/
theorem pow_le_digits_of_coarsest {s d : Decimal} {j : Nat} (hs : s.nearest = r)
    (hcoarser : ∀ t, (⟨t, s.exponent + 1⟩ : Decimal).nearest ≠ r) (hd : d.nearest = r)
    (hj : 10 ^ (j + 1) ≤ s.digits) : 10 ^ (j + 1) ≤ d.digits := by
  -- the power of ten with as many digits as `s` lies on the coarser grid
  have hpower : (⟨10 ^ j, s.exponent + 1⟩ : Decimal).value =
      (⟨10 ^ (j + 1), s.exponent⟩ : Decimal).value := (value_mul_pow (10 ^ j) 1 s.exponent).symm
  have hle : (⟨10 ^ j, s.exponent + 1⟩ : Decimal).value ≤ s.value := by
    rw [hpower]
    exact value_le_value hj (Int.le_refl _)
  apply Nat.le_of_not_lt
  intro hfewer
  rcases le_or_gt d.value (⟨10 ^ j, s.exponent + 1⟩ : Decimal).value with hbelow | habove
  · exact hcoarser _ (nearest_eq_of_between hd hs hbelow hle)
  · rcases le_or_gt d.exponent s.exponent with hexponent | hexponent
    · rw [hpower] at habove
      have hlt : d.value < (⟨10 ^ (j + 1), s.exponent⟩ : Decimal).value :=
        value_lt_value hfewer hexponent
      exact absurd hlt (not_lt_of_gt habove)
    · obtain ⟨k, hk⟩ : ∃ k : Nat, d.exponent = s.exponent + 1 + k :=
        ⟨(d.exponent - (s.exponent + 1)).toNat, by omega⟩
      apply hcoarser (d.digits * 10 ^ k)
      rw [← hd]
      apply nearest_congr
      rw [value_mul_pow, ← hk]

/-- No decimal that rounds to a double has fewer digits than the one found. -/
theorem pow_le_digits (hr : r < infinityRank) (hpos : r ≠ 0) {d : Decimal} (hd : d.nearest = r)
    {j : Nat} (hj : 10 ^ j ≤ (shortest r).digits) : 10 ^ j ≤ d.digits := by
  cases j with
  | zero => exact digits_pos_of_nearest hd hpos
  | succ j =>
    have hdigits : 1 < (shortest r).digits :=
      (Nat.one_lt_pow (Nat.succ_ne_zero j) (by decide)).trans_le hj
    have hcoarser := nearest_shortest_coarser_ne hr hpos hdigits
    exact pow_le_digits_of_coarsest (nearest_shortest hr) hcoarser hd hj

def length (d : Decimal) : Nat := (Nat.toDigits 10 d.digits).length

def point (d : Decimal) : Int := d.length + d.exponent

theorem length_pos (d : Decimal) : 0 < d.length := Nat.length_toDigits_pos

theorem digits_lt_pow_length (d : Decimal) : d.digits < 10 ^ d.length :=
  (Nat.length_toDigits_le_iff (by decide) d.length_pos).1 (Nat.le_refl _)

theorem pow_length_le_digits {d : Decimal} (h : 0 < d.digits) : 10 ^ (d.length - 1) ≤ d.digits := by
  apply Nat.le_of_not_lt
  intro hlt
  have hpos := d.length_pos
  by_cases hone : d.length = 1
  · rw [hone] at hlt
    simp at hlt
    omega
  · have hle := (Nat.length_toDigits_le_iff (by decide) (by omega)).2 hlt
    change d.length ≤ d.length - 1 at hle
    omega

theorem value_lt_point (d : Decimal) : d.value < (⟨1, d.point⟩ : Decimal).value := by
  have hpow := value_mul_pow 1 d.length d.exponent
  have hpoint : d.exponent + d.length = d.point := Int.add_comm _ _
  rw [hpoint, Nat.one_mul] at hpow
  rw [← hpow]
  exact value_lt_value d.digits_lt_pow_length (Int.le_refl _)

theorem point_le_value {d : Decimal} (h : 0 < d.digits) :
    (⟨1, d.point - 1⟩ : Decimal).value ≤ d.value := by
  have hpow := value_mul_pow 1 (d.length - 1) d.exponent
  have hpos := d.length_pos
  have hpoint : d.exponent + ((d.length - 1 : Nat) : Int) = d.point - 1 := by
    unfold point
    omega
  rw [hpoint, Nat.one_mul] at hpow
  rw [← hpow]
  exact value_le_value (pow_length_le_digits h) (Int.le_refl _)

/-- A double reaches a power of ten exactly if the point of its shortest decimal does, given that
the power is the shortest decimal of its own double. -/
theorem nearest_pow_le_iff {r : Nat} (hr : r < infinityRank) (hpos : r ≠ 0) {b : Int}
    (hb : shortest (⟨1, b⟩ : Decimal).nearest = ⟨1, b⟩) :
    (⟨1, b⟩ : Decimal).nearest ≤ r ↔ b < (shortest r).point := by
  have hshort := nearest_shortest hr
  constructor
  · intro hle
    apply lt_of_not_ge
    intro hpoint
    have hvalue : (shortest r).value ≤ (⟨1, b⟩ : Decimal).value :=
      (value_lt_point _).le.trans (value_pow_le_value_pow hpoint)
    have hge := nearest_le_nearest hvalue
    rw [hshort] at hge
    obtain rfl := Nat.le_antisymm hle hge
    rw [hb] at hpoint
    have hlength : (Nat.toDigits 10 1).length = 1 := by decide
    change ((Nat.toDigits 10 1).length : Int) + b ≤ b at hpoint
    omega
  · intro hpoint
    have hdigits := digits_pos_of_nearest hshort hpos
    have hexponent : b ≤ (shortest r).point - 1 := by omega
    have hvalue : (⟨1, b⟩ : Decimal).value ≤ (shortest r).value :=
      (value_pow_le_value_pow hexponent).trans (point_le_value hdigits)
    exact (nearest_le_nearest hvalue).trans_eq hshort

end PrefixArith.Decimal
