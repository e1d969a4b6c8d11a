import PrefixArith.Decimal.Nearest

namespace PrefixArith

open Binary64

namespace Decimal

def roundsTo (d : Decimal) (rank : Nat) : Bool :=
  d.magnitude.atMost rank && (rank == 0 || !d.magnitude.atMost (rank - 1))

/-- The whole number of steps of 10^exponent below or at the double of this rank. -/
def stepsBelow (rank : Nat) (exponent : Int) : Nat :=
  units rank * Nat.pow 10 (-exponent).toNat / (Nat.pow 10 exponent.toNat <<< scale)

def nearerBelow (rank : Nat) (exponent : Int) (steps : Nat) : Bool :=
  2 * units rank * Nat.pow 10 (-exponent).toNat <
    ((2 * steps + 1) * Nat.pow 10 exponent.toNat) <<< scale

def select? (rank : Nat) (below above : Decimal) (preferBelow : Bool) : Option Decimal :=
  if below.roundsTo rank && (preferBelow || !above.roundsTo rank) then some below
  else if above.roundsTo rank then some above
  else none

/-- The neighbour of a double on the grid of 10^exponent that rounds to it, if there is one. -/
def onGrid? (rank : Nat) (exponent : Int) : Option Decimal :=
  let steps := stepsBelow rank exponent
  select? rank ⟨steps, exponent⟩ ⟨steps + 1, exponent⟩ (nearerBelow rank exponent steps)

def exact (rank : Nat) : Decimal := ⟨units rank * Nat.pow 5 scale, -scale⟩

def shortestFrom (rank : Nat) : (n : Nat) → Decimal
  | 0 => exact rank
  | n + 1 => (onGrid? rank (n + 1 - scale)).getD (shortestFrom rank n)

def digitCount (n : Nat) : Nat := leastFrom (fun k => n < Nat.pow 10 k) 11 0

/-- The fewest digits that round to the double of a finite rank, and of those the nearest. Grids are
tried from the power of ten above the double on, each ten times finer than the one before, and the
last one holds every finite double itself. -/
def shortest (rank : Nat) : Decimal := shortestFrom rank (digitCount (exact rank).digits)

theorem roundsTo_iff {d : Decimal} {rank : Nat} (hr : rank < infinityRank) :
    d.roundsTo rank = true ↔ d.nearest = rank := by
  have h := nearest_le_iff (d := d) hr
  have h' := nearest_le_iff (d := d) (r := rank - 1) (by omega)
  simp only [roundsTo, Bool.and_eq_true, Bool.or_eq_true, beq_iff_eq, Bool.not_eq_true',
    ← Bool.not_eq_true, ← h, ← h']
  omega

theorem roundsTo_of_select? {rank : Nat} {below above d : Decimal} {preferBelow : Bool}
    (h : select? rank below above preferBelow = some d) : d.roundsTo rank = true := by
  unfold select? at h
  generalize hb : below.roundsTo rank = b at h
  generalize ha : above.roundsTo rank = a at h
  cases b <;> cases a <;> cases preferBelow <;> simp_all

theorem eq_of_select? {rank : Nat} {below above d : Decimal} {preferBelow : Bool}
    (h : select? rank below above preferBelow = some d) : d = below ∨ d = above := by
  unfold select? at h
  split at h
  · exact Or.inl (Option.some.inj h).symm
  · split at h
    · exact Or.inr (Option.some.inj h).symm
    · cases h

theorem exists_select? {rank : Nat} {below above : Decimal} (preferBelow : Bool)
    (h : below.roundsTo rank = true ∨ above.roundsTo rank = true) :
    ∃ d, select? rank below above preferBelow = some d := by
  unfold select?
  generalize below.roundsTo rank = b at h
  generalize above.roundsTo rank = a at h
  cases b <;> cases a <;> cases preferBelow <;> simp_all

theorem eq_of_onGrid? {rank : Nat} {exponent : Int} {d : Decimal}
    (h : onGrid? rank exponent = some d) :
    d = ⟨stepsBelow rank exponent, exponent⟩ ∨ d = ⟨stepsBelow rank exponent + 1, exponent⟩ :=
  eq_of_select? h

theorem roundsTo_of_onGrid? {rank : Nat} {exponent : Int} {d : Decimal}
    (h : onGrid? rank exponent = some d) : d.roundsTo rank = true :=
  roundsTo_of_select? h

theorem five_pow_shiftLeft (u n : Nat) :
    (u * Nat.pow 5 n) <<< (n + 1) = 2 * u * Nat.pow 10 n := by
  have hten : 10 ^ n = 2 ^ n * 5 ^ n := (Nat.mul_pow 2 5 n)
  simp only [Nat.pow_eq]
  rw [Nat.shiftLeft_eq, hten, Nat.pow_succ]
  generalize 2 ^ n = a
  generalize 5 ^ n = b
  rw [Nat.mul_comm a b, Nat.mul_comm 2 u, Nat.mul_assoc, Nat.mul_assoc, ← Nat.mul_assoc b,
    Nat.mul_comm (b * a)]

/-- A finite double is a decimal. -/
theorem exact_roundsTo (rank : Nat) : (exact rank).roundsTo rank = true := by
  have hpos : 0 < Nat.pow 10 scale := Nat.pow_pos (by decide)
  have hup : 2 * units rank * Nat.pow 10 scale < halfway rank * Nat.pow 10 scale := by
    refine Nat.mul_lt_mul_of_pos_right ?_ hpos
    have := units_lt_units_succ rank
    unfold halfway
    omega
  have hone : Nat.pow 10 0 = 1 := rfl
  simp only [roundsTo, exact, magnitude, Int.toNat_neg_natCast, Int.neg_neg, Int.toNat_natCast,
    hone, Nat.mul_one, five_pow_shiftLeft, Bool.and_eq_true, Bool.or_eq_true, beq_iff_eq,
    Bool.not_eq_true', ← Bool.not_eq_true, Magnitude.atMost_iff]
  refine ⟨Or.inl hup, ?_⟩
  by_cases h : rank = 0
  · exact Or.inl h
  · right
    have hdown : halfway (rank - 1) * Nat.pow 10 scale < 2 * units rank * Nat.pow 10 scale := by
      refine Nat.mul_lt_mul_of_pos_right ?_ hpos
      have := units_lt_units_succ (rank - 1)
      unfold halfway
      rw [show rank - 1 + 1 = rank by omega] at this ⊢
      omega
    omega

theorem shortestFrom_roundsTo (rank n : Nat) : (shortestFrom rank n).roundsTo rank = true := by
  induction n with
  | zero => exact exact_roundsTo rank
  | succ n ih =>
    rw [shortestFrom]
    cases h : onGrid? rank (n + 1 - scale) with
    | none => exact ih
    | some d => exact roundsTo_of_onGrid? h

/-- The shortest decimal of a finite double rounds back to it. -/
theorem nearest_shortest {rank : Nat} (hr : rank < infinityRank) :
    (shortest rank).nearest = rank :=
  (roundsTo_iff hr).1 (shortestFrom_roundsTo rank _)

end Decimal

end PrefixArith
