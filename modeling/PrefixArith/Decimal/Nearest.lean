import PrefixArith.Decimal.Basic
import PrefixArith.Halving

namespace PrefixArith

open Binary64

/-- Whether a magnitude rounds to at most this rank: it lies below the midpoint above the rank, or
on that midpoint while the rank is even. -/
def Magnitude.atMost (x : Magnitude) (rank : Nat) : Bool :=
  let mid := halfway rank * x.den
  x.num < mid || (x.num == mid && rank % 2 == 0)

def Magnitude.nearest (x : Magnitude) : Nat := min (leastFrom x.atMost 63 0) infinityRank

def Decimal.nearest (d : Decimal) : Nat := d.magnitude.nearest

theorem Magnitude.atMost_iff {x : Magnitude} {r : Nat} : x.atMost r = true ↔
    x.num < halfway r * x.den ∨ (x.num = halfway r * x.den ∧ r % 2 = 0) := by
  simp [Magnitude.atMost]

theorem Magnitude.atMost_mono {x : Magnitude} (hx : 0 < x.den) {r s : Nat} (h : r ≤ s)
    (hr : x.atMost r = true) : x.atMost s = true := by
  rcases Nat.eq_or_lt_of_le h with rfl | h
  · exact hr
  · have hm := Nat.mul_lt_mul_of_pos_right (halfway_lt_halfway h) hx
    rw [atMost_iff] at hr ⊢
    omega

/-- Rounding to at most a finite rank is what `atMost` says. -/
theorem Magnitude.nearest_le_iff {x : Magnitude} (hx : 0 < x.den) {r : Nat}
    (hr : r < infinityRank) : x.nearest ≤ r ↔ x.atMost r = true := by
  have h := leastFrom_le_iff (p := x.atMost) (fun _ _ h => atMost_mono hx h) 63 0 r
    (Nat.zero_le _) (by simp [infinityRank, binadeSize] at hr; omega)
  rw [← h, nearest]
  omega

theorem Decimal.nearest_le_iff {d : Decimal} {r : Nat} (hr : r < infinityRank) :
    d.nearest ≤ r ↔ d.magnitude.atMost r = true :=
  Magnitude.nearest_le_iff d.magnitude_den_pos hr

end PrefixArith
