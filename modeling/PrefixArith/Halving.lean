namespace PrefixArith

/-- Of the numbers `base` to `base + 2^bits - 1`, the least that has the property, or the last. -/
def leastFrom (p : Nat → Bool) : (bits base : Nat) → Nat
  | 0, base => base
  | bits + 1, base =>
    let half := 1 <<< bits
    if p (base + half - 1) then leastFrom p bits base else leastFrom p bits (base + half)

theorem leastFrom_mem (p : Nat → Bool) (bits base : Nat) :
    base ≤ leastFrom p bits base ∧ leastFrom p bits base < base + 1 <<< bits := by
  induction bits generalizing base with
  | zero => simp [leastFrom]
  | succ bits ih =>
    have := ih base
    have := ih (base + 1 <<< bits)
    rw [leastFrom, Nat.shiftLeft_succ]
    split <;> omega

/-- For a monotone property, the number found is at most `n` exactly when `n` has it; of the last
number searched nothing is said. -/
theorem leastFrom_le_iff {p : Nat → Bool} (hp : ∀ m n, m ≤ n → p m = true → p n = true)
    (bits base n : Nat) (hb : base ≤ n) (hn : n + 1 < base + 1 <<< bits) :
    leastFrom p bits base ≤ n ↔ p n = true := by
  induction bits generalizing base with
  | zero => simp only [Nat.shiftLeft_zero] at hn; omega
  | succ bits ih =>
    have low := leastFrom_mem p bits base
    have high := leastFrom_mem p bits (base + 1 <<< bits)
    rw [Nat.shiftLeft_succ] at hn
    rw [leastFrom]
    split
    · rename_i h
      by_cases hm : n + 1 < base + 1 <<< bits
      · exact ih base hb hm
      · exact ⟨fun _ => hp _ _ (by omega) h, fun _ => by omega⟩
    · rename_i h
      by_cases hm : base + 1 <<< bits ≤ n
      · exact ih _ hm (by omega)
      · exact ⟨fun hle => by omega, fun ha => absurd (hp _ _ (by omega) ha) h⟩

end PrefixArith
