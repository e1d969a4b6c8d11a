namespace PrefixArith.Binary64

/-- The least positive double is 2^-scale, and every finite one a multiple of it. -/
@[irreducible] def scale : Nat := 1074

/-- A binade, the doubles between one power of two and the next, has 2^52 members. -/
def binadeSize : Nat := 0x10000000000000

def signBit : Nat := 0x8000000000000000

example : binadeSize = 2 ^ 52 ∧ signBit = 2 ^ 63 := by decide

def infinityRank : Nat := 0x7FF * binadeSize

/-- The magnitude of a rank in units of 2^-scale; from infinity on, the one it would have if the
exponents went on. -/
def units (rank : Nat) : Nat :=
  if rank < binadeSize then rank
  else (binadeSize + rank % binadeSize) <<< (rank / binadeSize - 1)

def halfway (rank : Nat) : Nat := units rank + units (rank + 1)

/-- The place of a double's magnitude among all of them in increasing order: its bits without the
sign. -/
def rank (v : Float) : Nat := v.toBits.toNat % signBit

def isSigned (v : Float) : Bool := signBit ≤ v.toBits.toNat

def ofRank (signed : Bool) (rank : Nat) : Float :=
  Float.ofBits (UInt64.ofNat ((if signed then signBit else 0) + rank))

/-- A higher rank is a larger magnitude. -/
theorem units_lt_units_succ (r : Nat) : units r < units (r + 1) := by
  unfold units
  by_cases h : r + 1 < binadeSize
  · rw [if_pos (by omega), if_pos h]
    omega
  · rw [if_neg h]
    by_cases h' : r < binadeSize
    · have : r = binadeSize - 1 := by omega
      subst this
      decide
    · rw [if_neg h', Nat.shiftLeft_eq, Nat.shiftLeft_eq]
      unfold binadeSize at h' ⊢
      by_cases hm : r % 0x10000000000000 + 1 < 0x10000000000000
      · rw [show (r + 1) / 0x10000000000000 = r / 0x10000000000000 by omega,
          show (r + 1) % 0x10000000000000 = r % 0x10000000000000 + 1 by omega]
        exact Nat.mul_lt_mul_of_pos_right (by omega) (Nat.two_pow_pos _)
      · rw [show (r + 1) / 0x10000000000000 - 1 = r / 0x10000000000000 - 1 + 1 by omega,
          show (r + 1) % 0x10000000000000 = 0 by omega]
        have hlt : 0x10000000000000 + r % 0x10000000000000 < 0x10000000000000 * 2 := by omega
        generalize r / 0x10000000000000 - 1 = k
        have := Nat.mul_lt_mul_of_pos_right hlt (Nat.two_pow_pos k)
        rwa [Nat.add_zero, Nat.pow_succ, Nat.mul_comm (_ ^ k), ← Nat.mul_assoc]

theorem units_lt_units {r s : Nat} (h : r < s) : units r < units s := by
  induction h with
  | refl => exact units_lt_units_succ r
  | step _ ih => exact Nat.lt_trans ih (units_lt_units_succ _)

theorem halfway_lt_halfway {r s : Nat} (h : r < s) : halfway r < halfway s :=
  Nat.add_lt_add (units_lt_units h) (units_lt_units (Nat.succ_lt_succ h))

end PrefixArith.Binary64
