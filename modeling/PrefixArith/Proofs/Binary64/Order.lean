import PrefixArith.Proofs.Binary64.Bits

namespace PrefixArith.Binary64
open Float.Model

/-- The digits of a finite double in binary: a member of a binade has a leading one. -/
def significand (r : Nat) : Nat := if r < binadeSize then r else binadeSize + r % binadeSize

def binade (r : Nat) : Nat := r / binadeSize - 1

theorem significand_pos {r : Nat} (h : r ≠ 0) : 0 < significand r := by
  unfold significand binadeSize
  split <;> omega

def signOf (signed : Bool) : UnpackedFloat.Sign := if signed then .negative else .positive

def unpacked (signed : Bool) (r : Nat) : UnpackedFloat :=
  if infinityRank < r then .notANumber
  else if r = infinityRank then .infinity (signOf signed)
  else if h : r = 0 then .zero (signOf signed)
  else .finite (signOf signed) (significand r) (binade r - 1074) (significand_pos h)

section
variable {signed : Bool} {r : Nat}

theorem unpacked_of_lt (h : infinityRank < r) : unpacked signed r = .notANumber := if_pos h

theorem unpacked_infinity : unpacked signed infinityRank = .infinity (signOf signed) := by
  rw [unpacked, if_neg (Nat.lt_irrefl _), if_pos rfl]

theorem unpacked_zero : unpacked signed 0 = .zero (signOf signed) := rfl

theorem unpacked_finite {m : Nat} {e : Int} (hm : 0 < m) (hpos : r ≠ 0) (hlt : r < infinityRank)
    (hsignificand : significand r = m) (hexponent : binade r - 1074 = e) :
    unpacked signed r = .finite (signOf signed) m e hm := by
  subst hsignificand hexponent
  rw [unpacked, if_neg (by omega), if_neg (by omega), dif_neg hpos]

end

theorem sign_unpackSign (v : Float) :
    UnpackedFloat.Sign.ofBitVec (@UnpackedFloat.unpackSign Format.binary64 v.toBits.toBitVec) =
      signOf (isSigned v) := by
  have hsign := toNat_unpackSign v.toBits.toBitVec
  change _ = v.toBits.toNat / 2 ^ 63 at hsign
  have hlt : v.toBits.toNat < 2 ^ 64 := v.toBits.toNat_lt
  generalize @UnpackedFloat.unpackSign Format.binary64 v.toBits.toBitVec = b at hsign ⊢
  unfold signOf isSigned signBit
  by_cases hs : 0x8000000000000000 ≤ v.toBits.toNat
  · have hb : b = 1#1 := by
      apply BitVec.eq_of_toNat_eq
      rw [hsign, BitVec.toNat_ofNat]
      omega
    rw [hb, decide_eq_true hs]
    rfl
  · have hb : b = 0#1 := by
      apply BitVec.eq_of_toNat_eq
      rw [hsign, BitVec.toNat_ofNat]
      omega
    rw [hb, decide_eq_false hs]
    rfl

/-- A rank is made up of the two fields behind the sign. -/
theorem rank_eq_fields (v : Float) :
    rank v = (@UnpackedFloat.unpackExponent Format.binary64 v.toBits.toBitVec).toNat * 2 ^ 52 +
      (@UnpackedFloat.unpackMantissa Format.binary64 v.toBits.toBitVec).toNat := by
  rw [toNat_unpackExponent, toNat_unpackMantissa]
  change v.toBits.toNat % 2 ^ 63 =
    v.toBits.toNat / 2 ^ 52 % 2 ^ 11 * 2 ^ 52 + v.toBits.toNat % 2 ^ 52
  omega

section
variable (signed : Bool) {e : BitVec 11} {m : BitVec 52}

theorem unpacked_full (he : e = -1#11) : unpacked signed (e.toNat * 2 ^ 52 + m.toNat) =
    if m = 0#52 then .infinity (signOf signed) else .notANumber := by
  have hinfinity : infinityRank = 2047 * 2 ^ 52 := by decide
  have hfull : e.toNat = 2047 := by
    rw [he]
    rfl
  split
  · rename_i hm
    have hr : e.toNat * 2 ^ 52 + m.toNat = infinityRank := by
      rw [hfull, hm, hinfinity]
      rfl
    rw [hr, unpacked_infinity]
  · rename_i hm
    have hpos : m.toNat ≠ 0 := fun h => hm (BitVec.eq_of_toNat_eq h)
    exact unpacked_of_lt (by omega)

theorem unpacked_subnormal (he : e = 0#11) (hm : 0 < m.toNat) :
    unpacked signed (e.toNat * 2 ^ 52 + m.toNat) =
      .finite (signOf signed) m.toNat (e.toNat - 1075 + 1) hm := by
  have hinfinity : infinityRank = 2047 * 2 ^ 52 := by decide
  have hbinade : binadeSize = 2 ^ 52 := by decide
  have hlt : m.toNat < 2 ^ 52 := m.isLt
  have hleast : e.toNat = 0 := by
    rw [he]
    rfl
  apply unpacked_finite
  · omega
  · omega
  · unfold significand
    rw [if_pos (by omega)]
    omega
  · unfold binade
    rw [hbinade]
    omega

theorem unpacked_normal (he : e ≠ -1#11) (he' : e ≠ 0#11) (hm : 0 < (1#1 ++ m).toNat) :
    unpacked signed (e.toNat * 2 ^ 52 + m.toNat) =
      .finite (signOf signed) (1#1 ++ m).toNat (e.toNat - 1075) hm := by
  have hinfinity : infinityRank = 2047 * 2 ^ 52 := by decide
  have hbinade : binadeSize = 2 ^ 52 := by decide
  have hlt : m.toNat < 2 ^ 52 := m.isLt
  have hexponent : e.toNat < 2 ^ 11 := e.isLt
  have hfull : e.toNat ≠ 2047 := fun h => he (BitVec.eq_of_toNat_eq h)
  have hleast : e.toNat ≠ 0 := fun h => he' (BitVec.eq_of_toNat_eq h)
  apply unpacked_finite
  · omega
  · omega
  · unfold significand
    rw [if_neg (by omega), toNat_one_append, hbinade]
    omega
  · unfold binade
    rw [hbinade]
    omega

end

/-- A double is unpacked field by field. -/
theorem unpack_eq_unpacked (v : Float) : v.toModel.unpack = unpacked (isSigned v) (rank v) := by
  change UnpackedFloat.unpack Format.binary64 v.toBits.toBitVec = _
  rw [rank_eq_fields]
  unfold UnpackedFloat.unpack
  dsimp only
  rw [sign_unpackSign]
  split
  · rename_i hfull
    exact (unpacked_full _ hfull).symm
  · rename_i hfull
    split
    · rename_i hleast
      split
      · rename_i hzero
        rw [hleast, hzero]
        exact unpacked_zero.symm
      · rename_i hzero
        exact (unpacked_subnormal _ hleast _).symm
    · rename_i hleast
      exact (unpacked_normal _ hfull hleast _).symm

/-- A higher rank has a higher binade, or the same one and a greater significand. -/
theorem binade_lt_or_significand_lt {r q : Nat} (h : r < q) :
    (binade r - 1074 : Int) < binade q - 1074 ∨
      (binade r - 1074 : Int) = binade q - 1074 ∧ significand r < significand q := by
  unfold binade significand binadeSize
  split <;> split <;> omega

theorem compare_significand (r q : Nat) :
    (compare (binade r - 1074 : Int) (binade q - 1074)).then
      (compare (significand r) (significand q)) = compare r q := by
  rcases Nat.lt_trichotomy r q with h | rfl | h
  · rw [Nat.compare_eq_lt.2 h]
    rcases binade_lt_or_significand_lt h with hlt | ⟨heq, hlt⟩
    · rw [compare_lt_iff_lt.2 hlt]
      rfl
    · rw [heq, compare_eq_iff_eq.2 rfl, compare_lt_iff_lt.2 hlt]
      rfl
  · rw [compare_eq_iff_eq.2 rfl, compare_eq_iff_eq.2 rfl, compare_eq_iff_eq.2 rfl]
    rfl
  · rw [Nat.compare_eq_gt.2 h]
    rcases binade_lt_or_significand_lt h with hlt | ⟨heq, hlt⟩
    · rw [compare_gt_iff_gt.2 hlt]
      rfl
    · rw [heq, compare_eq_iff_eq.2 rfl, compare_gt_iff_gt.2 hlt]
      rfl

theorem unpacked_cases (signed : Bool) {r : Nat} (hr : r ≤ infinityRank) :
    r = infinityRank ∧ unpacked signed r = .infinity (signOf signed) ∨
    r = 0 ∧ unpacked signed r = .zero (signOf signed) ∨
    ∃ hpos : r ≠ 0, r < infinityRank ∧ unpacked signed r =
      .finite (signOf signed) (significand r) (binade r - 1074) (significand_pos hpos) := by
  rcases Nat.eq_or_lt_of_le hr with rfl | hlt
  · exact Or.inl ⟨rfl, unpacked_infinity⟩
  · by_cases hpos : r = 0
    · subst hpos
      exact Or.inr (Or.inl ⟨rfl, unpacked_zero⟩)
    · exact Or.inr (Or.inr ⟨hpos, hlt, unpacked_finite _ hpos hlt rfl rfl⟩)

def withSign (signed : Bool) (r : Nat) : Int := if signed then -r else r

/-- The place of a double in the order, which is the same for the two zeros. -/
def signedRank (v : Float) : Int := withSign (isSigned v) (rank v)

theorem signedRank_ofRank (signed : Bool) {r : Nat} (hr : r ≤ infinityRank) :
    signedRank (ofRank signed r) = withSign signed r := by
  rw [signedRank, isSigned_ofRank signed hr, rank_ofRank signed hr]

theorem withSign_between (signed : Bool) {r q : Nat} (h : r < q) :
    (-q : Int) < withSign signed r ∧ withSign signed r < q := by
  cases signed with
  | false =>
    change (-q : Int) < r ∧ (r : Int) < q
    omega
  | true =>
    change (-q : Int) < -r ∧ (-r : Int) < q
    omega

theorem compare_withSign_false (r q : Nat) :
    compare (withSign false r) (withSign false q) = compare r q := by
  rw [← cmp_eq_compare, ← cmp_eq_compare]
  exact Int.natCast_strictMono.cmp_map_eq r q

theorem compare_withSign_true (r q : Nat) :
    compare (withSign true r) (withSign true q) = (compare r q).swap := by
  have hanti : StrictAnti (withSign true) := fun r q h => neg_lt_neg (Int.ofNat_lt.2 h)
  rw [← cmp_eq_compare, ← cmp_eq_compare, cmp_swap]
  exact hanti.cmp_map_eq r q

-- Of two different magnitudes the greater one decides with its sign.
theorem compare_unpacked (signed signed' : Bool) {r q : Nat} (hr : r ≤ infinityRank)
    (hq : q ≤ infinityRank) :
    (unpacked signed r).compare (unpacked signed' q) =
      some (compare (withSign signed r) (withSign signed' q)) := by
  have hinfinity : 0 < infinityRank := by decide
  have hless {a b : Int} (h : a < b) : some .lt = some (compare a b) :=
    congrArg some (compare_lt_iff_lt.2 h).symm
  have hmore {a b : Int} (h : b < a) : some .gt = some (compare a b) :=
    congrArg some (compare_gt_iff_gt.2 h).symm
  -- infinity, zero or another double on either side; signs decide unless both are finite
  rcases unpacked_cases signed hr with ⟨rfl, hru⟩ | ⟨rfl, hru⟩ | ⟨hrpos, hrlt, hru⟩ <;>
    rcases unpacked_cases signed' hq with ⟨rfl, hqu⟩ | ⟨rfl, hqu⟩ | ⟨hqpos, hqlt, hqu⟩ <;>
    rw [hru, hqu]
  · cases signed <;> cases signed' <;> decide
  · cases signed with
    | false => exact hmore (withSign_between signed' hinfinity).2
    | true => exact hless (withSign_between signed' hinfinity).1
  · cases signed with
    | false => exact hmore (withSign_between signed' hqlt).2
    | true => exact hless (withSign_between signed' hqlt).1
  · cases signed' with
    | false => exact hless (withSign_between signed hinfinity).2
    | true => exact hmore (withSign_between signed hinfinity).1
  · cases signed <;> cases signed' <;> rfl
  · cases signed' with
    | false => exact hless (withSign_between signed (Nat.pos_of_ne_zero hqpos)).2
    | true => exact hmore (withSign_between signed (Nat.pos_of_ne_zero hqpos)).1
  · cases signed' with
    | false => exact hless (withSign_between signed hrlt).2
    | true => exact hmore (withSign_between signed hrlt).1
  · cases signed with
    | false => exact hmore (withSign_between signed' (Nat.pos_of_ne_zero hrpos)).2
    | true => exact hless (withSign_between signed' (Nat.pos_of_ne_zero hrpos)).1
  · cases signed <;> cases signed'
    · rw [compare_withSign_false]
      exact congrArg some (compare_significand r q)
    · apply hmore
      change (-q : Int) < r
      omega
    · apply hless
      change (-r : Int) < q
      omega
    · rw [compare_withSign_true, ← compare_significand]
      rfl

section
variable {a b : Float} (ha : a.isNaN = false) (hb : b.isNaN = false)
include ha hb

theorem compare_eq_compare_signedRank :
    a.toModel.unpack.compare b.toModel.unpack = some (compare (signedRank a) (signedRank b)) := by
  rw [unpack_eq_unpacked, unpack_eq_unpacked,
    compare_unpacked _ _ ((isNaN_eq_false_iff a).1 ha) ((isNaN_eq_false_iff b).1 hb)]
  rfl

theorem lt_iff_signedRank_lt : a < b ↔ signedRank a < signedRank b := by
  rw [lt_iff_compare, compare_eq_compare_signedRank ha hb, Option.some_inj, compare_lt_iff_lt]

theorem le_iff_signedRank_le : a ≤ b ↔ signedRank a ≤ signedRank b := by
  rw [le_iff_compare, compare_eq_compare_signedRank ha hb, Option.any_some, Int.isLE_compare]

theorem beq_iff_signedRank_eq : (a == b) = true ↔ signedRank a = signedRank b := by
  change (a.toModel.unpack.compare b.toModel.unpack == some .eq) = true ↔ _
  rw [beq_iff_eq, compare_eq_compare_signedRank ha hb, Option.some_inj, compare_eq_iff_eq]

end

section
variable {a b : Float} (ha : isSigned a = false) (hb : isSigned b = false)
  (har : rank a ≤ infinityRank) (hbr : rank b ≤ infinityRank)
include ha hb har hbr

theorem lt_iff_rank_lt : a < b ↔ rank a < rank b := by
  rw [lt_iff_signedRank_lt ((isNaN_eq_false_iff a).2 har) ((isNaN_eq_false_iff b).2 hbr),
    signedRank, signedRank, ha, hb]
  exact Int.ofNat_lt

theorem le_iff_rank_le : a ≤ b ↔ rank a ≤ rank b := by
  rw [le_iff_signedRank_le ((isNaN_eq_false_iff a).2 har) ((isNaN_eq_false_iff b).2 hbr),
    signedRank, signedRank, ha, hb]
  exact Int.ofNat_le

end

theorem isNaN_iff (v : Float) : v.isNaN = true ↔ infinityRank < rank v := by
  rw [← Nat.not_le, ← isNaN_eq_false_iff, Bool.not_eq_false]

theorem compare_of_isNaN {a b : Float} (h : a.isNaN = true ∨ b.isNaN = true) :
    a.toModel.unpack.compare b.toModel.unpack = none := by
  rw [unpack_eq_unpacked a, unpack_eq_unpacked b]
  rcases h with ha | hb
  · rw [unpacked_of_lt ((isNaN_iff a).1 ha)]
    rfl
  · rw [unpacked_of_lt ((isNaN_iff b).1 hb)]
    cases unpacked (isSigned a) (rank a) <;> rfl

/-- NaN has no place in the order. -/
theorem not_le_of_isNaN {a b : Float} (h : b.isNaN = true) : ¬a ≤ b := by
  rw [le_iff_compare, compare_of_isNaN (Or.inr h)]
  exact nofun

/-- NaN compares equal to nothing. -/
theorem isNaN_eq_false_of_beq {a b : Float} (h : (a == b) = true) :
    a.isNaN = false ∧ b.isNaN = false := by
  change (a.toModel.unpack.compare b.toModel.unpack == some .eq) = true at h
  have hnumbers : ¬(a.isNaN = true ∨ b.isNaN = true) := by
    intro hnan
    rw [compare_of_isNaN hnan] at h
    cases h
  rwa [not_or, Bool.not_eq_true, Bool.not_eq_true] at hnumbers

theorem abs_unpacked (signed : Bool) (r : Nat) : (unpacked signed r).abs = unpacked false r := by
  unfold unpacked
  split
  · rfl
  · split
    · rfl
    · split <;> rfl

/-- The magnitude of a double has its rank. -/
theorem abs_eq_ofRank {v : Float} (h : v.isNaN = false) : v.abs = ofRank false (rank v) := by
  have hr := (isNaN_eq_false_iff v).1 h
  have hunpack : v.toModel.unpack.abs = (ofRank false (rank v)).toModel.unpack := by
    rw [unpack_eq_unpacked, unpack_eq_unpacked, abs_unpacked, isSigned_ofRank false hr,
      rank_ofRank false hr]
  have hpack := pack_unpack (ofRank false (rank v)).toBits.toBitVec (isNaN_ofRank false hr)
  apply toBits_injective
  apply UInt64.toBitVec_inj.1
  change UnpackedFloat.pack Format.binary64 v.toModel.unpack.abs = _
  rw [hunpack]
  exact hpack

theorem isNaN_abs {v : Float} (h : v.isNaN = true) : v.abs.isNaN = true := by
  have habs : v.abs = .ofModel (pack (unpacked (isSigned v) (rank v)).abs) := by
    rw [← unpack_eq_unpacked]
    rfl
  rw [habs, abs_unpacked, unpacked_of_lt ((isNaN_iff v).1 h)]
  rfl

theorem isNaN_zero : (0 : Float).isNaN = false := rfl

theorem signedRank_zero : signedRank 0 = 0 := rfl

/-- Both zeros equal zero, and nothing else does. -/
theorem beq_zero_iff (v : Float) : (v == 0) = true ↔ rank v = 0 := by
  cases h : v.isNaN with
  | true =>
    have hr := (isNaN_iff v).1 h
    refine iff_of_false (fun heq => ?_) (Nat.ne_of_gt (Nat.zero_lt_of_lt hr))
    rw [(isNaN_eq_false_of_beq heq).1] at h
    cases h
  | false =>
    rw [beq_iff_signedRank_eq h isNaN_zero, signedRank_zero, signedRank, withSign]
    split <;> omega

theorem lt_zero_iff {v : Float} (h : v.isNaN = false) :
    v < 0 ↔ isSigned v = true ∧ rank v ≠ 0 := by
  rw [lt_iff_signedRank_lt h isNaN_zero, signedRank_zero, signedRank, withSign]
  cases isSigned v with
  | false => simp
  | true =>
    simp only [↓reduceIte, true_and]
    omega

theorem isInf_iff (v : Float) : v.isInf = true ↔ rank v = infinityRank := by
  change v.toModel.unpack.isInf = true ↔ _
  rw [unpack_eq_unpacked]
  by_cases hr : rank v ≤ infinityRank
  · rcases unpacked_cases (isSigned v) hr with ⟨heq, hu⟩ | ⟨hzero, hu⟩ | ⟨_, hlt, hu⟩ <;> rw [hu]
    · exact ⟨fun _ => heq, fun _ => rfl⟩
    · rw [hzero]
      exact ⟨nofun, fun h => absurd h (by decide)⟩
    · exact ⟨nofun, fun h => absurd h (Nat.ne_of_lt hlt)⟩
  · rw [unpacked_of_lt (Nat.lt_of_not_le hr)]
    exact ⟨nofun, fun h => absurd (Nat.le_of_eq h) hr⟩

theorem isFinite_iff (v : Float) : v.isFinite = true ↔ rank v < infinityRank := by
  change v.toModel.unpack.isFinite = true ↔ _
  rw [unpack_eq_unpacked]
  by_cases hr : rank v ≤ infinityRank
  · rcases unpacked_cases (isSigned v) hr with ⟨heq, hu⟩ | ⟨hzero, hu⟩ | ⟨_, hlt, hu⟩ <;> rw [hu]
    · exact ⟨nofun, fun h => absurd heq (Nat.ne_of_lt h)⟩
    · rw [hzero]
      exact ⟨fun _ => by decide, fun _ => rfl⟩
    · exact ⟨fun _ => hlt, fun _ => rfl⟩
  · rw [unpacked_of_lt (Nat.lt_of_not_le hr)]
    exact ⟨nofun, fun h => absurd (Nat.le_of_lt h) hr⟩

end PrefixArith.Binary64
