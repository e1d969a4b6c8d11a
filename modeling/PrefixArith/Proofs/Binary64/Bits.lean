import Mathlib
import PrefixArith.Binary64.Rank

namespace PrefixArith.Binary64
open Float.Model

theorem units_lt_two_pow {r n : Nat} (h : r / binadeSize ≤ n) : units r < 2 ^ (53 + n) := by
  rw [Nat.pow_add]
  have hpos : 2 ^ 53 ≤ 2 ^ 53 * 2 ^ n := Nat.le_mul_of_pos_right _ (Nat.two_pow_pos n)
  unfold units
  split
  · rename_i hr
    unfold binadeSize at hr
    omega
  · have hbinade : binadeSize + r % binadeSize < 2 ^ 53 := by unfold binadeSize; omega
    have hpow : 2 ^ (r / binadeSize - 1) ≤ 2 ^ n := Nat.pow_le_pow_right (by decide) (by omega)
    rw [Nat.shiftLeft_eq]
    calc (binadeSize + r % binadeSize) * 2 ^ (r / binadeSize - 1)
        ≤ (binadeSize + r % binadeSize) * 2 ^ n := Nat.mul_le_mul_left _ hpow
      _ < 2 ^ 53 * 2 ^ n := Nat.mul_lt_mul_of_pos_right hbinade (Nat.two_pow_pos n)

theorem toNat_unpackExponent (b : BitVec 64) :
    (@UnpackedFloat.unpackExponent Format.binary64 b).toNat = b.toNat / 2 ^ 52 % 2 ^ 11 := by
  simp [UnpackedFloat.unpackExponent, BitVec.extractLsb, Nat.shiftRight_eq_div_pow]

theorem toNat_unpackMantissa (b : BitVec 64) :
    (@UnpackedFloat.unpackMantissa Format.binary64 b).toNat = b.toNat % 2 ^ 52 := by
  simp [UnpackedFloat.unpackMantissa, BitVec.extractLsb]

theorem toNat_unpackSign (b : BitVec 64) :
    (@UnpackedFloat.unpackSign Format.binary64 b).toNat = b.toNat / 2 ^ 63 := by
  have hb : b.toNat < 2 ^ 64 := b.isLt
  simp only [UnpackedFloat.unpackSign, BitVec.extractLsb, BitVec.toNat_cast,
    BitVec.extractLsb'_toNat, Nat.shiftRight_eq_div_pow]
  omega

theorem toNat_append {m n : Nat} (a : BitVec m) (b : BitVec n) :
    (a ++ b).toNat = a.toNat * 2 ^ n + b.toNat := by
  rw [BitVec.toNat_append, ← Nat.shiftLeft_add_eq_or_of_lt b.isLt, Nat.shiftLeft_eq]

theorem toNat_one_append (m : BitVec 52) : (1#1 ++ m).toNat = 2 ^ 52 + m.toNat := by
  rw [toNat_append]
  rfl

theorem toNat_packComponents (s : UnpackedFloat.Sign) (e : BitVec 11) (m : BitVec 52) :
    (UnpackedFloat.packComponents Format.binary64 s e m).toNat =
      s.toBitVec.toNat * 2 ^ 63 + e.toNat * 2 ^ 52 + m.toNat := by
  change ((s.toBitVec ++ e) ++ m : BitVec (1 + 11 + 52)).toNat = _
  rw [toNat_append, toNat_append]
  omega

theorem toBitVec_ofBitVec (b : BitVec 1) : (UnpackedFloat.Sign.ofBitVec b).toBitVec = b := by
  have h : b = 0#1 ∨ b = 1#1 := by
    rcases Nat.lt_or_ge b.toNat 1 with h | h
    · left; apply BitVec.eq_of_toNat_eq; simpa using h
    · right; apply BitVec.eq_of_toNat_eq; have := b.isLt; simp; omega
  rcases h with rfl | rfl <;> rfl

/-- The three fields make up the bits. -/
theorem packComponents_unpack (b : BitVec 64) :
    UnpackedFloat.packComponents Format.binary64
      (UnpackedFloat.Sign.ofBitVec (@UnpackedFloat.unpackSign Format.binary64 b))
      (@UnpackedFloat.unpackExponent Format.binary64 b)
      (@UnpackedFloat.unpackMantissa Format.binary64 b) = b := by
  have hb : b.toNat < 2 ^ 64 := b.isLt
  apply BitVec.eq_of_toNat_eq
  rw [toNat_packComponents, toBitVec_ofBitVec, toNat_unpackSign, toNat_unpackExponent,
    toNat_unpackMantissa]
  omega

theorem pack_subnormal (s : UnpackedFloat.Sign) (m : Nat) (hm : 0 < m) (h : m < 2 ^ 52) :
    UnpackedFloat.pack Format.binary64 (.finite s m (-1074) hm) =
      UnpackedFloat.packComponents Format.binary64 s 0 (BitVec.ofNat 52 m) := by
  have hlog : m.log2 < 52 := (Nat.log2_lt (by omega)).2 h
  unfold UnpackedFloat.pack
  rw [if_neg (by decide), if_neg (by change ¬ m.log2 + 1 = 53; omega)]
  rfl

theorem pack_normal (s : UnpackedFloat.Sign) (e : BitVec 11) (m : BitVec 52)
    (he : e.toNat < 2047) (hm : 0 < (1#1 ++ m).toNat) :
    UnpackedFloat.pack Format.binary64 (.finite s (1#1 ++ m).toNat (e.toNat - 1075) hm) =
      UnpackedFloat.packComponents Format.binary64 s e m := by
  have happend := toNat_one_append m
  have hlt : m.toNat < 2 ^ 52 := m.isLt
  have hlog : (1#1 ++ m).toNat.log2 = 52 := by
    rw [happend, Nat.log2_eq_iff (by omega)]
    omega
  have hbiased : ((e.toNat - 1075 : Int) + 1023 + 52).toNat = e.toNat := by omega
  have hmantissa : BitVec.ofNat 52 (1#1 ++ m).toNat = m := by
    apply BitVec.eq_of_toNat_eq
    rw [BitVec.toNat_ofNat, happend]
    omega
  unfold UnpackedFloat.pack
  change (if 2 ^ 11 ≤ ((e.toNat - 1075 : Int) + 1023 + 52).toNat + 1 then _
    else if (1#1 ++ m).toNat.log2 + 1 = 53 then
      UnpackedFloat.packComponents Format.binary64 s
        (BitVec.ofNat 11 ((e.toNat - 1075 : Int) + 1023 + 52).toNat)
        (BitVec.ofNat 52 (1#1 ++ m).toNat)
    else _) = _
  rw [hbiased, if_neg (by omega), if_pos (by rw [hlog]), hmantissa, BitVec.ofNat_toNat,
    BitVec.setWidth_eq]

/-- Bits whose exponent is full and whose mantissa is not zero are no number. -/
theorem isNaN_unpack_iff (b : BitVec 64) :
    (UnpackedFloat.unpack Format.binary64 b).isNaN = true ↔ infinityRank < b.toNat % signBit := by
  have hfull : @UnpackedFloat.unpackExponent Format.binary64 b = -1#11 ↔
      b.toNat / 2 ^ 52 % 2 ^ 11 = 2047 := by
    rw [← BitVec.toNat_inj, toNat_unpackExponent]
    rfl
  have hzero : @UnpackedFloat.unpackMantissa Format.binary64 b = 0#52 ↔
      b.toNat % 2 ^ 52 = 0 := by
    rw [← BitVec.toNat_inj, toNat_unpackMantissa]
    rfl
  unfold UnpackedFloat.unpack infinityRank signBit binadeSize
  dsimp only
  -- NaN is a full exponent with a mantissa that is not zero
  by_cases he : @UnpackedFloat.unpackExponent Format.binary64 b = -1#11
  · rw [if_pos he]
    have he' := hfull.1 he
    by_cases hm : @UnpackedFloat.unpackMantissa Format.binary64 b = 0#52
    · have hm' := hzero.1 hm
      rw [if_pos hm]
      simp only [UnpackedFloat.isNaN, Bool.false_eq_true, false_iff]
      omega
    · have hm' := mt hzero.2 hm
      rw [if_neg hm]
      simp only [UnpackedFloat.isNaN, true_iff]
      omega
  · have he' := mt hfull.2 he
    rw [if_neg he]
    constructor
    · intro h
      split at h
      · split at h <;> simp [UnpackedFloat.isNaN] at h
      · simp [UnpackedFloat.isNaN] at h
    · intro h
      omega

theorem pack_unpack (b : BitVec 64) (h : (UnpackedFloat.unpack Format.binary64 b).isNaN = false) :
    UnpackedFloat.pack Format.binary64 (UnpackedFloat.unpack Format.binary64 b) = b := by
  have hb := packComponents_unpack b
  have hbias : (Format.binary64.exponentBias : Int) = 1023 := rfl
  have hexp : (@UnpackedFloat.unpackExponent Format.binary64 b).toNat < 2 ^ 11 :=
    (@UnpackedFloat.unpackExponent Format.binary64 b).isLt
  have hmant : (@UnpackedFloat.unpackMantissa Format.binary64 b).toNat < 2 ^ 52 :=
    (@UnpackedFloat.unpackMantissa Format.binary64 b).isLt
  unfold UnpackedFloat.unpack at h ⊢
  dsimp only at h ⊢
  split
  -- a full exponent: infinity, for NaN is left out
  · rename_i he
    rw [if_pos he] at h
    split
    · rename_i hm
      rw [he, hm] at hb
      exact hb
    · rename_i hm
      rw [if_neg hm] at h
      simp [UnpackedFloat.isNaN] at h
  · rename_i he
    split
    · rename_i he0
      split
      · rename_i hm
        rw [he0, hm] at hb
        exact hb
      -- a subnormal has no leading one, so its mantissa is packed as it stands
      · rename_i hm
        rw [show ((@UnpackedFloat.unpackExponent Format.binary64 b).toNat : Int) -
          (Format.binary64.exponentBias + (52 : Nat)) + 1 = -1074 by rw [he0, hbias]; rfl,
          pack_subnormal _ _ _ hmant, BitVec.ofNat_toNat, BitVec.setWidth_eq]
        rw [he0] at hb
        exact hb
    · have he' : (@UnpackedFloat.unpackExponent Format.binary64 b).toNat ≠ 2047 := by
        intro hfull
        exact he (BitVec.eq_of_toNat_eq hfull)
      have hnormal := pack_normal
        (UnpackedFloat.Sign.ofBitVec (@UnpackedFloat.unpackSign Format.binary64 b))
        (@UnpackedFloat.unpackExponent Format.binary64 b)
        (@UnpackedFloat.unpackMantissa Format.binary64 b) (by omega)
        (by rw [toNat_one_append]; omega)
      exact hnormal.trans hb

theorem isNaN_eq_false_iff (v : Float) : v.isNaN = false ↔ rank v ≤ infinityRank := by
  have h := isNaN_unpack_iff v.toBits.toBitVec
  change v.isNaN = true ↔ infinityRank < rank v at h
  rw [← Bool.not_eq_true, h]
  omega

theorem toBits_ofBits (a : UInt64) (h : a.toNat % signBit ≤ infinityRank) :
    (Float.ofBits a).toBits = a := by
  have hnan : (UnpackedFloat.unpack Format.binary64 a.toBitVec).isNaN = false := by
    rw [← Bool.not_eq_true, isNaN_unpack_iff]
    exact Nat.not_lt.2 h
  exact UInt64.toBitVec_inj.1 (pack_unpack a.toBitVec hnan)

theorem toBits_injective {v w : Float} (h : v.toBits = w.toBits) : v = w := by
  obtain ⟨⟨a, ha⟩⟩ := v
  obtain ⟨⟨b, hb⟩⟩ := w
  change a = b at h
  subst h
  rfl

theorem toNat_toBits_ofRank (signed : Bool) {r : Nat} (hr : r ≤ infinityRank) :
    (ofRank signed r).toBits.toNat = (if signed then signBit else 0) + r := by
  have hlt : (if signed then signBit else 0) + r < 2 ^ 64 := by
    unfold infinityRank binadeSize at hr
    unfold signBit
    split <;> omega
  have hbits : (UInt64.ofNat ((if signed then signBit else 0) + r)).toNat =
      (if signed then signBit else 0) + r := UInt64.toNat_ofNat_of_lt' hlt
  have hrank : ((if signed then signBit else 0) + r) % signBit ≤ infinityRank := by
    unfold infinityRank binadeSize at hr ⊢
    unfold signBit
    split <;> omega
  rw [ofRank, toBits_ofBits _ (by rw [hbits]; exact hrank), hbits]

theorem rank_ofRank (signed : Bool) {r : Nat} (hr : r ≤ infinityRank) :
    rank (ofRank signed r) = r := by
  rw [rank, toNat_toBits_ofRank signed hr]
  unfold infinityRank binadeSize at hr
  unfold signBit
  split <;> omega

theorem isSigned_ofRank (signed : Bool) {r : Nat} (hr : r ≤ infinityRank) :
    isSigned (ofRank signed r) = signed := by
  rw [isSigned, toNat_toBits_ofRank signed hr]
  unfold infinityRank binadeSize at hr
  unfold signBit
  cases signed
  · simp
    omega
  · simp

theorem isNaN_ofRank (signed : Bool) {r : Nat} (hr : r ≤ infinityRank) :
    (ofRank signed r).isNaN = false := by
  rw [isNaN_eq_false_iff, rank_ofRank signed hr]
  exact hr

/-- A double that is not NaN is given by its sign and its rank. -/
theorem ofRank_isSigned_rank {v : Float} (h : v.isNaN = false) :
    ofRank (isSigned v) (rank v) = v := by
  have hr := (isNaN_eq_false_iff v).1 h
  have hlt : v.toBits.toNat < 2 ^ 64 := v.toBits.toNat_lt
  apply toBits_injective
  apply UInt64.toNat_inj.1
  rw [toNat_toBits_ofRank _ hr]
  unfold isSigned rank signBit
  by_cases hs : 0x8000000000000000 ≤ v.toBits.toNat
  · simp only [hs, decide_true, ↓reduceIte]
    omega
  · simp only [hs, decide_false, Bool.false_eq_true, ↓reduceIte]
    omega

theorem lt_iff_compare (a b : Float) :
    a < b ↔ a.toModel.unpack.compare b.toModel.unpack = some .lt := by
  change decide (a.toModel < b.toModel) = true ↔ _
  rw [decide_eq_true_iff]
  change (UnpackedFloat.compare _ _ == _) = true ↔ _
  rw [beq_iff_eq]

theorem le_iff_compare (a b : Float) :
    a ≤ b ↔ (a.toModel.unpack.compare b.toModel.unpack).any (·.isLE) = true := by
  change decide (a.toModel ≤ b.toModel) = true ↔ _
  rw [decide_eq_true_iff]
  rfl

theorem compare_self {u : UnpackedFloat} (h : u.isNaN = false) : u.compare u = some .eq := by
  cases u with
  | notANumber => simp [UnpackedFloat.isNaN] at h
  | infinity s => cases s <;> rfl
  | zero s => rfl
  | finite s m e hm => cases s <;> simp [UnpackedFloat.compare]

/-- Only NaN differs from itself. -/
theorem beq_self {v : Float} (h : v.isNaN = false) : (v == v) = true := by
  change (v.toModel.unpack.compare v.toModel.unpack == some .eq) = true
  rw [compare_self h]
  rfl

end PrefixArith.Binary64
