import PrefixArith.Numeral.Write
import PrefixArith.Proofs.Numeral.Reading

namespace PrefixArith
open Binary64

namespace Decimal

/-- A decimal with so few digits and so small a power that it is read without loss. -/
structure Moderate (d : Decimal) : Prop where
  length_le : (Nat.toDigits 10 d.digits).length ≤ 2100 + scale
  exponent_ge : -(scale : Int) ≤ d.exponent
  exponent_le : d.exponent ≤ 2048

theorem length_toDigits_le {u m n a b : Nat} (hu : u < 2 ^ a) (hm : m ≤ 10 ^ b)
    (hn : n ≤ u * m + 1) : (Nat.toDigits 10 n).length ≤ a + b + 1 := by
  rw [Nat.length_toDigits_le_iff (by decide) (by omega)]
  have hten : 2 ^ a ≤ 10 ^ a := Nat.pow_le_pow_left (by decide) a
  have hprod : u * m ≤ 10 ^ a * 10 ^ b := Nat.mul_le_mul (by omega) hm
  have hpos : 0 < 10 ^ (a + b) := Nat.pow_pos (by decide)
  rw [← Nat.pow_add] at hprod
  rw [Nat.pow_succ]
  omega

theorem length_toDigits_scaled {r m n : Nat} (hr : r < infinityRank) (hm : m ≤ 10 ^ scale)
    (hn : n ≤ units r * m + 1) : (Nat.toDigits 10 n).length ≤ 2100 + scale := by
  have hbinade : r / binadeSize ≤ 2046 := by
    unfold infinityRank at hr
    unfold binadeSize at hr ⊢
    omega
  have h := length_toDigits_le (units_lt_two_pow (Nat.le_refl (r / binadeSize))) hm hn
  omega

theorem moderate_exact {r : Nat} (hr : r < infinityRank) : (exact r).Moderate := by
  have hfive : Nat.pow 5 scale ≤ 10 ^ scale := Nat.pow_le_pow_left (by decide) scale
  refine ⟨length_toDigits_scaled hr hfive (Nat.le_succ _), Int.le_refl _, ?_⟩
  change -(scale : Int) ≤ 2048
  omega

theorem moderate_onGrid? {r : Nat} (hr : r < infinityRank) {e : Int} (he : -(scale : Int) ≤ e)
    (he' : e ≤ 2048) {d : Decimal} (h : onGrid? r e = some d) : d.Moderate := by
  have hten : Nat.pow 10 (-e).toNat ≤ 10 ^ scale := Nat.pow_le_pow_right (by decide) (by omega)
  have hsteps : stepsBelow r e ≤ units r * Nat.pow 10 (-e).toNat := Nat.div_le_self _ _
  rcases eq_of_onGrid? h with rfl | rfl
  · exact ⟨length_toDigits_scaled hr hten (Nat.le_succ_of_le hsteps), he, he'⟩
  · exact ⟨length_toDigits_scaled hr hten (Nat.succ_le_succ hsteps), he, he'⟩

theorem moderate_shortestFrom {r : Nat} (hr : r < infinityRank) (n : Nat) (hn : n ≤ 2048) :
    (shortestFrom r n).Moderate := by
  induction n with
  | zero => exact moderate_exact hr
  | succ n ih =>
    rw [shortestFrom]
    cases h : onGrid? r (n + 1 - scale) with
    | none => exact ih (by omega)
    | some d => exact moderate_onGrid? hr (by omega) (by omega) h

theorem moderate_shortest {r : Nat} (hr : r < infinityRank) : (shortest r).Moderate := by
  have hbits : digitCount (exact r).digits < 0 + 1 <<< 11 := (leastFrom_mem _ 11 0).2
  exact moderate_shortestFrom hr _ (by simp at hbits; omega)

end Decimal

namespace Numeral

theorem isDigit_replicate_zero (k : Nat) : ∀ c ∈ List.replicate k '0', c.isDigit = true := by
  intro c hc
  rw [List.eq_of_mem_replicate hc]
  decide

theorem stopsDigits_nil : StopsDigits [] := fun _ hc => by simp at hc

theorem stopsDigits_e (rest : List Char) : StopsDigits ('e' :: rest) := by
  intro c hc
  simp only [List.head?_cons, Option.mem_def, Option.some.injEq] at hc
  subst hc
  decide

/-- Zeros behind the digits are the power written out. -/
theorem nearest_mul_pow (n k : Nat) :
    (⟨10 ^ k * n, 0⟩ : Decimal).nearest = (⟨n, k⟩ : Decimal).nearest := by
  have h : (⟨10 ^ k * n, 0⟩ : Decimal).magnitude = (⟨n, k⟩ : Decimal).magnitude := by
    simp [Decimal.magnitude, Nat.mul_comm]
  rw [Decimal.nearest, h, Decimal.nearest]

section
variable {ds : List Char}

/-- Zeros between the point and the digits. -/
theorem decimal?_leading (hds : ∀ c ∈ ds, c.isDigit = true) (k : Nat) :
    decimal? ('0' :: '.' :: (List.replicate k '0' ++ ds)) =
      some ⟨Nat.ofDigitChars 10 ds 0, 0 - ((k + ds.length : Nat) : Int)⟩ := by
  have hps : ∀ c ∈ List.replicate k '0' ++ ds, c.isDigit = true := by
    intro c hc
    rcases List.mem_append.1 hc with hc | hc
    · exact isDigit_replicate_zero k c hc
    · exact hds c hc
  have h := @decimal?_point ['0'] _ [] (isDigit_replicate_zero 1) hps (by decide) stopsDigits_nil
  rw [List.append_nil, List.singleton_append, List.singleton_append] at h
  rw [h, exponent?, Option.map_some, Nat.ofDigitChars_cons, Nat.ofDigitChars_append,
    Nat.ofDigitChars_replicate_zero, List.length_append, List.length_replicate]
  rfl

/-- Zeros behind the digits. -/
theorem decimal?_trailing (hds : ∀ c ∈ ds, c.isDigit = true) (hne : ds ≠ []) (k : Nat) :
    decimal? (ds ++ List.replicate k '0') = some ⟨10 ^ k * Nat.ofDigitChars 10 ds 0, 0⟩ := by
  have hps : ∀ c ∈ ds ++ List.replicate k '0', c.isDigit = true := by
    intro c hc
    rcases List.mem_append.1 hc with hc | hc
    · exact hds c hc
    · exact isDigit_replicate_zero k c hc
  have h := @decimal?_whole _ [] hps (fun h => hne (List.append_eq_nil_iff.1 h).1)
    stopsDigits_nil (by simp)
  rw [List.append_nil] at h
  rw [h, exponent?, Option.map_some, Nat.ofDigitChars_append, Nat.ofDigitChars_replicate_zero]

/-- A point between the digits. -/
theorem decimal?_inner (hds : ∀ c ∈ ds, c.isDigit = true) {k : Nat} (hk : ds.take k ≠ [])
    {rest : List Char} (hrest : StopsDigits rest) :
    decimal? (ds.take k ++ '.' :: (ds.drop k ++ rest)) =
      (exponent? rest).map fun e =>
        ⟨Nat.ofDigitChars 10 ds 0, e - ((ds.length - k : Nat) : Int)⟩ := by
  have htake : ∀ c ∈ ds.take k, c.isDigit = true := fun c hc => hds c (List.mem_of_mem_take hc)
  have hdrop : ∀ c ∈ ds.drop k, c.isDigit = true := fun c hc => hds c (List.mem_of_mem_drop hc)
  rw [decimal?_point htake hdrop hk hrest, List.take_append_drop, List.length_drop]

theorem take_ne_nil {k : Nat} (hlen : 0 < ds.length) (hk : 0 < k) : ds.take k ≠ [] := by
  intro h
  have hlength := congrArg List.length h
  rw [List.length_take, List.length_nil] at hlength
  omega

end

theorem decimal?_positional (d : Decimal) :
    (decimal? (positional [] (Nat.toDigits 10 d.digits)
      ((Nat.toDigits 10 d.digits).length + d.exponent))).map Decimal.nearest = some d.nearest := by
  obtain ⟨n, e⟩ := d
  have hds := isDigit_toDigits n
  have hvalue : Nat.ofDigitChars 10 (Nat.toDigits 10 n) 0 = n := Nat.ofDigitChars_ten_toDigits
  have hlen : 0 < (Nat.toDigits 10 n).length := Nat.length_toDigits_pos
  dsimp only
  generalize Nat.toDigits 10 n = ds at hds hvalue hlen ⊢
  unfold positional
  -- the point stands before all digits, behind all of them, or among them
  by_cases hsmall : (ds.length : Int) + e ≤ 0
  · rw [if_pos hsmall]
    generalize hk : (-((ds.length : Int) + e)).toNat = k
    have hexp : (0 : Int) - ((k + ds.length : Nat) : Int) = e := by omega
    rw [decimal?_leading hds, hvalue, hexp, Option.map_some]
  · rw [if_neg hsmall]
    by_cases hwhole : ds.length ≤ ((ds.length : Int) + e).toNat
    · rw [if_pos hwhole, List.append_nil]
      generalize hk : ((ds.length : Int) + e).toNat - ds.length = k
      have hexp : e = (k : Int) := by omega
      rw [decimal?_trailing hds (List.ne_nil_of_length_pos hlen), hvalue, Option.map_some,
        nearest_mul_pow, hexp]
    · rw [if_neg hwhole]
      generalize hk : ((ds.length : Int) + e).toNat = k at hwhole ⊢
      have hexp : (0 : Int) - ((ds.length - k : Nat) : Int) = e := by omega
      have h := decimal?_inner hds (take_ne_nil hlen (by omega : 0 < k)) stopsDigits_nil
      rw [List.append_nil] at h
      rw [h, exponent?, Option.map_some, Option.map_some, hvalue, hexp]

theorem decimal?_scientific {d : Decimal} (h : d.Moderate) :
    decimal? (scientific ['+'] (Nat.toDigits 10 d.digits)
      ((Nat.toDigits 10 d.digits).length + d.exponent)) = some d := by
  have hlength := h.length_le
  have hge := h.exponent_ge
  have hle := h.exponent_le
  obtain ⟨n, e⟩ := d
  have hscale : scale = 1074 := by unfold scale; rfl
  have hds := isDigit_toDigits n
  have hvalue : Nat.ofDigitChars 10 (Nat.toDigits 10 n) 0 = n := Nat.ofDigitChars_ten_toDigits
  have hlen : 0 < (Nat.toDigits 10 n).length := Nat.length_toDigits_pos
  dsimp only at hlength hge hle ⊢
  generalize Nat.toDigits 10 n = ds at hds hvalue hlen hlength ⊢
  generalize hx : (ds.length : Int) + e - 1 = x
  -- the layout asks for the point and the reader for the power, which is one less
  have hpower : exponent? ('e' :: ((if (ds.length : Int) + e < 1 then ['-'] else ['+']) ++
      Nat.toDigits 10 x.natAbs)) = some x := by
    have hsign : ((ds.length : Int) + e < 1) = (x < 0) := propext (by omega)
    simp only [hsign]
    exact exponent?_e (by omega)
  unfold scientific
  rw [hx]
  by_cases hone : ds.length ≤ 1
  · have htake : ds.take 1 = ds := List.take_of_length_le hone
    rw [if_pos hone, htake, List.append_nil]
    have hne : ds ≠ [] := List.ne_nil_of_length_pos hlen
    rw [decimal?_whole hds hne (stopsDigits_e _) (by simp), hpower, Option.map_some, hvalue,
      show x = e by omega]
  · rw [if_neg hone]
    have hexp : x - ((ds.length - 1 : Nat) : Int) = e := by omega
    rw [List.append_assoc, List.cons_append,
      decimal?_inner hds (take_ne_nil hlen Nat.one_pos) (stopsDigits_e _), hpower,
      Option.map_some, hvalue, hexp]

theorem isInfinity_of_isDigit {c : Char} (hc : c.isDigit = true) (s : List Char) :
    isInfinity (c :: s) = false := by
  have hlower : c.toLower ≠ 'i' := by
    intro h
    have hupper : ¬ (c.val ≥ 'A'.val ∧ c.val ≤ 'Z'.val) := by
      intro hup
      have h9 := (Char.isDigit_iff_toNat.1 hc).2
      have hA : 'A'.toNat ≤ c.toNat := hup.1
      exact absurd (Nat.le_trans hA h9) (by decide)
    rw [Char.toLower, dif_neg hupper] at h
    rw [h] at hc
    exact absurd hc (by decide)
  simp [isInfinity, hlower]

theorem exists_digit_layout (r : Nat) (d : Decimal) :
    ∃ c s, Style.literal.layout r d = c :: s ∧ c.isDigit = true := by
  have hds := isDigit_toDigits d.digits
  have hlen : 0 < (Nat.toDigits 10 d.digits).length := Nat.length_toDigits_pos
  unfold Style.layout positional scientific
  dsimp only
  generalize Nat.toDigits 10 d.digits = ds at hds hlen ⊢
  obtain ⟨c, t, rfl⟩ := List.exists_cons_of_length_pos hlen
  have hc : c.isDigit = true := hds c List.mem_cons_self
  split
  · split
    · exact ⟨'0', _, rfl, by decide⟩
    · split
      · exact ⟨c, _, rfl, hc⟩
      · rename_i hpoint _
        obtain ⟨k, hk⟩ : ∃ k, (((c :: t).length : Int) + d.exponent).toNat = k + 1 :=
          Nat.exists_eq_succ_of_ne_zero (by omega)
        rw [hk]
        exact ⟨c, _, rfl, hc⟩
  · exact ⟨c, _, rfl, hc⟩

theorem exists_unsigned_magnitude (r : Nat) :
    ∃ c s, Style.literal.magnitude r = c :: s ∧ c ≠ '+' ∧ c ≠ '-' := by
  unfold Style.magnitude
  split
  · exact ⟨'I', _, rfl, by decide, by decide⟩
  · split
    · exact ⟨'0', _, rfl, by decide, by decide⟩
    · obtain ⟨c, s, hcs, hc⟩ := exists_digit_layout r (Decimal.shortest r)
      refine ⟨c, s, hcs, ?_, ?_⟩
      · rintro rfl
        exact absurd hc (by decide)
      · rintro rfl
        exact absurd hc (by decide)

theorem rank?_layout (r : Nat) {d : Decimal} (hd : d.Moderate) :
    rank? (Style.literal.layout r d) = some d.nearest := by
  obtain ⟨c, s, hcs, hc⟩ := exists_digit_layout r d
  have hdecimal : (decimal? (Style.literal.layout r d)).map Decimal.nearest = some d.nearest := by
    unfold Style.layout
    dsimp only
    split
    · exact decimal?_positional d
    · exact congrArg (Option.map Decimal.nearest) (decimal?_scientific hd)
  rw [rank?, if_neg (by rw [hcs, isInfinity_of_isDigit hc]; decide), hdecimal]

/-- A magnitude reads back, zero and infinity among them. -/
theorem rank?_magnitude {r : Nat} (hr : r ≤ infinityRank) :
    rank? (Style.literal.magnitude r) = some r := by
  unfold Style.magnitude
  split
  · rename_i hinf
    rw [hinf]
    decide +kernel
  · split
    · rename_i hzero
      rw [hzero]
      decide +kernel
    · have hlt : r < infinityRank := by omega
      rw [rank?_layout r (Decimal.moderate_shortest hlt), Decimal.nearest_shortest hlt]

theorem ofCharacters?_magnitude {r : Nat} (hr : r ≤ infinityRank) :
    ofCharacters? (Style.literal.magnitude r) = some (ofRank false r) := by
  have hrank := rank?_magnitude hr
  obtain ⟨c, s, hcs, hplus, hminus⟩ := exists_unsigned_magnitude r
  rw [hcs] at hrank ⊢
  unfold ofCharacters?
  split
  · rename_i h
    exact absurd (List.cons.inj h).1 hplus
  · rename_i h
    exact absurd (List.cons.inj h).1 hminus
  · rw [hrank, Option.map_some]

def dropZeroSign (v : Float) : Float := if v = -0.0 then 0.0 else v

theorem dropZeroSign_of_ne {v : Float} (h : v ≠ -0.0) : dropZeroSign v = v := if_neg h

/-- The numeral of a double that is not NaN reads back, but for the sign of a zero. -/
theorem read?_write {v : Float} (h : v.isNaN = false) :
    read? (write .literal v) = some (dropZeroSign v) := by
  have hr := (isNaN_eq_false_iff v).1 h
  have hv := ofRank_isSigned_rank h
  have hnegZero : (-0.0 : Float) = ofRank true 0 := by decide +kernel
  have hzero : (0.0 : Float) = ofRank false 0 := by decide +kernel
  rw [read?, write, String.toList_ofList, Style.characters, if_neg (by rw [h]; decide)]
  by_cases hs : isSigned v = true
  -- of a negative number only the zero is written without its sign
  · by_cases hz : rank v = 0
    · have hneg : v = -0.0 := by rw [← hv, hs, hz, hnegZero]
      rw [if_neg (by simp [hz, Style.literal]), ofCharacters?_magnitude hr, dropZeroSign,
        if_pos hneg, hz, hzero]
    · have hne : v ≠ -0.0 := by
        intro heq
        apply hz
        rw [heq, hnegZero]
        exact rank_ofRank true (Nat.zero_le _)
      rw [if_pos ⟨hs, Or.inl hz⟩, ofCharacters?, rank?_magnitude hr, Option.map_some,
        dropZeroSign_of_ne hne]
      exact congrArg some (by rw [← hs, hv])
  · have hne : v ≠ -0.0 := by
      intro heq
      apply hs
      rw [heq, hnegZero]
      exact isSigned_ofRank true (Nat.zero_le _)
    rw [if_neg (by simp [hs]), ofCharacters?_magnitude hr, dropZeroSign_of_ne hne]
    exact congrArg some (by rw [← Bool.eq_false_iff.2 hs, hv])

end Numeral

end PrefixArith
