import PrefixArith.Numeral.Literal
import PrefixArith.Proofs.Binary64.Order
import PrefixArith.Proofs.Decimal.Digits
import PrefixArith.Proofs.Numeral.Reading

namespace PrefixArith.Numeral
open Binary64

theorem rank_least : rank 1e-6 = Style.literal.least.nearest := by
  decide +kernel

theorem rank_bound : rank 1e21 = Style.literal.bound.nearest := by
  decide +kernel

theorem positional_iff {r : Nat} (hr : r < infinityRank) (hpos : r ≠ 0) :
    Style.literal.least.nearest ≤ r ∧ r < Style.literal.bound.nearest ↔
      -6 < (Decimal.shortest r).point ∧ (Decimal.shortest r).point ≤ 21 := by
  have hleast : Style.literal.least.nearest ≤ r ↔ -6 < (Decimal.shortest r).point :=
    Decimal.nearest_pow_le_iff hr hpos (by decide +kernel)
  have hbound : Style.literal.bound.nearest ≤ r ↔ 21 < (Decimal.shortest r).point :=
    Decimal.nearest_pow_le_iff hr hpos (by decide +kernel)
  rw [hleast, ← Nat.not_le, hbound, Int.not_lt]

/-- The comparisons of a magnitude with the bounds say where the point of its shortest digits is. -/
theorem inRange_iff {v : Float} (h : v.isNaN = false) (hr : rank v < infinityRank)
    (hpos : rank v ≠ 0) : (1e-6 ≤ v.abs ∧ v.abs < 1e21) ↔
      -6 < (Decimal.shortest (rank v)).point ∧ (Decimal.shortest (rank v)).point ≤ 21 := by
  have hsigned := isSigned_ofRank false hr.le
  have hrank := rank_ofRank false hr.le
  have hle : rank (ofRank false (rank v)) ≤ infinityRank := hrank.trans_le hr.le
  have hleast : 1e-6 ≤ v.abs ↔ Style.literal.least.nearest ≤ rank v := by
    rw [abs_eq_ofRank h, le_iff_rank_le (by decide +kernel) hsigned (by decide +kernel) hle, hrank,
      rank_least]
  have hbound : v.abs < 1e21 ↔ rank v < Style.literal.bound.nearest := by
    rw [abs_eq_ofRank h, lt_iff_rank_lt hsigned (by decide +kernel) hle (by decide +kernel), hrank,
      rank_bound]
  rw [hleast, hbound]
  exact positional_iff hr hpos

/-- How digits are laid out around their point: with zeros behind them, with a point between them or
with zeros before them, and with a power of ten if the point is too far off. -/
def spell (digits : List Char) (point : Int) : List Char :=
  if digits.length ≤ point ∧ point ≤ 21 then
    digits ++ List.replicate (point - digits.length).toNat '0'
  else if 0 < point ∧ point ≤ 21 then
    digits.take point.toNat ++ '.' :: digits.drop point.toNat
  else if -6 < point ∧ point ≤ 0 then
    '0' :: '.' :: (List.replicate (-point).toNat '0' ++ digits)
  else
    digits.take 1 ++ (if 1 < digits.length then '.' :: digits.drop 1 else []) ++
      'e' :: (if point - 1 < 0 then '-' else '+') :: Nat.toDigits 10 (point - 1).natAbs

theorem positional_eq_spell {digits : List Char} {point : Int} (hne : digits ≠ [])
    (hlow : -6 < point) (hhigh : point ≤ 21) : positional [] digits point = spell digits point := by
  have hlength := List.length_pos_of_ne_nil hne
  unfold positional spell
  by_cases hsmall : point ≤ 0
  · rw [if_pos hsmall, if_neg (by omega), if_neg (by omega), if_pos ⟨hlow, hsmall⟩]
  · rw [if_neg hsmall]
    by_cases hwhole : digits.length ≤ point.toNat
    · have hzeros : point.toNat - digits.length = (point - digits.length).toNat := by omega
      rw [if_pos hwhole, if_pos ⟨by omega, hhigh⟩, List.append_nil, hzeros]
    · rw [if_neg hwhole, if_neg (by omega), if_pos ⟨by omega, hhigh⟩]

theorem scientific_eq_spell {digits : List Char} {point : Int}
    (hfar : ¬(-6 < point ∧ point ≤ 21)) : scientific ['+'] digits point = spell digits point := by
  have hplaces : (if digits.length ≤ 1 then [] else '.' :: digits.drop 1) =
      if 1 < digits.length then '.' :: digits.drop 1 else [] := by
    by_cases hone : digits.length ≤ 1
    · rw [if_pos hone, if_neg (by omega)]
    · rw [if_neg hone, if_pos (by omega)]
  have hsign : (if point < 1 then ['-'] else ['+']) = [if point - 1 < 0 then '-' else '+'] := by
    by_cases hnegative : point < 1
    · rw [if_pos hnegative, if_pos (by omega)]
    · rw [if_neg hnegative, if_neg (by omega)]
  have hwhole : ¬(digits.length ≤ point ∧ point ≤ 21) := by omega
  have hinner : ¬(0 < point ∧ point ≤ 21) := by omega
  have hleading : ¬(-6 < point ∧ point ≤ 0) := by omega
  unfold scientific spell
  rw [hplaces, hsign, if_neg hwhole, if_neg hinner, if_neg hleading, List.singleton_append]

/-- Neither NaN nor a zero: a minus where the number is negative, and then its magnitude. -/
theorem characters_of_rank_ne_zero (style : Style) {v : Float} (h : v.isNaN = false)
    (hpos : rank v ≠ 0) :
    style.characters v = (if v < 0 then ['-'] else []) ++ style.magnitude (rank v) := by
  have hsign := lt_zero_iff h
  unfold Style.characters
  rw [if_neg (by rw [h]; decide)]
  by_cases hs : isSigned v = true
  · rw [if_pos ⟨hs, Or.inl hpos⟩, if_pos (hsign.2 ⟨hs, hpos⟩)]
    rfl
  · rw [if_neg fun hcond => hs hcond.1, if_neg fun hlt => hs (hsign.1 hlt).1]
    rfl

section
variable {style : Style} {r : Nat} {d : Decimal}

theorem layout_eq_positional (h : style.least.nearest ≤ r ∧ r < style.bound.nearest) :
    style.layout r d = positional style.tail (Nat.toDigits 10 d.digits) d.point :=
  if_pos h

theorem layout_eq_scientific (h : ¬(style.least.nearest ≤ r ∧ r < style.bound.nearest)) :
    style.layout r d = scientific style.plus (Nat.toDigits 10 d.digits) d.point :=
  if_neg h

variable (hr : r < infinityRank) (hpos : r ≠ 0)
include hr hpos

theorem magnitude_eq_layout (style : Style) :
    style.magnitude r = style.layout r (Decimal.shortest r) := by
  rw [Style.magnitude, if_neg hr.ne, if_neg hpos]

theorem magnitude_literal : Style.literal.magnitude r =
    spell (Nat.toDigits 10 (Decimal.shortest r).digits) (Decimal.shortest r).point := by
  have hrange := positional_iff hr hpos
  rw [magnitude_eq_layout hr hpos]
  by_cases hin : -6 < (Decimal.shortest r).point ∧ (Decimal.shortest r).point ≤ 21
  · rw [layout_eq_positional (hrange.2 hin)]
    exact positional_eq_spell Nat.toDigits_ne_nil hin.1 hin.2
  · rw [layout_eq_scientific (mt hrange.1 hin)]
    exact scientific_eq_spell hin

theorem magnitude_plain : Style.plain.magnitude r =
    positional [] (Nat.toDigits 10 (Decimal.shortest r).digits) (Decimal.shortest r).point := by
  have hleast : Style.plain.least.nearest = 0 := by decide +kernel
  have hbound : Style.plain.bound.nearest = infinityRank := by decide +kernel
  rw [magnitude_eq_layout hr hpos]
  apply layout_eq_positional
  rw [hleast, hbound]
  exact ⟨Nat.zero_le r, hr⟩

theorem magnitude_exponential : Style.exponential.magnitude r =
    scientific [] (Nat.toDigits 10 (Decimal.shortest r).digits) (Decimal.shortest r).point := by
  have hleast : Style.exponential.least.nearest = infinityRank := by decide +kernel
  rw [magnitude_eq_layout hr hpos]
  apply layout_eq_scientific
  rw [hleast]
  exact fun h => absurd h.1 (Nat.not_le_of_lt hr)

end

theorem splitOnce?_append {c : Char} {front : List Char} (h : ∀ x ∈ front, x ≠ c)
    (behind : List Char) : splitOnce? c (front ++ c :: behind) = some (front, behind) := by
  have hfront : ∀ x ∈ front, (x != c) = true := fun x hx => bne_iff_ne.2 (h x hx)
  have hc : ¬(c != c) = true := by simp
  have hdrop : (front ++ c :: behind).dropWhile (· != c) = c :: behind := by
    rw [List.dropWhile_append_of_pos hfront]
    exact List.dropWhile_cons_of_neg hc
  have htake : (front ++ c :: behind).takeWhile (· != c) = front := by
    have hstop : (c :: behind).takeWhile (· != c) = [] := List.takeWhile_cons_of_neg hc
    rw [List.takeWhile_append_of_pos hfront, hstop, List.append_nil]
  rw [splitOnce?, hdrop, htake]

theorem withPlus_append {front power : List Char} (hfront : ∀ c ∈ front, c ≠ 'e') :
    withPlus (front ++ 'e' :: power) =
      front ++ 'e' :: (if power.head? = some '-' then power else '+' :: power) := by
  rw [withPlus, splitOnce?_append hfront]
  dsimp only
  split <;> rfl

theorem withPlus_scientific {front digits : List Char} (point : Int) (hfront : ∀ c ∈ front, c ≠ 'e')
    (hdigits : ∀ c ∈ digits, c.isDigit = true) :
    withPlus (front ++ scientific [] digits point) = front ++ scientific ['+'] digits point := by
  have he : ∀ c, c.isDigit = true → c ≠ 'e' := by
    rintro c hc rfl
    exact absurd hc (by decide)
  -- nothing before the power contains an `e`, so it is the power that gets the plus
  have hmantissa : ∀ c ∈ front ++ (digits.take 1 ++
      if digits.length ≤ 1 then [] else '.' :: digits.drop 1), c ≠ 'e' := by
    intro c hc
    rcases List.mem_append.1 hc with hc | hc
    · exact hfront c hc
    · rcases List.mem_append.1 hc with hc | hc
      · exact he c (hdigits c (List.mem_of_mem_take hc))
      · split at hc
        · cases hc
        · rcases List.mem_cons.1 hc with rfl | hc
          · decide
          · exact he c (hdigits c (List.mem_of_mem_drop hc))
  have hhead : (Nat.toDigits 10 (point - 1).natAbs).head? ≠ some '-' := by
    intro hhead
    have hminus := isDigit_toDigits _ '-' (List.mem_of_mem_head? hhead)
    exact absurd hminus (by decide)
  unfold scientific
  rw [← List.append_assoc, withPlus_append hmantissa, List.append_assoc]
  by_cases hnegative : point < 1
  · rw [if_pos hnegative, if_pos hnegative, List.singleton_append, List.head?_cons, if_pos rfl]
  · rw [if_neg hnegative, if_neg hnegative, List.nil_append, if_neg hhead, List.singleton_append]

/-- The digits of a double with the place of their point: `k` digits `s`, as few as possible, such
that `s · 10^(n - k)` rounds to the double. -/
structure ShortestDigits (rank s k : Nat) (n : Int) : Prop where
  pos : 0 < k
  pow_le : 10 ^ (k - 1) ≤ s
  lt_pow : s < 10 ^ k
  nearest : (⟨s, n - k⟩ : Decimal).nearest = rank
  fewest : ∀ d : Decimal, d.nearest = rank → 10 ^ (k - 1) ≤ d.digits

theorem ShortestDigits.of_decimal {r : Nat} {d : Decimal} (hnearest : d.nearest = r)
    (hdigits : 0 < d.digits)
    (hfewest : ∀ d' : Decimal, d'.nearest = r → ∀ j, 10 ^ j ≤ d.digits → 10 ^ j ≤ d'.digits) :
    ShortestDigits r d.digits d.length d.point := by
  have hpow := Decimal.pow_length_le_digits hdigits
  have hexponent : d.point - d.length = d.exponent := by
    unfold Decimal.point
    omega
  refine ⟨d.length_pos, hpow, d.digits_lt_pow_length, ?_, fun d' hd' => hfewest d' hd' _ hpow⟩
  rw [hexponent]
  exact hnearest

theorem shortestDigits_shortest {r : Nat} (hr : r < infinityRank) (hpos : r ≠ 0) :
    ShortestDigits r (Decimal.shortest r).digits (Decimal.shortest r).length
      (Decimal.shortest r).point := by
  have hshort := Decimal.nearest_shortest hr
  exact .of_decimal hshort (Decimal.digits_pos_of_nearest hshort hpos)
    fun d' hd' j hj => Decimal.pow_le_digits hr hpos hd' hj

theorem write_of_isInf {v : Float} (h : v.isInf = true) :
    write .literal v = if v < 0 then "-Infinity" else "Infinity" := by
  have hrank := (isInf_iff v).1 h
  have hnan : v.isNaN = false := (isNaN_eq_false_iff v).2 hrank.le
  have hpos : rank v ≠ 0 := by
    rw [hrank]
    decide
  rw [write, characters_of_rank_ne_zero _ hnan hpos, hrank, Style.magnitude, if_pos rfl]
  by_cases hneg : v < 0
  · rw [if_pos hneg, if_pos hneg]
    rfl
  · rw [if_neg hneg, if_neg hneg]
    rfl

theorem write_of_beq_zero {v : Float} (h : (v == 0) = true) : write .literal v = "0" := by
  have hrank := (beq_zero_iff v).1 h
  have hnan : v.isNaN = false := by
    rw [isNaN_eq_false_iff, hrank]
    exact Nat.zero_le _
  have hplain : ¬(isSigned v = true ∧ (rank v ≠ 0 ∨ Style.literal.signedZero = true)) := by
    rintro ⟨-, hne | hsigned⟩
    · exact hne hrank
    · cases hsigned
  have hmagnitude : Style.literal.magnitude 0 = ['0'] := by decide
  rw [write, Style.characters, if_neg (by rw [hnan]; decide), if_neg hplain, hrank, hmagnitude]

section
variable {v : Float} (hnan : v.isNaN = false) (hr : rank v < infinityRank) (hpos : rank v ≠ 0)
include hnan hr hpos

theorem write_of_finite : write .literal v =
    String.ofList ((if v < 0 then ['-'] else []) ++
      spell (Nat.toDigits 10 (Decimal.shortest (rank v)).digits)
        (Decimal.shortest (rank v)).point) := by
  rw [write, characters_of_rank_ne_zero _ hnan hpos, magnitude_literal hr hpos]

theorem write_plain_of_inRange (hrange : 1e-6 ≤ v.abs ∧ v.abs < 1e21) :
    write .plain v = write .literal v := by
  obtain ⟨hlow, hhigh⟩ := (inRange_iff hnan hr hpos).1 hrange
  rw [write_of_finite hnan hr hpos, write, characters_of_rank_ne_zero _ hnan hpos,
    magnitude_plain hr hpos, positional_eq_spell Nat.toDigits_ne_nil hlow hhigh]

theorem withPlus_of_not_inRange (hrange : ¬(1e-6 ≤ v.abs ∧ v.abs < 1e21)) :
    String.ofList (withPlus (Style.exponential.characters v)) = write .literal v := by
  have hfar := mt (inRange_iff hnan hr hpos).2 hrange
  have hsign : ∀ c ∈ if v < 0 then ['-'] else [], c ≠ 'e' := by
    split <;> simp
  rw [write_of_finite hnan hr hpos, characters_of_rank_ne_zero _ hnan hpos,
    magnitude_exponential hr hpos, withPlus_scientific _ hsign (isDigit_toDigits _),
    scientific_eq_spell hfar]

end

theorem rank_lt_of_isFinite {v : Float} (h : v.isFinite = true) :
    v.isNaN = false ∧ rank v < infinityRank := by
  have hr := (isFinite_iff v).1 h
  exact ⟨(isNaN_eq_false_iff v).2 hr.le, hr⟩

/-- Choosing the form by comparing doubles comes to the same. -/
theorem literal_eq_write (v : Float) : literal v = write .literal v := by
  unfold literal
  by_cases hinf : v.isInf = true
  · rw [if_pos hinf, write_of_isInf hinf]
  rw [if_neg hinf]
  by_cases hzero : (v == 0) = true
  · rw [if_pos hzero, write_of_beq_zero hzero]
  rw [if_neg hzero]
  by_cases hnan : v.isNaN = true
  · have hout : ¬(1e-6 ≤ v.abs ∧ v.abs < 1e21) := fun h => not_le_of_isNaN (isNaN_abs hnan) h.1
    rw [if_neg hout, write_of_isNaN hnan, Style.characters, if_pos hnan]
    decide
  have hnan' : v.isNaN = false := by simpa using hnan
  have hpos : rank v ≠ 0 := mt (beq_zero_iff v).2 hzero
  have hr : rank v < infinityRank :=
    Nat.lt_of_le_of_ne ((isNaN_eq_false_iff v).1 hnan') (mt (isInf_iff v).2 hinf)
  by_cases hrange : 1e-6 ≤ v.abs ∧ v.abs < 1e21
  · rw [if_pos hrange, write_plain_of_inRange hnan' hr hpos hrange]
  · rw [if_neg hrange, withPlus_of_not_inRange hnan' hr hpos hrange]

/-- What is written for every double. Apart from NaN, zeros and infinities it is a minus where the
number is negative and then its shortest digits around their point; a power of ten is written
exactly if the magnitude is below 1e-6 or reaches 1e21 as doubles compare. -/
theorem write_literal (v : Float) :
    literal v = write .literal v ∧
    (v.isNaN = true → write .literal v = "NaN") ∧
    ((v == 0) = true → write .literal v = "0") ∧
    (v.isInf = true → write .literal v = if v < 0 then "-Infinity" else "Infinity") ∧
    (v.isFinite = true → (v == 0) = false → ∃ s k n, ShortestDigits (rank v) s k n ∧
      ((1e-6 ≤ v.abs ∧ v.abs < 1e21) ↔ -6 < n ∧ n ≤ 21) ∧
      write .literal v =
        String.ofList ((if v < 0 then ['-'] else []) ++ spell (Nat.toDigits 10 s) n)) := by
  refine ⟨literal_eq_write v, write_of_isNaN, write_of_beq_zero, write_of_isInf, ?_⟩
  intro hfinite hzero
  obtain ⟨hnan, hr⟩ := rank_lt_of_isFinite hfinite
  have hpos : rank v ≠ 0 := by
    intro h
    rw [(beq_zero_iff v).2 h] at hzero
    cases hzero
  exact ⟨_, _, _, shortestDigits_shortest hr hpos, inRange_iff hnan hr hpos,
    write_of_finite hnan hr hpos⟩

/-- Just below the least magnitude that is written without a power of ten. -/
theorem write_literal_below_least :
    let v : Float := -9.999999999999997e-7
    v.isFinite = true ∧ (v == 0) = false ∧ write .literal v = "-9.999999999999997e-7" ∧
      ∃ s k n, ShortestDigits (rank v) s k n ∧ ¬(-6 < n ∧ n ≤ 21) := by
  intro v
  have hfinite : v.isFinite = true := by decide +kernel
  have hzero : (v == 0) = false := by decide +kernel
  have hsmall : ¬1e-6 ≤ v.abs := by decide +kernel
  obtain ⟨-, -, -, -, hdigits⟩ := write_literal v
  obtain ⟨s, k, n, hshortest, hrange, -⟩ := hdigits hfinite hzero
  refine ⟨hfinite, hzero, by decide +kernel, s, k, n, hshortest, ?_⟩
  exact fun h => hsmall (hrange.2 h).1

end PrefixArith.Numeral
