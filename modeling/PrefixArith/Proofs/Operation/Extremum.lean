import PrefixArith.Operation.Extremum
import PrefixArith.Proofs.Binary64.Order

namespace PrefixArith.Extremum
open Binary64

variable {side : Extremum} {a b c r : Float} {xs ys : List Float}

/-- How far a double is from the middle of the order, counted towards the other end. -/
def distance : Extremum → Float → Int
  | least, v => signedRank v
  | greatest, v => -signedRank v

def place (side : Extremum) (v : Float) : WithBot Int :=
  if v.isNaN then ⊥ else side.distance v

theorem place_of_isNaN (h : a.isNaN = true) : side.place a = ⊥ := if_pos h

theorem place_of_not_isNaN (h : a.isNaN = false) : side.place a = side.distance a :=
  if_neg (Bool.eq_false_iff.1 h)

theorem place_eq_bot_iff (side : Extremum) : side.place a = ⊥ ↔ a.isNaN = true := by
  cases h : a.isNaN with
  | true => simp only [place_of_isNaN h]
  | false => simp [place_of_not_isNaN h]

theorem isNaN_eq_of_place_eq (h : side.place a = side.place b) : a.isNaN = b.isNaN := by
  rw [Bool.eq_iff_iff, ← side.place_eq_bot_iff, h, side.place_eq_bot_iff]

section
variable (side) (ha : a.isNaN = false) (hb : b.isNaN = false)
include ha hb

theorem reaches_iff_place_le : side.Reaches a b ↔ side.place a ≤ side.place b := by
  rw [place_of_not_isNaN ha, place_of_not_isNaN hb, WithBot.coe_le_coe]
  cases side with
  | least => exact le_iff_signedRank_le ha hb
  | greatest => exact (le_iff_signedRank_le hb ha).trans neg_le_neg_iff.symm

theorem beq_iff_place_eq : (a == b) = true ↔ side.place a = side.place b := by
  rw [place_of_not_isNaN ha, place_of_not_isNaN hb, WithBot.coe_inj]
  cases side with
  | least => exact beq_iff_signedRank_eq ha hb
  | greatest => exact (beq_iff_signedRank_eq ha hb).trans neg_inj.symm

end

theorem isNaN_start (side : Extremum) : side.start.isNaN = false := by
  cases side <;> exact isNaN_ofRank _ (Nat.le_refl _)

/-- No place is behind that of the infinity at the other end. -/
theorem place_le_start (side : Extremum) (v : Float) : side.place v ≤ side.place side.start := by
  cases h : v.isNaN with
  | true =>
    rw [place_of_isNaN h]
    exact bot_le
  | false =>
    have hr : rank v < infinityRank + 1 := Nat.lt_succ_of_le ((isNaN_eq_false_iff v).1 h)
    obtain ⟨hlow, hhigh⟩ := withSign_between (isSigned v) hr
    rw [place_of_not_isNaN h, place_of_not_isNaN side.isNaN_start, WithBot.coe_le_coe]
    cases side with
    | least =>
      change signedRank v ≤ signedRank (ofRank false infinityRank)
      rw [signedRank_ofRank false (Nat.le_refl _)]
      exact Int.lt_add_one_iff.1 hhigh
    | greatest =>
      change -signedRank v ≤ -signedRank (ofRank true infinityRank)
      rw [signedRank_ofRank true (Nat.le_refl _)]
      change -withSign (isSigned v) (rank v) ≤ -(-(infinityRank : Int))
      push_cast at hlow
      omega

theorem Keeps.place_eq (h : side.Keeps a b c) :
    side.place c = min (side.place a) (side.place b) := by
  cases h with
  | nan hnan hc =>
    rw [place_of_isNaN hc]
    rcases hnan with ha | hb
    · rw [place_of_isNaN ha, min_bot_left]
    · rw [place_of_isNaN hb, min_bot_right]
  | nearer ha hb heither hleft hright =>
    have hc : c.isNaN = false :=
      heither.elim (fun h => (isNaN_eq_false_of_beq h).1) fun h => (isNaN_eq_false_of_beq h).1
    have hboth : side.place c ≤ min (side.place a) (side.place b) :=
      le_min ((side.reaches_iff_place_le hc ha).1 hleft)
        ((side.reaches_iff_place_le hc hb).1 hright)
    rcases heither with heq | heq
    · rw [side.beq_iff_place_eq hc ha] at heq
      exact le_antisymm hboth (heq ▸ min_le_left _ _)
    · rw [side.beq_iff_place_eq hc hb] at heq
      exact le_antisymm hboth (heq ▸ min_le_right _ _)

def nearestPlace (side : Extremum) (xs : List Float) : WithBot Int :=
  xs.foldr (fun x m => min (side.place x) m) (side.place side.start)

theorem nearestPlace_cons (side : Extremum) (x : Float) (xs : List Float) :
    side.nearestPlace (x :: xs) = min (side.place x) (side.nearestPlace xs) := rfl

theorem nearestPlace_le_start (side : Extremum) (xs : List Float) :
    side.nearestPlace xs ≤ side.place side.start := by
  cases xs with
  | nil => exact le_refl _
  | cons x xs => exact (min_le_left _ _).trans (place_le_start side x)

theorem nearestPlace_singleton (side : Extremum) (x : Float) :
    side.nearestPlace [x] = side.place x :=
  min_eq_left (place_le_start side x)

theorem nearestPlace_append (side : Extremum) (xs ys : List Float) :
    side.nearestPlace (xs ++ ys) = min (side.nearestPlace xs) (side.nearestPlace ys) := by
  induction xs with
  | nil => exact (min_eq_right (nearestPlace_le_start side ys)).symm
  | cons x xs ih => rw [List.cons_append, nearestPlace_cons, nearestPlace_cons, ih, min_assoc]

theorem nearestPlace_perm (h : xs.Perm ys) : side.nearestPlace xs = side.nearestPlace ys := by
  have hcomm : LeftCommutative fun (x : Float) (m : WithBot Int) => min (side.place x) m :=
    ⟨fun x y m => min_left_comm (side.place x) (side.place y) m⟩
  exact h.foldr_eq _

theorem nearestPlace_le_of_mem {x : Float} (h : x ∈ xs) : side.nearestPlace xs ≤ side.place x := by
  obtain ⟨before, after, rfl⟩ := List.append_of_mem h
  rw [nearestPlace_append, nearestPlace_cons]
  exact (min_le_right _ _).trans (min_le_left _ _)

theorem exists_mem_nearestPlace (side : Extremum) (h : xs ≠ []) :
    ∃ x ∈ xs, side.nearestPlace xs = side.place x := by
  induction xs with
  | nil => exact absurd rfl h
  | cons x xs ih =>
    by_cases hxs : xs = []
    · subst hxs
      exact ⟨x, List.mem_cons_self, nearestPlace_singleton side x⟩
    · obtain ⟨y, hy, hnearest⟩ := ih hxs
      rw [nearestPlace_cons]
      rcases min_choice (side.place x) (side.nearestPlace xs) with hmin | hmin
      · exact ⟨x, List.mem_cons_self, hmin⟩
      · exact ⟨y, List.mem_cons_of_mem _ hy, hmin.trans hnearest⟩

theorem KeepsAll.place_eq (h : side.KeepsAll a xs r) :
    side.place r = min (side.place a) (side.nearestPlace xs) := by
  induction h with
  | nil a => exact (min_eq_left (place_le_start side a)).symm
  | cons hstep _ ih => rw [ih, hstep.place_eq, nearestPlace_cons, min_assoc]

/-- Whichever result operands have, its place is the least of theirs. -/
theorem Gives.place_eq (h : side.Gives xs r) : side.place r = side.nearestPlace xs :=
  (KeepsAll.place_eq h).trans (min_eq_right (nearestPlace_le_start side xs))

theorem Gives.isNaN_iff (h : side.Gives xs r) :
    r.isNaN = true ↔ ∃ x ∈ xs, x.isNaN = true := by
  rw [← side.place_eq_bot_iff, h.place_eq]
  constructor
  · intro hbot
    have hne : xs ≠ [] := by
      rintro rfl
      exact Bool.false_ne_true (side.isNaN_start.symm.trans (side.place_eq_bot_iff.1 hbot))
    obtain ⟨x, hx, hnearest⟩ := side.exists_mem_nearestPlace hne
    exact ⟨x, hx, side.place_eq_bot_iff.1 (hnearest.symm.trans hbot)⟩
  · rintro ⟨x, hx, hnan⟩
    exact le_bot_iff.1 ((nearestPlace_le_of_mem hx).trans (place_of_isNaN hnan).le)

theorem Gives.reaches (h : side.Gives xs r) (hr : r.isNaN = false) {x : Float} (hx : x ∈ xs) :
    side.Reaches r x := by
  have hnan : x.isNaN = false := by
    rw [Bool.eq_false_iff]
    intro hnan
    exact Bool.eq_false_iff.1 hr (h.isNaN_iff.2 ⟨x, hx, hnan⟩)
  rw [side.reaches_iff_place_le hr hnan, h.place_eq]
  exact nearestPlace_le_of_mem hx

theorem Gives.exists_mem_beq (h : side.Gives xs r) (hr : r.isNaN = false) (hne : xs ≠ []) :
    ∃ x ∈ xs, (r == x) = true := by
  obtain ⟨x, hx, hplace⟩ := side.exists_mem_nearestPlace hne
  rw [← h.place_eq] at hplace
  have hnan : x.isNaN = false := (isNaN_eq_of_place_eq hplace).symm.trans hr
  exact ⟨x, hx, (side.beq_iff_place_eq hr hnan).2 hplace⟩

theorem Gives.eq_start (h : side.Gives [] r) : r = side.start := by
  cases h with
  | nil => rfl

/-- Of two doubles that compare equal the second may be the result, too. -/
theorem gives_second_of_beq (h : (a == b) = true) : side.Gives [a, b] b := by
  obtain ⟨ha, hb⟩ := isNaN_eq_false_of_beq h
  have hstart := side.isNaN_start
  have hplace := (side.beq_iff_place_eq ha hb).1 h
  have hfirst : side.Keeps side.start a a :=
    .nearer hstart ha (Or.inr (beq_self ha))
      ((side.reaches_iff_place_le ha hstart).2 (place_le_start side a))
      ((side.reaches_iff_place_le ha ha).2 le_rfl)
  have hsecond : side.Keeps a b b :=
    .nearer ha hb (Or.inr (beq_self hb)) ((side.reaches_iff_place_le hb ha).2 hplace.ge)
      ((side.reaches_iff_place_le hb hb).2 le_rfl)
  exact .cons hfirst (.cons hsecond (.nil b))

theorem keepsAll_foldl {f : Float → Float → Float} (hf : ∀ a b, side.Keeps a b (f a b)) (a : Float)
    (xs : List Float) : side.KeepsAll a xs (xs.foldl f a) := by
  induction xs generalizing a with
  | nil => exact .nil a
  | cons x xs ih => exact .cons (hf a x) (ih (f a x))

theorem isNaN_zero_div_zero : (0.0 / 0.0 : Float).isNaN = true := rfl

/-- Taking the second of two doubles where it is strictly nearer keeps what may be kept. -/
theorem keeps_ite {p : Prop} [Decidable p]
    (hp : a.isNaN = false → b.isNaN = false → (p ↔ side.place b < side.place a)) :
    side.Keeps a b (if a.isNaN || b.isNaN then 0.0 / 0.0 else if p then b else a) := by
  split
  · rename_i hnan
    exact .nan (Bool.or_eq_true_iff.1 hnan) isNaN_zero_div_zero
  · rename_i hnan
    rw [Bool.not_eq_true, Bool.or_eq_false_iff] at hnan
    obtain ⟨ha, hb⟩ := hnan
    split
    · rename_i hlt
      have hle := ((hp ha hb).1 hlt).le
      exact .nearer ha hb (Or.inr (beq_self hb)) ((side.reaches_iff_place_le hb ha).2 hle)
        ((side.reaches_iff_place_le hb hb).2 le_rfl)
    · rename_i hlt
      have hle := not_lt.1 (mt (hp ha hb).2 hlt)
      exact .nearer ha hb (Or.inl (beq_self ha)) ((side.reaches_iff_place_le ha ha).2 le_rfl)
        ((side.reaches_iff_place_le ha hb).2 hle)

theorem keeps_lesser (a b : Float) : least.Keeps a b (Aggregate.lesser a b) := by
  apply keeps_ite
  intro ha hb
  rw [place_of_not_isNaN ha, place_of_not_isNaN hb, WithBot.coe_lt_coe]
  exact lt_iff_signedRank_lt hb ha

theorem keeps_greater (a b : Float) : greatest.Keeps a b (Aggregate.greater a b) := by
  apply keeps_ite
  intro ha hb
  rw [place_of_not_isNaN ha, place_of_not_isNaN hb, WithBot.coe_lt_coe]
  exact (lt_iff_signedRank_lt ha hb).trans neg_lt_neg_iff.symm

theorem gives_least (xs : List Float) : least.Gives xs (Aggregate.least xs) :=
  keepsAll_foldl keeps_lesser _ xs

theorem gives_greatest (xs : List Float) : greatest.Gives xs (Aggregate.greatest xs) :=
  keepsAll_foldl keeps_greater _ xs

end PrefixArith.Extremum
