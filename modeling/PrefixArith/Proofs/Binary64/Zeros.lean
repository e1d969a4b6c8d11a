import PrefixArith.Operation.Result
import PrefixArith.Proofs.Binary64.Bits

namespace PrefixArith

namespace Binary64
open Float.Model

def IsZero (a : Float) : Prop := a = 0.0 ∨ a = -0.0

/-- Equal but for the sign of a zero. -/
def Alike (a b : Float) : Prop := a = b ∨ IsZero a ∧ IsZero b

namespace Alike
variable {a b c : Float}

theorem refl (a : Float) : Alike a a := Or.inl rfl

theorem trans (hab : Alike a b) (hbc : Alike b c) : Alike a c := by
  rcases hab with rfl | ⟨ha, hb⟩
  · exact hbc
  · rcases hbc with rfl | ⟨-, hc⟩
    · exact Or.inr ⟨ha, hb⟩
    · exact Or.inr ⟨ha, hc⟩

theorem eq_of_not_isZero (h : Alike a b) (ha : ¬IsZero a) : a = b :=
  h.resolve_right fun hzeros => ha hzeros.1

end Alike

def AlikeUnpacked (u v : UnpackedFloat) : Prop := u = v ∨ ∃ s t, u = .zero s ∧ v = .zero t

section
variable (s t : UnpackedFloat.Sign)

theorem alikeUnpacked_zero : AlikeUnpacked (.zero s) (.zero t) := Or.inr ⟨s, t, rfl, rfl⟩

variable (spec : Format) (x : UnpackedFloat)

theorem zero_add_alike : AlikeUnpacked (.add spec (.zero s) x) (.add spec (.zero t) x) := by
  cases x with
  | notANumber => exact Or.inl rfl
  | infinity r => exact Or.inl rfl
  | finite r m e hm => exact Or.inl rfl
  | zero r => cases s <;> cases t <;> cases r <;> exact alikeUnpacked_zero _ _

theorem add_zero_alike : AlikeUnpacked (.add spec x (.zero s)) (.add spec x (.zero t)) := by
  cases x with
  | notANumber => exact Or.inl rfl
  | infinity r => exact Or.inl rfl
  | finite r m e hm => exact Or.inl rfl
  | zero r => cases s <;> cases t <;> cases r <;> exact alikeUnpacked_zero _ _

theorem zero_sub_alike : AlikeUnpacked (.sub spec (.zero s) x) (.sub spec (.zero t) x) := by
  cases x with
  | notANumber => exact Or.inl rfl
  | infinity r => exact Or.inl rfl
  | finite r m e hm => exact Or.inl rfl
  | zero r => cases s <;> cases t <;> cases r <;> exact alikeUnpacked_zero _ _

theorem sub_zero_alike : AlikeUnpacked (.sub spec x (.zero s)) (.sub spec x (.zero t)) := by
  cases x with
  | notANumber => exact Or.inl rfl
  | infinity r => exact Or.inl rfl
  | finite r m e hm => exact Or.inl rfl
  | zero r => cases s <;> cases t <;> cases r <;> exact alikeUnpacked_zero _ _

theorem zero_mul_alike : AlikeUnpacked (.mul spec (.zero s) x) (.mul spec (.zero t) x) := by
  cases x with
  | notANumber => exact Or.inl rfl
  | infinity r => exact Or.inl rfl
  | finite r m e hm => exact alikeUnpacked_zero _ _
  | zero r => exact alikeUnpacked_zero _ _

theorem mul_zero_alike : AlikeUnpacked (.mul spec x (.zero s)) (.mul spec x (.zero t)) := by
  cases x with
  | notANumber => exact Or.inl rfl
  | infinity r => exact Or.inl rfl
  | finite r m e hm => exact alikeUnpacked_zero _ _
  | zero r => exact alikeUnpacked_zero _ _

/-- Only of the dividend: a zero as divisor passes its sign on to an infinity. -/
theorem zero_div_alike : AlikeUnpacked (.div spec (.zero s) x) (.div spec (.zero t) x) := by
  cases x with
  | notANumber => exact Or.inl rfl
  | infinity r => exact alikeUnpacked_zero _ _
  | finite r m e hm => exact alikeUnpacked_zero _ _
  | zero r => exact Or.inl rfl

theorem compare_zero_left :
    UnpackedFloat.compare (.zero s) x = UnpackedFloat.compare (.zero t) x := by
  cases x with
  | notANumber => rfl
  | infinity r => cases r <;> rfl
  | finite r m e hm => cases r <;> rfl
  | zero r => rfl

theorem compare_zero_right :
    UnpackedFloat.compare x (.zero s) = UnpackedFloat.compare x (.zero t) := by
  cases x with
  | notANumber => rfl
  | infinity r => cases r <;> rfl
  | finite r m e hm => cases r <;> rfl
  | zero r => rfl

end

def ofUnpacked (u : UnpackedFloat) : Float := .ofModel (pack u)

theorem isZero_ofUnpacked (s : UnpackedFloat.Sign) : IsZero (ofUnpacked (.zero s)) := by
  cases s with
  | positive =>
    left
    rfl
  | negative =>
    right
    rfl

theorem AlikeUnpacked.alike {u v : UnpackedFloat} (h : AlikeUnpacked u v) :
    Alike (ofUnpacked u) (ofUnpacked v) := by
  rcases h with rfl | ⟨s, t, rfl, rfl⟩
  · exact .refl _
  · exact Or.inr ⟨isZero_ofUnpacked s, isZero_ofUnpacked t⟩

theorem IsZero.unpack {a : Float} (h : IsZero a) : ∃ s, a.toModel.unpack = .zero s := by
  rcases h with rfl | rfl
  · exact ⟨.positive, rfl⟩
  · exact ⟨.negative, rfl⟩

namespace Alike
variable {a b c d : Float}

theorem unpack (h : Alike a b) : AlikeUnpacked a.toModel.unpack b.toModel.unpack := by
  rcases h with rfl | ⟨ha, hb⟩
  · exact Or.inl rfl
  · obtain ⟨s, hs⟩ := ha.unpack
    obtain ⟨t, ht⟩ := hb.unpack
    exact Or.inr ⟨s, t, hs, ht⟩

section
variable {f : UnpackedFloat → UnpackedFloat → UnpackedFloat}

theorem left (h : Alike a b) (hf : ∀ s t x, AlikeUnpacked (f (.zero s) x) (f (.zero t) x))
    (x : UnpackedFloat) :
    Alike (ofUnpacked (f a.toModel.unpack x)) (ofUnpacked (f b.toModel.unpack x)) := by
  apply AlikeUnpacked.alike
  rcases h.unpack with heq | ⟨s, t, hs, ht⟩
  · rw [heq]
    exact Or.inl rfl
  · rw [hs, ht]
    exact hf s t x

theorem right (h : Alike a b) (hf : ∀ s t x, AlikeUnpacked (f x (.zero s)) (f x (.zero t)))
    (x : UnpackedFloat) :
    Alike (ofUnpacked (f x a.toModel.unpack)) (ofUnpacked (f x b.toModel.unpack)) :=
  left (f := flip f) h hf x

end

theorem add (hab : Alike a b) (hcd : Alike c d) : Alike (a + c) (b + d) :=
  (hab.left (zero_add_alike · · _ ·) _).trans (hcd.right (add_zero_alike · · _ ·) _)

theorem sub (hab : Alike a b) (hcd : Alike c d) : Alike (a - c) (b - d) :=
  (hab.left (zero_sub_alike · · _ ·) _).trans (hcd.right (sub_zero_alike · · _ ·) _)

theorem mul (hab : Alike a b) (hcd : Alike c d) : Alike (a * c) (b * d) :=
  (hab.left (zero_mul_alike · · _ ·) _).trans (hcd.right (mul_zero_alike · · _ ·) _)

theorem div (hab : Alike a b) (c : Float) : Alike (a / c) (b / c) :=
  hab.left (zero_div_alike · · _ ·) _

theorem neg (h : Alike a b) : Alike (-a) (-b) :=
  h.left (f := fun u _ => u.neg) (fun s t _ => alikeUnpacked_zero (-s) (-t)) .notANumber

theorem isNaN_eq (h : Alike a b) : a.isNaN = b.isNaN := by
  change a.toModel.unpack.isNaN = b.toModel.unpack.isNaN
  rcases h.unpack with heq | ⟨s, t, hs, ht⟩
  · rw [heq]
  · rw [hs, ht]
    rfl

theorem compare_eq (hab : Alike a b) (hcd : Alike c d) :
    a.toModel.unpack.compare c.toModel.unpack = b.toModel.unpack.compare d.toModel.unpack := by
  have hleft : a.toModel.unpack.compare c.toModel.unpack =
      b.toModel.unpack.compare c.toModel.unpack := by
    rcases hab.unpack with heq | ⟨s, t, hs, ht⟩
    · rw [heq]
    · rw [hs, ht, compare_zero_left s t]
  have hright : b.toModel.unpack.compare c.toModel.unpack =
      b.toModel.unpack.compare d.toModel.unpack := by
    rcases hcd.unpack with heq | ⟨s, t, hs, ht⟩
    · rw [heq]
    · rw [hs, ht, compare_zero_right s t]
  exact hleft.trans hright

end Alike

theorem Alike.lt_iff {a b c d : Float} (hab : Alike a b) (hcd : Alike c d) : a < c ↔ b < d := by
  rw [lt_iff_compare, lt_iff_compare, hab.compare_eq hcd]

/-- Such doubles are both NaN or compare equal. -/
theorem Alike.isNaN_or_beq {a b : Float} (h : Alike a b) :
    (a.isNaN = true ∧ b.isNaN = true) ∨ (a == b) = true := by
  cases ha : a.isNaN with
  | true => exact Or.inl ⟨rfl, h.isNaN_eq.symm.trans ha⟩
  | false =>
    right
    change (a.toModel.unpack.compare b.toModel.unpack == some .eq) = true
    rw [← (Alike.refl a).compare_eq h]
    exact beq_self ha

end Binary64

namespace Aggregate
open Binary64

variable {a b c d : Float}

theorem lesser_alike (hab : Alike a b) (hcd : Alike c d) :
    Alike (lesser a c) (lesser b d) := by
  unfold lesser
  rw [hab.isNaN_eq, hcd.isNaN_eq]
  simp only [hcd.lt_iff hab]
  split
  · exact .refl _
  · split
    · exact hcd
    · exact hab

theorem greater_alike (hab : Alike a b) (hcd : Alike c d) :
    Alike (greater a c) (greater b d) := by
  unfold greater
  rw [hab.isNaN_eq, hcd.isNaN_eq]
  simp only [hab.lt_iff hcd]
  split
  · exact .refl _
  · split
    · exact hcd
    · exact hab

variable {xs ys : List Float} (h : List.Forall₂ Alike xs ys)
include h

theorem foldl_alike {f : Float → Float → Float}
    (hf : ∀ ⦃a b⦄, Alike a b → ∀ ⦃c d⦄, Alike c d → Alike (f a c) (f b d)) (a : Float) :
    Alike (xs.foldl f a) (ys.foldl f a) :=
  List.rel_foldl hf (.refl a) h

theorem least_alike : Alike (least xs) (least ys) :=
  foldl_alike h (fun _ _ hab _ _ hcd => lesser_alike hab hcd) _

theorem greatest_alike : Alike (greatest xs) (greatest ys) :=
  foldl_alike h (fun _ _ hab _ _ hcd => greater_alike hab hcd) _

theorem sum_alike : Alike (sum xs) (sum ys) :=
  foldl_alike h (fun _ _ hab _ _ hcd => hab.add hcd) _

theorem mean_alike : Alike (mean xs) (mean ys) := by
  rw [mean, mean, h.length_eq]
  exact (sum_alike h).div _

end Aggregate

end PrefixArith
