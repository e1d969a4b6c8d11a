import PrefixArith.Expr.Postorder
import PrefixArith.Proofs.Reader.Diagnosis

namespace PrefixArith

namespace Fault

def mapPosition (move : Nat → Nat) : Fault → Fault
  | empty => empty
  | strayOpening p => strayOpening (move p)
  | strayClosing p => strayClosing (move p)
  | unknownWord w p => unknownWord w (move p)
  | strayLeaf kind w p => strayLeaf kind w (move p)
  | strayOperation op p => strayOperation op (move p)
  | wrongCount op p due found => wrongCount op (move p) due found
  | unclosed p => unclosed (move p)
  | surplus w p => surplus w (move p)
  | unreadable reason => unreadable reason

theorem position?_mapPosition (move : Nat → Nat) (f : Fault) :
    (f.mapPosition move).position? = f.position?.map move := by
  cases f <;> rfl

/-- Only where the fault is moved to matters. -/
theorem mapPosition_eq {f : Fault} {p : Nat} (h : f.position? = some p) (move : Nat → Nat) :
    f.mapPosition move = f.mapPosition fun _ => move p := by
  cases f with
  | empty => cases h
  | unreadable => cases h
  | _ =>
    obtain rfl := Option.some.inj h
    rfl

/-- The same fault but for its position: of the same kind, with the same word, kind of leaf,
operation and counts. -/
def Like (f g : Fault) : Prop := f.mapPosition (fun _ => 0) = g.mapPosition fun _ => 0

theorem like_mapPosition (f : Fault) (move : Nat → Nat) : f.Like (f.mapPosition move) := by
  cases f <;> rfl

end Fault

/-- Places in two lists of tokens that correspond: nowhere, at the token of the same index, or just
behind the last token. -/
inductive SamePlace (ts us : List Token) : Option Nat → Option Nat → Prop
  | nowhere : SamePlace ts us none none
  | token {t u : Token} (j : Nat) (ht : ts[j]? = some t) (hu : us[j]? = some u) :
      SamePlace ts us (some t.position) (some u.position)
  | stop {t u : Token} (ht : ts.getLast? = some t) (hu : us.getLast? = some u) :
      SamePlace ts us (some t.stop) (some u.stop)

structure Fault.Corresponds (ts us : List Token) (f g : Fault) : Prop where
  like : f.Like g
  place : SamePlace ts us f.position? g.position?

section
variable {ts us : List Token} (h : ts.map Token.lexeme = us.map Token.lexeme)
include h

theorem map_take_eq (i : Nat) :
    (ts.take i).map Token.lexeme = (us.take i).map Token.lexeme := by
  rw [List.map_take, List.map_take, h]

theorem lexeme_getElem?_eq (i : Nat) :
    ts[i]?.map Token.lexeme = us[i]?.map Token.lexeme := by
  rw [← List.getElem?_map, ← List.getElem?_map, h]

/-- The tokens of an index have one lexeme. -/
theorem exists_getElem?_of_lexemes {i : Nat} {t : Token} (ht : ts[i]? = some t) :
    ∃ u, us[i]? = some u ∧ u.lexeme = t.lexeme := by
  have hu := lexeme_getElem?_eq h i
  rw [ht, Option.map_some] at hu
  obtain ⟨u, hu, hlexeme⟩ := Option.map_eq_some_iff.1 hu.symm
  exact ⟨u, hu, hlexeme⟩

theorem ne_nil_of_lexemes (hne : ts ≠ []) : us ≠ [] := by
  rintro rfl
  exact hne (List.map_eq_nil_iff.1 h)

theorem samePlace_stopOf (hne : ts ≠ []) :
    SamePlace ts us (some (Reader.stopOf ts)) (some (Reader.stopOf us)) := by
  have hts := List.getLast?_eq_some_getLast hne
  have hus := List.getLast?_eq_some_getLast (ne_nil_of_lexemes h hne)
  rw [Reader.stopOf, Reader.stopOf, hts, hus]
  exact .stop hts hus

end

namespace LookBack
open Grammar

theorem countFault?_moves {p : Nat} {us : List Lexeme} {f : Fault} (h : countFault? p us = some f) :
    f.position? = some p ∧ ∀ q, countFault? q us = some (f.mapPosition fun _ => q) := by
  unfold countFault? at h ⊢
  split at h
  · split at h
    · obtain ⟨due, hdue, rfl⟩ := Option.map_eq_some_iff.1 h
      refine ⟨rfl, fun q => ?_⟩
      rw [hdue]
      rfl
    · cases h
  · cases h

/-- An objection stands where its token does, and moves with it. -/
theorem objection?_moves {before : List Lexeme} {t : Token} {f : Fault}
    (h : objection? before t = some f) :
    f.position? = some t.position ∧
      ∀ q, objection? before ⟨t.lexeme, q⟩ = some (f.mapPosition fun _ => q) := by
  obtain ⟨lexeme, p⟩ := t
  cases lexeme with
  | opening =>
    unfold objection? at h ⊢
    dsimp only at h ⊢
    split at h
    · rename_i hplace
      obtain rfl := Option.some.inj h
      exact ⟨rfl, fun q => if_pos hplace⟩
    · cases h
  | closing =>
    rw [objection?_closing] at h
    split at h
    · rename_i hstray
      obtain rfl := Option.some.inj h
      refine ⟨rfl, fun q => ?_⟩
      rw [objection?_closing, if_pos hstray]
      rfl
    · rename_i hgroup
      obtain ⟨us, hus, hcount⟩ := Option.bind_eq_some_iff.1 h
      obtain ⟨hposition, hmoves⟩ := countFault?_moves hcount
      refine ⟨hposition, fun q => ?_⟩
      rw [objection?_closing, if_neg hgroup, hus, Option.bind_some, hmoves q]
  | word w =>
    unfold objection? at h ⊢
    dsimp only at h ⊢
    split at h
    · obtain rfl := Option.some.inj h
      exact ⟨rfl, fun q => rfl⟩
    · split at h
      · cases h
      · rename_i hplace
        obtain rfl := Option.some.inj h
        exact ⟨rfl, fun q => if_neg hplace⟩
    -- a variable or a number, which are treated alike
    all_goals
      split at h
      · rename_i hplace
        obtain rfl := Option.some.inj h
        exact ⟨rfl, fun q => if_pos hplace⟩
      · cases h

/-- Whether there is an objection does not depend on where the token stands. -/
theorem objection?_eq_none {before : List Lexeme} {t : Token} (h : objection? before t = none)
    (q : Nat) : objection? before ⟨t.lexeme, q⟩ = none := by
  cases hq : objection? before ⟨t.lexeme, q⟩ with
  | none => rfl
  | some f =>
    have hback := (objection?_moves hq).2 t.position
    rw [h] at hback
    cases hback

section
variable {ts us : List Token} (h : ts.map Token.lexeme = us.map Token.lexeme)
include h

theorem objectionAt?_eq_none {i : Nat} (hnone : objectionAt? ts i = none) :
    objectionAt? us i = none := by
  unfold objectionAt? at hnone ⊢
  cases hu : us[i]? with
  | none => rfl
  | some u =>
    obtain ⟨t, ht, hlexeme⟩ := exists_getElem?_of_lexemes h.symm hu
    rw [ht, Option.bind_some] at hnone
    rw [Option.bind_some, ← map_take_eq h]
    have hmoved := objection?_eq_none hnone u.position
    rwa [hlexeme] at hmoved

theorem objectionAt?_corresponds {i : Nat} {f : Fault} (hf : objectionAt? ts i = some f) :
    ∃ g, objectionAt? us i = some g ∧ Fault.Corresponds ts us f g := by
  unfold objectionAt? at hf ⊢
  obtain ⟨t, ht, hobjection⟩ := Option.bind_eq_some_iff.1 hf
  obtain ⟨u, hu, hlexeme⟩ := exists_getElem?_of_lexemes h ht
  obtain ⟨hposition, hmoves⟩ := objection?_moves hobjection
  have hmoved := hmoves u.position
  refine ⟨f.mapPosition fun _ => u.position, ?_, f.like_mapPosition _, ?_⟩
  · rw [hu, Option.bind_some, ← map_take_eq h]
    rwa [← hlexeme] at hmoved
  · rw [Fault.position?_mapPosition, hposition]
    exact .token i ht hu

/-- The fault of the end of the tokens is one of the end of the others as well. -/
theorem EndFault.corresponds {f : Fault} (hf : EndFault ts f) :
    ∃ g, EndFault us g ∧ Fault.Corresponds ts us f g := by
  cases hf with
  | empty =>
    obtain rfl := List.map_eq_nil_iff.1 h.symm
    exact ⟨.empty, .empty, rfl, .nowhere⟩
  | unclosed hcount =>
    have hne : ts ≠ [] := by
      rintro rfl
      simp at hcount
    rw [h] at hcount
    exact ⟨_, .unclosed hcount, rfl, samePlace_stopOf h hne⟩
  | count hcount hf =>
    have hne : ts ≠ [] := by
      rintro rfl
      cases hf
    obtain ⟨hposition, hmoves⟩ := countFault?_moves hf
    rw [h] at hcount hmoves
    refine ⟨_, .count hcount (hmoves _), f.like_mapPosition _, ?_⟩
    rw [Fault.position?_mapPosition, hposition]
    exact samePlace_stopOf h hne
  | @surplus ts₁ ts₂ t e hne hcount hop he =>
    -- the other text is cut at the same index
    obtain ⟨us₁, us', rfl, hus₁, hus'⟩ := Reader.map_lexeme_append (h.symm.trans List.map_append)
    obtain ⟨q, us₂, rfl, hus₂⟩ := Reader.map_lexeme_cons hus'
    have hlength := congrArg List.length hus₁
    rw [List.length_map, List.length_map] at hlength
    rw [← hus₁] at hcount hop
    rw [List.map_cons, ← hus₂] at he
    have hne' := ne_nil_of_lexemes hus₁.symm hne
    refine ⟨_, .surplus (t := ⟨t.lexeme, q⟩) hne' hcount hop he, rfl, ?_⟩
    refine .token ts₁.length ?_ ?_
    · simp
    · simp [← hlength]

end

end LookBack

namespace Reader
open LookBack

variable {ts us : List Token} (h : ts.map Token.lexeme = us.map Token.lexeme)
include h

theorem read_eq_ok_of_lexemes {e : Expr} (hread : read ts = .ok e) : read us = .ok e := by
  rw [read_eq_ok_iff] at hread ⊢
  rwa [h] at hread

/-- Tokens that say the same are at fault alike. -/
theorem read_corresponds {f : Fault} (hf : read ts = .error f) :
    ∃ g, read us = .error g ∧ Fault.Corresponds ts us f g := by
  rcases read_eq_error_iff.1 hf with ⟨i, hi, hbefore⟩ | ⟨hnone, hend⟩
  · obtain ⟨g, hg, hcorresponds⟩ := objectionAt?_corresponds h hi
    refine ⟨g, read_eq_error_iff.2 (Or.inl ⟨i, hg, ?_⟩), hcorresponds⟩
    intro j hj
    exact objectionAt?_eq_none h (hbefore j hj)
  · obtain ⟨g, hg, hcorresponds⟩ := hend.corresponds h
    refine ⟨g, read_eq_error_iff.2 (Or.inr ⟨?_, hg⟩), hcorresponds⟩
    intro i
    exact objectionAt?_eq_none h (hnone i)

end Reader

/-- Two texts with the same lexemes, whatever blanks stand between them, have the same expression;
or both have the same fault, at the token of one index, or just behind the last token, or without
a place. -/
theorem Expr.parse_layout {source source' : String}
    (h : Lexeme.ofText source = Lexeme.ofText source') :
    (∃ e, parse source = .ok e ∧ parse source' = .ok e) ∨
      ∃ f g, parse source = .error (.located source f) ∧
        parse source' = .error (.located source' g) ∧
        Fault.Corresponds (Token.ofText source) (Token.ofText source') f g := by
  unfold parse
  cases hread : Reader.read (Token.ofText source) with
  | ok e =>
    rw [Reader.read_eq_ok_of_lexemes h hread]
    exact Or.inl ⟨e, rfl, rfl⟩
  | error f =>
    obtain ⟨g, hg, hcorresponds⟩ := Reader.read_corresponds h hread
    rw [hg]
    exact Or.inr ⟨f, g, rfl, rfl, hcorresponds⟩

/-- The parenthesis behind one operand too many, close to it and on a line of its own. -/
theorem Expr.parse_layout_inner_group :
    Lexeme.ofText "(+ 1 (negate x y) 2)" = Lexeme.ofText "\u3000( +\n1 (negate  x\ty\n)2 )" ∧
      parse "(+ 1 (negate x y) 2)" =
        .error (.located "(+ 1 (negate x y) 2)" (.wrongCount .neg 17 1 2)) ∧
      parse "\u3000( +\n1 (negate  x\ty\n)2 )" =
        .error (.located "\u3000( +\n1 (negate  x\ty\n)2 )" (.wrongCount .neg 21 1 2)) ∧
      SamePlace (Token.ofText "(+ 1 (negate x y) 2)")
        (Token.ofText "\u3000( +\n1 (negate  x\ty\n)2 )") (some 17) (some 21) := by
  have hlexemes : Lexeme.ofText "(+ 1 (negate x y) 2)" =
      Lexeme.ofText "\u3000( +\n1 (negate  x\ty\n)2 )" := by
    decide +kernel
  have hnear : parse "(+ 1 (negate x y) 2)" =
      .error (.located "(+ 1 (negate x y) 2)" (.wrongCount .neg 17 1 2)) := by
    decide +kernel
  have hfar : parse "\u3000( +\n1 (negate  x\ty\n)2 )" =
      .error (.located "\u3000( +\n1 (negate  x\ty\n)2 )" (.wrongCount .neg 21 1 2)) := by
    decide +kernel
  refine ⟨hlexemes, hnear, hfar, ?_⟩
  rcases parse_layout hlexemes with ⟨e, he, -⟩ | ⟨f, g, hf, hg, -, hplace⟩
  · rw [hnear] at he
    cases he
  · rw [hnear, Except.error.injEq] at hf
    rw [hfar, Except.error.injEq] at hg
    obtain rfl := congrArg Diagnostic.fault hf
    obtain rfl := congrArg Diagnostic.fault hg
    exact hplace

end PrefixArith
