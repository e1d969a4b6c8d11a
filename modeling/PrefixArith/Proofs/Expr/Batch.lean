import Mathlib.Data.List.Forall2
import Mathlib.Logic.Relation
import PrefixArith.Expr.Batch

namespace PrefixArith

variable {e : Expr} {rows : List (List Float)}

namespace Expr

def ValuesOf (e : Expr) (rows : List (List Float)) (vs : List Float) : Prop :=
  List.Forall₂ (fun row v => e.value row = .ok v) rows vs

theorem ValuesOf.unique {us vs : List Float} (hus : e.ValuesOf rows us)
    (hvs : e.ValuesOf rows vs) : us = vs := by
  induction hus generalizing vs with
  | nil =>
    cases hvs
    rfl
  | cons hrow _ ih =>
    cases hvs with
    | cons hrow' hrest =>
      rw [hrow] at hrow'
      rw [Except.ok.inj hrow', ih hrest]

theorem ValuesOf.exists_value {vs : List Float} (h : e.ValuesOf rows vs) :
    ∀ row ∈ rows, ∃ v, e.value row = .ok v := by
  induction h with
  | nil =>
    intro row hrow
    cases hrow
  | cons hrow _ ih => exact List.forall_mem_cons.2 ⟨⟨_, hrow⟩, ih⟩

theorem not_exists_error {err : EvalError} (h : ∀ row ∈ rows, ∃ v, e.value row = .ok v) :
    ¬∃ row ∈ rows, e.value row = .error err := by
  rintro ⟨row, hmem, herror⟩
  obtain ⟨v, hv⟩ := h row hmem
  rw [hv] at herror
  cases herror

theorem ValuesOf.valueOnEach_eq {vs : List Float} (h : e.ValuesOf rows vs) :
    e.valueOnEach rows = .ok vs := by
  unfold valueOnEach
  induction h with
  | nil => rfl
  | cons hrow _ ih =>
    rw [List.mapM_cons, hrow, ih]
    rfl

/-- Where all rows that fail do so with the same error, it is the error of the rows, whichever of
them is looked at first. -/
theorem valueOnEach_eq_error {err : EvalError} (hfails : ∃ row ∈ rows, e.value row = .error err)
    (hsame : ∀ row ∈ rows, ∀ err', e.value row = .error err' → err' = err) :
    e.valueOnEach rows = .error err := by
  unfold valueOnEach
  induction rows with
  | nil => simp at hfails
  | cons row rows ih =>
    rw [List.mapM_cons]
    cases hrow : e.value row with
    | error err' =>
      rw [hsame row List.mem_cons_self err' hrow]
      rfl
    | ok v =>
      have hrest : ∃ row ∈ rows, e.value row = .error err := by
        obtain ⟨row', hmem, hrow'⟩ := hfails
        rcases List.mem_cons.1 hmem with rfl | hmem
        · rw [hrow] at hrow'
          cases hrow'
        · exact ⟨row', hmem, hrow'⟩
      have hvalues := ih hrest fun row' hmem => hsame row' (List.mem_cons_of_mem row hmem)
      change (rows.mapM fun row => e.value row) >>= _ = _
      rw [hvalues]
      rfl

end Expr

namespace Batch

/-- The blocks stand for these rows: one that is not through has the values of its first rows, and
one that failed has a row with the error. -/
def Covers (e : Expr) : Batch → List (List Float) → Prop
  | block vs pending, rows => ∃ done, rows = done ++ pending ∧ e.ValuesOf done vs
  | failed err, rows => ∃ row ∈ rows, e.value row = .error err
  | dropped, _ => True
  | join l r, rows => ∃ front back, rows = front ++ back ∧ Covers e l front ∧ Covers e r back

variable {stopping : Bool} {b b' : Batch}

theorem Cut.covers (e : Expr) (h : Cut rows b) : Covers e b rows := by
  induction h with
  | start rows => exact ⟨[], rfl, .nil⟩
  | join _ _ ihl ihr => exact ⟨_, _, rfl, ihl, ihr⟩

theorem Cut.hasDropped (h : Cut rows b) : b.hasDropped = false := by
  induction h with
  | start rows => rfl
  | join _ _ ihl ihr => rw [Batch.hasDropped, ihl, ihr, Bool.or_false]

theorem Move.covers (h : Move e stopping b b') (hb : Covers e b rows) : Covers e b' rows := by
  induction h generalizing rows with
  | @split vs front back =>
    obtain ⟨done, rfl, hdone⟩ := hb
    exact ⟨done ++ front, back, (List.append_assoc _ _ _).symm, ⟨done, rfl, hdone⟩, [], rfl, .nil⟩
  | @value vs row rows v hrow =>
    obtain ⟨done, rfl, hdone⟩ := hb
    exact ⟨done ++ [row], by simp, List.rel_append hdone (.cons hrow .nil)⟩
  | @failure vs row rows err hrow =>
    obtain ⟨done, rfl, -⟩ := hb
    exact ⟨row, by simp, hrow⟩
  | drop => trivial
  | left _ ih =>
    obtain ⟨front, back, rfl, hl, hr⟩ := hb
    exact ⟨front, back, rfl, ih hl, hr⟩
  | right _ ih =>
    obtain ⟨front, back, rfl, hl, hr⟩ := hb
    exact ⟨front, back, rfl, hl, ih hr⟩

/-- A row that has failed stays so. -/
theorem Move.hasFailed (h : Move e stopping b b') (hb : b.hasFailed = true) :
    b'.hasFailed = true := by
  induction h with
  | split | value | failure | drop => cases hb
  | left _ ih =>
    rw [Batch.hasFailed, Bool.or_eq_true] at hb ⊢
    exact hb.imp_left ih
  | right _ ih =>
    rw [Batch.hasFailed, Bool.or_eq_true] at hb ⊢
    exact hb.imp_right ih

theorem Move.hasDropped (h : Move e stopping b b') (hb : b'.hasDropped = true) :
    b.hasDropped = true ∨ stopping = true := by
  induction h with
  | split | value | failure => cases hb
  | drop hstopping => exact Or.inr hstopping
  | left _ ih =>
    rw [Batch.hasDropped, Bool.or_eq_true] at hb ⊢
    rcases hb with hl | hr
    · exact (ih hl).imp_left Or.inl
    · exact Or.inl (Or.inr hr)
  | right _ ih =>
    rw [Batch.hasDropped, Bool.or_eq_true] at hb ⊢
    rcases hb with hl | hr
    · exact Or.inl (Or.inl hl)
    · exact (ih hr).imp_left Or.inr

structure Sound (e : Expr) (rows : List (List Float)) (b : Batch) : Prop where
  covers : Covers e b rows
  hasFailed_of_hasDropped : b.hasDropped = true → b.hasFailed = true

theorem Cut.sound (e : Expr) (h : Cut rows b) : Sound e rows b where
  covers := h.covers e
  hasFailed_of_hasDropped := by
    intro hdropped
    rw [h.hasDropped] at hdropped
    cases hdropped

theorem Sound.step (h : Sound e rows b) (hstep : Step e b b') : Sound e rows b' where
  covers := hstep.covers h.covers
  hasFailed_of_hasDropped := by
    intro hdropped
    apply hstep.hasFailed
    rcases hstep.hasDropped hdropped with hbefore | hfailed
    · exact h.hasFailed_of_hasDropped hbefore
    · exact hfailed

def Runs (e : Expr) : Batch → Batch → Prop := Relation.ReflTransGen (Step e)

theorem Sound.runs (h : Sound e rows b) (hruns : Runs e b b') : Sound e rows b' := by
  induction hruns with
  | refl => exact h
  | tail _ hstep ih => exact ih.step hstep

/-- A result that the rows may have: the values of all, or the error of one that failed. -/
def Answers (e : Expr) (rows : List (List Float)) : Except EvalError (List Float) → Prop
  | .ok vs => e.ValuesOf rows vs
  | .error err => ∃ row ∈ rows, e.value row = .error err

variable {result : Except EvalError (List Float)}

theorem Reports.answers (h : b.Reports result) (hb : Covers e b rows) : Answers e rows result := by
  induction h generalizing rows with
  | block vs =>
    obtain ⟨done, rfl, hdone⟩ := hb
    rw [List.append_nil]
    exact hdone
  | failed err => exact hb
  | join _ _ ihl ihr =>
    obtain ⟨front, back, rfl, hl, hr⟩ := hb
    exact List.rel_append (ihl hl) (ihr hr)
  | left _ ih =>
    obtain ⟨front, back, rfl, hl, -⟩ := hb
    obtain ⟨row, hmem, hrow⟩ := ih hl
    exact ⟨row, List.mem_append_left _ hmem, hrow⟩
  | right _ ih =>
    obtain ⟨front, back, rfl, -, hr⟩ := hb
    obtain ⟨row, hmem, hrow⟩ := ih hr
    exact ⟨row, List.mem_append_right _ hmem, hrow⟩

theorem Answers.eq_ok_iff (h : Answers e rows result) (vs : List Float) :
    result = .ok vs ↔ e.ValuesOf rows vs := by
  constructor
  · rintro rfl
    exact h
  · intro hvs
    cases result with
    | ok us => rw [Expr.ValuesOf.unique h hvs]
    | error err => exact absurd h (Expr.not_exists_error hvs.exists_value)

theorem Answers.exists_ok_iff (h : Answers e rows result) :
    (∃ vs, result = .ok vs) ↔ ∀ row ∈ rows, ∃ v, e.value row = .ok v := by
  cases result with
  | ok vs => exact iff_of_true ⟨vs, rfl⟩ (Expr.ValuesOf.exists_value h)
  | error err =>
    apply iff_of_false
    · rintro ⟨vs, hvs⟩
      cases hvs
    · intro hall
      exact Expr.not_exists_error hall h

def Agree (e : Expr) (rows : List (List Float)) : Prop :=
  ∀ row ∈ rows, ∀ row' ∈ rows, ∀ err err', e.value row = .error err →
    e.value row' = .error err' → err = err'

theorem Answers.eq_valueOnEach (h : Answers e rows result) (hagree : Agree e rows) :
    result = e.valueOnEach rows := by
  cases result with
  | ok vs => exact (Expr.ValuesOf.valueOnEach_eq h).symm
  | error err =>
    obtain ⟨row, hmem, hrow⟩ := h
    refine (Expr.valueOnEach_eq_error ⟨row, hmem, hrow⟩ ?_).symm
    intro row' hmem' err' hrow'
    exact hagree row' hmem' row hmem err' err hrow' hrow

/-- A bound on the moves that are left. -/
def weight : Batch → Nat
  | block _ rows => 2 * rows.length - 1
  | failed _ | dropped => 0
  | join l r => l.weight + r.weight

theorem Move.weight_lt (h : Move e stopping b b') : b'.weight < b.weight := by
  induction h with
  | split hfront hback =>
    have hf := List.length_pos_of_ne_nil hfront
    have hb := List.length_pos_of_ne_nil hback
    simp only [weight, List.length_append]
    omega
  | value | failure | drop =>
    simp only [weight, List.length_cons]
    omega
  | left _ ih => exact Nat.add_lt_add_right ih _
  | right _ ih => exact Nat.add_lt_add_left ih _

theorem exists_reports_error (h : b.hasFailed = true) : ∃ err, b.Reports (.error err) := by
  induction b with
  | block | dropped => cases h
  | failed err => exact ⟨err, .failed err⟩
  | join l r ihl ihr =>
    rw [Batch.hasFailed, Bool.or_eq_true] at h
    rcases h with hl | hr
    · obtain ⟨err, herr⟩ := ihl hl
      exact ⟨err, .left herr⟩
    · obtain ⟨err, herr⟩ := ihr hr
      exact ⟨err, .right herr⟩

theorem exists_move_or_reports (e : Expr) (stopping : Bool) (h : b.hasDropped = false) :
    (∃ b', Move e stopping b b') ∨ ∃ result, b.Reports result := by
  induction b with
  | block vs rows =>
    cases rows with
    | nil => exact Or.inr ⟨_, .block vs⟩
    | cons row rows =>
      cases hrow : e.value row with
      | ok v => exact Or.inl ⟨_, .value hrow⟩
      | error err => exact Or.inl ⟨_, .failure hrow⟩
  | failed err => exact Or.inr ⟨_, .failed err⟩
  | dropped => cases h
  | join l r ihl ihr =>
    rw [Batch.hasDropped, Bool.or_eq_false_iff] at h
    rcases ihl h.1 with ⟨l', hl⟩ | ⟨us, hus⟩
    · exact Or.inl ⟨_, .left hl⟩
    rcases ihr h.2 with ⟨r', hr⟩ | ⟨vs, hvs⟩
    · exact Or.inl ⟨_, .right hr⟩
    cases us with
    | error err => exact Or.inr ⟨_, .left hus⟩
    | ok us =>
      cases vs with
      | error err => exact Or.inr ⟨_, .right hvs⟩
      | ok vs => exact Or.inr ⟨_, .join hus hvs⟩

theorem Sound.exists_step_or_reports (h : Sound e rows b) :
    (∃ b', Step e b b') ∨ ∃ result, b.Reports result := by
  cases hfailed : b.hasFailed with
  | true =>
    obtain ⟨err, herr⟩ := exists_reports_error hfailed
    exact Or.inr ⟨_, herr⟩
  | false =>
    have hdropped : b.hasDropped = false := by
      apply Bool.eq_false_iff.2
      intro hdropped
      rw [h.hasFailed_of_hasDropped hdropped] at hfailed
      cases hfailed
    exact exists_move_or_reports e b.hasFailed hdropped

/-- The rows of one block, taken one after the other. -/
theorem exists_runs_block (e : Expr) (rows : List (List Float)) (vs : List Float) :
    ∃ b, Runs e (block vs rows) b ∧ b.Reports ((e.valueOnEach rows).map (vs ++ ·)) := by
  -- the one block is worked off row by row, with the values it has so far in front
  induction rows generalizing vs with
  | nil =>
    refine ⟨block vs [], .refl, ?_⟩
    have hnil : (e.valueOnEach []).map (vs ++ ·) = .ok (vs ++ []) := rfl
    rw [hnil, List.append_nil]
    exact .block vs
  | cons row rows ih =>
    cases hrow : e.value row with
    | error err =>
      refine ⟨failed err, .single (.failure hrow), ?_⟩
      have hfirst : e.valueOnEach (row :: rows) = .error err := by
        rw [Expr.valueOnEach, List.mapM_cons, hrow]
        rfl
      rw [hfirst]
      exact .failed err
    | ok v =>
      obtain ⟨b, hruns, hreports⟩ := ih (vs ++ [v])
      refine ⟨b, .head (.value hrow) hruns, ?_⟩
      have hrest : (e.valueOnEach (row :: rows)).map (vs ++ ·) =
          (e.valueOnEach rows).map (vs ++ [v] ++ ·) := by
        simp only [Expr.valueOnEach, List.mapM_cons, hrow]
        cases rows.mapM fun row => e.value row with
        | error err => rfl
        | ok us => simp [bind, Except.bind, pure, Except.pure, Except.map]
      rw [hrest]
      exact hreports

theorem exists_runs_valueOnEach (e : Expr) (rows : List (List Float)) :
    ∃ b, Runs e (start rows) b ∧ b.Reports (e.valueOnEach rows) := by
  obtain ⟨b, hruns, hreports⟩ := exists_runs_block e rows []
  refine ⟨b, hruns, ?_⟩
  cases hresult : e.valueOnEach rows with
  | ok vs =>
    rw [hresult] at hreports
    exact hreports
  | error err =>
    rw [hresult] at hreports
    exact hreports

/-- However the rows of a batch are cut into blocks and in whatever order these are worked on, the
work comes to an end and has a result. That is values exactly if every row has one, and then they
are those of all rows in their order; otherwise it is the error of a row. Where all rows that fail
do so with the same error, it is what the rows have one after the other. To take them so is one of
the ways. -/
theorem reports_valuesOf (e : Expr) (rows : List (List Float)) :
    WellFounded (fun b' b => Step e b b') ∧
      (∃ b, Runs e (start rows) b ∧ b.Reports (e.valueOnEach rows)) ∧
      ∀ b₀ b, Cut rows b₀ → Runs e b₀ b →
        ((∃ b', Step e b b') ∨ ∃ result, b.Reports result) ∧
        ∀ result, b.Reports result →
          ((∃ vs, result = .ok vs) ↔ ∀ row ∈ rows, ∃ v, e.value row = .ok v) ∧
          (∀ vs, result = .ok vs ↔ e.ValuesOf rows vs) ∧
          (∀ err, result = .error err → ∃ row ∈ rows, e.value row = .error err) ∧
          (Agree e rows → result = e.valueOnEach rows) := by
  refine ⟨Subrelation.wf (fun hstep => hstep.weight_lt) (measure weight).wf,
    exists_runs_valueOnEach e rows, ?_⟩
  intro b₀ b hcut hruns
  have hsound := (hcut.sound e).runs hruns
  refine ⟨hsound.exists_step_or_reports, ?_⟩
  intro result hreports
  have hanswers := hreports.answers hsound.covers
  refine ⟨hanswers.exists_ok_iff, hanswers.eq_ok_iff, ?_, hanswers.eq_valueOnEach⟩
  rintro err rfl
  exact hanswers

end Batch

end PrefixArith
