import PrefixArith.Expr.Postorder
import PrefixArith.Proofs.Expr.Reparse

namespace PrefixArith

def Token.spaced (position : Nat) : List String → List Token
  | [] => []
  | w :: ws => ⟨.word w, position⟩ :: spaced (position + w.length + 1) ws

namespace Token

theorem scan_space (p : Nat) (s : List Char) : scan p (' ' :: s) = scan (p + 1) s := by
  rw [scan, if_neg (by decide), if_neg (by decide), if_pos (by decide)]

theorem scan_intercalate {ws : List String} (hws : ∀ w ∈ ws, IsWord w) (p : Nat) :
    scan p (" ".intercalate ws).toList = spaced p ws := by
  induction ws generalizing p with
  | nil => simp [scan, spaced]
  | cons w ws ih =>
    have hw := hws w List.mem_cons_self
    have hrest : ∀ v ∈ ws, IsWord v := fun v hv => hws v (List.mem_cons_of_mem w hv)
    cases ws with
    | nil =>
      have hscan := scan_word_append hw Lexeme.stopsWord_nil p
      rw [List.append_nil] at hscan
      rw [String.intercalate_singleton, hscan, scan]
      rfl
    | cons v vs =>
      have hspace : Lexeme.StopsWord (' ' :: (" ".intercalate (v :: vs)).toList) :=
        Lexeme.stopsWord_cons (by decide) _
      have hchars : (" ".intercalate (w :: v :: vs)).toList =
          w.toList ++ ' ' :: (" ".intercalate (v :: vs)).toList := by
        simp
      rw [hchars, scan_word_append hw hspace, scan_space, ih hrest]
      rfl

theorem spaced_append (p : Nat) (as bs : List String) :
    spaced p (as ++ bs) = spaced p as ++ spaced (p + (as.map fun w => w.length + 1).sum) bs := by
  induction as generalizing p with
  | nil => rfl
  | cons a as ih =>
    have hstart : p + a.length + 1 + (as.map fun w => w.length + 1).sum =
        p + ((a :: as).map fun w => w.length + 1).sum := by
      rw [List.map_cons, List.sum_cons]
      omega
    rw [List.cons_append, spaced, ih, hstart]
    rfl

theorem map_lexeme_spaced (p : Nat) (ws : List String) :
    (spaced p ws).map lexeme = ws.map Lexeme.word := by
  induction ws generalizing p with
  | nil => rfl
  | cons w ws ih => rw [spaced, List.map_cons, ih, List.map_cons]

theorem length_spaced (p : Nat) (ws : List String) : (spaced p ws).length = ws.length := by
  rw [← List.length_map lexeme, map_lexeme_spaced, List.length_map]

end Token

/-- Each word but the last has a space behind it. -/
theorem length_intercalate {ws : List String} (h : ws ≠ []) :
    (ws.map fun w => w.length + 1).sum = (" ".intercalate ws).length + 1 := by
  induction ws with
  | nil => exact absurd rfl h
  | cons w ws ih =>
    cases ws with
    | nil => simp
    | cons v vs =>
      have hrest := ih (List.cons_ne_nil v vs)
      have hspace : " ".length = 1 := by decide
      rw [List.map_cons, List.sum_cons, hrest, String.intercalate_cons_cons, String.length_append,
        String.length_append, hspace]
      omega

def Label.isLeaf : Label → Bool
  | const _ | var _ => true
  | call _ _ => false

def Label.stray : Label → Nat → Fault
  | const c, p => .strayLeaf .numeral (Numeral.write .literal c) p
  | var v, p => .strayLeaf .named v.name p
  | call op _, p => .strayOperation op p

/-- The first of some labels that may not stand where it does, and those before it: behind a leaf
the next label, and behind an operation the next operation. -/
inductive Label.Stray : (labels before : List Label) → Label → Prop
  | behindLeaf {first second : Label} {after : List Label} (hfirst : first.isLeaf = true) :
      Stray (first :: second :: after) [first] second
  | behindOperation {first next : Label} {between after : List Label}
      (hfirst : first.isLeaf = false) (hbetween : ∀ l ∈ between, l.isLeaf = true)
      (hnext : next.isLeaf = false) :
      Stray (first :: (between ++ next :: after)) (first :: between) next

theorem Label.Stray.split {labels before : List Label} {l : Label} (h : Stray labels before l) :
    ∃ after, labels = before ++ l :: after := by
  cases h with
  | behindLeaf => exact ⟨_, rfl⟩
  | behindOperation => exact ⟨_, rfl⟩

theorem Label.Stray.ne_nil {labels before : List Label} {l : Label} (h : Stray labels before l) :
    before ≠ [] := by
  cases h with
  | behindLeaf => exact List.cons_ne_nil _ _
  | behindOperation => exact List.cons_ne_nil _ _

/-- Where operands come first, their operation is out of place at the latest. -/
theorem Expr.exists_stray {e : Expr} (h : e.operands ≠ []) :
    ∃ before l, Label.Stray e.postorder before l := by
  cases e with
  | const c => exact absurd rfl h
  | var v => exact absurd rfl h
  | call op es =>
    obtain ⟨e, es, rfl⟩ := List.exists_cons_of_ne_nil h
    obtain ⟨first, rest, hfirst⟩ := List.exists_cons_of_ne_nil e.postorder_ne_nil
    have hlabels : (Expr.call op (e :: es)).postorder =
        first :: (rest ++ postorderAll es ++ [.call op (es.length + 1)]) := by
      rw [postorder, postorderAll, hfirst]
      simp
    rw [hlabels]
    generalize hroot : Label.call op (es.length + 1) = root
    have hnext : root.isLeaf = false := by
      rw [← hroot]
      rfl
    cases hleaf : first.isLeaf with
    | true =>
      cases rest ++ postorderAll es with
      | nil => exact ⟨_, _, .behindLeaf hleaf⟩
      | cons => exact ⟨_, _, .behindLeaf hleaf⟩
    | false =>
      -- behind an operation the next one is stray, and at the latest that is the root
      have hsome : ((rest ++ postorderAll es ++ [root]).find? fun l => !l.isLeaf).isSome := by
        rw [List.find?_isSome]
        exact ⟨root, by simp, by rw [hnext]; rfl⟩
      obtain ⟨l, hl⟩ := Option.isSome_iff_exists.1 hsome
      obtain ⟨hleaf', between, after, hsplit, hbetween⟩ := List.find?_eq_some_iff_append.1 hl
      rw [hsplit]
      refine ⟨_, _, .behindOperation hleaf ?_ ?_⟩
      · intro l' hl'
        simpa using hbetween l' hl'
      · simpa using hleaf'

namespace Reader
open Grammar

variable {s : State}

theorem read_of_step_error {ts us : List Token} {t : Token} {f : Fault}
    (hs : ts.foldlM State.step State.initial = .ok s) (ht : s.step t = .error f) :
    read (ts ++ t :: us) = .error f := by
  unfold read
  rw [List.foldlM_append, hs]
  change List.foldlM State.step s (t :: us) >>= _ = _
  rw [List.foldlM_cons, ht]
  rfl

/-- A label that is written reads as a leaf unless it is an operation. -/
theorem exists_leaf_name {l : Label} (hvalid : l.Valid) (hleaf : l.isLeaf = true) :
    ∃ e, Leaf l.name e := by
  cases l with
  | const c => exact ⟨_, .of_number (Numeral.ofWord?_of_read? (Numeral.read?_write hvalid))⟩
  | var v => exact ⟨_, .var (Variable.ofName?_name v)⟩
  | call => cases hleaf

theorem exists_operands_names {ls : List Label} (hvalid : ∀ l ∈ ls, l.Valid)
    (hleaf : ∀ l ∈ ls, l.isLeaf = true) :
    ∃ es, Operands (ls.map fun l => Lexeme.word l.name) es := by
  induction ls with
  | nil => exact ⟨[], .nil⟩
  | cons l ls ih =>
    obtain ⟨e, he⟩ := exists_leaf_name (hvalid l List.mem_cons_self) (hleaf l List.mem_cons_self)
    obtain ⟨es, hes⟩ := ih (fun l' hl' => hvalid l' (List.mem_cons_of_mem l hl'))
      (fun l' hl' => hleaf l' (List.mem_cons_of_mem l hl'))
    exact ⟨e :: es, .cons (.leaf he) hes⟩

theorem step_stray {l : Label} (hvalid : l.Valid)
    (hoperand : l.isLeaf = true → s.next.admitsOperand = false)
    (hoperation : s.next.admitsOperation = false) (p : Nat) :
    s.step ⟨.word l.name, p⟩ = .error (l.stray p) := by
  unfold State.step State.word
  cases l with
  | const c =>
    have hatom := Numeral.ofWord?_of_read? (Numeral.read?_write hvalid)
    simp only [Label.name, hatom, State.leaf, hoperand rfl, Bool.false_eq_true, if_false,
      Label.stray]
  | var v =>
    have hatom := Atom.ofWord?_eq_var_iff.2
      ⟨Atom.ofSymbol?_of_ofName? (Variable.ofName?_name v), Variable.ofName?_name v⟩
    simp only [Label.name, hatom, State.leaf, hoperand rfl, Bool.false_eq_true, if_false,
      Label.stray]
  | call op count =>
    have hatom := Atom.ofWord?_eq_operation_iff.2 (Operation.ofSymbol?_symbol op)
    simp only [Label.name, hatom, hoperation, Bool.false_eq_true, if_false, Label.stray]

/-- Behind a leaf that came first nothing may come, and behind an operation leaves may. -/
theorem exists_foldlM_before {labels before : List Label} {l : Label}
    (h : Label.Stray labels before l) (hvalid : ∀ l ∈ labels, l.Valid) :
    ∃ s, (Token.spaced 1 (before.map Label.name)).foldlM State.step State.initial = .ok s ∧
      (l.isLeaf = true → s.next.admitsOperand = false) ∧ s.next.admitsOperation = false := by
  cases h with
  | @behindLeaf first second after hfirst =>
    obtain ⟨e, he⟩ := exists_leaf_name (hvalid first List.mem_cons_self) hfirst
    have hstep := @step_leaf State.initial _ _ he rfl 1
    refine ⟨State.push { State.initial with next := .nothing } (.operand e 1), ?_, ?_, rfl⟩
    · change List.foldlM State.step State.initial [⟨.word first.name, 1⟩] = _
      rw [List.foldlM_cons, hstep]
      rfl
    · exact fun _ => rfl
  | @behindOperation first next between after hfirst hbetween hnext =>
    cases first with
    | const => cases hfirst
    | var => cases hfirst
    | call op count =>
      have hstep := @step_operation State.initial _ _ (Operation.ofSymbol?_symbol op) rfl 1
      have hvalid' : ∀ l ∈ between, l.Valid := fun l hl =>
        hvalid l (List.mem_cons_of_mem _ (List.mem_append_left _ hl))
      obtain ⟨es, hes⟩ := exists_operands_names hvalid' hbetween
      have hlexemes : (Token.spaced (1 + op.symbol.length + 1) (between.map Label.name)).map
          Token.lexeme = between.map fun l => Lexeme.word l.name := by
        rw [Token.map_lexeme_spaced, List.map_map]
        rfl
      -- the leaves are read as operands, behind which no operation may come
      obtain ⟨xs, -, hfold⟩ := @readsAll_of_operands _ _ hes _
        ⟨(Level.empty 0).push (.head op 1), [], .operand⟩ hlexemes rfl rfl
      refine ⟨xs.foldl State.push ⟨(Level.empty 0).push (.head op 1), [], .operand⟩, ?_, ?_, ?_⟩
      · rw [List.map_cons, Token.spaced, List.foldlM_cons]
        change State.initial.step ⟨.word op.symbol, 1⟩ >>= _ = _
        rw [hstep]
        exact hfold
      · intro hleaf
        rw [hnext] at hleaf
        cases hleaf
      · rw [State.foldl_push_outer]
        rfl

end Reader

namespace Expr
open Grammar

theorem ofText_postfixText (e : Expr) :
    Token.ofText e.postfixText = Token.spaced 1 (e.postorder.map Label.name) := by
  have hwords : ∀ w ∈ e.postorder.map Label.name, IsWord w := by
    intro w hw
    obtain ⟨l, -, rfl⟩ := List.mem_map.1 hw
    exact l.isWord_name
  exact Token.scan_intercalate hwords 1

theorem lexemes_postfixText (e : Expr) :
    Lexeme.ofText e.postfixText = e.postorder.map fun l => Lexeme.word l.name := by
  rw [Lexeme.ofText, ofText_postfixText, Token.map_lexeme_spaced, List.map_map]
  rfl

/-- A single word reads back. -/
theorem parse_postfixText_of_operands {e : Expr} (hvalid : e.Valid) (h : e.operands = []) :
    parse e.postfixText = .ok e.dropZeroSigns := by
  have hlexemes := lexemes_postfixText e
  have hoperand := operand_lexemes e hvalid.firstFlaw?
  rw [parse_eq_ok, hlexemes]
  cases e with
  | const c => exact .operand hoperand
  | var v => exact .operand hoperand
  | call op es =>
    obtain rfl : es = [] := h
    have hcount : op.arity.admits 0 = true := hvalid _ List.mem_cons_self
    exact .call (Operation.ofSymbol?_symbol op) .nil hcount

/-- More words than one are a fault of the first label out of place. -/
theorem parse_postfixText_of_stray {e : Expr} (hvalid : e.Valid) {before : List Label} {l : Label}
    (h : Label.Stray e.postorder before l) :
    ∃ p, p = (" ".intercalate (before.map Label.name)).length + 2 ∧
      (Token.ofText e.postfixText)[before.length]? = some ⟨.word l.name, p⟩ ∧
      parse e.postfixText = .error (.located e.postfixText (l.stray p)) := by
  have hvalid' : ∀ l ∈ e.postorder, l.Valid := fun l hl =>
    hvalid l ((postorder_perm e).mem_iff.1 hl)
  obtain ⟨s, hs, hoperand, hoperation⟩ := Reader.exists_foldlM_before h hvalid'
  obtain ⟨after, hsplit⟩ := h.split
  have hne : before.map Label.name ≠ [] := by simpa using h.ne_nil
  have hposition := length_intercalate hne
  have htokens : Token.ofText e.postfixText = Token.spaced 1 (before.map Label.name) ++
      Token.spaced ((" ".intercalate (before.map Label.name)).length + 2)
        (l.name :: after.map Label.name) := by
    rw [ofText_postfixText, hsplit, List.map_append, Token.spaced_append, hposition, List.map_cons,
      Nat.add_comm 1]
  refine ⟨_, rfl, ?_, ?_⟩
  · have hlength : before.length = (Token.spaced 1 (before.map Label.name)).length := by
      rw [Token.length_spaced, List.length_map]
    rw [htokens, hlength, List.getElem?_append_right (Nat.le_refl _), Nat.sub_self]
    rfl
  · have hl : l.Valid := hvalid' l (by rw [hsplit]; simp)
    have hstep := Reader.step_stray hl hoperand hoperation
      ((" ".intercalate (before.map Label.name)).length + 2)
    rw [parse, htokens, Token.spaced, Reader.read_of_step_error hs hstep]
    rfl

/-- The operands-first text of an expression that was read reads back only if the expression has no
operands, and then as an equal one. Otherwise the fault is a label out of place: behind a leaf the
second label, and behind an operation the next operation; it is reported at the position of its
word. -/
theorem parse_postfixText {source : String} {e : Expr} (h : parse source = .ok e) :
    Lexeme.ofText e.postfixText = e.postorder.map (fun l => .word l.name) ∧
      ((∃ e', parse e.postfixText = .ok e') ↔ e.operands = []) ∧
      (∀ e', parse e.postfixText = .ok e' → (e' == e) = true) ∧
      (e.operands ≠ [] → ∃ before l p, Label.Stray e.postorder before l ∧
        p = (" ".intercalate (before.map Label.name)).length + 2 ∧
        (Token.ofText e.postfixText)[before.length]? = some ⟨.word l.name, p⟩ ∧
        parse e.postfixText = .error (.located e.postfixText (l.stray p))) := by
  have hvalid := (parse_eq_ok.1 h).valid
  have hfault : e.operands ≠ [] → ∃ before l p, Label.Stray e.postorder before l ∧
      p = (" ".intercalate (before.map Label.name)).length + 2 ∧
      (Token.ofText e.postfixText)[before.length]? = some ⟨.word l.name, p⟩ ∧
      parse e.postfixText = .error (.located e.postfixText (l.stray p)) := by
    intro hne
    obtain ⟨before, l, hstray⟩ := exists_stray hne
    obtain ⟨p, hp⟩ := parse_postfixText_of_stray hvalid hstray
    exact ⟨before, l, p, hstray, hp⟩
  have hnil : ∀ e', parse e.postfixText = .ok e' → e.operands = [] := by
    intro e' he'
    apply Classical.byContradiction
    intro hne
    obtain ⟨before, l, p, -, -, -, herror⟩ := hfault hne
    rw [herror] at he'
    cases he'
  refine ⟨lexemes_postfixText e, ⟨?_, ?_⟩, ?_, hfault⟩
  · rintro ⟨e', he'⟩
    exact hnil e' he'
  · intro hoperands
    exact ⟨_, parse_postfixText_of_operands hvalid hoperands⟩
  · intro e' he'
    rw [parse_postfixText_of_operands hvalid (hnil e' he')] at he'
    rw [← Except.ok.inj he']
    exact same_dropZeroSigns e hvalid.firstFlaw?

/-- The leaves behind a call without operands are read, and the operation behind them is not. -/
theorem parse_postfixText_sum_first :
    parse "(+ (sum) (* x -7))" =
        .ok (.call .add [.call .sum [], .call .mul [.var .x, .const (-7)]]) ∧
      (∀ e', parse "sum x -7 * +" ≠ .ok e') ∧
      parse "sum x -7 * +" = .error ⟨.strayOperation .mul 10, some ⟨"sum x -7 * +", 10⟩⟩ := by
  have h : parse "(+ (sum) (* x -7))" =
      .ok (.call .add [.call .sum [], .call .mul [.var .x, .const (-7)]]) := by
    decide +kernel
  have htext : (Expr.call .add [.call .sum [], .call .mul [.var .x, .const (-7)]]).postfixText =
      "sum x -7 * +" := by
    decide +kernel
  obtain ⟨-, hiff, -, -⟩ := parse_postfixText h
  rw [htext] at hiff
  refine ⟨h, ?_, by decide +kernel⟩
  intro e' he'
  exact absurd (hiff.1 ⟨e', he'⟩) (List.cons_ne_nil _ _)

end Expr

end PrefixArith
