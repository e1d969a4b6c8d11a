import PrefixArith.Proofs.Reader.Layout
import PrefixArith.Proofs.Reader.Places

namespace PrefixArith

namespace Token

def shift (k : Nat) (t : Token) : Token := ⟨t.lexeme, t.position + k⟩

@[simp] theorem lexeme_shift (k : Nat) (t : Token) : (t.shift k).lexeme = t.lexeme := rfl

theorem scan_add (k p : Nat) (s : List Char) : scan (p + k) s = (scan p s).map (shift k) := by
  fun_induction scan p s with
  | case1 => simp [scan]
  | case2 p rest ih => rw [scan, if_pos rfl, Nat.add_right_comm, ih, List.map_cons, shift]
  | case3 p rest h ih =>
    rw [scan, if_neg h, if_pos rfl, Nat.add_right_comm, ih, List.map_cons, shift]
  | case4 p c rest h₁ h₂ h₃ ih =>
    rw [scan, if_neg h₁, if_neg h₂, if_pos h₃, Nat.add_right_comm, ih]
  | case5 p c rest h₁ h₂ h₃ tail ih =>
    rw [scan, if_neg h₁, if_neg h₂, if_neg h₃, List.map_cons, ← ih, shift]
    dsimp only
    congr 2
    change p + k + 1 + tail.length = p + 1 + tail.length + k
    omega

theorem takeWhile_concat_closing (s : List Char) :
    (s ++ [')']).takeWhile isWordChar = s.takeWhile isWordChar := by
  induction s with
  | nil => simp [isWordChar_closing]
  | cons c s ih => rw [List.cons_append, List.takeWhile_cons, List.takeWhile_cons, ih]

theorem dropWhile_concat_closing (s : List Char) :
    (s ++ [')']).dropWhile isWordChar = s.dropWhile isWordChar ++ [')'] := by
  induction s with
  | nil => simp [isWordChar_closing]
  | cons c s ih =>
    rw [List.cons_append, List.dropWhile_cons, List.dropWhile_cons, ih]
    split <;> rfl

/-- No word goes on into a parenthesis that closes. -/
theorem scan_concat_closing (p : Nat) (s : List Char) :
    scan p (s ++ [')']) = scan p s ++ [⟨.closing, p + s.length⟩] := by
  fun_induction scan p s with
  | case1 => simp [scan]
  | case2 p rest ih =>
    rw [List.cons_append, scan, if_pos rfl, ih, List.cons_append, List.length_cons, Nat.add_assoc,
      Nat.add_comm 1]
  | case3 p rest h ih =>
    rw [List.cons_append, scan, if_neg h, if_pos rfl, ih, List.cons_append, List.length_cons,
      Nat.add_assoc, Nat.add_comm 1]
  | case4 p c rest h₁ h₂ h₃ ih =>
    rw [List.cons_append, scan, if_neg h₁, if_neg h₂, if_pos h₃, ih, List.length_cons,
      Nat.add_assoc, Nat.add_comm 1]
  | case5 p c rest h₁ h₂ h₃ tail ih =>
    have hlength : tail.length + (rest.dropWhile isWordChar).length = rest.length := by
      rw [← List.length_append, List.takeWhile_append_dropWhile]
    rw [List.cons_append, scan, if_neg h₁, if_neg h₂, if_neg h₃]
    dsimp only
    rw [takeWhile_concat_closing, dropWhile_concat_closing, ih, List.cons_append, List.length_cons,
      ← hlength]
    congr 4
    omega

/-- Tokens between parentheses, each one character further on. -/
def parenthesize (ts : List Token) (stop : Nat) : List Token :=
  ⟨.opening, 1⟩ :: (ts.map (shift 1) ++ [⟨.closing, stop⟩])

theorem ofText_parentheses (source : String) :
    ofText ("(" ++ source ++ ")") = parenthesize (ofText source) (source.length + 2) := by
  have hchars : ("(" ++ source ++ ")").toList = '(' :: (source.toList ++ [')']) := by simp
  rw [ofText, hchars, scan, if_pos rfl, scan_concat_closing, scan_add 1 1, String.length_toList,
    parenthesize, ofText, Nat.add_comm (1 + 1)]

/-- A text that does not end in a blank ends with its last token. -/
theorem stopOf_ofText {source : String} (hne : ofText source ≠ [])
    (hend : ∀ c ∈ source.toList.getLast?, Text.isBlank c = false) :
    Reader.stopOf (ofText source) = source.length + 1 := by
  obtain ⟨front, c, back, hs, hc, hback, hstop⟩ := endsAt_stopOf hne
  rcases List.eq_nil_or_concat' back with rfl | ⟨bs, b, rfl⟩
  · rw [hstop, ← String.length_toList, hs, List.length_append, List.length_singleton]
  · -- the text would end in a blank
    rw [← List.cons_append, ← List.append_assoc] at hs
    rw [hs, List.getLast?_concat] at hend
    have hblank := hback b (List.mem_append_right bs List.mem_cons_self)
    rw [hend b rfl] at hblank
    cases hblank

theorem map_lexeme_parenthesize (ts : List Token) (stop : Nat) :
    (parenthesize ts stop).map Token.lexeme =
      .opening :: (ts.map Token.lexeme ++ [.closing]) := by
  simp [parenthesize, Function.comp_def]

end Token

open Grammar in
/-- A call spells the same expression with its parentheses and without them. -/
theorem Grammar.sentence_parentheses_iff {us : List Lexeme} {e : Expr}
    (hop : Lexeme.startsWithOperation us = true) :
    Sentence (.opening :: (us ++ [.closing])) e ↔ Sentence us e := by
  constructor
  · intro h
    generalize hws : Lexeme.opening :: (us ++ [.closing]) = ws at h
    cases h with
    | call => cases hws
    | operand he =>
      cases he with
      | leaf => cases hws
      | call hw hes hcount =>
        obtain ⟨-, hws⟩ := List.cons.inj hws
        rw [← List.cons_append, List.append_left_inj] at hws
        rw [hws]
        exact .call hw hes hcount
  · intro h
    cases h with
    | operand he =>
      rw [he.not_startsWithOperation] at hop
      cases hop
    | call hw hes hcount => exact .operand (.call hw hes hcount)

theorem Lexeme.startsWithOperation_take (us : List Lexeme) (i : Nat) :
    startsWithOperation (us.take (i + 1)) = startsWithOperation us := by
  cases us with
  | nil => rfl
  | cons u us => cases u <;> rfl

namespace LookBack
open Grammar

theorem Closed.not_justOpened {us : List Lexeme} (h : Closed us) : justOpened us = false := by
  rw [justOpened, decide_eq_false_iff_not, List.getLast?_eq_some_iff]
  rintro ⟨vs, rfl⟩
  have hle := h [.opening] (List.suffix_append vs _)
  simp at hle

theorem count_le_of_openGroup? {us : List Lexeme} (h : openGroup? us = none) :
    us.count .opening ≤ us.count .closing := by
  induction us with
  | nil => exact Nat.le_refl 0
  | cons u us ih =>
    rw [openGroup?] at h
    split at h
    · cases h
    · rename_i hnone
      have hle := ih hnone
      cases u with
      | opening =>
        -- with as many behind it, this would be the group that was looked for
        have hne : us.count .opening ≠ us.count .closing := by
          intro heq
          rw [if_pos ⟨rfl, heq⟩] at h
          cases h
        rw [List.count_cons_self, List.count_cons_of_ne (by decide)]
        omega
      | closing =>
        rw [List.count_cons_self, List.count_cons_of_ne (by decide)]
        exact Nat.le_succ_of_le hle
      | word w =>
        rwa [List.count_cons_of_ne (by simp), List.count_cons_of_ne (by simp)]

theorem openGroup?_cons_of_lt {us : List Lexeme} (h : us.count .closing < us.count .opening)
    (u : Lexeme) : openGroup? (u :: us) = openGroup? us := by
  rw [openGroup?]
  cases hus : openGroup? us with
  | none => exact absurd (count_le_of_openGroup? hus) (Nat.not_le.2 h)
  | some vs => rfl

theorem count_ne_of_opening {us : List Lexeme} (h : us.count .closing ≤ us.count .opening) :
    (Lexeme.opening :: us).count .opening ≠ (Lexeme.opening :: us).count .closing := by
  rw [List.count_cons_self, List.count_cons_of_ne (by decide)]
  exact (Nat.lt_succ_of_le h).ne'

theorem justOpened_cons {us : List Lexeme} (h : us ≠ []) (u : Lexeme) :
    justOpened (u :: us) = justOpened us := by
  rw [justOpened, justOpened, List.getLast?_cons_of_ne_nil h]

/-- The objection to the parenthesis that closes all of the lexemes counts their operands. -/
theorem objection?_closing_outer {us : List Lexeme} {p : Nat} (hne : us ≠ []) (h : Closed us)
    (hcount : us.count .opening = us.count .closing) :
    objection? (.opening :: us) ⟨.closing, p⟩ = countFault? p us := by
  have hgroup : openGroup? (.opening :: us) = some us := @openGroup?_append [] us h hcount
  have hneither : ¬((Lexeme.opening :: us).count .opening = (Lexeme.opening :: us).count .closing ∨
      justOpened (.opening :: us) = true) := by
    rw [justOpened_cons hne, h.not_justOpened]
    exact not_or.2 ⟨count_ne_of_opening (Nat.le_of_eq hcount.symm), Bool.false_ne_true⟩
  rw [objection?_closing, if_neg hneither, hgroup, Option.bind_some]

theorem isLoneLeaf_of_startsWithOperation {us : List Lexeme}
    (h : Lexeme.startsWithOperation us = true) : isLoneLeaf us = false := by
  unfold Lexeme.startsWithOperation at h
  split at h
  · obtain ⟨op, hop⟩ := Option.isSome_iff_exists.1 h
    exact isLoneLeaf_of_operation hop
  · cases h

/-- An outer parenthesis makes no difference behind an operation, unless it is the only one that is
left to close. -/
theorem objection?_inside {before : List Lexeme} {t : Token}
    (hop : Lexeme.startsWithOperation before = true)
    (hcount : before.count .closing ≤ before.count .opening)
    (hpaired : t.lexeme = .closing → before.count .opening ≠ before.count .closing) :
    objection? (.opening :: before) t = objection? before t := by
  have hne : before ≠ [] := by
    rintro rfl
    cases hop
  have hopened := justOpened_cons hne .opening
  have hlone := isLoneLeaf_of_startsWithOperation hop
  have hlone' : isLoneLeaf (.opening :: before) = false :=
    isLoneLeaf_of_opening_mem List.mem_cons_self
  obtain ⟨lexeme, p⟩ := t
  cases lexeme with
  | opening =>
    unfold objection?
    rw [hopened, hlone, hlone']
  | closing =>
    have hopen := hpaired rfl
    have hgroup := openGroup?_cons_of_lt (Nat.lt_of_le_of_ne hcount hopen.symm) .opening
    have hopen' := count_ne_of_opening hcount
    rw [objection?_closing, objection?_closing, hopened, hgroup]
    simp only [hopen, hopen', false_or]
  | word w =>
    unfold objection?
    rw [hopened, hlone, hlone']
    simp only [hne, List.cons_ne_nil, false_or]

theorem objection?_of_operation {before : List Lexeme} {w : String} {op : Operation} {p : Nat}
    (hw : Operation.ofSymbol? w = some op) (hplace : before = [] ∨ justOpened before = true) :
    objection? before ⟨.word w, p⟩ = none := by
  unfold objection?
  simp only [Atom.ofWord?_eq_operation_iff.2 hw, hplace, if_true]

theorem objection?_shift (k : Nat) (before : List Lexeme) (t : Token) :
    objection? before (t.shift k) = (objection? before t).map (Fault.mapPosition (· + k)) := by
  cases h : objection? before t with
  | none => exact objection?_eq_none h _
  | some f =>
    obtain ⟨hposition, hmoves⟩ := objection?_moves h
    rw [Option.map_some, Fault.mapPosition_eq hposition]
    exact hmoves _

theorem objection?_closing_of_count {before : List Lexeme}
    (h : before.count .opening = before.count .closing) (p : Nat) :
    objection? before ⟨.closing, p⟩ = some (.strayClosing p) := by
  rw [objection?_closing, if_pos (Or.inl h)]

/-- Where there is no objection to a closing parenthesis there is one to close. -/
theorem count_ne_of_objection? {before : List Lexeme} {t : Token} (h : objection? before t = none)
    (ht : t.lexeme = .closing) : before.count .opening ≠ before.count .closing := by
  intro hcount
  obtain ⟨lexeme, p⟩ := t
  obtain rfl : lexeme = .closing := ht
  rw [objection?_closing_of_count hcount] at h
  cases h

end LookBack

/-- The parentheses among the tokens do not pair: one is left open, or one closes before which as
many close as open. -/
inductive Fault.Unpaired (ts : List Token) : Fault → Prop
  | unclosed (p : Nat) : Unpaired ts (.unclosed p)
  | strayClosing {before after : List Token} {p : Nat} (hts : ts = before ++ ⟨.closing, p⟩ :: after)
      (hcount : (before.map Token.lexeme).count .opening =
        (before.map Token.lexeme).count .closing) : Unpaired ts (.strayClosing p)

namespace Reader
open LookBack Grammar Token

theorem Spelled.closed {xs : List Entry} {ts : List Token} (h : Spelled xs ts) :
    Closed (ts.map Token.lexeme) := by
  induction h with
  | nil => exact .of_not_mem (by simp)
  | cons hx _ ih =>
    rw [List.map_append]
    refine Closed.append ?_ ih
    cases hx with
    | head => exact .of_not_mem (by simp)
    | operand he => exact closed_of_operand he

variable {ts : List Token}

/-- Once every parenthesis is closed, none is left open at any place. -/
theorem After.closed {s : State} (h : After s ts)
    (hcount : (ts.map Token.lexeme).count .opening = (ts.map Token.lexeme).count .closing) :
    Closed (ts.map Token.lexeme) := by
  obtain ⟨outer, inner, next⟩ := s
  have hlevels := h.stacked.count_eq
  have hinner : inner.length = 0 := by
    dsimp only at hlevels
    omega
  obtain rfl := List.length_eq_zero_iff.1 hinner
  cases h.stacked with
  | outer hspelled => exact hspelled.closed

theorem objectionAt?_parenthesize {i : Nat} {t : Token} (ht : ts[i]? = some t) (stop : Nat) :
    objectionAt? (parenthesize ts stop) (i + 1) =
      objection? (.opening :: (ts.take i).map Token.lexeme) (t.shift 1) := by
  obtain ⟨hi, -⟩ := List.getElem?_eq_some_iff.1 ht
  have hlength : i < (ts.map (shift 1)).length := by rwa [List.length_map]
  unfold objectionAt? parenthesize
  rw [List.getElem?_cons_succ, List.getElem?_append_left hlength, List.getElem?_map, ht,
    List.take_succ_cons, List.take_append_of_le_length (Nat.le_of_lt hlength)]
  simp [Function.comp_def]

theorem objectionAt?_eq_objection? {i : Nat} {t : Token} (ht : ts[i]? = some t) :
    objectionAt? ts i = objection? ((ts.take i).map Token.lexeme) t := by
  rw [objectionAt?, ht, Option.bind_some]

section
variable (hop : Lexeme.startsWithOperation (ts.map Token.lexeme) = true)
include hop

/-- Between parentheses there is the same objection to a token, one position further on. -/
theorem objectionAt?_inside {i : Nat} {t : Token} (ht : ts[i]? = some t)
    (hbefore : ∀ j < i, objectionAt? ts j = none)
    (hpaired : t.lexeme = .closing → ((ts.take i).map Token.lexeme).count .opening ≠
      ((ts.take i).map Token.lexeme).count .closing) (stop : Nat) :
    objectionAt? (parenthesize ts stop) (i + 1) =
      (objectionAt? ts i).map (Fault.mapPosition (· + 1)) := by
  rw [objectionAt?_parenthesize ht, objectionAt?_eq_objection? ht, ← objection?_shift]
  cases i with
  | zero =>
    -- the operation may come first, and behind a parenthesis that has just been opened
    cases ts with
    | nil => cases ht
    | cons u us =>
      obtain rfl : u = t := Option.some.inj ht
      obtain ⟨lexeme, p⟩ := u
      cases lexeme with
      | opening => cases hop
      | closing => cases hop
      | word w =>
        obtain ⟨op, hw⟩ := Option.isSome_iff_exists.1 hop
        exact (objection?_of_operation hw (Or.inr rfl)).trans
          (objection?_of_operation hw (Or.inl rfl)).symm
  | succ i =>
    obtain ⟨s, -, hafter⟩ := exists_after_take ts hbefore
    have hle : ((ts.take (i + 1)).map Token.lexeme).count .closing ≤
        ((ts.take (i + 1)).map Token.lexeme).count .opening := by
      rw [hafter.stacked.count_eq]
      exact Nat.le_add_right _ _
    refine objection?_inside ?_ hle hpaired
    rw [List.map_take, Lexeme.startsWithOperation_take]
    exact hop

theorem objectionAt?_inside_eq_none {i : Nat} (hi : i ≤ ts.length)
    (hbefore : ∀ j < i, objectionAt? ts j = none) (stop : Nat) :
    ∀ j < i + 1, objectionAt? (parenthesize ts stop) j = none := by
  intro j hj
  cases j with
  | zero => rfl
  | succ j =>
    have hj : j < i := Nat.lt_of_succ_lt_succ hj
    have ht : ts[j]? = some ts[j] := List.getElem?_eq_getElem (Nat.lt_of_lt_of_le hj hi)
    have hnone := hbefore j hj
    have hpaired := hnone
    rw [objectionAt?_eq_objection? ht] at hpaired
    rw [objectionAt?_inside hop ht (fun k hk => hbefore k (Nat.lt_trans hk hj))
      (count_ne_of_objection? hpaired), hnone]
    rfl

/-- Where such tokens end and their parentheses pair, the parenthesis that closes the whole meets
with the same fault. -/
theorem objectionAt?_parenthesize_last {f : Fault} (hnone : ∀ i, objectionAt? ts i = none)
    (hend : EndFault ts f) (hpaired : ¬f.Unpaired ts) :
    objectionAt? (parenthesize ts (stopOf ts + 1)) (ts.length + 1) =
      some (f.mapPosition (· + 1)) := by
  -- an operation comes first and all parentheses pair, so only the count can be wrong
  cases hend with
  | empty => cases hop
  | unclosed => exact absurd (.unclosed _) hpaired
  | @surplus us _ _ _ hne _ hstart =>
    have hmap : us.map Token.lexeme ≠ [] := mt List.map_eq_nil_iff.1 hne
    rw [List.map_append, Lexeme.startsWithOperation_append hmap, hstart] at hop
    cases hop
  | count hcount hf =>
    obtain ⟨s, -, hafter⟩ := exists_after_take ts fun j (_ : j < ts.length) => hnone j
    rw [List.take_length] at hafter
    have hclosed := hafter.closed hcount
    have hne : ts.map Token.lexeme ≠ [] := by
      intro hnil
      rw [hnil] at hop
      cases hop
    have hlast : (parenthesize ts (stopOf ts + 1))[ts.length + 1]? =
        some ⟨.closing, stopOf ts + 1⟩ := by
      simp [parenthesize]
    have hbefore : ((parenthesize ts (stopOf ts + 1)).take (ts.length + 1)).map Token.lexeme =
        .opening :: ts.map Token.lexeme := by
      simp [parenthesize, Function.comp_def]
    obtain ⟨hposition, hmoves⟩ := countFault?_moves hf
    rw [objectionAt?_eq_objection? hlast, hbefore, objection?_closing_outer hne hclosed hcount,
      Fault.mapPosition_eq hposition]
    exact hmoves _

/-- The fault of tokens that start with an operation and whose parentheses pair is found between
parentheses as well, one position further on. -/
theorem read_parenthesize_eq_error {f : Fault} (hf : read ts = .error f)
    (hpaired : ¬f.Unpaired ts) :
    read (parenthesize ts (stopOf ts + 1)) = .error (f.mapPosition (· + 1)) := by
  rcases read_eq_error_iff.1 hf with ⟨i, hi, hbefore⟩ | ⟨hnone, hend⟩
  · obtain ⟨t, ht, hobjection⟩ := Option.bind_eq_some_iff.1 hi
    have hlt := (List.getElem?_eq_some_iff.1 ht).1
    have hclosing : t.lexeme = .closing → ((ts.take i).map Token.lexeme).count .opening ≠
        ((ts.take i).map Token.lexeme).count .closing := by
      intro hlexeme hcount
      obtain ⟨lexeme, p⟩ := t
      obtain rfl : lexeme = .closing := hlexeme
      rw [objection?_closing_of_count hcount] at hobjection
      obtain rfl := Option.some.inj hobjection
      exact hpaired (.strayClosing (eq_take_append_cons_drop ht) hcount)
    apply @read_of_objectionAt? _ (i + 1)
    · rw [objectionAt?_inside hop ht hbefore hclosing, hi]
      rfl
    · exact objectionAt?_inside_eq_none hop (Nat.le_of_lt hlt) hbefore _
  · apply @read_of_objectionAt? _ (ts.length + 1)
    · exact objectionAt?_parenthesize_last hop hnone hend hpaired
    · exact objectionAt?_inside_eq_none hop (Nat.le_refl _) (fun j _ => hnone j) _

end

theorem exists_position_of_read {f : Fault} (hne : ts ≠ []) (h : read ts = .error f) :
    ∃ p, f.position? = some p := by
  rcases read_eq_error_iff.1 h with ⟨i, hi, -⟩ | ⟨-, hend⟩
  · obtain ⟨t, -, hobjection⟩ := Option.bind_eq_some_iff.1 hi
    exact ⟨_, (objection?_moves hobjection).1⟩
  · cases hend with
    | empty => exact absurd rfl hne
    | count _ hf => exact ⟨_, (countFault?_moves hf).1⟩
    | unclosed => exact ⟨_, rfl⟩
    | surplus => exact ⟨_, rfl⟩

end Reader

namespace Expr
variable {source : String}

theorem parse_parentheses_eq_ok (hop : Lexeme.startsWithOperation (Lexeme.ofText source) = true)
    (e : Expr) : parse ("(" ++ source ++ ")") = .ok e ↔ parse source = .ok e := by
  rw [parse_eq_ok, parse_eq_ok, Lexeme.ofText, Token.ofText_parentheses,
    Token.map_lexeme_parenthesize]
  exact Grammar.sentence_parentheses_iff hop

/-- A text that starts with an operation and does not end in a blank has in parentheses the same
expression, or the same fault one position further on. If its own parentheses do not pair it has no
expression either way. -/
theorem parse_parentheses (hop : Lexeme.startsWithOperation (Lexeme.ofText source) = true)
    (hend : ∀ c ∈ source.toList.getLast?, Text.isBlank c = false) :
    (∀ e, parse ("(" ++ source ++ ")") = .ok e ↔ parse source = .ok e) ∧
      ∀ d, parse source = .error d →
        (d.fault.Unpaired (Token.ofText source) →
          ∃ d', parse ("(" ++ source ++ ")") = .error d') ∧
        (¬d.fault.Unpaired (Token.ofText source) →
          (∃ p, d.fault.position? = some p) ∧
          parse ("(" ++ source ++ ")") =
            .error (.located ("(" ++ source ++ ")") (d.fault.mapPosition (· + 1)))) := by
  refine ⟨parse_parentheses_eq_ok hop, fun d hd => ⟨fun _ => ?_, fun hpaired => ?_⟩⟩
  · cases hparse : parse ("(" ++ source ++ ")") with
    | error d' => exact ⟨d', rfl⟩
    | ok e =>
      rw [parse_parentheses_eq_ok hop, hd] at hparse
      cases hparse
  · have hne : Token.ofText source ≠ [] := by
      intro hnil
      rw [Lexeme.ofText, hnil] at hop
      cases hop
    unfold parse at hd
    cases hread : Reader.read (Token.ofText source) with
    | ok e =>
      rw [hread] at hd
      cases hd
    | error f =>
      rw [hread] at hd
      obtain rfl := Except.error.inj hd
      refine ⟨Reader.exists_position_of_read hne hread, ?_⟩
      have hparenthesized := Reader.read_parenthesize_eq_error hop hread hpaired
      rw [Token.stopOf_ofText hne hend] at hparenthesized
      rw [parse, Token.ofText_parentheses, hparenthesized]
      rfl

/-- One operand too many is counted where the text ends, and where the parenthesis does. -/
theorem parse_parentheses_negate :
    Lexeme.startsWithOperation (Lexeme.ofText "negate x y") = true ∧
      (∀ c ∈ "negate x y".toList.getLast?, Text.isBlank c = false) ∧
      parse "negate x y" = .error (.located "negate x y" (.wrongCount .neg 11 1 2)) ∧
      ¬(Fault.wrongCount .neg 11 1 2).Unpaired (Token.ofText "negate x y") ∧
      parse "(negate x y)" = .error (.located "(negate x y)" (.wrongCount .neg 12 1 2)) := by
  have hop : Lexeme.startsWithOperation (Lexeme.ofText "negate x y") = true := by cbv
  have hend : ∀ c ∈ "negate x y".toList.getLast?, Text.isBlank c = false := by
    rintro c ⟨⟩
    decide
  have hbare : parse "negate x y" =
      .error (.located "negate x y" (.wrongCount .neg 11 1 2)) := by
    cbv
  have hpaired : ¬(Fault.wrongCount .neg 11 1 2).Unpaired (Token.ofText "negate x y") := by
    rintro ⟨⟩
  exact ⟨hop, hend, hbare, hpaired, (((parse_parentheses hop hend).2 _ hbare).2 hpaired).2⟩

end Expr

end PrefixArith
