import PrefixArith.Proofs.Expr.Lexemes
import PrefixArith.Token.Bytes

namespace PrefixArith

namespace Piece

def stop (q : Piece) : Nat := q.position + q.text.length

/-- The text of a parenthesis is that parenthesis, and the text of a word is not empty and holds
neither parentheses nor blanks. -/
def WellFormed (q : Piece) : Prop :=
  match q.kind with
  | .opening => q.text = "("
  | .closing => q.text = ")"
  | .word => q.text ≠ "" ∧ ∀ c ∈ q.text.toList, c ≠ '(' ∧ c ≠ ')' ∧ Text.isBlank c = false

/-- The text of a piece is what stands at its position, where the first of the characters has the
position `base`. -/
def StandsIn (base : Nat) (s : List Char) (q : Piece) : Prop :=
  ∃ front back, s = front ++ (q.text.toList ++ back) ∧ q.position = base + front.length

/-- What the pieces of characters are, where the first character has the position `base`. -/
structure Tiles (base : Nat) (s : List Char) (ps : List Piece) : Prop where
  /-- Pieces are parentheses and words. -/
  wellFormed : ∀ q ∈ ps, q.WellFormed
  /-- The text of a piece is what stands at its position. -/
  standsIn : ∀ q ∈ ps, q.StandsIn base s
  /-- Pieces are in order and do not overlap. -/
  ordered : ps.Pairwise fun q r => q.stop ≤ r.position
  /-- What is in no piece is blank. -/
  covers : ∀ front c back, s = front ++ c :: back →
    (∀ q ∈ ps, ¬(q.position ≤ base + front.length ∧ base + front.length < q.stop)) →
    Text.isBlank c = true
  /-- There is something between two words. -/
  apart : ps.Pairwise fun q r => q.kind = .word → r.kind = .word → q.stop ≠ r.position

variable {base : Nat} {s : List Char} {ps : List Piece} {q : Piece}

theorem WellFormed.exists_cons (h : q.WellFormed) :
    ∃ c t, q.text.toList = c :: t ∧ Text.isBlank c = false := by
  unfold WellFormed at h
  split at h
  · rw [h]
    exact ⟨'(', [], by decide, by decide⟩
  · rw [h]
    exact ⟨')', [], by decide, by decide⟩
  · have hne : q.text.toList ≠ [] := by
      intro hnil
      exact h.1 (String.toList_inj.1 hnil)
    obtain ⟨c, t, hct⟩ := List.exists_cons_of_ne_nil hne
    exact ⟨c, t, hct, (h.2 c (by rw [hct]; exact List.mem_cons_self)).2.2⟩

theorem WellFormed.length_pos (h : q.WellFormed) : 0 < q.text.length := by
  obtain ⟨c, t, hct, -⟩ := h.exists_cons
  rw [← String.length_toList, hct, List.length_cons]
  exact Nat.succ_pos _

def kindOf (c : Char) : TokenKind :=
  if c = '(' then .opening else if c = ')' then .closing else .word

theorem WellFormed.kind_eq (h : q.WellFormed) {c : Char} {t : List Char}
    (hct : q.text.toList = c :: t) : q.kind = kindOf c := by
  unfold WellFormed at h
  split at h
  · rename_i hkind
    rw [h] at hct
    obtain rfl : '(' = c := (List.cons.inj hct).1
    exact hkind
  · rename_i hkind
    rw [h] at hct
    obtain rfl : ')' = c := (List.cons.inj hct).1
    exact hkind
  · rename_i hkind
    obtain ⟨hopen, hclose, -⟩ := h.2 c (by rw [hct]; exact List.mem_cons_self)
    rw [hkind, kindOf, if_neg hopen, if_neg hclose]

theorem kindOf_of_isWordChar {c : Char} (h : isWordChar c = true) : kindOf c = .word := by
  simp only [isWordChar, Bool.and_eq_true, bne_iff_ne] at h
  rw [kindOf, if_neg h.1.1, if_neg h.1.2]

/-- A word consists of characters of words. -/
theorem WellFormed.inWord (h : q.WellFormed) (hkind : q.kind = .word) :
    Numeral.InWord q.text.toList := by
  unfold WellFormed at h
  rw [hkind] at h
  intro c hc
  obtain ⟨hopen, hclose, hblank⟩ := h.2 c hc
  exact isWordChar_of_ne hopen hclose (by rw [hblank]; decide)

theorem StandsIn.le_position (h : q.StandsIn base s) : base ≤ q.position := by
  obtain ⟨front, back, -, hposition⟩ := h
  omega

theorem StandsIn.append (w : List Char) (h : q.StandsIn (base + w.length) s) :
    q.StandsIn base (w ++ s) := by
  obtain ⟨front, back, rfl, hposition⟩ := h
  refine ⟨w ++ front, back, ?_, ?_⟩
  · rw [List.append_assoc]
  · rw [hposition, List.length_append]
    omega

theorem exists_append_of_append_eq {front back w s : List Char} (h : w ++ s = front ++ back)
    (hlength : w.length ≤ front.length) : ∃ front', front = w ++ front' ∧ s = front' ++ back := by
  rcases List.append_eq_append_iff.1 h with ⟨cs, hfront, hs⟩ | ⟨cs, hw, hback⟩
  · exact ⟨cs, hfront, hs⟩
  · have hcs : cs = [] := by
      rw [hw, List.length_append] at hlength
      exact List.eq_nil_of_length_eq_zero (by omega)
    rw [hcs, List.append_nil] at hw
    rw [hcs, List.nil_append] at hback
    exact ⟨[], by rw [hw, List.append_nil], hback.symm⟩

theorem StandsIn.of_append {w : List Char} (h : q.StandsIn base (w ++ s))
    (hle : base + w.length ≤ q.position) : q.StandsIn (base + w.length) s := by
  obtain ⟨front, back, hsplit, hposition⟩ := h
  obtain ⟨front', rfl, hs⟩ := exists_append_of_append_eq hsplit (by omega)
  refine ⟨front', back, hs, ?_⟩
  rw [hposition, List.length_append]
  omega

/-- What stands at the beginning begins with the first character. -/
theorem StandsIn.exists_of_position {c : Char} (h : q.StandsIn base (c :: s))
    (hq : q.WellFormed) (hposition : q.position = base) :
    ∃ t, q.text.toList = c :: t := by
  obtain ⟨front, back, hsplit, hfront⟩ := h
  obtain rfl : front = [] := List.eq_nil_of_length_eq_zero (by omega)
  obtain ⟨d, t, hdt, -⟩ := hq.exists_cons
  rw [List.nil_append, hdt] at hsplit
  obtain ⟨rfl, -⟩ := List.cons.inj hsplit
  exact ⟨t, hdt⟩

theorem tiles_nil_iff : Tiles base [] ps ↔ ps = [] := by
  constructor
  · intro h
    cases ps with
    | nil => rfl
    | cons q ps =>
      have hlength := (h.wellFormed q List.mem_cons_self).length_pos
      obtain ⟨front, back, hsplit, -⟩ := h.standsIn q List.mem_cons_self
      have hnil := congrArg List.length hsplit
      rw [List.length_append, List.length_append, String.length_toList, List.length_nil] at hnil
      omega
  · rintro rfl
    exact ⟨nofun, nofun, .nil, fun _ _ _ h => by simp at h, .nil⟩

/-- No piece begins with a blank. -/
theorem tiles_blank_iff {c : Char} (hc : Text.isBlank c = true) :
    Tiles base (c :: s) ps ↔ Tiles (base + 1) s ps := by
  constructor
  · intro h
    -- no piece begins with a blank, so all of them lie behind it
    have hlt : ∀ q ∈ ps, base + [c].length ≤ q.position := by
      intro q hq
      apply Nat.lt_of_le_of_ne (h.standsIn q hq).le_position
      intro hposition
      have hwell := h.wellFormed q hq
      obtain ⟨t, ht⟩ := (h.standsIn q hq).exists_of_position hwell hposition.symm
      obtain ⟨d, t', hdt, hd⟩ := hwell.exists_cons
      rw [ht] at hdt
      obtain ⟨rfl, -⟩ := List.cons.inj hdt
      rw [hc] at hd
      cases hd
    refine ⟨h.wellFormed, fun q hq => (h.standsIn q hq).of_append (hlt q hq), h.ordered, ?_,
      h.apart⟩
    intro front d back hs hout
    refine h.covers (c :: front) d back (by rw [hs]; rfl) ?_
    intro q hq
    have hnot := hout q hq
    rw [List.length_cons]
    omega
  · intro h
    refine ⟨h.wellFormed, fun q hq => (h.standsIn q hq).append [c], h.ordered, ?_, h.apart⟩
    intro front d back hs hout
    cases front with
    | nil =>
      obtain ⟨rfl, -⟩ := List.cons.inj hs
      exact hc
    | cons c' front =>
      refine h.covers front d back (List.cons.inj hs).2 ?_
      intro q hq
      have hnot := hout q hq
      rw [List.length_cons] at hnot
      omega

theorem stop_eq_of_position (hbase : q.position = base) :
    q.stop = base + q.text.toList.length := by
  rw [stop, hbase, String.length_toList]

theorem Tiles.of_cons (hbase : q.position = base)
    (h : Tiles base (q.text.toList ++ s) (q :: ps)) :
    Tiles (base + q.text.toList.length) s ps := by
  have hle := (List.pairwise_cons.1 h.ordered).1
  have hstop := stop_eq_of_position hbase
  refine ⟨fun r hr => h.wellFormed r (List.mem_cons_of_mem q hr), ?_,
    (List.pairwise_cons.1 h.ordered).2, ?_, (List.pairwise_cons.1 h.apart).2⟩
  · intro r hr
    have hafter := hle r hr
    exact (h.standsIn r (List.mem_cons_of_mem q hr)).of_append (by omega)
  · intro front c back hs hout
    refine h.covers (q.text.toList ++ front) c back (by rw [hs, List.append_assoc]) ?_
    intro r hr
    rw [List.length_append]
    rcases List.mem_cons.1 hr with rfl | hr
    · omega
    · have hnot := hout r hr
      omega

/-- A character of words just behind a word is in a piece, which would be a second word. -/
theorem Tiles.stopsWord (hbase : q.position = base)
    (h : Tiles base (q.text.toList ++ s) (q :: ps)) (hkind : q.kind = .word) :
    Lexeme.StopsWord s := by
  have hstop := stop_eq_of_position hbase
  intro c hc
  rw [← Bool.not_eq_true]
  intro hword
  obtain ⟨t, rfl⟩ : ∃ t, s = c :: t := by
    cases s with
    | nil => simp at hc
    | cons d t => exact ⟨t, by rw [Option.some.inj hc]⟩
  have hblank := h.covers q.text.toList c t rfl
  rw [isBlank_of_isWordChar hword] at hblank
  refine absurd (hblank ?_) (by decide)
  intro r hr hcover
  rcases List.mem_cons.1 hr with rfl | hr
  · omega
  · have hafter := (List.pairwise_cons.1 h.ordered).1 r hr
    have hposition : r.position = base + q.text.toList.length := by omega
    have hwell := h.wellFormed r (List.mem_cons_of_mem q hr)
    obtain ⟨t', ht'⟩ := ((h.of_cons hbase).standsIn r hr).exists_of_position hwell hposition
    have hapart := (List.pairwise_cons.1 h.apart).1 r hr hkind
      ((hwell.kind_eq ht').trans (kindOf_of_isWordChar hword))
    omega

theorem Tiles.cons (hq : q.WellFormed) (hbase : q.position = base)
    (h : Tiles (base + q.text.toList.length) s ps)
    (hword : q.kind = .word → Lexeme.StopsWord s) :
    Tiles base (q.text.toList ++ s) (q :: ps) := by
  have hstop := stop_eq_of_position hbase
  have hle : ∀ r ∈ ps, q.stop ≤ r.position := by
    intro r hr
    have hposition := (h.standsIn r hr).le_position
    omega
  refine ⟨List.forall_mem_cons.2 ⟨hq, h.wellFormed⟩, ?_, List.pairwise_cons.2 ⟨hle, h.ordered⟩,
    ?_, List.pairwise_cons.2 ⟨?_, h.apart⟩⟩
  · refine List.forall_mem_cons.2 ⟨⟨[], s, rfl, hbase⟩, ?_⟩
    intro r hr
    exact (h.standsIn r hr).append q.text.toList
  · intro front c back hs hout
    have hnot := hout q List.mem_cons_self
    obtain ⟨front', rfl, hs'⟩ := exists_append_of_append_eq hs (by omega)
    refine h.covers front' c back hs' ?_
    intro r hr
    have hnot' := hout r (List.mem_cons_of_mem q hr)
    rw [List.length_append] at hnot'
    omega
  · -- a second word would begin right behind the first one, where no character of words stands
    intro r hr hkind hkind' hposition
    have hwell := h.wellFormed r hr
    obtain ⟨c, t, hct, -⟩ := hwell.exists_cons
    obtain ⟨front, back, hs, hfront⟩ := h.standsIn r hr
    obtain rfl : front = [] := List.eq_nil_of_length_eq_zero (by omega)
    have hc := hword hkind c (by rw [hs, hct]; rfl)
    rw [hwell.inWord hkind' c (by rw [hct]; exact List.mem_cons_self)] at hc
    cases hc

/-- Behind a piece the rest is tiled, and a word does not go on there. -/
theorem tiles_cons_iff (hq : q.WellFormed) (hbase : q.position = base) :
    Tiles base (q.text.toList ++ s) (q :: ps) ↔
      Tiles (base + q.text.length) s ps ∧ (q.kind = .word → Lexeme.StopsWord s) := by
  rw [← String.length_toList]
  exact ⟨fun h => ⟨h.of_cons hbase, h.stopsWord hbase⟩, fun h => .cons hq hbase h.1 h.2⟩

/-- A character that is not blank begins a piece. -/
theorem Tiles.exists_first {c : Char} (h : Tiles base (c :: s) ps)
    (hc : Text.isBlank c = false) :
    ∃ q ps' s', ps = q :: ps' ∧ q.WellFormed ∧ q.position = base ∧
      c :: s = q.text.toList ++ s' := by
  have hcovered : ∃ r ∈ ps, r.position ≤ base ∧ base < r.stop := by
    apply Classical.byContradiction
    intro hnone
    have hblank := h.covers [] c s rfl fun r hr hcover => hnone ⟨r, hr, hcover⟩
    rw [hc] at hblank
    cases hblank
  -- the piece that holds the character is the first, since later ones begin behind it
  obtain ⟨r, hr, hle, hlt⟩ := hcovered
  cases ps with
  | nil => cases hr
  | cons q ps =>
    have hq := h.wellFormed q List.mem_cons_self
    have hlength := hq.length_pos
    have hlow := (h.standsIn q List.mem_cons_self).le_position
    rcases List.mem_cons.1 hr with rfl | hr
    · obtain ⟨front, back, hsplit, hposition⟩ := h.standsIn r List.mem_cons_self
      obtain rfl : front = [] := List.eq_nil_of_length_eq_zero (by omega)
      exact ⟨r, ps, back, rfl, hq, by omega, hsplit⟩
    · have hafter := (List.pairwise_cons.1 h.ordered).1 r hr
      unfold stop at hafter
      omega

theorem eq_of_first {r : Piece} {s' : List Char} (hq : q.WellFormed) (hr : r.WellFormed)
    (hposition : q.position = r.position) (hs : q.text.toList ++ s = r.text.toList ++ s')
    (hqword : q.kind = .word → Lexeme.StopsWord s)
    (hrword : r.kind = .word → Lexeme.StopsWord s') : q = r ∧ s = s' := by
  obtain ⟨c, t, hct, -⟩ := hq.exists_cons
  obtain ⟨c', t', hct', -⟩ := hr.exists_cons
  have hfirst : c = c' := by
    rw [hct, hct', List.cons_append, List.cons_append] at hs
    exact (List.cons.inj hs).1
  have hkind : q.kind = r.kind := by rw [hq.kind_eq hct, hr.kind_eq hct', hfirst]
  -- a word goes on up to the first character that is in no word, which both sides share
  have htext : q.text = r.text := by
    cases hk : q.kind with
    | word =>
      have hqtake := (Lexeme.takeWhile_isWordChar (hq.inWord hk) (hqword hk)).1
      have hk' := hkind.symm.trans hk
      have hrtake := (Lexeme.takeWhile_isWordChar (hr.inWord hk') (hrword hk')).1
      rw [← String.toList_inj, ← hqtake, ← hrtake, hs]
    | opening =>
      unfold WellFormed at hq hr
      rw [hk] at hq
      rw [← hkind, hk] at hr
      exact hq.trans hr.symm
    | closing =>
      unfold WellFormed at hq hr
      rw [hk] at hq
      rw [← hkind, hk] at hr
      exact hq.trans hr.symm
  rw [htext] at hs
  refine ⟨?_, List.append_cancel_left hs⟩
  obtain ⟨kind, text, position⟩ := q
  obtain ⟨kind', text', position'⟩ := r
  obtain rfl : kind = kind' := hkind
  obtain rfl : text = text' := htext
  obtain rfl : position = position' := hposition
  rfl

theorem tiles_first_iff (hq : q.WellFormed) (hbase : q.position = base)
    (hword : q.kind = .word → Lexeme.StopsWord s) :
    Tiles base (q.text.toList ++ s) ps ↔
      ∃ ps', ps = q :: ps' ∧ Tiles (base + q.text.length) s ps' := by
  constructor
  · intro h
    obtain ⟨c, t, hct, hc⟩ := hq.exists_cons
    have hfirst := h
    rw [hct, List.cons_append] at hfirst
    obtain ⟨r, ps', s', rfl, hr, hrbase, hs⟩ := hfirst.exists_first hc
    rw [← List.cons_append, ← hct] at hs
    rw [hs] at h
    obtain ⟨hrest, hrword⟩ := (tiles_cons_iff hr hrbase).1 h
    obtain ⟨rfl, rfl⟩ := eq_of_first hq hr (hbase.trans hrbase.symm) hs hword hrword
    exact ⟨ps', rfl, hrest⟩
  · rintro ⟨ps', rfl, hrest⟩
    exact (tiles_cons_iff hq hbase).2 ⟨hrest, hword⟩

theorem tiles_token_iff {t : Token} {us : List Token} {p : Nat} (ht : t.piece.WellFormed)
    (hword : t.piece.kind = .word → Lexeme.StopsWord s) (hstop : t.stop = p)
    (hrest : ∀ {ps}, Tiles p s ps ↔ ps = us.map Token.piece) :
    Tiles t.position (t.lexeme.text.toList ++ s) ps ↔ ps = (t :: us).map Token.piece := by
  subst hstop
  refine (tiles_first_iff ht rfl hword).trans ?_
  constructor
  · rintro ⟨ps', rfl, htiles⟩
    rw [hrest.1 htiles]
    rfl
  · intro h
    exact ⟨us.map Token.piece, h, hrest.2 rfl⟩

/-- Only the tokens of the tokenizer tile the characters. -/
theorem tiles_iff : Tiles base s ps ↔ ps = (Token.scan base s).map Token.piece := by
  fun_induction Token.scan base s generalizing ps with
  | case1 => exact tiles_nil_iff
  | case2 p rest ih =>
    have hstop : Token.stop ⟨.opening, p⟩ = p + 1 := by
      rw [Token.stop, ← String.length_toList, Lexeme.toList_text_opening]
      rfl
    have hkind : TokenKind.opening ≠ .word := by decide
    have htoken := @tiles_token_iff rest ps ⟨.opening, p⟩ _ _ rfl (absurd · hkind) hstop ih
    rwa [Lexeme.toList_text_opening] at htoken
  | case3 p rest _ ih =>
    have hstop : Token.stop ⟨.closing, p⟩ = p + 1 := by
      rw [Token.stop, ← String.length_toList, Lexeme.toList_text_closing]
      rfl
    have hkind : TokenKind.closing ≠ .word := by decide
    have htoken := @tiles_token_iff rest ps ⟨.closing, p⟩ _ _ rfl (absurd · hkind) hstop ih
    rwa [Lexeme.toList_text_closing] at htoken
  | case4 p c rest _ _ hblank ih => exact (tiles_blank_iff hblank).trans ih
  | case5 p c rest hopen hclose hblank tail =>
    rename_i ih
    have hc : isWordChar c = true := isWordChar_of_ne hopen hclose hblank
    obtain ⟨hne, hword, -, hstops⟩ := Token.between_first_word hc rest
    have hwell : (Token.piece ⟨.word (String.ofList (c :: tail)), p⟩).WellFormed := by
      refine ⟨fun hempty => hne (String.toList_eq_nil_iff.2 hempty), ?_⟩
      intro d hd
      have hd' := hword d hd
      simp only [isWordChar, Bool.and_eq_true, bne_iff_ne, Bool.not_eq_true'] at hd'
      exact ⟨hd'.1.1, hd'.1.2, hd'.2⟩
    have hstop : Token.stop ⟨.word (String.ofList (c :: tail)), p⟩ = p + 1 + tail.length := by
      rw [Token.stop, Lexeme.text_word, String.length_ofList, List.length_cons]
      exact (Nat.add_right_comm p 1 tail.length).symm
    have htoken := @tiles_token_iff _ ps _ _ _ hwell (fun _ => hstops) hstop ih
    rw [Lexeme.text_word, String.toList_ofList, List.cons_append,
      List.takeWhile_append_dropWhile] at htoken
    exact htoken

end Piece

end PrefixArith
