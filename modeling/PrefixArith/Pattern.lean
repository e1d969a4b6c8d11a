namespace PrefixArith

/-- A place in a text: its offset in bytes and the characters from there on. -/
structure Place where
  offset : Nat
  rest : List Char
deriving Repr, DecidableEq

structure Span (ρ : Type) where
  rule : ρ
  start : Nat
  stop : Nat
deriving Repr, DecidableEq

structure Match (ρ : Type) where
  stop : Place
  spans : List (Span ρ)
deriving Repr, DecidableEq

/-- What a text may look like. A choice takes the first pattern that matches, a repetition goes on
as long as it can, and neither is ever taken back. -/
inductive Pattern (ρ : Type) where
  /-- The beginning of the text. -/
  | atStart
  /-- The end of the text. -/
  | atEnd
  /-- One character of a kind. -/
  | char (admits : Char → Bool)
  /-- Anything, as long as the pattern does not match. No character is taken. -/
  | absent (p : Pattern ρ)
  /-- One pattern and then another. -/
  | seq (p q : Pattern ρ)
  /-- The first pattern if it matches, and otherwise the second. -/
  | either (p q : Pattern ρ)
  /-- A pattern as often as it matches. -/
  | many (p : Pattern ρ)
  /-- A pattern that leaves one span, whatever rules are inside it. -/
  | rule (name : ρ) (p : Pattern ρ)

variable {ρ : Type}

/-- Matches as often as possible. A match that takes no character ends the repetition. -/
def Match.repeated (f : Place → Option (Match ρ)) (place : Place) : Match ρ :=
  match f place with
  | none => ⟨place, []⟩
  | some first =>
    if first.stop.rest.length < place.rest.length then
      let later := Match.repeated f first.stop
      ⟨later.stop, first.spans ++ later.spans⟩
    else ⟨place, []⟩
termination_by place.rest.length

namespace Match

variable {f : Place → Option (Match ρ)} {place : Place}

theorem repeated_of_eq_none (h : f place = none) : repeated f place = ⟨place, []⟩ := by
  rw [repeated, h]

theorem repeated_of_eq_some {first : Match ρ} (h : f place = some first)
    (hlt : first.stop.rest.length < place.rest.length) :
    repeated f place =
      ⟨(repeated f first.stop).stop, first.spans ++ (repeated f first.stop).spans⟩ := by
  rw [repeated, h]
  exact if_pos hlt

end Match

namespace Pattern

def run : Pattern ρ → Place → Option (Match ρ)
  | atStart, place => if place.offset = 0 then some ⟨place, []⟩ else none
  | atEnd, place => if place.rest = [] then some ⟨place, []⟩ else none
  | char admits, place =>
    match place.rest with
    | [] => none
    | c :: rest => if admits c then some ⟨⟨place.offset + c.utf8Size, rest⟩, []⟩ else none
  | absent p, place => if (p.run place).isSome then none else some ⟨place, []⟩
  | seq p q, place =>
    (p.run place).bind fun first =>
      (q.run first.stop).map fun second => ⟨second.stop, first.spans ++ second.spans⟩
  | either p q, place => (p.run place).or (q.run place)
  | many p, place => some (Match.repeated p.run place)
  | rule name p, place =>
    (p.run place).map fun m => ⟨m.stop, [⟨name, place.offset, m.stop.offset⟩]⟩

theorem run_char_of_admits {admits : Char → Bool} {c : Char} (h : admits c = true) (o : Nat)
    (s : List Char) :
    (char admits : Pattern ρ).run ⟨o, c :: s⟩ = some ⟨⟨o + c.utf8Size, s⟩, []⟩ :=
  if_pos h

theorem run_char_of_not_admits {admits : Char → Bool} {c : Char} (h : admits c = false) (o : Nat)
    (s : List Char) : (char admits : Pattern ρ).run ⟨o, c :: s⟩ = none :=
  if_neg (by rw [h]; decide)

def any : Pattern ρ := .char fun _ => true

def oneOrMore (p : Pattern ρ) : Pattern ρ := .seq p (.many p)

end Pattern

end PrefixArith
