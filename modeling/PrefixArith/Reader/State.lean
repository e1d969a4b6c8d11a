import PrefixArith.Atom
import PrefixArith.Reader.Level
import PrefixArith.Token

namespace PrefixArith.Reader

structure Next where
  admitsOperand : Bool
  admitsOperation : Bool
  admitsOpening : Bool
deriving Repr, DecidableEq

namespace Next

def anything : Next := ⟨true, true, true⟩

def operation : Next := ⟨false, true, false⟩

def operand : Next := ⟨true, false, true⟩

def nothing : Next := ⟨false, false, false⟩

/-- After a leaf more operands may follow, unless it was the first entry of its level. -/
def afterLeaf (first : Bool) : Next := ⟨!first, false, !first⟩

end Next

/-- The outermost level, the levels inside it from the innermost on, and what may come next. -/
structure State where
  outer : Level
  inner : List Level
  next : Next
deriving Repr

namespace State

def initial : State := ⟨.empty 0, [], .anything⟩

def current (s : State) : Level := s.inner.head?.getD s.outer

def push (s : State) (entry : Entry) : State :=
  match s.inner with
  | [] => { s with outer := s.outer.push entry }
  | level :: levels => { s with inner := level.push entry :: levels }

def descend (s : State) (position : Nat) : Except Fault State :=
  if s.next.admitsOpening then .ok ⟨s.outer, .empty position :: s.inner, .operation⟩
  else .error (.strayOpening position)

def ascend (s : State) (position : Nat) : Except Fault State :=
  match s.inner with
  | [] => .error (.strayClosing position)
  | level :: levels =>
    if level.isEmpty then .error (.strayClosing position)
    else do
      let e ← level.toExpr position
      let below : State := ⟨s.outer, levels, .operand⟩
      return below.push (.operand e level.openedAt)

def leaf (s : State) (kind : LeafKind) (e : Expr) (word : String) (position : Nat) :
    Except Fault State :=
  if s.next.admitsOperand then
    .ok { s.push (.operand e position) with next := .afterLeaf s.current.isEmpty }
  else .error (.strayLeaf kind word position)

/-- Adds a word. A word that means nothing is a fault wherever it stands. -/
def word (s : State) (w : String) (position : Nat) : Except Fault State :=
  match Atom.ofWord? w with
  | none => .error (.unknownWord w position)
  | some (.operation op) =>
    if s.next.admitsOperation then .ok { s.push (.head op position) with next := .operand }
    else .error (.strayOperation op position)
  | some (.var v) => s.leaf .named (.var v) w position
  | some (.number c) => s.leaf .numeral (.const c) w position

def step (s : State) (token : Token) : Except Fault State :=
  match token.lexeme with
  | .opening => s.descend token.position
  | .closing => s.ascend token.position
  | .word w => s.word w token.position

def conclude (s : State) (stop : Nat) : Except Fault Expr :=
  if s.inner.isEmpty then
    if s.outer.isEmpty then .error .empty else s.outer.toExpr stop
  else .error (.unclosed stop)

end State

def stopOf (tokens : List Token) : Nat := (tokens.getLast?.map Token.stop).getD 1

def read (tokens : List Token) : Except Fault Expr :=
  tokens.foldlM State.step State.initial >>= fun s => s.conclude (stopOf tokens)

end PrefixArith.Reader
