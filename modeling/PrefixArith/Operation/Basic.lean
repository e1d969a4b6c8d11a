namespace PrefixArith

inductive Arity where
  | exactly (count : Nat)
  | variadic
deriving Repr, DecidableEq

namespace Arity

/-- The count that was due, if this one is not admitted. -/
def mismatch? : Arity → Nat → Option Nat
  | exactly due, count => if count = due then none else some due
  | variadic, _ => none

def admits (arity : Arity) (count : Nat) : Bool := (arity.mismatch? count).isNone

@[simp] theorem admits_exactly (due count : Nat) :
    (exactly due).admits count = true ↔ count = due := by
  by_cases h : count = due <;> simp [admits, mismatch?, h]

@[simp] theorem admits_variadic (count : Nat) : variadic.admits count = true := rfl

theorem mismatch?_eq_none_iff {arity : Arity} {count : Nat} :
    arity.mismatch? count = none ↔ arity.admits count = true := by
  simp [admits]

theorem mismatch?_eq_some_iff {arity : Arity} {count due : Nat} :
    arity.mismatch? count = some due ↔ arity = exactly due ∧ count ≠ due := by
  cases arity with
  | exactly n =>
    by_cases h : count = n
    · simp [mismatch?, h]
    · simp only [mismatch?, h, ↓reduceIte, Option.some.injEq, exactly.injEq]
      omega
  | variadic => simp [mismatch?]

end Arity

inductive Operation where
  | add | sub | mul | div | neg | atan | atan2 | min | max | sum | avg
deriving Repr, DecidableEq

namespace Operation

def all : List Operation := [add, sub, mul, div, neg, atan, atan2, min, max, sum, avg]

def symbol : Operation → String
  | add => "+"
  | sub => "-"
  | mul => "*"
  | div => "/"
  | neg => "negate"
  | atan => "atan"
  | atan2 => "atan2"
  | min => "min3"
  | max => "max5"
  | sum => "sum"
  | avg => "avg"

/-- The least and the greatest take any number of operands, whatever their symbols say. -/
def arity : Operation → Arity
  | add | sub | mul | div | atan2 => .exactly 2
  | neg | atan => .exactly 1
  | min | max | sum | avg => .variadic

def ofSymbol? (s : String) : Option Operation := all.find? fun op => op.symbol == s

def index (op : Operation) : Nat := all.idxOf op

theorem mem_all (op : Operation) : op ∈ all := by cases op <;> decide

theorem getElem?_all_index (op : Operation) : all[op.index]? = some op := by cases op <;> rfl

@[simp] theorem ofSymbol?_symbol (op : Operation) : ofSymbol? op.symbol = some op := by
  cases op <;> decide

theorem symbol_of_ofSymbol? {s : String} {op : Operation} (h : ofSymbol? s = some op) :
    op.symbol = s := by
  simpa using List.find?_some h

theorem ofSymbol?_eq_some_iff {s : String} {op : Operation} :
    ofSymbol? s = some op ↔ s = op.symbol :=
  ⟨fun h => (symbol_of_ofSymbol? h).symm, fun h => h ▸ ofSymbol?_symbol op⟩

end Operation

end PrefixArith
