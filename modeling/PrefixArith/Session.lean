import PrefixArith.Cache
import PrefixArith.Expr.Parse
import PrefixArith.Expr.Postorder

namespace PrefixArith

/-- An expression with the identity it was built under. -/
structure Tree where
  identity : Nat
  expr : Expr
deriving Repr, DecidableEq

structure Session (γ : Type) where
  cache : γ
  fresh : Nat
deriving Repr

inductive Request where
  | parse (source : String)
  | evaluate (source : String) (assignment : List Float)
  | evaluateOnEach (source : String) (rows : List (List Float))
  | clear
deriving Repr, DecidableEq

inductive Response where
  | tree (result : Except Diagnostic Tree)
  | value (result : Except Failure Float)
  | values (result : Except Failure (List Float))
  | cleared

namespace Session

variable {γ : Type} (ops : CacheOps γ String Tree)

/-- A session that remembers up to `capacity` trees, and at least one. -/
def new (capacity : Nat) : Session γ := ⟨ops.new (max capacity 1) (Nat.le_max_right _ _), 0⟩

def defaultCapacity : Nat := 100

/-- The tree of a text: the one remembered, or else one that is built and remembered. A text that
fails is not remembered. -/
def tree (s : Session γ) (source : String) : Except Diagnostic Tree × Session γ :=
  match ops.get s.cache source with
  | (some t, cache) => (.ok t, ⟨cache, s.fresh⟩)
  | (none, cache) =>
    match Expr.parse source with
    | .error d => (.error d, ⟨cache, s.fresh⟩)
    | .ok e =>
      let t : Tree := ⟨s.fresh, e⟩
      (.ok t, ⟨ops.put cache source t, s.fresh + 1⟩)

def ask {α : Type} (s : Session γ) (source : String) (question : Expr → Except EvalError α) :
    Except Failure α × Session γ :=
  let (result, s) := s.tree ops source
  (result.mapError Failure.parse >>= fun t => (question t.expr).mapError Failure.value, s)

def step (s : Session γ) : Request → Response × Session γ
  | .parse source => let (result, s) := s.tree ops source; (.tree result, s)
  | .evaluate source assignment =>
    let (result, s) := s.ask ops source fun e => e.value assignment
    (.value result, s)
  | .evaluateOnEach source rows =>
    let (result, s) := s.ask ops source fun e => e.valueOnEach rows
    (.values result, s)
  | .clear => (.cleared, ⟨ops.clear s.cache, s.fresh⟩)

/-- Answers requests in order, each with the number of trees remembered after it. -/
def run (s : Session γ) : List Request → List (Response × Nat)
  | [] => []
  | request :: requests =>
    let (response, s) := s.step ops request
    (response, ops.size s.cache) :: s.run requests

/-- The answers of a new session that keeps its trees in a list. -/
def answers (capacity : Nat) (requests : List Request) : List (Response × Nat) :=
  (new Cache.ops capacity).run Cache.ops requests

end Session

end PrefixArith
