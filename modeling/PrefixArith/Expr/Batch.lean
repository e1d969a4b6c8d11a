import PrefixArith.Expr.Value

namespace PrefixArith

/-- The rows of a batch, cut into blocks: the values of the rows that a block is through with, and
the rows that are still to come. -/
inductive Batch where
  | block (values : List Float) (rows : List (List Float))
  /-- A row of the block had no value. -/
  | failed (error : EvalError)
  /-- A block whose rows are not all done, and will not be. -/
  | dropped
  | join (left right : Batch)
deriving Repr

namespace Batch

def start (rows : List (List Float)) : Batch := block [] rows

/-- Rows of which none is done, cut into blocks in some way; a block may be empty. -/
inductive Cut : List (List Float) → Batch → Prop
  | start (rows : List (List Float)) : Cut rows (start rows)
  | join {front back : List (List Float)} {l r : Batch} (hleft : Cut front l)
      (hright : Cut back r) : Cut (front ++ back) (join l r)

def hasFailed : Batch → Bool
  | block _ _ | dropped => false
  | failed _ => true
  | join l r => l.hasFailed || r.hasFailed

def hasDropped : Batch → Bool
  | block _ _ | failed _ => false
  | dropped => true
  | join l r => l.hasDropped || r.hasDropped

/-- What can happen in one of the blocks; `stopping` says whether blocks may be dropped. -/
inductive Move (e : Expr) (stopping : Bool) : Batch → Batch → Prop
  /-- The rows to come are cut in two, neither of which is empty. -/
  | split {vs : List Float} {front back : List (List Float)} (hfront : front ≠ [])
      (hback : back ≠ []) :
      Move e stopping (block vs (front ++ back)) (join (block vs front) (block [] back))
  | value {vs : List Float} {row : List Float} {rows : List (List Float)} {v : Float}
      (hrow : e.value row = .ok v) :
      Move e stopping (block vs (row :: rows)) (block (vs ++ [v]) rows)
  | failure {vs : List Float} {row : List Float} {rows : List (List Float)} {err : EvalError}
      (hrow : e.value row = .error err) :
      Move e stopping (block vs (row :: rows)) (failed err)
  | drop {vs : List Float} {row : List Float} {rows : List (List Float)}
      (hstopping : stopping = true) : Move e stopping (block vs (row :: rows)) dropped
  | left {l l' r : Batch} (hmove : Move e stopping l l') : Move e stopping (join l r) (join l' r)
  | right {l r r' : Batch} (hmove : Move e stopping r r') : Move e stopping (join l r) (join l r')

/-- A move in a whole batch, where blocks may be dropped once a row has failed. -/
def Step (e : Expr) (b b' : Batch) : Prop := Move e b.hasFailed b b'

/-- The results that a batch may have: the values of all rows in their order, or the error of a row
that failed. Which error it is when several rows failed is left open. -/
inductive Reports : Batch → Except EvalError (List Float) → Prop
  | block (vs : List Float) : Reports (block vs []) (.ok vs)
  | failed (err : EvalError) : Reports (failed err) (.error err)
  | join {l r : Batch} {us vs : List Float} (hleft : Reports l (.ok us))
      (hright : Reports r (.ok vs)) : Reports (join l r) (.ok (us ++ vs))
  | left {l r : Batch} {err : EvalError} (hleft : Reports l (.error err)) :
      Reports (join l r) (.error err)
  | right {l r : Batch} {err : EvalError} (hright : Reports r (.error err)) :
      Reports (join l r) (.error err)

end Batch

end PrefixArith
