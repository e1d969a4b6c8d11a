import PrefixArith.Lookup
import PrefixArith.Main
import PrefixArith.Proofs.Reader.Diagnosis
import PrefixArith.Proofs.Session.Transparency
import PrefixArith.Proofs.Expr.Evaluation
import PrefixArith.Proofs.Session.Recency
import PrefixArith.Proofs.Reader.Invariant
import PrefixArith.Proofs.Reader.Parentheses
import PrefixArith.Proofs.Expr.ZeroSigns
import PrefixArith.Pattern
import PrefixArith.Proofs.Expr.Postfix
import PrefixArith.Token.Bytes
import PrefixArith.Proofs.Token.Bytes
import PrefixArith.Proofs.Expr.Readability
import PrefixArith.Numeral.Literal
import PrefixArith.Proofs.Binary64.Order
import PrefixArith.Proofs.Decimal.Digits
import PrefixArith.Proofs.Numeral.Literal
import PrefixArith.Proofs.Expr.FixedArity
import PrefixArith.Expr.Batch
import PrefixArith.Proofs.Expr.Batch
import PrefixArith.Proofs.Session.Capacity
import PrefixArith.Proofs.Diagnostic
import PrefixArith.Operation.Extremum
import PrefixArith.Proofs.Operation.Extremum
import PrefixArith.Proofs.Expr.Extremum
