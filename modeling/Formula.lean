import Formula.Expr.Postorder
import Formula.Main
import Formula.Proofs.Activation
import Formula.Proofs.Closing
import Formula.Proofs.Diagnosis
import Formula.Proofs.Finality
import Formula.Proofs.Levels
import Formula.Proofs.LimitReached
import Formula.Proofs.Lookahead
import Formula.Proofs.Pointing
import Formula.Proofs.Progress
import Formula.Proofs.Separators
import Formula.Proofs.Session
import Formula.Proofs.Sexpr
import Formula.Proofs.Validity
import Formula.Proofs.Words
