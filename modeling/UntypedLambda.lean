import UntypedLambda.Proofs.Collections
import UntypedLambda.Proofs.Nameless.Refusal
import UntypedLambda.Proofs.Nameless.Weakening
import UntypedLambda.Proofs.Retiring
import UntypedLambda.Proofs.Strategy.Encoding
import UntypedLambda.Proofs.Strategy.EvaluationContext
import UntypedLambda.Proofs.Strategy.Innermost
import UntypedLambda.Proofs.Strategy.Leftmost
import UntypedLambda.Proofs.Strategy.Lockstep
import UntypedLambda.Proofs.Strategy.Log
import UntypedLambda.Proofs.Strategy.WeakHead
import UntypedLambda.Proofs.Substitution.Exchange
import UntypedLambda.Proofs.Substitution.Structure
import UntypedLambda.Proofs.Substitution.Termination
import UntypedLambda.Session.Basic
