import ExactAlgebra.Request.Session
import ExactAlgebra.Proofs.Expr.Every
import ExactAlgebra.Proofs.Expr.Order
import ExactAlgebra.Proofs.Operation.Invariant
import ExactAlgebra.Proofs.Operation.Collect
import ExactAlgebra.Proofs.Expr.Raise
import ExactAlgebra.Proofs.Operation.Load
import ExactAlgebra.Proofs.Expr.Hereditary
import ExactAlgebra.Proofs.Simplify.Termination
import ExactAlgebra.Proofs.Operation.Total
import ExactAlgebra.Proofs.Value.Basic
import ExactAlgebra.Proofs.Value.Operation
import ExactAlgebra.Proofs.Simplify.Value
import ExactAlgebra.Proofs.Form.Basic
import ExactAlgebra.Proofs.Form.Closure
import ExactAlgebra.Proofs.Form.Neat
import ExactAlgebra.Proofs.Form.Apart
import ExactAlgebra.Proofs.Form.Canonical
import ExactAlgebra.Proofs.Simplify.FixedPoint
import ExactAlgebra.Proofs.Operation.Scale
import ExactAlgebra.Proofs.Expr.Sort
import ExactAlgebra.Proofs.Operation.Budget
import ExactAlgebra.Proofs.Simplify.Rearrangement
import ExactAlgebra.Proofs.Simplify.Regrouping
import ExactAlgebra.Proofs.Form.Multiplied
import ExactAlgebra.Proofs.Form.Monic
import ExactAlgebra.Proofs.Simplify.Laurent
import ExactAlgebra.Proofs.Simplify.Addition
import ExactAlgebra.Proofs.Simplify.Cancellation
import ExactAlgebra.Proofs.Form.PowerProduct
import ExactAlgebra.Proofs.Simplify.Multiplication
import ExactAlgebra.Proofs.Simplify.Inverse
import ExactAlgebra.Proofs.Simplify.Constant
import ExactAlgebra.Proofs.Simplify.Decomposition
import ExactAlgebra.Proofs.Form.Adjacency
import ExactAlgebra.Proofs.Expr.Preorder
import ExactAlgebra.Proofs.Simplify.Names
import ExactAlgebra.Proofs.Simplify.Undefined
