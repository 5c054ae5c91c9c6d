import DataBinding.Code.Draft
import DataBinding.Code.Generate
import DataBinding.Compiler.Basic
import DataBinding.Compiler.Report
import DataBinding.Error
import DataBinding.Expr.Basic
import DataBinding.Expr.Eval
import DataBinding.Expr.Key
import DataBinding.Expr.Layer
import DataBinding.Expr.Value
import DataBinding.Inverse.Rearrange
import DataBinding.Inverse.Solve
import DataBinding.Log
import DataBinding.Model.Basic
import DataBinding.Model.Copy
import DataBinding.Model.Dependants
import DataBinding.Model.KeyIndex
import DataBinding.Model.Node
import DataBinding.Model.Typing
import DataBinding.Number.Binary64
import DataBinding.Number.Numeral
import DataBinding.Number.Shortest
import DataBinding.Text.Uppercase
import DataBinding.Types.Basic
import DataBinding.Types.Resolver
import DataBinding.Types.Table
import DataBinding.Proofs.Expr.Bare
import DataBinding.Proofs.Expr.Key
import DataBinding.Proofs.Model.Sound
import DataBinding.Proofs.Model.Copy
import DataBinding.Proofs.Inverse.Descent
import DataBinding.Proofs.Model.Reachable
import DataBinding.Proofs.Inverse.Agreement
import DataBinding.Proofs.Inverse.Arithmetic
import DataBinding.Proofs.Inverse.RoundTrip
import DataBinding.Proofs.Model.Faithful
import DataBinding.Proofs.Inverse.Trail
import DataBinding.Proofs.Inverse.Control
import DataBinding.Proofs.Inverse.WriteBack
import DataBinding.Proofs.Inverse.Rational
import DataBinding.Proofs.Model.Graph
import DataBinding.Proofs.Model.Invalidation
import DataBinding.Proofs.Model.Meaning
import DataBinding.Proofs.Model.Memo
import DataBinding.Proofs.Types.Chain
import DataBinding.Proofs.Types.Join
import DataBinding.Proofs.Types.Laws
import DataBinding.Proofs.Types.Order
import DataBinding.Proofs.Model.Fits
import DataBinding.Proofs.Code.Draft
import DataBinding.Proofs.Code.Readable
import DataBinding.Proofs.Model.Canonical
import DataBinding.Proofs.Model.Gather
import DataBinding.Proofs.Inverse.Questions
import DataBinding.Proofs.Compiler.Report
import DataBinding.Proofs.Inverse.Effects
import DataBinding.Proofs.Compiler.Capture
import DataBinding.Proofs.Model.BreadthFirst
import DataBinding.Proofs.Inverse.Failure
import DataBinding.Proofs.Compiler.Fault
import DataBinding.Proofs.Model.Shared
import DataBinding.Proofs.Inverse.Repeat
import DataBinding.Proofs.Types.Lookup
import DataBinding.Proofs.Code.Nesting
import DataBinding.Proofs.Code.Shown
import DataBinding.Proofs.Model.PlainCopy
import DataBinding.Proofs.Model.Conservative
import DataBinding.Proofs.Model.Leftover
import DataBinding.Proofs.Expr.Literal
