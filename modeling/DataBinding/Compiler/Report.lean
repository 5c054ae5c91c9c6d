import DataBinding.Error

/-!
# Compiler — reports

The outcome of checking expressions for two-way use: how many were checked, and a diagnostic for each
that failed, in their order.
-/

namespace DataBinding

/-- An expression that cannot take part in a two-way binding, and why. -/
structure Diagnostic where
  node : NodeId
  expr : String
  error : BindingError
deriving DecidableEq, Repr

def Diagnostic.text (d : Diagnostic) : String := s!"{d.expr}: {d.error.message}"

/-- The outcome of checking expressions. -/
structure Report where
  checked : Nat
  diagnostics : List Diagnostic
deriving DecidableEq, Repr

namespace Report

/-- Whether every expression passed. -/
def isOk (r : Report) : Bool := r.diagnostics.isEmpty

/-- Whether a failure is a fault of the compiler. -/
def hasFatal (r : Report) : Bool := r.diagnostics.any (·.error.isFatal)

/-- A summary, and a line for each diagnostic. -/
def text (r : Report) : String :=
  r.diagnostics.foldl (fun out d => out ++ "\n  " ++ d.text)
    s!"{r.diagnostics.length} of {r.checked} two-way expressions failed"

end Report

end DataBinding
