import DataBinding.Code.Generate
import DataBinding.Compiler.Report
import DataBinding.Inverse.Solve

/-!
# Compiler

The compiler turns a node into code that computes its value, and into code that writes a value back
through it.

* `Compiler.compile` gives the type and the code of a node.
* `Compiler.compileInverse` gives the assignment that writes a named value through a node.
* `Compiler.checkTwoWay` reports which nodes cannot be written through.

The types found on the way are kept by the model, whatever the outcome.
-/

namespace DataBinding

/-- The settings of a compiler. -/
structure Config where
  /-- The number of steps down that an inversion may take. -/
  maxInversionDepth : Nat := Inverse.defaultLimit
  /-- The word that setter names start with. -/
  setter : String := defaultSetter
  /-- The number of nodes that a new model is expected to hold. -/
  modelCapacity : Nat := 64
deriving DecidableEq, Repr

/-- A compiler: a resolver and settings. -/
structure Compiler where
  resolver : Resolver
  config : Config := {}

/-- A node as code that computes its value. -/
structure ReadBinding where
  id : NodeId
  ty : Ty
  code : String
  dynamic : Bool
  dependencies : List Dependency

/-- Code that writes a value back, with the model that it was worked out in. -/
structure WriteBinding where
  model : Model
  /-- The identifier that stands for the new value. -/
  value : NodeId
  /-- The assignment, a root of the model. -/
  assignment : NodeId
  code : String

namespace Compiler

/-- The type and the code of a node. -/
def compile (c : Compiler) (node : Node) : Typing BindingError ReadBinding := do
  let ty ← c.resolver.nodeType node
  let code := node.code c.config.setter
  Logged.emit (.compiled node ty code)
  return {
    id := node.label.id
    ty
    code
    dynamic := node.label.dynamic
    dependencies := node.dependencies }

/-- Solves for a node in a destination that holds the value. -/
def solveIn (c : Compiler) (dest : Model) (context : Context) (node : Node)
    (value : NodeId) : Typing BindingError (Node × Model) := fun types => do
  let (result, w) ← Inverse.solve c.resolver c.config.maxInversionDepth context node value
    ⟨types, dest⟩
  return (result.map (·, w.dest), w.types)

/-- The assignment that writes the value of the given name through a node.  The value has the node's
type. -/
def compileInverse (c : Compiler) (context : Context) (valueName : String) (node : Node) :
    Typing BindingError WriteBinding := do
  let ty ← c.resolver.nodeType node
  let (value, working) ← (Model.declare valueName ty.name) {}
  let (assignment, working) ← c.solveIn working context node value.label.id
  let code := assignment.code c.config.setter
  Logged.emit (.compiledInverse node code)
  return {
    model := working.markRoot assignment.label.id
    value := value.label.id
    assignment := assignment.label.id
    code }

/-- Checks one target, with a failure as a diagnostic. -/
def diagnose (c : Compiler) (node : Node) : StateT TypeCache Logged (Option Diagnostic) := do
  match ← (Inverse.check c.resolver c.config.maxInversionDepth node).run with
  | .ok _ => return none
  | .error error =>
    Logged.emit (.refused node.text error)
    return some { node := node.label.id, expr := node.text, error }

/-- Checks targets for two-way use, one after the other. -/
def checkTwoWay (c : Compiler) (targets : List Node) : StateT TypeCache Logged Report := do
  let diagnostics ← targets.filterMapM c.diagnose
  Logged.emit (.checked targets.length diagnostics.length)
  return { checked := targets.length, diagnostics }

end Compiler

end DataBinding
