import DataBinding.Model.Basic

/-!
# Models — change propagation

`Model.invalidatedBy` lists the nodes that have to be evaluated again when a node changes: those that
depend on it, those that depend on these, and so on, the nearest first.

The nodes at one distance are found from those at the distance before.  A dependant is newer than
what it depends on, so as many rounds as there are nodes reach all of them.
-/

namespace DataBinding.Model

/-- The nodes of a list that are not among those seen, each once. -/
def unseen (seen : List NodeId) : List NodeId → List NodeId
  | [] => []
  | id :: rest => if id ∈ seen then unseen seen rest else id :: unseen (id :: seen) rest

/-- The nodes of the frontier, then those that depend on them, for the given number of rounds. -/
def spread (m : Model) : Nat → List NodeId → List NodeId → List NodeId
  | 0, _, _ => []
  | rounds + 1, seen, frontier =>
    let seen := frontier ++ seen
    frontier ++ m.spread rounds seen (unseen seen (frontier.flatMap m.dependantsOf))

/-- The nodes that have to be evaluated again when a node changes, the nearest first. -/
def invalidatedBy (m : Model) (id : NodeId) : List NodeId :=
  m.spread m.size [] (unseen [] (m.dependantsOf id))

end DataBinding.Model
