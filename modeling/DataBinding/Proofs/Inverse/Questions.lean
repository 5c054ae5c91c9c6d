import DataBinding.Proofs.Inverse.Descent

/-!
# Proofs — Inversion — what is asked on the way

In the source, checking and solving do nothing but ask for types of its nodes, and give up or go on.
`Asking` is the class of such computations.  What holds of every question and passes from one
computation to the next holds of all of them.

* `gate_asking`, `checkGate_asking`, `checkAt_asking`: checking and solving do nothing else.
* `Asking.stable`: the outcome does not depend on what was asked before.
-/

namespace DataBinding

variable {R : Resolver} {s : Model} {node : Node} {α : Type}

/-- The computation is made of questions for the types of nodes of the model. -/
inductive Asking (R : Resolver) (s : Model) : {α : Type} → Typing BindingError α → Prop where
  | pure {α : Type} (a : α) : Asking R s (pure a : Typing BindingError α)
  | throw {α : Type} (e : BindingError) : Asking R s (throw e : Typing BindingError α)
  | ask {n : Node} (h : s.Holds n) : Asking R s (R.nodeType n)
  | bind {α β : Type} {x : Typing BindingError α} {f : α → Typing BindingError β}
      (hx : Asking R s x) (hf : ∀ a, Asking R s (f a)) : Asking R s (x >>= f)

/-- The answers to questions do not depend on what has been asked before. -/
theorem Asking.stable {x : Typing BindingError α} (h : Asking R s x) (hs : s.Sound) :
    Stable R s x := by
  induction h with
  | pure a => exact .pure a
  | throw e => exact .throw e
  | ask hn => exact .nodeType hs hn
  | bind _ _ ihx ihf => exact ihx.bind ihf

/-! ### Checking and solving ask -/

namespace Inverse

theorem depthGate_asking (limit depth : Nat) : Asking R s (depthGate limit depth) := by
  rw [depthGate]
  split
  · exact .throw _
  · exact .pure _

theorem dynamicGate_asking (node part : Node) (obstacle : Obstacle) :
    Asking R s (dynamicGate node part obstacle) := by
  rw [dynamicGate]
  split
  · exact .pure _
  · exact .throw _

theorem binaryGate_asking (hn : s.Holds node) (left : Node) (op : BinaryOp) (right : Node) :
    Asking R s (binaryGate R node left op right) := by
  rw [binaryGate]
  split
  · exact .throw _
  · refine (Asking.ask hn).bind fun ty => ?_
    split
    · exact .throw _
    · split
      · exact .pure _
      · exact .throw _

theorem operandStep_asking (op : BinaryOp) (left right : Node) (side : Side) :
    Asking R s (operandStep op left right side) := by
  rw [operandStep]
  split
  · exact .pure _
  · exact .throw _

theorem gate_asking (hs : s.Sound) (hn : s.Holds node) : Asking R s (gate R node) := by
  cases node with
  | identifier | group => exact .pure _
  | property l target name => exact (dynamicGate_asking _ target _).bind fun _ => .pure _
  | binary l left op right =>
      exact (binaryGate_asking hn left op right).bind (operandStep_asking op left right)
  | unary l op operand => exact (dynamicGate_asking _ operand _).bind fun _ => .pure _
  | cast l ty operand =>
      have hoperand : s.Holds operand := hs.child hn (List.mem_singleton_self operand)
      exact (dynamicGate_asking _ operand _).bind fun _ => (Asking.ask hoperand).bind fun _ => .pure _
  | literal | conditional | assign => exact .throw _

theorem checkGate_asking (hn : s.Holds node) : Asking R s (checkGate R node) := by
  cases node with
  | identifier | group => exact .pure _
  | property l target name => exact (dynamicGate_asking _ target _).bind fun _ => .pure _
  | binary l left op right => exact (binaryGate_asking hn left op right).bind fun _ => .pure _
  | unary l op operand | cast l ty operand =>
      exact (dynamicGate_asking _ operand _).bind fun _ => .pure _
  | literal | conditional | assign => exact .throw _

theorem checkAt_asking (limit depth : Nat) (hs : s.Sound) (hn : s.Holds node) :
    Asking R s (checkAt R limit depth node) := by
  induction node using Expr.children_induction generalizing depth with
  | step node ih =>
      have part {a : Node} (ha : a ∈ node.children) : Asking R s (checkAt R limit (depth + 1) a) :=
        ih a ha (depth + 1) (hs.child hn ha)
      cases node with
      | identifier => exact (depthGate_asking limit depth).bind fun _ => .pure _
      | property l target name =>
          exact (depthGate_asking limit depth).bind fun _ => dynamicGate_asking _ target _
      | binary l left op right =>
          refine (depthGate_asking limit depth).bind fun _ =>
            (binaryGate_asking hn left op right).bind fun side => ?_
          cases side with
          | left => exact part List.mem_cons_self
          | right => exact part (List.mem_cons_of_mem _ List.mem_cons_self)
      | unary l op operand | cast l ty operand =>
          exact (depthGate_asking limit depth).bind fun _ =>
            (dynamicGate_asking _ operand _).bind fun _ => part (List.mem_singleton_self operand)
      | group l inner =>
          exact (depthGate_asking limit depth).bind fun _ => part (List.mem_singleton_self inner)
      | literal | conditional | assign =>
          exact (depthGate_asking limit depth).bind fun _ => .throw _

end Inverse

end DataBinding
