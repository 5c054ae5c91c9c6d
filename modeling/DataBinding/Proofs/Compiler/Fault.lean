import DataBinding.Proofs.Compiler.Report
import DataBinding.Proofs.Inverse.Failure

/-!
# Proofs — Compiler — no fault of its own

One error is a fault of the compiler and not of the expression: an operator without a rule was to be
rearranged.  The table of rearrangements fails with it at the remainder.  Solving asks the table only
where the gate of the node has let the operator through, so the error does not occur.

* `rearrange_fault_iff`: where the table fails with it.
* `compile_fails`, `compileInverse_fails`, `diagnostics_fail`: how the compiler fails.
* `fault_unreachable`: never by that error.
-/

namespace DataBinding

theorem Inverse.RunFailure.isFatal_eq {limit : Nat} {e : BindingError} (h : RunFailure limit e) :
    e.isFatal = false := by
  cases h with
  | tooDeep => rfl
  | step h => cases h <;> rfl

/-- A computation that fails as runs do does not fail by a fault. -/
theorem FailsWith.ne_invalidOperator {σ α : Type} {limit : Nat}
    {x : ExceptT BindingError (StateT σ Logged) α} (h : FailsWith (Inverse.RunFailure limit) x)
    (s : σ) (op : BinaryOp) : (x s).value.1 ≠ .error (.invalidOperator op) := by
  intro hx
  cases (h s _ hx).isFatal_eq

/-- The table of rearrangements has no rule for the remainder, and for no other operator fails with
that. -/
theorem Model.rearrange_fault_iff (op : BinaryOp) (side : Side) (value constant : NodeId) (m : Model) :
    (Model.rearrange op side value constant m).value.1 = .error (.invalidOperator op) ↔
      op = .rem := by
  constructor
  · intro h
    by_cases hop : op = .rem
    · exact hop
    · obtain ⟨r, hr⟩ := Inverse.rearrangement_of_ne_rem hop side
      rw [Model.rearrange, hr] at h
      cases Model.add_fails _ m _ h
  · rintro rfl
    cases side <;> rfl

namespace Compiler

variable {c : Compiler} {context : Context} {node : Node}

/-- What only reports does not fail. -/
theorem report_fails {α : Type} (kind : BindingError → Prop) (x : Logged α) :
    FailsWith kind (liftM x : Typing BindingError α) := by
  intro types e h
  cases h

theorem compile_fails (c : Compiler) (node : Node) : FailsWith StepFailure (c.compile node) :=
  (Inverse.nodeType_fails c.resolver node).bind fun _ _ _ =>
    (report_fails _ _).bind fun _ _ _ => .pure _

theorem solveIn_fails (c : Compiler) (dest : Model) (context : Context) (node : Node) (value : NodeId) :
    FailsWith (Inverse.RunFailure c.config.maxInversionDepth) (c.solveIn dest context node value) := by
  intro types e h
  have hvalue : (c.solveIn dest context node value types).value.1 =
      (Inverse.solve c.resolver c.config.maxInversionDepth context node value
        ⟨types, dest⟩).value.1.map (·, _) := rfl
  rw [hvalue] at h
  cases hsolve : (Inverse.solve c.resolver c.config.maxInversionDepth context node value
      ⟨types, dest⟩).value.1 with
  | ok a =>
      rw [hsolve] at h
      cases h
  | error e' =>
      rw [hsolve] at h
      cases h
      exact Inverse.solveAt_fails _ _ context 0 node value _ e hsolve

theorem compileInverse_fails (c : Compiler) (context : Context) (valueName : String) (node : Node) :
    FailsWith (Inverse.RunFailure c.config.maxInversionDepth)
      (c.compileInverse context valueName node) := by
  refine ((Inverse.nodeType_fails c.resolver node).mono fun _ => .step).bind fun ty _ _ => ?_
  refine (report_fails _ _).bind fun declared _ _ => ?_
  refine (c.solveIn_fails declared.2 context node _).bind fun solved _ _ => ?_
  exact (report_fails _ _).bind fun _ _ _ => .pure _

/-- A diagnostic shows how the check of its target fails. -/
theorem diagnosis_fails {types : TypeCache} {d : Diagnostic} (h : c.diagnosis types node = some d) :
    Inverse.RunFailure c.config.maxInversionDepth d.error := by
  rw [diagnosis] at h
  split at h
  · cases h
  · rename_i error hcheck
    cases h
    exact Inverse.checkAt_fails c.resolver _ 0 node types error hcheck

theorem diagnostics_fail {types : TypeCache} {targets : List Node} {d : Diagnostic}
    (h : d ∈ (targets.filterMapM c.diagnose types).value.1) :
    Inverse.RunFailure c.config.maxInversionDepth d.error := by
  induction targets generalizing types with
  | nil => cases h
  | cons node targets ih =>
      rw [List.filterMapM_cons, value_bind_state, diagnose_value] at h
      cases hfirst : c.diagnosis types node with
      | none =>
          rw [hfirst] at h
          exact ih h
      | some first =>
          rw [hfirst] at h
          rcases List.mem_cons.mp h with rfl | h
          · exact diagnosis_fails hfirst
          · exact ih h

/-- **The compiler makes no fault.**  Rearranging fails with the error that is a fault of the compiler at
the remainder, and only there.  Yet neither checking nor solving fails with it, whatever the resolver,
the node, the types that are kept, the destination, the value and the depth that is allowed; nor does
the compiler, when it compiles, works out an assignment or checks targets, so that no report has a
fatal diagnostic. -/
theorem fault_unreachable (R : Resolver) (limit : Nat) (context : Context) (node : Node)
    (types : TypeCache) (op : BinaryOp) :
    (∀ side value constant m,
      (Model.rearrange op side value constant m).value.1 = .error (.invalidOperator op) ↔ op = .rem) ∧
    (Inverse.check R limit node types).value.1 ≠ .error (.invalidOperator op) ∧
    (∀ dest value, (Inverse.solve R limit context node value ⟨types, dest⟩).value.1 ≠
      .error (.invalidOperator op)) ∧
    ∀ c : Compiler,
      (c.compile node types).value.1 ≠ .error (.invalidOperator op) ∧
      (∀ valueName, (c.compileInverse context valueName node types).value.1 ≠
        .error (.invalidOperator op)) ∧
      ∀ targets, (∀ d ∈ (c.checkTwoWay targets types).value.1.diagnostics,
          d.error ≠ .invalidOperator op) ∧
        (c.checkTwoWay targets types).value.1.hasFatal = false := by
  refine ⟨Model.rearrange_fault_iff op, (Inverse.checkAt_fails R limit 0 node).ne_invalidOperator types op,
    fun dest value => (Inverse.solveAt_fails R limit context 0 node value).ne_invalidOperator _ op,
    fun c => ⟨?_, fun valueName => ?_, fun targets => ⟨fun d hd hop => ?_, ?_⟩⟩⟩
  · have hcompile : FailsWith (Inverse.RunFailure limit) (c.compile node) :=
      (c.compile_fails node).mono fun _ => .step
    exact hcompile.ne_invalidOperator types op
  · exact (c.compileInverse_fails context valueName node).ne_invalidOperator types op
  · have hfail := (diagnostics_fail hd).isFatal_eq
    rw [hop] at hfail
    cases hfail
  · refine List.any_eq_false.mpr fun d hd => ?_
    rw [(diagnostics_fail hd).isFatal_eq]
    exact Bool.false_ne_true

/-- `x % 2` is reported, and not as a fault, though rearranging it would be one. -/
theorem fault_unreachable_remainder :
    ∃ (c : Compiler) (m : Model) (node : Node) (d : Diagnostic),
      c = { resolver := TypeTable.standard.resolver } ∧
      m = Model.build [.identifier "x" "int", .literal "2" "int", .binary 0 .rem 1] ∧
      m.node? 2 = some node ∧
      (Model.rearrange .rem .left 0 1 m).value.1 = .error (.invalidOperator .rem) ∧
      d ∈ (c.checkTwoWay [node] m.types).value.1.diagnostics ∧ d.error ≠ .invalidOperator .rem ∧
      (c.checkTwoWay [node] m.types).value.1.hasFatal = false := by
  obtain ⟨c, hc⟩ : ∃ c : Compiler, c = { resolver := TypeTable.standard.resolver } := ⟨_, rfl⟩
  obtain ⟨m, hm⟩ : ∃ m, m = Model.build [.identifier "x" "int", .literal "2" "int",
    .binary 0 .rem 1] := ⟨_, rfl⟩
  obtain ⟨node, hnode⟩ := Model.exists_node? (m := m) (i := 2) (by rw [hm]; decide +kernel)
  have hreported : (c.checkTwoWay [node] m.types).value.1.diagnostics ≠ [] := by
    subst hc hm
    cases hnode
    decide +kernel
  obtain ⟨d, hd⟩ := List.exists_mem_of_ne_nil _ hreported
  obtain ⟨hrearrange, -, -, hcompiler⟩ :=
    fault_unreachable c.resolver 0 ⟨"View"⟩ node m.types .rem
  obtain ⟨-, -, hreports⟩ := hcompiler c
  obtain ⟨hne, hfatal⟩ := hreports [node]
  exact ⟨c, m, node, d, hc, hm, hnode, (hrearrange .left 0 1 m).mpr rfl, hd, hne d hd, hfatal⟩

end Compiler

end DataBinding
