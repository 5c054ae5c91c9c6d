import DataBinding.Proofs.Model.Reachable

/-!
# Proofs — Inversion — how checking and solving fail

Checking and solving fail at a step for one of three reasons: an obstacle, a type that is not found, a
value that is not there (`StepFailure`).  Besides, both give up beyond the depth that is allowed, and
the table of rearrangements has an error of its own for an operator without a rule, which no step
comes to, as the gate refuses that operator first.

The depth allowed decides nothing but whether a run is cut short.  A run that takes `n` steps down fails
under every limit less than `n`, with that limit, and is the same run under all others (`Threshold`).

* `gate_fails`, `checkGate_fails`, `require_fails`, `assign_fails`: how a step fails.
* `checkAt_fails`, `solveAt_fails`: how a run fails.
* `checkAt_settles`, `solveAt_settles`: what a limit decides.
* `depth_threshold`: a limit as great as the number of nodes is never exceeded.
-/

namespace DataBinding

/-! ### Errors of computations -/

/-- Every error that the computation gives, in whatever state, is of the given kind. -/
def FailsWith {σ α : Type} (kind : BindingError → Prop)
    (x : ExceptT BindingError (StateT σ Logged) α) : Prop :=
  ∀ s e, (x s).value.1 = .error e → kind e

namespace FailsWith

variable {σ α β : Type} {kind : BindingError → Prop} {x : ExceptT BindingError (StateT σ Logged) α}

theorem pure (a : α) : FailsWith kind (pure a : ExceptT BindingError (StateT σ Logged) α) := by
  intro s e h
  cases h

theorem throw {e : BindingError} (he : kind e) :
    FailsWith kind (throw e : ExceptT BindingError (StateT σ Logged) α) := by
  intro s e' h
  cases h
  exact he

/-- One computation after another, where the second fails only in this way on what the first can
give. -/
theorem bind {f : α → ExceptT BindingError (StateT σ Logged) β} (hx : FailsWith kind x)
    (hf : ∀ a s, (x s).value.1 = .ok a → FailsWith kind (f a)) : FailsWith kind (x >>= f) := by
  intro s e h
  have hfirst := hx s
  have hsecond := fun a => hf a s
  rw [value_bind_except] at h
  revert h hfirst hsecond
  obtain ⟨e' | a, s'⟩ := (x s).value
  · rintro ⟨⟩ hfirst _
    exact hfirst e rfl
  · intro h _ hsecond
    exact hsecond a rfl s' e h

theorem mono {kind' : BindingError → Prop} (hx : FailsWith kind x) (h : ∀ e, kind e → kind' e) :
    FailsWith kind' x := fun s e he => h e (hx s e he)

theorem inSource {x : Typing BindingError α} (hx : FailsWith kind x) :
    FailsWith kind (Inverse.inSource x) := fun w e h => hx w.types e h

theorem inDest {x : ExceptT BindingError Building α} (hx : FailsWith kind x) :
    FailsWith kind (Inverse.inDest x) := fun w e h => hx w.dest e h

end FailsWith

/-- How a step down can fail. -/
inductive StepFailure : BindingError → Prop where
  | obstacle (reason expr : String) : StepFailure (.notInvertible reason expr)
  | type (error : TypeError) : StepFailure (.type error)
  | missing (id : NodeId) : StepFailure (.unknownNode id)

theorem StepFailure.ne_depthExceeded {e : BindingError} (h : StepFailure e) (limit : Nat) :
    e ≠ .depthExceeded limit := by
  rintro rfl
  cases h

/-- Where a computation fails, it is for what it begins with or for what follows. -/
theorem bind_error {ε α β : Type} {x : Except ε α} {f : α → Except ε β} {e : ε}
    (h : x >>= f = .error e) : x = .error e ∨ ∃ a, x = .ok a ∧ f a = .error e := by
  cases x with
  | error e' =>
      cases h
      exact .inl rfl
  | ok a => exact .inr ⟨a, rfl, h⟩

/-- Where the children of a layer cannot all be replaced, one of them cannot. -/
theorem Layer.mapM_error {ε α β : Type} {f : α → Except ε β} {layer : Layer α} {e : ε}
    (h : layer.mapM f = .error e) : ∃ a ∈ layer.children, f a = .error e := by
  cases layer with
  | literal | identifier => cases h
  | property a _ | unary _ a | group a | cast _ a =>
      rcases bind_error h with h | ⟨_, _, h⟩
      · exact ⟨a, List.mem_singleton_self a, h⟩
      · cases h
  | binary a _ b | assign a b _ =>
      rcases bind_error h with h | ⟨_, _, h⟩
      · exact ⟨a, List.mem_cons_self, h⟩
      rcases bind_error h with h | ⟨_, _, h⟩
      · exact ⟨b, List.mem_cons_of_mem _ List.mem_cons_self, h⟩
      · cases h
  | conditional a b c =>
      rcases bind_error h with h | ⟨_, _, h⟩
      · exact ⟨a, List.mem_cons_self, h⟩
      rcases bind_error h with h | ⟨_, _, h⟩
      · exact ⟨b, List.mem_cons_of_mem _ List.mem_cons_self, h⟩
      rcases bind_error h with h | ⟨_, _, h⟩
      · exact ⟨c, by simp [children], h⟩
      · cases h

/-- A request fails only for a place where there is no node. -/
theorem Model.add_fails (layer : Layer NodeId) : FailsWith StepFailure (Model.add layer) := by
  intro m e h
  rw [add] at h
  cases hknown : m.known layer with
  | ok request =>
      rw [hknown] at h
      cases h
  | error e' =>
      rw [hknown] at h
      cases h
      obtain ⟨i, -, hi⟩ := Layer.mapM_error hknown
      split at hi
      · cases hi
      · cases hi
        exact .missing i

namespace Inverse

variable {R : Resolver} {context : Context} {s : Model} {node : Node} {types : TypeCache}
  {w : Workspace}

/-! ### How a step fails -/

theorem refuse_fails {α : Type} (node : Node) (obstacle : Obstacle) :
    FailsWith StepFailure (refuse node obstacle : Typing BindingError α) :=
  .throw (.obstacle _ _)

theorem dynamicGate_fails (node part : Node) (obstacle : Obstacle) :
    FailsWith StepFailure (dynamicGate node part obstacle) := by
  rw [dynamicGate]
  split
  · exact .pure ()
  · exact refuse_fails node obstacle

theorem nodeType_fails (R : Resolver) (node : Node) : FailsWith StepFailure (R.nodeType node) := by
  intro types e h
  rw [nodeType_value] at h
  revert h
  cases (R.typeOf node types).value.1 with
  | error e' =>
      intro h
      cases h
      exact .type e'
  | ok ty =>
      intro h
      cases h

theorem binaryGate_fails (R : Resolver) (node left : Node) (op : BinaryOp) (right : Node) :
    FailsWith StepFailure (binaryGate R node left op right) := by
  rw [binaryGate]
  split
  · exact refuse_fails node .modulus
  · refine (nodeType_fails R node).bind fun ty _ _ => ?_
    split
    · exact refuse_fails node .concatenation
    · split
      · exact .pure _
      · exact refuse_fails node (.operands op)

/-- **The gate fails for an obstacle or a type.**  It comes to a rule only for operators that have
one. -/
theorem gate_fails (R : Resolver) (node : Node) : FailsWith StepFailure (gate R node) := by
  cases node with
  | identifier | group => exact .pure _
  | property l target name => exact (dynamicGate_fails _ target _).bind fun _ _ _ => .pure _
  | binary l left op right =>
      refine (binaryGate_fails R _ left op right).bind fun side types hside => ?_
      obtain ⟨r, hr⟩ := rearrangement_of_ne_rem (binaryGate_ok_iff.mp hside).1 side
      rw [operandStep, hr]
      exact .pure _
  | unary l op operand => exact (dynamicGate_fails _ operand _).bind fun _ _ _ => .pure _
  | cast l ty operand =>
      exact (dynamicGate_fails _ operand _).bind fun _ _ _ =>
        (nodeType_fails R operand).bind fun _ _ _ => .pure _
  | literal | conditional | assign => exact refuse_fails _ _

theorem checkGate_fails (R : Resolver) (node : Node) : FailsWith StepFailure (checkGate R node) := by
  cases node with
  | identifier | group => exact .pure _
  | property l target name => exact (dynamicGate_fails _ target _).bind fun _ _ _ => .pure _
  | binary l left op right =>
      exact (binaryGate_fails R _ left op right).bind fun _ _ _ => .pure _
  | unary l op operand | cast l ty operand =>
      exact (dynamicGate_fails _ operand _).bind fun _ _ _ => .pure _
  | literal | conditional | assign => exact refuse_fails _ _

/-- A copy is always made. -/
theorem copy_fails (kind : BindingError → Prop) (node : Node) :
    FailsWith kind (liftM node.copy : ExceptT BindingError Building Node) := by
  intro m e h
  cases h

theorem require_fails (d : Descent) (value : NodeId) : FailsWith StepFailure (d.require value) := by
  cases d with
  | arrive | keep => exact .pure value
  | unary op part | cast ty part => exact (Model.add_fails _).bind fun _ _ _ => .pure _
  | rearrange r constant part =>
      exact (copy_fails _ constant).bind fun _ _ _ =>
        (Model.add_fails _).bind fun _ _ _ => .pure _

theorem assign_fails (node : Node) (value : NodeId) (context : Context) :
    FailsWith StepFailure (assign node value context) :=
  ((copy_fails _ node).bind fun _ _ _ => Model.add_fails _).inDest

/-! ### How a run fails -/

/-- How a run under the given limit can fail. -/
inductive RunFailure (limit : Nat) : BindingError → Prop where
  | tooDeep : RunFailure limit (.depthExceeded limit)
  | step {e : BindingError} (h : StepFailure e) : RunFailure limit e

theorem depthGate_fails (limit depth : Nat) : FailsWith (RunFailure limit) (depthGate limit depth) := by
  rw [depthGate]
  split
  · exact .throw .tooDeep
  · exact .pure ()

/-- The part that checking goes on with is a child of the node. -/
theorem checkGate_part_mem {part : Node} (h : (checkGate R node types).value.1 = .ok (some part)) :
    part ∈ node.children := by
  cases node with
  | identifier | literal | conditional | assign => cases h
  | property l target name =>
      obtain ⟨_, -, h⟩ := value_bind_ok_iff.mp h
      cases h
  | binary l left op right =>
      obtain ⟨side, -, h⟩ := value_bind_ok_iff.mp h
      cases h
      cases side <;> simp [Side.split, Expr.children, Expr.layer, Layer.children]
  | unary l op operand | cast l ty operand =>
      obtain ⟨_, -, h⟩ := value_bind_ok_iff.mp h
      cases h
      exact List.mem_singleton_self _
  | group l inner =>
      cases h
      exact List.mem_singleton_self _

theorem checkAt_fails (R : Resolver) (limit depth : Nat) (node : Node) :
    FailsWith (RunFailure limit) (checkAt R limit depth node) := by
  induction node using Expr.children_induction generalizing depth with
  | step node ih =>
      rw [checkAt_eq]
      refine (depthGate_fails limit depth).bind fun _ _ _ => ?_
      refine ((checkGate_fails R node).mono fun _ => .step).bind fun part? types hpart => ?_
      cases part? with
      | none => exact .pure ()
      | some part => exact ih part (checkGate_part_mem hpart) (depth + 1)

theorem announce_fails (kind : BindingError → Prop) (node : Node) (value : NodeId) :
    FailsWith kind (announce node value) := by
  intro w e h
  cases h

theorem solveAt_fails (R : Resolver) (limit : Nat) (context : Context) (depth : Nat) (node : Node)
    (value : NodeId) : FailsWith (RunFailure limit) (solveAt R limit context depth node value) := by
  induction node using Expr.children_induction generalizing depth value with
  | step node ih =>
      rw [solveAt_eq]
      refine (depthGate_fails limit depth).inSource.bind fun _ _ _ => ?_
      refine (announce_fails _ node value).bind fun _ _ _ => ?_
      refine ((gate_fails R node).mono fun _ => .step).inSource.bind fun d w hd => ?_
      have hopens : Opens R w.types node d := gate_ok_iff.mp hd
      cases hpart : d.part? with
      | none => exact (assign_fails node value context).mono fun _ => .step
      | some part =>
          refine ((require_fails d value).mono fun _ => .step).inDest.bind fun value' _ _ => ?_
          exact ih part (hopens.part_mem hpart) (depth + 1) value'

/-! ### What a limit decides -/

/-- A limit less than `n` is exceeded, and every other leads to one and the same outcome. -/
structure Threshold {α σ : Type} (n : Nat) (run : Nat → Except BindingError α × σ) : Prop where
  below : ∀ limit < n, (run limit).1 = .error (.depthExceeded limit)
  above : ∃ outcome, (∀ limit, n ≤ limit → run limit = outcome) ∧
    ∀ limit, outcome.1 ≠ .error (.depthExceeded limit)

/-- A run from the node at the given depth has a threshold, and goes down from there at most as many
steps as there are older nodes. -/
def Settles {α σ : Type} (node : Node) (depth : Nat) (run : Nat → Except BindingError α × σ) : Prop :=
  ∃ n, depth ≤ n ∧ n ≤ depth + node.label.id ∧ Threshold n run

namespace Settles

variable {α σ : Type} {depth : Nat} {run rest : Nat → Except BindingError α × σ}
  {outcome : Except BindingError α × σ} {start : σ}

/-- A run that ends at the depth where it stands. -/
theorem stop
    (hrun : ∀ limit, run limit =
      if limit < depth then (.error (.depthExceeded limit), start) else outcome)
    (h : ∀ limit, outcome.1 ≠ .error (.depthExceeded limit)) : Settles node depth run := by
  refine ⟨depth, Nat.le_refl _, Nat.le_add_right _ _, fun limit hlt => ?_, outcome,
    fun limit hle => ?_, h⟩
  · rw [hrun, if_pos hlt]
  · rw [hrun, if_neg (Nat.not_lt.mpr hle)]

/-- A run that fails at the depth where it stands. -/
theorem fail {e : BindingError} {last : σ}
    (hrun : ∀ limit, run limit =
      if limit < depth then (.error (.depthExceeded limit), start) else (.error e, last))
    (he : StepFailure e) : Settles node depth run := by
  refine .stop hrun fun limit h => ?_
  cases h
  exact he.ne_depthExceeded limit rfl

/-- A run that goes on with a child, which is an older node. -/
theorem step {part : Node}
    (hrun : ∀ limit, run limit =
      if limit < depth then (.error (.depthExceeded limit), start) else rest limit)
    (hlt : part.label.id < node.label.id) (h : Settles part (depth + 1) rest) :
    Settles node depth run := by
  obtain ⟨n, hle, hbound, hbelow, outcome, heq, hne⟩ := h
  have hdepth := Nat.le_of_succ_le hle
  refine ⟨n, hdepth, ?_, fun limit hlimit => ?_, outcome, fun limit hlimit => ?_, hne⟩
  · calc n ≤ depth + 1 + part.label.id := hbound
      _ = depth + (part.label.id + 1) := by rw [Nat.add_assoc, Nat.add_comm 1]
      _ ≤ depth + node.label.id := Nat.add_le_add_left hlt depth
  · rw [hrun]
    split
    · rfl
    · exact hbelow limit hlimit
  · rw [hrun, if_neg (Nat.not_lt.mpr (Nat.le_trans hdepth hlimit)), heq limit hlimit]

end Settles

theorem checkAt_settles (R : Resolver) (depth : Nat) (types : TypeCache) (hs : s.Sound)
    (hn : s.Holds node) :
    Settles node depth fun limit => (checkAt R limit depth node types).value := by
  induction node using Expr.children_induction generalizing depth types with
  | step node ih =>
      have hrun := fun limit => checkAt_value R limit depth node types
      rcases hgate : (checkGate R node types).value with ⟨e | _ | part, types'⟩
      · exact .fail (by simpa only [hgate] using hrun)
          (checkGate_fails R node types e (congrArg Prod.fst hgate))
      · refine .stop (by simpa only [hgate] using hrun) fun limit h => ?_
        cases h
      · have hpart : part ∈ node.children := checkGate_part_mem (congrArg Prod.fst hgate)
        exact .step (by simpa only [hgate] using hrun) (hs.child_lt hn hpart)
          (ih part hpart (depth + 1) types' (hs.child hn hpart))

theorem solveAt_settles (R : Resolver) (context : Context) (depth : Nat) (value : NodeId)
    (w : Workspace) (hs : s.Sound) (hn : s.Holds node) :
    Settles node depth fun limit => (solveAt R limit context depth node value w).value := by
  induction node using Expr.children_induction generalizing depth value w with
  | step node ih =>
      have hrun := fun limit => solveAt_value R limit context depth node value w
      rcases hgate : (gate R node w.types).value with ⟨e | d, types⟩
      · exact .fail (by simpa only [hgate] using hrun)
          (gate_fails R node w.types e (congrArg Prod.fst hgate))
      have hopens : Opens R w.types node d := gate_ok_iff.mp (congrArg Prod.fst hgate)
      cases hpart : d.part? with
      | none =>
          refine .stop (by simpa only [hgate, hpart] using hrun) fun limit h => ?_
          exact (assign_fails node value context _ _ h).ne_depthExceeded limit rfl
      | some part =>
          rcases hreq : (d.require value w.dest).value with ⟨e | value', dest⟩
          · exact .fail (by simpa only [hgate, hpart, hreq] using hrun)
              (require_fails d value w.dest e (congrArg Prod.fst hreq))
          · have hmem := hopens.part_mem hpart
            exact .step (by simpa only [hgate, hpart, hreq] using hrun) (hs.child_lt hn hmem)
              (ih part hmem (depth + 1) value' { types, dest } (hs.child hn hmem))

/-- **The depth is a sharp threshold.**  For a node of a reachable model, whatever the resolver and the
types that are kept, there is a depth, less than the number of nodes, from which on the limit has no
influence on checking, while every lower limit is exceeded.  There is such a depth for solving as
well, for each destination and value, be the value there or not; the outcome that the limit has no
influence on is then the result, the types that are kept and the destination. -/
theorem depth_threshold (R : Resolver) {source : Model} (hsource : source.Reachable) {i : NodeId}
    (hnode : source.node? i = some node) (types : TypeCache) :
    (∃ n < source.size, Threshold n fun limit => (check R limit node types).value) ∧
      ∀ (context : Context) (dest : Model) (value : NodeId), ∃ n < source.size,
        Threshold n fun limit => (solve R limit context node value ⟨types, dest⟩).value := by
  have hs := hsource.sound
  have hn := hs.holds hnode
  have bounded {α σ : Type} {run : Nat → Except BindingError α × σ} (h : Settles node 0 run) :
      ∃ n < source.size, Threshold n run := by
    obtain ⟨n, -, hbound, hthreshold⟩ := h
    rw [Nat.zero_add, hs.place hnode] at hbound
    exact ⟨n, Nat.lt_of_le_of_lt hbound (Model.node?_lt hnode), hthreshold⟩
  exact ⟨bounded (checkAt_settles R 0 types hs hn), fun context dest value =>
    bounded (solveAt_settles R context 0 value ⟨types, dest⟩ hs hn)⟩

/-- With `x`, `1`, `x + 1` and `-(x + 1)` three steps down are never exceeded.  Two are needed, and with
one `-v - 1` has been stored when solving is cut short. -/
theorem depth_threshold_negated_sum :
    ∃ (R : Resolver) (source dest : Model) (node : Node), R = TypeTable.standard.resolver ∧
      source = Model.build [.identifier "x" "int", .literal "1" "int", .binary 0 .add 1,
        .unary .neg 2] ∧
      dest = Model.build [.identifier "v" "int"] ∧ source.node? 3 = some node ∧
      (∀ limit ≥ 3, (check R limit node source.types).value.1 = .ok ()) ∧
      (∀ limit ≥ 3, (solve R limit ⟨"View"⟩ node 0 ⟨source.types, dest⟩).value.2.dest.size = 6) ∧
      (solve R 2 ⟨"View"⟩ node 0 ⟨source.types, dest⟩).value.2.dest.size = 6 ∧
      (solve R 1 ⟨"View"⟩ node 0 ⟨source.types, dest⟩).value.1.map (·.label.id) =
        .error (.depthExceeded 1) ∧
      (solve R 1 ⟨"View"⟩ node 0 ⟨source.types, dest⟩).value.2.dest.size = 4 := by
  obtain ⟨R, hR⟩ : ∃ R, R = TypeTable.standard.resolver := ⟨_, rfl⟩
  obtain ⟨source, hsource⟩ : ∃ m, m = Model.build [.identifier "x" "int", .literal "1" "int",
    .binary 0 .add 1, .unary .neg 2] := ⟨_, rfl⟩
  obtain ⟨dest, hdest⟩ : ∃ m, m = Model.build [.identifier "v" "int"] := ⟨_, rfl⟩
  obtain ⟨node, hnode⟩ := Model.exists_node? (m := source) (i := 3) (by rw [hsource]; decide +kernel)
  have hsize : source.size = 4 := by
    rw [hsource]
    decide +kernel
  obtain ⟨⟨n, hn, -, checked, hchecked, -⟩, hsolving⟩ :=
    depth_threshold R (hsource ▸ Model.reachable_build _) hnode source.types
  obtain ⟨n', hn', -, solved, hsolved, -⟩ := hsolving ⟨"View"⟩ dest 0
  rw [hsize] at hn hn'
  have hle : n ≤ 3 := Nat.le_of_lt_succ hn
  have hle' : n' ≤ 3 := Nat.le_of_lt_succ hn'
  refine ⟨R, source, dest, node, hR, hsource, hdest, hnode, fun limit hlimit => ?_,
    fun limit hlimit => ?_, ?_⟩
  · -- all limits from three on give what three gives
    rw [hchecked limit (Nat.le_trans hle hlimit), ← hchecked 3 hle]
    subst hR hsource
    cases hnode
    decide +kernel
  · rw [hsolved limit (Nat.le_trans hle' hlimit), ← hsolved 3 hle']
    subst hR hsource hdest
    cases hnode
    decide +kernel
  · subst hR hsource hdest
    cases hnode
    decide +kernel

end Inverse

end DataBinding
