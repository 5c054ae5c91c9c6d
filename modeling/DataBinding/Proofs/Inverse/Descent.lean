import DataBinding.Inverse.Solve
import DataBinding.Proofs.Model.Copy
import DataBinding.Proofs.Model.Typing

/-!
# Proofs — Inversion — one step down

Solving alternates between two models: at each node it first asks the source whether the node lets a
value through, and then stores in the destination what is required of the part that can change.
`gate` is the first half and `Descent.require` the second; `solveAt_eq` says that solving is the one
after the other, down to the node that is assigned.  `checkGate` is the gate of checking, which does
not ask for the type of what a cast converts.

* `gate_ok_iff`: which nodes the gate opens at, and what is to be done there (`Opens`).
* `require_stored`, `assign_ok_cases`: what a step stores in the destination.
* `solveAt_induction`: what holds at each step of solving holds of the whole, however it ends.
* `solveAt_extends`: the destination only grows.
-/

namespace DataBinding

namespace Inverse

variable {R : Resolver} {limit depth : Nat} {context : Context} {s m m' : Model} {node v : Node}
  {types : TypeCache} {w : Workspace} {P : Layer String → Prop}

/-! ### The two halves of a step -/

/-- What is to be done at a node that lets a value through. -/
inductive Descent where
  /-- The node is the variable or property to be written. -/
  | arrive
  /-- The part has to equal the value. -/
  | keep (part : Node)
  | unary (op : UnaryOp) (part : Node)
  | cast (ty : String) (part : Node)
  | rearrange (r : Rearrangement) (constant part : Node)

namespace Descent

/-- The part to go on with. -/
def part? : Descent → Option Node
  | arrive => none
  | keep part | unary _ part | cast _ part | rearrange _ _ part => some part

/-- Stores what is required of the part. -/
def require (value : NodeId) : Descent → ExceptT BindingError Building NodeId
  | arrive | keep _ => return value
  | unary op _ => return (← Model.add (.unary op value)).label.id
  | cast ty _ => return (← Model.add (.cast ty value)).label.id
  | rearrange r constant _ =>
    return (← Model.add (r.layer value (← constant.copy).label.id)).label.id

/-- What is required of the part, as an expression. -/
def required (value : Expr Unit) : Descent → Expr Unit
  | arrive | keep _ => value
  | unary op _ => .unary () op value
  | cast ty _ => .cast () ty value
  | rearrange r constant _ => (r.layer value constant.bare).expr ()

end Descent

/-- The step to the operand on the given side. -/
def operandStep (op : BinaryOp) (left right : Node) (side : Side) : Typing BindingError Descent :=
  match Rearrangement.of? op side with
  | some r => return .rearrange r (side.split left right).2 (side.split left right).1
  | none => throw (.invalidOperator op)

/-- Asks whether the node lets a value through when solving. -/
def gate (R : Resolver) (node : Node) : Typing BindingError Descent :=
  match node with
  | .identifier _ _ _ => return .arrive
  | .property _ target _ => do
    dynamicGate node target .constantOwner
    return .arrive
  | .binary _ left op right => do operandStep op left right (← binaryGate R node left op right)
  | .unary _ op operand => do
    dynamicGate node operand .constantOperand
    return .unary op operand
  | .cast _ _ operand => do
    dynamicGate node operand .constantOperand
    return .cast (← R.nodeType operand).name operand
  | .group _ inner => return .keep inner
  | .literal _ _ _ => refuse node .constant
  | .conditional _ _ _ _ => refuse node .conditional
  | .assign _ _ _ _ => refuse node .assignment

/-- Asks whether the node lets a value through when checking; the answer is the part to go on
with. -/
def checkGate (R : Resolver) (node : Node) : Typing BindingError (Option Node) :=
  match node with
  | .identifier _ _ _ => return none
  | .property _ target _ => do
    dynamicGate node target .constantOwner
    return none
  | .binary _ left op right => do
    return some ((← binaryGate R node left op right).split left right).1
  | .unary _ _ operand | .cast _ _ operand => do
    dynamicGate node operand .constantOperand
    return some operand
  | .group _ inner => return some inner
  | .literal _ _ _ => refuse node .constant
  | .conditional _ _ _ _ => refuse node .conditional
  | .assign _ _ _ _ => refuse node .assignment

/-! ### Solving and checking, step by step -/

section Morphisms

variable {α β : Type}

theorem inSource_pure (a : α) : inSource (pure a) = pure a := rfl

theorem inDest_pure (a : α) : inDest (pure a) = pure a := rfl

theorem inSource_bind (x : Typing BindingError α) (f : α → Typing BindingError β) :
    inSource (x >>= f) = inSource x >>= fun a => inSource (f a) := by
  funext w
  simp only [inSource, bind, ExceptT.bind, ExceptT.mk, StateT.bind]
  obtain ⟨⟨r, types⟩, events⟩ := x w.types
  cases r <;> simp [ExceptT.bindCont, pure_apply, inSource, bind]

theorem inDest_bind (x : ExceptT BindingError Building α)
    (f : α → ExceptT BindingError Building β) :
    inDest (x >>= f) = inDest x >>= fun a => inDest (f a) := by
  funext w
  simp only [inDest, bind, ExceptT.bind, ExceptT.mk, StateT.bind]
  obtain ⟨⟨r, dest⟩, events⟩ := x w.dest
  cases r <;> simp [ExceptT.bindCont, pure_apply, inDest, bind]

theorem inSource_map (f : α → β) (x : Typing BindingError α) :
    inSource (f <$> x) = f <$> inSource x := by
  rw [map_eq_pure_bind, map_eq_pure_bind, inSource_bind]
  rfl

theorem inDest_map (f : α → β) (x : ExceptT BindingError Building α) :
    inDest (f <$> x) = f <$> inDest x := by
  rw [map_eq_pure_bind, map_eq_pure_bind, inDest_bind]
  rfl

/-- Nothing comes after a refusal. -/
theorem inSource_refuse_bind (node : Node) (obstacle : Obstacle) (f : α → Solving β) :
    inSource (refuse node obstacle) >>= f = inSource (refuse node obstacle) := rfl

end Morphisms

/-- Every operator but the remainder has a rule on either side. -/
theorem rearrangement_of_ne_rem {op : BinaryOp} (h : op ≠ .rem) (side : Side) :
    ∃ r, Rearrangement.of? op side = some r := by
  cases op with
  | rem => exact absurd rfl h
  | _ => cases side <;> exact ⟨_, rfl⟩

/-- **Solving is a gate and a requirement at each step.** -/
theorem solveAt_eq (R : Resolver) (limit : Nat) (context : Context) (depth : Nat) (node : Node)
    (value : NodeId) :
    solveAt R limit context depth node value = (do
      inSource (depthGate limit depth)
      announce node value
      let d ← inSource (gate R node)
      match d.part? with
      | none => assign node value context
      | some part =>
        solveAt R limit context (depth + 1) part (← inDest (d.require value))) := by
  cases node with
  | binary l left op right =>
      -- the remainder is refused first, so that there is a rule wherever one is looked for
      by_cases hop : op = .rem
      · subst hop
        simp [solveAt, gate, binaryGate, inSource_bind, inSource_refuse_bind]
      · simp only [solveAt, gate, inSource_bind, bind_assoc]
        congr 1; funext _
        congr 1; funext _
        congr 1; funext side
        obtain ⟨r, hr⟩ := rearrangement_of_ne_rem hop side
        cases side <;>
          simp [operandStep, hr, Model.rearrange, Descent.part?, Descent.require, Side.split,
            inSource_pure, inDest_bind, inDest_map]
  | _ =>
      simp [solveAt, gate, inSource_bind, inSource_map, inSource_pure, Descent.part?,
        Descent.require, inDest_map, inDest_pure, inSource_refuse_bind]

/-- Checking is a gate at each step. -/
theorem checkAt_eq (R : Resolver) (limit depth : Nat) (node : Node) :
    checkAt R limit depth node = (do
      depthGate limit depth
      match ← checkGate R node with
      | none => return
      | some part => checkAt R limit (depth + 1) part) := by
  cases node with
  | binary l left op right =>
      simp only [checkAt, checkGate, bind_assoc, pure_bind]
      congr 1; funext _
      congr 1; funext side
      cases side <;> rfl
  | literal | conditional | assign => rfl
  | _ => simp [checkAt, checkGate]

/-! ### Outcomes -/

theorem depthGate_value (limit depth : Nat) (types : TypeCache) :
    (depthGate limit depth types).value =
      (if limit < depth then .error (.depthExceeded limit) else .ok (), types) := by
  rw [depthGate]
  split <;> rfl

theorem dynamicGate_value (node part : Node) (obstacle : Obstacle) (types : TypeCache) :
    (dynamicGate node part obstacle types).value =
      (if part.label.dynamic then .ok () else .error (.notInvertible obstacle.reason node.text),
        types) := by
  rw [dynamicGate]
  split <;> rfl

theorem nodeType_value (R : Resolver) (node : Node) (types : TypeCache) :
    (R.nodeType node types).value =
      ((R.typeOf node types).value.1.mapError .type, (R.typeOf node types).value.2) := rfl

theorem binaryGate_value (R : Resolver) (node left : Node) (op : BinaryOp) (right : Node)
    (types : TypeCache) :
    (binaryGate R node left op right types).value =
      if op = .rem then (.error (.notInvertible Obstacle.modulus.reason node.text), types)
      else
        match (R.typeOf node types).value with
        | (.error e, types) => (.error (.type e), types)
        | (.ok ty, types) =>
          (if R.isString ty then .error (.notInvertible Obstacle.concatenation.reason node.text)
            else
              match Side.of? left.label.dynamic right.label.dynamic with
              | some side => .ok side
              | none => .error (.notInvertible (Obstacle.operands op).reason node.text), types) := by
  rw [binaryGate]
  by_cases hop : op = .rem
  · rw [if_pos hop, if_pos hop]
    rfl
  · rw [if_neg hop, if_neg hop, value_bind_except, nodeType_value]
    obtain ⟨e | ty, types⟩ := (R.typeOf node types).value
    · rfl
    · simp only [Except.mapError]
      split
      · rfl
      · cases Side.of? left.label.dynamic right.label.dynamic <;> rfl

theorem inSource_value {α : Type} (x : Typing BindingError α) (w : Workspace) :
    (inSource x w).value =
      ((x w.types).value.1, { w with types := (x w.types).value.2 }) := rfl

theorem inDest_value {α : Type} (x : ExceptT BindingError Building α) (w : Workspace) :
    (inDest x w).value = ((x w.dest).value.1, { w with dest := (x w.dest).value.2 }) := rfl

theorem solveAt_value (R : Resolver) (limit : Nat) (context : Context) (depth : Nat) (node : Node)
    (value : NodeId) (w : Workspace) :
    (solveAt R limit context depth node value w).value =
      if limit < depth then (.error (.depthExceeded limit), w)
      else
        match (gate R node w.types).value with
        | (.error e, types) => (.error e, { w with types })
        | (.ok d, types) =>
          match d.part? with
          | none => (assign node value context { w with types }).value
          | some part =>
            match (d.require value w.dest).value with
            | (.error e, dest) => (.error e, { types, dest })
            | (.ok value, dest) =>
              (solveAt R limit context (depth + 1) part value { types, dest }).value := by
  rw [solveAt_eq, value_bind_except, inSource_value, depthGate_value]
  by_cases hlimit : limit < depth
  · rw [if_pos hlimit, if_pos hlimit]
  · rw [if_neg hlimit, if_neg hlimit]
    change ((inSource (gate R node) >>= _) w).value = _
    rw [value_bind_except, inSource_value]
    obtain ⟨e | d, types⟩ := (gate R node w.types).value
    · rfl
    · dsimp only
      cases d.part? with
      | none => rfl
      | some part =>
          dsimp only
          rw [value_bind_except, inDest_value]
          obtain ⟨e | value, dest⟩ := (d.require value w.dest).value <;> rfl

theorem solveAt_refused {e : BindingError} (hlimit : depth ≤ limit) (value : NodeId)
    (hgate : (gate R node w.types).value = (.error e, types)) :
    (solveAt R limit context depth node value w).value = (.error e, { w with types }) := by
  rw [solveAt_value, if_neg (Nat.not_lt.mpr hlimit), hgate]

theorem solveAt_arrived {d : Descent} (hlimit : depth ≤ limit) (value : NodeId)
    (hgate : (gate R node w.types).value = (.ok d, types)) (hpart : d.part? = none) :
    (solveAt R limit context depth node value w).value =
      (assign node value context { w with types }).value := by
  rw [solveAt_value, if_neg (Nat.not_lt.mpr hlimit), hgate]
  simp only [hpart]

theorem solveAt_down {d : Descent} {part : Node} {value value' : NodeId} {dest : Model}
    (hlimit : depth ≤ limit) (hgate : (gate R node w.types).value = (.ok d, types))
    (hpart : d.part? = some part) (hreq : (d.require value w.dest).value = (.ok value', dest)) :
    (solveAt R limit context depth node value w).value =
      (solveAt R limit context (depth + 1) part value' { types, dest }).value := by
  rw [solveAt_value, if_neg (Nat.not_lt.mpr hlimit), hgate]
  simp only [hpart, hreq]

theorem checkAt_value (R : Resolver) (limit depth : Nat) (node : Node) (types : TypeCache) :
    (checkAt R limit depth node types).value =
      if limit < depth then (.error (.depthExceeded limit), types)
      else
        match (checkGate R node types).value with
        | (.error e, types) => (.error e, types)
        | (.ok none, types) => (.ok (), types)
        | (.ok (some part), types) => (checkAt R limit (depth + 1) part types).value := by
  rw [checkAt_eq, value_bind_except, depthGate_value]
  by_cases hlimit : limit < depth
  · rw [if_pos hlimit, if_pos hlimit]
  · rw [if_neg hlimit, if_neg hlimit]
    dsimp only
    rw [value_bind_except]
    obtain ⟨e | part?, types⟩ := (checkGate R node types).value
    · rfl
    · cases part? <;> rfl

/-! ### Where the gate opens -/

/-- The gate opens at the node, where types have been found so far, and this is to be done there. -/
inductive Opens (R : Resolver) (types : TypeCache) : Node → Descent → Prop where
  | identifier (l : NodeLabel) (name ty : String) : Opens R types (.identifier l name ty) .arrive
  | property (l : NodeLabel) {target : Node} (name : String) (h : target.label.dynamic = true) :
      Opens R types (.property l target name) .arrive
  | binary (l : NodeLabel) {left right : Node} {op : BinaryOp} {ty : Ty} {side : Side}
      {r : Rearrangement} (hty : (R.typeOf (.binary l left op right) types).value.1 = .ok ty)
      (hstr : R.isString ty = false)
      (hside : Side.of? left.label.dynamic right.label.dynamic = some side)
      (hr : Rearrangement.of? op side = some r) :
      Opens R types (.binary l left op right)
        (.rearrange r (side.split left right).2 (side.split left right).1)
  | unary (l : NodeLabel) (op : UnaryOp) {operand : Node} (h : operand.label.dynamic = true) :
      Opens R types (.unary l op operand) (.unary op operand)
  | cast (l : NodeLabel) (ty : String) {operand : Node} {found : Ty}
      (h : operand.label.dynamic = true) (hty : (R.typeOf operand types).value.1 = .ok found) :
      Opens R types (.cast l ty operand) (.cast found.name operand)
  | group (l : NodeLabel) (inner : Node) : Opens R types (.group l inner) (.keep inner)

theorem dynamicGate_ok_iff {part : Node} {obstacle : Obstacle} {u : Unit} :
    (dynamicGate node part obstacle types).value.1 = .ok u ↔ part.label.dynamic = true := by
  rw [dynamicGate_value]
  split <;> simp_all

theorem nodeType_ok_iff {ty : Ty} :
    (R.nodeType node types).value.1 = .ok ty ↔ (R.typeOf node types).value.1 = .ok ty := by
  rw [nodeType_value]
  cases (R.typeOf node types).value.1 <;> simp [Except.mapError]

theorem binaryGate_ok_iff {left right : Node} {op : BinaryOp} {side : Side} :
    (binaryGate R node left op right types).value.1 = .ok side ↔
      op ≠ .rem ∧ (∃ ty, (R.typeOf node types).value.1 = .ok ty ∧ R.isString ty = false) ∧
        Side.of? left.label.dynamic right.label.dynamic = some side := by
  rw [binaryGate_value]
  by_cases hop : op = .rem
  · simp [hop]
  · rw [if_neg hop]
    obtain ⟨e | ty, found⟩ := (R.typeOf node types).value
    · simp
    · cases hstr : R.isString ty <;>
        cases Side.of? left.label.dynamic right.label.dynamic <;> simp [hop, hstr]

/-- The gate opens exactly where it should. -/
theorem gate_ok_iff {d : Descent} :
    (gate R node types).value.1 = .ok d ↔ Opens R types node d := by
  constructor
  · intro h
    cases node with
    | identifier l name ty =>
        cases h
        exact .identifier l name ty
    | property l target name =>
        obtain ⟨_, hdyn, h⟩ := value_bind_ok_iff.mp h
        cases h
        exact .property l name (dynamicGate_ok_iff.mp hdyn)
    | binary l left op right =>
        obtain ⟨side, hgate, h⟩ := value_bind_ok_iff.mp h
        obtain ⟨hop, ⟨ty, hty, hstr⟩, hside⟩ := binaryGate_ok_iff.mp hgate
        obtain ⟨r, hr⟩ := rearrangement_of_ne_rem hop side
        rw [operandStep, hr] at h
        cases h
        exact .binary l hty hstr hside hr
    | unary l op operand =>
        obtain ⟨_, hdyn, h⟩ := value_bind_ok_iff.mp h
        cases h
        exact .unary l op (dynamicGate_ok_iff.mp hdyn)
    | cast l ty operand =>
        obtain ⟨_, hdyn, h⟩ := value_bind_ok_iff.mp h
        obtain ⟨found, hty, h⟩ := value_bind_ok_iff.mp h
        rw [dynamicGate_value] at hty
        cases h
        exact .cast l ty (dynamicGate_ok_iff.mp hdyn) (nodeType_ok_iff.mp hty)
    | group l inner =>
        cases h
        exact .group l inner
    | literal | conditional | assign => cases h
  · intro h
    cases h with
    | identifier | group => rfl
    | property _ _ hdyn | unary _ _ hdyn =>
        exact value_bind_ok_iff.mpr ⟨(), dynamicGate_ok_iff.mpr hdyn, rfl⟩
    | @binary l left right op ty side r hty hstr hside hr =>
        have hop : op ≠ .rem := by
          rintro rfl
          cases hr
        refine value_bind_ok_iff.mpr ⟨side, binaryGate_ok_iff.mpr ⟨hop, ⟨ty, hty, hstr⟩, hside⟩, ?_⟩
        rw [operandStep, hr]
        rfl
    | cast _ _ hdyn hty =>
        refine value_bind_ok_iff.mpr ⟨(), dynamicGate_ok_iff.mpr hdyn, ?_⟩
        rw [dynamicGate_value]
        exact value_bind_ok_iff.mpr ⟨_, nodeType_ok_iff.mpr hty, rfl⟩

/-- What has happened where solving succeeds. -/
theorem solveAt_ok_cases {value : NodeId} {a : Node}
    (h : (solveAt R limit context depth node value w).value.1 = .ok a) :
    ∃ d types, Opens R w.types node d ∧ types = (gate R node w.types).value.2 ∧
      (d.part? = none ∧
          (solveAt R limit context depth node value w).value =
            (assign node value context { w with types }).value ∨
        ∃ part value' dest, d.part? = some part ∧
          (d.require value w.dest).value = (.ok value', dest) ∧
          (solveAt R limit context depth node value w).value =
            (solveAt R limit context (depth + 1) part value' { types, dest }).value) := by
  have heq := solveAt_value R limit context depth node value w
  by_cases hlimit : limit < depth
  · rw [heq, if_pos hlimit] at h
    cases h
  · rw [if_neg hlimit] at heq
    rcases hgate : (gate R node w.types).value with ⟨e | d, types⟩ <;> rw [hgate] at heq
    · rw [heq] at h
      cases h
    · refine ⟨d, types, gate_ok_iff.mp (by rw [hgate]), rfl, ?_⟩
      dsimp only at heq
      cases hpart : d.part? with
      | none =>
          rw [hpart] at heq
          exact .inl ⟨rfl, heq⟩
      | some part =>
          rw [hpart] at heq
          dsimp only at heq
          rcases hreq : (d.require value w.dest).value with ⟨e | value', dest⟩ <;> rw [hreq] at heq
          · rw [heq] at h
            cases h
          · exact .inr ⟨part, value', dest, rfl, rfl, heq⟩

/-- The part to go on with is a child of the node. -/
theorem Opens.part_mem {d : Descent} {part : Node} (h : Opens R types node d)
    (hpart : d.part? = some part) : part ∈ node.children := by
  cases h with
  | identifier | property => cases hpart
  | @binary _ _ _ _ _ side =>
      cases hpart
      cases side <;> simp [Side.split, Expr.children, Expr.layer, Layer.children]
  | unary | cast | group =>
      cases hpart
      simp [Expr.children, Expr.layer, Layer.children]

/-- The workspace that a step down from the node leaves. -/
def Descent.after (R : Resolver) (node : Node) (value : NodeId) (w : Workspace) (d : Descent) :
    Workspace where
  types := (gate R node w.types).value.2
  dest := (d.require value w.dest).value.2

/-- **What holds of solving, however it ends**, from what holds where it gives up, where it arrives,
and after a step down. -/
theorem solveAt_induction {Q : Node → Workspace → Except BindingError Node × Workspace → Prop}
    (stop : ∀ node w e types, types = w.types ∨ types = (gate R node w.types).value.2 →
      Q node w (.error e, { w with types }))
    (arrive : ∀ node w value, Q node w
      (assign node value context { w with types := (gate R node w.types).value.2 }).value)
    (stuck : ∀ node w d value e, Opens R w.types node d → Q node w (.error e, d.after R node value w))
    (down : ∀ node w d part value r, Opens R w.types node d → d.part? = some part →
      Q part (d.after R node value w) r → Q node w r)
    (limit depth : Nat) (node : Node) (value : NodeId) (w : Workspace) :
    Q node w (solveAt R limit context depth node value w).value := by
  induction node using Expr.children_induction generalizing depth value w with
  | step node ih =>
      rw [solveAt_value]
      by_cases hlimit : limit < depth
      · rw [if_pos hlimit]
        exact stop node w _ w.types (.inl rfl)
      · rw [if_neg hlimit]
        have hstop (e : BindingError) := stop node w e _ (.inr rfl)
        have harrive := arrive node w value
        rcases hgate : (gate R node w.types).value with ⟨e | d, types⟩
        · rw [hgate] at hstop
          exact hstop e
        · have hopens : Opens R w.types node d := gate_ok_iff.mp (by rw [hgate])
          have hstuck (e : BindingError) := stuck node w d value e hopens
          have hafter : d.after R node value w = { types, dest := (d.require value w.dest).value.2 } := by
            rw [Descent.after, hgate]
          dsimp only
          cases hpart : d.part? with
          | none =>
              rw [hgate] at harrive
              exact harrive
          | some part =>
              have hdown := fun r => down node w d part value r hopens hpart
              rw [hafter] at hstuck hdown
              dsimp only
              revert hstuck hdown
              obtain ⟨e | value', dest⟩ := (d.require value w.dest).value
              · exact fun hstuck _ => hstuck e
              · exact fun _ hdown => hdown _
                  (ih part (hopens.part_mem hpart) (depth + 1) value' { types, dest })

/-! ### What a step stores -/

/-- The key of what is required of the part depends on the value by its key. -/
theorem Descent.key_required {e e' : Expr Unit} (d : Descent) (h : e.key = e'.key) :
    (d.required e).key = (d.required e').key := by
  cases d with
  | arrive | keep => exact h
  | unary | cast => simp only [required, Expr.key, h]
  | rearrange r constant part =>
      obtain ⟨op, _ | _⟩ := r <;> simp [required, Rearrangement.layer, Layer.expr, Expr.key, h]

/-- The constant of the step, if it has one, is a node of `s`, and what else the step stores satisfies
`P`. -/
def Descent.Sourced (s : Model) (P : Layer String → Prop) : Descent → Prop
  | arrive | keep _ => True
  | unary op _ => ∀ operand, P (.unary op operand)
  | cast ty _ => ∀ operand, P (.cast ty operand)
  | rearrange r constant _ => s.Holds constant ∧ ∀ left right, P (.binary left r.op right)

/-- A step from a node of a sound model takes its constant from there. -/
theorem Opens.sourced_of {d : Descent} (h : Opens R types node d) (hs : s.Sound) (hn : s.Holds node)
    (hunary : ∀ op operand, P (.unary op operand)) (hcast : ∀ ty operand, P (.cast ty operand))
    (hbinary : ∀ left op right, P (.binary left op right)) : d.Sourced s P := by
  cases h with
  | identifier | property | group => trivial
  | unary => exact hunary _
  | cast => exact hcast _
  | @binary _ left right _ _ side =>
      have hmem : (side.split left right).2 ∈ [left, right] := by
        cases side <;> simp [Side.split]
      exact ⟨hs.child hn hmem, fun left right => hbinary left _ right⟩

theorem Opens.sourced {d : Descent} (h : Opens R types node d) (hs : s.Sound) (hn : s.Holds node) :
    d.Sourced s fun _ => True :=
  h.sourced_of hs hn (fun _ _ => trivial) (fun _ _ => trivial) fun _ _ _ => trivial

theorem map_rearrangement_layer {α β : Type} (f : α → β) (r : Rearrangement) (a b : α) :
    (r.layer a b).map f = r.layer (f a) (f b) := by
  obtain ⟨op, _ | _⟩ := r <;> rfl

theorem outline_rearrangement_layer {α : Type} (r : Rearrangement) (a b : α) :
    (r.layer a b).outline = .binary () r.op () := by
  obtain ⟨op, _ | _⟩ := r <;> rfl

theorem rearrangement_children_hold {r : Rearrangement} {a b : Node} (ha : m.Holds a)
    (hb : m.Holds b) : ∀ c ∈ (r.layer a b).children, m.Holds c := by
  intro c hc
  obtain ⟨op, _ | _⟩ := r <;> rcases List.mem_pair.mp hc with rfl | rfl <;> assumption

theorem copy_value {constant : Node} {α : Type} (f : Node → ExceptT BindingError Building α) :
    (((liftM constant.copy : ExceptT BindingError Building Node) >>= f) m).value =
      (f (constant.copy m).value.1 (constant.copy m).value.2).value := by
  rw [value_bind_except]
  rfl

theorem requestKey_rearrangement_layer {r : Rearrangement} {a b : Node} {x y : Expr Unit}
    (ha : a.label.key = x.key) (hb : b.label.key = y.key) :
    Model.requestKey (r.layer a b) = ((r.layer x y).expr ()).key := by
  obtain ⟨op, _ | _⟩ := r <;>
    simp [Model.requestKey, Rearrangement.layer, Layer.map, Layer.expr, Expr.key, ha, hb]

theorem add_id_grows (hm : m.Sound) {layer : Layer NodeId}
    (hP : ∀ keys : Layer String, keys.outline = layer.outline → P keys) :
    m.Extends P ((do return (← Model.add layer).label.id :
      ExceptT BindingError Building NodeId) m).value.2 := by
  have hg := Model.add_grows hm hP
  rw [value_bind_except]
  revert hg
  obtain ⟨e | n, m'⟩ := (Model.add layer m).value <;> exact id

theorem add_id_stored (hm : m.Sound) (layer : Layer Node) (hP : P (layer.map (·.label.key)))
    (hc : ∀ c ∈ layer.children, m.Holds c) :
    ∃ n m', ((do return (← Model.add (layer.map (·.label.id))).label.id :
        ExceptT BindingError Building NodeId) m).value = (.ok n.label.id, m') ∧
      m.Stored P (Model.requestKey layer) (n, m') := by
  refine ⟨_, _, ?_, Model.intern_stored hm hP hc⟩
  rw [value_bind_except, Model.add_value hc]
  rfl

/-- What a step stores besides its constant satisfies `P`, over whichever keys. -/
theorem Descent.Sourced.of_outline {r : Rearrangement} {constant part : Node}
    (hd : (Descent.rearrange r constant part).Sourced s P) {keys : Layer String}
    (h : keys.outline = .binary () r.op ()) : P keys := by
  cases keys with
  | binary left op right =>
      cases h
      exact hd.2 left right
  | _ => cases h

/-- Whether or not the value is there, a step only adds to the destination: what it stores itself, and
the parts of its constant. -/
theorem require_grows_parts {d : Descent} (hs : s.Sound) (hm : m.Sound) (hd : d.Sourced s P)
    (hP : ∀ r constant part, d = .rearrange r constant part →
      ∀ e : Node, e.PartOf constant → P (e.layer.map (·.label.key))) (value : NodeId) :
    m.Extends P (d.require value m).value.2 := by
  cases d with
  | arrive | keep => exact .refl
  | unary op part | cast ty part =>
      refine add_id_grows hm fun keys h => ?_
      cases keys <;> cases h
      exact hd _
  | rearrange r constant part =>
      have hcopy := copy_stored_parts hs hd.1 (hP r constant part rfl) hm
      rw [Descent.require, copy_value]
      refine hcopy.grows.trans (add_id_grows (hcopy.grows.sound hm) fun keys h => ?_)
      rw [outline_rearrangement_layer] at h
      exact hd.of_outline h

theorem require_grows {d : Descent} (hs : s.Sound) (hP : s.All P) (hm : m.Sound)
    (hd : d.Sourced s P) (value : NodeId) : m.Extends P (d.require value m).value.2 := by
  refine require_grows_parts hs hm hd (fun r constant part heq => ?_) value
  subst heq
  exact hP.part hs hd.1

/-- **What a step stores.**  Given a value of the destination, the step stores there the expression
that is required of the part. -/
theorem require_stored {d : Descent} (hs : s.Sound) (hP : s.All P) (hm : m.Sound)
    (hd : d.Sourced s P) (hv : m.Holds v) :
    ∃ v' m', (d.require v.label.id m).value = (.ok v'.label.id, m') ∧
      m.Stored P (d.required v.bare).key (v', m') := by
  have hkey : v.label.key = v.bare.key := by rw [hm.label_key hv, Expr.key_bare]
  cases d with
  | arrive | keep => exact ⟨v, m, rfl, .refl, hv, hkey⟩
  | unary op part =>
      obtain ⟨v', m', heq, hst⟩ := add_id_stored hm (.unary op v) (hd _)
        (List.forall_mem_singleton.mpr hv)
      refine ⟨v', m', heq, hst.grows, hst.holds, hst.key.trans ?_⟩
      simp [Model.requestKey, Layer.map, Descent.required, Expr.key, hkey]
  | cast ty part =>
      obtain ⟨v', m', heq, hst⟩ := add_id_stored hm (.cast ty v) (hd _)
        (List.forall_mem_singleton.mpr hv)
      refine ⟨v', m', heq, hst.grows, hst.holds, hst.key.trans ?_⟩
      simp [Model.requestKey, Layer.map, Descent.required, Expr.key, hkey]
  | rearrange r constant part =>
      have hcopy := copy_stored hs hP hd.1 hm
      have hconst : (constant.copy m).value.1.label.key = constant.bare.key := by
        rw [hcopy.key, hs.label_key hd.1, Expr.key_bare]
      obtain ⟨v', m', heq, hst⟩ := add_id_stored (P := P) (hcopy.grows.sound hm) _
        (hd.of_outline (by rw [Layer.outline_map, outline_rearrangement_layer]))
        (rearrangement_children_hold (hcopy.grows.holds hv) hcopy.holds)
      refine ⟨v', m', ?_, hcopy.grows.trans hst.grows, hst.holds,
        hst.key.trans (requestKey_rearrangement_layer hkey hconst)⟩
      rw [Descent.require, copy_value, ← heq, map_rearrangement_layer]

/-! ### The end of the way -/

theorem assign_value (node : Node) (value : NodeId) (context : Context) (w : Workspace) :
    (assign node value context w).value =
      (let (target, dest) := (node.copy w.dest).value
       let (result, dest) := (Model.add (.assign target.label.id value context) dest).value
       (result, { w with dest })) := by
  rw [assign, inDest_value, copy_value]

theorem assign_grows (hs : s.Sound) (hP : s.All P) (hassign : ∀ target v, P (.assign target v context))
    (hn : s.Holds node) (hm : w.dest.Sound) (value : NodeId) :
    w.dest.Extends P (assign node value context w).value.2.dest := by
  have hcopy := copy_stored hs hP hn hm
  rw [assign_value]
  refine hcopy.grows.trans (Model.add_grows (hcopy.grows.sound hm) fun keys h => ?_)
  cases keys <;> cases h
  exact hassign _ _

/-- An assignment of a value that is there is a request over nodes that are there. -/
theorem assign_value_of_holds (context : Context)
    (hcopy : w.dest.Stored P node.label.key (node.copy w.dest).value) (hv : w.dest.Holds v) :
    (∀ c ∈ (Layer.assign (node.copy w.dest).value.1 v context).children,
        (node.copy w.dest).value.2.Holds c) ∧
      (assign node v.label.id context w).value =
        (.ok (Model.intern (.assign (node.copy w.dest).value.1 v context)
            (node.copy w.dest).value.2).value.1,
          { w with
            dest := (Model.intern (.assign (node.copy w.dest).value.1 v context)
              (node.copy w.dest).value.2).value.2 }) := by
  have hc : ∀ c ∈ (Layer.assign (node.copy w.dest).value.1 v context).children,
      (node.copy w.dest).value.2.Holds c := by
    intro c hc
    rcases List.mem_pair.mp hc with rfl | rfl
    · exact hcopy.holds
    · exact hcopy.grows.holds hv
  refine ⟨hc, ?_⟩
  have hadd := Model.add_value hc
  dsimp only [Layer.map] at hadd
  rw [assign_value]
  simp only [hadd]

/-- At the end of the way an assignment is stored, under a key that the keys of the node and the value
give. -/
theorem assign_stored (context : Context) (hs : s.Sound) (hn : s.Holds node) (hm : w.dest.Sound)
    (hv : w.dest.Holds v) :
    ∃ a dest, (assign node v.label.id context w).value = (.ok a, { w with dest }) ∧
      dest.Holds a ∧ a.label.key = (Layer.assign node.label.key v.label.key context).key := by
  have hcopy := copy_stored hs .true hn hm
  obtain ⟨hc, heq⟩ := assign_value_of_holds context hcopy hv
  have hst := Model.intern_stored (P := fun _ => True) (hcopy.grows.sound hm) trivial hc
  refine ⟨_, _, heq, hst.holds, hst.key.trans ?_⟩
  rw [Model.requestKey, Layer.map, hcopy.key]

/-- What is assigned at the end of the way: a new assignment of the value to a copy of the node, or one
with the same key that was there before. -/
theorem assign_ok_cases {a : Node} (hs : s.Sound) (hn : s.Holds node)
    (hP : ∀ e : Node, e.PartOf node → P (e.layer.map (·.label.key))) (hm : w.dest.Sound)
    (hv : w.dest.Holds v)
    (h : (assign node v.label.id context w).value.1 = .ok a) :
    ∃ target m', w.dest.Extends P m' ∧ m'.Holds target ∧ target.label.key = node.label.key ∧
      (assign node v.label.id context w).value.2.dest.Holds a ∧
      (a = m'.freshNode (.assign target v context) ∨
        m'.Holds a ∧ a.label.key = Model.requestKey (.assign target v context)) := by
  have hcopy := copy_stored_parts hs hn hP hm
  have hm' := hcopy.grows.sound hm
  obtain ⟨hc, heq⟩ := assign_value_of_holds context hcopy hv
  rw [heq] at h ⊢
  cases h
  refine ⟨_, _, hcopy.grows, hcopy.holds, hcopy.key,
    (Model.intern_stored (P := fun _ => True) hm' trivial hc).holds, ?_⟩
  rcases Model.intern_cases (Layer.assign (node.copy w.dest).value.1 v context)
    (node.copy w.dest).value.2 with ⟨n, hget, hintern⟩ | ⟨-, hintern⟩ <;> rw [hintern]
  · exact .inr (hm'.entry.mp hget)
  · exact .inl rfl

theorem Opens.sourced_inner {d : Descent} (h : Opens R types node d) (hs : s.Sound)
    (hn : s.Holds node) (hinner : ∀ layer : Layer String, layer.children ≠ [] → P layer) :
    d.Sourced s P :=
  h.sourced_of hs hn (fun _ k => hinner _ (List.cons_ne_nil k []))
    (fun _ k => hinner _ (List.cons_ne_nil k [])) fun k _ k' => hinner _ (List.cons_ne_nil k [k'])

/-- **Solving only adds to the destination**, however it ends: copies of nodes of the source, and nodes
with children. -/
theorem solveAt_extends (hs : s.Sound) (hP : s.All P)
    (hinner : ∀ layer : Layer String, layer.children ≠ [] → P layer) (hn : s.Holds node)
    (hm : w.dest.Sound) (value : NodeId) :
    w.dest.Extends P (solveAt R limit context depth node value w).value.2.dest := by
  refine solveAt_induction
    (Q := fun node w r => s.Holds node → w.dest.Sound → w.dest.Extends P r.2.dest)
    (fun _ _ _ _ _ _ _ => .refl) (fun node w value hn hm => ?_) (fun node w d value e hopens hn hm => ?_)
    (fun node w d part value r hopens hpart hrest hn hm => ?_) limit depth node value w hn hm
  · exact assign_grows (w := { w with types := _ }) hs hP
      (fun target v => hinner _ (List.cons_ne_nil target [v])) hn hm value
  · exact require_grows hs hP hm (hopens.sourced_inner hs hn hinner) value
  · have hg := require_grows hs hP hm (hopens.sourced_inner hs hn hinner) value
    exact hg.trans (hrest (hs.child hn (hopens.part_mem hpart)) (hg.sound hm))

theorem solveAt_grows (hs : s.Sound) (hn : s.Holds node) (hm : w.dest.Sound) (value : NodeId) :
    w.dest.Extends (fun _ => True) (solveAt R limit context depth node value w).value.2.dest :=
  solveAt_extends hs .true (fun _ _ => trivial) hn hm value

end Inverse

end DataBinding
