import DataBinding.Proofs.Inverse.Arithmetic
import DataBinding.Proofs.Model.Dynamic
import DataBinding.Proofs.Model.Reachable

/-!
# Proofs — Inversion — integers come back

The assignment that solving stores writes a value through which the expression takes the value that
was asked for: along a way of sums, differences, products, quotients, negations and groups over
integers (`Spine`), wherever the steps can be undone (`SpineStep.ExactAlong`).

Nodes of the destination are found by their keys, so what stands there is known as far as keys tell
expressions apart; this is why the names in both models are delimited.

* `require_eval`, `assign_bare`, `assign_eval`: what a step stores, and its value.
* `solveAt_round_trip`: the value comes back along the rest of a way.
* `solve_round_trip`: the value comes back.
-/

namespace DataBinding

variable {ι : Type}

/-! ### Paths and names -/

theorem Expr.eval_of_path {e : Expr ι} {p : String} (h : e.path? = some p) (env : Env) :
    e.eval env = env.read (some p) := by
  cases e with
  | identifier l name ty =>
      cases h
      rfl
  | property l target name => rw [eval, h]
  | _ => cases h

theorem Expr.Delimited.bare {e : Expr ι} (h : e.Delimited) : e.bare.Delimited := by
  induction e with
  | literal => exact h
  | identifier => trivial
  | property _ _ _ ih | unary _ _ _ ih | group _ _ ih | cast _ _ _ ih => exact ⟨h.1, ih h.2⟩
  | binary _ _ _ _ ih₁ ih₂ | assign _ _ _ _ ih₁ ih₂ => exact ⟨h.1, ih₁ h.2.1, ih₂ h.2.2⟩
  | conditional _ _ _ _ ih₁ ih₂ ih₃ => exact ⟨h.1, ih₁ h.2.1, ih₂ h.2.2.1, ih₃ h.2.2.2⟩

namespace Inverse

variable {R : Resolver} {limit depth : Nat} {context : Context} {s m m' : Model} {node v a : Node}
  {w : Workspace} {env₀ : Env}

/-! ### The values of what is stored -/

theorem Descent.required_delimited {d : Descent} (hs : s.Sound) (hsd : s.Delimited)
    (hd : d.Sourced s Layer.Delimited) {e : Expr Unit} (he : e.Delimited) :
    (d.required e).Delimited := by
  cases d with
  | arrive | keep => exact he
  | unary | cast => exact ⟨hd "", he⟩
  | rearrange r constant part =>
      have hconst : constant.bare.Delimited := Expr.Delimited.bare (hs.every hsd hd.1)
      obtain ⟨op, valueFirst⟩ := r
      cases valueFirst with
      | true => exact ⟨trivial, he, hconst⟩
      | false => exact ⟨trivial, hconst, he⟩

/-- What a step stores has the value of what is required. -/
theorem require_eval {d : Descent} {value : NodeId} (hs : s.Sound) (hsd : s.Delimited)
    (hd : d.Sourced s Layer.Delimited) (hm : m.Sound) (hmd : m.Delimited) (hv : m.Holds v)
    (h : (d.require v.label.id m).value = (.ok value, m')) :
    ∃ v', value = v'.label.id ∧ m'.Sound ∧ m'.Delimited ∧ m'.Holds v' ∧
      ∀ env, v'.eval env = (d.required v.bare).eval env := by
  obtain ⟨v', m'', heq, hst⟩ :=
    require_stored hs (Model.delimited_iff_all.mp hsd) hm hd hv
  obtain ⟨hvalue, rfl⟩ := Prod.mk.inj (h.symm.trans heq)
  cases hvalue
  have hm' := hst.grows.sound hm
  have hmd' := hst.grows.delimited hmd
  refine ⟨v', rfl, hm', hmd', hst.holds, Expr.eval_eq_of_bare ?_⟩
  have hvd : v.Delimited := hm.every hmd hv
  exact hm'.bare_eq_of_key hmd' hst.holds (Descent.required_delimited hs hsd hd hvd.bare) hst.key

/-- The assignment is stored, and is the one that was asked for. -/
theorem assign_bare (hs : s.Sound) (hsd : s.Delimited) (hn : s.Holds node) (hm : w.dest.Sound)
    (hmd : w.dest.Delimited) (hv : w.dest.Holds v)
    (h : (assign node v.label.id context w).value.1 = .ok a) :
    (assign node v.label.id context w).value.2.dest.Holds a ∧
      a.bare = .assign () node.bare v.bare context := by
  obtain ⟨target, m', hgrows, htarget, htargetKey, hheld, hcases⟩ :=
    assign_ok_cases hs hn ((Model.delimited_iff_all.mp hsd).part hs hn) hm hv h
  have hm' := hgrows.sound hm
  have hmd' := hgrows.delimited hmd
  have hv' := hgrows.holds hv
  have every {c : Node} (hc : m'.Holds c) : c.Delimited := hm'.every hmd' hc
  have hnd : node.Delimited := hs.every hsd hn
  have hbare : target.bare = node.bare :=
    hm'.bare_eq_of_key hmd' htarget hnd (htargetKey.trans (hs.label_key hn))
  refine ⟨hheld, ?_⟩
  rw [← hbare]
  rcases hcases with rfl | ⟨ha, hkey⟩
  · rfl
  · -- the assignment was there: its class may be called anything, as it stands last in the key
    have hlabel : ∀ c ∈ (Layer.assign target v context).children, c.label.key = c.key := by
      intro c hc
      rcases List.mem_pair.mp hc with rfl | rfl
      · exact hm'.label_key htarget
      · exact hm'.label_key hv'
    rw [hm'.label_key ha, Model.requestKey_eq hlabel a.label] at hkey
    exact Expr.bare_eq_of_key_assign (every ha) (every htarget) (every hv') hkey

/-- The assignment is stored, and has the value of what is assigned. -/
theorem assign_eval (hs : s.Sound) (hsd : s.Delimited) (hn : s.Holds node) (hm : w.dest.Sound)
    (hmd : w.dest.Delimited) (hv : w.dest.Holds v)
    (h : (assign node v.label.id context w).value.1 = .ok a) :
    (assign node v.label.id context w).value.2.dest.Holds a ∧ ∀ env, a.eval env = v.eval env := by
  obtain ⟨hheld, hbare⟩ := assign_bare hs hsd hn hm hmd hv h
  refine ⟨hheld, fun env => ?_⟩
  rw [← Expr.eval_bare, hbare, Expr.eval, Expr.eval_bare]

/-! ### The way of an integer -/

/-- The way down from a node to the end of the given path: at operators with a constant operand to
the other one, through negations and groups. -/
inductive Spine : Node → List SpineStep → String → Prop where
  | leaf {leaf : Node} {p : String} (h : leaf.path? = some p) : Spine leaf [] p
  | binary (l : NodeLabel) {left right : Node} (op : BinaryOp) {side : Side} {c : Int64}
      {steps : List SpineStep} {p : String}
      (hside : Side.of? left.label.dynamic right.label.dynamic = some side)
      (hconst : (side.split left right).2.eval Env.empty = .ok (.int c))
      (h : Spine (side.split left right).1 steps p) :
      Spine (.binary l left op right) (.binary op side c :: steps) p
  | unary (l : NodeLabel) (op : UnaryOp) {operand : Node} {steps : List SpineStep} {p : String}
      (h : Spine operand steps p) : Spine (.unary l op operand) (.unary op :: steps) p
  | group (l : NodeLabel) {inner : Node} {steps : List SpineStep} {p : String}
      (h : Spine inner steps p) : Spine (.group l inner) (.group :: steps) p

/-- An operator with a constant operand takes the value of the other. -/
theorem eval_binary_split {l : ι} {left right : Expr ι} {op : BinaryOp} (side : Side) {c : Value}
    {env : Env} (hc : (side.split left right).2.eval env = .ok c) :
    (Expr.binary l left op right).eval env =
      (side.split left right).1.eval env >>= fun x =>
        op.apply (side.split x c).1 (side.split x c).2 := by
  cases side with
  | left =>
      change right.eval env = _ at hc
      rw [Expr.eval, hc]
      rfl
  | right =>
      change left.eval env = _ at hc
      rw [Expr.eval, hc]
      rfl

theorem apply_int (op : BinaryOp) (x y : Int64) :
    op.apply (.int x) (.int y) = (op.onInts x y).map .int := by
  cases op <;> rfl

/-- The value of an operator from those of the operand that can change and the constant. -/
theorem eval_binary {l : ι} {left right : Expr ι} {op : BinaryOp} (side : Side) {x c z : Int64}
    {env : Env} (hx : (side.split left right).1.eval env = .ok (.int x))
    (hc : (side.split left right).2.eval env = .ok (.int c))
    (hz : op.onInts (side.split x c).1 (side.split x c).2 = .ok z) :
    (Expr.binary l left op right).eval env = .ok (.int z) := by
  rw [eval_binary_split side hc, hx]
  cases side with
  | left => exact (apply_int op x c).trans (congrArg (Except.map Value.int) hz)
  | right => exact (apply_int op c x).trans (congrArg (Except.map Value.int) hz)

/-- The value of the rearranged equation. -/
theorem eval_rearranged {r : Rearrangement} {e k : Expr Unit} {u c z : Int64} {env : Env}
    (he : e.eval env = .ok (.int u)) (hk : k.eval env = .ok (.int c))
    (hz : (if r.valueFirst then r.op.onInts u c else r.op.onInts c u) = .ok z) :
    ((r.layer e k).expr ()).eval env = .ok (.int z) := by
  obtain ⟨op, valueFirst⟩ := r
  cases valueFirst with
  | true => exact eval_binary .left he hk hz
  | false => exact eval_binary .right he hk hz

/-- A negation of either kind undoes itself. -/
theorem apply_unary {op : UnaryOp} {u : Int64} (h : (SpineStep.unary op).Exact u) :
    op.apply (.int u) = .ok (.int ((SpineStep.unary op).required u)) ∧
      op.apply (.int ((SpineStep.unary op).required u)) = .ok (.int u) := by
  cases op with
  | neg => exact ⟨rfl, congrArg (fun n => Except.ok (Value.int n)) Int64.neg_neg⟩
  | bitNot => exact ⟨rfl, congrArg (fun n => Except.ok (Value.int n)) Int64.not_not⟩
  | not => exact h.elim

/-- The operand that is not on the side that can change is constant. -/
theorem constant_of_side {left right : Node} {side : Side}
    (h : Side.of? left.label.dynamic right.label.dynamic = some side) :
    (side.split left right).2.label.dynamic = false := by
  cases hl : left.label.dynamic <;> cases hr : right.label.dynamic <;> rw [hl, hr] at h <;> cases h
  · exact hl
  · exact hr

/-- Only the nodes that are assigned have a path. -/
theorem Opens.part?_of_path {d : Descent} {types : TypeCache} {p : String}
    (h : Opens R types node d) (hpath : node.path? = some p) : d.part? = none := by
  cases h with
  | identifier | property => rfl
  | binary | unary | cast | group => cases hpath

theorem split_mem (side : Side) (left right : Node) :
    (side.split left right).1 ∈ [left, right] ∧ (side.split left right).2 ∈ [left, right] := by
  cases side <;> simp [Side.split]

/-- **The value comes back along the rest of a way**, if what is required of its first node has that
value and the steps can be undone. -/
theorem solveAt_round_trip {steps : List SpineStep} {p : String} {u : Int64} (hs : s.Sound)
    (hsd : s.Delimited) (hspine : Spine node steps p) (hn : s.Holds node) (hm : w.dest.Sound)
    (hmd : w.dest.Delimited) (hv : w.dest.Holds v) (heval : v.eval env₀ = .ok (.int u))
    (hexact : SpineStep.ExactAlong steps u)
    (hsolve : (solveAt R limit context depth node v.label.id w).value.1 = .ok a) :
    (solveAt R limit context depth node v.label.id w).value.2.dest.Holds a ∧
      ∃ x, a.eval env₀ = .ok (.int x) ∧
        ∀ env : Env, node.eval (env.set p (.int x)) = .ok (.int u) := by
  induction hspine generalizing depth v w u with
  | @leaf leaf p hpath =>
      obtain ⟨d, types, hopens, -, ⟨-, heq⟩ | ⟨part, value', dest, hpart, -⟩⟩ :=
        solveAt_ok_cases hsolve
      · rw [heq] at hsolve ⊢
        obtain ⟨hheld, hval⟩ := assign_eval (w := { w with types }) hs hsd hn hm hmd hv hsolve
        refine ⟨hheld, u, ?_, fun env => ?_⟩
        · rw [hval, heval]
        · rw [Expr.eval_of_path hpath]
          simp [Env.read, Env.set]
      · rw [hopens.part?_of_path hpath] at hpart
        cases hpart
  | @binary l left right op side c steps p hside hconst _ ih =>
      obtain ⟨hstep, hrest⟩ := hexact
      obtain ⟨d, types, hopens, -, hcases⟩ := solveAt_ok_cases hsolve
      obtain ⟨hmem, hmem'⟩ := split_mem side left right
      -- what cannot change has one value, so a copy of the constant stands for the constant
      have hk : s.Holds (side.split left right).2 := hs.child hn hmem'
      have hconst' : ∀ env, (side.split left right).2.eval env = .ok (.int c) := fun env =>
        ((hs.eval_constant hk (constant_of_side hside)).2 env Env.empty).trans hconst
      cases hopens with
      | @binary _ _ _ _ ty side' r hty hstr hside' hr =>
          obtain rfl : side = side' := Option.some.inj (hside.symm.trans hside')
          rcases hcases with ⟨hnone, -⟩ | ⟨part, value', dest, hpart, hreq, heq⟩
          · cases hnone
          cases hpart
          rw [heq] at hsolve ⊢
          have hd : (Descent.rearrange r (side.split left right).2 (side.split left right).1).Sourced
              s Layer.Delimited := ⟨hk, fun _ _ => trivial⟩
          obtain ⟨v', rfl, hm', hmd', hv', hval⟩ := require_eval hs hsd hd hm hmd hv hreq
          have heval' : v'.eval env₀ = .ok (.int ((SpineStep.binary op side c).required u)) := by
            refine (hval env₀).trans (eval_rearranged ?_ ?_ (SpineStep.rearranged_onInts hr hstep))
            · rw [Expr.eval_bare, heval]
            · rw [Expr.eval_bare, hconst' env₀]
          obtain ⟨hheld, x, hx, hback⟩ := ih (w := { types, dest }) (hs.child hn hmem) hm' hmd' hv'
            heval' hrest hsolve
          refine ⟨hheld, x, hx, fun env => ?_⟩
          exact eval_binary side (hback env) (hconst' _) (SpineStep.onInts_required hstep)
  | @unary l op operand steps p _ ih =>
      obtain ⟨hstep, hrest⟩ := hexact
      obtain ⟨d, types, hopens, -, hcases⟩ := solveAt_ok_cases hsolve
      cases hopens with
      | unary _ _ hdyn =>
          rcases hcases with ⟨hnone, -⟩ | ⟨part, value', dest, hpart, hreq, heq⟩
          · cases hnone
          cases hpart
          rw [heq] at hsolve ⊢
          have hd : (Descent.unary op operand).Sourced s Layer.Delimited := fun _ => trivial
          obtain ⟨v', rfl, hm', hmd', hv', hval⟩ := require_eval hs hsd hd hm hmd hv hreq
          have heval' : v'.eval env₀ = .ok (.int ((SpineStep.unary op).required u)) := by
            rw [hval env₀, Descent.required, Expr.eval, Expr.eval_bare, heval]
            exact (apply_unary hstep).1
          obtain ⟨hheld, x, hx, hback⟩ := ih (w := { types, dest })
            (hs.child hn (List.mem_singleton_self operand)) hm' hmd' hv' heval' hrest hsolve
          refine ⟨hheld, x, hx, fun env => ?_⟩
          rw [Expr.eval, hback env]
          exact (apply_unary hstep).2
  | @group l inner steps p _ ih =>
      obtain ⟨d, types, hopens, -, hcases⟩ := solveAt_ok_cases hsolve
      cases hopens with
      | group =>
          rcases hcases with ⟨hnone, -⟩ | ⟨part, value', dest, hpart, hreq, heq⟩
          · cases hnone
          cases hpart
          rw [heq] at hsolve ⊢
          cases hreq
          exact ih (w := { w with types }) (hs.child hn (List.mem_singleton_self inner)) hm hmd hv
            heval hexact.2 hsolve

/-- **Integers come back.**  Let a node of one model be solved for a variable `v` of another, the
names in both being delimited, along a way of integer steps to the path `p`.  For every value `t` at
which the steps can be undone, the assignment that is stored writes an integer when `v` is `t`, and
where `p` has that integer, the node has the value `t`, whatever else the environment holds. -/
theorem solve_round_trip {source dest : Model} (hsource : source.Reachable) (hdest : dest.Reachable)
    (hsd : source.Delimited) (hdd : dest.Delimited) {i value : NodeId}
    (hnode : source.node? i = some node) {l : NodeLabel} {v ty : String}
    (hvalue : dest.node? value = some (.identifier l v ty))
    (hsolve : (solve R limit context node value ⟨source.types, dest⟩).value.1 = .ok a)
    {steps : List SpineStep} {p : String} (hspine : Spine node steps p) {t : Int64}
    (hexact : SpineStep.ExactAlong steps t) :
    (solve R limit context node value ⟨source.types, dest⟩).value.2.dest.node? a.label.id = some a ∧
      ∃ x, a.eval (Env.empty.set v (.int t)) = .ok (.int x) ∧
        ∀ env : Env, node.eval (env.set p (.int x)) = .ok (.int t) := by
  have hs := hsource.sound
  obtain rfl : l.id = value := hdest.sound.place hvalue
  refine solveAt_round_trip (v := .identifier l v ty) (w := ⟨source.types, dest⟩) hs hsd hspine
    (hs.holds hnode) hdest.sound hdd hvalue ?_ hexact hsolve
  simp [Expr.eval, Env.read, Env.set]

/-- Solving `~(7 - (x * -1)) = v` at the value where `x` is the least integer, which its own negation
wraps around to. -/
theorem solve_round_trip_wraps :
    ∃ source dest node,
      source = Model.build [.identifier "x" "long", .literal "-1" "long", .binary 0 .mul 1,
        .group 2, .literal "7" "long", .binary 4 .sub 3, .unary .bitNot 5] ∧
      dest = Model.build [.identifier "v" "long"] ∧ source.node? 6 = some node ∧
      ∃ a, (solve TypeTable.standard.resolver 256 ⟨"View"⟩ node 0
          ⟨source.types, dest⟩).value.1 = .ok a ∧
        ∃ x, a.eval (Env.empty.set "v" (.int 9223372036854775800)) = .ok (.int x) ∧
          ∀ env : Env, node.eval (env.set "x" (.int x)) = .ok (.int 9223372036854775800) := by
  refine ⟨_, _, _, rfl, rfl, rfl, exists_ok (by decide +kernel) fun a ha => ?_⟩
  refine (solve_round_trip (Model.reachable_build _) (Model.reachable_build _)
    (Model.delimited_build (by decide)) (Model.delimited_build (by decide)) (i := 6) rfl rfl ha
    (.unary _ .bitNot (.binary _ .sub rfl rfl (.group _ (.binary _ .mul rfl rfl (.leaf rfl))))) ?_).2
  decide +kernel

end Inverse

end DataBinding
