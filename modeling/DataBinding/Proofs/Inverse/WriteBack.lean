import DataBinding.Proofs.Inverse.Trail

/-!
# Proofs — Inversion — writing back the current value

To write back the value that an expression has should change nothing.  A `Link` is what one node on
the way to the leaf does to the value of its part, and what solving does to the value of the whole;
`Course` says which links the way has.  So the expression computes `Link.upAlong` of what the leaf
has, the assignment computes `Link.downAlong` of what is written, and the law holds where the one
undoes the other.

Each integer operator undoes what was attained, but their steps compose: what a quotient requires of
its part need not be attained by the part.  Where nothing but steps that can be undone there stands
below a quotient, and products do not wrap around, the law holds (`SpineStep.SteadyAlong`);
`solve_loses_product` is a product below a quotient.

* `Course.eval_eq`: the expression goes up the links.
* `solve_eval`: the assignment goes down the links.
* `solve_writes_back`: writing back the current value.
-/

namespace DataBinding

/-- The value of the rearranged equation. -/
def Rearrangement.apply (r : Rearrangement) (value constant : Value) : Except EvalError Value :=
  if r.valueFirst then r.op.apply value constant else r.op.apply constant value

theorem Rearrangement.eval_layer {r : Rearrangement} {e k : Expr Unit} {c : Value} {env : Env}
    (hk : k.eval env = .ok c) :
    ((r.layer e k).expr ()).eval env = e.eval env >>= fun y => r.apply y c := by
  obtain ⟨op, valueFirst⟩ := r
  cases valueFirst with
  | true => exact Inverse.eval_binary_split .left hk
  | false => exact Inverse.eval_binary_split .right hk

namespace Inverse

variable {R : Resolver} {limit : Nat} {context : Context} {s : Model} {node leaf a : Node}
  {types : TypeCache} {ds : List Descent} {p : String}

/-! ### Links -/

/-- What stands between a node on the way and its part that can change. -/
inductive Link where
  /-- An operator and its constant, with the part on the given side. -/
  | binary (op : BinaryOp) (side : Side) (constant : Value)
  | unary (op : UnaryOp)
  /-- A cast to `ty` of something of type `source`. -/
  | cast (ty source : String)
  | group

namespace Link

/-- The value of the node from that of the part. -/
def up (x : Value) : Link → Except EvalError Value
  | binary op side c => op.apply (side.split x c).1 (side.split x c).2
  | unary op => op.apply x
  | cast ty _ => .ok (x.cast ty)
  | group => .ok x

/-- What is required of the part, from what is required of the node. -/
def down (y : Value) : Link → Except EvalError Value
  | binary op side c =>
    match Rearrangement.of? op side with
    | some r => r.apply y c
    | none => .error (.mismatch op.symbol [y.kind, c.kind])
  | unary op => op.apply y
  | cast _ source => .ok (y.cast source)
  | group => .ok y

/-- The value of the first node from that of the leaf. -/
def upAlong (x : Value) : List Link → Except EvalError Value
  | [] => .ok x
  | link :: links => do link.up (← upAlong x links)

/-- What is required of the leaf, from what is required of the first node. -/
def downAlong : List Link → Value → Except EvalError Value
  | [], y => .ok y
  | link :: links, y => do downAlong links (← link.down y)

end Link

/-- The links on the way down from a node to the end of the given path. -/
inductive Course (R : Resolver) (types : TypeCache) : Node → List Link → String → Prop where
  | leaf {leaf : Node} {p : String} (h : leaf.path? = some p) : Course R types leaf [] p
  | binary (l : NodeLabel) {left right : Node} (op : BinaryOp) {side : Side} {c : Value}
      {links : List Link} {p : String}
      (hside : Side.of? left.label.dynamic right.label.dynamic = some side)
      (hconst : (side.split left right).2.eval Env.empty = .ok c)
      (h : Course R types (side.split left right).1 links p) :
      Course R types (.binary l left op right) (.binary op side c :: links) p
  | unary (l : NodeLabel) (op : UnaryOp) {operand : Node} {links : List Link} {p : String}
      (h : Course R types operand links p) :
      Course R types (.unary l op operand) (.unary op :: links) p
  | cast (l : NodeLabel) (ty : String) {operand : Node} {found : Ty} {links : List Link}
      {p : String} (hty : (R.typeOf operand types).value.1 = .ok found)
      (h : Course R types operand links p) :
      Course R types (.cast l ty operand) (.cast ty found.name :: links) p
  | group (l : NodeLabel) {inner : Node} {links : List Link} {p : String}
      (h : Course R types inner links p) : Course R types (.group l inner) (.group :: links) p

variable {links : List Link}

/-- The constant of an operator has one value, whatever the environment. -/
theorem eval_constant_of_side {l : NodeLabel} {left right : Node} {op : BinaryOp} {side : Side}
    (hs : s.Sound) (hn : s.Holds (.binary l left op right))
    (hside : Side.of? left.label.dynamic right.label.dynamic = some side) (env env' : Env) :
    (side.split left right).2.eval env = (side.split left right).2.eval env' :=
  (hs.eval_constant (hs.child hn (split_mem side left right).2) (constant_of_side hside)).2 env env'

/-- **The expression goes up the links** from what the environment gives to the path. -/
theorem Course.eval_eq (h : Course R types node links p) (hs : s.Sound) (hn : s.Holds node)
    (env : Env) : node.eval env = env.read (some p) >>= fun x => Link.upAlong x links := by
  induction h with
  | leaf hpath =>
      rw [Expr.eval_of_path hpath]
      exact (bind_pure _).symm
  | @binary l left right op side c links p hside hconst _ ih =>
      rw [eval_binary_split side ((eval_constant_of_side hs hn hside env _).trans hconst),
        ih (hs.child hn (split_mem side left right).1), bind_assoc]
      rfl
  | @unary l op operand links p _ ih =>
      rw [Expr.eval, ih (hs.child hn (List.mem_singleton_self operand)), bind_assoc]
      rfl
  | @cast l ty operand found links p _ _ ih =>
      rw [Expr.eval, ih (hs.child hn (List.mem_singleton_self operand)), bind_assoc]
      rfl
  | @group l inner links p _ ih =>
      rw [Expr.eval, ih (hs.child hn (List.mem_singleton_self inner))]
      exact congrArg _ (funext fun x => (bind_pure (Link.upAlong x links)).symm)

/-- What a step requires has the value that its link gives. -/
theorem Course.eval_required (h : Course R types node links p) (htrail : Trail R types node ds leaf)
    (hs : s.Sound) (hn : s.Holds node) (e : Expr Unit) (env : Env) :
    (Descent.requiredAlong ds e).eval env = e.eval env >>= Link.downAlong links := by
  induction htrail generalizing links e with
  | arrive hopens =>
      cases h with
      | leaf => exact (bind_pure _).symm
      | binary | unary | cast | group => cases hopens
  | @down node part leaf d ds hopens hpart _ ih =>
      have hpath : ∀ q, node.path? ≠ some q := by
        intro q hq
        rw [hopens.part?_of_path hq] at hpart
        cases hpart
      have hpartHeld := hs.child hn (hopens.part_mem hpart)
      -- the links below are those of the part, so it is left to compare one step with one link
      have step {link : Link} {links : List Link} (hcourse : Course R types part links p)
          (hstep : (d.required e).eval env = e.eval env >>= link.down) :
          (Descent.requiredAlong (d :: ds) e).eval env =
            e.eval env >>= Link.downAlong (link :: links) := by
        rw [Descent.requiredAlong, ih hcourse hpartHeld, hstep, bind_assoc]
        rfl
      cases h with
      | leaf h => exact absurd h (hpath _)
      | @binary l left right op side c links p hside hconst hcourse =>
          cases hopens with
          | @binary _ _ _ _ _ side' r _ _ hside' hr =>
              obtain rfl : side = side' := Option.some.inj (hside.symm.trans hside')
              cases hpart
              refine step hcourse ?_
              have hk := (eval_constant_of_side hs hn hside env _).trans hconst
              rw [← Expr.eval_bare] at hk
              rw [Descent.required, Rearrangement.eval_layer hk]
              simp only [Link.down, hr]
      | unary l op hcourse =>
          cases hopens
          cases hpart
          exact step hcourse rfl
      | @cast l ty operand found links p hty hcourse =>
          cases hopens with
          | @cast _ _ _ found' _ hty' =>
              obtain rfl : found = found' := Except.ok.inj (hty.symm.trans hty')
              cases hpart
              exact step hcourse rfl
      | group l hcourse =>
          cases hopens
          cases hpart
          exact step hcourse (bind_pure _).symm

/-- The way down from an expression with a value has links. -/
theorem Trail.exists_course (h : Trail R types node ds leaf) (hs : s.Sound) (hn : s.Holds node)
    (hpath : leaf.path? = some p) {env : Env} {x : Value} (heval : node.eval env = .ok x) :
    ∃ links, Course R types node links p := by
  induction h generalizing x with
  | arrive => exact ⟨[], .leaf hpath⟩
  | @down node part leaf d ds hopens hpart _ ih =>
      have hpartHeld := hs.child hn (hopens.part_mem hpart)
      cases hopens with
      | identifier | property => cases hpart
      | @binary l left right op ty side r hty hstr hside hr =>
          cases hpart
          obtain ⟨y, hleft, heval⟩ := bind_ok heval
          obtain ⟨y', hright, -⟩ := bind_ok heval
          obtain ⟨hy, hc⟩ : (side.split left right).1.eval env = .ok (side.split y y').1 ∧
              (side.split left right).2.eval env = .ok (side.split y y').2 := by
            cases side
            · exact ⟨hleft, hright⟩
            · exact ⟨hright, hleft⟩
          obtain ⟨links, hcourse⟩ := ih hpartHeld hpath hy
          have hconst := (eval_constant_of_side hs hn hside Env.empty env).trans hc
          exact ⟨_, .binary l op hside hconst hcourse⟩
      | unary l op hdyn =>
          cases hpart
          obtain ⟨y, hy, -⟩ := bind_ok heval
          obtain ⟨links, hcourse⟩ := ih hpartHeld hpath hy
          exact ⟨_, .unary l op hcourse⟩
      | cast l ty hdyn hty =>
          cases hpart
          obtain ⟨y, hy, -⟩ := bind_ok heval
          obtain ⟨links, hcourse⟩ := ih hpartHeld hpath hy
          exact ⟨_, .cast l ty hty hcourse⟩
      | group l inner =>
          cases hpart
          obtain ⟨links, hcourse⟩ := ih hpartHeld hpath heval
          exact ⟨_, .group l hcourse⟩

theorem read_set (env : Env) (p : String) (x : Value) : (env.set p x).read (some p) = .ok x := by
  simp [Env.read, Env.set]

/-- **The assignment goes down the links** from the value that is written, where names are
delimited. -/
theorem solve_eval {source dest : Model} (hs : source.Sound) (hsd : source.Delimited)
    (hR : Delimits R source) (hm : dest.Sound) (hmd : dest.Delimited) (hn : source.Holds node)
    {l : NodeLabel} {v ty : String} (hv : dest.Holds (.identifier l v ty))
    (hsolve : (solve R limit context node l.id ⟨source.types, dest⟩).value.1 = .ok a)
    (hcourse : Course R source.types node links p) (x : Value) :
    a.eval (Env.empty.set v x) = Link.downAlong links x := by
  obtain ⟨ds, htrail, hbare⟩ :=
    solve_bare (w := ⟨source.types, dest⟩) hs hsd hn hm hmd hv hsolve
  rw [← Expr.eval_bare, hbare (htrail.cast_delimited hs hn hR), Expr.eval,
    hcourse.eval_required htrail hs hn, Expr.eval_bare, Expr.eval, read_set]
  rfl

/-! ### Links between integers -/

/-- The step that the link makes between integers, if it is one; a cast that does not go to or come
from a floating type leaves an integer alone. -/
def Link.step? : Link → Option SpineStep
  | binary op side (.int c) => some (.binary op side c)
  | binary _ _ _ => none
  | unary op => some (.unary op)
  | cast ty source =>
    if Literal.Form.ofType? ty = some .floating ∨ Literal.Form.ofType? source = some .floating then
      none
    else some .group
  | group => some .group

theorem cast_int {ty : String} (h : Literal.Form.ofType? ty ≠ some .floating) (x : Int64) :
    (Value.int x).cast ty = .int x := by
  unfold Value.cast
  split
  · cases ‹Value.int x = _›
  · exact absurd ‹_› h
  · rfl

theorem apply_div_int {m n : Int64} {y : Value} (h : BinaryOp.div.apply (.int m) (.int n) = .ok y) :
    n ≠ 0 ∧ y = .int (m / n) := by
  rw [apply_int, BinaryOp.onInts] at h
  split at h
  · cases h
  · cases h
    exact ⟨‹_›, rfl⟩

theorem Link.step?_cast {ty source : String} {step : SpineStep}
    (h : (Link.cast ty source).step? = some step) :
    step = .group ∧ Literal.Form.ofType? ty ≠ some .floating ∧
      Literal.Form.ofType? source ≠ some .floating := by
  rw [step?] at h
  split at h
  · cases h
  · cases h
    exact ⟨rfl, not_or.mp ‹_›⟩

/-- Up an integer link an integer takes the step. -/
theorem Link.up_int {link : Link} {step : SpineStep} (h : link.step? = some step) (x : Int64) :
    link.up (.int x) = (step.onInt x).map .int := by
  cases link with
  | binary op side c =>
      cases c with
      | int c =>
          cases h
          cases side <;> exact apply_int op _ _
      | _ => cases h
  | unary op =>
      cases h
      cases op <;> rfl
  | cast ty source =>
      obtain ⟨rfl, hty, -⟩ := step?_cast h
      exact congrArg Except.ok (cast_int hty x)
  | group =>
      cases h
      rfl

/-- Down an integer link an integer becomes what the step requires. -/
theorem Link.down_int {link : Link} {step : SpineStep} (h : link.step? = some step) {u : Int64}
    {y : Value} (hy : link.down (.int u) = .ok y) :
    step.Solvable u ∧ y = .int (step.required u) := by
  cases link with
  | binary op side c =>
      cases c with
      | int c =>
          cases h
          cases op with
          | rem => cases hy
          | add | sub => cases side <;> cases hy <;> exact ⟨trivial, rfl⟩
          | mul => exact apply_div_int hy
          | div =>
              cases side with
              | left =>
                  cases hy
                  exact ⟨trivial, rfl⟩
              | right => exact apply_div_int hy
      | _ => cases h
  | unary op =>
      cases h
      cases op <;> cases hy <;> exact ⟨trivial, rfl⟩
  | cast ty source =>
      obtain ⟨rfl, -, hsource⟩ := step?_cast h
      cases hy
      exact ⟨trivial, cast_int hsource u⟩
  | group =>
      cases h
      cases hy
      exact ⟨trivial, rfl⟩

variable {steps : List SpineStep} {t : Int64}

theorem Link.mapM_step?_cons {link : Link} (h : (link :: links).mapM step? = some steps) :
    ∃ step rest, link.step? = some step ∧ links.mapM step? = some rest ∧ steps = step :: rest := by
  rw [List.mapM_cons] at h
  obtain ⟨step, hstep, h⟩ := Option.bind_eq_some_iff.mp h
  obtain ⟨rest, hrest, h⟩ := Option.bind_eq_some_iff.mp h
  cases h
  exact ⟨step, rest, hstep, hrest, rfl⟩

/-- Up integer links an integer takes the steps. -/
theorem Link.upAlong_int (h : links.mapM step? = some steps) (x : Int64) :
    upAlong (.int x) links = (SpineStep.valueAlong x steps).map .int := by
  induction links generalizing steps with
  | nil =>
      cases h
      rfl
  | cons link links ih =>
      obtain ⟨step, rest, hstep, hrest, rfl⟩ := mapM_step?_cons h
      rw [upAlong, ih hrest, SpineStep.valueAlong]
      cases SpineStep.valueAlong x rest with
      | error e => rfl
      | ok z => exact up_int hstep z

/-- Down integer links an integer becomes what the steps require. -/
theorem Link.downAlong_int (h : links.mapM step? = some steps) {y : Value}
    (hy : downAlong links (.int t) = .ok y) :
    SpineStep.SolvableAlong steps t ∧ y = .int (SpineStep.requiredAlong steps t) := by
  induction links generalizing steps t with
  | nil =>
      cases h
      cases hy
      exact ⟨trivial, rfl⟩
  | cons link links ih =>
      obtain ⟨step, rest, hstep, hrest, rfl⟩ := mapM_step?_cons h
      obtain ⟨z, hz, hy⟩ := bind_ok hy
      obtain ⟨hsolvable, rfl⟩ := down_int hstep hz
      obtain ⟨hrestSolvable, rfl⟩ := ih hrest hy
      exact ⟨⟨hsolvable, hrestSolvable⟩, rfl⟩

/-- Integer links that are steady undo what they attain. -/
theorem Link.upAlong_of_steady {x : Int64} {y : Value} (h : links.mapM step? = some steps)
    (hup : upAlong (.int x) links = .ok (.int t)) (hdown : downAlong links (.int t) = .ok y)
    (hsteady : SpineStep.SteadyAlong x steps t) : upAlong y links = .ok (.int t) := by
  obtain ⟨hsolvable, rfl⟩ := downAlong_int h hdown
  rw [upAlong_int h] at hup ⊢
  have hvalue : SpineStep.valueAlong x steps = .ok t := by
    cases hx : SpineStep.valueAlong x steps with
    | error e =>
        rw [hx] at hup
        cases hup
    | ok z =>
        rw [hx] at hup
        cases hup
        rfl
  rw [SpineStep.valueAlong_of_steady hvalue hsolvable hsteady]
  rfl

/-! ### Writing back -/

/-- **Writing back the current value.**  Let a node of one model be solved for a variable `v` of
another, the names in both and of the found types being delimited, and let its leaf have the path
`p`.  Where the node has the integer `t` and the assignment the value `w` for it, the way to the leaf
has links; `w` is what they require for `t`, and with `w` at `p` the node has the value that they
give for `w`.  This is `t` again, if the links are steady integer steps. -/
theorem solve_writes_back {source dest : Model} (hsource : source.Reachable) (hdest : dest.Reachable)
    (hsd : source.Delimited) (hdd : dest.Delimited) (hR : Delimits R source) {i value : NodeId}
    (hnode : source.node? i = some node) {l : NodeLabel} {v ty : String}
    (hvalue : dest.node? value = some (.identifier l v ty))
    (hsolve : (solve R limit context node value ⟨source.types, dest⟩).value.1 = .ok a)
    (hpath : node.spineLeaf.path? = some p) {env : Env} (heval : node.eval env = .ok (.int t))
    {w : Value} (hw : a.eval (Env.empty.set v (.int t)) = .ok w) :
    (∃ links, Course R source.types node links p) ∧
      ∀ links, Course R source.types node links p →
        Link.downAlong links (.int t) = .ok w ∧
        node.eval (env.set p w) = Link.upAlong w links ∧
        ∀ x steps, env p = some (.int x) → links.mapM Link.step? = some steps →
          SpineStep.SteadyAlong x steps t → node.eval (env.set p w) = .ok (.int t) := by
  have hs := hsource.sound
  have hn := hs.holds hnode
  obtain rfl : l.id = value := hdest.sound.place hvalue
  have hv : dest.Holds (.identifier l v ty) := hvalue
  obtain ⟨ds, htrail, -⟩ :=
    solve_bare (w := ⟨source.types, dest⟩) hs hsd hn hdest.sound hdd hv hsolve
  refine ⟨htrail.exists_course hs hn hpath heval, fun links hcourse => ?_⟩
  have hdown : Link.downAlong links (.int t) = .ok w := by
    rw [← hw, solve_eval hs hsd hR hdest.sound hdd hn hv hsolve hcourse]
  have hup : node.eval (env.set p w) = Link.upAlong w links := by
    rw [hcourse.eval_eq hs hn, read_set]
    rfl
  refine ⟨hdown, hup, fun x steps hx hsteps hsteady => ?_⟩
  rw [hcourse.eval_eq hs hn, Env.read, hx] at heval
  exact hup.trans (Link.upAlong_of_steady hsteps heval hdown hsteady)

/-- A model with one variable to solve for. -/
theorem holds_variable : (Model.build [.identifier "v" "int"]).Holds
    (.identifier ⟨0, "id:1:v", true⟩ "v" "int") := rfl

/-- Writing back the value of `(100 / x) * 3` where `x` is 29: what is written is 33, and the value
stays 9. -/
theorem solve_writes_back_rounded :
    ∃ source dest node a,
      source = Model.build [.identifier "x" "int", .literal "100" "int", .binary 1 .div 0,
        .literal "3" "int", .binary 2 .mul 3] ∧
      dest = Model.build [.identifier "v" "int"] ∧ source.node? 4 = some node ∧
      (solve TypeTable.standard.resolver 256 ⟨"View"⟩ node 0 ⟨source.types, dest⟩).value.1 = .ok a ∧
      node.eval (Env.empty.set "x" (.int 29)) = .ok (.int 9) ∧
      a.eval (Env.empty.set "v" (.int 9)) = .ok (.int 33) ∧
      node.eval ((Env.empty.set "x" (.int 29)).set "x" (.int 33)) = .ok (.int 9) := by
  obtain ⟨source, node, hsource, hnode, hok, hvalue, hpath, hR, hcourse⟩ :
      ∃ source node,
        source = Model.build [.identifier "x" "int", .literal "100" "int", .binary 1 .div 0,
          .literal "3" "int", .binary 2 .mul 3] ∧ source.node? 4 = some node ∧
        (solve TypeTable.standard.resolver 256 ⟨"View"⟩ node 0
          ⟨source.types, Model.build [.identifier "v" "int"]⟩).value.1.isOk = true ∧
        node.eval (Env.empty.set "x" (.int 29)) = .ok (.int 9) ∧ node.spineLeaf.path? = some "x" ∧
        Delimits TypeTable.standard.resolver source ∧
        Course TypeTable.standard.resolver source.types node
          [.binary .mul .left (.int 3), .binary .div .right (.int 100)] "x" :=
    ⟨_, _, rfl, rfl, by decide +kernel, rfl, rfl, by decide +kernel,
      .binary _ .mul rfl rfl (.binary _ .div rfl rfl (.leaf rfl))⟩
  have hreachable : source.Reachable := hsource ▸ Model.reachable_build _
  have hdelimited : source.Delimited := hsource ▸ Model.delimited_build (by decide)
  have hdest := Model.reachable_build [.identifier "v" "int"]
  have hdestDelimited : (Model.build [.identifier "v" "int"]).Delimited :=
    Model.delimited_build (by decide)
  obtain ⟨a, ha, hw⟩ := exists_ok hok fun a ha => solve_eval hreachable.sound hdelimited hR
    hdest.sound hdestDelimited (hreachable.sound.holds hnode) holds_variable ha hcourse (.int 9)
  refine ⟨source, _, node, a, hsource, rfl, hnode, ha, hvalue, hw, ?_⟩
  refine ((solve_writes_back hreachable hdest hdelimited hdestDelimited hR hnode holds_variable ha
    hpath hvalue hw).2 _ hcourse).2.2 29 _ rfl rfl ?_
  exact ⟨⟨3, rfl, by decide⟩, by decide, trivial⟩

/-- Below a quotient a product is lost: the value of `(x * 3) / 2` where `x` is 1 is written back as
0, and then the value is 0. -/
theorem solve_loses_product :
    ∃ source dest node a,
      source = Model.build [.identifier "x" "int", .literal "3" "int", .binary 0 .mul 1,
        .literal "2" "int", .binary 2 .div 3] ∧
      dest = Model.build [.identifier "v" "int"] ∧ source.node? 4 = some node ∧
      (solve TypeTable.standard.resolver 256 ⟨"View"⟩ node 0 ⟨source.types, dest⟩).value.1 = .ok a ∧
      node.eval (Env.empty.set "x" (.int 1)) = .ok (.int 1) ∧
      a.eval (Env.empty.set "v" (.int 1)) = .ok (.int 0) ∧
      node.eval ((Env.empty.set "x" (.int 1)).set "x" (.int 0)) = .ok (.int 0) := by
  obtain ⟨source, node, hsource, hnode, hok, hvalue, hvalue', hR, hcourse⟩ :
      ∃ source node,
        source = Model.build [.identifier "x" "int", .literal "3" "int", .binary 0 .mul 1,
          .literal "2" "int", .binary 2 .div 3] ∧ source.node? 4 = some node ∧
        (solve TypeTable.standard.resolver 256 ⟨"View"⟩ node 0
          ⟨source.types, Model.build [.identifier "v" "int"]⟩).value.1.isOk = true ∧
        node.eval (Env.empty.set "x" (.int 1)) = .ok (.int 1) ∧
        node.eval ((Env.empty.set "x" (.int 1)).set "x" (.int 0)) = .ok (.int 0) ∧
        Delimits TypeTable.standard.resolver source ∧
        Course TypeTable.standard.resolver source.types node
          [.binary .div .left (.int 2), .binary .mul .left (.int 3)] "x" :=
    ⟨_, _, rfl, rfl, by decide +kernel, rfl, rfl, by decide +kernel,
      .binary _ .div rfl rfl (.binary _ .mul rfl rfl (.leaf rfl))⟩
  have hreachable : source.Reachable := hsource ▸ Model.reachable_build _
  obtain ⟨a, ha, hw⟩ := exists_ok hok fun a ha => solve_eval hreachable.sound
    (hsource ▸ Model.delimited_build (by decide)) hR (Model.reachable_build _).sound
    (Model.delimited_build (by decide)) (hreachable.sound.holds hnode) holds_variable ha hcourse
    (.int 1)
  exact ⟨source, _, node, a, hsource, rfl, hnode, ha, hvalue, hw, hvalue'⟩

end Inverse

end DataBinding
