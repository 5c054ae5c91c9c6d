import DataBinding.Compiler.Basic
import DataBinding.Proofs.Inverse.Trail
import DataBinding.Proofs.Model.Fits

/-!
# Proofs — Compiler — the value and the variables of the target

The value that is to be written is declared first in the model in which the assignment is worked out,
with the type of the node, and what is written to is copied there after it.  A variable is found by
its name alone.  So a variable of the target that has the name of the value is the value: its own
declaration is lost.

* `plainType_redeclare`: a copy has the type of the original with that name redeclared.
* `compileInverse_target_type`: the type of the target, and when it is that of the leaf.
* `compileInverse_captures`: the value can take the place of the variable that is written.
-/

namespace DataBinding

variable {ι : Type}

/-! ### Redeclaring a name -/

namespace Expr

/-- The expression with the type that variables of the name are declared with replaced. -/
def redeclare (name ty : String) : Expr ι → Expr ι
  | literal l text t => literal l text t
  | identifier l x declared => identifier l x (if x = name then ty else declared)
  | property l target p => property l (target.redeclare name ty) p
  | binary l left op right => binary l (left.redeclare name ty) op (right.redeclare name ty)
  | unary l op operand => unary l op (operand.redeclare name ty)
  | group l inner => group l (inner.redeclare name ty)
  | cast l t operand => cast l t (operand.redeclare name ty)
  | conditional l condition positive negative =>
    conditional l (condition.redeclare name ty) (positive.redeclare name ty)
      (negative.redeclare name ty)
  | assign l target value context =>
    assign l (target.redeclare name ty) (value.redeclare name ty) context

/-- What an assignment writes to. -/
def target? : Expr ι → Option (Expr ι)
  | assign _ target _ _ => some target
  | _ => none

/-- Nothing is replaced where variables of the name have the type. -/
theorem redeclare_eq_self {name ty : String} {e : Expr ι}
    (h : ∀ l declared, (identifier l name declared).PartOf e → declared = ty) :
    e.redeclare name ty = e := by
  induction e using children_induction with
  | step e ih =>
      have part {a : Expr ι} (ha : a ∈ e.children) : a.redeclare name ty = a :=
        ih a ha fun l declared hp => h l declared (.child ha hp)
      cases e with
      | literal => rfl
      | identifier l x declared =>
          rw [redeclare]
          split
          · rename_i hx
            subst hx
            rw [h l declared .self]
          · rfl
      | property l a _ | unary l _ a | group l a | cast l _ a =>
          rw [redeclare, part (List.mem_singleton_self a)]
      | binary l a _ b | assign l a b _ =>
          rw [redeclare, part List.mem_cons_self, part (List.mem_cons_of_mem _ List.mem_cons_self)]
      | conditional l a b c =>
          rw [redeclare, part List.mem_cons_self, part (List.mem_cons_of_mem _ List.mem_cons_self),
            part (List.mem_cons_of_mem _ (List.mem_cons_of_mem _ List.mem_cons_self))]

end Expr

namespace Model

variable {R : Resolver} {source m m' : Model} {name ty : String} {target leaf : Node}

/-- A name is declared once. -/
theorem Sound.declared_eq (hm : m.Sound) {l l' : NodeLabel} {x declared declared' : String}
    (h : m.Holds (.identifier l x declared)) (h' : m.Holds (.identifier l' x declared')) :
    declared = declared' := by
  have hkey : l.key = l'.key := (hm.label_key h).trans (hm.label_key h').symm
  exact (Expr.identifier.inj (hm.eq_of_key h h' hkey)).2.2

/-- A variable of another name is declared as in the source. -/
def DeclaredAs (source : Model) (name : String) : Layer String → Prop
  | .identifier x declared => x ≠ name → ∃ l, source.Holds (.identifier l x declared)
  | _ => True

theorem all_declaredAs (source : Model) (name : String) : source.All (DeclaredAs source name) := by
  intro n hn
  cases n with
  | identifier l x declared => exact fun _ => ⟨l, hn⟩
  | _ => trivial

theorem declaredAs_of_children {layer : Layer String} (h : layer.children ≠ []) :
    DeclaredAs source name layer := by
  cases layer with
  | identifier => exact absurd rfl h
  | _ => trivial

/-- The model declares the name with the type, and every other name as the source does. -/
structure Redeclares (source : Model) (name ty : String) (m : Model) : Prop where
  sound : m.Sound
  own : ∃ l, m.Holds (.identifier l name ty)
  others : m.All (DeclaredAs source name)

theorem Redeclares.grow (h : Redeclares source name ty m)
    (hg : m.Extends (DeclaredAs source name) m') : Redeclares source name ty m' where
  sound := hg.sound h.sound
  own := h.own.imp fun _ hl => hg.holds hl
  others := hg.all h.others

theorem Redeclares.declared_eq (h : Redeclares source name ty m) (hs : source.Sound)
    {l l' : NodeLabel} {x declared declared' : String} (hm : m.Holds (.identifier l x declared))
    (hl : source.Holds (.identifier l' x declared')) :
    declared = if x = name then ty else declared' := by
  split
  · rename_i hx
    subst hx
    obtain ⟨l₀, hown⟩ := h.own
    exact h.sound.declared_eq hm hown
  · rename_i hx
    obtain ⟨l₀, hother⟩ := h.others _ hm hx
    exact hs.declared_eq hother hl

/-- **A copy has the type of the original with the name redeclared.** -/
theorem Redeclares.plainType_eq (h : Redeclares source name ty m) (hs : source.Sound)
    (ht : m.Holds target) (hl : source.Holds leaf) (hbare : target.bare = leaf.bare) :
    R.plainType target = R.plainType (leaf.redeclare name ty) := by
  induction leaf using Expr.children_induction generalizing target with
  | step leaf ih =>
      have part {a b : Node} (ha : a ∈ target.children) (hb : b ∈ leaf.children)
          (hab : a.bare = b.bare) : R.plainType a = R.plainType (b.redeclare name ty) :=
        ih b hb (h.sound.child ht ha) (hs.child hl hb) hab
      cases leaf with
      | literal l text t =>
          cases target with
          | literal =>
              cases hbare
              rfl
          | _ => cases hbare
      | identifier l x declared =>
          cases target with
          | identifier l' x' declared' =>
              cases hbare
              rw [Expr.redeclare, Resolver.plainType, Resolver.plainType, h.declared_eq hs ht hl]
          | _ => cases hbare
      | property l b p =>
          cases target with
          | property l' a p' =>
              obtain ⟨-, hab, rfl⟩ := Expr.property.inj hbare
              rw [Expr.redeclare, Resolver.plainType, Resolver.plainType,
                part (List.mem_singleton_self a) (List.mem_singleton_self b) hab]
          | _ => cases hbare
      | binary l b op b' =>
          cases target with
          | binary l' a op' a' =>
              obtain ⟨-, hab, rfl, hab'⟩ := Expr.binary.inj hbare
              rw [Expr.redeclare, Resolver.plainType, Resolver.plainType,
                part List.mem_cons_self List.mem_cons_self hab,
                part (List.mem_cons_of_mem _ List.mem_cons_self)
                  (List.mem_cons_of_mem _ List.mem_cons_self) hab']
          | _ => cases hbare
      | unary l op b =>
          cases target with
          | unary l' op' a =>
              obtain ⟨-, rfl, hab⟩ := Expr.unary.inj hbare
              have hpart := part (List.mem_singleton_self a) (List.mem_singleton_self b) hab
              cases op' with
              | not => rfl
              | neg | bitNot => exact hpart
          | _ => cases hbare
      | group l b =>
          cases target with
          | group l' a =>
              rw [Expr.redeclare, Resolver.plainType, Resolver.plainType,
                part (List.mem_singleton_self a) (List.mem_singleton_self b) (Expr.group.inj hbare).2]
          | _ => cases hbare
      | cast l t b =>
          cases target with
          | cast l' t' a =>
              obtain ⟨-, rfl, -⟩ := Expr.cast.inj hbare
              rfl
          | _ => cases hbare
      | conditional l b b' b'' =>
          cases target with
          | conditional l' a a' a'' =>
              obtain ⟨-, -, hab', hab''⟩ := Expr.conditional.inj hbare
              rw [Expr.redeclare, Resolver.plainType, Resolver.plainType,
                part (List.mem_cons_of_mem _ List.mem_cons_self)
                  (List.mem_cons_of_mem _ List.mem_cons_self) hab',
                part (List.mem_cons_of_mem _ (List.mem_cons_of_mem _ List.mem_cons_self))
                  (List.mem_cons_of_mem _ (List.mem_cons_of_mem _ List.mem_cons_self)) hab'']
          | _ => cases hbare
      | assign l b b' context =>
          cases target with
          | assign l' a a' context' =>
              rw [Expr.redeclare, Resolver.plainType, Resolver.plainType,
                part List.mem_cons_self List.mem_cons_self (Expr.assign.inj hbare).2.1]
          | _ => cases hbare

/-- The first declaration. -/
theorem declare_first (name ty : String) :
    ∃ l m, (declare name ty {}).value = (.identifier l name ty, m) ∧
      m.Holds (.identifier l name ty) ∧
      ∀ P : Layer String → Prop, P (.identifier name ty) → ({} : Model).Extends P m := by
  have hdeclare : (declare name ty {}).value = (intern (.identifier name ty) {}).value :=
    place_value (.identifier name ty) {}
  rcases intern_cases (.identifier name ty) {} with ⟨n, hget, -⟩ | ⟨hfree, heq⟩
  · have hn : ({} : Model).Holds n := (sound_empty.entry.mp hget).1
    simp [Holds, node?] at hn
  · exact ⟨_, _, hdeclare.trans heq, holds_push.mpr (.inl rfl), fun P hP =>
      .store _ .refl hP (fun c hc => absurd hc List.not_mem_nil) hfree⟩

end Model

/-! ### Writing through a node -/

namespace Inverse

variable {context : Context} {s : Model} {node v a : Node} {w : Workspace}

/-- What is stored at the end of the way is an assignment, whatever the names are. -/
theorem assign_isAssignment (hs : s.Sound) (hn : s.Holds node) (hm : w.dest.Sound)
    (hv : w.dest.Holds v) (h : (assign node v.label.id context w).value.1 = .ok a) :
    (assign node v.label.id context w).value.2.dest.Holds a ∧
      ∃ l target value c, a = .assign l target value c := by
  obtain ⟨target, m', hgrows, -, -, hheld, hcases⟩ :=
    assign_ok_cases (P := fun _ => True) hs hn (fun _ _ => trivial) hm hv h
  refine ⟨hheld, ?_⟩
  rcases hcases with rfl | ⟨ha, hkey⟩
  · exact ⟨_, target, v, context, rfl⟩
  · -- a node with the key of the request was there, and the key tells the kind
    have htag := Layer.tag_eq_of_key_append (congrArg (·.toList ++ [])
      (((hgrows.sound hm).key ha).symm.trans hkey))
    cases a with
    | assign l target' value c => exact ⟨l, target', value, c, rfl⟩
    | _ => exact absurd htag (by simp [Expr.layer, Layer.map, Layer.tag])

/-- Solving declares no name anew: the destination gets the variables of the source and the result. -/
theorem solve_redeclares {R : Resolver} {limit : Nat} {name ty : String} (hs : s.Sound)
    (hn : s.Holds node) (hm : s.Redeclares name ty w.dest) (hmemo : w.dest.Memoized R)
    (hv : w.dest.Holds v) {w' : Workspace}
    (hsolve : (solve R limit context node v.label.id w).value = (.ok a, w')) :
    s.Redeclares name ty w'.dest ∧ w'.dest.Memoized R ∧ s.Holds node.spineLeaf ∧ w'.dest.Holds a ∧
      ∃ l target value c, a = .assign l target value c := by
  have hgrows : w.dest.Extends (s.DeclaredAs name)
      (solve R limit context node v.label.id w).value.2.dest :=
    solveAt_extends hs (Model.all_declaredAs s name) (fun _ => Model.declaredAs_of_children) hn
      hm.sound v.label.id
  rw [hsolve] at hgrows
  obtain ⟨ds, leaf, v', w₁, htrail, hm', hv', -, -, heq⟩ :=
    solveAt_trail hs hn hm.sound hv .refl (congrArg Prod.fst hsolve)
  obtain rfl := htrail.leaf_eq
  have hleaf := htrail.holds hs hn
  have hassign := heq.symm.trans hsolve
  obtain ⟨ha, hkind⟩ := assign_isAssignment hs hleaf hm' hv' (congrArg Prod.fst hassign)
  rw [hassign] at ha
  exact ⟨hm.grow hgrows, hgrows.memoized hmemo, hleaf, ha, hkind⟩

/-- Answers do not depend on what has been asked before, so their names do not. -/
theorem Delimits.of_same {R : Resolver} {types : TypeCache} (h : Delimits R s) (hs : s.Sound)
    (hsame : SameTypes R s s.types types) : Delimits R { s with types } := by
  intro n hmem ty hty
  obtain ⟨i, hi⟩ := Array.getElem?_of_mem hmem
  have hn := hs.holds hi
  refine h n hmem ty ?_
  rw [(typeOf_asked hs hn s.types).answer, ← hsame n hn, ← (typeOf_asked hs hn types).answer]
  exact hty

end Inverse

namespace Compiler

variable {context : Context} {valueName : String} {node : Node} {types : TypeCache}
  {b : WriteBinding}

theorem solveIn_value (c : Compiler) (dest : Model) (value : NodeId) :
    (c.solveIn dest context node value types).value =
      let (result, w) := (Inverse.solve c.resolver c.config.maxInversionDepth context node value
        ⟨types, dest⟩).value
      (result.map (·, w.dest), w.types) := rfl

/-- What has happened where an assignment has been worked out: the value has been declared in an empty
model, with the type of the node, and the equation has been solved there. -/
theorem compileInverse_ok {c : Compiler}
    (h : (c.compileInverse context valueName node types).value.1 = .ok b) :
    ∃ ty l working a w, (c.resolver.typeOf node types).value.1 = .ok ty ∧
      working.Holds (.identifier l valueName ty.name) ∧
      (∀ P : Layer String → Prop, P (.identifier valueName ty.name) →
        ({} : Model).Extends P working) ∧
      (Inverse.solve c.resolver c.config.maxInversionDepth context node l.id
        ⟨(c.resolver.typeOf node types).value.2, working⟩).value = (.ok a, w) ∧
      (∃ roots, b.model = { w.dest with roots }) ∧ b.assignment = a.label.id := by
  obtain ⟨ty, hty, h⟩ := value_bind_ok_iff.mp h
  obtain ⟨⟨value, working⟩, hdeclare, h⟩ := value_bind_ok_iff.mp h
  obtain ⟨⟨a, dest⟩, hsolve, h⟩ := value_bind_ok_iff.mp h
  obtain ⟨l, first, hfirst, hheld, hgrows⟩ := Model.declare_first valueName ty.name
  obtain ⟨rfl, rfl⟩ := Prod.mk.inj (hfirst.symm.trans (Except.ok.inj hdeclare))
  have hstate : (c.solveIn first context node l.id
      (c.resolver.typeOf node types).value.2).value.1 = .ok (a, dest) := hsolve
  cases h
  refine ⟨ty, l, first, a, ?_⟩
  rw [solveIn_value] at hstate
  revert hstate
  obtain ⟨e | a', w⟩ := (Inverse.solve c.resolver c.config.maxInversionDepth context node l.id
    ⟨(c.resolver.typeOf node types).value.2, first⟩).value
  · intro hstate
    cases hstate
  · intro hstate
    cases hstate
    exact ⟨w, Inverse.nodeType_ok_iff.mp hty, hheld, hgrows, rfl, Model.markRoot_eq w.dest a.label.id,
      rfl⟩

/-- **The type of what is written.**  Let an assignment of a named value through a node be worked out,
the types of the model being asked of the same resolver only.  The result is an assignment in the new
model; where names are delimited, also those of types, its target is the leaf of the spine of the
node.  The target then has the type of that leaf with the name of the value declared as the type of
the node.  It is the type that the leaf has in its own model if no variable of the leaf has that name,
or none with another declaration. -/
theorem compileInverse_target_type (c : Compiler) {source : Model} (hsource : source.Reachable)
    (hexact : TypeCache.Exact c.resolver source source.types) {i : NodeId}
    (hnode : source.node? i = some node)
    (hcompile : (c.compileInverse context valueName node source.types).value.1 = .ok b) :
    ∃ ty target, source.typeAnswer c.resolver node = .ok ty ∧
      (b.model.node? b.assignment).bind Expr.target? = some target ∧
      (source.Delimited → Inverse.Delimits c.resolver source →
        target.bare = node.spineLeaf.bare) ∧
      (target.bare = node.spineLeaf.bare →
        b.model.typeAnswer c.resolver target =
            (c.resolver.plainType (node.spineLeaf.redeclare valueName ty.name)).mapError .type ∧
          ((∀ l declared, (Expr.identifier l valueName declared).PartOf node.spineLeaf →
              declared = ty.name) →
            b.model.typeAnswer c.resolver target =
              source.typeAnswer c.resolver node.spineLeaf)) := by
  have hs := hsource.sound
  have hn := hs.holds hnode
  have hsame := (typeOf_asked (R := c.resolver) hs hn source.types).same
  obtain ⟨ty, l₀, working, a, w, hty, hheld, hfirst, hsolve, ⟨roots, hmodel⟩, hassignment⟩ :=
    compileInverse_ok hcompile
  have hworking := hfirst (fun _ => True) trivial
  have hdeclares : source.Redeclares valueName ty.name working :=
    ⟨hworking.sound Model.sound_empty, ⟨l₀, hheld⟩,
      (hfirst _ fun hne => absurd rfl hne).all (Model.all_empty _)⟩
  obtain ⟨hdest, hmemo, hleaf, ha, l, target, v, ctx, rfl⟩ :=
    Inverse.solve_redeclares (w := ⟨_, working⟩) hs hn hdeclares
      (hworking.memoized (Model.memoized_empty c.resolver)) hheld hsolve
  have htarget := hdest.sound.child ha List.mem_cons_self
  have hanswer : b.model.typeAnswer c.resolver target = w.dest.typeAnswer c.resolver target := by
    rw [hmodel]
    rfl
  refine ⟨ty, target, congrArg (Except.mapError BindingError.type) hty, ?_, fun hsd hR => ?_,
    fun hbare => ?_⟩
  · have hplace : b.model.node? b.assignment = some (.assign l target v ctx) := by
      rw [hmodel, hassignment]
      exact ha
    rw [hplace]
    rfl
  · obtain ⟨ds, htrail, hassign⟩ := Inverse.solve_bare (w := ⟨_, working⟩) hs hsd hn hdeclares.sound
      ((hfirst _ trivial).delimited (Model.delimited_iff_all.mpr (Model.all_empty _))) hheld
      (congrArg Prod.fst hsolve)
    have hcast := Inverse.Trail.cast_delimited
      (s := { source with types := (c.resolver.typeOf node source.types).value.2 }) htrail
      (hs.congr rfl rfl) hn (hR.of_same hs hsame)
    exact (Expr.assign.inj (hassign hcast)).2.1
  · have htype : b.model.typeAnswer c.resolver target =
        (c.resolver.plainType (node.spineLeaf.redeclare valueName ty.name)).mapError .type := by
      rw [hanswer, Model.typeAnswer, hmemo.exact.nodeType_eq hdest.sound htarget,
        hdest.plainType_eq hs htarget hleaf hbare]
    refine ⟨htype, fun hdeclared => ?_⟩
    rw [htype, Expr.redeclare_eq_self hdeclared, Model.typeAnswer, hexact.nodeType_eq hs hleaf]

/-- Writing `v` through `x.age * 2` writes to the property of `x`, an `int`. -/
theorem compileInverse_target_type_apart :
    ∃ (t : TypeTable) (c : Compiler) (source : Model) (node : Node) (b : WriteBinding)
      (target : Node),
      (TypeTable.standard.registerClass "User" "Object").registerProperty "User" "age" "int" = .ok t ∧
      c = { resolver := t.resolver } ∧
      source = Model.build [.identifier "x" "User", .property 0 "age", .literal "2" "int",
        .binary 1 .mul 2] ∧
      source.node? 3 = some node ∧
      (c.compileInverse ⟨"View"⟩ "v" node source.types).value.1 = .ok b ∧
      (b.model.node? b.assignment).bind Expr.target? = some target ∧
      target.bare = node.spineLeaf.bare ∧ b.model.typeAnswer c.resolver target = .ok ⟨"int"⟩ := by
  obtain ⟨t, ht⟩ : ∃ t, (TypeTable.standard.registerClass "User" "Object").registerProperty "User"
    "age" "int" = .ok t := ⟨_, rfl⟩
  obtain ⟨c, hc⟩ : ∃ c : Compiler, c = { resolver := t.resolver } := ⟨_, rfl⟩
  obtain ⟨source, hsource⟩ : ∃ m, m = Model.build [.identifier "x" "User", .property 0 "age",
    .literal "2" "int", .binary 1 .mul 2] := ⟨_, rfl⟩
  have hrun : Model.TypingRun (· = c.resolver) {} source :=
    hsource ▸ .add (.add (.add (.add .refl _) _) _) _
  have hsd : source.Delimited := hsource ▸ Model.delimited_build (by decide)
  obtain ⟨node, hnode⟩ := Model.exists_node? (m := source) (i := 3) (by rw [hsource]; decide +kernel)
  obtain ⟨hR, hok, hint, hplain⟩ : Inverse.Delimits c.resolver source ∧
      (c.compileInverse ⟨"View"⟩ "v" node source.types).value.1.isOk = true ∧
      source.typeAnswer c.resolver node = .ok ⟨"int"⟩ ∧
      c.resolver.plainType (node.spineLeaf.redeclare "v" "int") = .ok ⟨"int"⟩ := by
    cases ht
    subst hc hsource
    cases hnode
    decide +kernel
  obtain ⟨b, hcompile, -⟩ := exists_ok (P := fun _ => True) hok fun _ _ => trivial
  obtain ⟨ty, target, hty, htarget, hstands, htype⟩ :=
    compileInverse_target_type c (hrun.reachable .empty) hrun.memoized.exact hnode hcompile
  have hbare := hstands hsd hR
  cases hint.symm.trans hty
  refine ⟨t, c, source, node, b, target, ht, hc, hsource, hnode, hcompile, htarget, hbare,
    (htype hbare).1.trans ?_⟩
  rw [hplain]
  rfl

/-- **The value can take the place of the variable that is written.**  Writing `x` through `x.name`,
where `x` is a `User`, makes the target the property of the value, a `String`, which has none. -/
theorem compileInverse_captures :
    ∃ (t : TypeTable) (c : Compiler) (source : Model) (node : Node) (b : WriteBinding)
      (target : Node),
      (TypeTable.standard.registerClass "User" "Object").registerProperty "User" "name" "String" =
        .ok t ∧
      c = { resolver := t.resolver } ∧
      source = Model.build [.identifier "x" "User", .property 0 "name"] ∧
      source.node? 1 = some node ∧
      (c.compileInverse ⟨"View"⟩ "x" node source.types).value.1 = .ok b ∧
      (b.model.node? b.assignment).bind Expr.target? = some target ∧
      target.bare = node.spineLeaf.bare ∧
      source.typeAnswer c.resolver node.spineLeaf = .ok ⟨"String"⟩ ∧
      b.model.typeAnswer c.resolver target = .error (.type (.propertyNotFound "String" "name")) := by
  obtain ⟨t, ht⟩ : ∃ t, (TypeTable.standard.registerClass "User" "Object").registerProperty "User"
    "name" "String" = .ok t := ⟨_, rfl⟩
  obtain ⟨c, hc⟩ : ∃ c : Compiler, c = { resolver := t.resolver } := ⟨_, rfl⟩
  obtain ⟨source, hsource⟩ : ∃ m, m = Model.build [.identifier "x" "User", .property 0 "name"] :=
    ⟨_, rfl⟩
  obtain ⟨node, hnode⟩ := Model.exists_node? (m := source) (i := 1) (by rw [hsource]; decide +kernel)
  obtain ⟨hleaf, hfound⟩ : source.typeAnswer c.resolver node.spineLeaf = .ok ⟨"String"⟩ ∧
      ((c.compileInverse ⟨"View"⟩ "x" node source.types).value.1.toOption.bind fun b =>
        ((b.model.node? b.assignment).bind Expr.target?).map fun target =>
          (target.bare, b.model.typeAnswer c.resolver target)) =
        some (node.spineLeaf.bare, .error (.type (.propertyNotFound "String" "name"))) := by
    cases ht
    subst hc hsource
    cases hnode
    decide +kernel
  obtain ⟨b, hb, hfound⟩ := Option.bind_eq_some_iff.mp hfound
  obtain ⟨target, htarget, hanswer⟩ := Option.map_eq_some_iff.mp hfound
  obtain ⟨hbare, htype⟩ := Prod.mk.inj hanswer
  cases hcompile : (c.compileInverse ⟨"View"⟩ "x" node source.types).value.1 with
  | error e =>
      rw [hcompile] at hb
      cases hb
  | ok b' =>
      rw [hcompile] at hb
      cases hb
      exact ⟨t, c, source, node, b, target, ht, hc, hsource, hnode, hcompile, htarget, hbare, hleaf,
        htype⟩

end Compiler

end DataBinding
