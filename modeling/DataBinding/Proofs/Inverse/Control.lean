import DataBinding.Proofs.Inverse.Trail

/-!
# Proofs — Inversion — the written leaf controls the expression

Solving writes to one variable or property.  What it leaves behind on the way there cannot change
(`Opens.eq_or_constant`), so nothing else shows in the value of the expression.

The type that a cast is undone with is named by the resolver, and that name may hold the character
that ends it in a key.  So the destination need not stay delimited while an equation is solved into
it.  Yet the parts of the assignments in it are still those of delimited models, and their keys tell
the target of an assignment, and its class if that has a delimited name (`Layer.Legible`).  An
assignment in a class with another name can be mistaken for one that was there before.  On the way no
assignment to the leaf is stored (`Layer.Spares`), so such a one was there from the beginning.

* `Trail.identifier_partOf`: the variables of the expression are those of the leaf.
* `Trail.eval_congr`: the value of the expression depends on the leaf only.
* `assign_legible`: the assignment at the end of the way, whatever the types on it are called.
* `solve_leaf_controls`: the written leaf controls the expression.
* `solve_leaf_mistakes_class`: the class of the assignment need not be the one asked for.
-/

namespace DataBinding

namespace Inverse

variable {R : Resolver} {s : Model} {node leaf : Node} {d : Descent} {ds : List Descent}
  {types : TypeCache}

/-! ### What can change -/

/-- A step goes on with the only part that can change. -/
theorem Opens.eq_or_constant {part : Node} (h : Opens R types node d) (hpart : d.part? = some part) :
    ∀ c ∈ node.children, c = part ∨ c.label.dynamic = false := by
  intro c hc
  cases h with
  | identifier | property => cases hpart
  | unary | cast | group =>
      cases hpart
      exact .inl (List.mem_singleton.mp hc)
  | @binary _ left right _ _ side _ _ _ hside =>
      cases hpart
      have hconst := constant_of_side hside
      cases side with
      | left =>
          rcases List.mem_pair.mp hc with rfl | rfl
          · exact .inl rfl
          · exact .inr hconst
      | right =>
          rcases List.mem_pair.mp hc with rfl | rfl
          · exact .inr hconst
          · exact .inl rfl

/-- Only where a step arrives it is at a variable or property. -/
theorem Opens.isAssignable_iff (h : Opens R types node d) :
    node.isAssignable = true ↔ d.part? = none := by
  cases h <;> simp [Expr.isAssignable, Expr.layer, Layer.isAssignable, Descent.part?]

theorem Trail.isAssignable (h : Trail R types node ds leaf) : leaf.isAssignable = true := by
  induction h with
  | arrive h => exact h.isAssignable_iff.mpr rfl
  | down _ _ _ ih => exact ih

theorem Trail.partOf (h : Trail R types node ds leaf) : leaf.PartOf node := by
  induction h with
  | arrive => exact .self
  | down h hpart _ ih => exact .child (h.part_mem hpart) ih

theorem Trail.leaf_dynamic (h : Trail R types node ds leaf) (hs : s.Sound) (hn : s.Holds node) :
    leaf.label.dynamic = true := by
  induction h with
  | arrive h =>
      cases h with
      | identifier => exact hs.dynamic hn
      | property _ _ hdyn => exact hs.dynamic_of_child hn List.mem_cons_self hdyn
  | down h hpart _ ih => exact ih (hs.child hn (h.part_mem hpart))

/-- The constants of the steps are nodes of the model that cannot change. -/
theorem Trail.constant (h : Trail R types node ds leaf) (hs : s.Sound) (hn : s.Holds node) :
    ∀ r constant part, .rearrange r constant part ∈ ds →
      s.Holds constant ∧ constant.label.dynamic = false := by
  induction h with
  | arrive => exact fun _ _ _ hmem => absurd hmem List.not_mem_nil
  | down h hpart _ ih =>
      intro r constant part hmem
      rcases List.mem_cons.mp hmem with rfl | hmem
      · cases h with
        | @binary _ left right _ _ side _ _ _ hside =>
            exact ⟨hs.child hn (split_mem side left right).2, constant_of_side hside⟩
      · exact ih (hs.child hn (h.part_mem hpart)) r constant part hmem

/-- A variable of the expression is one of the leaf, as what is left behind has none. -/
theorem Trail.identifier_partOf {l : NodeLabel} {name ty : String} (h : Trail R types node ds leaf)
    (hs : s.Sound) (hn : s.Holds node) (hpartOf : (Expr.identifier l name ty).PartOf node) :
    (Expr.identifier l name ty).PartOf leaf := by
  induction h with
  | arrive => exact hpartOf
  | down h hpart _ ih =>
      cases hpartOf with
      | self =>
          rw [h.isAssignable_iff.mp rfl] at hpart
          cases hpart
      | child hc hpartOf =>
          have hheld := hs.child hn hc
          rcases h.eq_or_constant hpart _ hc with rfl | hconst
          · exact ih hheld hpartOf
          · rw [(hs.dynamic_iff hheld).mpr ⟨l, name, ty, hpartOf⟩] at hconst
            cases hconst

/-- **The value of the expression depends on the leaf only.** -/
theorem Trail.eval_congr {env env' : Env} (h : Trail R types node ds leaf) (hs : s.Sound)
    (hn : s.Holds node) (hleaf : leaf.eval env = leaf.eval env') :
    node.eval env = node.eval env' := by
  induction h with
  | arrive => exact hleaf
  | @down node part leaf d ds h hpart _ ih =>
      have hinner : node.isAssignable = false := by
        rw [← Bool.not_eq_true, h.isAssignable_iff, hpart]
        exact Option.some_ne_none part
      refine Expr.eval_congr_children hinner fun c hc => ?_
      have hheld := hs.child hn hc
      rcases h.eq_or_constant hpart c hc with rfl | hconst
      · exact ih hheld hleaf
      · exact (hs.eval_constant hheld hconst).2 env env'

end Inverse

/-! ### Keys with names that are not delimited -/

namespace Key

theorem join_closed (tag : String) (parts : List String) :
    ∃ k, (join tag parts).toList = k ++ [')'] :=
  ⟨tag.toList ++ '(' :: ['~'].intercalate (parts.map String.toList), by simp [toList_join]⟩

end Key

namespace Layer

theorem children_eq_nil_iff {α : Type} (layer : Layer α) :
    layer.children = [] ↔ layer.tag = "lit" ∨ layer.tag = "id" := by
  cases layer <;> simp [children, tag]

/-- The key of a node with children ends with a parenthesis. -/
theorem key_closed {layer : Layer String} (h : layer.children ≠ []) :
    ∃ k, layer.key.toList = k ++ [')'] := by
  cases layer with
  | literal | identifier => exact absurd rfl h
  | _ => exact Key.join_closed _ _

/-- Over the given keys, an assignment has the parts and the class of one in a delimited model, and a
literal has a delimited type. -/
def Legible : Layer String → Prop
  | .literal _ ty => ':' ∉ ty.toList
  | .assign target value context =>
    (∃ e : Expr Unit, e.Delimited ∧ e.key = target) ∧ (∃ e : Expr Unit, e.Delimited ∧ e.key = value) ∧
      ')' ∉ context.className.toList
  | .identifier _ _ | .property _ _ | .binary _ _ _ | .unary _ _ | .group _ | .cast _ _
  | .conditional _ _ _ => True

/-- Over the given keys, an assignment is to another one than `key`. -/
def Spares (key : String) : Layer String → Prop
  | .assign target _ _ => target ≠ key
  | .literal _ _ | .identifier _ _ | .property _ _ | .binary _ _ _ | .unary _ _ | .group _
  | .cast _ _ | .conditional _ _ _ => True

end Layer

namespace Model

variable {m : Model}

theorem Sound.exists_delimited (hm : m.Sound) (hd : m.Delimited) {n : Node} (hn : m.Holds n) :
    ∃ e : Expr Unit, e.Delimited ∧ e.key = n.label.key := by
  have hnd : n.Delimited := hm.every hd hn
  exact ⟨n.bare, hnd.bare, by rw [Expr.key_bare, hm.label_key hn]⟩

theorem Sound.legible (hm : m.Sound) (hd : m.Delimited) : m.All Layer.Legible := by
  intro n hn
  cases n with
  | literal => exact hd _ hn
  | assign l target value context =>
      exact ⟨hm.exists_delimited hd (hm.child hn List.mem_cons_self),
        hm.exists_delimited hd (hm.child hn (List.mem_cons_of_mem _ List.mem_cons_self)), hd _ hn⟩
  | _ => trivial

theorem Sound.spares (hm : m.Sound) {n leaf : Node} (hn : m.Holds n) (hleaf : m.Holds leaf)
    (h : leaf ∉ n.children) : (n.layer.map (·.label.key)).Spares leaf.label.key := by
  cases n with
  | assign l target value context =>
      intro hkey
      obtain rfl := hm.eq_of_key (hm.child hn List.mem_cons_self) hleaf hkey
      exact h List.mem_cons_self
  | _ => trivial

/-- No assignment in a node is to that node. -/
theorem Sound.spares_part (hm : m.Sound) {n : Node} (hn : m.Holds n) :
    ∀ e : Node, e.PartOf n → (e.layer.map (·.label.key)).Spares n.label.key := by
  intro e he
  have hheld := hm.holds_part hn he
  exact hm.spares hheld hn fun hmem =>
    Nat.lt_irrefl _ (Nat.lt_of_lt_of_le (hm.child_lt hheld hmem) (hm.part_le hn he))

/-- No assignment in what cannot change is to what can. -/
theorem Sound.spares_constant (hm : m.Sound) {n leaf : Node} (hn : m.Holds n)
    (hconst : n.label.dynamic = false) (hleaf : m.Holds leaf) (hdyn : leaf.label.dynamic = true) :
    ∀ e : Node, e.PartOf n → (e.layer.map (·.label.key)).Spares leaf.label.key := by
  intro e he
  have hheld := hm.holds_part hn he
  refine hm.spares hheld hleaf fun hmem => ?_
  rw [hm.constant_child hheld hmem (hm.constant_part hn hconst he)] at hdyn
  cases hdyn

/-- The class behind the key of a value is told, though names in the value may not be delimited: a
leaf has a delimited name, and every other key ends with a parenthesis. -/
theorem Sound.class_eq_of_key (hm : m.Sound) (hl : m.All Layer.Legible) {v : Node} (hv : m.Holds v)
    {e : Expr Unit} (he : e.Delimited) {r s : List Char} (hr : ')' ∉ r) (hs : ')' ∉ s)
    (h : v.label.key.toList ++ '~' :: r = e.key.toList ++ '~' :: s) : r = s := by
  by_cases hleaf : v.children = []
  · have hvd : v.Delimited := by
      cases v with
      | literal => exact hl _ hv
      | identifier => trivial
      | _ => cases hleaf
    rw [hm.label_key hv] at h
    exact (List.cons.inj (Expr.key_append_inj hvd he h).2).2
  · rw [hm.key hv, e.key_eq] at h
    have htag := Layer.tag_eq_of_key_append h
    have hv' : (v.layer.map (·.label.key)).children ≠ [] := by
      rw [Layer.children_map]
      exact List.map_eq_nil_iff.not.mpr hleaf
    have he' : (e.layer.map Expr.key).children ≠ [] := by
      rwa [ne_eq, Layer.children_eq_nil_iff, ← htag, ← Layer.children_eq_nil_iff]
    obtain ⟨k, hk⟩ := Layer.key_closed hv'
    obtain ⟨k', hk'⟩ := Layer.key_closed he'
    rw [hk, hk', List.append_assoc, List.append_assoc] at h
    have hnot {t : List Char} (ht : ')' ∉ t) : ')' ∉ '~' :: t := by simpa using ht
    exact (List.cons.inj (Key.append_last_inj (hnot hr) (hnot hs) h).2).2

end Model

namespace Inverse

variable {R : Resolver} {limit : Nat} {context : Context} {s : Model} {node leaf v a : Node}
  {w : Workspace} {ds : List Descent} {types : TypeCache}

/-- What is copied on the way holds no assignment to the leaf. -/
theorem Trail.spares_constants (h : Trail R types node ds leaf) (hs : s.Sound) (hn : s.Holds node) :
    ∀ r constant part, .rearrange r constant part ∈ ds →
      ∀ e : Node, e.PartOf constant → (e.layer.map (·.label.key)).Spares leaf.label.key := by
  intro r constant part hmem
  obtain ⟨hheld, hconst⟩ := h.constant hs hn r constant part hmem
  exact hs.spares_constant hheld hconst (h.holds hs hn) (h.leaf_dynamic hs hn)

/-- The assignment at the end of the way writes to the node, whatever the types on the way are called.
It is in the class that was asked for, unless it was there before and that class has a name that is not
delimited. -/
theorem assign_legible (hs : s.Sound) (hsd : s.Delimited) (hn : s.Holds node) (hm : w.dest.Sound)
    (hl : w.dest.All Layer.Legible) (hv : w.dest.Holds v)
    (h : (assign node v.label.id context w).value.1 = .ok a) :
    (assign node v.label.id context w).value.2.dest.Holds a ∧
      ∃ l target value c, a = .assign l target value c ∧ target.label.key = node.label.key ∧
        (')' ∉ context.className.toList → c = context) ∧ (c ≠ context → w.dest.Holds a) := by
  obtain ⟨target, m', hgrows, -, htargetKey, hheld, hcases⟩ :=
    assign_ok_cases (P := fun layer => layer.Legible ∧ layer.Spares node.label.key) hs hn
      (fun e he => ⟨(hs.legible hsd).part hs hn e he, hs.spares_part hn e he⟩) hm hv h
  refine ⟨hheld, ?_⟩
  rcases hcases with rfl | ⟨ha, hkey⟩
  · exact ⟨_, target, v, context, rfl, htargetKey, fun _ => rfl, fun hne => absurd rfl hne⟩
  · -- an assignment with the key of the request was there
    have hm' := hgrows.sound hm
    have hl' : m'.All Layer.Legible := fun n hn => (hgrows.holds_or hn).elim (hl n) And.left
    rw [hm'.key ha, Model.requestKey] at hkey
    have happ : (a.layer.map (·.label.key)).key.toList ++ [] =
        ((Layer.assign target v context).map (·.label.key)).key.toList ++ [] := by
      rw [hkey]
    have htag := Layer.tag_eq_of_key_append happ
    cases a with
    | assign l target' value c =>
        obtain ⟨⟨t, htd, ht⟩, ⟨e, hed, he⟩, hclass⟩ := hl' _ ha
        obtain ⟨t', htd', ht'⟩ := hs.exists_delimited hsd hn
        have hparts : t.key.toList ++ '~' :: (e.key.toList ++ '~' :: (c.className.toList ++ [')'])) =
            t'.key.toList ++ '~' :: (v.label.key.toList ++
              '~' :: (context.className.toList ++ [')'])) := by
          rw [ht, he, ht', ← htargetKey]
          simpa [Expr.layer, Layer.map, Layer.key, Layer.tag, Key.toList_join] using happ
        obtain ⟨htarget, hrest⟩ := Expr.key_append_inj htd htd' hparts
        have hwritten : target'.label.key = node.label.key :=
          ht.symm.trans ((Expr.key_eq_of_bare htarget).trans ht')
        refine ⟨l, target', value, c, rfl, hwritten, fun hcontext => ?_, fun _ => ?_⟩
        · have hrest' : (v.label.key.toList ++ '~' :: context.className.toList) ++ [')'] =
              (e.key.toList ++ '~' :: c.className.toList) ++ [')'] := by
            simpa using (List.cons.inj hrest).2.symm
          have hclasses := hm'.class_eq_of_key hl' (hgrows.holds hv) hed hcontext hclass
            (List.append_cancel_right hrest')
          exact congrArg Context.mk (String.toList_injective hclasses.symm)
        · -- copying the node stores no assignment to it
          exact (hgrows.holds_or ha).resolve_right fun hnew => hnew.2 hwritten
    | _ => exact absurd htag (by simp [Expr.layer, Layer.map, Layer.tag])

/-! ### The leaf controls the expression -/

/-- **The written leaf controls the expression.**  Let a node of one model be solved for a value of
another, the names in both being delimited, whatever the resolver.  The result is an assignment of
the destination, whose target has the key of a variable or property in the node; every variable of
the node is in that leaf, and where environments agree on its path, the node has the same value.  The
class of the assignment is the one asked for if its name is delimited or the names of the found types
are; where it is another, the assignment was in the destination before. -/
theorem solve_leaf_controls {source dest : Model} (hsource : source.Reachable)
    (hdest : dest.Reachable) (hsd : source.Delimited) (hdd : dest.Delimited) {i value : NodeId}
    (hnode : source.node? i = some node) (hvalue : value < dest.size)
    (hsolve : (solve R limit context node value ⟨source.types, dest⟩).value.1 = .ok a) :
    (solve R limit context node value ⟨source.types, dest⟩).value.2.dest.node? a.label.id = some a ∧
      ∃ leaf : Node, ∃ l target v c, a = .assign l target v c ∧
        (')' ∉ context.className.toList ∨ Delimits R source → c = context) ∧
        (c ≠ context → dest.node? a.label.id = some a) ∧
        target.label.key = leaf.label.key ∧ leaf.isAssignable = true ∧ leaf.PartOf node ∧
        (∀ l name ty, (Expr.identifier l name ty).PartOf node →
          (Expr.identifier l name ty).PartOf leaf) ∧
        ∀ env env' : Env, (∀ p, leaf.path? = some p → env p = env' p) →
          node.eval env = node.eval env' := by
  have hs := hsource.sound
  have hn := hs.holds hnode
  have hm : (Workspace.mk source.types dest).dest.Sound := hdest.sound
  obtain ⟨v, hv⟩ := Model.exists_node? hvalue
  obtain rfl := hm.place hv
  have hbare := solve_bare hs hsd hn hm hdd hv hsolve
  obtain ⟨ds, leaf, v', w', htrail, hm', hv', -, hgrows, heq⟩ :=
    solveAt_trail hs hn hm hv .refl hsolve
  have hsourced : ∀ d ∈ ds, d.Sourced source Layer.Legible :=
    htrail.sourced hs hn (fun _ _ => trivial) (fun _ _ _ => trivial) (fun _ _ _ _ => trivial)
  have hl' := (hgrows _ hsourced fun _ _ _ hmem =>
    (hs.legible hsd).part hs (hsourced _ hmem).1).all (hm.legible hdd)
  have hspares : dest.Extends (Layer.Spares leaf.label.key) w'.dest :=
    hgrows _ (htrail.sourced hs hn (fun _ _ => trivial) (fun _ _ _ => trivial) fun _ _ _ _ => trivial)
      (htrail.spares_constants hs hn)
  rw [solve, heq] at hsolve ⊢
  obtain ⟨hheld, l, target, val, c, rfl, htarget, hclass, hold⟩ :=
    assign_legible hs hsd (htrail.holds hs hn) hm' hl' hv' hsolve
  refine ⟨hheld, leaf, l, target, val, c, rfl, ?_, fun hne => ?_, htarget, htrail.isAssignable,
    htrail.partOf, fun l name ty hpart => htrail.identifier_partOf hs hn hpart,
    fun env env' hagree => ?_⟩
  · rintro (hcontext | hR)
    · exact hclass hcontext
    · obtain ⟨ds', htrail', hbare⟩ := hbare
      exact (Expr.assign.inj (hbare (htrail'.cast_delimited hs hn hR))).2.2.2
  · exact (hspares.holds_or (hold hne)).resolve_right fun hnew => hnew htarget
  · apply htrail.eval_congr hs hn
    rw [Expr.eval_of_isAssignable htrail.isAssignable, Expr.eval_of_isAssignable htrail.isAssignable]
    exact Env.read_congr hagree

/-- Solving `(3 * 2) - (int) (x) = v`, where the type of `x` has a name that is not delimited. -/
theorem solve_leaf_controls_undelimited_type :
    ∃ source dest node,
      source = Model.build [.identifier "x" "a~b", .cast "int" 0, .literal "3" "int",
        .literal "2" "int", .binary 2 .mul 3, .binary 4 .sub 1] ∧
      dest = Model.build [.identifier "v" "int"] ∧ source.node? 5 = some node ∧
      ∃ a, (solve (TypeTable.standard.registerClass "a~b" "Object").resolver 256 ⟨"View"⟩ node 0
          ⟨source.types, dest⟩).value.1 = .ok a ∧
        ∃ leaf : Node, ∃ l target v, a = .assign l target v ⟨"View"⟩ ∧
          target.label.key = leaf.label.key ∧ leaf.isAssignable = true ∧ leaf.PartOf node ∧
          ∀ env env' : Env, (∀ p, leaf.path? = some p → env p = env' p) →
            node.eval env = node.eval env' := by
  refine ⟨_, _, _, rfl, rfl, rfl, exists_ok (by decide +kernel) fun a ha => ?_⟩
  obtain ⟨-, leaf, l, target, v, c, rfl, hclass, -, htarget, hleaf, hpart, -, hcontrols⟩ :=
    solve_leaf_controls (Model.reachable_build _) (Model.reachable_build _)
      (Model.delimited_build (by decide)) (Model.delimited_build (by decide)) (i := 5) rfl
      (by decide +kernel) ha
  obtain rfl := hclass (.inl (by decide))
  exact ⟨leaf, l, target, v, rfl, htarget, hleaf, hpart, hcontrols⟩

/-- Solving `(int) (x) = v` in the class `foo)~View`, where `x` has the type `a~id:13:x` and an
assignment of the class `View` stands in the destination.  The result is that assignment: both have the
key `assign(id:1:x~cast(a~id:13:x~id:1:v)~foo)~View)`. -/
theorem solve_leaf_mistakes_class :
    ∃ source dest node l target v,
      source = Model.build [.identifier "x" "a~id:13:x", .cast "int" 0] ∧
      dest = Model.build [.identifier "v" "int", .identifier "x" "int",
        .identifier "x~id:1:v)~foo" "int", .cast "a" 2, .assign 1 3 ⟨"View"⟩] ∧
      source.Delimited ∧ dest.Delimited ∧ source.node? 1 = some node ∧
      dest.node? 4 = some (.assign l target v ⟨"View"⟩) ∧
      (solve (TypeTable.standard.registerClass "a~id:13:x" "Object").resolver 256 ⟨"foo)~View"⟩ node 0
        ⟨source.types, dest⟩).value.1 = .ok (.assign l target v ⟨"View"⟩) := by
  refine ⟨_, _, _, _, _, _, rfl, rfl, Model.delimited_build (by decide),
    Model.delimited_build (by decide), rfl, rfl, ?_⟩
  decide +kernel

end Inverse

end DataBinding
