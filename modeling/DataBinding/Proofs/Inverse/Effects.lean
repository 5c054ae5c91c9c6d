import DataBinding.Proofs.Model.Gather

/-!
# Proofs — Inversion — what solving leaves behind

Solving can fail at any node of the way down, after constants have been copied to the destination and
values built there, and these stay.  What was there before is not touched, on either side, and an
assignment is only stored as the last thing.

* `solveAt_types`: in the source, cells are filled with answers.
* `solveAt_writes`: no assignment is stored on the way, and at most one at its end, the result.
* `solve_effects`: what both models are after solving, however it ends.
-/

namespace DataBinding

/-- Whether the node is an assignment. -/
def Layer.isAssignment {α : Type} : Layer α → Bool
  | assign _ _ _ => true
  | _ => false

/-- The node is no assignment. -/
abbrev Layer.ReadOnly {α : Type} (layer : Layer α) : Prop := layer.isAssignment = false

theorem Layer.isAssignment_map {α β : Type} (f : α → β) (layer : Layer α) :
    (layer.map f).isAssignment = layer.isAssignment := by
  cases layer <;> rfl

/-- No node of the expression is an assignment. -/
abbrev Expr.ReadOnly {ι : Type} (e : Expr ι) : Prop := e.Every Layer.ReadOnly

theorem Expr.ReadOnly.child {ι : Type} {e c : Expr ι} (h : e.ReadOnly) (hc : c ∈ e.children) :
    c.ReadOnly :=
  (e.every_iff.mp h).2 c hc

theorem Expr.ReadOnly.map_part {ι β : Type} {e whole : Expr ι} (h : whole.ReadOnly)
    (he : e.PartOf whole) (f : Expr ι → β) : (e.layer.map f).ReadOnly := by
  have hlayer : e.layer.outline.isAssignment = false := h.of_partOf he
  rw [Layer.outline, Layer.isAssignment_map] at hlayer
  rwa [Layer.ReadOnly, Layer.isAssignment_map]

namespace Inverse

variable {R : Resolver} {limit depth : Nat} {context : Context} {s m m' : Model} {node : Node}
  {w : Workspace} {d : Descent}

/-! ### The source -/

theorem assign_types (value : NodeId) (w : Workspace) :
    (assign node value context w).value.2.types = w.types := by
  rw [assign_value]

/-- **In the source, cells are filled with answers**, however solving ends. -/
theorem solveAt_types (hs : s.Sound) (hn : s.Holds node) (value : NodeId) :
    w.types.Grown R s (solveAt R limit context depth node value w).value.2.types := by
  have asked {node : Node} (hn : s.Holds node) (types : TypeCache) :
      types.Grown R s (gate R node types).value.2 := ((gate_asking hs hn).gathers hs).grown types
  refine solveAt_induction (Q := fun node w r => s.Holds node → w.types.Grown R s r.2.types)
    (fun node w e types htypes hn => ?_) (fun node w value hn => ?_)
    (fun node w d value e _ hn => asked hn w.types)
    (fun node w d part value r hopens hpart hrest hn => ?_) limit depth node value w hn
  · rcases htypes with rfl | rfl
    · exact .refl
    · exact asked hn w.types
  · rw [assign_types]
    exact asked hn w.types
  · exact (asked hn w.types).trans (hrest (hs.child hn (hopens.part_mem hpart)))

/-! ### The destination -/

/-- No assignment has been stored but the result, which has been stored last. -/
def Writes (m : Model) (result : Except BindingError Node) (m' : Model) : Prop :=
  m.Extends Layer.ReadOnly m' ∨
    ∃ m₀ a, m.Extends Layer.ReadOnly m₀ ∧ result = .ok a ∧ m' = m₀.push a

theorem Writes.after {m₀ : Model} {result : Except BindingError Node} (h : Writes m₀ result m')
    (hm : m.Extends Layer.ReadOnly m₀) : Writes m result m' := by
  rcases h with h | ⟨m₁, a, h, hresult, heq⟩
  · exact .inl (hm.trans h)
  · exact .inr ⟨m₁, a, hm.trans h, hresult, heq⟩

/-- Among the nodes that have been stored, the result is the only assignment. -/
theorem Writes.sublist {result : Except BindingError Node} (h : Writes m result m') :
    ((m'.nodes.toList.drop m.size).filter (·.layer.isAssignment)).Sublist result.toOption.toList := by
  have none_in {new : List Node}
      (hnew : ∀ n ∈ new, (n.layer.map (·.label.key)).isAssignment = false) :
      new.filter (·.layer.isAssignment) = [] := by
    refine List.filter_eq_nil_iff.mpr fun n hn => ?_
    rw [← Layer.isAssignment_map, hnew n hn]
    exact Bool.false_ne_true
  have hsize : m.size = m.nodes.toList.length := rfl
  rcases h with h | ⟨m₀, a, h, rfl, rfl⟩
  · obtain ⟨new, heq, hnew⟩ := h.exists_append
    rw [heq, hsize, List.drop_left, none_in hnew]
    exact List.nil_sublist _
  · obtain ⟨new, heq, hnew⟩ := h.exists_append
    rw [Model.push, Array.toList_push, heq, List.append_assoc, hsize, List.drop_left,
      List.filter_append, none_in hnew, List.nil_append]
    exact List.filter_sublist

theorem copy_readOnly (hs : s.Sound) (hn : s.Holds node) (hread : node.ReadOnly) (hm : m.Sound) :
    m.Stored Layer.ReadOnly node.label.key (node.copy m).value :=
  copy_stored_parts hs hn (fun _ he => hread.map_part he _) hm

/-- The constant of a step is a child of the node. -/
theorem Opens.constant_mem {types : TypeCache} {r : Rearrangement} {constant part : Node}
    (h : Opens R types node (.rearrange r constant part)) : constant ∈ node.children := by
  cases h with
  | @binary _ left right _ _ side =>
      cases side <;> simp [Side.split, Expr.children, Expr.layer, Layer.children]

/-- A step down stores no assignment. -/
theorem Opens.require_readOnly {types : TypeCache} (h : Opens R types node d) (hs : s.Sound)
    (hn : s.Holds node) (hread : node.ReadOnly) (hm : m.Sound) (value : NodeId) :
    m.Extends Layer.ReadOnly (d.require value m).value.2 := by
  have hsourced : d.Sourced s Layer.ReadOnly :=
    h.sourced_of hs hn (fun _ _ => rfl) (fun _ _ => rfl) fun _ _ _ => rfl
  refine require_grows_parts hs hm hsourced (fun r constant part heq _ he => ?_) value
  subst heq
  exact (hread.child h.constant_mem).map_part he _

theorem assign_writes (hs : s.Sound) (hn : s.Holds node) (hread : node.ReadOnly) (hm : w.dest.Sound)
    (value : NodeId) :
    Writes w.dest (assign node value context w).value.1 (assign node value context w).value.2.dest := by
  obtain ⟨m₁, hcopy, layer, heq⟩ : ∃ m₁, w.dest.Extends Layer.ReadOnly m₁ ∧ ∃ layer,
      (assign node value context w).value =
        ((Model.add layer m₁).value.1, { w with dest := (Model.add layer m₁).value.2 }) :=
    ⟨_, (copy_readOnly hs hn hread hm).grows, _, assign_value node value context w⟩
  rw [heq]
  rcases Model.add_cases (hcopy.sound hm) layer with hadd | ⟨request, -, -, hadd⟩ <;> rw [hadd]
  · exact .inl hcopy
  · rcases Model.intern_cases request m₁ with ⟨n, -, hintern⟩ | ⟨-, hintern⟩ <;> rw [hintern]
    · exact .inl hcopy
    · exact .inr ⟨m₁, _, hcopy, rfl, rfl⟩

/-- **No assignment is stored on the way down**, and at most one at its end. -/
theorem solveAt_writes (hs : s.Sound) (hn : s.Holds node) (hread : node.ReadOnly) (hm : w.dest.Sound)
    (value : NodeId) :
    Writes w.dest (solveAt R limit context depth node value w).value.1
      (solveAt R limit context depth node value w).value.2.dest := by
  refine solveAt_induction (Q := fun node w r =>
      s.Holds node → node.ReadOnly → w.dest.Sound → Writes w.dest r.1 r.2.dest)
    (fun _ _ _ _ _ _ _ _ => .inl .refl)
    (fun node w value hn hread hm => assign_writes (w := { w with types := _ }) hs hn hread hm value)
    (fun node w d value e hopens hn hread hm => .inl (hopens.require_readOnly hs hn hread hm value))
    (fun node w d part value r hopens hpart hrest hn hread hm => ?_) limit depth node value w hn hread
    hm
  have hmem := hopens.part_mem hpart
  have hg := hopens.require_readOnly hs hn hread hm value
  exact (hrest (hs.child hn hmem) (hread.child hmem) (hg.sound hm)).after hg

/-- **What solving leaves behind.**  Let an equation for a node of one model be solved into another,
with success or without.  The source differs in its type cells only: those that were filled are as they
were, and one that has been filled holds what its node would have been answered before.  In the
destination nodes are only appended; the earlier ones stay in their places, with their keys, flags and
parts and the types found for them, and so do the roots.  If there is no assignment in the node, then
there is none among the appended nodes, unless solving succeeds, and then at most one, the result. -/
theorem solve_effects (R : Resolver) (limit : Nat) (context : Context) {source dest : Model}
    (hsource : source.Reachable) (hdest : dest.Reachable) {i : NodeId}
    (hnode : source.node? i = some node) (value : NodeId) :
    ∃ (result : Except BindingError Node) (source' dest' : Model),
      (solve R limit context node value ⟨source.types, dest⟩).value = (result, ⟨source'.types, dest'⟩) ∧
      source' = { source with types := source'.types } ∧ source.types.Keeps source'.types ∧
      (∀ j ty, source'.cachedType? j = some ty → source.cachedType? j = some ty ∨
        ∃ n, source.node? j = some n ∧ (R.typeOf n source.types).value.1 = .ok ty) ∧
      dest.nodes.toList <+: dest'.nodes.toList ∧ dest'.roots = dest.roots ∧
      (∀ j < dest.size, dest'.node? j = dest.node? j ∧ dest'.cachedType? j = dest.cachedType? j) ∧
      (node.ReadOnly → ((dest'.nodes.toList.drop dest.size).filter (·.layer.isAssignment)).Sublist
        result.toOption.toList) := by
  have hs := hsource.sound
  have hm := hdest.sound
  have hn := hs.holds hnode
  have htypes : source.types.Grown R source
      (solve R limit context node value ⟨source.types, dest⟩).value.2.types :=
    solveAt_types (w := ⟨source.types, dest⟩) hs hn value
  have hgrows : dest.Extends (fun _ => True)
      (solve R limit context node value ⟨source.types, dest⟩).value.2.dest :=
    solveAt_grows (w := ⟨source.types, dest⟩) hs hn hm value
  refine ⟨_, { source with types := _ }, _, rfl, rfl, htypes.keeps,
    fun j ty hj => htypes.answer hs hj, hgrows.nodes_kept, hgrows.roots_eq,
    fun j hj => ⟨Model.node?_eq_of_kept hgrows.nodes_kept hj, hgrows.cachedType?_eq j⟩,
    fun hread => ?_⟩
  have hwrites : Writes dest (solve R limit context node value ⟨source.types, dest⟩).value.1
      (solve R limit context node value ⟨source.types, dest⟩).value.2.dest :=
    solveAt_writes (w := ⟨source.types, dest⟩) hs hn hread hm value
  exact hwrites.sublist

/-- `x % 2 + 3` cannot be solved for `x`, which shows only after `v - 3` has been stored. -/
theorem solve_effects_failed :
    ∃ (source source' dest dest' : Model) (node : Node) (result : Except BindingError Node),
      source = Model.build [.identifier "x" "int", .literal "2" "int", .binary 0 .rem 1,
        .literal "3" "int", .binary 2 .add 3] ∧
      dest = Model.build [.identifier "v" "int"] ∧ source.node? 4 = some node ∧
      (solve TypeTable.standard.resolver 256 ⟨"View"⟩ node 0 ⟨source.types, dest⟩).value =
        (result, ⟨source'.types, dest'⟩) ∧
      source'.nodes = source.nodes ∧ result.toOption = none ∧ dest'.size = 3 ∧ dest'.node? 0 = dest.node? 0 ∧
      (dest'.nodes.toList.drop dest.size).filter (·.layer.isAssignment) = [] := by
  obtain ⟨source, hsource⟩ : ∃ m, m = Model.build [.identifier "x" "int", .literal "2" "int",
    .binary 0 .rem 1, .literal "3" "int", .binary 2 .add 3] := ⟨_, rfl⟩
  obtain ⟨dest, hdest⟩ : ∃ m, m = Model.build [.identifier "v" "int"] := ⟨_, rfl⟩
  obtain ⟨node, hnode⟩ := Model.exists_node? (m := source) (i := 4) (by rw [hsource]; decide +kernel)
  obtain ⟨result, source', dest', heq, hsource', -, -, -, -, hkept, hwrites⟩ :=
    solve_effects TypeTable.standard.resolver 256 ⟨"View"⟩ (hsource ▸ Model.reachable_build _)
      (hdest ▸ Model.reachable_build _) hnode 0
  obtain ⟨hread, hfailed, hsize⟩ : node.ReadOnly ∧ result.toOption = none ∧ dest'.size = 3 := by
    clear hsource'
    subst hsource hdest
    cases hnode
    obtain ⟨rfl, hw⟩ := Prod.mk.inj heq
    obtain ⟨-, rfl⟩ := Workspace.mk.inj hw
    decide +kernel
  rw [hfailed] at hwrites
  exact ⟨source, source', dest, dest', node, result, hsource, hdest, hnode, heq,
    by rw [hsource'], hfailed, hsize,
    (hkept 0 (by rw [hdest]; decide +kernel)).1, List.sublist_nil.mp (hwrites hread)⟩

end Inverse

end DataBinding
