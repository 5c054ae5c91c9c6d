import DataBinding.Proofs.Model.Dynamic
import DataBinding.Proofs.Model.Reachable

/-!
# Proofs — Models — the graph of changes

The edges of change propagation are kept twice: a node has edges to those of its children that can
change, and for each node the model lists the nodes with an edge to it.  `Model.Wired` says that the
lists mirror the edges and grow in the order in which nodes are stored.

* `dependantsOf_push`: what storing a node does to the lists, also where a child occurs twice.
* `Reachable.wired`: the lists of reachable models mirror the edges.
* `Reachable.dependency_graph`: flags, edges and lists of reachable models.
-/

namespace DataBinding

/-- The edges of a node go to its children that can change. -/
theorem Node.mem_dependencies {n : Node} {e : Dependency} :
    e ∈ Node.dependencies n ↔
      ∃ c ∈ n.children, c.label.dynamic = true ∧ e = ⟨n.label.id, c.label.id⟩ := by
  simp only [Node.dependencies, List.mem_map, List.mem_filter]
  constructor
  · rintro ⟨c, ⟨hc, hdyn⟩, rfl⟩
    exact ⟨c, hc, hdyn, rfl⟩
  · rintro ⟨c, hc, hdyn, rfl⟩
    exact ⟨c, ⟨hc, hdyn⟩, rfl⟩

namespace Model

variable {s m m' : Model} {P : Layer String → Prop} {i j : NodeId}

/-! ### Entering edges -/

theorem mem_addDependant {id : NodeId} {l : List NodeId} :
    i ∈ addDependant id l ↔ i = id ∨ i ∈ l := by
  rw [addDependant]
  split
  · rename_i hid
    refine ⟨.inr, ?_⟩
    rintro (rfl | h)
    · exact hid
    · exact h
  · rw [List.mem_append, List.mem_singleton, or_comm]

/-- A dependant is entered once, however many edges it has. -/
theorem addDependant_idem (id : NodeId) (l : List NodeId) :
    addDependant id (addDependant id l) = addDependant id l :=
  if_pos (mem_addDependant.mpr (.inl rfl))

/-- The lists of dependants with the edges of one node entered. -/
theorem getElem?_enter {id : NodeId} {edges : List Dependency} (h : ∀ e ∈ edges, e.dependant = id)
    (table : Array (List NodeId)) (j : NodeId) :
    (edges.foldl (fun table edge => table.modify edge.other (addDependant edge.dependant)) table)[j]? =
      if ∃ e ∈ edges, e.other = j then (table[j]?).map (addDependant id) else table[j]? := by
  -- the list at `j` is changed by the first edge to `j`, and left alone by all others
  induction edges generalizing table with
  | nil => simp
  | cons e edges ih =>
      rw [List.foldl_cons, ih fun e' he' => h e' (List.mem_cons_of_mem _ he'),
        h e List.mem_cons_self, Array.getElem?_modify]
      by_cases hj : e.other = j
      · have hany : ∃ e' ∈ e :: edges, e'.other = j := ⟨e, List.mem_cons_self, hj⟩
        rw [if_pos hj, if_pos hany]
        split
        · rw [Option.map_map]
          exact congrArg (table[j]?).map (funext (addDependant_idem id))
        · rfl
      · rw [if_neg hj]
        simp [hj]

theorem size_enter (edges : List Dependency) (table : Array (List NodeId)) :
    (edges.foldl (fun table edge => table.modify edge.other (addDependant edge.dependant))
      table).size = table.size := by
  induction edges generalizing table with
  | nil => rfl
  | cons e edges ih => rw [List.foldl_cons, ih, Array.size_modify]

/-! ### The lists of dependants -/

/-- The node at `i` has an edge to the node at `j`. -/
def DependsOn (m : Model) (i j : NodeId) : Prop :=
  ∃ n : Node, m.node? i = some n ∧ ∃ e ∈ n.dependencies, e.other = j

/-- The lists of dependants mirror the edges of the nodes, in the order of the nodes. -/
structure Wired (m : Model) : Prop where
  size : m.dependants.size = m.size
  mem_iff : ∀ {i j}, i ∈ m.dependantsOf j ↔ m.DependsOn i j
  sorted : ∀ j, (m.dependantsOf j).Pairwise (· < ·)

theorem wired_empty : ({} : Model).Wired where
  size := rfl
  mem_iff := by simp [dependantsOf, DependsOn, node?]
  sorted := by simp [dependantsOf]

/-- A new node has its edges, and the others keep theirs. -/
theorem dependsOn_push (m : Model) (n : Node) (i j : NodeId) :
    (m.push n).DependsOn i j ↔
      if i = m.size then ∃ e ∈ n.dependencies, e.other = j else m.DependsOn i j := by
  rw [DependsOn, node?_push]
  split <;> simp [DependsOn]

/-- A new node is entered in the lists of those of its children that can change. -/
theorem dependantsOf_push (hw : m.Wired) {n : Node} (hc : ∀ c ∈ n.children, m.Holds c) (j : NodeId) :
    (m.push n).dependantsOf j =
      if ∃ e ∈ Node.dependencies n, e.other = j then addDependant n.label.id (m.dependantsOf j)
      else m.dependantsOf j := by
  have hdependant : ∀ e ∈ Node.dependencies n, e.dependant = n.label.id := by
    intro e he
    obtain ⟨c, -, -, rfl⟩ := Node.mem_dependencies.mp he
    rfl
  have hother : ∀ e ∈ Node.dependencies n, e.other < m.dependants.size := by
    intro e he
    obtain ⟨c, hmem, -, rfl⟩ := Node.mem_dependencies.mp he
    exact hw.size ▸ node?_lt (hc c hmem)
  rw [dependantsOf, dependantsOf, push, Array.getElem?_push, size_enter, getElem?_enter hdependant]
  by_cases hj : j = m.dependants.size
  · -- no child stands at the place of the new node
    subst hj
    have hno : ¬ ∃ e ∈ Node.dependencies n, e.other = m.dependants.size := by
      rintro ⟨e, he, heq⟩
      exact Nat.ne_of_lt (hother e he) heq
    rw [if_pos rfl, if_neg hno, Array.getElem?_size]
    rfl
  · rw [if_neg hj]
    split
    · rename_i hedge
      obtain ⟨e, he, rfl⟩ := hedge
      rw [Array.getElem?_eq_getElem (hother e he)]
      rfl
    · rfl

/-- The members of a list of dependants are places of nodes. -/
theorem Wired.lt_size (hw : m.Wired) (h : i ∈ m.dependantsOf j) : i < m.size := by
  obtain ⟨n, hn, -⟩ := hw.mem_iff.mp h
  exact node?_lt hn

theorem Wired.push (hw : m.Wired) {layer : Layer Node} (hc : ∀ c ∈ layer.children, m.Holds c) :
    (m.push (m.freshNode layer)).Wired := by
  have hc' : ∀ c ∈ (m.freshNode layer).children, m.Holds c := by
    simpa [Expr.children] using hc
  have hlist := dependantsOf_push hw hc'
  rw [freshNode_id] at hlist
  refine ⟨?_, ?_, ?_⟩
  · rw [Model.push, Array.size_push, size_enter, hw.size]
    exact (Array.size_push _).symm
  · intro i j
    rw [hlist, dependsOn_push]
    by_cases hi : i = m.size
    · subst hi
      have hold : m.size ∉ m.dependantsOf j := fun h => Nat.lt_irrefl _ (hw.lt_size h)
      split <;> simp_all [mem_addDependant]
    · rw [if_neg hi, ← hw.mem_iff]
      split
      · rw [mem_addDependant, or_iff_right hi]
      · rfl
  · intro j
    rw [hlist]
    split
    · -- the new node comes after all that are in the list
      rw [addDependant, if_neg fun h => Nat.lt_irrefl _ (hw.lt_size h)]
      refine List.pairwise_append.mpr ⟨hw.sorted j, List.pairwise_singleton _ _, ?_⟩
      intro a ha b hb
      rw [List.mem_singleton.mp hb]
      exact hw.lt_size ha
    · exact hw.sorted j

theorem Extends.wired (h : m.Extends P m') (hw : m.Wired) : m'.Wired := by
  induction h with
  | refl => exact hw
  | store layer _ _ hc _ ih => exact ih.push hc

theorem Step.wired (h : Step s m m') (hs : s.Sound) (hm : m.Sound) (hw : m.Wired) : m'.Wired := by
  rcases h.grows_or_keeps hs hm with hg | ⟨types, roots, rfl⟩
  · exact hg.wired hw
  · exact ⟨hw.size, hw.mem_iff, hw.sorted⟩

theorem Reachable.wired (h : m.Reachable) : m.Wired := by
  induction h with
  | empty => exact wired_empty
  | step hs hm hstep _ ihm => exact hstep.wired hs.sound hm.sound ihm

/-! ### The graph of a reachable model -/

/-- A dependant is newer than what it depends on. -/
theorem Sound.lt_dependant (hm : m.Sound) (hw : m.Wired) (h : i ∈ m.dependantsOf j) : j < i := by
  obtain ⟨n, hn, e, he, rfl⟩ := hw.mem_iff.mp h
  obtain ⟨c, hc, -, rfl⟩ := Node.mem_dependencies.mp he
  obtain rfl := hm.place hn
  exact hm.child_lt (hm.holds hn) hc

/-- A node depends on those of its parts that can change. -/
theorem Wired.mem_dependantsOf (hw : m.Wired) {n c : Node} (hn : m.Holds n) (hc : c ∈ n.children)
    (hdyn : c.label.dynamic = true) : n.label.id ∈ m.dependantsOf c.label.id :=
  hw.mem_iff.mpr ⟨n, hn, _, Node.mem_dependencies.mpr ⟨c, hc, hdyn, rfl⟩, rfl⟩

/-- Whether the node at a place can change. -/
def isDynamic (m : Model) (id : NodeId) : Bool := (m.node? id).any (·.label.dynamic)

theorem Holds.isDynamic_eq {n : Node} (h : m.Holds n) : m.isDynamic n.label.id = n.label.dynamic := by
  rw [isDynamic, h]
  rfl

/-- **The graph of changes.**  In a reachable model the node at a place can change exactly if there is
a variable in it.  Its edges go to those of its children that can change, in their order and as often
as they occur.  A node is listed as a dependant of another exactly if it has an edge to it, and each
list is strictly increasing, with members that are newer than what they depend on. -/
theorem Reachable.dependency_graph (hm : m.Reachable) :
    (∀ (i : NodeId) (n : Node), m.node? i = some n →
      (m.isDynamic i = true ↔ ∃ l name ty, (Expr.identifier l name ty).PartOf n) ∧
        n.dependencies = ((n.children.map (·.label.id)).filter m.isDynamic).map (⟨i, ·⟩)) ∧
    (∀ i j : NodeId, i ∈ m.dependantsOf j ↔ m.DependsOn i j) ∧
    ∀ j : NodeId, (m.dependantsOf j).Pairwise (· < ·) ∧ ∀ i ∈ m.dependantsOf j, j < i := by
  have hs := hm.sound
  have hw := hm.wired
  refine ⟨fun i n hn => ?_, fun i j => hw.mem_iff, fun j => ⟨hw.sorted j, fun i hi => ?_⟩⟩
  · have hold := hs.holds hn
    obtain rfl := hs.place hn
    refine ⟨?_, ?_⟩
    · rw [hold.isDynamic_eq]
      exact hs.dynamic_iff hold
    · have hflags : ∀ c ∈ n.children, c.label.dynamic = m.isDynamic c.label.id :=
        fun c hc => (hs.child hold hc).isDynamic_eq.symm
      rw [List.filter_map, List.map_map, Node.dependencies, List.filter_congr hflags]
      rfl
  · exact hs.lt_dependant hw hi

/-- In `x * x + 2` the square depends on `x` twice and is listed once. -/
theorem dependency_graph_square :
    ∃ (m : Model) (square sum : Node),
      m = build [.identifier "x" "int", .binary 0 .mul 0, .literal "2" "int", .binary 1 .add 2] ∧
      m.node? 1 = some square ∧ m.node? 3 = some sum ∧
      square.dependencies = [⟨1, 0⟩, ⟨1, 0⟩] ∧ sum.dependencies = [⟨3, 1⟩] ∧
      (∃ l name ty, (Expr.identifier l name ty).PartOf sum) ∧
      3 ∈ m.dependantsOf 1 ∧ m.dependantsOf 0 = [1] ∧ m.dependantsOf 2 = [] := by
  refine ⟨_, _, _, rfl, rfl, rfl, ?_⟩
  obtain ⟨hnodes, hmirror, -⟩ := (reachable_build [.identifier "x" "int", .binary 0 .mul 0,
    .literal "2" "int", .binary 1 .add 2]).dependency_graph
  have hsum := hnodes 3 _ rfl
  exact ⟨(hnodes 1 _ rfl).2.trans (by decide +kernel), hsum.2.trans (by decide +kernel),
    hsum.1.mp (by decide +kernel), (hmirror 3 1).mpr ⟨_, rfl, ⟨3, 1⟩, by decide +kernel, rfl⟩,
    by decide +kernel, by decide +kernel⟩

end Model

end DataBinding
