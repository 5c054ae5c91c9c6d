import DataBinding.Proofs.Inverse.Descent
import DataBinding.Types.Table

/-!
# Proofs — Models — reachable models

A program makes models from the empty one: it requests nodes, copies nodes of another model, solves
equations of another model into it, marks roots, and asks for types, for itself or on the way of
checking and solving.  `Step` is one such operation, whether it succeeds or not, and `Reachable` is
what they lead to.

* `Step.grows_or_keeps`: all that an operation does to a model.
* `Reachable.sound`: reachable models are sound.
* `Reachable.arena`: what that means for the places, keys and children of their nodes.
-/

namespace DataBinding.Model

variable {s m m' : Model}

/-! ### Operations -/

/-- One operation takes `m` to `m'`, where `s` is the other model that it involves, if any. -/
inductive Step (s m : Model) : Model → Prop where
  /-- A request for a node, which fails where a child is missing. -/
  | add (layer : Layer NodeId) : Step s m (add layer m).value.2
  | copy {i : NodeId} {n : Node} (h : s.node? i = some n) : Step s m (n.copy m).value.2
  /-- Solving an equation of `s` into `m`. -/
  | solveInto (R : Resolver) (limit : Nat) (context : Context) (value : NodeId) {i : NodeId}
      {n : Node} (h : s.node? i = some n) :
      Step s m (Inverse.solve R limit context n value ⟨s.types, m⟩).value.2.dest
  /-- Solving an equation of `m` into `s`. -/
  | solveFrom (R : Resolver) (limit : Nat) (context : Context) (value : NodeId) {i : NodeId}
      {n : Node} (h : m.node? i = some n) :
      Step s m { m with
        types := (Inverse.solve R limit context n value ⟨m.types, s⟩).value.2.types }
  | check (R : Resolver) (limit : Nat) {i : NodeId} {n : Node} (h : m.node? i = some n) :
      Step s m ((Inverse.check R limit n).onModel m).value.2
  | typeOf (R : Resolver) {i : NodeId} {n : Node} (h : m.node? i = some n) :
      Step s m ((R.typeOf n).onModel m).value.2
  | markRoot (i : NodeId) : Step s m (m.markRoot i)

/-- The models that operations lead to. -/
inductive Reachable : Model → Prop where
  | empty : Reachable {}
  | step {s m m' : Model} (hs : Reachable s) (hm : Reachable m) (h : Step s m m') : Reachable m'

theorem markRoot_eq (m : Model) (i : NodeId) : ∃ roots, m.markRoot i = { m with roots } := by
  rw [markRoot]
  split
  · exact ⟨m.roots, rfl⟩
  · exact ⟨m.roots ++ [i], rfl⟩

/-- **All that an operation does**: it adds nodes at the end, under free keys, or it leaves all but
the types and the roots alone. -/
theorem Step.grows_or_keeps (h : Step s m m') (hs : s.Sound) (hm : m.Sound) :
    m.Extends (fun _ => True) m' ∨ ∃ types roots, m' = { m with types, roots } := by
  cases h with
  | add layer => exact .inl (add_grows hm fun _ _ => trivial)
  | copy hn => exact .inl (copy_stored hs .true (hs.holds hn) hm).grows
  | solveInto R limit context value hn =>
      exact .inl (Inverse.solveAt_grows (w := ⟨s.types, m⟩) hs (hs.holds hn) hm value)
  | solveFrom | check | typeOf => exact .inr ⟨_, m.roots, rfl⟩
  | markRoot i => exact .inr ⟨m.types, markRoot_eq m i⟩

/-- The model that requests for nodes make, one after the other. -/
def build (layers : List (Layer NodeId)) : Model :=
  layers.foldl (fun m layer => (add layer m).value.2) {}

theorem reachable_build (layers : List (Layer NodeId)) : (build layers).Reachable := by
  -- the induction goes along the requests, so it starts from any model
  have run : ∀ m, m.Reachable →
      (layers.foldl (fun m layer => (add layer m).value.2) m).Reachable := by
    induction layers with
    | nil => exact fun _ hm => hm
    | cons layer layers ih => exact fun m hm => ih _ (.step .empty hm (.add layer))
  exact run {} .empty

/-- Requests for nodes with delimited names make a model with delimited names. -/
theorem delimited_build {layers : List (Layer NodeId)}
    (h : ∀ layer ∈ layers, layer.outline.Delimited) : (build layers).Delimited := by
  have run : ∀ m, m.Sound → m.Delimited →
      (layers.foldl (fun m layer => (add layer m).value.2) m).Delimited := by
    induction layers with
    | nil => exact fun _ _ hd => hd
    | cons layer layers ih =>
        intro m hm hd
        have hlayer := h layer List.mem_cons_self
        have hg := add_grows hm fun keys hkeys => (Layer.delimited_map keys).mp (hkeys ▸ hlayer)
        exact ih (fun l hl => h l (List.mem_cons_of_mem _ hl)) _ (hg.sound hm) (hg.delimited hd)
  exact run {} sound_empty fun n hn => by simp [Holds, node?] at hn

/-! ### What operations preserve -/

/-- Soundness is a matter of the nodes and the keys. -/
theorem Sound.congr (hm : m.Sound) (hnodes : m'.nodes = m.nodes) (hkeys : m'.keys = m.keys) :
    m'.Sound := by
  have hnode : m'.node? = m.node? := by
    funext i
    rw [node?, hnodes, node?]
  have hholds : m'.Holds = m.Holds := by
    funext n
    rw [Holds, hnode, Holds]
  obtain ⟨place, child_lt, child, key, dynamic, entry⟩ := hm
  constructor <;> simp only [hnode, hholds, hkeys] <;> assumption

theorem Step.sound (h : Step s m m') (hs : s.Sound) (hm : m.Sound) : m'.Sound := by
  rcases h.grows_or_keeps hs hm with hg | ⟨types, roots, rfl⟩
  · exact hg.sound hm
  · exact hm.congr rfl rfl

theorem Step.nodes_kept (h : Step s m m') (hs : s.Sound) (hm : m.Sound) :
    m.nodes.toList <+: m'.nodes.toList := by
  rcases h.grows_or_keeps hs hm with hg | ⟨types, roots, rfl⟩
  · exact hg.nodes_kept
  · exact List.prefix_rfl

theorem Reachable.sound (h : m.Reachable) : m.Sound := by
  induction h with
  | empty => exact sound_empty
  | step _ _ hstep ihs ihm => exact hstep.sound ihs ihm

/-- Nodes stay in their places when others are added behind them. -/
theorem node?_eq_of_kept (h : m.nodes.toList <+: m'.nodes.toList) {i : NodeId}
    (hi : i < m.size) : m'.node? i = m.node? i := by
  obtain ⟨new, hnew⟩ := h
  rw [node?, node?, ← Array.getElem?_toList, ← Array.getElem?_toList, ← hnew]
  exact List.getElem?_append_left hi

theorem Sound.lookup_eq_some_iff (hm : m.Sound) {k : String} {i : NodeId} :
    m.lookup k = some i ↔ ∃ n, m.node? i = some n ∧ n.label.key = k := by
  rw [lookup, Option.map_eq_some_iff]
  constructor
  · rintro ⟨n, hget, rfl⟩
    exact ⟨n, hm.entry.mp hget⟩
  · rintro ⟨n, hn, hkey⟩
    exact ⟨n, hm.entry.mpr ⟨hm.holds hn, hkey⟩, hm.place hn⟩

/-- **The arena and its table.**  In a reachable model every node stands at the place it names, over
children that stand before it, with the key that its layer and the keys of these children give; no
two places share a key; and a key is found exactly at the place of the node that has it.  Every
operation leaves all nodes where and as they are, with their children, keys, flags and edges, and
puts new ones behind them. -/
theorem Reachable.arena (hm : m.Reachable) :
    (∀ i n, m.node? i = some n →
      n.label.id = i ∧ (∀ c ∈ n.children, c.label.id < i ∧ m.node? c.label.id = some c) ∧
        n.label.key = (n.layer.map (·.label.key)).key) ∧
    (∀ i j a b, m.node? i = some a → m.node? j = some b → a.label.key = b.label.key → i = j) ∧
    (∀ k i, m.lookup k = some i ↔ ∃ n, m.node? i = some n ∧ n.label.key = k) ∧
    ∀ s m', s.Reachable → Step s m m' →
      m.nodes.toList <+: m'.nodes.toList ∧ ∀ i, i < m.size → m'.node? i = m.node? i := by
  have hsound := hm.sound
  refine ⟨fun i n hn => ?_, fun i j a b ha hb hkey => ?_, fun k i => hsound.lookup_eq_some_iff,
    fun s m' hs hstep => ?_⟩
  · have hold := hsound.holds hn
    obtain rfl := hsound.place hn
    exact ⟨rfl, fun c hc => ⟨hsound.child_lt hold hc, hsound.child hold hc⟩, hsound.key hold⟩
  · have heq := hsound.eq_of_key (hsound.holds ha) (hsound.holds hb) hkey
    rw [← hsound.place ha, ← hsound.place hb, heq]
  · have hkept := hstep.nodes_kept hs.sound hsound
    exact ⟨hkept, fun i hi => node?_eq_of_kept hkept hi⟩

/-- Solving `x % 2 + 3 = v` fails below the sum, when `3` and `v - 3` have been stored behind `v`. -/
theorem arena_failed_solving :
    ∃ source dest n m',
      source = build [.identifier "x" "int", .literal "2" "int", .binary 0 .rem 1,
        .literal "3" "int", .binary 2 .add 3] ∧
      dest = build [.identifier "v" "int"] ∧ source.node? 4 = some n ∧
      (Inverse.solve TypeTable.standard.resolver 256 ⟨"View"⟩ n 0 ⟨source.types, dest⟩).value.2.dest =
        m' ∧
      m'.lookup "math(id:1:v~-~lit:int:1:3)" = some 2 ∧ m'.node? 0 = dest.node? 0 := by
  refine ⟨_, _, _, _, rfl, rfl, rfl, rfl, by decide +kernel, ?_⟩
  exact ((reachable_build _).arena.2.2.2 _ _ (reachable_build _)
    (.solveInto (i := 4) TypeTable.standard.resolver 256 ⟨"View"⟩ 0 rfl)).2 0 (by decide +kernel)

end DataBinding.Model
