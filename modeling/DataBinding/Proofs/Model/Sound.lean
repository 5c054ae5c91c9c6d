import DataBinding.Model.Basic
import DataBinding.Proofs.Expr.Key

/-!
# Proofs — Models — the arena and its table of keys

A model is *sound* (`Model.Sound`) when every node stands at the place it names, its children stand
before it, its label is what its children's labels give, and the table of keys holds exactly the
nodes of the model, each under its key.

`Model.Extends` says all that building can do to a model: it stores new nodes at the end, over nodes
that are there, under keys that are free.  What such a step preserves, building preserves; in
particular soundness (`Extends.sound`) and the nodes that are there (`Extends.holds`).

* `intern_stored`: what a request over nodes of the model gives.
* `add_value`, `add_grows`: what a request at places gives, where nodes are and where none may be.
* `Sound.label_key`: the key a node is stored with is the key of the expression it is.
* `Sound.bare_eq_of_key`: where names are delimited, equal keys belong to the same expression.
-/

namespace DataBinding

/-- Children come before the whole: what passes from the children to an expression holds of all. -/
theorem Expr.children_induction {ι : Type} {P : Expr ι → Prop}
    (step : ∀ e, (∀ c ∈ e.children, P c) → P e) (e : Expr ι) : P e := by
  induction e with
  | literal | identifier => exact step _ fun c hc => absurd hc List.not_mem_nil
  | property _ _ _ ih | unary _ _ _ ih | group _ _ ih | cast _ _ _ ih =>
      refine step _ fun c hc => ?_
      obtain rfl := List.mem_singleton.mp hc
      exact ih
  | binary _ _ _ _ ih₁ ih₂ | assign _ _ _ _ ih₁ ih₂ =>
      refine step _ fun c hc => ?_
      rcases List.mem_pair.mp hc with rfl | rfl
      · exact ih₁
      · exact ih₂
  | conditional _ _ _ _ ih₁ ih₂ ih₃ =>
      refine step _ fun c hc => ?_
      rcases List.mem_cons.mp hc with rfl | hc
      · exact ih₁
      · rcases List.mem_pair.mp hc with rfl | rfl
        · exact ih₂
        · exact ih₃

/-- A layer over children that all have a preimage has one. -/
theorem Layer.exists_map_eq {α β : Type} {f : α → β} {p : α → Prop} (layer : Layer β)
    (h : ∀ b ∈ layer.children, ∃ a, p a ∧ f a = b) :
    ∃ l : Layer α, l.map f = layer ∧ ∀ a ∈ l.children, p a := by
  cases layer with
  | literal text ty => exact ⟨.literal text ty, rfl, by simp [children]⟩
  | identifier name ty => exact ⟨.identifier name ty, rfl, by simp [children]⟩
  | property target name =>
      obtain ⟨a, ha, rfl⟩ := h target (by simp [children])
      exact ⟨.property a name, rfl, by simpa [children] using ha⟩
  | binary left op right =>
      obtain ⟨a, ha, rfl⟩ := h left (by simp [children])
      obtain ⟨b, hb, rfl⟩ := h right (by simp [children])
      exact ⟨.binary a op b, rfl, by simpa [children] using ⟨ha, hb⟩⟩
  | unary op operand =>
      obtain ⟨a, ha, rfl⟩ := h operand (by simp [children])
      exact ⟨.unary op a, rfl, by simpa [children] using ha⟩
  | group inner =>
      obtain ⟨a, ha, rfl⟩ := h inner (by simp [children])
      exact ⟨.group a, rfl, by simpa [children] using ha⟩
  | cast ty operand =>
      obtain ⟨a, ha, rfl⟩ := h operand (by simp [children])
      exact ⟨.cast ty a, rfl, by simpa [children] using ha⟩
  | conditional condition positive negative =>
      obtain ⟨a, ha, rfl⟩ := h condition (by simp [children])
      obtain ⟨b, hb, rfl⟩ := h positive (by simp [children])
      obtain ⟨c, hc, rfl⟩ := h negative (by simp [children])
      exact ⟨.conditional a b c, rfl, by simpa [children] using ⟨ha, hb, hc⟩⟩
  | assign target value context =>
      obtain ⟨a, ha, rfl⟩ := h target (by simp [children])
      obtain ⟨b, hb, rfl⟩ := h value (by simp [children])
      exact ⟨.assign a b context, rfl, by simpa [children] using ⟨ha, hb⟩⟩

namespace Model

variable {m m' m'' : Model} {P : Layer String → Prop}

/-! ### Soundness -/

/-- The node stands in the model, at the place it names. -/
def Holds (m : Model) (n : Node) : Prop := m.node? n.label.id = some n

/-- The invariant of models. -/
structure Sound (m : Model) : Prop where
  /-- A node names its place. -/
  place : ∀ {i n}, m.node? i = some n → n.label.id = i
  /-- Children stand before their parents. -/
  child_lt : ∀ {n c}, m.Holds n → c ∈ n.children → c.label.id < n.label.id
  child : ∀ {n c}, m.Holds n → c ∈ n.children → m.Holds c
  key : ∀ {n}, m.Holds n → n.label.key = (n.layer.map (·.label.key)).key
  dynamic : ∀ {n}, m.Holds n → n.label.dynamic = (n.layer.map (·.label.dynamic)).isDynamic
  /-- The table holds the nodes of the model under their keys, and nothing else. -/
  entry : ∀ {k n}, m.keys.get? k = some n ↔ m.Holds n ∧ n.label.key = k

theorem node?_lt {i : NodeId} {n : Node} (h : m.node? i = some n) : i < m.size :=
  (Array.getElem?_eq_some_iff.mp h).1

theorem exists_node? {i : NodeId} (h : i < m.size) : ∃ n, m.node? i = some n :=
  ⟨m.nodes[i], Array.getElem?_eq_getElem h⟩

theorem Sound.holds (hm : m.Sound) {i : NodeId} {n : Node} (h : m.node? i = some n) :
    m.Holds n := by
  rw [Holds, hm.place h, h]

/-- A place holds one node. -/
theorem Holds.eq_of_id {a b : Node} (ha : m.Holds a) (hb : m.Holds b)
    (h : a.label.id = b.label.id) : a = b := by
  rw [Holds, h] at ha
  exact Option.some.inj (ha.symm.trans hb)

/-- A key belongs to one node. -/
theorem Sound.eq_of_key (hm : m.Sound) {a b : Node} (ha : m.Holds a) (hb : m.Holds b)
    (h : a.label.key = b.label.key) : a = b :=
  Option.some.inj ((hm.entry.mpr ⟨ha, h⟩).symm.trans (hm.entry.mpr ⟨hb, rfl⟩))

/-- What has a part that can change can change. -/
theorem Sound.dynamic_of_child (hm : m.Sound) {n c : Node} (hn : m.Holds n) (hc : c ∈ n.children)
    (h : c.label.dynamic = true) : n.label.dynamic = true := by
  have hmem : true ∈ (n.layer.map (·.label.dynamic)).children := by
    rw [Layer.children_map]
    exact List.mem_map.mpr ⟨c, hc, h⟩
  rw [hm.dynamic hn]
  cases n with
  | literal | identifier => cases hmem
  | _ => exact List.any_eq_true.mpr ⟨true, hmem, rfl⟩

/-- The parts of what cannot change cannot change. -/
theorem Sound.constant_child (hm : m.Sound) {n c : Node} (hn : m.Holds n) (hc : c ∈ n.children)
    (h : n.label.dynamic = false) : c.label.dynamic = false := by
  cases hdyn : c.label.dynamic with
  | false => rfl
  | true =>
      rw [hm.dynamic_of_child hn hc hdyn] at h
      cases h

theorem get?_empty (k : String) : ({} : Model).keys.get? k = none := by
  simp [KeyIndex.get?]

theorem sound_empty : ({} : Model).Sound where
  place h := by simp [node?] at h
  child_lt h := by simp [Holds, node?] at h
  child h := by simp [Holds, node?] at h
  key h := by simp [Holds, node?] at h
  dynamic h := by simp [Holds, node?] at h
  entry := by
    intro k n
    rw [get?_empty]
    simp [Holds, node?]

/-! ### Storing a node -/

/-- The key of a request. -/
def requestKey (layer : Layer Node) : String := (layer.map (·.label.key)).key

@[simp] theorem freshNode_id (m : Model) (layer : Layer Node) :
    (m.freshNode layer).label.id = m.size := by
  simp [freshNode]

@[simp] theorem freshNode_key (m : Model) (layer : Layer Node) :
    (m.freshNode layer).label.key = requestKey layer := by
  simp [freshNode, requestKey]

@[simp] theorem layer_freshNode (m : Model) (layer : Layer Node) :
    (m.freshNode layer).layer = layer := by
  simp [freshNode]

theorem node?_push (m : Model) (n : Node) (i : NodeId) :
    (m.push n).node? i = if i = m.size then some n else m.node? i := by
  simp only [node?, push, Array.getElem?_push]
  rfl

/-- The nodes after a new one is stored. -/
theorem holds_push {layer : Layer Node} {n : Node} :
    (m.push (m.freshNode layer)).Holds n ↔ n = m.freshNode layer ∨ m.Holds n := by
  rw [Holds, node?_push]
  constructor
  · intro h
    split at h
    · exact .inl (Option.some.inj h).symm
    · exact .inr h
  · rintro (rfl | h)
    · rw [if_pos (freshNode_id m layer)]
    · rw [if_neg (Nat.ne_of_lt (node?_lt h))]
      exact h

theorem cachedType?_push (m : Model) (n : Node) (i : NodeId) :
    (m.push n).cachedType? i = m.cachedType? i := by
  rw [cachedType?, cachedType?, push, Array.getElem?_push]
  split
  · rename_i hi
    rw [hi, Array.getElem?_size]
    rfl
  · rfl

/-- Storing a node over nodes of the model, under a free key, keeps the model sound. -/
theorem Sound.push (hm : m.Sound) {layer : Layer Node} (hc : ∀ c ∈ layer.children, m.Holds c)
    (hfree : m.keys.get? (requestKey layer) = none) : (m.push (m.freshNode layer)).Sound where
  place {i n} h := by
    rw [node?_push] at h
    split at h
    · cases h
      simpa using Eq.symm ‹i = m.size›
    · exact hm.place h
  child_lt {n c} hn hcn := by
    rcases holds_push.mp hn with rfl | hn
    · rw [freshNode_id]
      exact node?_lt (hc c (by simpa [Expr.children] using hcn))
    · exact hm.child_lt hn hcn
  child {n c} hn hcn := by
    rcases holds_push.mp hn with rfl | hn
    · exact holds_push.mpr (.inr (hc c (by simpa [Expr.children] using hcn)))
    · exact holds_push.mpr (.inr (hm.child hn hcn))
  key {n} hn := by
    rcases holds_push.mp hn with rfl | hn
    · rw [freshNode_key, layer_freshNode, requestKey]
    · exact hm.key hn
  dynamic {n} hn := by
    rcases holds_push.mp hn with rfl | hn
    · rw [layer_freshNode, freshNode, Expr.label_expr]
    · exact hm.dynamic hn
  entry {k n} := by
    have hget : (m.push (m.freshNode layer)).keys.get? k =
        if k = requestKey layer then some (m.freshNode layer) else m.keys.get? k := by
      simp [Model.push, KeyIndex.get?_insert, hfree]
    rw [hget, holds_push]
    split
    · rename_i hk
      subst hk
      constructor
      · intro h
        cases h
        exact ⟨.inl rfl, freshNode_key m layer⟩
      · rintro ⟨rfl | hn, hkey⟩
        · rfl
        -- the key was free, so no older node has it
        · exact absurd (hm.entry.mpr ⟨hn, hkey⟩) (by simp [hfree])
    · rename_i hk
      rw [hm.entry]
      constructor
      · rintro ⟨hn, hkey⟩
        exact ⟨.inr hn, hkey⟩
      · rintro ⟨rfl | hn, hkey⟩
        · exact absurd (hkey.symm.trans (freshNode_key m layer)) hk
        · exact ⟨hn, hkey⟩

/-! ### Extensions -/

/-- `P` holds of every node of the model, over the keys of its children. -/
def All (m : Model) (P : Layer String → Prop) : Prop :=
  ∀ n, m.Holds n → P (n.layer.map (·.label.key))

theorem All.true : m.All fun _ => True := fun _ _ => trivial

theorem all_empty (P : Layer String → Prop) : ({} : Model).All P :=
  fun n hn => by simp [Holds, node?] at hn

/-- `m'` arises from `m` by storing new nodes at the end, each over nodes that are there and under a
free key, with layers over keys that satisfy `P`. -/
inductive Extends (m : Model) (P : Layer String → Prop) : Model → Prop where
  | refl : Extends m P m
  | store {m' : Model} (layer : Layer Node) (h : Extends m P m')
      (hP : P (layer.map (·.label.key)))
      (hc : ∀ c ∈ layer.children, m'.Holds c) (hfree : m'.keys.get? (requestKey layer) = none) :
      Extends m P (m'.push (m'.freshNode layer))

namespace Extends

theorem trans (h₁ : m.Extends P m') (h₂ : m'.Extends P m'') : m.Extends P m'' := by
  induction h₂ with
  | refl => exact h₁
  | store layer _ hP hc hfree ih => exact .store layer ih hP hc hfree

theorem sound (h : m.Extends P m') (hm : m.Sound) : m'.Sound := by
  induction h with
  | refl => exact hm
  | store layer _ _ hc hfree ih => exact ih.push hc hfree

/-- The nodes that are there stay, in their places, and new ones come behind them. -/
theorem nodes_kept (h : m.Extends P m') : m.nodes.toList <+: m'.nodes.toList := by
  induction h with
  | refl => exact List.prefix_rfl
  | store layer _ _ _ _ ih =>
      rw [push, Array.toList_push]
      exact ih.trans (List.prefix_append _ _)

theorem holds {n : Node} (h : m.Extends P m') (hn : m.Holds n) : m'.Holds n := by
  induction h with
  | refl => exact hn
  | store layer _ _ _ _ ih => exact holds_push.mpr (.inr ih)

/-- A node was there before, or it is new and satisfies `P`. -/
theorem holds_or {n : Node} (h : m.Extends P m') (hn : m'.Holds n) :
    m.Holds n ∨ P (n.layer.map (·.label.key)) := by
  induction h with
  | refl => exact .inl hn
  | store layer _ hP _ _ ih =>
      rcases holds_push.mp hn with rfl | hn
      · exact .inr (by rwa [layer_freshNode])
      · exact ih hn

/-- What holds of all old nodes and of all new ones holds of all. -/
theorem all (h : m.Extends P m') (hm : m.All P) : m'.All P :=
  fun n hn => (h.holds_or hn).elim (hm n) id

/-- What has been stored is at the end, and satisfies `P`. -/
theorem exists_append (h : m.Extends P m') :
    ∃ new, m'.nodes.toList = m.nodes.toList ++ new ∧
      ∀ n ∈ new, P (n.layer.map (·.label.key)) := by
  induction h with
  | refl => exact ⟨[], by simp, fun n hn => absurd hn List.not_mem_nil⟩
  | @store m' layer _ hP _ _ ih =>
      obtain ⟨new, heq, hnew⟩ := ih
      refine ⟨new ++ [m'.freshNode layer], ?_, fun n hn => ?_⟩
      · rw [push, Array.toList_push, heq, List.append_assoc]
      · rcases List.mem_append.mp hn with hn | hn
        · exact hnew n hn
        · obtain rfl := List.mem_singleton.mp hn
          rwa [layer_freshNode]

theorem roots_eq (h : m.Extends P m') : m'.roots = m.roots := by
  induction h with
  | refl => rfl
  | store _ _ _ _ _ ih => exact ih

/-- No type is found or lost: the cells of new nodes are empty, and the others stay as they are. -/
theorem cachedType?_eq (h : m.Extends P m') (i : NodeId) : m'.cachedType? i = m.cachedType? i := by
  induction h with
  | refl => rfl
  | store layer _ _ _ _ ih => rw [cachedType?_push, ih]

end Extends

/-! ### Requests -/

/-- The outcome of a request for a node with the given key: the model has grown, and the node is in
it. -/
structure Stored (m : Model) (P : Layer String → Prop) (key : String) (r : Node × Model) : Prop where
  grows : m.Extends P r.2
  holds : r.2.Holds r.1
  key : r.1.label.key = key

/-- A request is answered with the node that has the key, or with a new one. -/
theorem intern_cases (layer : Layer Node) (m : Model) :
    (∃ n, m.keys.get? (requestKey layer) = some n ∧ (intern layer m).value = (n, m)) ∨
      m.keys.get? (requestKey layer) = none ∧
        (intern layer m).value = (m.freshNode layer, m.push (m.freshNode layer)) := by
  unfold intern requestKey
  cases h : m.keys.get? (layer.map (·.label.key)).key with
  | some n => exact .inl ⟨n, rfl, by simp [h]⟩
  | none => exact .inr ⟨rfl, by simp [h]⟩

theorem intern_stored (hm : m.Sound) {layer : Layer Node} (hP : P (layer.map (·.label.key)))
    (hc : ∀ c ∈ layer.children, m.Holds c) :
    Stored m P (requestKey layer) (intern layer m).value := by
  rcases intern_cases layer m with ⟨n, hget, heq⟩ | ⟨hfree, heq⟩ <;> rw [heq]
  · obtain ⟨hn, hkey⟩ := hm.entry.mp hget
    exact ⟨.refl, hn, hkey⟩
  · exact ⟨.store layer .refl hP hc hfree, holds_push.mpr (.inl rfl), freshNode_key m layer⟩

/-- Declaring an identifier differs from a plain request in its reports only. -/
theorem place_value (layer : Layer Node) (m : Model) :
    (place layer m).value = (intern layer m).value := by
  cases layer with
  | identifier name ty =>
      simp only [place, declare, bind, StateT.bind]
      obtain ⟨⟨n, m'⟩, events⟩ := intern (.identifier name ty) m
      cases n with
      | identifier l name' declared =>
          dsimp only
          split <;> rfl
      | _ => rfl
  | _ => rfl

/-- Places of nodes of a model stand for those nodes. -/
theorem known_map {layer : Layer Node} (hc : ∀ c ∈ layer.children, m.Holds c) :
    m.known (layer.map (·.label.id)) = .ok layer := by
  have hget : ∀ c ∈ layer.children, m.node? c.label.id = some c := hc
  cases layer <;>
    simp_all [known, Layer.map, Layer.mapM, Layer.children, bind, Except.bind, pure, Except.pure]

/-- A request at places of the model is one over nodes of the model. -/
theorem Sound.exists_request (hm : m.Sound) {layer : Layer NodeId}
    (h : ∀ i ∈ layer.children, i < m.size) :
    ∃ request : Layer Node,
      request.map (·.label.id) = layer ∧ ∀ c ∈ request.children, m.Holds c := by
  refine layer.exists_map_eq fun i hi => ?_
  obtain ⟨n, hn⟩ := exists_node? (h i hi)
  exact ⟨n, hm.holds hn, hm.place hn⟩

/-- A request at the places of nodes of the model is the request for those nodes. -/
theorem add_value {layer : Layer Node} (hc : ∀ c ∈ layer.children, m.Holds c) :
    (add (layer.map (·.label.id)) m).value =
      (.ok (intern layer m).value.1, (intern layer m).value.2) := by
  rw [add, known_map hc]
  simp [place_value]

/-- A request at a place where there is no node fails. -/
theorem known_error {layer : Layer NodeId} {i : NodeId} (hi : i ∈ layer.children)
    (h : m.node? i = none) : ∃ e, m.known layer = .error e := by
  cases layer with
  | literal | identifier => cases hi
  | property a _ | unary _ a | group a | cast _ a =>
      obtain rfl := List.mem_singleton.mp hi
      exact ⟨.unknownNode i, by simp [known, Layer.mapM, h, bind, Except.bind]⟩
  | binary a _ b | assign a b _ =>
      cases ha : m.node? a with
      | none => exact ⟨.unknownNode a, by simp [known, Layer.mapM, ha, bind, Except.bind]⟩
      | some n =>
          rcases List.mem_pair.mp hi with rfl | rfl
          · exact absurd (ha.symm.trans h) (by simp)
          · exact ⟨.unknownNode i, by simp [known, Layer.mapM, ha, h, bind, Except.bind]⟩
  | conditional a b c =>
      cases ha : m.node? a with
      | none => exact ⟨.unknownNode a, by simp [known, Layer.mapM, ha, bind, Except.bind]⟩
      | some n =>
          cases hb : m.node? b with
          | none => exact ⟨.unknownNode b, by simp [known, Layer.mapM, ha, hb, bind, Except.bind]⟩
          | some n' =>
              obtain rfl | rfl | rfl : i = a ∨ i = b ∨ i = c := by
                simpa [Layer.children] using hi
              · exact absurd (ha.symm.trans h) (by simp)
              · exact absurd (hb.symm.trans h) (by simp)
              · exact ⟨.unknownNode i, by
                  simp [known, Layer.mapM, ha, hb, h, bind, Except.bind]⟩

/-- A request fails and leaves the model as it is, or is one over nodes of the model. -/
theorem add_cases (hm : m.Sound) (layer : Layer NodeId) :
    (add layer m).value.2 = m ∨
      ∃ request : Layer Node, request.map (·.label.id) = layer ∧
        (∀ c ∈ request.children, m.Holds c) ∧
        (add layer m).value = (.ok (intern request m).value.1, (intern request m).value.2) := by
  by_cases hall : ∀ i ∈ layer.children, i < m.size
  · obtain ⟨request, rfl, hc⟩ := hm.exists_request hall
    exact .inr ⟨request, rfl, hc, add_value hc⟩
  · simp only [Classical.not_forall] at hall
    obtain ⟨i, hi, hsize⟩ := hall
    obtain ⟨e, he⟩ := known_error hi (Array.getElem?_eq_none (Nat.le_of_not_lt hsize))
    rw [add, he]
    exact .inl rfl

/-- Whether or not a request succeeds, the model only grows. -/
theorem add_grows (hm : m.Sound) {layer : Layer NodeId}
    (hP : ∀ keys : Layer String, keys.outline = layer.outline → P keys) :
    m.Extends P (add layer m).value.2 := by
  rcases add_cases hm layer with heq | ⟨request, rfl, hc, heq⟩ <;> rw [heq]
  · exact .refl
  · exact (intern_stored hm (hP _ (by simp)) hc).grows

/-! ### Nodes as expressions -/

theorem requestKey_eq {layer : Layer Node} (h : ∀ c ∈ layer.children, c.label.key = c.key)
    (l : NodeLabel) : requestKey layer = (layer.expr l).key := by
  cases layer <;> simp_all [requestKey, Layer.map, Layer.children, Layer.expr, Expr.key]

/-- The key that a node is stored with is the key of the expression that it is. -/
theorem Sound.label_key (hm : m.Sound) {n : Node} (hn : m.Holds n) : n.label.key = n.key := by
  induction n using Expr.children_induction with
  | step n ih =>
      rw [hm.key hn, ← requestKey, requestKey_eq (fun c hc => ih c hc (hm.child hn hc)) n.label,
        Expr.expr_layer]

/-- What holds of the outline of every node of a model holds throughout each of its nodes. -/
theorem Sound.every (hm : m.Sound) {Q : Layer Unit → Prop}
    (hQ : ∀ n, m.Holds n → Q n.layer.outline) {n : Node} (hn : m.Holds n) : n.Every Q := by
  induction n using Expr.children_induction with
  | step n ih =>
      exact (Expr.every_iff n).mpr ⟨hQ n hn, fun c hc => ih c hc (hm.child hn hc)⟩

/-- The names in a model are delimited. -/
def Delimited (m : Model) : Prop := ∀ n, m.Holds n → n.layer.outline.Delimited

theorem delimited_iff_all : m.Delimited ↔ m.All Layer.Delimited := by
  refine forall_congr' fun n => imp_congr_right fun _ => ?_
  rw [Layer.outline, Layer.delimited_map, Layer.delimited_map]

theorem Extends.delimited (h : m.Extends Layer.Delimited m') (hd : m.Delimited) :
    m'.Delimited := delimited_iff_all.mpr (h.all (delimited_iff_all.mp hd))

/-- A node of a delimited model with the key of a delimited expression is that expression. -/
theorem Sound.bare_eq_of_key (hm : m.Sound) (hd : m.Delimited) {n : Node} (hn : m.Holds n)
    {ι : Type} {e : Expr ι} (he : e.Delimited) (h : n.label.key = e.key) : n.bare = e.bare :=
  (Expr.key_eq_iff_bare (hm.every hd hn) he).mp ((hm.label_key hn).symm.trans h)

end Model

end DataBinding
