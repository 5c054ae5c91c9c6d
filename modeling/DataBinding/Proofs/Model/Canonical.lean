import DataBinding.Proofs.Model.Dynamic
import DataBinding.Proofs.Model.Reachable
import Mathlib.Data.Finset.Card
import Mathlib.Logic.Relation

/-!
# Proofs — Models — building expressions

`Expr.request` builds an expression in a model, its parts first, by one request for each node.  Some
parts may be there already, found by their keys, and some of them may be other expressions with the
same key.  Which keys the model has in the end does not depend on that.

* `request_requested`: what building an expression does to a model.
* `Extends.eq_of_taken`: nothing is stored under keys that are taken.
* `keySet_requestAll`: the keys of a model that was built from expressions are those of their parts.
* `request_canonical`: building finds what has been built.
-/

namespace DataBinding

variable {ι : Type}

/-! ### Parts -/

namespace Expr

/-- The expression and all its parts, with repetitions. -/
def parts : Expr ι → List (Expr ι)
  | e@(literal _ _ _) | e@(identifier _ _ _) => [e]
  | e@(property _ a _) | e@(unary _ _ a) | e@(group _ a) | e@(cast _ _ a) => e :: a.parts
  | e@(binary _ a _ b) | e@(assign _ a b _) => e :: (a.parts ++ b.parts)
  | e@(conditional _ a b c) => e :: (a.parts ++ (b.parts ++ c.parts))

theorem parts_eq (e : Expr ι) : e.parts = e :: e.children.flatMap parts := by
  cases e <;> simp [parts, children, layer, Layer.children]

theorem mem_parts {s e : Expr ι} : s ∈ e.parts ↔ s.PartOf e := by
  constructor
  · induction e using children_induction with
    | step e ih =>
        intro h
        rw [parts_eq] at h
        rcases List.mem_cons.mp h with rfl | h
        · exact .self
        · obtain ⟨c, hc, hs⟩ := List.mem_flatMap.mp h
          exact .child hc (ih c hc hs)
  · intro h
    induction h with
    | self =>
        rw [parts_eq]
        exact List.mem_cons_self
    | child hc _ ih =>
        rw [parts_eq]
        exact List.mem_cons_of_mem _ (List.mem_flatMap.mpr ⟨_, hc, ih⟩)

/-- The keys of the parts of expressions. -/
def partKeys (es : List (Expr ι)) : Finset String := ((es.flatMap parts).map key).toFinset

theorem mem_partKeys {es : List (Expr ι)} {k : String} :
    k ∈ partKeys es ↔ ∃ e ∈ es, ∃ s : Expr ι, s.PartOf e ∧ s.key = k := by
  simp only [partKeys, List.mem_toFinset, List.mem_map, List.mem_flatMap, mem_parts]
  constructor
  · rintro ⟨s, ⟨e, he, hs⟩, hk⟩
    exact ⟨e, he, s, hs, hk⟩
  · rintro ⟨e, he, s, hs, hk⟩
    exact ⟨s, ⟨e, he, hs⟩, hk⟩

/-! ### Building an expression -/

/-- Requests the nodes of an expression, those of its parts first. -/
def request : Expr ι → ExceptT BindingError Building Node
  | literal _ text ty => Model.add (.literal text ty)
  | identifier _ name ty => Model.add (.identifier name ty)
  | property _ target name => do
    let target ← target.request
    Model.add (.property target.label.id name)
  | binary _ left op right => do
    let left ← left.request
    let right ← right.request
    Model.add (.binary left.label.id op right.label.id)
  | unary _ op operand => do
    let operand ← operand.request
    Model.add (.unary op operand.label.id)
  | group _ inner => do
    let inner ← inner.request
    Model.add (.group inner.label.id)
  | cast _ ty operand => do
    let operand ← operand.request
    Model.add (.cast ty operand.label.id)
  | conditional _ condition positive negative => do
    let condition ← condition.request
    let positive ← positive.request
    let negative ← negative.request
    Model.add (.conditional condition.label.id positive.label.id negative.label.id)
  | assign _ target value context => do
    let target ← target.request
    let value ← value.request
    Model.add (.assign target.label.id value.label.id context)

theorem request_eq (e : Expr ι) :
    e.request = e.layer.mapM request >>= fun layer => Model.add (layer.map (·.label.id)) := by
  cases e <;> simp [request, layer, Layer.mapM, Layer.map]

end Expr

namespace Model

variable {m m' : Model} {P : Layer String → Prop} {e : Expr ι} {n : Node}

/-- The model has a node with the key of each part of the expression. -/
def Covers (m : Model) (e : Expr ι) : Prop :=
  ∀ s : Expr ι, s.PartOf e → ∃ n, m.Holds n ∧ n.label.key = s.key

theorem Extends.covers (h : m.Extends P m') (hc : m.Covers e) : m'.Covers e := by
  intro s hs
  obtain ⟨n, hn, hkey⟩ := hc s hs
  exact ⟨n, h.holds hn, hkey⟩

/-- The outcome of building an expression: a node with its key, in a model that has grown and has a
node for each part. -/
structure Requested (P : Layer String → Prop) (m : Model) (e : Expr ι)
    (r : Except BindingError Node × Model) : Prop where
  stored : ∃ n, r.1 = .ok n ∧ m.Stored P e.key (n, r.2)
  covers : r.2.Covers e

/-- The outcome of building the parts of a layer, one after the other. -/
structure RequestedLayer (P : Layer String → Prop) (m : Model) (layer : Layer (Expr ι))
    (request : Layer Node) (m' : Model) : Prop where
  grows : m.Extends P m'
  keys : request.map (·.label.key) = layer.map Expr.key
  holds : ∀ c ∈ request.children, m'.Holds c
  covers : ∀ c ∈ layer.children, m'.Covers c

/-- What is built is built upon. -/
theorem Requested.bind {α : Type} (h : Requested P m e (e.request m).value)
    (f : Node → ExceptT BindingError Building α) :
    ∃ n m', ((e.request >>= f) m).value = (f n m').value ∧ m.Stored P e.key (n, m') ∧ m'.Covers e := by
  obtain ⟨⟨n, hn, hst⟩, hc⟩ := h
  refine ⟨n, _, ?_, hst, hc⟩
  rw [value_bind_except]
  revert hn
  obtain ⟨r, m'⟩ := (e.request m).value
  rintro rfl
  rfl

theorem mapM_requested (layer : Layer (Expr ι))
    (ih : ∀ c ∈ layer.children, ∀ {m : Model}, m.Sound → Requested P m c (c.request m).value)
    (hm : m.Sound) :
    ∃ request m', (layer.mapM Expr.request m).value = (.ok request, m') ∧
      RequestedLayer P m layer request m' := by
  cases layer with
  | literal text ty =>
      exact ⟨_, m, rfl, .refl, rfl, fun c hc => absurd hc List.not_mem_nil,
        fun c hc => absurd hc List.not_mem_nil⟩
  | identifier name ty =>
      exact ⟨_, m, rfl, .refl, rfl, fun c hc => absurd hc List.not_mem_nil,
        fun c hc => absurd hc List.not_mem_nil⟩
  | property a _ | unary _ a | group a | cast _ a =>
      obtain ⟨n, m', heq, hst, hcov⟩ := (ih a (by simp [Layer.children]) hm).bind _
      refine ⟨_, m', heq, hst.grows, ?_, ?_, ?_⟩
      · simp [Layer.map, hst.key]
      · simpa [Layer.children] using hst.holds
      · simpa [Layer.children] using hcov
  | binary a _ b | assign a b _ =>
      obtain ⟨n, m₁, heq, hst, hcov⟩ := (ih a (by simp [Layer.children]) hm).bind _
      obtain ⟨n₂, m₂, heq₂, hst₂, hcov₂⟩ := (ih b (by simp [Layer.children]) (hst.grows.sound hm)).bind _
      refine ⟨_, m₂, heq.trans heq₂, hst.grows.trans hst₂.grows, ?_, ?_, ?_⟩
      · simp [Layer.map, hst.key, hst₂.key]
      · simpa [Layer.children] using ⟨hst₂.grows.holds hst.holds, hst₂.holds⟩
      · simpa [Layer.children] using ⟨hst₂.grows.covers hcov, hcov₂⟩
  | conditional a b c =>
      obtain ⟨n, m₁, heq, hst, hcov⟩ := (ih a (by simp [Layer.children]) hm).bind _
      obtain ⟨n₂, m₂, heq₂, hst₂, hcov₂⟩ := (ih b (by simp [Layer.children]) (hst.grows.sound hm)).bind _
      obtain ⟨n₃, m₃, heq₃, hst₃, hcov₃⟩ :=
        (ih c (by simp [Layer.children]) (hst₂.grows.sound (hst.grows.sound hm))).bind _
      have hlast := hst₂.grows.trans hst₃.grows
      refine ⟨_, m₃, heq.trans (heq₂.trans heq₃), hst.grows.trans hlast, ?_, ?_, ?_⟩
      · simp [Layer.map, hst.key, hst₂.key, hst₃.key]
      · simpa [Layer.children] using
          ⟨hlast.holds hst.holds, hst₃.grows.holds hst₂.holds, hst₃.holds⟩
      · simpa [Layer.children] using ⟨hlast.covers hcov, hst₃.grows.covers hcov₂, hcov₃⟩

/-- **Building an expression** stores nodes with the keys of its parts only, and leaves a node for each
part behind, the last of which is the answer. -/
theorem request_requested (hP : ∀ s : Expr ι, s.PartOf e → P (s.layer.map Expr.key)) (hm : m.Sound) :
    Requested P m e (e.request m).value := by
  induction e using Expr.children_induction generalizing m with
  | step e ih =>
      obtain ⟨request, m₁, heq, hl⟩ := mapM_requested e.layer
        (fun c hc _ hm => ih c hc (fun s hs => hP s (.child hc hs)) hm) hm
      have hi : m₁.Stored P (requestKey request) (intern request m₁).value :=
        intern_stored (hl.grows.sound hm) (hl.keys ▸ hP e .self) hl.holds
      have hkey : requestKey request = e.key := by rw [requestKey, hl.keys, e.key_eq]
      rw [e.request_eq, value_bind_except, heq]
      dsimp only
      rw [add_value hl.holds]
      refine ⟨⟨_, rfl, hl.grows.trans hi.grows, hi.holds, hi.key.trans hkey⟩, ?_⟩
      rintro s (_ | ⟨hc, hs⟩)
      · exact ⟨_, hi.holds, hi.key.trans hkey⟩
      · exact hi.grows.covers (hl.covers _ hc) s hs

/-- Nothing is stored under keys that are taken. -/
theorem Extends.eq_of_taken (h : m.Extends P m') (hm : m.Sound)
    (htaken : ∀ layer : Layer String, P layer → ∃ n, m.Holds n ∧ n.label.key = layer.key) :
    m' = m := by
  induction h with
  | refl => rfl
  | store layer _ hP _ hfree ih =>
      subst ih
      obtain ⟨n, hn, hkey⟩ := htaken _ hP
      rw [requestKey, ← hkey, hm.entry.mpr ⟨hn, rfl⟩] at hfree
      cases hfree

/-- An expression that the model covers is found, and nothing is stored. -/
theorem request_known (hm : m.Sound) (hc : m.Covers e) :
    ∃ n, (e.request m).value = (.ok n, m) ∧ m.Holds n ∧ n.label.key = e.key := by
  -- all that building may store are nodes with the keys of parts
  obtain ⟨⟨n, hn, hst⟩, -⟩ := request_requested (e := e)
    (P := fun layer => ∃ s : Expr ι, s.PartOf e ∧ s.layer.map Expr.key = layer)
    (fun s hs => ⟨s, hs, rfl⟩) hm
  have hsame : (e.request m).value.2 = m := hst.grows.eq_of_taken hm fun layer h => by
    obtain ⟨s, hs, rfl⟩ := h
    rw [← s.key_eq]
    exact hc s hs
  exact ⟨n, Prod.ext hn hsame, hsame ▸ hst.holds, hst.key⟩

/-! ### Later models -/

/-- Operations lead from `m` to `m'`. -/
def Later (m m' : Model) : Prop :=
  Relation.ReflTransGen (fun m m' => ∃ s, s.Reachable ∧ Step s m m') m m'

/-- Later models are sound and hold the nodes that are there. -/
theorem Later.sound_holds (h : Later m m') (hm : m.Sound) :
    m'.Sound ∧ ∀ n, m.Holds n → m'.Holds n := by
  induction h with
  | refl => exact ⟨hm, fun _ hn => hn⟩
  | @tail m' m'' _ hstep ih =>
      obtain ⟨s, hs, hstep⟩ := hstep
      refine ⟨hstep.sound hs.sound ih.1, fun n hn => ?_⟩
      have hn' := ih.2 n hn
      exact (node?_eq_of_kept (hstep.nodes_kept hs.sound ih.1) (node?_lt hn')).trans hn'

/-! ### Models of expressions -/

/-- Builds expressions one after the other. -/
def requestAll (m : Model) (es : List (Expr ι)) : Model :=
  es.foldl (fun m e => (e.request m).value.2) m

/-- The keys of the nodes of a model. -/
def keySet (m : Model) : Finset String := (m.nodes.toList.map (·.label.key)).toFinset

theorem Sound.mem_keySet (hm : m.Sound) {k : String} :
    k ∈ m.keySet ↔ ∃ n, m.Holds n ∧ n.label.key = k := by
  simp only [keySet, List.mem_toFinset, List.mem_map, Array.mem_toList_iff]
  constructor
  · rintro ⟨n, hn, hk⟩
    obtain ⟨i, hi⟩ := Array.getElem?_of_mem hn
    exact ⟨n, hm.holds hi, hk⟩
  · rintro ⟨n, hn, hk⟩
    exact ⟨n, Array.mem_of_getElem? hn, hk⟩

/-- There are as many nodes as keys. -/
theorem Sound.card_keySet (hm : m.Sound) : m.keySet.card = m.size := by
  have hnodup : (m.nodes.toList.map (·.label.key)).Nodup := by
    rw [List.Nodup, List.pairwise_map, List.pairwise_iff_getElem]
    intro i j hi hj hlt hkey
    have hi' : m.node? i = some m.nodes.toList[i] := by simp [node?]
    have hj' : m.node? j = some m.nodes.toList[j] := by simp [node?]
    have heq := hm.eq_of_key (hm.holds hi') (hm.holds hj') hkey
    have hij : i = j := by rw [← hm.place hi', ← hm.place hj', heq]
    exact Nat.ne_of_lt hlt hij
  rw [keySet, List.toFinset_card_of_nodup hnodup, List.length_map]
  rfl

/-- A model that has grown by nodes with keys in `K`, and has a node for each of these keys, has the keys
that it had and those in `K`. -/
theorem Extends.keySet_eq {K : Finset String} (h : m.Extends (fun layer => layer.key ∈ K) m')
    (hm : m.Sound) (hK : ∀ k ∈ K, ∃ n, m'.Holds n ∧ n.label.key = k) :
    m'.keySet = m.keySet ∪ K := by
  have hm' := h.sound hm
  refine Finset.ext fun k => ?_
  rw [Finset.mem_union, hm'.mem_keySet, hm.mem_keySet]
  constructor
  · rintro ⟨n, hn, rfl⟩
    rcases h.holds_or hn with hold | hnew
    · exact .inl ⟨n, hold, rfl⟩
    · exact .inr (by rwa [hm'.key hn])
  · rintro (⟨n, hn, hkey⟩ | hk)
    · exact ⟨n, h.holds hn, hkey⟩
    · exact hK k hk

theorem requestAll_grows {es : List (Expr ι)} (hm : m.Sound)
    (hP : ∀ e ∈ es, ∀ s : Expr ι, s.PartOf e → P (s.layer.map Expr.key)) :
    m.Extends P (m.requestAll es) ∧ ∀ e ∈ es, (m.requestAll es).Covers e := by
  induction es generalizing m with
  | nil => exact ⟨.refl, fun e he => absurd he List.not_mem_nil⟩
  | cons e es ih =>
      obtain ⟨⟨n, -, hst⟩, hcov⟩ := request_requested (hP e List.mem_cons_self) hm
      obtain ⟨hgrows, hcovers⟩ :=
        ih (hst.grows.sound hm) fun e' he' => hP e' (List.mem_cons_of_mem _ he')
      refine ⟨hst.grows.trans hgrows, fun e' he' => ?_⟩
      rcases List.mem_cons.mp he' with rfl | he'
      · exact hgrows.covers hcov
      · exact hcovers e' he'

/-- The keys of a model that was built from expressions are those of their parts. -/
theorem keySet_requestAll (es : List (Expr ι)) :
    (requestAll {} es).Sound ∧ (requestAll {} es).keySet = Expr.partKeys es := by
  obtain ⟨hgrows, hcovers⟩ := requestAll_grows
    (P := fun layer => layer.key ∈ Expr.partKeys es) sound_empty fun e he s hs => by
      rw [← s.key_eq]
      exact Expr.mem_partKeys.mpr ⟨e, he, s, hs, rfl⟩
  refine ⟨hgrows.sound sound_empty, ?_⟩
  rw [hgrows.keySet_eq sound_empty fun k hk => ?_]
  · exact Finset.empty_union _
  · obtain ⟨e, he, s, hs, rfl⟩ := Expr.mem_partKeys.mp hk
    exact hcovers e he s hs

/-- **Building finds what has been built.**  Building an expression in a reachable model, whatever
names are in it, gives a node with the key of the expression: the one at the place where the key was
found before, if it was.  Building it again, after whatever operations, gives the same node and leaves
the model as it is.  A model that was built from expressions has exactly the keys of their parts, and
one node for each; so it has the same keys, and as many nodes, whatever the order. -/
theorem request_canonical (hm : m.Reachable) (e : Expr ι) :
    (∃ n m', (e.request m).value = (.ok n, m') ∧ m'.node? n.label.id = some n ∧
      n.label.key = e.key ∧ (∀ i, m.lookup e.key = some i → n.label.id = i) ∧
      ∀ m'', Later m' m'' → (e.request m'').value = (.ok n, m'')) ∧
    ∀ es : List (Expr ι), (requestAll {} es).keySet = Expr.partKeys es ∧
      (requestAll {} es).size = (Expr.partKeys es).card ∧
      ∀ es', es'.Perm es → (requestAll {} es').keySet = (requestAll {} es).keySet ∧
        (requestAll {} es').size = (requestAll {} es).size := by
  have hs := hm.sound
  constructor
  · obtain ⟨⟨n, hn, hst⟩, hcov⟩ :=
      request_requested (e := e) (P := fun _ => True) (fun _ _ => trivial) hs
    have hs' := hst.grows.sound hs
    refine ⟨n, _, Prod.ext hn rfl, hst.holds, hst.key, fun i hi => ?_, fun m'' hlater => ?_⟩
    · obtain ⟨n', hn', hkey⟩ := hs.lookup_eq_some_iff.mp hi
      have hheld := hst.grows.holds (hs.holds hn')
      obtain rfl := hs'.eq_of_key hst.holds hheld (hst.key.trans hkey.symm)
      exact hs.place hn'
    · obtain ⟨hs'', hkept⟩ := hlater.sound_holds hs'
      have hcov'' : m''.Covers e := fun s hs => by
        obtain ⟨c, hc, hkey⟩ := hcov s hs
        exact ⟨c, hkept c hc, hkey⟩
      obtain ⟨n', heq, hn', hkey⟩ := request_known hs'' hcov''
      rw [heq, hs''.eq_of_key hn' (hkept n hst.holds) (hkey.trans hst.key.symm)]
  · intro es
    have hsize {es : List (Expr ι)} : (requestAll {} es).size = (Expr.partKeys es).card := by
      rw [← (keySet_requestAll es).1.card_keySet, (keySet_requestAll es).2]
    refine ⟨(keySet_requestAll es).2, hsize, fun es' hperm => ?_⟩
    have hkeys : Expr.partKeys es' = Expr.partKeys es :=
      List.toFinset_eq_of_perm _ _ ((hperm.flatMap_right Expr.parts).map Expr.key)
    rw [hsize, hsize, (keySet_requestAll es').2, (keySet_requestAll es).2, hkeys]
    exact ⟨rfl, rfl⟩

/-- `(x * 2) - -(x * 2)`, built where `x` has another type and `x * 2` is known, brings two new nodes,
and none when it is built again. -/
theorem request_canonical_shared :
    ∃ (m m' : Model) (product e : Expr Unit) (n : Node),
      m = build [.identifier "x" "long", .literal "2" "int", .binary 0 .mul 1] ∧
      product = .binary () (.identifier () "x" "int") .mul (.literal () "2" "int") ∧
      e = .binary () product .sub (.unary () .neg product) ∧
      (e.request m).value = (.ok n, m') ∧ m'.size = 5 ∧ n.label.key = e.key ∧
      (e.request (add (.group 4) m').value.2).value = (.ok n, (add (.group 4) m').value.2) ∧
      (requestAll {} [e, product]).size = 5 ∧
      (requestAll {} [product, e]).keySet = (requestAll {} [e, product]).keySet := by
  obtain ⟨m, hm⟩ : ∃ m, m = build [.identifier "x" "long", .literal "2" "int", .binary 0 .mul 1] :=
    ⟨_, rfl⟩
  obtain ⟨product, hproduct⟩ : ∃ e : Expr Unit,
    e = .binary () (.identifier () "x" "int") .mul (.literal () "2" "int") := ⟨_, rfl⟩
  obtain ⟨⟨n, m', heq, -, hkey, -, hagain⟩, hlist⟩ := request_canonical (hm ▸ reachable_build _)
    (.binary () product .sub (.unary () .neg product))
  obtain ⟨-, -, horder⟩ := hlist [.binary () product .sub (.unary () .neg product), product]
  refine ⟨m, m', product, _, n, hm, hproduct, rfl, heq, ?_, hkey,
    hagain _ (.single ⟨{}, .empty, .add (.group 4)⟩), ?_, (horder _ (.swap _ _ _)).1⟩
  · obtain ⟨-, rfl⟩ := Prod.mk.inj heq
    subst hm hproduct
    decide +kernel
  · subst hproduct
    decide +kernel

end Model

end DataBinding
