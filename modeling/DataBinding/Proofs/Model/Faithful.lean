import DataBinding.Proofs.Model.Reachable

/-!
# Proofs — Models — requests and answers

A request for a node is answered by its key, and the names of types, properties and classes stand in
keys as they are.  So the answer is what was asked for (`Expr.Answers`) unless a node with the same
key and other parts is there already.

* `Layer.undeclared_eq_of_key`: the keys of identifiers, unary operators and groups tell them apart
  from everything else, whatever names the model holds.
* `Sound.answers_of_delimited`: so do all keys where names are delimited.
* `add_faithful`: when the answer is what was asked for.
* `add_mistakes_chain`: a property chain that is taken for another.
-/

namespace DataBinding

variable {α β : Type}

namespace Layer

/-! ### Layers up to declared types -/

/-- The node without the declared type of an identifier. -/
def undeclared : Layer α → Layer α
  | identifier name _ => identifier name ""
  | layer => layer

/-- Layers are the same if they are so over the images of their children under a map that tells
these apart. -/
theorem undeclared_eq_of_map {f : α → β} {a b : Layer α}
    (hf : ∀ x ∈ a.children, ∀ y ∈ b.children, f x = f y → x = y)
    (h : (a.map f).undeclared = (b.map f).undeclared) : a.undeclared = b.undeclared := by
  cases a <;> cases b <;> simp_all [map, undeclared, children]

theorem undeclared_map (f : α → β) (layer : Layer α) :
    (layer.map f).undeclared = layer.undeclared.map f := by
  cases layer <;> rfl

/-- The key of the node tells where each of its parts ends, whatever the parts are. -/
def SelfEnding : Layer α → Prop
  | identifier _ _ | unary _ _ | group _ => True
  | literal _ _ | property _ _ | binary _ _ _ | cast _ _ | conditional _ _ _ | assign _ _ _ => False

theorem selfEnding_map {f : α → β} (layer : Layer α) :
    (layer.map f).SelfEnding ↔ layer.SelfEnding := by
  cases layer <;> exact Iff.rfl

/-- Identifiers, unary operators and groups are told apart by their keys from all other nodes. -/
theorem undeclared_eq_of_key {a b : Layer String} (ha : a.SelfEnding) (h : a.key = b.key) :
    a.undeclared = b.undeclared := by
  have hlist := congrArg String.toList h
  have htag : a.tag = b.tag := tag_eq_of_key_append (congrArg (· ++ []) hlist)
  cases a with
  | identifier name ty =>
      cases b with
      | identifier name' ty' =>
          have hparts : Nat.toDigits 10 name.utf8ByteSize ++ ':' :: (name.toList ++ []) =
              Nat.toDigits 10 name'.utf8ByteSize ++ ':' :: (name'.toList ++ []) := by
            simpa [key, tag, Key.toList_leaf] using hlist
          rw [(Key.append_leaf_inj hparts).1]
          rfl
      | _ => exact absurd htag (by simp [tag])
  | unary op operand =>
      cases b with
      | unary op' operand' =>
          have hparts : op.symbol.toList ++ '~' :: (operand.toList ++ [')']) =
              op'.symbol.toList ++ '~' :: (operand'.toList ++ [')']) := by
            simpa [key, tag, Key.toList_join] using hlist
          obtain ⟨rfl, hrest⟩ := UnaryOp.symbol_append_inj hparts
          rw [String.toList_injective (List.append_cancel_right (List.cons.inj hrest).2)]
      | _ => exact absurd htag (by simp [tag])
  | group inner =>
      cases b with
      | group inner' =>
          have hparts : inner.toList ++ [')'] = inner'.toList ++ [')'] := by
            simpa [key, tag, Key.toList_join] using hlist
          rw [String.toList_injective (List.append_cancel_right hparts)]
      | _ => exact absurd htag (by simp [tag])
  | literal | property | binary | cast | conditional | assign => exact ha.elim

end Layer

theorem Expr.layer_bare {ι : Type} (e : Expr ι) : e.bare.layer = (e.layer.map bare).undeclared := by
  cases e <;> rfl

/-! ### Answers -/

/-- The node is what the request asks for: the same shape, operator, texts and names over the same
places.  An identifier may have been declared with another type. -/
def Expr.Answers (n : Node) (request : Layer NodeId) : Prop :=
  (n.layer.map (·.label.id)).undeclared = request.undeclared

instance (n : Node) (request : Layer NodeId) : Decidable (n.Answers request) :=
  inferInstanceAs (Decidable (_ = _))

namespace Model

variable {m : Model} {n : Node} {request : Layer Node}

/-- Expressions that are the same when bare are the same node of a model. -/
theorem Sound.eq_of_bare (hm : m.Sound) {a b : Node} (ha : m.Holds a) (hb : m.Holds b)
    (h : a.bare = b.bare) : a = b := by
  refine hm.eq_of_key ha hb ?_
  rw [hm.label_key ha, hm.label_key hb, Expr.key_eq_of_bare h]

/-- What tells the nodes of the model apart tells a node from what a request asks for. -/
theorem Sound.answers_of_map (hm : m.Sound) {f : Node → β}
    (hf : ∀ {a b : Node}, m.Holds a → m.Holds b → f a = f b → a = b) (hn : m.Holds n)
    (hc : ∀ c ∈ request.children, m.Holds c)
    (h : (n.layer.map f).undeclared = (request.map f).undeclared) :
    n.Answers (request.map (·.label.id)) := by
  have heq : n.layer.undeclared = request.undeclared :=
    Layer.undeclared_eq_of_map (fun a ha b hb => hf (hm.child hn ha) (hc b hb)) h
  rw [Expr.Answers, Layer.undeclared_map, heq, ← Layer.undeclared_map]

/-- A request for an identifier, a unary operator or a group finds no other node. -/
theorem Sound.answers_of_selfEnding (hm : m.Sound) (hn : m.Holds n)
    (hc : ∀ c ∈ request.children, m.Holds c) (hself : request.SelfEnding)
    (hkey : n.label.key = requestKey request) : n.Answers (request.map (·.label.id)) := by
  refine hm.answers_of_map hm.eq_of_key hn hc (Layer.undeclared_eq_of_key ?_ ?_).symm
  · exact (Layer.selfEnding_map request).mpr hself
  · rw [← hm.key hn, hkey, requestKey]

/-- A request with delimited names finds no other node of a model with delimited names. -/
theorem Sound.answers_of_delimited (hm : m.Sound) (hd : m.Delimited) (hn : m.Holds n)
    (hc : ∀ c ∈ request.children, m.Holds c) (hreq : request.Delimited)
    (hkey : n.label.key = requestKey request) : n.Answers (request.map (·.label.id)) := by
  have hexpr : (request.expr n.label).Delimited := by
    refine (Expr.every_iff _).mpr ⟨?_, fun c hmem => ?_⟩
    · rw [Expr.layer_expr]
      exact (Layer.delimited_map request).mpr hreq
    · rw [Expr.children, Expr.layer_expr] at hmem
      exact hm.every hd (hc c hmem)
  have hbare : n.bare = (request.expr n.label).bare := by
    refine hm.bare_eq_of_key hd hn hexpr (hkey.trans ?_)
    exact requestKey_eq (fun c hmem => hm.label_key (hc c hmem)) n.label
  have hlayers := congrArg Expr.layer hbare
  rw [Expr.layer_bare, Expr.layer_bare, Expr.layer_expr] at hlayers
  exact hm.answers_of_map hm.eq_of_bare hn hc hlayers

/-- A new node is what was asked for. -/
theorem answers_freshNode (m : Model) (request : Layer Node) :
    (m.freshNode request).Answers (request.map (·.label.id)) := by
  rw [Expr.Answers, layer_freshNode]

/-- **When the answer is what was asked for.**  A request over nodes of the model is answered with a
node of the model.  The answer is what was asked for exactly if all nodes with its key that were
there before are; this is so for every identifier, unary operator and group, and where all names are
delimited for every request. -/
theorem add_faithful (hm : m.Reachable) {layer : Layer NodeId}
    (hc : ∀ i ∈ layer.children, i < m.size) :
    ∃ n, (add layer m).value.1 = .ok n ∧ (add layer m).value.2.node? n.label.id = some n ∧
      (n.Answers layer ↔ ∀ other, m.Holds other → other.label.key = n.label.key →
        other.Answers layer) ∧
      (layer.SelfEnding → n.Answers layer) ∧
      (m.Delimited → layer.Delimited → n.Answers layer) := by
  have hs := hm.sound
  obtain ⟨request, rfl, hheld⟩ := hs.exists_request hc
  rw [add_value hheld, Layer.selfEnding_map, Layer.delimited_map]
  refine ⟨_, rfl, (intern_stored (P := fun _ => True) hs trivial hheld).holds, ?_⟩
  rcases intern_cases request m with ⟨n, hget, heq⟩ | ⟨hfree, heq⟩ <;> rw [heq]
  · obtain ⟨hn, hkey⟩ := hs.entry.mp hget
    refine ⟨⟨fun h other hother hsame => ?_, fun h => h n hn rfl⟩,
      fun hself => hs.answers_of_selfEnding hn hheld hself hkey,
      fun hd hreq => hs.answers_of_delimited hd hn hheld hreq hkey⟩
    rwa [hs.eq_of_key hother hn hsame]
  · have hfresh := answers_freshNode m request
    refine ⟨⟨fun _ other hother hsame => ?_, fun _ => hfresh⟩, fun _ => hfresh, fun _ _ => hfresh⟩
    rw [freshNode_key] at hsame
    exact absurd (hs.entry.mpr ⟨hother, hsame⟩) (by simp [hfree])

/-- A second request for a property of a redeclared variable, whose names hold most of what keys are
made with, is answered with the node of the first. -/
theorem add_faithful_redeclared :
    ∃ m n, m = build [.identifier "x(~:)" "User", .property 0 "a(~:b", .identifier "x(~:)" "Admin"] ∧
      (∀ i ∈ (Layer.property 0 "a(~:b").children, i < m.size) ∧
      (add (.property 0 "a(~:b") m).value.1 = .ok n ∧ n.Answers (.property 0 "a(~:b") := by
  refine ⟨_, _, rfl, by decide +kernel, rfl, ?_⟩
  have hchildren : ∀ i ∈ (Layer.property 0 "a(~:b").children,
      i < (build [.identifier "x(~:)" "User", .property 0 "a(~:b",
        .identifier "x(~:)" "Admin"]).size := by decide +kernel
  obtain ⟨n, hn, -, -, -, hanswers⟩ := add_faithful (reachable_build _) hchildren
  cases hn
  exact hanswers (delimited_build (by decide)) (by decide)

/-- Where the chain `x.a` has a property `b)~c`, a request for the property `c` of another chain is
answered with that property: both have the key `field(field(id:1:x~a)~b)~c)`. -/
theorem add_mistakes_chain :
    ∃ m n, m = build [.identifier "x" "User", .property 0 "a", .property 1 "b)~c",
        .property 0 "a)~b"] ∧
      (∀ i ∈ (Layer.property 3 "c").children, i < m.size) ∧
      (add (.property 3 "c") m).value.1 = .ok n ∧ ¬ n.Answers (.property 3 "c") ∧
      n.path? = some "x.a.b)~c" := by
  refine ⟨_, _, rfl, by decide +kernel, rfl, by decide +kernel, by decide +kernel⟩

end Model

end DataBinding
