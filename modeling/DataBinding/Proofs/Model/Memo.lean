import DataBinding.Proofs.Model.Reachable

/-!
# Proofs — Models — types that are kept are the types that are found

A type is kept for a node the first time it is found, and asking for one node fills the cells of
others, also where it fails.  `Resolver.plainType` states the rules of typing for expressions with no
cells at all.  Along a run of requests for nodes and questions for types of one resolver
(`TypingRun`), the cells hold nothing but such types (`TypeCache.Exact`), so that every question has
the answer that it would have without them.

* `typeOf_fills`: whatever the resolver, a question fills cells and changes none that is filled.
* `Exact.typeIn_eq`: exact cells change no answer.
* `typing_memoized`: what is answered and what is kept along a run.
-/

namespace DataBinding

variable {R : Resolver} {s m m' : Model} {n : Node} {t t' t'' : TypeCache} {ty : Ty} {i : NodeId}
  {ε α β : Type}

/-! ### Types without cells -/

/-- The type of an expression from the types of its parts, with none of them kept. -/
def Resolver.plainType {ι : Type} (R : Resolver) : Expr ι → Except TypeError Ty
  | .literal _ _ ty => R.findType ty
  | .identifier _ _ ty => R.findType ty
  | .property _ target name => do
    let owner ← R.plainType target
    R.propertyType owner name
  | .binary _ left op right => do
    let a ← R.plainType left
    let b ← R.plainType right
    R.binaryType op a b
  | .unary _ .not _ => R.booleanType
  | .unary _ _ operand => R.plainType operand
  | .group _ inner => R.plainType inner
  | .cast _ ty _ => R.findType ty
  | .conditional _ _ positive negative => do
    let a ← R.plainType positive
    let b ← R.plainType negative
    R.commonAncestor a b
  | .assign _ target _ _ => R.plainType target

theorem Resolver.plainType_eq (R : Resolver) (n : Node) :
    R.plainType n = R.layerType (n.layer.map R.plainType) := by
  cases n with
  | unary l op operand => cases op <;> rfl
  | _ => rfl

/-! ### Cells are filled once -/

/-- There are as many cells as before, and those that were filled are as they were. -/
structure TypeCache.Keeps (t t' : TypeCache) : Prop where
  size : t'.size = t.size
  kept : ∀ {i : NodeId} {ty : Ty}, (t[i]?).join = some ty → (t'[i]?).join = some ty

theorem TypeCache.Keeps.refl : t.Keeps t := ⟨rfl, fun h => h⟩

theorem TypeCache.Keeps.trans (h₁ : t.Keeps t') (h₂ : t'.Keeps t'') : t.Keeps t'' :=
  ⟨h₂.size.trans h₁.size, fun h => h₂.kept (h₁.kept h)⟩

/-- The computation fills cells and changes none that is filled. -/
def Typing.Fills (x : Typing ε α) : Prop := ∀ t : TypeCache, t.Keeps (x t).value.2

theorem Typing.Fills.lift (answer : Except TypeError α) :
    Typing.Fills (liftM answer : Typing TypeError α) := by
  intro t
  cases answer <;> exact .refl

theorem Typing.Fills.bind {x : Typing ε α} {f : α → Typing ε β} (hx : Typing.Fills x)
    (hf : ∀ a, Typing.Fills (f a)) : Typing.Fills (x >>= f) := by
  intro t
  have hfirst := hx t
  rw [value_bind_except]
  revert hfirst
  obtain ⟨e | a, t'⟩ := (x t).value
  · exact fun hfirst => hfirst
  · exact fun hfirst => hfirst.trans (hf a t')

theorem Typing.Fills.remember {find : Typing TypeError Ty} (hfind : Typing.Fills find)
    (id : NodeId) : Typing.Fills (Typing.remember id find) := by
  intro t
  have hfirst := hfind t
  rw [Typing.remember_value]
  cases hcell : (t[id]?).join with
  | some ty => exact .refl
  | none =>
      dsimp only
      revert hfirst
      obtain ⟨e | ty, t'⟩ := (find t).value
      · exact fun hfirst => hfirst
      · intro hfirst
        refine ⟨(Array.size_setIfInBounds ..).trans hfirst.size, fun {i ty'} hi => ?_⟩
        -- the cell that is filled was empty, so it is none of those that were filled
        have hne : id ≠ i := by
          rintro rfl
          rw [hcell] at hi
          cases hi
        rw [Array.getElem?_setIfInBounds_ne hne]
        exact hfirst.kept hi

/-- Asking for a type fills cells and changes none that is filled. -/
theorem typeOf_fills (R : Resolver) (n : Node) : Typing.Fills (R.typeOf n) := by
  induction n with
  | literal | identifier | cast => exact (Typing.Fills.lift _).remember _
  | property _ _ _ ih => exact (ih.bind fun _ => .lift _).remember _
  | binary _ _ _ _ ih₁ ih₂ => exact (ih₁.bind fun _ => ih₂.bind fun _ => .lift _).remember _
  | unary _ op _ ih =>
      cases op with
      | not => exact (Typing.Fills.lift _).remember _
      | neg | bitNot => exact ih.remember _
  | group _ _ ih => exact ih.remember _
  | conditional _ _ _ _ _ ih₂ ih₃ =>
      exact (ih₂.bind fun _ => ih₃.bind fun _ => .lift _).remember _
  | assign _ _ _ _ ih _ => exact ih.remember _

/-- A question for a type starts at the cell of the node. -/
theorem exists_typeOf_eq (R : Resolver) (n : Node) :
    ∃ find, R.typeOf n = Typing.remember n.label.id find := by
  cases n with
  | unary l op operand => cases op <;> exact ⟨_, rfl⟩
  | _ => exact ⟨_, rfl⟩

/-- A type that is kept is the answer, whatever the resolver. -/
theorem typeOf_of_kept (R : Resolver) (h : (t[n.label.id]?).join = some ty) :
    (R.typeOf n t).value.1 = .ok ty := by
  obtain ⟨find, hfind⟩ := exists_typeOf_eq R n
  rw [hfind, Typing.remember_value, h]

/-- A type that is found is kept. -/
theorem kept_of_typeOf (hcell : n.label.id < t.size) (h : (R.typeOf n t).value.1 = .ok ty) :
    ((R.typeOf n t).value.2[n.label.id]?).join = some ty := by
  have hsize := (typeOf_fills R n t).size
  obtain ⟨find, hfind⟩ := exists_typeOf_eq R n
  rw [hfind, Typing.remember_value] at h hsize ⊢
  cases hheld : (t[n.label.id]?).join with
  | some ty' =>
      rw [hheld] at h
      cases h
      exact hheld
  | none =>
      rw [hheld] at h hsize
      dsimp only at h hsize ⊢
      revert hsize h
      obtain ⟨e | ty', t'⟩ := (find t).value
      · intro _ h
        cases h
      · intro hsize h
        cases h
        rw [Array.size_setIfInBounds] at hsize
        rw [Array.getElem?_setIfInBounds_self_of_lt (hsize ▸ hcell)]
        rfl

/-! ### Exact cells -/

/-- The types that are kept for nodes of the model are those that the resolver finds without cells. -/
def TypeCache.Exact (R : Resolver) (s : Model) (t : TypeCache) : Prop :=
  ∀ (n : Node) (ty : Ty), s.Holds n → (t[n.label.id]?).join = some ty → R.plainType n = .ok ty

/-- Exact cells change no answer. -/
theorem TypeCache.Exact.typeIn_eq (h : TypeCache.Exact R s t) (hs : s.Sound) (hn : s.Holds n) :
    R.typeIn t n = R.plainType n := by
  induction n using Expr.children_induction with
  | step n ih =>
      have hparts : n.layer.map (R.typeIn t) = n.layer.map R.plainType :=
        Layer.map_congr fun c hc => ih c hc (hs.child hn hc)
      rw [R.typeIn_eq, hparts, ← R.plainType_eq, TypeCache.orElse]
      cases hcell : (t[n.label.id]?).join with
      | some ty => exact (h n ty hn hcell).symm
      | none => rfl

theorem TypeCache.Exact.typeOf_eq (h : TypeCache.Exact R s t) (hs : s.Sound) (hn : s.Holds n) :
    (R.typeOf n t).value.1 = R.plainType n :=
  (typeOf_asked hs hn t).answer.trans (h.typeIn_eq hs hn)

/-- Where cells are exact, a question has the answer that the rules give without cells. -/
theorem TypeCache.Exact.nodeType_eq (h : TypeCache.Exact R s s.types) (hs : s.Sound)
    (hn : s.Holds n) : ((R.nodeType n).onModel s).value.1 = (R.plainType n).mapError .type :=
  congrArg (Except.mapError BindingError.type) (h.typeOf_eq hs hn)

/-- Cells that give the answers of exact cells are exact. -/
theorem TypeCache.Exact.of_same (h : TypeCache.Exact R s t) (hs : s.Sound)
    (hsame : SameTypes R s t t') : TypeCache.Exact R s t' := by
  intro n ty hn hcell
  have hkept : R.typeIn t' n = .ok ty := by rw [R.typeIn_eq, TypeCache.orElse, hcell]
  rw [← h.typeIn_eq hs hn, ← hsame n hn, hkept]

namespace Model

/-- There is a cell for each node, and the cells are exact. -/
structure Memoized (R : Resolver) (m : Model) : Prop where
  cells : m.types.size = m.size
  exact : TypeCache.Exact R m m.types

theorem memoized_empty (R : Resolver) : Memoized R {} where
  cells := rfl
  exact n ty h := by simp [Holds, node?] at h

/-- The cell of a new node is empty. -/
theorem Memoized.push (h : Memoized R m) (layer : Layer Node) :
    Memoized R (m.push (m.freshNode layer)) where
  cells := by simp [Model.push, h.cells, size]
  exact n ty hn hcell := by
    have hcell' : m.cachedType? n.label.id = some ty := (cachedType?_push m _ _).symm.trans hcell
    rcases holds_push.mp hn with rfl | hn
    · rw [freshNode_id, cachedType?, Array.getElem?_eq_none (Nat.le_of_eq h.cells)] at hcell'
      cases hcell'
    · exact h.exact n ty hn hcell'

theorem Extends.memoized {P : Layer String → Prop} (h : m.Extends P m') (hm : Memoized R m) :
    Memoized R m' := by
  induction h with
  | refl => exact hm
  | store layer _ _ _ _ ih => exact ih.push layer

/-- A question leaves exact cells behind, whether or not it has an answer. -/
theorem Memoized.ask (h : Memoized R m) (hs : m.Sound) (hn : m.Holds n) :
    Memoized R ((R.nodeType n).onModel m).value.2 where
  cells := (typeOf_fills R n m.types).size.trans h.cells
  exact := h.exact.of_same hs (typeOf_asked hs hn m.types).same

/-! ### Runs -/

/-- Nodes and their types are requested, one after the other, the types from allowed resolvers. -/
inductive TypingRun (allowed : Resolver → Prop) (m : Model) : Model → Prop where
  | refl : TypingRun allowed m m
  | add {m' : Model} (h : TypingRun allowed m m') (layer : Layer NodeId) :
      TypingRun allowed m (add layer m').value.2
  | ask {m' : Model} {R : Resolver} {i : NodeId} {n : Node} (h : TypingRun allowed m m')
      (hR : allowed R) (hn : m'.node? i = some n) :
      TypingRun allowed m ((R.nodeType n).onModel m').value.2

namespace TypingRun

variable {allowed : Resolver → Prop}

theorem reachable (h : TypingRun allowed m m') (hm : m.Reachable) : m'.Reachable := by
  induction h with
  | refl => exact hm
  | add _ layer ih => exact .step .empty ih (.add layer)
  | @ask _ R _ _ _ _ hn ih => exact .step .empty ih (.typeOf R hn)

theorem memoized (h : TypingRun (· = R) {} m) : Memoized R m := by
  induction h with
  | refl => exact memoized_empty R
  | add h layer ih => exact (add_grows (h.reachable .empty).sound fun _ _ => trivial).memoized ih
  | ask h hR hn ih =>
      subst hR
      have hs := (h.reachable .empty).sound
      exact ih.ask hs (hs.holds hn)

/-- A cell that is filled stays as it is. -/
theorem cachedType?_kept (h : TypingRun allowed m m') (hm : m.Reachable)
    (hcell : m.cachedType? i = some ty) : m'.cachedType? i = some ty := by
  induction h with
  | refl => exact hcell
  | add h layer ih =>
      exact ((add_grows (h.reachable hm).sound fun _ _ => trivial).cachedType?_eq i).trans ih
  | @ask m' R _ n _ _ _ ih => exact (typeOf_fills R n m'.types).kept ih

end TypingRun

/-- **Types that are kept are the types that are found.**  Take any run from the empty model that
requests nodes and asks one resolver for types.  Asking for the type of a node then gives what the
rules give without cells, be it a type or an error, and keeps a type.  A filled cell holds the type
that the rules give for its node, and the cell of a node for which they fail is empty.  Once a cell is
filled, every later question for the type of its node, of whatever resolver, has that type as its
answer. -/
theorem typing_memoized (hrun : TypingRun (· = R) {} m) (hnode : m.node? i = some n) :
    ((R.nodeType n).onModel m).value.1 = (R.plainType n).mapError .type ∧
    (∀ ty, R.plainType n = .ok ty →
      ((R.nodeType n).onModel m).value.2.cachedType? i = some ty) ∧
    (∀ ty, m.cachedType? i = some ty → R.plainType n = .ok ty) ∧
    (∀ e, R.plainType n = .error e → m.cachedType? i = none) ∧
    ∀ ty, m.cachedType? i = some ty → ∀ m' n' (R' : Resolver), TypingRun (fun _ => True) m m' →
      m'.node? i = some n' → ((R'.nodeType n').onModel m').value.1 = .ok ty := by
  have hm := hrun.reachable .empty
  have hs := hm.sound
  have hmemo := hrun.memoized
  have hn := hs.holds hnode
  obtain rfl := hs.place hnode
  refine ⟨hmemo.exact.nodeType_eq hs hn, fun ty hty => ?_,
    fun ty hcell => hmemo.exact n ty hn hcell, fun e he => ?_, fun ty hcell m' n' R' hlater hn' => ?_⟩
  · exact kept_of_typeOf (hmemo.cells ▸ node?_lt hnode) ((hmemo.exact.typeOf_eq hs hn).trans hty)
  · cases hcell : m.cachedType? n.label.id with
    | none => rfl
    | some ty => cases he.symm.trans (hmemo.exact n ty hn hcell)
  · have hkept := hlater.cachedType?_kept hm hcell
    rw [← (hlater.reachable hm).sound.place hn'] at hkept
    exact congrArg (Except.mapError BindingError.type) (typeOf_of_kept R' hkept)

/-- Asking for the type of `x + y`, where `y` has none, keeps the type of `x`; every resolver then
finds that type for `x`, and the sum still has none. -/
theorem typing_memoized_failed_sum :
    ∃ (R : Resolver) (m m' : Model) (x sum : Node), R = TypeTable.standard.resolver ∧
      m = build [.identifier "x" "long", .identifier "y" "Unknown", .binary 0 .add 1] ∧
      m.node? 0 = some x ∧ m.node? 2 = some sum ∧ m' = ((R.nodeType sum).onModel m).value.2 ∧
      TypingRun (· = R) {} m' ∧ m'.cachedType? 2 = none ∧
      ((R.nodeType sum).onModel m').value.1 = .error (.type (.typeNotFound "Unknown")) ∧
      m'.cachedType? 0 = some ⟨"long"⟩ ∧
      ∀ R' : Resolver, ((R'.nodeType x).onModel m').value.1 = .ok ⟨"long"⟩ := by
  obtain ⟨R, hR⟩ : ∃ R, R = TypeTable.standard.resolver := ⟨_, rfl⟩
  obtain ⟨m, hm⟩ : ∃ m, m = build [.identifier "x" "long", .identifier "y" "Unknown",
    .binary 0 .add 1] := ⟨_, rfl⟩
  have hbuilt : TypingRun (· = R) {} m := hm ▸ .add (.add (.add .refl _) _) _
  obtain ⟨x, hx⟩ := exists_node? (m := m) (i := 0) (by rw [hm]; decide +kernel)
  obtain ⟨sum, hsum⟩ := exists_node? (m := m) (i := 2) (by rw [hm]; decide +kernel)
  have hrun := hbuilt.ask rfl hsum
  have hplain : R.plainType sum = .error (.typeNotFound "Unknown") := by
    subst hR hm
    cases hsum
    decide +kernel
  have hcell : ((R.nodeType sum).onModel m).value.2.cachedType? 0 = some ⟨"long"⟩ := by
    subst hR hm
    cases hsum
    decide +kernel
  obtain ⟨hanswer, -, -, hempty, -⟩ := typing_memoized hrun hsum
  obtain ⟨-, -, -, -, hlater⟩ := typing_memoized hrun hx
  refine ⟨R, m, _, x, sum, hR, hm, hx, hsum, rfl, hrun, hempty _ hplain, ?_, hcell,
    fun R' => hlater _ hcell _ x R' .refl hx⟩
  rw [hanswer, hplain]
  rfl

end Model

end DataBinding
