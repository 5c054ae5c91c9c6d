import DataBinding.Model.Typing
import DataBinding.Proofs.Model.Sound

/-!
# Proofs — Models — types are kept

Asking for a type fills the cells of a model as a side effect.  `Resolver.typeIn` is the answer
without the effect: the type that is kept for the node, or else what the rule for its layer gives for
the answers of its parts.

Filling a cell with the answer for its node changes no answer (`SameTypes.fill`), so the cells that
asking leaves behind give the same answers as those it found (`typeOf_asked`).  Whatever is composed
of such questions is `Stable`: its outcome does not depend on what has been asked before.
-/

namespace DataBinding

/-- Where a computation has a value, what it begins with has one. -/
theorem bind_ok {ε α β : Type} {x : Except ε α} {f : α → Except ε β} {b : β}
    (h : x >>= f = .ok b) : ∃ a, x = .ok a ∧ f a = .ok b := by
  cases x with
  | error e => cases h
  | ok a => exact ⟨a, rfl, h⟩

/-- What holds of any value that a computation may have holds of the value that it has. -/
theorem exists_ok {ε α : Type} {r : Except ε α} {P : α → Prop} (hok : r.isOk = true)
    (h : ∀ a, r = .ok a → P a) : ∃ a, r = .ok a ∧ P a := by
  cases r with
  | error => cases hok
  | ok a => exact ⟨a, rfl, h a rfl⟩

/-- The outcome of one computation after another. -/
theorem value_bind_except {ε σ α β : Type} (x : ExceptT ε (StateT σ Logged) α)
    (f : α → ExceptT ε (StateT σ Logged) β) (s : σ) :
    ((x >>= f) s).value =
      match (x s).value with
      | (.ok a, s) => (f a s).value
      | (.error e, s) => (.error e, s) := by
  have h : ((x >>= f) s).value =
      ((match (x s).value.1 with
        | .ok a => f a
        | .error e => (pure (.error e) : StateT σ Logged (Except ε β))) (x s).value.2).value := rfl
  rw [h]
  obtain ⟨⟨r, s'⟩, events⟩ := x s
  cases r <;> rfl

/-- The outcome of one computation after another, where none can fail. -/
theorem value_bind_state {σ α β : Type} (x : StateT σ Logged α) (f : α → StateT σ Logged β) (s : σ) :
    ((x >>= f) s).value = (f (x s).value.1 (x s).value.2).value := rfl

theorem value_bind_ok_iff {ε σ α β : Type} {x : ExceptT ε (StateT σ Logged) α}
    {f : α → ExceptT ε (StateT σ Logged) β} {s : σ} {b : β} :
    ((x >>= f) s).value.1 = .ok b ↔
      ∃ a, (x s).value.1 = .ok a ∧ (f a (x s).value.2).value.1 = .ok b := by
  rw [value_bind_except]
  obtain ⟨e | a, s'⟩ := (x s).value <;> simp

variable {R : Resolver} {s : Model} {n : Node} {t t' t'' : TypeCache} {ε α β : Type}

/-! ### Answers -/

/-- The type of a node from the answers of its parts. -/
def Resolver.layerType (R : Resolver) : Layer (Except TypeError Ty) → Except TypeError Ty
  | .literal _ ty | .identifier _ ty | .cast ty _ => R.findType ty
  | .property target name => do R.propertyType (← target) name
  | .binary left op right => do R.binaryType op (← left) (← right)
  | .unary .not _ => R.booleanType
  | .unary _ operand => operand
  | .group inner => inner
  | .conditional _ positive negative => do R.commonAncestor (← positive) (← negative)
  | .assign target _ _ => target

/-- The type in the cell, or else the one given. -/
def TypeCache.orElse (t : TypeCache) (id : NodeId) (found : Except TypeError Ty) :
    Except TypeError Ty :=
  match (t[id]?).join with
  | some ty => .ok ty
  | none => found

/-- The type of a node, where the given types are kept. -/
def Resolver.typeIn (R : Resolver) (t : TypeCache) : Node → Except TypeError Ty
  | .literal l text ty => t.orElse l.id (R.layerType (.literal text ty))
  | .identifier l name ty => t.orElse l.id (R.layerType (.identifier name ty))
  | .property l target name => t.orElse l.id (R.layerType (.property (R.typeIn t target) name))
  | .binary l left op right =>
    t.orElse l.id (R.layerType (.binary (R.typeIn t left) op (R.typeIn t right)))
  | .unary l op operand => t.orElse l.id (R.layerType (.unary op (R.typeIn t operand)))
  | .group l inner => t.orElse l.id (R.layerType (.group (R.typeIn t inner)))
  | .cast l ty operand => t.orElse l.id (R.layerType (.cast ty (R.typeIn t operand)))
  | .conditional l condition positive negative =>
    t.orElse l.id (R.layerType
      (.conditional (R.typeIn t condition) (R.typeIn t positive) (R.typeIn t negative)))
  | .assign l target value context =>
    t.orElse l.id (R.layerType (.assign (R.typeIn t target) (R.typeIn t value) context))

theorem Resolver.typeIn_eq (R : Resolver) (t : TypeCache) (n : Node) :
    R.typeIn t n = t.orElse n.label.id (R.layerType (n.layer.map (R.typeIn t))) := by
  cases n <;> rfl

/-- Two states of the cells give the same answers for the nodes of the model. -/
def SameTypes (R : Resolver) (s : Model) (t t' : TypeCache) : Prop :=
  ∀ n, s.Holds n → R.typeIn t' n = R.typeIn t n

theorem SameTypes.refl : SameTypes R s t t := fun _ _ => rfl

theorem SameTypes.symm (h : SameTypes R s t t') : SameTypes R s t' t := fun n hn => (h n hn).symm

theorem SameTypes.trans (h₁ : SameTypes R s t t') (h₂ : SameTypes R s t' t'') :
    SameTypes R s t t'' := fun n hn => (h₂ n hn).trans (h₁ n hn)

/-- **Filling a cell with the answer for its node changes no answer.** -/
theorem SameTypes.fill (hs : s.Sound) (hn : s.Holds n) {ty : Ty} (h : R.typeIn t n = .ok ty) :
    SameTypes R s t (t.setIfInBounds n.label.id (some ty)) := by
  intro n' hn'
  induction n' using Expr.children_induction with
  | step n' ih =>
      have hparts : n'.layer.map (R.typeIn (t.setIfInBounds n.label.id (some ty))) =
          n'.layer.map (R.typeIn t) :=
        Layer.map_congr fun a ha => ih a ha (hs.child hn' ha)
      by_cases hid : n'.label.id = n.label.id
      · obtain rfl := hn'.eq_of_id hn hid
        rw [h, R.typeIn_eq, hparts, TypeCache.orElse]
        by_cases hlt : n'.label.id < t.size
        · simp [hlt]
        -- a node outside the cells keeps no type
        · rw [Array.setIfInBounds_def, dif_neg hlt, ← TypeCache.orElse, ← R.typeIn_eq, h]
      · rw [R.typeIn_eq, R.typeIn_eq t, hparts, TypeCache.orElse, TypeCache.orElse,
          Array.getElem?_setIfInBounds_ne (Ne.symm hid)]

/-! ### Questions -/

/-- The outcome of asking: the given answer, and cells that give the same answers as before. -/
structure Asked (R : Resolver) (s : Model) (t : TypeCache) (answer : Except ε α)
    (r : Except ε α × TypeCache) : Prop where
  answer : r.1 = answer
  same : SameTypes R s t r.2

theorem Typing.remember_value (id : NodeId) (find : Typing TypeError Ty) (t : TypeCache) :
    (Typing.remember id find t).value =
      match (t[id]?).join with
      | some ty => (.ok ty, t)
      | none =>
        match (find t).value with
        | (.ok ty, t) => (.ok ty, t.setIfInBounds id (some ty))
        | (.error e, t) => (.error e, t) := by
  unfold Typing.remember
  rw [value_bind_except]
  change ((match (t[id]?).join with | some ty => _ | none => _ : Typing TypeError Ty) t).value = _
  cases (t[id]?).join with
  | some ty => rfl
  | none =>
      dsimp only
      rw [value_bind_except]
      obtain ⟨e | ty, t'⟩ := (find t).value <;> rfl

theorem remember_asked (hs : s.Sound) (hn : s.Holds n) {find : Typing TypeError Ty}
    (hfind : Asked R s t (R.layerType (n.layer.map (R.typeIn t))) (find t).value) :
    Asked R s t (R.typeIn t n) (Typing.remember n.label.id find t).value := by
  have heq := R.typeIn_eq t n
  rw [TypeCache.orElse] at heq
  rw [Typing.remember_value]
  cases hcell : (t[n.label.id]?).join with
  | some ty =>
      rw [hcell] at heq
      exact ⟨heq.symm, .refl⟩
  | none =>
      rw [hcell] at heq
      obtain ⟨hanswer, hsame⟩ := hfind
      revert hanswer hsame
      obtain ⟨e | ty, t'⟩ := (find t).value
      · exact fun hanswer hsame => ⟨hanswer.trans heq.symm, hsame⟩
      · intro hanswer hsame
        -- what is written is the answer for the node also where its parts have been asked
        have hty : R.typeIn t' n = .ok ty := (hsame n hn).trans (heq.trans hanswer.symm)
        exact ⟨hanswer.trans heq.symm, hsame.trans (.fill hs hn hty)⟩

/-- One question after another. -/
theorem Asked.bind {x : Typing ε α} {f : α → Typing ε β} {answer : Except ε α}
    {g : α → Except ε β} (hx : Asked R s t answer (x t).value)
    (hf : ∀ a t', SameTypes R s t t' → Asked R s t' (g a) (f a t').value) :
    Asked R s t (answer >>= g) ((x >>= f) t).value := by
  obtain ⟨rfl, hsame⟩ := hx
  rw [value_bind_except]
  revert hsame
  obtain ⟨e | a, t'⟩ := (x t).value
  · exact fun hsame => ⟨rfl, hsame⟩
  · intro hsame
    obtain ⟨hanswer, hsame'⟩ := hf a t' hsame
    exact ⟨hanswer, hsame.trans hsame'⟩

/-- A question that only the resolver is asked. -/
theorem asked_lift (answer : Except TypeError α) :
    Asked R s t answer ((liftM answer : Typing TypeError α) t).value := by
  cases answer <;> exact ⟨rfl, .refl⟩

/-- Asking for a type gives the answer. -/
theorem typeOf_asked (hs : s.Sound) (hn : s.Holds n) (t : TypeCache) :
    Asked R s t (R.typeIn t n) (R.typeOf n t).value := by
  -- an answer for a part is the same after other parts have been asked
  have later {a : Node} (ha : s.Holds a)
      (ih : ∀ t, Asked R s t (R.typeIn t a) (R.typeOf a t).value) {t t' : TypeCache}
      (h : SameTypes R s t t') : Asked R s t' (R.typeIn t a) (R.typeOf a t').value :=
    h a ha ▸ ih t'
  induction n using Expr.children_induction generalizing t with
  | step n ih =>
      have part {a : Node} (ha : a ∈ n.children) (t : TypeCache) :=
        ih a ha (hs.child hn ha) t
      cases n with
      | literal l text ty => exact remember_asked hs hn (asked_lift (R.findType ty))
      | identifier l name ty => exact remember_asked hs hn (asked_lift (R.findType ty))
      | cast l ty operand => exact remember_asked hs hn (asked_lift (R.findType ty))
      | property l target name =>
          exact remember_asked hs hn ((part (List.mem_singleton_self target) t).bind
            fun owner _ _ => asked_lift (R.propertyType owner name))
      | binary l left op right =>
          have hright : right ∈ (Expr.binary l left op right).children := by
            simp [Expr.children, Expr.layer, Layer.children]
          refine remember_asked hs hn ((part List.mem_cons_self t).bind fun a t' h => ?_)
          exact (later (hs.child hn hright) (part hright) h).bind
            fun b _ _ => asked_lift (R.binaryType op a b)
      | unary l op operand =>
          cases op with
          | not => exact remember_asked hs hn (asked_lift R.booleanType)
          | neg | bitNot => exact remember_asked hs hn (part (List.mem_singleton_self operand) t)
      | group l inner => exact remember_asked hs hn (part (List.mem_singleton_self inner) t)
      | conditional l condition positive negative =>
          have hnegative : negative ∈ (Expr.conditional l condition positive negative).children := by
            simp [Expr.children, Expr.layer, Layer.children]
          have hpositive : positive ∈ (Expr.conditional l condition positive negative).children := by
            simp [Expr.children, Expr.layer, Layer.children]
          refine remember_asked hs hn ((part hpositive t).bind fun a t' h => ?_)
          exact (later (hs.child hn hnegative) (part hnegative) h).bind
            fun b _ _ => asked_lift (R.commonAncestor a b)
      | assign l target value context =>
          exact remember_asked hs hn (part List.mem_cons_self t)

/-! ### Computations that ask -/

/-- The outcome depends on the answers that the cells give, not on which of them are filled, and the
answers stay the same. -/
def Stable (R : Resolver) (s : Model) (x : Typing ε α) : Prop :=
  ∀ t t', SameTypes R s t t' → Asked R s t (x t).value.1 (x t').value

namespace Stable

theorem pure (a : α) : Stable R s (pure a : Typing ε α) := fun _ _ h => ⟨rfl, h⟩

theorem throw (e : ε) : Stable R s (throw e : Typing ε α) := fun _ _ h => ⟨rfl, h⟩

theorem bind {x : Typing ε α} {f : α → Typing ε β} (hx : Stable R s x)
    (hf : ∀ a, Stable R s (f a)) : Stable R s (x >>= f) := by
  intro t t' h
  obtain ⟨hanswer, hsame⟩ := hx t t' h
  obtain ⟨-, hstart⟩ := hx t t .refl
  rw [value_bind_except, value_bind_except]
  revert hanswer hsame hstart
  obtain ⟨e | a, t₁⟩ := (x t).value <;> obtain ⟨e' | a', t₁'⟩ := (x t').value <;>
    intro hanswer hsame hstart <;> cases hanswer
  · exact ⟨rfl, hsame⟩
  · obtain ⟨hanswer', hsame'⟩ := hf a t₁ t₁' (hstart.symm.trans hsame)
    exact ⟨hanswer', hstart.trans hsame'⟩

theorem typeOf (hs : s.Sound) (hn : s.Holds n) : Stable R s (R.typeOf n) := by
  intro t t' h
  obtain ⟨hanswer, hsame⟩ := typeOf_asked (R := R) hs hn t'
  rw [(typeOf_asked hs hn t).answer]
  exact ⟨hanswer.trans (h n hn), h.trans hsame⟩

theorem nodeType (hs : s.Sound) (hn : s.Holds n) : Stable R s (R.nodeType n) := by
  intro t t' h
  obtain ⟨hanswer, hsame⟩ := Stable.typeOf (R := R) hs hn t t' h
  exact ⟨congrArg (Except.mapError BindingError.type) hanswer, hsame⟩

end Stable

end DataBinding
