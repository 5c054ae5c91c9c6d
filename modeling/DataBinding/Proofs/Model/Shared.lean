import DataBinding.Proofs.Model.Canonical

/-!
# Proofs — Models — copying is building

Copying goes through the parts of a node and keeps a table of the copies made, so that a part which
occurs several times is copied once.  Building an expression keeps no such table and requests a part
each time that it occurs.  The outcome is the same: where the table gives a copy, all parts of the
original have been requested before, and requesting them again finds the same node and stores nothing.

* `copyShared_built`: the table makes no difference.
* `copy_eq_request`: a copy of a node is the node that building it gives.
* `copy_again`: copying again, after others, finds the copy.
* `Repeats`: the same of requests and of what is put together from them.
-/

namespace DataBinding

variable {s m m' : Model} {P : Layer String → Prop} {copies : Copies} {n : Node}

/-- The copies made so far are what building their originals would give: all parts of an original have
been built, and its copy has its key. -/
def Copies.Built (s m : Model) (copies : Copies) : Prop :=
  ∀ (i : NodeId) (d : Node), copies[i]? = some d →
    ∃ n, s.node? i = some n ∧ m.Covers n ∧ m.Holds d ∧ d.label.key = n.key

theorem Copies.built_empty (s m : Model) : Copies.Built s m ∅ := by
  intro i d h
  simp at h

theorem Copies.Built.mono (h : Copies.Built s m copies) (hg : m.Extends P m') :
    Copies.Built s m' copies := by
  intro i d hd
  obtain ⟨n, hn, hcov, hheld, hkey⟩ := h i d hd
  exact ⟨n, hn, hg.covers hcov, hg.holds hheld, hkey⟩

/-- The outcome of copying the node `n`: what building it gives, and a table of copies. -/
structure BuiltCopy (s : Model) (n : Node) (m : Model) (r : (Node × Copies) × Model) : Prop where
  request : (n.request m).value = (.ok r.1.1, r.2)
  table : Copies.Built s r.2 r.1.2

/-- What building an expression gives. -/
theorem request_built (hm : m.Sound) (e : Node) {d : Node} (h : (e.request m).value = (.ok d, m')) :
    m.Extends (fun _ => True) m' ∧ m'.Covers e ∧ m'.Holds d ∧ d.label.key = e.key := by
  obtain ⟨⟨d', hd', hst⟩, hcov⟩ :=
    Model.request_requested (e := e) (P := fun _ => True) (fun _ _ => trivial) hm
  rw [h] at hd' hst hcov
  cases hd'
  exact ⟨hst.grows, hcov, hst.holds, hst.key⟩

/-- What building the parts of a layer gives. -/
theorem mapM_request_built (hm : m.Sound) (layer : Layer Node) {request : Layer Node}
    (h : (layer.mapM Expr.request m).value = (.ok request, m')) :
    Model.RequestedLayer (fun _ => True) m layer request m' := by
  obtain ⟨request', m₁, heq, hrequested⟩ := Model.mapM_requested (P := fun _ => True) layer
    (fun c _ _ hm => Model.request_requested (fun _ _ => trivial) hm) hm
  rw [h] at heq
  cases heq
  exact hrequested

/-- The copy made before is the one that building would find. -/
theorem once_built {make : Copying Node} (hn : s.Holds n) (hm : m.Sound)
    (ht : Copies.Built s m copies) (hmake : BuiltCopy s n m (make copies m).value) :
    BuiltCopy s n m (once n.label.id make copies m).value := by
  rcases once_cases n.label.id make copies m with ⟨d, hd, heq⟩ | heq <;> rw [heq]
  · obtain ⟨n', hn', hcov, hheld, hkey⟩ := ht _ d hd
    obtain rfl : n = n' := Option.some.inj (hn.symm.trans hn')
    obtain ⟨d', hreq, hheld', hkey'⟩ := Model.request_known hm hcov
    obtain rfl := hm.eq_of_key hheld hheld' (hkey.trans hkey'.symm)
    exact ⟨hreq, ht⟩
  · refine ⟨hmake.request, fun i d hd => ?_⟩
    rw [Std.TreeMap.getElem?_insert] at hd
    split at hd
    · rename_i hi
      obtain rfl : n.label.id = i := by simpa using hi
      cases hd
      exact ⟨n, hn, (request_built hm n hmake.request).2⟩
    · exact hmake.table i d hd

/-- The outcome of copying the children of a layer, one after the other. -/
structure BuiltLayer (s : Model) (layer : Layer Node) (m : Model) (r : (Layer Node × Copies) × Model) :
    Prop where
  request : (layer.mapM Expr.request m).value = (.ok r.1.1, r.2)
  table : Copies.Built s r.2 r.1.2

theorem mapM_built (layer : Layer Node)
    (ih : ∀ c ∈ layer.children, ∀ {copies : Copies} {m : Model}, m.Sound →
      Copies.Built s m copies → BuiltCopy s c m (c.copyShared copies m).value)
    (hm : m.Sound) (ht : Copies.Built s m copies) :
    BuiltLayer s layer m (layer.mapM Expr.copyShared copies m).value := by
  cases layer with
  | literal text ty | identifier text ty => exact ⟨rfl, ht⟩
  | property a _ | unary _ a | group a | cast _ a =>
      have ha := ih a (by simp [Layer.children]) hm ht
      refine ⟨?_, ha.table⟩
      rw [Layer.mapM, value_bind_except, ha.request]
      rfl
  | binary a _ b | assign a b _ =>
      have ha := ih a (by simp [Layer.children]) hm ht
      have hm₁ := (request_built hm a ha.request).1.sound hm
      have hb := ih b (by simp [Layer.children]) hm₁ ha.table
      refine ⟨?_, hb.table⟩
      rw [Layer.mapM, value_bind_except, ha.request]
      dsimp only
      rw [value_bind_except, hb.request]
      rfl
  | conditional a b d =>
      have ha := ih a (by simp [Layer.children]) hm ht
      have hm₁ := (request_built hm a ha.request).1.sound hm
      have hb := ih b (by simp [Layer.children]) hm₁ ha.table
      have hm₂ := (request_built hm₁ b hb.request).1.sound hm₁
      have hd := ih d (by simp [Layer.children]) hm₂ hb.table
      refine ⟨?_, hd.table⟩
      rw [Layer.mapM, value_bind_except, ha.request]
      dsimp only
      rw [value_bind_except, hb.request]
      dsimp only
      rw [value_bind_except, hd.request]
      rfl

/-- **The table makes no difference.** -/
theorem copyShared_built (hs : s.Sound) (hn : s.Holds n) (hm : m.Sound)
    (ht : Copies.Built s m copies) : BuiltCopy s n m (n.copyShared copies m).value := by
  induction n using Expr.children_induction generalizing copies m with
  | step n ih =>
      rw [copyShared_eq]
      refine once_built hn hm ht ?_
      have hl := mapM_built n.layer (fun c hc _ _ hm ht => ih c hc (hs.child hn hc) hm ht) hm ht
      have hrequested := mapM_request_built hm n.layer hl.request
      refine ⟨?_, hl.table.mono (Model.intern_stored (P := fun _ => True)
        (hrequested.grows.sound hm) trivial hrequested.holds).grows⟩
      rw [n.request_eq, value_bind_except, hl.request]
      dsimp only
      rw [Model.add_value hrequested.holds]
      rfl

/-- **Copying is building.**  A copy of a node of a sound model is the node that building it gives, and
leaves the same destination. -/
theorem copy_eq_request (hs : s.Sound) (hn : s.Holds n) (hm : m.Sound) :
    (n.request m).value = (.ok (n.copy m).value.1, (n.copy m).value.2) :=
  (copyShared_built hs hn hm (Copies.built_empty s m)).request

/-- Copying again, after others, finds the copy and stores nothing. -/
theorem copy_again (hs : s.Sound) (hn : s.Holds n) (hm : m.Sound)
    (hg : (n.copy m).value.2.Extends P m') :
    (n.copy m').value = ((n.copy m).value.1, m') := by
  obtain ⟨hgrows, hcov, hheld, hkey⟩ := request_built hm n (copy_eq_request hs hn hm)
  have hm' := hg.sound (hgrows.sound hm)
  obtain ⟨d, hreq, hheld', hkey'⟩ := Model.request_known hm' (hg.covers hcov)
  obtain rfl := hm'.eq_of_key (hg.holds hheld) hheld' (hkey.trans hkey'.symm)
  obtain ⟨hcopy, hsame⟩ := Prod.mk.inj (hreq.symm.trans (copy_eq_request hs hn hm'))
  exact Prod.ext (Except.ok.inj hcopy).symm hsame.symm

/-! ### Building again -/

/-- Once the computation has been run on `m`, running it again, after others that build, has the same
result and stores nothing. -/
def Repeats {α : Type} (x : ExceptT BindingError Building α) (m : Model) : Prop :=
  ∀ m', (x m).value.2.Extends (fun _ => True) m' → (x m').value = ((x m).value.1, m')

namespace Repeats

variable {α β : Type} {x : ExceptT BindingError Building α}

theorem pure (a : α) (m : Model) : Repeats (pure a) m := fun _ _ => rfl

theorem bind {f : α → ExceptT BindingError Building β} (hx : Repeats x m)
    (hf : ∀ a, (x m).value.1 = .ok a → Repeats (f a) (x m).value.2 ∧
      (x m).value.2.Extends (fun _ => True) (f a (x m).value.2).value.2) :
    Repeats (x >>= f) m := by
  intro m' hg
  rw [value_bind_except] at hg
  rw [value_bind_except, value_bind_except]
  rcases hfirst : (x m).value with ⟨e | a, m₁⟩
  · rw [hfirst] at hg
    rw [hx m' (by rw [hfirst]; exact hg), hfirst]
  · rw [hfirst] at hg hf
    obtain ⟨hrest, hgrows⟩ := hf a rfl
    rw [hx m' (by rw [hfirst]; exact hgrows.trans hg), hfirst]
    exact hrest m' hg

theorem copy (hs : s.Sound) (hn : s.Holds n) (hm : m.Sound) :
    Repeats (liftM n.copy : ExceptT BindingError Building Node) m := by
  intro m' hg
  exact congrArg (fun r : Node × Model => (Except.ok r.1, r.2)) (copy_again hs hn hm hg)

/-- A request over nodes of the model finds what it has stored. -/
theorem add {layer : Layer Node} (hm : m.Sound) (hc : ∀ c ∈ layer.children, m.Holds c) :
    Repeats (Model.add (layer.map (·.label.id))) m := by
  intro m' hg
  have hst := Model.intern_stored (P := fun _ => True) hm trivial hc
  rw [Model.add_value hc] at hg ⊢
  have hm' := hg.sound (hst.grows.sound hm)
  have hget := hm'.entry.mpr ⟨hg.holds hst.holds, hst.key⟩
  rw [Model.add_value fun c hmem => (hst.grows.trans hg).holds (hc c hmem)]
  rcases Model.intern_cases layer m' with ⟨d, hget', heq⟩ | ⟨hfree, -⟩
  · rw [heq, Option.some.inj (hget'.symm.trans hget)]
  · rw [hget] at hfree
    cases hfree

end Repeats

end DataBinding
