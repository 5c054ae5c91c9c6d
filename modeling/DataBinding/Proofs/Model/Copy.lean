import DataBinding.Model.Copy
import DataBinding.Proofs.Model.Dynamic

/-!
# Proofs — Models — copying

A copy of a node of a sound model is a node with the same key in the destination, which only grows
(`copy_stored`).  The table of copies made before gives for each place of the source a node of the
destination with the key of the node at that place (`Copies.Faithful`), so it does not matter that
a part which occurs several times is copied once.
-/

namespace DataBinding

variable {s m m' : Model} {P : Layer String → Prop} {copies : Copies} {n : Node}

/-- The copies made so far are nodes of the destination with the keys of what they are copies of. -/
def Copies.Faithful (s m : Model) (copies : Copies) : Prop :=
  ∀ (i : NodeId) (d : Node), copies[i]? = some d →
    m.Holds d ∧ ∃ n, s.node? i = some n ∧ d.label.key = n.label.key

theorem Copies.faithful_empty (s m : Model) : Copies.Faithful s m ∅ := by
  intro i d h
  simp at h

theorem Copies.Faithful.mono (h : Copies.Faithful s m copies) (hg : m.Extends P m') :
    Copies.Faithful s m' copies := fun i d hd => ⟨hg.holds (h i d hd).1, (h i d hd).2⟩

/-- The outcome of copying the node `n` of `s`: the copy, the table, and the destination. -/
structure Copied (P : Layer String → Prop) (s : Model) (n : Node) (m : Model)
    (r : (Node × Copies) × Model) : Prop where
  stored : m.Stored P n.label.key (r.1.1, r.2)
  table : Copies.Faithful s r.2 r.1.2

theorem pure_apply {σ α : Type} {M : Type → Type} [Monad M] (a : α) (s : σ) :
    (pure a : StateT σ M α) s = pure (a, s) := rfl

theorem get_bind_apply {α : Type} (f : Copies → Copying α) (copies : Copies) (m : Model) :
    (getThe Copies >>= f) copies m = f copies copies m := rfl

/-- The copy made before, or a new one that is entered in the table. -/
theorem once_cases (id : NodeId) (make : Copying Node) (copies : Copies) (m : Model) :
    (∃ d, copies[id]? = some d ∧ (once id make copies m).value = ((d, copies), m)) ∨
      (once id make copies m).value =
        (((make copies m).value.1.1, (make copies m).value.1.2.insert id (make copies m).value.1.1),
          (make copies m).value.2) := by
  rw [once, get_bind_apply]
  cases copies[id]? with
  | some d => exact .inl ⟨d, rfl, rfl⟩
  | none => exact .inr rfl

/-- The copy made before is as good as a new one. -/
theorem once_copied {make : Copying Node} (hn : s.Holds n) (ht : Copies.Faithful s m copies)
    (hmake : Copied P s n m (make copies m).value) :
    Copied P s n m (once n.label.id make copies m).value := by
  rcases once_cases n.label.id make copies m with ⟨d, hd, heq⟩ | heq <;> rw [heq]
  · obtain ⟨hold, n', hn', hkey⟩ := ht _ d hd
    obtain rfl : n = n' := Option.some.inj (hn.symm.trans hn')
    exact ⟨⟨.refl, hold, hkey⟩, ht⟩
  · refine ⟨hmake.stored, fun i d hd => ?_⟩
    rw [Std.TreeMap.getElem?_insert] at hd
    split at hd
    · rename_i hi
      obtain rfl : n.label.id = i := by simpa using hi
      cases hd
      exact ⟨hmake.stored.holds, n, hn, hmake.stored.key⟩
    · exact hmake.table i d hd

/-- One layer of copying. -/
theorem copyShared_eq (n : Node) :
    n.copyShared =
      once n.label.id (n.layer.mapM Expr.copyShared >>= fun layer => Model.intern layer) := by
  cases n <;> simp [Expr.copyShared, Expr.layer, Expr.label, Layer.mapM]

/-- The outcome of copying the children of a layer, one after the other. -/
structure CopiedLayer (P : Layer String → Prop) (s : Model) (layer : Layer Node) (m : Model)
    (r : (Layer Node × Copies) × Model) : Prop where
  grows : m.Extends P r.2
  table : Copies.Faithful s r.2 r.1.2
  keys : r.1.1.map (·.label.key) = layer.map (·.label.key)
  holds : ∀ c ∈ r.1.1.children, r.2.Holds c

theorem mapM_copied (layer : Layer Node)
    (ih : ∀ c ∈ layer.children, ∀ {copies : Copies} {m : Model}, m.Sound →
      Copies.Faithful s m copies → Copied P s c m (c.copyShared copies m).value)
    (hm : m.Sound) (ht : Copies.Faithful s m copies) :
    CopiedLayer P s layer m (layer.mapM Expr.copyShared copies m).value := by
  cases layer with
  | literal text ty | identifier text ty =>
      exact ⟨.refl, ht, rfl, fun c hc => absurd hc List.not_mem_nil⟩
  | property a _ | unary _ a | group a | cast _ a =>
      have ha := ih a (by simp [Layer.children]) hm ht
      refine ⟨ha.stored.grows, ha.table, ?_, fun c hc => ?_⟩
      · simp [Layer.mapM, Layer.map, bind, StateT.bind, pure_apply, ha.stored.key]
      · obtain rfl := List.mem_singleton.mp hc
        exact ha.stored.holds
  | binary a _ b | assign a b _ =>
      have ha := ih a (by simp [Layer.children]) hm ht
      have hb := ih b (by simp [Layer.children]) (ha.stored.grows.sound hm) ha.table
      refine ⟨ha.stored.grows.trans hb.stored.grows, hb.table, ?_, fun c hc => ?_⟩
      · simp [Layer.mapM, Layer.map, bind, StateT.bind, pure_apply, ha.stored.key, hb.stored.key]
      · rcases List.mem_pair.mp hc with rfl | rfl
        · exact hb.stored.grows.holds ha.stored.holds
        · exact hb.stored.holds
  | conditional a b d =>
      have ha := ih a (by simp [Layer.children]) hm ht
      have hb := ih b (by simp [Layer.children]) (ha.stored.grows.sound hm) ha.table
      have hd := ih d (by simp [Layer.children])
        (hb.stored.grows.sound (ha.stored.grows.sound hm)) hb.table
      refine ⟨(ha.stored.grows.trans hb.stored.grows).trans hd.stored.grows, hd.table, ?_,
        fun c hc => ?_⟩
      · simp [Layer.mapM, Layer.map, bind, StateT.bind, pure_apply, ha.stored.key, hb.stored.key,
          hd.stored.key]
      · rcases List.mem_cons.mp hc with rfl | hc
        · exact hd.stored.grows.holds (hb.stored.grows.holds ha.stored.holds)
        · rcases List.mem_pair.mp hc with rfl | rfl
          · exact hd.stored.grows.holds hb.stored.holds
          · exact hd.stored.holds

theorem copyShared_copied (hs : s.Sound) (hn : s.Holds n)
    (hP : ∀ e : Node, e.PartOf n → P (e.layer.map (·.label.key))) (hm : m.Sound)
    (ht : Copies.Faithful s m copies) : Copied P s n m (n.copyShared copies m).value := by
  induction n using Expr.children_induction generalizing copies m with
  | step n ih =>
      rw [copyShared_eq]
      refine once_copied hn ht ?_
      -- the children are copied one after the other, each into what the one before left behind
      have hl := mapM_copied n.layer
        (fun c hc _ _ hm ht => ih c hc (hs.child hn hc) (fun e he => hP e (.child hc he)) hm ht) hm ht
      have hi := Model.intern_stored (hl.grows.sound hm) (hl.keys ▸ hP n .self) hl.holds
      refine ⟨⟨hl.grows.trans hi.grows, hi.holds, ?_⟩, hl.table.mono hi.grows⟩
      exact hi.key.trans ((congrArg Layer.key hl.keys).trans (hs.key hn).symm)

/-- **Copying keeps the key.**  A copy of a node of a sound model is a node of the destination with
the same key, and the destination only grows by nodes with layers of its parts. -/
theorem copy_stored_parts (hs : s.Sound) (hn : s.Holds n)
    (hP : ∀ e : Node, e.PartOf n → P (e.layer.map (·.label.key))) (hm : m.Sound) :
    m.Stored P n.label.key (n.copy m).value :=
  (copyShared_copied hs hn hP hm (Copies.faithful_empty s m)).stored

theorem copy_stored (hs : s.Sound) (hP : s.All P) (hn : s.Holds n) (hm : m.Sound) :
    m.Stored P n.label.key (n.copy m).value :=
  copy_stored_parts hs hn (hP.part hs hn) hm

end DataBinding
