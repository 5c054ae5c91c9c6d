import DataBinding.Proofs.Model.Shared
import Mathlib.Data.Finset.Card

/-!
# Proofs — Models — what copying adds

`Expr.copyPlain` copies a node without a table of the copies made: it copies the children from left to
right, each as often as it occurs, and stores the node over the copies.  Copying with the table has the
same result, whatever names the two models hold.  It adds to the destination what is missing there: one
node for each part whose key the destination does not have.

* `Model.copy_eq_copyPlain`: the copy and the destination are those of plain copying.
* `Model.keySet_copy`: the keys of the destination afterwards.
* `Model.copy_plain_minimal`: both, with the number of nodes that are added.
-/

namespace DataBinding

variable {s m : Model} {n : Node} {α β : Type}

/-! ### Copying without a table -/

/-- Copies a node and all its parts, the children from left to right. -/
def Expr.copyPlain : Node → Building Node
  | literal _ text ty => Model.intern (.literal text ty)
  | identifier _ name ty => Model.intern (.identifier name ty)
  | property _ target name => do
    let target ← target.copyPlain
    Model.intern (.property target name)
  | binary _ left op right => do
    let left ← left.copyPlain
    let right ← right.copyPlain
    Model.intern (.binary left op right)
  | unary _ op operand => do
    let operand ← operand.copyPlain
    Model.intern (.unary op operand)
  | group _ inner => do
    let inner ← inner.copyPlain
    Model.intern (.group inner)
  | cast _ ty operand => do
    let operand ← operand.copyPlain
    Model.intern (.cast ty operand)
  | conditional _ condition positive negative => do
    let condition ← condition.copyPlain
    let positive ← positive.copyPlain
    let negative ← negative.copyPlain
    Model.intern (.conditional condition positive negative)
  | assign _ target value context => do
    let target ← target.copyPlain
    let value ← value.copyPlain
    Model.intern (.assign target value context)

theorem copyPlain_eq (n : Node) :
    n.copyPlain = n.layer.mapM Expr.copyPlain >>= fun layer => Model.intern layer := by
  cases n <;> simp [Expr.copyPlain, Expr.layer, Layer.mapM]

/-- The first computation, which may fail, does on `m` what the second does. -/
def Follows (x : ExceptT BindingError Building α) (y : Building α) (m : Model) : Prop :=
  (x m).value = (.ok (y m).value.1, (y m).value.2)

theorem Follows.bind {x : ExceptT BindingError Building α} {y : Building α}
    {f : α → ExceptT BindingError Building β} {g : α → Building β} (hx : Follows x y m)
    (hf : Follows (f (y m).value.1) (g (y m).value.1) (y m).value.2) :
    Follows (x >>= f) (y >>= g) m := by
  rw [Follows, value_bind_except, hx]
  exact hf

/-- Building the parts of a layer follows copying them, if it does so for each. -/
theorem mapM_follows (layer : Layer Node)
    (ih : ∀ c ∈ layer.children, ∀ {m : Model}, m.Sound → Follows c.request c.copyPlain m)
    (hm : m.Sound) : Follows (layer.mapM Expr.request) (layer.mapM Expr.copyPlain) m := by
  have sound {c : Node} {m : Model} (hm : m.Sound) (hc : Follows c.request c.copyPlain m) :
      (c.copyPlain m).value.2.Sound := (request_built hm c hc).1.sound hm
  cases layer with
  | literal | identifier => rfl
  | property a _ | unary _ a | group a | cast _ a =>
      exact (ih a (by simp [Layer.children]) hm).bind rfl
  | binary a _ b | assign a b _ =>
      have ha := ih a (by simp [Layer.children]) hm
      exact ha.bind ((ih b (by simp [Layer.children]) (sound hm ha)).bind rfl)
  | conditional a b c =>
      have ha := ih a (by simp [Layer.children]) hm
      have hb := ih b (by simp [Layer.children]) (sound hm ha)
      have hc := ih c (by simp [Layer.children]) (sound (sound hm ha) hb)
      exact ha.bind (hb.bind (hc.bind rfl))

/-- Building an expression follows copying it without a table. -/
theorem request_follows (n : Node) (hm : m.Sound) : Follows n.request n.copyPlain m := by
  induction n using Expr.children_induction generalizing m with
  | step n ih =>
      have hl := mapM_follows n.layer (fun c hc _ hm => ih c hc hm) hm
      rw [n.request_eq, copyPlain_eq]
      exact hl.bind (Model.add_value (mapM_request_built hm n.layer hl).holds)

namespace Model

/-- **The table of copies makes no difference**: the copy and the destination are those of plain
copying. -/
theorem copy_eq_copyPlain (hs : s.Sound) (hn : s.Holds n) (hm : m.Sound) :
    (n.copy m).value = (n.copyPlain m).value := by
  obtain ⟨hcopy, hdest⟩ := Prod.mk.inj ((copy_eq_request hs hn hm).symm.trans (request_follows n hm))
  exact Prod.ext (Except.ok.inj hcopy) hdest

/-! ### The size of the destination -/

/-- The keys of the parts of a node are those of the nodes that are parts of it. -/
theorem Sound.mem_partKeys (hs : s.Sound) (hn : s.Holds n) {c : Node} (hc : s.Holds c) :
    c.label.key ∈ Expr.partKeys [n] ↔ c.PartOf n := by
  rw [Expr.mem_partKeys]
  constructor
  · rintro ⟨e, he, c', hc', hkey⟩
    obtain rfl := List.mem_singleton.mp he
    have hheld := hs.holds_part hn hc'
    rwa [hs.eq_of_key hc hheld (by rw [hs.label_key hheld, hkey])]
  · intro hpart
    exact ⟨n, List.mem_singleton_self n, c, hpart, (hs.label_key hc).symm⟩

/-- Copying adds the keys of the parts. -/
theorem keySet_copy (hs : s.Sound) (hn : s.Holds n) (hm : m.Sound) :
    (n.copy m).value.2.keySet = m.keySet ∪ Expr.partKeys [n] := by
  have hgrows := (copy_stored_parts (P := fun layer => layer.key ∈ Expr.partKeys [n]) hs hn
    (fun e he => ?_) hm).grows
  · refine hgrows.keySet_eq hm fun k hk => ?_
    obtain ⟨e, he, c, hc, rfl⟩ := Expr.mem_partKeys.mp hk
    obtain rfl := List.mem_singleton.mp he
    exact (request_built hm e (copy_eq_request hs hn hm)).2.1 c hc
  · have hheld := hs.holds_part hn he
    rw [← hs.key hheld]
    exact (hs.mem_partKeys hn hheld).mpr he

theorem Sound.lookup_eq_none_iff (hm : m.Sound) {k : String} : m.lookup k = none ↔ k ∉ m.keySet := by
  rw [hm.mem_keySet]
  constructor
  · rintro h ⟨c, hc, rfl⟩
    cases h.symm.trans (hm.lookup_eq_some_iff.mpr ⟨c, hc, rfl⟩)
  · intro h
    cases hplace : m.lookup k with
    | none => rfl
    | some i =>
        obtain ⟨c, hc, hkey⟩ := hm.lookup_eq_some_iff.mp hplace
        exact absurd ⟨c, hm.holds hc, hkey⟩ h

/-- Keys of a model stand at as many places. -/
theorem Sound.exists_places (hs : s.Sound) {K : Finset String} (hK : K ⊆ s.keySet) :
    ∃ places : Finset NodeId,
      (∀ j, j ∈ places ↔ ∃ c, s.node? j = some c ∧ c.label.key ∈ K) ∧ places.card = K.card := by
  have hplace {k : String} (hk : k ∈ K) : ∃ c, s.Holds c ∧ c.label.key = k ∧
      (s.lookup k).getD 0 = c.label.id := by
    obtain ⟨c, hc, hkey⟩ := hs.mem_keySet.mp (hK hk)
    exact ⟨c, hc, hkey, by rw [hs.lookup_eq_some_iff.mpr ⟨c, hc, hkey⟩, Option.getD_some]⟩
  refine ⟨K.image fun k => (s.lookup k).getD 0, fun j => ?_, Finset.card_image_of_injOn ?_⟩
  · rw [Finset.mem_image]
    constructor
    · rintro ⟨k, hk, rfl⟩
      obtain ⟨c, hc, rfl, hid⟩ := hplace hk
      exact ⟨c, hid ▸ hc, hk⟩
    · rintro ⟨c, hc, hk⟩
      obtain ⟨c', hc', hkey, hid⟩ := hplace hk
      obtain rfl := hs.eq_of_key hc' (hs.holds hc) hkey
      exact ⟨_, hk, hid.trans (hs.place hc)⟩
  · intro k hk k' hk' heq
    obtain ⟨c, hc, rfl, hid⟩ := hplace hk
    obtain ⟨c', hc', rfl, hid'⟩ := hplace hk'
    rw [hc.eq_of_id hc' (hid.symm.trans (heq.trans hid'))]

/-- **Copying adds what is missing.**  Let a node of one model be copied into another, whatever names
both hold.  The copy and the destination are those of copying the children from left to right, each as
often as it occurs, and storing the node over the copies, without a table.  The destination has grown
by one node for each part of the node, the node itself included, whose key it did not have. -/
theorem copy_plain_minimal (hsource : s.Reachable) (hdest : m.Reachable) {i : NodeId}
    (hnode : s.node? i = some n) :
    (n.copy m).value = (n.copyPlain m).value ∧
    ∃ missing : Finset NodeId,
      (∀ j, j ∈ missing ↔
        ∃ c, s.node? j = some c ∧ c.PartOf n ∧ m.lookup c.label.key = none) ∧
      (n.copy m).value.2.size = m.size + missing.card := by
  have hs := hsource.sound
  have hm := hdest.sound
  have hn := hs.holds hnode
  refine ⟨copy_eq_copyPlain hs hn hm, ?_⟩
  have hsub : Expr.partKeys [n] \ m.keySet ⊆ s.keySet := by
    intro k hk
    obtain ⟨e, he, c, hc, rfl⟩ := Expr.mem_partKeys.mp (Finset.mem_sdiff.mp hk).1
    obtain rfl := List.mem_singleton.mp he
    have hheld := hs.holds_part hn hc
    exact hs.mem_keySet.mpr ⟨c, hheld, hs.label_key hheld⟩
  obtain ⟨missing, hmissing, hcard⟩ := hs.exists_places hsub
  refine ⟨missing, fun j => ?_, ?_⟩
  · rw [hmissing]
    refine exists_congr fun c => and_congr_right fun hc => ?_
    rw [Finset.mem_sdiff, hs.mem_partKeys hn (hs.holds hc), hm.lookup_eq_none_iff]
  · have hm' := (copy_stored hs .true hn hm).grows.sound hm
    rw [← hm'.card_keySet, keySet_copy hs hn hm, ← hm.card_keySet, hcard, Finset.union_comm,
      ← Finset.card_sdiff_add_card, Nat.add_comm]

/-- `y + y`, where `y` is the property `c` of the property `a)~b` of `x`, copied to where `x` has another
type and a property of its property `a` has the key of `y`: of its four parts, `x` and `y` are taken to
be there. -/
theorem copy_plain_minimal_mistaken :
    ∃ (source dest : Model) (n : Node) (missing : Finset NodeId),
      source = build [.identifier "x" "User", .property 0 "a)~b", .property 1 "c", .binary 2 .add 2] ∧
      dest = build [.identifier "x" "Admin", .property 0 "a", .property 1 "b)~c"] ∧
      source.node? 3 = some n ∧ (n.copy dest).value = (n.copyPlain dest).value ∧
      (∀ j, j ∈ missing ↔
        ∃ c, source.node? j = some c ∧ c.PartOf n ∧ dest.lookup c.label.key = none) ∧
      missing.card = 2 ∧ 2 ∉ missing ∧ (n.copy dest).value.2.size = 5 := by
  obtain ⟨source, hsource⟩ : ∃ m, m = build [.identifier "x" "User", .property 0 "a)~b",
    .property 1 "c", .binary 2 .add 2] := ⟨_, rfl⟩
  obtain ⟨dest, hdest⟩ : ∃ m, m = build [.identifier "x" "Admin", .property 0 "a",
    .property 1 "b)~c"] := ⟨_, rfl⟩
  obtain ⟨n, hn⟩ := exists_node? (m := source) (i := 3) (by rw [hsource]; decide +kernel)
  obtain ⟨hplain, missing, hmissing, hsize⟩ :=
    copy_plain_minimal (hsource ▸ reachable_build _) (hdest ▸ reachable_build _) hn
  have hgrown : (n.copy dest).value.2.size = 5 := by
    subst hsource hdest
    cases hn
    decide +kernel
  have hbefore : dest.size = 3 := by
    rw [hdest]
    decide +kernel
  refine ⟨source, dest, n, missing, hsource, hdest, hn, hplain, hmissing, by omega, fun h => ?_, hgrown⟩
  obtain ⟨c, hc, -, hlookup⟩ := (hmissing 2).mp h
  have hheld : dest.lookup c.label.key = some 2 := by
    subst hsource hdest
    cases hc
    decide +kernel
  cases hlookup.symm.trans hheld

end Model

end DataBinding
