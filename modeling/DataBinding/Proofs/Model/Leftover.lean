import DataBinding.Proofs.Inverse.Effects

/-!
# Proofs — Models — what a failed question leaves behind

A question for a type keeps the types of parts as it goes, and where it fails later, for another part
or for the node itself, these stay.  `Resolver.Passes` says which nodes a question comes to: from a
node that keeps no type to those of its children that it asks, one after the other, up to the first
that has no type.

* `Reachable.cells`: reachable models have a cell for each node.
* `typeOf_filled_iff`: a question fills the cells of the nodes that it comes to and that have a type.
* `failed_typing_leaves`: what the cells are after a failure, and when they are as before.
-/

namespace DataBinding

variable {R : Resolver} {s m m' : Model} {n : Node} {t : TypeCache} {i : NodeId} {α : Type}

/-! ### Cells of reachable models -/

namespace Model

theorem Extends.cells {P : Layer String → Prop} (h : m.Extends P m') (hm : m.types.size = m.size) :
    m'.types.size = m'.size := by
  induction h with
  | refl => exact hm
  | store layer _ _ _ _ ih => rw [push, Array.size_push, ih, size, size, Array.size_push]

/-- An operation on a model keeps a cell for each node. -/
theorem Step.cells (h : Step s m m') (hs : s.Sound) (hm : m.Sound) (hcells : m.types.size = m.size) :
    m'.types.size = m'.size := by
  cases h with
  | add layer => exact (add_grows hm fun _ _ => trivial).cells hcells
  | copy hn => exact (copy_stored hs .true (hs.holds hn) hm).grows.cells hcells
  | solveInto R limit context value hn =>
      exact (Inverse.solveAt_grows (w := ⟨s.types, m⟩) hs (hs.holds hn) hm value).cells hcells
  | solveFrom R limit context value hn =>
      exact (Inverse.solveAt_types (w := ⟨m.types, s⟩) hm (hm.holds hn) value).keeps.size.trans hcells
  | check R limit hn =>
      have hasking := Inverse.checkAt_asking (R := R) limit 0 hm (hm.holds hn)
      exact ((hasking.gathers hm).grown m.types).keeps.size.trans hcells
  | typeOf R hn => exact (typeOf_fills R _ m.types).size.trans hcells
  | markRoot i =>
      obtain ⟨roots, hroots⟩ := markRoot_eq m i
      rw [hroots]
      exact hcells

theorem Reachable.cells (h : m.Reachable) : m.types.size = m.size := by
  induction h with
  | empty => rfl
  | step hs hm hstep _ ihm => exact hstep.cells hs.sound hm.sound ihm

end Model

/-! ### The way of a question -/

/-- Where the nodes are asked one after the other, it comes to `c`: all before it have a type. -/
inductive Resolver.Turn (R : Resolver) (t : TypeCache) : List Node → Node → Prop where
  | first {c : Node} {rest : List Node} : Turn R t (c :: rest) c
  | later {b c : Node} {rest : List Node} {ty : Ty} (hb : (R.typeOf b t).value.1 = .ok ty)
      (h : Turn R t rest c) : Turn R t (b :: rest) c

theorem Resolver.Turn.mem {nodes : List Node} {c : Node} (h : R.Turn t nodes c) : c ∈ nodes := by
  induction h with
  | first => exact List.mem_cons_self
  | later _ _ ih => exact List.mem_cons_of_mem _ ih

/-- The question for the type of a node comes to `d`. -/
inductive Resolver.Passes (R : Resolver) (t : TypeCache) : Node → Node → Prop where
  | self {d : Node} : Passes R t d d
  | part {n c d : Node} (hempty : ¬ t.Filled n.label.id) (hc : R.Turn t n.layer.asked c)
      (h : Passes R t c d) : Passes R t n d

theorem Resolver.Passes.holds {d : Node} (h : R.Passes t n d) (hs : s.Sound) (hn : s.Holds n) :
    s.Holds d := by
  induction h with
  | self => exact hn
  | part _ hc _ ih => exact ih (hs.child hn (Layer.mem_of_asked hc.mem))

/-- The computation asks the given nodes, one after the other, and fills no other cells. -/
def AsksInTurn (R : Resolver) (nodes : List Node) (x : Typing TypeError α) : Prop :=
  ∀ (t : TypeCache) (i : NodeId), (x t).value.2.Filled i ↔
    t.Filled i ∨ ∃ c, R.Turn t nodes c ∧ (R.typeOf c t).value.2.Filled i

namespace AsksInTurn

theorem lift (R : Resolver) (answer : Except TypeError α) :
    AsksInTurn R [] (liftM answer : Typing TypeError α) := by
  intro t i
  have hidle : ((liftM answer : Typing TypeError α) t).value.2 = t := by cases answer <;> rfl
  rw [hidle]
  refine ⟨.inl, ?_⟩
  rintro (h | ⟨c, hc, -⟩)
  · exact h
  · cases hc

theorem typeOf (R : Resolver) (n : Node) : AsksInTurn R [n] (R.typeOf n) := by
  intro t i
  refine ⟨fun h => .inr ⟨n, .first, h⟩, ?_⟩
  rintro (h | ⟨c, hc, h⟩)
  · exact (typeOf_fills R n t).filled h
  · obtain rfl := List.mem_singleton.mp hc.mem
    exact h

/-- A question before others.  These find more cells filled than they would alone, but in the end no
others are. -/
theorem ask (hs : s.Sound) (hn : s.Holds n) {nodes : List Node} {f : Ty → Typing TypeError α}
    (hgathers : ∀ ty, Gathers R s (f ty)) (hf : ∀ ty, AsksInTurn R nodes (f ty)) :
    AsksInTurn R (n :: nodes) (R.typeOf n >>= f) := by
  intro t i
  have hgrown := (typeOf_gathers (R := R) hs hn).grown t
  rw [value_bind_except]
  cases hfirst : (R.typeOf n t).value with
  | mk answer u =>
      rw [hfirst] at hgrown
      cases answer with
      | error e =>
          refine ⟨fun h => .inr ⟨n, .first, by rwa [hfirst]⟩, ?_⟩
          rintro (h | ⟨c, hc, h⟩)
          · exact hgrown.keeps.filled h
          · cases hc with
            | first => rwa [hfirst] at h
            | later hb =>
                rw [hfirst] at hb
                cases hb
      | ok ty =>
          -- what the others fill from `u` on is what they would fill from `t` on, and `u` itself
          rw [((hgathers ty).joined hgrown).filled_iff, hf ty t i]
          constructor
          · rintro (h | h | ⟨c, hc, h⟩)
            · exact .inr ⟨n, .first, by rwa [hfirst]⟩
            · exact .inl h
            · exact .inr ⟨c, .later (congrArg Prod.fst hfirst) hc, h⟩
          · rintro (h | ⟨c, hc, h⟩)
            · exact .inr (.inl h)
            · cases hc with
              | first =>
                  rw [hfirst] at h
                  exact .inl h
              | later _ hc => exact .inr (.inr ⟨c, hc, h⟩)

end AsksInTurn

/-- A question starts at the cell of the node and asks the children one after the other. -/
theorem exists_find_inTurn (hs : s.Sound) (hn : s.Holds n) :
    ∃ find, R.typeOf n = Typing.remember n.label.id find ∧ AsksInTurn R n.layer.asked find := by
  have part {a : Node} (ha : a ∈ n.layer.asked) : s.Holds a := hs.child hn (Layer.mem_of_asked ha)
  cases n with
  | literal | identifier | cast => exact ⟨_, rfl, .lift R _⟩
  | property l target name =>
      exact ⟨_, rfl, .ask hs (part List.mem_cons_self) (fun _ => .lift _) fun _ => .lift R _⟩
  | binary l left op right =>
      have hright := part (List.mem_cons_of_mem left List.mem_cons_self)
      exact ⟨_, rfl, .ask hs (part List.mem_cons_self)
        (fun _ => (typeOf_gathers hs hright).bind hs fun _ => .lift _)
        fun _ => .ask hs hright (fun _ => .lift _) fun _ => .lift R _⟩
  | unary l op operand =>
      cases op with
      | not => exact ⟨_, rfl, .lift R _⟩
      | neg | bitNot => exact ⟨_, rfl, .typeOf R operand⟩
  | group l inner => exact ⟨_, rfl, .typeOf R inner⟩
  | conditional l condition positive negative =>
      have hnegative := part (List.mem_cons_of_mem positive List.mem_cons_self)
      exact ⟨_, rfl, .ask hs (part List.mem_cons_self)
        (fun _ => (typeOf_gathers hs hnegative).bind hs fun _ => .lift _)
        fun _ => .ask hs hnegative (fun _ => .lift _) fun _ => .lift R _⟩
  | assign l target value context => exact ⟨_, rfl, .typeOf R target⟩

theorem TypeCache.not_filled_iff : ¬ t.Filled i ↔ (t[i]?).join = none := by
  rw [Filled, Option.eq_none_iff_forall_ne_some, not_exists]

/-- Where the cell is empty, the search decides, and a type that it finds fills the cell. -/
theorem Typing.remember_filled_iff {id : NodeId} {find : Typing TypeError Ty} (h : ¬ t.Filled id) :
    (Typing.remember id find t).value.2.Filled i ↔
      (find t).value.2.Filled i ∨ id = i ∧ id < (Typing.remember id find t).value.2.size ∧
        ∃ ty, (Typing.remember id find t).value.1 = .ok ty := by
  rw [Typing.remember_value, TypeCache.not_filled_iff.mp h]
  dsimp only
  obtain ⟨e | ty, u⟩ := (find t).value
  · simp
  · dsimp only
    rw [TypeCache.Filled, TypeCache.join_fill, Array.size_setIfInBounds]
    split
    · rename_i hplace
      exact iff_of_true ⟨ty, rfl⟩ (.inr ⟨hplace.1, hplace.2, ty, rfl⟩)
    · rename_i hplace
      exact ⟨.inl, fun h => h.resolve_right fun h => hplace ⟨h.1, h.2.1⟩⟩

/-- What a question fills: the cells that the children fill, and that of the node if it has a type. -/
theorem typeOf_filled_step (hs : s.Sound) (hn : s.Holds n) (hcell : n.label.id < t.size) :
    (R.typeOf n t).value.2.Filled i ↔
      t.Filled i ∨
      (¬ t.Filled n.label.id ∧ ∃ c, R.Turn t n.layer.asked c ∧ (R.typeOf c t).value.2.Filled i) ∨
      n.label.id = i ∧ ∃ ty, (R.typeOf n t).value.1 = .ok ty := by
  obtain ⟨find, heq, hturn⟩ := exists_find_inTurn (R := R) hs hn
  by_cases hheld : t.Filled n.label.id
  · have hidle : (R.typeOf n t).value.2 = t :=
      (Finds.typeOf R n).idle t fun c hc => List.mem_singleton.mp hc ▸ hheld
    rw [hidle]
    refine ⟨.inl, ?_⟩
    rintro (h | ⟨hempty, -⟩ | ⟨rfl, -⟩)
    · exact h
    · exact absurd hheld hempty
    · exact hheld
  · have hsize : n.label.id < (R.typeOf n t).value.2.size := (typeOf_fills R n t).size ▸ hcell
    rw [heq] at hsize ⊢
    rw [Typing.remember_filled_iff hheld, hturn t i]
    simp only [hheld, hsize, not_false_eq_true, true_and, or_assoc]

/-- **What a question fills**: the cells of the nodes that it comes to and that have a type. -/
theorem typeOf_filled_iff (hs : s.Sound) (hn : s.Holds n) (hcells : t.size = s.size) :
    (R.typeOf n t).value.2.Filled i ↔
      t.Filled i ∨ ∃ d, R.Passes t n d ∧ d.label.id = i ∧ ∃ ty, (R.typeOf d t).value.1 = .ok ty := by
  induction n using Expr.children_induction with
  | step n ih =>
      have part {c : Node} (hc : R.Turn t n.layer.asked c) :=
        ih c (Layer.mem_of_asked hc.mem) (hs.child hn (Layer.mem_of_asked hc.mem))
      rw [typeOf_filled_step hs hn (hcells ▸ Model.node?_lt hn)]
      constructor
      · rintro (h | ⟨hempty, c, hc, h⟩ | ⟨rfl, hty⟩)
        · exact .inl h
        · rcases (part hc).mp h with h | ⟨d, hd, hplace, hty⟩
          · exact .inl h
          · exact .inr ⟨d, .part hempty hc hd, hplace, hty⟩
        · exact .inr ⟨n, .self, rfl, hty⟩
      · rintro (h | ⟨d, hd, hplace, hty⟩)
        · exact .inl h
        · cases hd with
          | self => exact .inr (.inr ⟨hplace, hty⟩)
          | part hempty hc hd =>
              exact .inr (.inl ⟨hempty, _, hc, (part hc).mpr (.inr ⟨d, hd, hplace, hty⟩)⟩)

namespace Model

/-- The cells after a question. -/
theorem cell_after_typeOf (hs : s.Sound) (hn : s.Holds n) (hcells : t.size = s.size) {ty : Ty} :
    ((R.typeOf n t).value.2[i]?).join = some ty ↔
      (t[i]?).join = some ty ∨
        ∃ d, s.node? i = some d ∧ R.Passes t n d ∧ (R.typeOf d t).value.1 = .ok ty := by
  have hgrown := (typeOf_gathers (R := R) hs hn).grown t
  constructor
  · intro h
    rcases hgrown.answer hs h with hkept | ⟨d, hd, hty⟩
    · exact .inl hkept
    · rcases (typeOf_filled_iff hs hn hcells).mp ⟨ty, h⟩ with ⟨ty', hkept⟩ | ⟨d', hpass, rfl, -⟩
      · rw [hgrown.keeps.kept hkept] at h
        exact .inl (hkept.trans h)
      · have hd' := hpass.holds hs hn
        obtain rfl : d' = d := Option.some.inj (hd'.symm.trans hd)
        exact .inr ⟨d', hd, hpass, hty⟩
  · rintro (hkept | ⟨d, hd, hpass, hty⟩)
    · exact hgrown.keeps.kept hkept
    · obtain rfl := hs.place hd
      obtain ⟨ty', hfilled⟩ := (typeOf_filled_iff hs hn hcells).mpr (.inr ⟨d, hpass, rfl, ty, hty⟩)
      -- the type in the cell is the answer for the node
      have hsame : (R.typeOf d t).value.1 = .ok ty' := by
        rw [(typeOf_asked hs (hs.holds hd) t).answer, ← hgrown.same d (hs.holds hd),
          TypeCache.typeIn_of_kept hfilled]
      rw [hfilled, Except.ok.inj (hty.symm.trans hsame)]

/-- **What a failed question leaves behind.**  Take any reachable model, whatever types it keeps, and
a question for the type of a node that fails.  The node keeps no type, before and after.  The cells
hold what they held, and in addition the types of those nodes that the question came to and that have
one: it comes from a node that keeps no type to the children that it asks, up to the first without a
type.  So the cells are as before exactly if each node that it came to and that has a type kept it
before. -/
theorem failed_typing_leaves (hm : m.Reachable) (hnode : m.node? i = some n) {e : BindingError}
    (hfail : ((R.nodeType n).onModel m).value = (.error e, m')) :
    m.cachedType? i = none ∧ m'.cachedType? i = none ∧
    (∀ j ty, m'.cachedType? j = some ty ↔ m.cachedType? j = some ty ∨
      ∃ d, m.node? j = some d ∧ R.Passes m.types n d ∧ (R.typeOf d m.types).value.1 = .ok ty) ∧
    ((∀ j, m'.cachedType? j = m.cachedType? j) ↔
      ∀ d ty, R.Passes m.types n d → (R.typeOf d m.types).value.1 = .ok ty →
        m.cachedType? d.label.id = some ty) := by
  have hs := hm.sound
  have hn := hs.holds hnode
  have hanswer : (R.typeOf n m.types).value.1.mapError BindingError.type = .error e :=
    congrArg Prod.fst hfail
  have hcells (j : NodeId) (ty : Ty) : m'.cachedType? j = some ty ↔ m.cachedType? j = some ty ∨
      ∃ d, m.node? j = some d ∧ R.Passes m.types n d ∧ (R.typeOf d m.types).value.1 = .ok ty := by
    obtain rfl : ((R.nodeType n).onModel m).value.2 = m' := congrArg Prod.snd hfail
    exact cell_after_typeOf hs hn hm.cells
  -- the node itself has no type
  have hnone (ty : Ty) : (R.typeOf n m.types).value.1 ≠ .ok ty := by
    intro hty
    rw [hty] at hanswer
    cases hanswer
  have hbefore : m.cachedType? i = none := by
    refine Option.eq_none_iff_forall_ne_some.mpr fun ty hkept => hnone ty ?_
    rw [← hs.place hnode] at hkept
    exact typeOf_of_kept R hkept
  have hafter : m'.cachedType? i = none := by
    refine Option.eq_none_iff_forall_ne_some.mpr fun ty hkept => ?_
    rcases (hcells i ty).mp hkept with hkept | ⟨d, hd, -, hty⟩
    · rw [hbefore] at hkept
      cases hkept
    · obtain rfl : n = d := Option.some.inj (hnode.symm.trans hd)
      exact hnone ty hty
  refine ⟨hbefore, hafter, hcells, fun hsame d ty hpass hty => ?_, fun hkept j => ?_⟩
  · rw [← hsame]
    exact (hcells _ ty).mpr (.inr ⟨d, hpass.holds hs hn, hpass, hty⟩)
  · refine Option.ext fun ty => (hcells j ty).trans ⟨?_, .inl⟩
    rintro (h | ⟨d, hd, hpass, hty⟩)
    · exact h
    · rw [← hs.place hd]
      exact hkept d ty hpass hty

/-- Asking for the type of `flag ? x : y`, where `y` has none, keeps the type of `x`. -/
theorem failed_typing_leaves_branch :
    ∃ (R : Resolver) (m m' : Model) (whole : Node), R = TypeTable.standard.resolver ∧
      m = build [.identifier "flag" "boolean", .identifier "x" "long", .identifier "y" "Unknown",
        .conditional 0 1 2] ∧
      m.Reachable ∧ m.node? 3 = some whole ∧
      ((R.nodeType whole).onModel m).value = (.error (.type (.typeNotFound "Unknown")), m') ∧
      m'.cachedType? 3 = none ∧ m'.cachedType? 1 = some ⟨"long"⟩ ∧
      ¬ ∀ j, m'.cachedType? j = m.cachedType? j := by
  obtain ⟨R, hR⟩ : ∃ R, R = TypeTable.standard.resolver := ⟨_, rfl⟩
  obtain ⟨m, hm⟩ : ∃ m, m = build [.identifier "flag" "boolean", .identifier "x" "long",
    .identifier "y" "Unknown", .conditional 0 1 2] := ⟨_, rfl⟩
  have hreachable : m.Reachable := hm ▸ reachable_build _
  obtain ⟨x, hx⟩ := exists_node? (m := m) (i := 1) (by rw [hm]; decide +kernel)
  obtain ⟨whole, hwhole⟩ := exists_node? (m := m) (i := 3) (by rw [hm]; decide +kernel)
  have hfail : ((R.nodeType whole).onModel m).value.1 = .error (.type (.typeNotFound "Unknown")) := by
    subst hR hm
    cases hwhole
    decide +kernel
  have hlong : (R.typeOf x m.types).value.1 = .ok ⟨"long"⟩ := by
    subst hR hm
    cases hx
    decide +kernel
  have hempty : m.cachedType? whole.label.id = none ∧ m.cachedType? 1 = none := by
    subst hm
    cases hwhole
    decide +kernel
  have hasked : whole.layer.asked.head? = some x := by
    subst hm
    cases hwhole
    cases hx
    decide +kernel
  have hturn : R.Turn m.types whole.layer.asked x := by
    obtain ⟨rest, hlist⟩ := List.head?_eq_some_iff.mp hasked
    rw [hlist]
    exact .first
  have hpasses : R.Passes m.types whole x :=
    .part (TypeCache.not_filled_iff.mpr hempty.1) hturn .self
  obtain ⟨-, hown, hcells, hsame⟩ := failed_typing_leaves hreachable hwhole (Prod.ext hfail rfl)
  refine ⟨R, m, _, whole, hR, hm, hreachable, hwhole, Prod.ext hfail rfl, hown,
    (hcells 1 ⟨"long"⟩).mpr (.inr ⟨x, hx, hpasses, hlong⟩), fun hall => ?_⟩
  have hkept := hsame.mp hall x ⟨"long"⟩ hpasses hlong
  rw [hreachable.sound.place hx, hempty.2] at hkept
  cases hkept

/-- Asking for the property `age` of a `User` that has none keeps the type of the user. -/
theorem failed_typing_keeps_owner :
    ∃ (t : TypeTable) (m m' : Model) (age : Node),
      t = TypeTable.standard.registerClass "User" "Object" ∧
      m = build [.identifier "user" "User", .property 0 "age"] ∧ m.Reachable ∧
      m.node? 1 = some age ∧
      ((t.resolver.nodeType age).onModel m).value =
        (.error (.type (.propertyNotFound "User" "age")), m') ∧
      m.cachedType? 0 = none ∧ m'.cachedType? 0 = some ⟨"User"⟩ := by
  refine ⟨_, _, _, _, rfl, rfl, reachable_build _, rfl, Prod.ext ?_ rfl, ?_, ?_⟩ <;> decide +kernel

end Model

end DataBinding
