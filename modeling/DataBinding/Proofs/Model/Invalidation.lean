import DataBinding.Model.Dependants
import DataBinding.Proofs.Model.Graph
import Mathlib.Data.Set.Insert

/-!
# Proofs — Models — invalidation is sound

When some nodes change, the nodes that have to be evaluated again are those that depend on them, and
those that depend on these.  `Model.affected` is the set of them.  It is closed under dependants
(`Sound.affected_closed`), since an edge leads to a newer node and there are as many rounds as
nodes, so that the search has nothing left to go on with when it ends.

What stands outside a closed set reads nothing that changes (`Sound.eval_congr_outside`); hence
`Reachable.eval_unaffected`: what is not invalidated keeps its value.
-/

namespace DataBinding.Model

variable {m : Model} {i j : NodeId}

/-! ### The search is closed under dependants -/

theorem mem_unseen {seen l : List NodeId} : i ∈ unseen seen l ↔ i ∈ l ∧ i ∉ seen := by
  induction l generalizing seen with
  | nil => simp [unseen]
  | cons a l ih =>
      rw [unseen]
      split
      · rename_i ha
        rw [ih, List.mem_cons]
        constructor
        · rintro ⟨hmem, hnot⟩
          exact ⟨.inr hmem, hnot⟩
        · rintro ⟨rfl | hmem, hnot⟩
          · exact absurd ha hnot
          · exact ⟨hmem, hnot⟩
      · rename_i ha
        rw [List.mem_cons, ih, List.mem_cons, List.mem_cons]
        by_cases hi : i = a
        · subst hi
          simp [ha]
        · simp [hi]

/-- What has been seen and what is found from there hold all that depends on them, if the dependants
of what has been seen are seen or next, and the rounds that are left reach the end of the model. -/
theorem spread_closed (hm : m.Sound) (hw : m.Wired) {rounds : Nat} {seen frontier : List NodeId}
    (hseen : ∀ i ∈ seen, ∀ j ∈ m.dependantsOf i, j ∈ seen ∨ j ∈ frontier)
    (hfrontier : ∀ i ∈ frontier, i < m.size ∧ m.size ≤ i + rounds)
    (hi : i ∈ seen ∨ i ∈ m.spread rounds seen frontier) (hj : j ∈ m.dependantsOf i) :
    j ∈ seen ∨ j ∈ m.spread rounds seen frontier := by
  induction rounds generalizing seen frontier with
  | zero =>
      -- nothing is next, as it would stand behind the end
      have hempty : frontier = [] := by
        refine List.eq_nil_iff_forall_not_mem.mpr fun a ha => ?_
        obtain ⟨hlt, hle⟩ := hfrontier a ha
        exact Nat.not_lt_of_le hle hlt
      subst hempty
      rw [spread] at hi ⊢
      exact hseen i (hi.resolve_right List.not_mem_nil) j hj
  | succ rounds ih =>
      have hsplit {k : NodeId} :
          k ∈ seen ∨ k ∈ m.spread (rounds + 1) seen frontier ↔
            k ∈ frontier ++ seen ∨ k ∈ m.spread rounds (frontier ++ seen)
              (unseen (frontier ++ seen) (frontier.flatMap m.dependantsOf)) := by
        rw [spread, List.mem_append, List.mem_append, ← or_assoc, or_comm (a := k ∈ seen)]
      rw [hsplit] at hi ⊢
      refine ih (fun a ha b hb => ?_) (fun b hb => ?_) hi
      · by_cases hmem : b ∈ frontier ++ seen
        · exact .inl hmem
        · refine .inr (mem_unseen.mpr ⟨?_, hmem⟩)
          rcases List.mem_append.mp ha with ha | ha
          · exact List.mem_flatMap.mpr ⟨a, ha, hb⟩
          · have hnext := hseen a ha b hb
            rw [or_comm, ← List.mem_append] at hnext
            exact absurd hnext hmem
      · obtain ⟨a, ha, hb⟩ := List.mem_flatMap.mp (mem_unseen.mp hb).1
        refine ⟨hw.lt_size hb, ?_⟩
        calc m.size ≤ a + (rounds + 1) := (hfrontier a ha).2
          _ = a + 1 + rounds := (Nat.succ_add_eq_add_succ a rounds).symm
          _ ≤ b + rounds := Nat.add_le_add_right (hm.lt_dependant hw hb) rounds

/-- What is next is found, if there is a round left. -/
theorem mem_spread_of_frontier {rounds : Nat} {seen frontier : List NodeId} (hrounds : 0 < rounds)
    (h : i ∈ frontier) : i ∈ m.spread rounds seen frontier := by
  cases rounds with
  | zero => cases hrounds
  | succ rounds => exact List.mem_append_left _ h

/-- The dependants of a node are invalidated by it. -/
theorem Wired.mem_invalidatedBy (hw : m.Wired) (h : j ∈ m.dependantsOf i) : j ∈ m.invalidatedBy i :=
  mem_spread_of_frontier (Nat.zero_lt_of_lt (hw.lt_size h)) (mem_unseen.mpr ⟨h, List.not_mem_nil⟩)

/-- So are the dependants of what is invalidated. -/
theorem Sound.invalidatedBy_closed (hm : m.Sound) (hw : m.Wired) {id : NodeId}
    (hi : i ∈ m.invalidatedBy id) (hj : j ∈ m.dependantsOf i) : j ∈ m.invalidatedBy id := by
  refine (spread_closed hm hw (fun a ha => absurd ha List.not_mem_nil) (fun a ha => ?_) (.inr hi)
    hj).resolve_left List.not_mem_nil
  exact ⟨hw.lt_size (mem_unseen.mp ha).1, Nat.le_add_left _ _⟩

/-! ### What a change reaches -/

/-- The given nodes and all that have to be evaluated again when they change. -/
def affected (m : Model) (changed : Set NodeId) : Set NodeId :=
  {i | i ∈ changed ∨ ∃ id ∈ changed, i ∈ m.invalidatedBy id}

theorem Sound.affected_closed (hm : m.Sound) (hw : m.Wired) {changed : Set NodeId}
    (hi : i ∈ m.affected changed) (hj : j ∈ m.dependantsOf i) : j ∈ m.affected changed := by
  rcases hi with hi | ⟨id, hid, hi⟩
  · exact .inr ⟨i, hi, hw.mem_invalidatedBy hj⟩
  · exact .inr ⟨id, hid, hm.invalidatedBy_closed hw hi hj⟩

/-- What stands outside a set that is closed under dependants has one value in environments that agree
on the paths outside the set. -/
theorem Sound.eval_congr_outside (hm : m.Sound) (hw : m.Wired) {S : Set NodeId}
    (hclosed : ∀ {i j}, i ∈ S → j ∈ m.dependantsOf i → j ∈ S) {env env' : Env}
    (hagree : ∀ n p, m.Holds n → n.label.id ∉ S → n.path? = some p → env p = env' p) {n : Node}
    (hn : m.Holds n) (hout : n.label.id ∉ S) : n.eval env = n.eval env' := by
  induction n using Expr.children_induction with
  | step n ih =>
      cases hleaf : n.isAssignable with
      | true =>
          rw [Expr.eval_of_isAssignable hleaf, Expr.eval_of_isAssignable hleaf]
          exact Env.read_congr fun p hp => hagree n p hn hout hp
      | false =>
          refine Expr.eval_congr_children hleaf fun c hc => ?_
          have hheld := hm.child hn hc
          cases hdyn : c.label.dynamic with
          | false => exact (hm.eval_constant hheld hdyn).2 env env'
          | true =>
              -- a part inside the set would bring the node into it
              exact ih c hc hheld fun hin => hout (hclosed hin (hw.mem_dependantsOf hn hc hdyn))

/-- **Invalidation is sound.**  Whatever nodes of a reachable model change, a node that is not affected
has the same value in all environments that agree on the paths of the variables and properties that
are not affected.  In particular a node that cannot change has the same value in all environments. -/
theorem Reachable.eval_unaffected (hm : m.Reachable) :
    (∀ (changed : Set NodeId) (env env' : Env),
      (∀ i n p, m.node? i = some n → i ∉ m.affected changed → n.path? = some p → env p = env' p) →
      ∀ i n, m.node? i = some n → i ∉ m.affected changed → n.eval env = n.eval env') ∧
    ∀ (i : NodeId) (n : Node), m.node? i = some n → n.label.dynamic = false →
      ∀ env env' : Env, n.eval env = n.eval env' := by
  have hs := hm.sound
  have hw := hm.wired
  refine ⟨fun changed env env' hagree i n hn hout => ?_, fun i n hn hconst env env' => ?_⟩
  · obtain rfl := hs.place hn
    refine hs.eval_congr_outside hw (hs.affected_closed hw) (fun n' p hn' hout' hp => ?_) hn hout
    exact hagree n'.label.id n' p hn' hout' hp
  · exact (hs.eval_constant (hs.holds hn) hconst).2 env env'

/-- Whatever `x` is set to, `y * 2` keeps its value, while `-(x + y * 2)` has to be evaluated again. -/
theorem eval_unaffected_product :
    ∃ (m : Model) (product : Node),
      m = build [.identifier "x" "int", .identifier "y" "int", .literal "2" "int", .binary 1 .mul 2,
        .binary 0 .add 3, .unary .neg 4] ∧
      m.node? 3 = some product ∧ m.invalidatedBy 0 = [4, 5] ∧
      ∀ (env : Env) (v : Value), product.eval (env.set "x" v) = product.eval env := by
  obtain ⟨m, hm⟩ : ∃ m, m = build [.identifier "x" "int", .identifier "y" "int", .literal "2" "int",
    .binary 1 .mul 2, .binary 0 .add 3, .unary .neg 4] := ⟨_, rfl⟩
  have hreachable : m.Reachable := hm ▸ reachable_build _
  have hx : ∀ i < m.size, (m.node? i).bind Expr.path? = some "x" → i = 0 := by
    rw [hm]
    decide +kernel
  have hinvalidated : m.invalidatedBy 0 = [4, 5] := by
    rw [hm]
    decide +kernel
  obtain ⟨product, hproduct⟩ := exists_node? (m := m) (i := 3) (by rw [hm]; decide +kernel)
  refine ⟨m, product, hm, hproduct, hinvalidated, fun env v => ?_⟩
  refine hreachable.eval_unaffected.1 {0} _ _ (fun i n p hn hout hp => ?_) 3 product hproduct ?_
  · refine if_neg ?_
    rintro rfl
    exact hout (.inl (hx i (node?_lt hn) (by rw [hn, ← hp]; rfl)))
  · rintro (h | ⟨id, rfl, h⟩)
    · cases h
    · rw [hinvalidated] at h
      exact absurd h (by decide)

end DataBinding.Model
