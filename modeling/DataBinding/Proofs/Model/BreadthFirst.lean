import DataBinding.Proofs.Model.Invalidation

/-!
# Proofs — Models — what a change invalidates, and in which order

A node is invalidated by another if a chain of edges leads from it down to the other.  There can be
several chains, of different lengths, and the shortest of them is the node's distance.

The search goes from one distance to the next.  Each round begins with the nodes at one distance, each
once, and has seen those that are nearer (`Front`); so the rounds list the nodes level by level
(`Front.spread_levels`), and no chain is longer than there are rounds.

`Search` is the same search with a queue, in which a node waits once for every node that it depends on
and is passed over when it comes up again.  Level by level it takes up the same nodes
(`spread_search`).

* `Reachable.invalidatedBy_exact`: what is listed, how often, and in which order.
-/

namespace DataBinding.Model

variable {m : Model} {id i j : NodeId} {k : Nat} {seen queue frontier found : List NodeId}

/-! ### Chains -/

/-- A chain of the given number of edges leads from a node down to the node at `id`. -/
inductive Chain (m : Model) (id : NodeId) : Nat → NodeId → Prop where
  | edge {i : NodeId} (h : m.DependsOn i id) : Chain m id 1 i
  | step {k : Nat} {i j : NodeId} (h : m.DependsOn i j) (hchain : Chain m id k j) :
      Chain m id (k + 1) i

/-- A chain goes down to older nodes. -/
theorem Chain.add_le (hm : m.Sound) (hw : m.Wired) (h : m.Chain id k i) : id + k ≤ i := by
  induction h with
  | edge h => exact hm.lt_dependant hw (hw.mem_iff.mpr h)
  | step h _ ih => exact Nat.succ_le_of_lt (Nat.lt_of_le_of_lt ih (hm.lt_dependant hw (hw.mem_iff.mpr h)))

theorem Chain.pos (h : m.Chain id k i) : 0 < k := by
  cases h <;> exact Nat.succ_pos _

theorem Chain.lt_size (h : m.Chain id k i) : i < m.size := by
  obtain ⟨n, hn, -⟩ | ⟨⟨n, hn, -⟩, -⟩ := h <;> exact node?_lt hn

/-- The shortest chains from the node at `i` down to the node at `id` have the given length. -/
structure Distance (m : Model) (id : NodeId) (k : Nat) (i : NodeId) : Prop where
  chain : m.Chain id k i
  shortest : ∀ {k'}, m.Chain id k' i → k ≤ k'

theorem Chain.exists_distance (h : m.Chain id k i) : ∃ d ≤ k, m.Distance id d i := by
  induction k using Nat.strongRecOn with
  | ind k ih =>
      by_cases hshort : ∃ k' < k, m.Chain id k' i
      · obtain ⟨k', hlt, hchain⟩ := hshort
        obtain ⟨d, hd, hdist⟩ := ih k' hlt hchain
        exact ⟨d, Nat.le_trans hd (Nat.le_of_lt hlt), hdist⟩
      · refine ⟨k, Nat.le_refl k, h, fun {k'} hchain => Nat.le_of_not_lt fun hlt => ?_⟩
        exact hshort ⟨k', hlt, hchain⟩

theorem distance_one_iff : m.Distance id 1 i ↔ m.DependsOn i id := by
  constructor
  · rintro ⟨h | ⟨_, hchain⟩, -⟩
    · exact h
    · exact absurd hchain.pos (Nat.lt_irrefl 0)
  · exact fun h => ⟨.edge h, fun hchain => hchain.pos⟩

/-- The nodes at one distance more are the dependants of those at the distance that are not nearer. -/
theorem distance_succ_iff (hk : 0 < k) :
    m.Distance id (k + 1) i ↔
      (∃ j, m.Distance id k j ∧ m.DependsOn i j) ∧ ∀ d ≤ k, ¬ m.Distance id d i := by
  constructor
  · rintro ⟨hchain, hshortest⟩
    refine ⟨?_, fun d hd h => Nat.not_succ_le_self k (Nat.le_trans (hshortest h.chain) hd)⟩
    obtain h | @⟨_, _, j, h, hchain⟩ := hchain
    · cases hk
    · exact ⟨j, ⟨hchain, fun hshort => Nat.le_of_succ_le_succ (hshortest (.step h hshort))⟩, h⟩
  · rintro ⟨⟨j, hj, h⟩, hfar⟩
    refine ⟨.step h hj.chain, fun {k'} hchain => Nat.lt_of_not_le fun hle => ?_⟩
    obtain ⟨d, hd, hdist⟩ := hchain.exists_distance
    exact hfar d (Nat.le_trans hd hle) hdist

/-! ### Level by level -/

theorem nodup_unseen (seen l : List NodeId) : (unseen seen l).Nodup := by
  induction l generalizing seen with
  | nil => exact List.nodup_nil
  | cons a l ih =>
      rw [unseen]
      split
      · exact ih seen
      · refine List.nodup_cons.mpr ⟨fun h => ?_, ih (a :: seen)⟩
        exact (mem_unseen.mp h).2 List.mem_cons_self

/-- A round begins with the nodes at distance `k`, each once, when those that are nearer have been
seen. -/
structure Front (m : Model) (id : NodeId) (k : Nat) (seen frontier : List NodeId) : Prop where
  pos : 0 < k
  mem_seen : ∀ {i}, i ∈ seen ↔ ∃ d < k, m.Distance id d i
  mem_frontier : ∀ {i}, i ∈ frontier ↔ m.Distance id k i
  nodup : frontier.Nodup

namespace Front

theorem mem_seen_next (h : m.Front id k seen frontier) :
    i ∈ frontier ++ seen ↔ ∃ d < k + 1, m.Distance id d i := by
  rw [List.mem_append, h.mem_frontier, h.mem_seen]
  constructor
  · rintro (hi | ⟨d, hd, hi⟩)
    · exact ⟨k, Nat.lt_succ_self k, hi⟩
    · exact ⟨d, Nat.lt_succ_of_lt hd, hi⟩
  · rintro ⟨d, hd, hi⟩
    rcases Nat.lt_succ_iff_lt_or_eq.mp hd with hlt | rfl
    · exact .inr ⟨d, hlt, hi⟩
    · exact .inl hi

/-- A round leads from one distance to the next. -/
theorem next (hw : m.Wired) (h : m.Front id k seen frontier) :
    m.Front id (k + 1) (frontier ++ seen)
      (unseen (frontier ++ seen) (frontier.flatMap m.dependantsOf)) where
  pos := Nat.succ_pos k
  mem_seen := h.mem_seen_next
  mem_frontier {i} := by
    rw [mem_unseen, h.mem_seen_next, List.mem_flatMap, distance_succ_iff h.pos]
    simp only [h.mem_frontier, hw.mem_iff, Nat.lt_succ_iff, not_exists, not_and]
  nodup := nodup_unseen _ _

/-- **The rounds list the nodes level by level.** -/
theorem spread_levels (hw : m.Wired) (h : m.Front id k seen frontier) (rounds : Nat) :
    (∀ i, i ∈ m.spread rounds seen frontier ↔ ∃ d, k ≤ d ∧ d < k + rounds ∧ m.Distance id d i) ∧
      (m.spread rounds seen frontier).Nodup ∧
      (m.spread rounds seen frontier).Pairwise
        fun i j => ∃ a b, m.Distance id a i ∧ m.Distance id b j ∧ a ≤ b := by
  induction rounds generalizing k seen frontier with
  | zero =>
      refine ⟨fun i => ?_, List.nodup_nil, List.Pairwise.nil⟩
      rw [spread]
      constructor
      · intro hi
        cases hi
      · rintro ⟨d, hle, hlt, -⟩
        exact absurd hlt (Nat.not_lt_of_le hle)
  | succ rounds ih =>
      obtain ⟨hmem, hnodup, hsorted⟩ := ih (h.next hw)
      rw [spread]
      refine ⟨fun i => ?_, ?_, ?_⟩
      · rw [List.mem_append, h.mem_frontier, hmem]
        constructor
        · rintro (hi | ⟨d, hle, hlt, hi⟩)
          · exact ⟨k, Nat.le_refl k, by omega, hi⟩
          · exact ⟨d, by omega, by omega, hi⟩
        · rintro ⟨d, hle, hlt, hi⟩
          rcases Nat.eq_or_lt_of_le hle with rfl | hlt'
          · exact .inl hi
          · exact .inr ⟨d, hlt', by omega, hi⟩
      · -- what a later round lists is farther, so it is none of the frontier
        refine List.nodup_append.mpr ⟨h.nodup, hnodup, fun a ha b hb hab => ?_⟩
        subst hab
        obtain ⟨d, hle, -, hd⟩ := (hmem a).mp hb
        exact Nat.not_succ_le_self k (Nat.le_trans hle (hd.shortest (h.mem_frontier.mp ha).chain))
      · refine List.pairwise_append.mpr ⟨?_, hsorted, fun a ha b hb => ?_⟩
        · refine List.pairwise_of_forall_mem_list fun a ha b hb => ?_
          exact ⟨k, k, h.mem_frontier.mp ha, h.mem_frontier.mp hb, Nat.le_refl k⟩
        · obtain ⟨d, hle, -, hd⟩ := (hmem b).mp hb
          exact ⟨k, d, h.mem_frontier.mp ha, hd, Nat.le_of_succ_le hle⟩

end Front

/-- The first round begins with the dependants of the node. -/
theorem Wired.front (hw : m.Wired) (id : NodeId) :
    m.Front id 1 [] (unseen [] (m.dependantsOf id)) where
  pos := Nat.one_pos
  mem_seen {i} := by
    refine ⟨fun h => absurd h List.not_mem_nil, ?_⟩
    rintro ⟨d, hd, hi⟩
    exact absurd hi.chain.pos (Nat.not_lt_of_le (Nat.le_of_lt_succ hd))
  mem_frontier {i} := by
    rw [mem_unseen, hw.mem_iff, distance_one_iff]
    exact and_iff_left List.not_mem_nil
  nodup := nodup_unseen _ _

/-! ### With a queue -/

/-- A search with a queue, from what has been seen and what waits to what is found: the node that comes
up is passed over if it has been seen, and otherwise taken up, and its dependants wait behind the
others. -/
inductive Search (m : Model) : List NodeId → List NodeId → List NodeId → Prop where
  | done (seen : List NodeId) : Search m seen [] []
  | skip {seen queue found : List NodeId} {next : NodeId} (h : next ∈ seen)
      (hrest : Search m seen queue found) : Search m seen (next :: queue) found
  | visit {seen queue found : List NodeId} {next : NodeId} (h : next ∉ seen)
      (hrest : Search m (next :: seen) (queue ++ m.dependantsOf next) found) :
      Search m seen (next :: queue) (next :: found)

/-- The order in which nodes have been seen does not matter. -/
theorem Search.congr {seen' : List NodeId} (h : m.Search seen queue found)
    (hseen : ∀ i, i ∈ seen' ↔ i ∈ seen) : m.Search seen' queue found := by
  induction h generalizing seen' with
  | done => exact .done seen'
  | skip hnext _ ih => exact .skip ((hseen _).mpr hnext) (ih hseen)
  | visit hnext _ ih =>
      refine .visit (fun h => hnext ((hseen _).mp h)) (ih fun i => ?_)
      rw [List.mem_cons, List.mem_cons, hseen]

/-- The search takes up what waits first, as far as it has not been seen, before what comes to wait
meanwhile. -/
theorem Search.level (seen queue waiting : List NodeId)
    (h : m.Search ((unseen seen queue).reverse ++ seen)
      (waiting ++ (unseen seen queue).flatMap m.dependantsOf) found) :
    m.Search seen (queue ++ waiting) (unseen seen queue ++ found) := by
  induction queue generalizing seen waiting with
  | nil => simpa [unseen] using h
  | cons a queue ih =>
      rw [unseen] at h ⊢
      split at h
      · rename_i ha
        rw [if_pos ha]
        exact .skip ha (ih seen waiting h)
      · rename_i ha
        have hrest := ih (a :: seen) (waiting ++ m.dependantsOf a) (by simpa using h)
        rw [if_neg ha]
        exact .visit ha (List.append_assoc queue waiting _ ▸ hrest)

/-- **The rounds are a search with a queue**, if they reach the end of the model. -/
theorem spread_search (hm : m.Sound) (hw : m.Wired) (seen queue : List NodeId) {rounds : Nat}
    (hqueue : ∀ i ∈ queue, i < m.size ∧ m.size ≤ i + rounds) :
    m.Search seen queue (m.spread rounds seen (unseen seen queue)) := by
  induction rounds generalizing seen queue with
  | zero =>
      -- nothing waits, as it would stand behind the end
      cases queue with
      | nil => exact .done seen
      | cons a queue =>
          obtain ⟨hlt, hle⟩ := hqueue a List.mem_cons_self
          exact absurd hlt (Nat.not_lt_of_le hle)
  | succ rounds ih =>
      have hnext : ∀ b ∈ (unseen seen queue).flatMap m.dependantsOf,
          b < m.size ∧ m.size ≤ b + rounds := by
        intro b hb
        obtain ⟨a, ha, hb⟩ := List.mem_flatMap.mp hb
        refine ⟨hw.lt_size hb, ?_⟩
        calc m.size ≤ a + (rounds + 1) := (hqueue a (mem_unseen.mp ha).1).2
          _ = a + 1 + rounds := (Nat.succ_add_eq_add_succ a rounds).symm
          _ ≤ b + rounds := Nat.add_le_add_right (hm.lt_dependant hw hb) rounds
      have hlevel := Search.level seen queue []
        ((ih (unseen seen queue ++ seen) _ hnext).congr fun i => by simp)
      rwa [List.append_nil] at hlevel

/-! ### The whole search -/

/-- **What a change invalidates.**  In a reachable model the search from a node with a queue ends, and
lists exactly the nodes from which a chain of edges leads down to it, each once and never the node
itself.  A node comes before another only if its shortest chain is not longer: for every chain from the
other there is one from it that is no longer. -/
theorem Reachable.invalidatedBy_exact (hm : m.Reachable) (id : NodeId) :
    m.Search [] (m.dependantsOf id) (m.invalidatedBy id) ∧
      (∀ i, i ∈ m.invalidatedBy id ↔ ∃ k, m.Chain id k i) ∧
      (m.invalidatedBy id).Nodup ∧ id ∉ m.invalidatedBy id ∧
      (m.invalidatedBy id).Pairwise fun i j =>
        ∀ b, m.Chain id b j → ∃ a ≤ b, m.Chain id a i := by
  have hs := hm.sound
  have hw := hm.wired
  obtain ⟨hlevels, hnodup, hsorted⟩ := (hw.front id).spread_levels hw m.size
  have hmem : ∀ i, i ∈ m.invalidatedBy id ↔ ∃ k, m.Chain id k i := by
    intro i
    rw [invalidatedBy, hlevels]
    constructor
    · rintro ⟨d, -, -, hd⟩
      exact ⟨d, hd.chain⟩
    · rintro ⟨k, hk⟩
      obtain ⟨d, -, hd⟩ := hk.exists_distance
      refine ⟨d, hd.chain.pos, ?_, hd⟩
      -- a chain has no more edges than there are nodes
      calc d ≤ id + d := Nat.le_add_left d id
        _ ≤ i := hd.chain.add_le hs hw
        _ < m.size := hk.lt_size
        _ ≤ 1 + m.size := Nat.le_add_left _ 1
  refine ⟨?_, hmem, hnodup, fun h => ?_, hsorted.imp ?_⟩
  · exact spread_search hs hw [] _ fun i hi => ⟨hw.lt_size hi, Nat.le_add_left _ _⟩
  · obtain ⟨k, hk⟩ := (hmem id).mp h
    exact Nat.not_lt_of_le (hk.add_le hs hw) (Nat.lt_add_of_pos_right hk.pos)
  · rintro i j ⟨a, b, hi, hj, hab⟩ b' hb'
    exact ⟨a, Nat.le_trans hab (hj.shortest hb'), hi.chain⟩

/-- Besides `-x`, `--x` and `---x` there is `x + ---x`, which is the last to be stored and comes second,
as it reads `x` itself. -/
theorem invalidatedBy_exact_shortcut :
    ∃ m : Model, m = build [.identifier "x" "int", .unary .neg 0, .unary .neg 1, .unary .neg 2,
        .binary 0 .add 3] ∧
      m.invalidatedBy 0 = [1, 4, 2, 3] ∧ m.Search [] [1, 4] [1, 4, 2, 3] ∧
      (∃ k, m.Chain 0 k 3) ∧ ¬ (∃ k, m.Chain 0 k 0) ∧
      ∀ b, m.Chain 0 b 2 → ∃ a ≤ b, m.Chain 0 a 4 := by
  obtain ⟨m, hm⟩ : ∃ m, m = build [.identifier "x" "int", .unary .neg 0, .unary .neg 1, .unary .neg 2,
    .binary 0 .add 3] := ⟨_, rfl⟩
  have hlist : m.invalidatedBy 0 = [1, 4, 2, 3] := by
    rw [hm]
    decide +kernel
  have hdependants : m.dependantsOf 0 = [1, 4] := by
    rw [hm]
    decide +kernel
  obtain ⟨hsearch, hmem, -, hself, hsorted⟩ :=
    Reachable.invalidatedBy_exact (hm ▸ reachable_build _) (m := m) 0
  rw [hlist] at hsearch hself hsorted
  rw [hdependants] at hsearch
  refine ⟨m, hm, hlist, hsearch, (hmem 3).mp (by rw [hlist]; decide), fun h => ?_, ?_⟩
  · exact absurd ((hmem 0).mpr h) (hlist ▸ hself)
  · exact (List.pairwise_cons.mp (List.pairwise_cons.mp hsorted).2).1 2 List.mem_cons_self

end DataBinding.Model
