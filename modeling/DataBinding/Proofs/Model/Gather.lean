import DataBinding.Proofs.Inverse.Questions
import DataBinding.Proofs.Model.Memo

/-!
# Proofs — Models — what questions leave behind

A question for a type keeps types on the way to its answer, and where a cell is filled already it stops
and asks no further.  So what one question keeps depends on those before it.  What several questions
keep together does not: a type is only kept along with the types it was found from
(`TypeCache.Grown`), so a question that stops early finds all it would have kept there already.

* `Gathers`: what a computation keeps, after others, is what it would keep alone and what they kept.
* `typeOf_gathers`: asking for a type is such a computation.
* `Asking.gathers`: so is every computation that asks for types, one after the other.
-/

namespace DataBinding

variable {R : Resolver} {s : Model} {n : Node} {t t' u u' : TypeCache} {i : NodeId} {ε α β : Type}

/-! ### Cells that are filled by answers -/

/-- The children for whose types the node asks when its own is to be found. -/
def Layer.asked : Layer α → List α
  | .literal _ _ | .identifier _ _ | .cast _ _ | .unary .not _ => []
  | .property target _ => [target]
  | .binary left _ right => [left, right]
  | .unary _ operand => [operand]
  | .group inner => [inner]
  | .conditional _ positive negative => [positive, negative]
  | .assign target _ _ => [target]

theorem Layer.mem_of_asked {a : α} {layer : Layer α} (h : a ∈ layer.asked) : a ∈ layer.children := by
  cases layer with
  | unary op operand =>
      cases op with
      | not => cases h
      | neg | bitNot => exact h
  | conditional => exact List.mem_cons_of_mem _ h
  | assign =>
      obtain rfl := List.mem_singleton.mp h
      exact List.mem_cons_self
  | literal | identifier | cast => cases h
  | _ => exact h

/-- The cell is filled. -/
def TypeCache.Filled (t : TypeCache) (i : NodeId) : Prop := ∃ ty, (t[i]?).join = some ty

theorem TypeCache.Keeps.filled (h : t.Keeps t') (hi : t.Filled i) : t'.Filled i := by
  obtain ⟨ty, hty⟩ := hi
  exact ⟨ty, h.kept hty⟩

namespace TypeCache

/-- Cells have been filled by answers: each belongs to a node, and the children for which that node
asks have theirs filled too. -/
structure Grown (R : Resolver) (s : Model) (t t' : TypeCache) : Prop where
  keeps : t.Keeps t'
  same : SameTypes R s t t'
  filled : ∀ {i : NodeId}, ¬ t.Filled i → t'.Filled i →
    ∃ n, s.node? i = some n ∧ ∀ c ∈ n.layer.asked, t'.Filled c.label.id

theorem Grown.refl : Grown R s t t := ⟨.refl, .refl, fun hn h => absurd h hn⟩

theorem Grown.trans (h₁ : Grown R s t t') (h₂ : Grown R s t' u) : Grown R s t u where
  keeps := h₁.keeps.trans h₂.keeps
  same := h₁.same.trans h₂.same
  filled {i} hn h := by
    by_cases hi : t'.Filled i
    · obtain ⟨n, hnode, hasked⟩ := h₁.filled hn hi
      exact ⟨n, hnode, fun c hc => h₂.keeps.filled (hasked c hc)⟩
    · exact h₂.filled hi h

theorem typeIn_of_kept {ty : Ty} (h : (t[n.label.id]?).join = some ty) : R.typeIn t n = .ok ty := by
  rw [R.typeIn_eq, orElse, h]

/-- Cells that are filled in two ways hold the same type. -/
theorem Grown.agree (hs : s.Sound) (ht : Grown R s t t') (hu : Grown R s t u) {a b : Ty}
    (ha : (t'[i]?).join = some a) (hb : (u[i]?).join = some b) : a = b := by
  by_cases hi : t.Filled i
  · obtain ⟨ty, hty⟩ := hi
    have hta : some ty = some a := (ht.keeps.kept hty).symm.trans ha
    have hub : some ty = some b := (hu.keeps.kept hty).symm.trans hb
    exact Option.some.inj (hta.symm.trans hub)
  · obtain ⟨n, hnode, -⟩ := ht.filled hi ⟨a, ha⟩
    have hn := hs.holds hnode
    obtain rfl := hs.place hnode
    have heq : R.typeIn t' n = R.typeIn u n := (ht.same n hn).trans (hu.same n hn).symm
    rw [typeIn_of_kept ha, typeIn_of_kept hb] at heq
    exact Except.ok.inj heq

/-- Cells that were filled in two ways, but the same ones, are equal. -/
theorem Grown.eq_of_filled (hs : s.Sound) (ht : Grown R s t t') (hu : Grown R s t u)
    (h : ∀ i : NodeId, t'.Filled i ↔ u.Filled i) : t' = u := by
  have hsize : t'.size = u.size := ht.keeps.size.trans hu.keeps.size.symm
  refine Array.ext hsize fun i hi hi' => ?_
  have hcell : (t'[i]?).join = t'[i] := by rw [Array.getElem?_eq_getElem hi, Option.join_some]
  have hcell' : (u[i]?).join = u[i] := by rw [Array.getElem?_eq_getElem hi', Option.join_some]
  have hiff := h i
  rw [Filled, Filled, hcell, hcell'] at hiff
  cases hty : t'[i] with
  | some ty =>
      obtain ⟨ty', hty'⟩ := hiff.mp ⟨ty, hty⟩
      rw [hty', ht.agree hs hu (hcell.trans hty) (hcell'.trans hty')]
  | none =>
      cases hty' : u[i] with
      | none => rfl
      | some ty' =>
          obtain ⟨ty, hfull⟩ := hiff.mpr ⟨ty', hty'⟩
          rw [hty] at hfull
          cases hfull

/-- A cell that has been filled holds what its node would have been answered before. -/
theorem Grown.answer (hs : s.Sound) (h : Grown R s t t') {ty : Ty} (hi : (t'[i]?).join = some ty) :
    (t[i]?).join = some ty ∨ ∃ n, s.node? i = some n ∧ (R.typeOf n t).value.1 = .ok ty := by
  by_cases hfilled : t.Filled i
  · obtain ⟨ty', hty'⟩ := hfilled
    rw [h.keeps.kept hty'] at hi
    exact .inl (hty'.trans hi)
  · obtain ⟨n, hnode, -⟩ := h.filled hfilled ⟨ty, hi⟩
    have hn := hs.holds hnode
    obtain rfl := hs.place hnode
    refine .inr ⟨n, hnode, ?_⟩
    rw [(typeOf_asked hs hn t).answer, ← h.same n hn, typeIn_of_kept hi]

/-- The cells of `u'` are those of `t'` and `u` together. -/
def Joined (t' u u' : TypeCache) : Prop :=
  ∀ i : NodeId, (u'[i]?).join = ((t'[i]?).join).or (u[i]?).join

theorem Joined.filled_iff (h : Joined t' u u') : u'.Filled i ↔ t'.Filled i ∨ u.Filled i := by
  simp only [Filled, h i]
  cases (t'[i]?).join <;> simp

/-- What has been filled in addition on one side has been so on the other. -/
theorem Grown.across (hs : s.Sound) (ht : Grown R s t t') (hu : Grown R s t u) (hu' : Grown R s t' u')
    (hj : Joined t' u u') : Grown R s u u' where
  keeps := by
    refine ⟨hu'.keeps.size.trans (ht.keeps.size.trans hu.keeps.size.symm), fun {i ty} hi => ?_⟩
    rw [hj i, hi]
    cases hcell : (t'[i]?).join with
    | none => rfl
    | some ty' => rw [ht.agree hs hu hcell hi, Option.some_or]
  same := hu.same.symm.trans (ht.same.trans hu'.same)
  filled {i} hn h := by
    rcases hj.filled_iff.mp h with h | h
    · have hold : ¬ t.Filled i := fun ho => hn (hu.keeps.filled ho)
      obtain ⟨n, hnode, hasked⟩ := ht.filled hold h
      exact ⟨n, hnode, fun c hc => hu'.keeps.filled (hasked c hc)⟩
    · exact absurd h hn

end TypeCache

open TypeCache

/-! ### Computations that gather types -/

/-- What the computation keeps where other types have been kept is what it keeps without them, and
these. -/
structure Gathers (R : Resolver) (s : Model) (x : Typing ε α) : Prop where
  stable : Stable R s x
  grown : ∀ t, Grown R s t (x t).value.2
  joined : ∀ {t t'}, Grown R s t t' → Joined t' (x t).value.2 (x t').value.2

namespace Gathers

/-- What keeps no type gathers none. -/
theorem of_idle {x : Typing ε α} (hstable : Stable R s x) (hidle : ∀ t, (x t).value.2 = t) :
    Gathers R s x where
  stable := hstable
  grown t := by
    rw [hidle]
    exact .refl
  joined {t t'} h i := by
    rw [hidle, hidle]
    cases hcell : (t[i]?).join with
    | none => rw [Option.or_none]
    | some ty => rw [h.keeps.kept hcell, Option.some_or]

theorem pure (a : α) : Gathers R s (pure a : Typing ε α) := .of_idle (.pure a) fun _ => rfl

theorem throw (e : ε) : Gathers R s (throw e : Typing ε α) := .of_idle (.throw e) fun _ => rfl

theorem lift (answer : Except TypeError α) : Gathers R s (liftM answer : Typing TypeError α) := by
  cases answer with
  | error e => exact .throw e
  | ok a => exact .pure a

theorem bind (hs : s.Sound) {x : Typing ε α} {f : α → Typing ε β} (hx : Gathers R s x)
    (hf : ∀ a, Gathers R s (f a)) : Gathers R s (x >>= f) where
  stable := hx.stable.bind fun a => (hf a).stable
  grown t := by
    have hfirst := hx.grown t
    rw [value_bind_except]
    revert hfirst
    obtain ⟨e | a, u⟩ := (x t).value
    · exact fun hfirst => hfirst
    · exact fun hfirst => hfirst.trans ((hf a).grown u)
  joined {t t'} h := by
    have hanswer := (hx.stable t t' h.same).answer
    have hj := hx.joined h
    have hacross := h.across hs (hx.grown t) (hx.grown t') hj
    rw [value_bind_except, value_bind_except]
    revert hanswer hj hacross
    obtain ⟨e | a, u⟩ := (x t).value <;> obtain ⟨e' | a', u'⟩ := (x t').value <;>
      intro hanswer hj hacross <;> cases hanswer
    · exact hj
    · -- the second part goes from what the first has gathered on either side
      intro i
      have hlast := (hf a).grown u
      rw [(hf a).joined hacross i, hj i]
      cases hcell : (u[i]?).join with
      | none => rw [Option.or_none]
      | some ty => rw [hlast.keeps.kept hcell, Option.or_assoc, Option.some_or]

end Gathers

/-- The computation asks for the types of the given nodes: where they are known it keeps nothing, and
where it has a result they are. -/
structure Finds (nodes : List Node) (x : Typing TypeError α) : Prop where
  idle : ∀ t : TypeCache, (∀ c ∈ nodes, t.Filled c.label.id) → (x t).value.2 = t
  filled : ∀ (t : TypeCache) (a : α), (x t).value.1 = .ok a →
    ∀ c ∈ nodes, c.label.id < t.size → (x t).value.2.Filled c.label.id

namespace Finds

theorem lift (answer : Except TypeError α) : Finds [] (liftM answer : Typing TypeError α) where
  idle t _ := by cases answer <;> rfl
  filled _ _ _ c hc := absurd hc List.not_mem_nil

theorem typeOf (R : Resolver) (n : Node) : Finds [n] (R.typeOf n) where
  idle t h := by
    obtain ⟨ty, hty⟩ := h n (List.mem_singleton_self n)
    obtain ⟨find, hfind⟩ := exists_typeOf_eq R n
    rw [hfind, Typing.remember_value, hty]
  filled t ty hty c hc hlt := by
    obtain rfl := List.mem_singleton.mp hc
    exact ⟨ty, kept_of_typeOf hlt hty⟩

/-- A question before others. -/
theorem ask (R : Resolver) (n : Node) {nodes : List Node} {f : Ty → Typing TypeError α}
    (hf : ∀ ty, Finds nodes (f ty)) (hfills : ∀ ty, Typing.Fills (f ty)) :
    Finds (n :: nodes) (R.typeOf n >>= f) where
  idle t h := by
    have hfirst := (typeOf R n).idle t fun c hc =>
      h c (List.mem_singleton.mp hc ▸ List.mem_cons_self)
    rw [value_bind_except]
    revert hfirst
    obtain ⟨e | ty, u⟩ := (R.typeOf n t).value
    · exact id
    · rintro rfl
      exact (hf ty).idle u fun c hc => h c (List.mem_cons_of_mem _ hc)
  filled t b hb c hc hlt := by
    have hsize := (typeOf_fills R n t).size
    have hfirst := (typeOf R n).filled t
    rw [value_bind_except] at hb ⊢
    revert hb hsize hfirst
    obtain ⟨e | ty, u⟩ := (R.typeOf n t).value
    · intro hb
      cases hb
    · intro hb hsize hfirst
      rcases List.mem_cons.mp hc with rfl | hc
      · exact (hfills ty u).filled (hfirst ty rfl c (List.mem_singleton_self c) hlt)
      · exact (hf ty).filled u b hb c hc (hsize ▸ hlt)

end Finds

/-! ### Asking for a type -/

theorem TypeCache.join_fill (u : TypeCache) (k : NodeId) (ty : Ty) (i : NodeId) :
    ((u.setIfInBounds k (some ty))[i]?).join =
      if k = i ∧ k < u.size then some ty else (u[i]?).join := by
  rw [Array.getElem?_setIfInBounds]
  by_cases hk : k = i
  · subst hk
    by_cases hlt : k < u.size
    · rw [if_pos rfl, if_pos hlt, if_pos ⟨rfl, hlt⟩]
      rfl
    · rw [if_pos rfl, if_neg hlt, if_neg fun h => hlt h.2,
        Array.getElem?_eq_none (Nat.le_of_not_lt hlt)]
  · rw [if_neg hk, if_neg fun h => hk h.1]

/-- A type is kept along with the types it was found from. -/
theorem TypeCache.Grown.fill (hs : s.Sound) (hn : s.Holds n) {ty : Ty} (hty : R.typeIn u n = .ok ty)
    (hasked : n.label.id < u.size → ∀ c ∈ n.layer.asked, u.Filled c.label.id) :
    Grown R s u (u.setIfInBounds n.label.id (some ty)) := by
  have hkeeps : u.Keeps (u.setIfInBounds n.label.id (some ty)) := by
    refine ⟨Array.size_setIfInBounds, fun {i ty'} hi => ?_⟩
    rw [join_fill]
    split
    · rename_i hplace
      obtain ⟨rfl, -⟩ := hplace
      rw [typeIn_of_kept hi] at hty
      rw [Except.ok.inj hty]
    · exact hi
  refine ⟨hkeeps, .fill hs hn hty, fun {i} hempty h => ?_⟩
  rw [Filled, join_fill] at h
  split at h
  · rename_i hplace
    obtain ⟨rfl, hlt⟩ := hplace
    exact ⟨n, hn, fun c hc => hkeeps.filled (hasked hlt c hc)⟩
  · exact absurd h hempty

/-- Asking for a type gathers types, if what it asks of the children does. -/
theorem typeOf_gathers_of_find (hs : s.Sound) (hn : s.Holds n) {find : Typing TypeError Ty}
    (heq : R.typeOf n = Typing.remember n.label.id find) (hgathers : Gathers R s find)
    (hfinds : Finds n.layer.asked find) : Gathers R s (R.typeOf n) where
  stable := .typeOf hs hn
  grown t := by
    have hanswer := (typeOf_asked (R := R) hs hn t).answer
    have hgrown := hgathers.grown t
    have hfilled := hfinds.filled t
    rw [heq, Typing.remember_value] at hanswer ⊢
    cases hcell : (t[n.label.id]?).join with
    | some ty => exact .refl
    | none =>
        rw [hcell] at hanswer
        dsimp only at hanswer ⊢
        revert hanswer hgrown hfilled
        obtain ⟨e | ty, u⟩ := (find t).value
        · exact fun _ hgrown _ => hgrown
        · intro hanswer hgrown hfilled
          have hty : R.typeIn u n = .ok ty := (hgrown.same n hn).trans hanswer.symm
          refine hgrown.trans (.fill hs hn hty fun hlt c hc => hfilled ty rfl c hc ?_)
          -- the children have cells, as they stand before the node
          rw [← hgrown.keeps.size]
          exact Nat.lt_trans (hs.child_lt hn (Layer.mem_of_asked hc)) hlt
  joined {t t'} h := by
    intro i
    have hanswer := (hgathers.stable t t' h.same).answer
    have hfind := hgathers.joined h i
    have hidle := hfinds.idle t'
    have hsize : (find t').value.2.size = (find t).value.2.size := by
      rw [(hgathers.grown t').keeps.size, h.keeps.size, (hgathers.grown t).keeps.size]
    rw [heq, Typing.remember_value, Typing.remember_value]
    cases hcell : (t[n.label.id]?).join with
    | some ty =>
        rw [h.keeps.kept hcell]
        have hpure : Gathers R s (pure ty : Typing TypeError Ty) := .pure ty
        exact hpure.joined h i
    | none =>
        cases hcell' : (t'[n.label.id]?).join with
        | some ty =>
            -- the type has been found in between, along with all that it is found from
            obtain ⟨n', hn', hasked⟩ := h.filled (by simp [Filled, hcell]) ⟨ty, hcell'⟩
            obtain rfl := hn.eq_of_id (hs.holds hn') (hs.place hn').symm
            rw [hidle hasked] at hfind
            dsimp only
            cases hi : (t'[i]?).join with
            | some ty => rw [Option.some_or]
            | none =>
                have hne : ¬ (n.label.id = i ∧ n.label.id < (find t).value.2.size) := by
                  rintro ⟨rfl, -⟩
                  rw [hi] at hcell'
                  cases hcell'
                rw [hi, Option.none_or] at hfind
                revert hne hfind
                obtain ⟨e | ty, u⟩ := (find t).value
                · exact fun hfind _ => hfind
                · intro hfind hne
                  rw [Option.none_or, join_fill, if_neg hne]
                  exact hfind
        | none =>
            dsimp only
            revert hanswer hfind hsize
            obtain ⟨e | ty, u⟩ := (find t).value <;> obtain ⟨e' | ty', u'⟩ := (find t').value <;>
              intro hanswer hfind hsize <;> cases hanswer
            · exact hfind
            · dsimp only at hsize ⊢
              rw [join_fill, join_fill, hsize]
              split
              · rename_i hplace
                obtain ⟨rfl, -⟩ := hplace
                rw [hcell', Option.none_or]
              · exact hfind

/-- **Asking for a type gathers types.** -/
theorem typeOf_gathers (hs : s.Sound) (hn : s.Holds n) : Gathers R s (R.typeOf n) := by
  induction n using Expr.children_induction with
  | step n ih =>
      have part {a : Node} (ha : a ∈ n.layer.asked) : Gathers R s (R.typeOf a) :=
        ih a (Layer.mem_of_asked ha) (hs.child hn (Layer.mem_of_asked ha))
      cases n with
      | literal | identifier | cast => exact typeOf_gathers_of_find hs hn rfl (.lift _) (.lift _)
      | property l target name =>
          exact typeOf_gathers_of_find hs hn rfl
            ((part (List.mem_singleton_self target)).bind hs fun _ => .lift _)
            (.ask R target (fun _ => .lift _) fun _ => .lift _)
      | binary l left op right =>
          exact typeOf_gathers_of_find hs hn rfl
            ((part List.mem_cons_self).bind hs fun _ =>
              (part (List.mem_cons_of_mem _ List.mem_cons_self)).bind hs fun _ => .lift _)
            (.ask R left (fun _ => .ask R right (fun _ => .lift _) fun _ => .lift _)
              fun _ => (typeOf_fills R right).bind fun _ => .lift _)
      | unary l op operand =>
          cases op with
          | not => exact typeOf_gathers_of_find hs hn rfl (.lift _) (.lift _)
          | neg | bitNot =>
              exact typeOf_gathers_of_find hs hn rfl (part (List.mem_singleton_self operand))
                (.typeOf R operand)
      | group l inner =>
          exact typeOf_gathers_of_find hs hn rfl (part (List.mem_singleton_self inner))
            (.typeOf R inner)
      | conditional l condition positive negative =>
          exact typeOf_gathers_of_find hs hn rfl
            ((part List.mem_cons_self).bind hs fun _ =>
              (part (List.mem_cons_of_mem _ List.mem_cons_self)).bind hs fun _ => .lift _)
            (.ask R positive (fun _ => .ask R negative (fun _ => .lift _) fun _ => .lift _)
              fun _ => (typeOf_fills R negative).bind fun _ => .lift _)
      | assign l target value context =>
          exact typeOf_gathers_of_find hs hn rfl (part (List.mem_singleton_self target))
            (.typeOf R target)

/-! ### Questions, one after the other -/

theorem nodeType_gathers (hs : s.Sound) (hn : s.Holds n) : Gathers R s (R.nodeType n) where
  stable := .nodeType hs hn
  grown := (typeOf_gathers hs hn).grown
  joined := (typeOf_gathers hs hn).joined

/-- What is kept along a series of questions is what each of them would keep alone. -/
theorem Asking.gathers {x : Typing BindingError α} (h : Asking R s x) (hs : s.Sound) :
    Gathers R s x := by
  induction h with
  | pure a => exact .pure a
  | throw e => exact .throw e
  | ask hn => exact nodeType_gathers hs hn
  | bind _ _ ihx ihf => exact ihx.bind hs ihf

end DataBinding
