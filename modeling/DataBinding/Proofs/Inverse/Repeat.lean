import DataBinding.Proofs.Inverse.Agreement
import DataBinding.Proofs.Inverse.Effects
import DataBinding.Proofs.Model.Shared

/-!
# Proofs — Inversion — solving elsewhere and solving again

What solving stores is looked up by its key first, so where the nodes of a solution stand, and how many
of them are new, depends on what the destination holds.  Their keys do not: each is given by the key of
the value and the keys of the source.  And when the equation is solved again, each step of the way finds
what it has stored before, and its question the answer that it had.

* `solveAt_alike`: in two destinations the outcome is the same but for the place of the result.
* `solveAt_again`: in one destination it is the same the second time, and nothing is stored.
* `solve_repeatable`: both, for reachable models.
-/

namespace DataBinding

/-! ### Asking again -/

section Typing

variable {R : Resolver} {s : Model} {t t' u : TypeCache} {ε α : Type}

/-- Cells that have been filled further after others have been. -/
theorem TypeCache.Grown.of_keeps (hu : t.Grown R s u) (ht : t.Grown R s t') (hkeeps : u.Keeps t') :
    u.Grown R s t' where
  keeps := hkeeps
  same := hu.same.symm.trans ht.same
  filled hn h := ht.filled (fun hi => hn (hu.keeps.filled hi)) h

/-- Where all is kept that a computation keeps, it has the same answer and keeps nothing more. -/
theorem Gathers.again {x : Typing ε α} (hx : Gathers R s x) (hs : s.Sound) (h : t.Grown R s t')
    (hkeeps : (x t).value.2.Keeps t') : (x t').value = ((x t).value.1, t') := by
  refine Prod.ext (hx.stable t t' h.same).answer ?_
  refine (h.trans (hx.grown t')).eq_of_filled hs h fun i => ?_
  rw [(hx.joined h).filled_iff]
  exact or_iff_left_of_imp hkeeps.filled

end Typing

namespace Inverse

variable {R : Resolver} {limit depth : Nat} {context : Context} {s m m' : Model} {node v v' : Node}
  {w w' : Workspace} {d : Descent}

/-! ### In another destination -/

/-- Two outcomes that differ at most in where the result stands: the same error, or nodes of the two
models with one key. -/
inductive Alike (m m' : Model) : Except BindingError Node → Except BindingError Node → Prop where
  | error (e : BindingError) : Alike m m' (.error e) (.error e)
  | ok {a a' : Node} (ha : m.Holds a) (ha' : m'.Holds a') (hkey : a'.label.key = a.label.key) :
      Alike m m' (.ok a) (.ok a')

/-- **The outcome does not depend on the destination**, nor on what has been asked before. -/
theorem solveAt_alike (hs : s.Sound) (hn : s.Holds node) (hsame : SameTypes R s w.types w'.types)
    (hm : w.dest.Sound) (hm' : w'.dest.Sound) (hv : w.dest.Holds v) (hv' : w'.dest.Holds v')
    (hkey : v'.label.key = v.label.key) :
    Alike (solveAt R limit context depth node v.label.id w).value.2.dest
      (solveAt R limit context depth node v'.label.id w').value.2.dest
      (solveAt R limit context depth node v.label.id w).value.1
      (solveAt R limit context depth node v'.label.id w').value.1 := by
  induction node using Expr.children_induction generalizing depth v v' w w' with
  | step node ih =>
      by_cases hlimit : limit < depth
      · rw [solveAt_value, solveAt_value, if_pos hlimit, if_pos hlimit]
        exact .error _
      have hdepth := Nat.le_of_not_lt hlimit
      have hstable : Stable R s (gate R node) := gate_stable hs hn
      obtain ⟨hanswer, hsame'⟩ := hstable w.types w'.types hsame
      have hfirst := (hstable w.types w.types .refl).same
      rcases hgate : (gate R node w.types).value with ⟨answer, types⟩
      rcases hgate' : (gate R node w'.types).value with ⟨answer', types'⟩
      rw [hgate, hgate'] at hanswer
      rw [hgate'] at hsame'
      rw [hgate] at hfirst
      obtain rfl : answer' = answer := hanswer
      rcases answer' with e | d
      · rw [solveAt_refused hdepth _ hgate, solveAt_refused hdepth _ hgate']
        exact .error e
      have hopens : Opens R w.types node d := gate_ok_iff.mp (congrArg Prod.fst hgate)
      cases hpart : d.part? with
      | none =>
          obtain ⟨a, dest, heq, ha, hakey⟩ :=
            assign_stored context (w := { w with types }) hs hn hm hv
          obtain ⟨a', dest', heq', ha', hakey'⟩ :=
            assign_stored context (w := { w' with types := types' }) hs hn hm' hv'
          rw [solveAt_arrived hdepth _ hgate hpart, solveAt_arrived hdepth _ hgate' hpart, heq, heq']
          exact .ok ha ha' (by rw [hakey, hakey', hkey])
      | some part =>
          have hsourced := hopens.sourced hs hn
          obtain ⟨a, dest, hreq, hst⟩ := require_stored hs .true hm hsourced hv
          obtain ⟨a', dest', hreq', hst'⟩ := require_stored hs .true hm' hsourced hv'
          rw [solveAt_down hdepth hgate hpart hreq, solveAt_down hdepth hgate' hpart hreq']
          have hmem := hopens.part_mem hpart
          refine ih part hmem (hs.child hn hmem) (hfirst.symm.trans hsame') (hst.grows.sound hm)
            (hst'.grows.sound hm') hst.holds hst'.holds ?_
          rw [hst.key, hst'.key]
          refine d.key_required ?_
          rw [Expr.key_bare, Expr.key_bare, ← hm.label_key hv, ← hm'.label_key hv', hkey]

/-! ### In the same destination -/

theorem add_id_repeats (layer : Layer Node) (hm : m.Sound) (hc : ∀ c ∈ layer.children, m.Holds c) :
    Repeats (do return (← Model.add (layer.map (·.label.id))).label.id) m :=
  (Repeats.add hm hc).bind fun a _ => ⟨.pure a.label.id _, .refl⟩

/-- A step down finds what it has stored. -/
theorem require_repeats (hs : s.Sound) (hm : m.Sound) (hd : d.Sourced s fun _ => True)
    (hv : m.Holds v) : Repeats (d.require v.label.id) m := by
  cases d with
  | arrive | keep => exact .pure v.label.id m
  | unary op part =>
      exact add_id_repeats (.unary op v) hm (List.forall_mem_singleton.mpr hv)
  | cast ty part =>
      exact add_id_repeats (.cast ty v) hm (List.forall_mem_singleton.mpr hv)
  | rearrange r constant part =>
      have hcopy := copy_stored hs .true hd.1 hm
      refine (Repeats.copy hs hd.1 hm).bind fun a ha => ?_
      obtain rfl : (constant.copy m).value.1 = a := Except.ok.inj ha
      refine ⟨?_, add_id_grows (hcopy.grows.sound hm) fun _ _ => trivial⟩
      have hadd := add_id_repeats (r.layer v (constant.copy m).value.1) (hcopy.grows.sound hm)
        (rearrangement_children_hold (hcopy.grows.holds hv) hcopy.holds)
      rwa [map_rearrangement_layer] at hadd

/-- So does the assignment at the end of the way. -/
theorem assign_again (hs : s.Sound) (hn : s.Holds node) (hm : w.dest.Sound) (hv : w.dest.Holds v)
    (hg : (assign node v.label.id context w).value.2.dest.Extends (fun _ => True) w'.dest) :
    (assign node v.label.id context w').value =
      ((assign node v.label.id context w).value.1, w') := by
  have hcopy := copy_stored hs .true hn hm
  have hrepeats : Repeats (do
      Model.add (.assign (← node.copy).label.id v.label.id context)) w.dest := by
    refine (Repeats.copy hs hn hm).bind fun a ha => ?_
    obtain rfl : (node.copy w.dest).value.1 = a := Except.ok.inj ha
    exact ⟨.add (hcopy.grows.sound hm) (assign_value_of_holds context hcopy hv).1,
      Model.add_grows (hcopy.grows.sound hm) fun _ _ => trivial⟩
  rw [assign, inDest_value] at hg
  rw [assign, inDest_value, inDest_value, hrepeats w'.dest hg]

/-- **Solving again**, after others that ask and build, has the same outcome, and leaves what it
finds. -/
theorem solveAt_again (hs : s.Sound) (hn : s.Holds node) (hm : w.dest.Sound) (hv : w.dest.Holds v)
    (htypes : w.types.Grown R s w'.types)
    (hkeeps : (solveAt R limit context depth node v.label.id w).value.2.types.Keeps w'.types)
    (hdest : (solveAt R limit context depth node v.label.id w).value.2.dest.Extends
      (fun _ => True) w'.dest) :
    (solveAt R limit context depth node v.label.id w').value =
      ((solveAt R limit context depth node v.label.id w).value.1, w') := by
  induction node using Expr.children_induction generalizing depth v w with
  | step node ih =>
      by_cases hlimit : limit < depth
      · rw [solveAt_value, solveAt_value, if_pos hlimit, if_pos hlimit]
      have hdepth := Nat.le_of_not_lt hlimit
      have hgathers : Gathers R s (gate R node) := (gate_asking hs hn).gathers hs
      have hasked := hgathers.grown w.types
      have hagain := hgathers.again hs htypes
      rcases hgate : (gate R node w.types).value with ⟨e | d, types⟩ <;> rw [hgate] at hagain hasked
      · rw [solveAt_refused hdepth _ hgate] at hkeeps ⊢
        exact solveAt_refused hdepth _ (hagain hkeeps)
      have hopens : Opens R w.types node d := gate_ok_iff.mp (congrArg Prod.fst hgate)
      cases hpart : d.part? with
      | none =>
          rw [solveAt_arrived hdepth _ hgate hpart] at hkeeps hdest ⊢
          rw [assign_types] at hkeeps
          rw [solveAt_arrived hdepth _ (hagain hkeeps) hpart]
          exact assign_again (w := { w with types }) hs hn hm hv hdest
      | some part =>
          have hsourced := hopens.sourced hs hn
          have hrepeats := require_repeats hs hm hsourced hv
          obtain ⟨v', dest, hreq, hst⟩ := require_stored hs .true hm hsourced hv
          have hm' := hst.grows.sound hm
          have hpartn := hs.child hn (hopens.part_mem hpart)
          rw [Repeats, hreq] at hrepeats
          rw [solveAt_down hdepth hgate hpart hreq] at hkeeps hdest ⊢
          -- the first step is known to the workspace, as the rest of the way has only added to it
          have hkept := (solveAt_types hs hpartn v'.label.id).keeps.trans hkeeps
          have hfound := hrepeats w'.dest ((solveAt_grows hs hpartn hm' v'.label.id).trans hdest)
          rw [solveAt_down hdepth (hagain hkept) hpart hfound]
          exact ih part (hopens.part_mem hpart) hpartn hm' hst.holds (hasked.of_keeps htypes hkept)
            hkeeps hdest

/-- **Solving does not depend on what the destination holds, and can be repeated.**  Let values of two
destinations have one key.  Solving for them fails in both with the same error, or gives in both a node
under the same key, whether the types of the source have been asked for before or not.  Solving again,
with the workspace that has been left, has the same outcome, be it the same node or the same error, and
leaves the workspace as it is. -/
theorem solve_repeatable (R : Resolver) (limit : Nat) (context : Context)
    {source dest dest' : Model} (hsource : source.Reachable) (hdest : dest.Reachable)
    (hdest' : dest'.Reachable) {i value value' : NodeId} (hnode : source.node? i = some node)
    (hvalue : dest.node? value = some v) (hvalue' : dest'.node? value' = some v')
    (hkey : v'.label.key = v.label.key) :
    ∃ result w, (solve R limit context node value ⟨source.types, dest⟩).value = (result, w) ∧
      (∀ types, types = source.types ∨ types = w.types →
        ∃ result' w', (solve R limit context node value' ⟨types, dest'⟩).value = (result', w') ∧
          Alike w.dest w'.dest result result') ∧
      (solve R limit context node value w).value = (result, w) := by
  have hs := hsource.sound
  have hm := hdest.sound
  have hm' := hdest'.sound
  have hn := hs.holds hnode
  have hv := hm.holds hvalue
  have hv' := hm'.holds hvalue'
  obtain rfl := hm.place hvalue
  obtain rfl := hm'.place hvalue'
  have hgrown : source.types.Grown R source
      (solve R limit context node v.label.id ⟨source.types, dest⟩).value.2.types :=
    solveAt_types (w := ⟨source.types, dest⟩) hs hn v.label.id
  refine ⟨_, _, rfl, fun types htypes => ⟨_, _, rfl, ?_⟩, ?_⟩
  · refine solveAt_alike (w := ⟨source.types, dest⟩) hs hn ?_ hm hm' hv hv' hkey
    rcases htypes with rfl | rfl
    · exact .refl
    · exact hgrown.same
  · exact solveAt_again (w := ⟨source.types, dest⟩) hs hn hm hv hgrown .refl .refl

/-- `x * 2 + 1 = v` is solved in a model of `v` alone, and in one that declares `v` with another type and
already holds `v - 1`, which is required on the way. -/
theorem solve_repeatable_redeclared :
    ∃ (R : Resolver) (source dest dest' : Model) (node v v' : Node), R = TypeTable.standard.resolver ∧
      source = Model.build [.identifier "x" "int", .literal "2" "int", .binary 0 .mul 1,
        .literal "1" "int", .binary 2 .add 3] ∧
      dest = Model.build [.identifier "v" "int"] ∧
      dest' = Model.build [.literal "1" "int", .identifier "v" "double", .binary 1 .sub 0,
        .unary .neg 2] ∧
      source.node? 4 = some node ∧ dest.node? 0 = some v ∧ dest'.node? 1 = some v' ∧
      v'.label.key = v.label.key ∧ v'.layer.outline ≠ v.layer.outline ∧
      ∃ result w a a' w', (solve R 256 ⟨"View"⟩ node 0 ⟨source.types, dest⟩).value = (result, w) ∧
        (solve R 256 ⟨"View"⟩ node 0 w).value = (result, w) ∧ result = .ok a ∧ a.label.id = 6 ∧
        (solve R 256 ⟨"View"⟩ node 1 ⟨source.types, dest'⟩).value = (.ok a', w') ∧
        a'.label.id = 7 ∧ a'.label.key = a.label.key := by
  obtain ⟨R, hR⟩ : ∃ R, R = TypeTable.standard.resolver := ⟨_, rfl⟩
  obtain ⟨source, hsource⟩ : ∃ m, m = Model.build [.identifier "x" "int", .literal "2" "int",
    .binary 0 .mul 1, .literal "1" "int", .binary 2 .add 3] := ⟨_, rfl⟩
  obtain ⟨dest, hdest⟩ : ∃ m, m = Model.build [.identifier "v" "int"] := ⟨_, rfl⟩
  obtain ⟨dest', hdest'⟩ : ∃ m, m = Model.build [.literal "1" "int", .identifier "v" "double",
    .binary 1 .sub 0, .unary .neg 2] := ⟨_, rfl⟩
  obtain ⟨node, hnode⟩ := Model.exists_node? (m := source) (i := 4) (by rw [hsource]; decide +kernel)
  obtain ⟨v, hv⟩ := Model.exists_node? (m := dest) (i := 0) (by rw [hdest]; decide +kernel)
  obtain ⟨v', hv'⟩ := Model.exists_node? (m := dest') (i := 1) (by rw [hdest']; decide +kernel)
  obtain ⟨hkey, hother⟩ : v'.label.key = v.label.key ∧ v'.layer.outline ≠ v.layer.outline := by
    subst hdest hdest'
    cases hv
    cases hv'
    decide +kernel
  have hid : (solve R 256 ⟨"View"⟩ node 0 ⟨source.types, dest⟩).value.1.toOption.map (·.label.id) =
      some 6 := by
    subst hR hsource hdest
    cases hnode
    decide +kernel
  have hid' : (solve R 256 ⟨"View"⟩ node 1 ⟨source.types, dest'⟩).value.1.toOption.map
      (·.label.id) = some 7 := by
    subst hR hsource hdest'
    cases hnode
    decide +kernel
  obtain ⟨result, w, heq, halike, hagain⟩ := solve_repeatable R 256 ⟨"View"⟩
    (hsource ▸ Model.reachable_build _) (hdest ▸ Model.reachable_build _)
    (hdest' ▸ Model.reachable_build _) hnode hv hv' hkey
  obtain ⟨result', w', heq', halike⟩ := halike source.types (.inl rfl)
  rw [heq] at hid
  rw [heq'] at hid'
  cases halike with
  | error e => cases hid
  | @ok a a' _ _ hkeys =>
      exact ⟨R, source, dest, dest', node, v, v', hR, hsource, hdest, hdest', hnode, hv, hv', hkey,
        hother, .ok a, w, a, a', w', heq, hagain, rfl, Option.some.inj hid, heq',
        Option.some.inj hid', hkeys⟩

end Inverse

end DataBinding
