import DataBinding.Proofs.Inverse.Questions
import DataBinding.Proofs.Model.Reachable

/-!
# Proofs — Inversion — checking and solving

Checking and solving ask the same questions at every node but one: at a cast, solving asks for the
type of what the cast converts, and checking does not.  So the two agree but where solving comes to a
cast whose operand has no type (`Blocked`); there solving fails with the error of the type.

* `gate_eq_checkGate_or_blocked`: the difference at one node.
* `solveAt_eq_checkAt_or_blocked`: the difference along the way.
* `solve_agrees_iff`: where solving gives the verdict of checking.
-/

namespace DataBinding.Inverse

variable {R : Resolver} {limit depth : Nat} {context : Context} {s m : Model} {node v : Node}
  {t t' : TypeCache} {w : Workspace}

/-! ### Gates and kept types -/

/-- The gate does not depend on what has been asked before. -/
theorem gate_stable (hs : s.Sound) (hn : s.Holds node) : Stable R s (gate R node) :=
  (gate_asking hs hn).stable hs

theorem checkGate_stable (hs : s.Sound) (hn : s.Holds node) : Stable R s (checkGate R node) :=
  (checkGate_asking hn).stable hs

/-! ### One node -/

/-- At a cast of something that can change, the type of what it converts is not found. -/
inductive NoOperandType (R : Resolver) (types : TypeCache) : Node → TypeError → Prop where
  | cast (l : NodeLabel) (ty : String) {operand : Node} {e : TypeError}
      (h : operand.label.dynamic = true) (hty : (R.typeOf operand types).value.1 = .error e) :
      NoOperandType R types (.cast l ty operand) e

theorem NoOperandType.gate_eq {e : TypeError} (h : NoOperandType R t node e) :
    (gate R node t).value.1 = .error (.type e) := by
  obtain ⟨l, ty, hdyn, hty⟩ := h
  rw [gate, value_bind_except, dynamicGate_value, if_pos hdyn]
  dsimp only
  rw [value_bind_except, nodeType_value]
  revert hty
  obtain ⟨r, t'⟩ := (R.typeOf _ t).value
  rintro rfl
  rfl

/-- **The gates of checking and solving differ at a cast only**, by the type of what it converts. -/
theorem gate_eq_checkGate_or_blocked (R : Resolver) (node : Node) (t : TypeCache) :
    (gate R node t).value.1.map Descent.part? = (checkGate R node t).value.1 ∨
      ∃ e, NoOperandType R t node e := by
  cases node with
  | identifier | group | literal | conditional | assign => exact .inl rfl
  | property l target name =>
      refine .inl ?_
      rw [gate, checkGate, value_bind_except, value_bind_except, dynamicGate_value]
      cases target.label.dynamic <;> rfl
  | binary l left op right =>
      refine .inl ?_
      rw [gate, checkGate, value_bind_except, value_bind_except]
      rcases hgate : (binaryGate R (.binary l left op right) left op right t).value with
        ⟨e | side, t'⟩
      · rfl
      · obtain ⟨hop, -, -⟩ := binaryGate_ok_iff.mp (congrArg Prod.fst hgate)
        obtain ⟨r, hr⟩ := rearrangement_of_ne_rem hop side
        simp only [operandStep, hr]
        rfl
  | unary l op operand =>
      refine .inl ?_
      rw [gate, checkGate, value_bind_except, value_bind_except, dynamicGate_value]
      cases operand.label.dynamic <;> rfl
  | cast l ty operand =>
      rw [gate, checkGate, value_bind_except, value_bind_except, dynamicGate_value]
      cases hdyn : operand.label.dynamic with
      | false => exact .inl rfl
      | true =>
          rcases hty : (R.typeOf operand t).value with ⟨e | found, t'⟩
          · exact .inr ⟨e, .cast l ty hdyn (congrArg Prod.fst hty)⟩
          · refine .inl ?_
            simp only [if_true, value_bind_except, nodeType_value, hty]
            rfl

/-! ### The way down -/

/-- The node that is reached from another in the given number of steps. -/
inductive Way (R : Resolver) (types : TypeCache) : Nat → Node → Node → Prop where
  | here (node : Node) : Way R types 0 node node
  | down {k : Nat} {node part last : Node} {d : Descent} (h : Opens R types node d)
      (hpart : d.part? = some part) (hway : Way R types k part last) :
      Way R types (k + 1) node last

/-- On the way down from the node, within the limit, there is a cast of something that can change
and that has no type. -/
def Blocked (R : Resolver) (types : TypeCache) (limit : Nat) (node : Node) (e : TypeError) : Prop :=
  ∃ k last, k ≤ limit ∧ Way R types k node last ∧ NoOperandType R types last e

/-- What opens the gate does not depend on what has been asked before. -/
theorem Opens.of_same {d : Descent} (hs : s.Sound) (hn : s.Holds node) (h : SameTypes R s t t')
    (hd : Opens R t' node d) : Opens R t node d :=
  gate_ok_iff.mp ((gate_stable hs hn t t' h).answer ▸ gate_ok_iff.mpr hd)

theorem NoOperandType.of_same {e : TypeError} (hs : s.Sound) (hn : s.Holds node)
    (h : SameTypes R s t t') (he : NoOperandType R t' node e) : NoOperandType R t node e := by
  obtain ⟨l, ty, hdyn, hty⟩ := he
  have hoperand := hs.child hn (List.mem_singleton_self _)
  exact .cast l ty hdyn ((Stable.typeOf hs hoperand t t' h).answer ▸ hty)

/-- What solving does where the gate opens. -/
theorem solveAt_of_opens (context : Context) {d : Descent} {part : Node} (hs : s.Sound)
    (hn : s.Holds node) (hm : w.dest.Sound) (hv : w.dest.Holds v) (hlimit : depth ≤ limit)
    (hd : Opens R w.types node d) (hpart : d.part? = some part) :
    ∃ v' w', w'.types = (gate R node w.types).value.2 ∧ w'.dest.Sound ∧ w'.dest.Holds v' ∧
      (solveAt R limit context depth node v.label.id w).value =
        (solveAt R limit context (depth + 1) part v'.label.id w').value := by
  obtain ⟨v', dest, hreq, hst⟩ := require_stored hs .true hm (hd.sourced hs hn) hv
  exact ⟨v', ⟨(gate R node w.types).value.2, dest⟩, rfl, hst.grows.sound hm, hst.holds,
    solveAt_down hlimit (Prod.ext (gate_ok_iff.mpr hd) rfl) hpart hreq⟩

theorem solveAt_of_arrived (context : Context) {d : Descent} (hs : s.Sound) (hn : s.Holds node)
    (hm : w.dest.Sound) (hv : w.dest.Holds v) (hlimit : depth ≤ limit)
    (hd : Opens R w.types node d) (hpart : d.part? = none) :
    ∃ a, (solveAt R limit context depth node v.label.id w).value.1 = .ok a := by
  obtain ⟨a, dest, heq, -⟩ :=
    assign_stored context (w := { w with types := (gate R node w.types).value.2 }) hs hn hm hv
  refine ⟨a, ?_⟩
  rw [solveAt_arrived hlimit _ (Prod.ext (gate_ok_iff.mpr hd) rfl) hpart, heq]

theorem solveAt_of_gate_error {e : BindingError} (hlimit : depth ≤ limit) (value : NodeId)
    (h : (gate R node w.types).value.1 = .error e) :
    (solveAt R limit context depth node value w).value.1 = .error e := by
  rw [solveAt_refused hlimit value (Prod.ext h rfl)]

/-- Where solving comes to a cast of something without a type, it fails with that. -/
theorem solveAt_of_blocked {k : Nat} {last : Node} {e : TypeError} (hs : s.Sound)
    (hway : Way R t k node last) (he : NoOperandType R t last e) (hn : s.Holds node)
    (hm : w.dest.Sound) (hv : w.dest.Holds v) (hsame : SameTypes R s t w.types)
    (hlimit : depth + k ≤ limit) :
    (solveAt R limit context depth node v.label.id w).value.1 = .error (.type e) := by
  induction hway generalizing depth v w with
  | here node =>
      exact solveAt_of_gate_error hlimit _ (he.of_same hs hn hsame.symm).gate_eq
  | @down k node part last d h hpart _ ih =>
      have hdepth : depth ≤ limit := by omega
      obtain ⟨v', w', htypes, hm', hv', heq⟩ := solveAt_of_opens context hs hn hm hv hdepth
        (h.of_same hs hn hsame.symm) hpart
      rw [heq]
      refine ih he (hs.child hn (h.part_mem hpart)) hm' hv' ?_ (by omega)
      rw [htypes]
      exact (gate_stable hs hn t w.types hsame).same

theorem checkAt_verdict (hlimit : depth ≤ limit) :
    (checkAt R limit depth node t).value.1 =
      match (checkGate R node t).value.1 with
      | .error e => .error e
      | .ok none => .ok ()
      | .ok (some part) =>
        (checkAt R limit (depth + 1) part (checkGate R node t).value.2).value.1 := by
  rw [checkAt_value, if_neg (Nat.not_lt.mpr hlimit)]
  obtain ⟨e | _ | part, types⟩ := (checkGate R node t).value <;> rfl

/-- **Solving gives the verdict of checking**, unless it comes to a cast of something without a
type. -/
theorem solveAt_eq_checkAt_or_blocked (R : Resolver) (limit : Nat) (context : Context) (depth : Nat)
    (hs : s.Sound) (hn : s.Holds node) (hm : w.dest.Sound) (hv : w.dest.Holds v)
    (hsame : SameTypes R s t t') (hsame' : SameTypes R s t w.types) :
    (solveAt R limit context depth node v.label.id w).value.1.map (fun _ => ()) =
        (checkAt R limit depth node t').value.1 ∨
      ∃ k last e, depth + k ≤ limit ∧ Way R t k node last ∧ NoOperandType R t last e := by
  induction node using Expr.children_induction generalizing depth v w t' with
  | step node ih =>
      by_cases hlimit : limit < depth
      · refine .inl ?_
        rw [solveAt_value, checkAt_value, if_pos hlimit, if_pos hlimit]
        rfl
      have hdepth := Nat.le_of_not_lt hlimit
      rcases gate_eq_checkGate_or_blocked R node t with hgates | ⟨e, he⟩
      swap
      · exact .inr ⟨0, node, e, hdepth, .here node, he⟩
      -- both runs find cells that give the answers of `t`, so the gates are compared there
      have hsolve := (gate_stable hs hn t w.types hsame').answer
      have hcheck := (checkGate_stable hs hn t t' hsame).answer
      rw [← hgates] at hcheck
      cases hgate : (gate R node t).value.1 with
      | error e =>
          rw [hgate] at hsolve hcheck
          refine .inl ?_
          rw [solveAt_of_gate_error hdepth _ hsolve, checkAt_verdict hdepth, hcheck]
          rfl
      | ok d =>
          rw [hgate, Except.map] at hcheck
          rw [hgate] at hsolve
          have hopens : Opens R w.types node d := gate_ok_iff.mp hsolve
          cases hpart : d.part? with
          | none =>
              refine .inl ?_
              obtain ⟨a, ha⟩ := solveAt_of_arrived context hs hn hm hv hdepth hopens hpart
              rw [ha, checkAt_verdict hdepth, hcheck, hpart]
              rfl
          | some part =>
              obtain ⟨v', w', htypes, hm', hv', heq⟩ :=
                solveAt_of_opens context hs hn hm hv hdepth hopens hpart
              have hmem := hopens.part_mem hpart
              have hw' : SameTypes R s t w'.types := by
                rw [htypes]
                exact (gate_stable hs hn t w.types hsame').same
              rw [heq, checkAt_verdict hdepth, hcheck, hpart]
              rcases ih part hmem (depth + 1) (hs.child hn hmem) hm' hv'
                (checkGate_stable hs hn t t' hsame).same hw' with h | ⟨k, last, e, hk, hway, he⟩
              · exact .inl h
              · refine .inr ⟨k + 1, last, e, by omega, ?_, he⟩
                exact .down (gate_ok_iff.mp hgate) hpart hway

/-- **Where checking foretells solving.**  Solving succeeds exactly if checking does and no cast on the
way converts something without a type.  At such a cast solving fails with the error of the type,
for which checking does not ask there; so the two give the same verdict exactly if checking comes
to that error otherwise. -/
theorem solve_agrees_iff {source dest : Model} (hsource : source.Reachable) (hdest : dest.Reachable)
    {i value : NodeId} (hnode : source.node? i = some node) (hvalue : value < dest.size) :
    ((∃ a, (solve R limit context node value ⟨source.types, dest⟩).value.1 = .ok a) ↔
      (check R limit node source.types).value.1 = .ok () ∧
        ∀ e, ¬ Blocked R source.types limit node e) ∧
    ((solve R limit context node value ⟨source.types, dest⟩).value.1.map (fun _ => ()) =
        (check R limit node source.types).value.1 ↔
      ∀ e, Blocked R source.types limit node e →
        (check R limit node source.types).value.1 = .error (.type e)) ∧
    ∀ e, Blocked R source.types limit node e →
      (solve R limit context node value ⟨source.types, dest⟩).value.1 = .error (.type e) := by
  obtain ⟨v, hv⟩ := Model.exists_node? hvalue
  obtain rfl := hdest.sound.place hv
  have hs := hsource.sound
  have hn := hs.holds hnode
  have blocked : ∀ e, Blocked R source.types limit node e →
      (solve R limit context node v.label.id ⟨source.types, dest⟩).value.1 = .error (.type e) := by
    rintro e ⟨k, last, hk, hway, he⟩
    exact solveAt_of_blocked (w := ⟨source.types, dest⟩) hs hway he hn hdest.sound hv .refl
      (by omega)
  have agrees : (solve R limit context node v.label.id ⟨source.types, dest⟩).value.1.map
      (fun _ => ()) = (check R limit node source.types).value.1 ∨
      ∃ e, Blocked R source.types limit node e := by
    rcases solveAt_eq_checkAt_or_blocked R limit context 0 (w := ⟨source.types, dest⟩) hs hn
      hdest.sound hv .refl .refl with heq | ⟨k, last, e, hk, hway, he⟩
    · exact .inl heq
    · exact .inr ⟨e, k, last, by omega, hway, he⟩
  refine ⟨⟨?_, ?_⟩, ⟨fun h e he => ?_, fun h => ?_⟩, blocked⟩
  · rintro ⟨a, ha⟩
    have free : ∀ e, ¬ Blocked R source.types limit node e := fun e he => by
      rw [blocked e he] at ha
      cases ha
    rcases agrees with heq | ⟨e, he⟩
    · rw [ha] at heq
      exact ⟨heq.symm, free⟩
    · exact absurd he (free e)
  · rintro ⟨hcheck, free⟩
    rcases agrees with heq | ⟨e, he⟩
    · rw [hcheck] at heq
      revert heq
      cases (solve R limit context node v.label.id ⟨source.types, dest⟩).value.1 with
      | error e => exact fun heq => nomatch heq
      | ok a => exact fun _ => ⟨a, rfl⟩
    · exact absurd he (free e)
  · rw [← h, blocked e he]
    rfl
  · rcases agrees with heq | ⟨e, he⟩
    · exact heq
    · rw [blocked e he, h e he]
      rfl

/-- A cast of a variable of an unknown type passes the check and cannot be solved. -/
theorem solve_disagrees_at_cast :
    ∃ source dest node,
      source = Model.build [.identifier "x" "Unknown", .cast "int" 0] ∧
      dest = Model.build [.identifier "value" "int"] ∧ source.node? 1 = some node ∧
      (check TypeTable.standard.resolver 256 node source.types).value.1 = .ok () ∧
      (solve TypeTable.standard.resolver 256 ⟨"View"⟩ node 0 ⟨source.types, dest⟩).value.1 =
        .error (.type (.typeNotFound "Unknown")) := by
  refine ⟨_, _, _, rfl, rfl, rfl, rfl, ?_⟩
  refine (solve_agrees_iff (Model.reachable_build _) (Model.reachable_build _) (i := 1) rfl
    (by decide +kernel)).2.2 _ ⟨0, _, Nat.zero_le _, .here _, ?_⟩
  exact .cast _ "int" rfl rfl

end DataBinding.Inverse
