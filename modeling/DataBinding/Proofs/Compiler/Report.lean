import DataBinding.Compiler.Basic
import DataBinding.Proofs.Model.Gather

/-!
# Proofs — Compiler — reports

Targets are checked one after the other on the same type cells.  A check that comes later finds cells
filled by those before it, also by those that failed, and by whatever resolver was asked before the
first.  No diagnostic depends on that, nor do the cells that are filled in the end.

* `diagnose_after`: a target after others is diagnosed as it is alone.
* `checkTwoWay_exact`: a report says of each target what a check of it alone says, and the order of
  the targets is only the order of the report.
-/

namespace DataBinding

variable {m : Model} {t t' : TypeCache} {node : Node} {targets : List Node}

namespace Compiler

/-- What is to be said of a target that is checked alone: nothing if it passes. -/
def diagnosis (c : Compiler) (types : TypeCache) (node : Node) : Option Diagnostic :=
  match (Inverse.check c.resolver c.config.maxInversionDepth node types).value.1 with
  | .ok _ => none
  | .error error => some { node := node.label.id, expr := node.text, error }

/-- The type cells after a target has been checked alone. -/
def checkedTypes (c : Compiler) (types : TypeCache) (node : Node) : TypeCache :=
  (Inverse.check c.resolver c.config.maxInversionDepth node types).value.2

theorem diagnose_value (c : Compiler) (node : Node) (types : TypeCache) :
    (c.diagnose node types).value = (c.diagnosis types node, c.checkedTypes types node) := by
  rw [diagnose, value_bind_state, ExceptT.run, diagnosis]
  cases (Inverse.check c.resolver c.config.maxInversionDepth node types).value.1 <;> rfl

theorem check_gathers (c : Compiler) (hs : m.Sound) (hn : m.Holds node) :
    Gathers c.resolver m (Inverse.check c.resolver c.config.maxInversionDepth node) :=
  (Inverse.checkAt_asking _ 0 hs hn).gathers hs

/-- **A target after others is diagnosed as it is alone**, and the cells filled are those filled
before and those that it fills alone. -/
theorem diagnose_after (c : Compiler) (hs : m.Sound) (hn : m.Holds node)
    (h : t.Grown c.resolver m t') :
    c.diagnosis t' node = c.diagnosis t node ∧
      t.Grown c.resolver m (c.checkedTypes t' node) ∧
      ∀ i, (c.checkedTypes t' node).Filled i ↔ t'.Filled i ∨ (c.checkedTypes t node).Filled i := by
  have hcheck := c.check_gathers hs hn
  refine ⟨?_, h.trans (hcheck.grown t'), fun i => (hcheck.joined h).filled_iff⟩
  rw [diagnosis, diagnosis, (hcheck.stable t t' h.same).answer]

/-- A series of targets, after others. -/
theorem diagnoseAll_after (c : Compiler) (hs : m.Sound) (htargets : ∀ n ∈ targets, m.Holds n)
    (h : t.Grown c.resolver m t') :
    ∃ u, (targets.filterMapM c.diagnose t').value = (targets.filterMap (c.diagnosis t), u) ∧
      t.Grown c.resolver m u ∧
      ∀ i, u.Filled i ↔ t'.Filled i ∨ ∃ n ∈ targets, (c.checkedTypes t n).Filled i := by
  induction targets generalizing t' with
  | nil => exact ⟨t', rfl, h, fun i => by simp⟩
  | cons node targets ih =>
      obtain ⟨hfirst, hgrown, hfilled⟩ := c.diagnose_after hs (htargets node List.mem_cons_self) h
      obtain ⟨u, hu, hgrown', hfilled'⟩ :=
        ih (fun n hn => htargets n (List.mem_cons_of_mem _ hn)) hgrown
      refine ⟨u, ?_, hgrown', fun i => ?_⟩
      · rw [List.filterMapM_cons, value_bind_state, diagnose_value, hfirst, List.filterMap_cons]
        cases c.diagnosis t node with
        | none => exact hu
        | some d => exact congrArg (fun p => (d :: p.1, p.2)) hu
      · simp only [hfilled', hfilled, or_assoc, List.mem_cons, or_and_right, exists_or, exists_eq_left]

/-- **A report is exact, and its order is that of the targets.**  Let nodes of a model be checked,
some of them perhaps several times, whatever types are kept.  The report counts the targets, and its
diagnostics are those of the targets that fail alone on the same types, in order and as often as they
are listed.  In another order, the same number is checked, the same diagnostics are given, and the
same types are kept in the end. -/
theorem checkTwoWay_exact (c : Compiler) (hm : m.Reachable) (types : TypeCache)
    (htargets : ∀ n ∈ targets, m.node? n.label.id = some n) :
    (c.checkTwoWay targets types).value.1 =
        { checked := targets.length, diagnostics := targets.filterMap (c.diagnosis types) } ∧
      ∀ targets' : List Node, targets'.Perm targets →
        (c.checkTwoWay targets' types).value.1.checked =
            (c.checkTwoWay targets types).value.1.checked ∧
          (c.checkTwoWay targets' types).value.1.diagnostics.Perm
            (c.checkTwoWay targets types).value.1.diagnostics ∧
          (c.checkTwoWay targets' types).value.2 = (c.checkTwoWay targets types).value.2 := by
  have hs := hm.sound
  have outcome (ns : List Node) : (c.checkTwoWay ns types).value =
      ({ checked := ns.length, diagnostics := (ns.filterMapM c.diagnose types).value.1 },
        (ns.filterMapM c.diagnose types).value.2) := rfl
  obtain ⟨u, hu, hgrown, hfilled⟩ := c.diagnoseAll_after hs htargets .refl
  rw [outcome, hu]
  refine ⟨rfl, fun targets' hperm => ?_⟩
  obtain ⟨u', hu', hgrown', hfilled'⟩ :=
    c.diagnoseAll_after hs (fun n hn => htargets n (hperm.mem_iff.mp hn)) .refl
  rw [outcome, hu']
  refine ⟨hperm.length_eq, hperm.filterMap _, hgrown'.eq_of_filled hs hgrown fun i => ?_⟩
  simp only [hfilled', hfilled, hperm.mem_iff]

/-- `x + y` fails, as the type of `y` is not known, and leaves the type of `x` to the check of
`x * 2`, which passes.  It does so as often as it is listed, after the product as well as before. -/
theorem checkTwoWay_exact_repeated :
    ∃ (c : Compiler) (m : Model) (sum product : Node),
      c = { resolver := TypeTable.standard.resolver } ∧
      m = Model.build [.identifier "x" "int", .identifier "y" "Unknown", .binary 0 .add 1,
        .literal "2" "int", .binary 0 .mul 3] ∧
      m.node? 2 = some sum ∧ m.node? 4 = some product ∧
      (c.checkTwoWay [sum, product, sum] m.types).value.1 =
        ⟨3, [⟨2, "(x) + (y)", .type (.typeNotFound "Unknown")⟩,
          ⟨2, "(x) + (y)", .type (.typeNotFound "Unknown")⟩]⟩ ∧
      (c.checkTwoWay [product, sum, sum] m.types).value.2 =
        (c.checkTwoWay [sum, product, sum] m.types).value.2 := by
  obtain ⟨c, hc⟩ : ∃ c : Compiler, c = { resolver := TypeTable.standard.resolver } := ⟨_, rfl⟩
  obtain ⟨m, hm⟩ : ∃ m, m = Model.build [.identifier "x" "int", .identifier "y" "Unknown",
    .binary 0 .add 1, .literal "2" "int", .binary 0 .mul 3] := ⟨_, rfl⟩
  obtain ⟨sum, hsum⟩ := Model.exists_node? (m := m) (i := 2) (by rw [hm]; decide +kernel)
  obtain ⟨product, hproduct⟩ := Model.exists_node? (m := m) (i := 4) (by rw [hm]; decide +kernel)
  have hreachable : m.Reachable := hm ▸ Model.reachable_build _
  have hheld : ∀ n ∈ [sum, product, sum], m.node? n.label.id = some n := by
    intro n hn
    simp only [List.mem_cons, List.not_mem_nil, or_false] at hn
    rcases hn with rfl | rfl | rfl
    · exact hreachable.sound.holds hsum
    · exact hreachable.sound.holds hproduct
    · exact hreachable.sound.holds hsum
  obtain ⟨hreport, horder⟩ := checkTwoWay_exact c hreachable m.types hheld
  refine ⟨c, m, sum, product, hc, hm, hsum, hproduct, hreport.trans ?_,
    (horder _ (List.Perm.swap sum product [sum])).2.2⟩
  subst hc hm
  cases hsum
  cases hproduct
  decide +kernel

end Compiler

end DataBinding
