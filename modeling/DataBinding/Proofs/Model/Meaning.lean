import DataBinding.Proofs.Model.Dynamic
import DataBinding.Proofs.Model.Reachable

/-!
# Proofs — Models — copies mean the same

A copy is found or stored in the destination by its key, part by part, so it may consist of nodes that
were there before.  Where names are delimited, a key tells the expression up to the declared types of
its variables, and these show in no path, text, code or value.

* `copy_bare`: a copy is the same expression when bare.
* `copy_keeps_meaning`: a copy cannot be told from its original, and what the destination held stays.
-/

namespace DataBinding.Model

variable {source dest : Model} {n : Node}

/-- A copy is the same expression, up to labels and declared types. -/
theorem copy_bare (hs : source.Sound) (hsd : source.Delimited) (hn : source.Holds n) (hm : dest.Sound)
    (hmd : dest.Delimited) : (n.copy dest).value.1.bare = n.bare := by
  have hst := copy_stored hs (delimited_iff_all.mp hsd) hn hm
  refine (hst.grows.sound hm).bare_eq_of_key (hst.grows.delimited hmd) hst.holds (hs.every hsd hn) ?_
  rw [hst.key, hs.label_key hn]

/-- Nodes that are the same expression can both change or both cannot. -/
theorem Sound.dynamic_eq_of_bare (hs : source.Sound) (hn : source.Holds n) (hm : dest.Sound) {d : Node}
    (hd : dest.Holds d) (h : d.bare = n.bare) : d.label.dynamic = n.label.dynamic := by
  rw [hm.dynamic_eq_varies hd, hs.dynamic_eq_varies hn, Expr.varies_eq_of_bare h]

/-- **A copy means the same.**  Let a node of one model be copied into another, whatever that holds, the
names in both being delimited.  The copy is a node of the destination with the key of the original; it
can change if the original can, and has the same path, text, code and value.  The nodes that the
destination held stay in their places, with the types found for them.  The source has no part in the
state of copying. -/
theorem copy_keeps_meaning (hsource : source.Reachable) (hdest : dest.Reachable)
    (hsd : source.Delimited) (hdd : dest.Delimited) {i : NodeId} (hnode : source.node? i = some n) :
    ∃ d dest', (n.copy dest).value = (d, dest') ∧ dest'.node? d.label.id = some d ∧
      d.label.key = n.label.key ∧ d.label.dynamic = n.label.dynamic ∧ d.path? = n.path? ∧
      d.text = n.text ∧ (∀ setter, d.code setter = n.code setter) ∧
      (∀ env, d.eval env = n.eval env) ∧
      ∀ j < dest.size, dest'.node? j = dest.node? j ∧ dest'.cachedType? j = dest.cachedType? j := by
  have hs := hsource.sound
  have hm := hdest.sound
  have hn := hs.holds hnode
  have hst := copy_stored hs .true hn hm
  have hbare := copy_bare hs hsd hn hm hdd
  refine ⟨_, _, rfl, hst.holds, hst.key, ?_, Expr.path?_eq_of_bare hbare, Expr.text_eq_of_bare hbare,
    Expr.code_eq_of_bare hbare, Expr.eval_eq_of_bare hbare, fun j hj => ?_⟩
  · exact hs.dynamic_eq_of_bare hn (hst.grows.sound hm) hst.holds hbare
  · exact ⟨node?_eq_of_kept hst.grows.nodes_kept hj, hst.grows.cachedType?_eq j⟩

/-- `-(x.a * 2)`, copied to where `x` has been declared with another type and `x.a` is known, brings
three new nodes. -/
theorem copy_keeps_meaning_redeclared :
    ∃ (source dest : Model) (n d : Node) (dest' : Model),
      source = build [.identifier "x" "User", .property 0 "a", .literal "2" "int", .binary 1 .mul 2,
        .unary .neg 3] ∧
      dest = build [.identifier "v" "int", .identifier "x" "Admin", .property 1 "a"] ∧
      source.node? 4 = some n ∧ (n.copy dest).value = (d, dest') ∧ dest'.size = 6 ∧
      d.label.dynamic = n.label.dynamic ∧ d.text = "-((x.a) * (2))" ∧
      (∀ setter, d.code setter = n.code setter) ∧ (∀ env, d.eval env = n.eval env) ∧
      dest'.node? 1 = dest.node? 1 := by
  obtain ⟨source, hsource⟩ : ∃ m, m = build [.identifier "x" "User", .property 0 "a",
    .literal "2" "int", .binary 1 .mul 2, .unary .neg 3] := ⟨_, rfl⟩
  obtain ⟨dest, hdest⟩ : ∃ m, m = build [.identifier "v" "int", .identifier "x" "Admin",
    .property 1 "a"] := ⟨_, rfl⟩
  obtain ⟨n, hn⟩ := exists_node? (m := source) (i := 4) (by rw [hsource]; decide +kernel)
  obtain ⟨d, dest', heq, -, -, hdynamic, -, htext, hcode, heval, hkept⟩ :=
    copy_keeps_meaning (hsource ▸ reachable_build _) (hdest ▸ reachable_build _)
      (hsource ▸ delimited_build (by decide)) (hdest ▸ delimited_build (by decide)) hn
  refine ⟨source, dest, n, d, dest', hsource, hdest, hn, heq, ?_, hdynamic, htext.trans ?_, hcode,
    heval, (hkept 1 (by rw [hdest]; decide +kernel)).1⟩
  · obtain ⟨-, rfl⟩ := Prod.mk.inj heq
    subst hsource hdest
    cases hn
    decide +kernel
  · subst hsource
    cases hn
    decide +kernel

end DataBinding.Model
