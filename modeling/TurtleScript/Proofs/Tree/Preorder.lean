import TurtleScript.Proofs.Tree.Relabelling

/-!
# Numbers in pre-order

Numbering goes through a tree by kinds of node, and so does everything that later asks for a
node by its number. Both meet the nodes in the order in which the children of each node are
listed: the numbers met on a walk by children count up from zero. What a tree is apart from its
numbers decides its numbering, so the numbers it had before do not matter and numbering it again
changes nothing.
-/
namespace TurtleScript

namespace Expr

/-- The nodes in pre-order: a node, then what is below its children, one child after another. -/
def preorder (e : Expr) : List Expr :=
  e :: e.children.attach.flatMap fun x => preorder x.1
termination_by e
decreasing_by exact sizeOf_child x.2

theorem preorder_eq_nodes (e : Expr) : e.preorder = e.nodes := by
  induction e using children_induction with
  | step e ih =>
    rw [preorder, nodes_eq, List.flatMap_subtype (g := preorder) fun _ _ => rfl,
      List.unattach_attach]
    exact congrArg (_ :: ·.flatten) (List.map_congr_left ih)

/-- The tree without its numbers. -/
def unnumbered (e : Expr) : Expr := e.relabel fun _ => 0

theorem children_unnumbered (e : Expr) : e.unnumbered.children = e.children.map unnumbered :=
  children_relabel _ e

theorem unnumbered_relabel (ν : Nat → Nat) (e : Expr) : (e.relabel ν).unnumbered = e.unnumbered :=
  relabel_relabel ν _ e

theorem unnumbered_renumber (n : Nat) (e : Expr) : (e.renumber n).1.unnumbered = e.unnumbered :=
  relabel_renumber 0 n e

theorem length_nodes_of_unnumbered {e e' : Expr} (h : e.unnumbered = e'.unnumbered) :
    e.nodes.length = e'.nodes.length := by
  have hlength (e : Expr) : e.unnumbered.nodes.length = e.nodes.length := by
    rw [unnumbered, nodes_relabel, List.length_map]
  rw [← hlength e, h, hlength]

theorem shell_eq_of_unnumbered {e e' : Expr} (h : e.unnumbered = e'.unnumbered)
    (hid : e.id = e'.id) : e.shell = e'.shell := by
  have hshell (e : Expr) :
      e.shell = e.unnumbered.shell.withLabel { e.unnumbered.label with id := e.id } := by
    rw [unnumbered, shell_relabel, withLabel_withLabel, label_relabel]
    cases e <;> rfl
  rw [hshell e, h, hid, ← hshell e']

/-- Numbered from one number on, a tree is what it is without its numbers. -/
theorem Numbered.eq_of_unnumbered {lo hi hi' : Nat} {e e' : Expr} (hn : Numbered lo e hi)
    (hn' : Numbered lo e' hi') (h : e.unnumbered = e'.unnumbered) : e = e' ∧ hi = hi' := by
  induction e using children_induction generalizing lo hi e' hi' with
  | step e ih =>
    have hlist {es es' : List Expr} (hes : ∀ x ∈ es, x ∈ e.children) {lo hi hi' : Nat}
        (ha : NumberedAll lo es hi) (ha' : NumberedAll lo es' hi')
        (hmap : es.map unnumbered = es'.map unnumbered) : es = es' ∧ hi = hi' := by
      induction es generalizing es' lo with
      | nil =>
        obtain rfl := List.map_eq_nil_iff.mp hmap.symm
        cases ha
        cases ha'
        exact ⟨rfl, rfl⟩
      | cons x es ihs =>
        obtain ⟨x', es', rfl, hx, htail⟩ := List.map_eq_cons_iff.mp hmap.symm
        obtain ⟨hmem, hes⟩ := List.forall_mem_cons.mp hes
        obtain ⟨mid, hhead, hrest⟩ := ha.uncons
        obtain ⟨mid', hhead', hrest'⟩ := ha'.uncons
        obtain ⟨rfl, rfl⟩ := ih x hmem hhead hhead' hx.symm
        obtain ⟨rfl, rfl⟩ := ihs hes hrest hrest' htail.symm
        exact ⟨rfl, rfl⟩
    have hmap : e.children.map unnumbered = e'.children.map unnumbered := by
      rw [← children_unnumbered, h, children_unnumbered]
    obtain ⟨hchildren, hhi⟩ :=
      hlist (fun x hx => hx) hn.children_numbered hn'.children_numbered hmap
    exact ⟨eq_of_shell (shell_eq_of_unnumbered h (hn.id_eq.trans hn'.id_eq.symm)) hchildren, hhi⟩

theorem renumber_congr {e e' : Expr} (h : e.unnumbered = e'.unnumbered) (n : Nat) :
    e.renumber n = e'.renumber n := by
  obtain ⟨hbody, hnext⟩ := (renumber_numbered e n).eq_of_unnumbered (renumber_numbered e' n) (by
    rw [unnumbered_renumber, unnumbered_renumber, h])
  exact Prod.ext hbody hnext

end Expr

namespace Program

theorem ofExpr_congr {e e' : Expr} (h : e.unnumbered = e'.unnumbered) : ofExpr e = ofExpr e' := by
  rw [ofExpr, ofExpr, Expr.renumber_congr h]

/-- A walk by children meets the numbers from zero on, in order and as many as there are nodes, so
no two nodes share one. All else in the tree is kept; numbering does not depend on the numbers
that were there before, and does nothing to a tree that is numbered. -/
theorem ofExpr_preorder (e : Expr) :
    (ofExpr e).body.preorder.map Expr.id = List.range (ofExpr e).nodeCount ∧
    (ofExpr e).nodeCount = e.preorder.length ∧
    ((ofExpr e).body.preorder.map Expr.id).Nodup ∧
    (ofExpr e).body.unnumbered = e.unnumbered ∧
    ofExpr (ofExpr e).body = ofExpr e ∧
    ∀ ν : Nat → Nat, ofExpr (e.relabel ν) = ofExpr e := by
  have hsame : (ofExpr e).body.unnumbered = e.unnumbered := Expr.unnumbered_renumber 0 e
  have hids : (ofExpr e).body.nodes.map Expr.id = List.range (ofExpr e).nodeCount := by
    rw [List.range_eq_range']
    exact (Expr.renumber_numbered e 0).ids
  have hlength := congrArg List.length hids
  rw [List.length_map, List.length_range, Expr.length_nodes_of_unnumbered hsame] at hlength
  rw [Expr.preorder_eq_nodes, Expr.preorder_eq_nodes, hids]
  exact ⟨rfl, hlength.symm, List.nodup_range, hsame, ofExpr_congr hsame,
    fun ν => ofExpr_congr (Expr.unnumbered_relabel ν e)⟩

end Program

end TurtleScript
