import TurtleScript.Proofs.Sequences
import TurtleScript.Proofs.Tree.Numbering

/-!
# Trees under other numbers

A node is what it is by its shell, the node without what stands below, and its children. So
two trees agree if their roots have one shell and their children agree, and numbering a tree is
numbering the root and then the list of its children.

Exchanging two members of a block and numbering anew moves the numbers of these two members,
each by the length of the other, and leaves all other nodes the numbers they have.
-/
namespace TurtleScript.Expr

/-- The node with nothing below it: each child is replaced by one and the same leaf. -/
def shell (e : Expr) : Expr :=
  let leaf : Expr := constant {} (.boolean false)
  match e with
  | constant l v => constant l v
  | binary l op _ _ => binary l op leaf leaf
  | var l name d => var l name (d.map fun _ => leaf)
  | function l name ps _ => function l name (ps.map fun _ => leaf) leaf
  | block l b => block l (b.map fun _ => leaf)
  | cond l _ _ e => cond l leaf leaf (e.map fun _ => leaf)
  | forLoop l i c s _ =>
    forLoop l (i.map fun _ => leaf) (c.map fun _ => leaf) (s.map fun _ => leaf) leaf
  | forTo l _ _ _ d _ => forTo l leaf leaf leaf d leaf
  | forIn l _ _ _ => forIn l leaf leaf leaf
  | whileLoop l _ _ => whileLoop l leaf leaf
  | repeatUntil l _ _ => repeatUntil l leaf leaf
  | call l name as => call l name (as.map fun _ => leaf)
  | ret l v => ret l (v.map fun _ => leaf)
  | paren l _ => paren l leaf
  | element l _ i => element l leaf (i.map fun _ => leaf)
  | array l es => array l (es.map fun _ => leaf)

@[simp] theorem label_shell (e : Expr) : e.shell.label = e.label := by cases e <;> rfl

@[simp] theorem withLabel_withLabel (e : Expr) (l l' : Label) :
    (e.withLabel l).withLabel l' = e.withLabel l' := by cases e <;> rfl

theorem label_eq_of_shell {e e' : Expr} (h : e.shell = e'.shell) : e.label = e'.label := by
  rw [← label_shell e, h, label_shell]

theorem isFunction_shell (e : Expr) : e.shell.isFunction = e.isFunction := by cases e <;> rfl

/-- A node is its shell and its children. -/
theorem eq_of_shell {e e' : Expr} (hshell : e.shell = e'.shell)
    (hchildren : e.children = e'.children) : e = e' := by
  cases e <;> cases e' <;>
    simp only [shell, reduceCtorEq, constant.injEq, binary.injEq, var.injEq, function.injEq,
      block.injEq, cond.injEq, forLoop.injEq, forTo.injEq, forIn.injEq, whileLoop.injEq,
      repeatUntil.injEq, call.injEq, ret.injEq, paren.injEq, element.injEq, array.injEq] at hshell
  case function =>
    have hlength := congrArg List.length hshell.2.2.1
    obtain ⟨rfl, hbody⟩ := List.append_inj hchildren (by simpa using hlength)
    simp_all
  case forLoop =>
    obtain ⟨rfl, hi, hc, hs, -⟩ := hshell
    simp only [children, List.append_assoc] at hchildren
    obtain ⟨rfl, hcsb⟩ := toList_append_inj (isSome_eq_of_map hi) hchildren
    obtain ⟨rfl, hsb⟩ := toList_append_inj (isSome_eq_of_map hc) hcsb
    obtain ⟨rfl, hb⟩ := toList_append_inj (isSome_eq_of_map hs) hsb
    simp_all
  all_goals simp_all [children, toList_inj]

mutual

/-- The tree with every number changed by `ν`. -/
def relabel (ν : Nat → Nat) : Expr → Expr
  | constant l v => constant { l with id := ν l.id } v
  | binary l op a b => binary { l with id := ν l.id } op (relabel ν a) (relabel ν b)
  | var l name d => var { l with id := ν l.id } name (relabelOption ν d)
  | function l name ps b =>
    function { l with id := ν l.id } name (relabelList ν ps) (relabel ν b)
  | block l b => block { l with id := ν l.id } (relabelList ν b)
  | cond l c t e =>
    cond { l with id := ν l.id } (relabel ν c) (relabel ν t) (relabelOption ν e)
  | forLoop l i c s b =>
    forLoop { l with id := ν l.id } (relabelOption ν i) (relabelOption ν c) (relabelOption ν s)
      (relabel ν b)
  | forTo l v s t d b =>
    forTo { l with id := ν l.id } (relabel ν v) (relabel ν s) (relabel ν t) d (relabel ν b)
  | forIn l v it b => forIn { l with id := ν l.id } (relabel ν v) (relabel ν it) (relabel ν b)
  | whileLoop l c b => whileLoop { l with id := ν l.id } (relabel ν c) (relabel ν b)
  | repeatUntil l b c => repeatUntil { l with id := ν l.id } (relabel ν b) (relabel ν c)
  | call l name as => call { l with id := ν l.id } name (relabelList ν as)
  | ret l v => ret { l with id := ν l.id } (relabelOption ν v)
  | paren l e => paren { l with id := ν l.id } (relabel ν e)
  | element l t i => element { l with id := ν l.id } (relabel ν t) (relabelOption ν i)
  | array l es => array { l with id := ν l.id } (relabelList ν es)
termination_by structural e => e

def relabelList (ν : Nat → Nat) : List Expr → List Expr
  | [] => []
  | e :: es => relabel ν e :: relabelList ν es
termination_by structural es => es

def relabelOption (ν : Nat → Nat) : Option Expr → Option Expr
  | none => none
  | some e => some (relabel ν e)
termination_by structural e => e

end

section Relabel

variable {ν μ : Nat → Nat} {e f : Expr} {es : List Expr}

@[simp] theorem label_relabel (ν : Nat → Nat) (e : Expr) :
    (e.relabel ν).label = { e.label with id := ν e.label.id } := by cases e <;> rfl

@[simp] theorem id_relabel (ν : Nat → Nat) (e : Expr) : (e.relabel ν).id = ν e.id :=
  congrArg Label.id (label_relabel ν e)

@[simp] theorem span_relabel (ν : Nat → Nat) (e : Expr) : (e.relabel ν).span = e.span := by
  rw [span, label_relabel, span]

@[simp] theorem isFunction_relabel (ν : Nat → Nat) (e : Expr) :
    (e.relabel ν).isFunction = e.isFunction := by cases e <;> rfl

@[simp] theorem relabelList_eq (ν : Nat → Nat) (es : List Expr) :
    relabelList ν es = es.map (relabel ν) := by
  induction es with
  | nil => rfl
  | cons e es ih => rw [relabelList, ih, List.map_cons]

@[simp] theorem relabelOption_eq (ν : Nat → Nat) (o : Option Expr) :
    relabelOption ν o = o.map (relabel ν) := by cases o <;> rfl

theorem children_relabel (ν : Nat → Nat) (e : Expr) :
    (e.relabel ν).children = e.children.map (relabel ν) := by
  have hopt (o : Option Expr) : (o.map (relabel ν)).toList = o.toList.map (relabel ν) := by
    cases o <;> rfl
  cases e <;> simp [relabel, children, hopt]

theorem shell_relabel (ν : Nat → Nat) (e : Expr) :
    (e.relabel ν).shell = e.shell.withLabel { e.label with id := ν e.id } := by
  cases e <;> simp [relabel, shell, withLabel, label, id, Function.comp_def]

/-- Only the numbers of the nodes that are there matter. -/
theorem relabel_congr (h : ∀ f ∈ e.nodes, ν f.id = μ f.id) : e.relabel ν = e.relabel μ := by
  induction e using children_induction with
  | step e ih =>
    apply eq_of_shell
    · rw [shell_relabel, shell_relabel, h e (mem_nodes_self e)]
    · rw [children_relabel, children_relabel]
      apply List.map_congr_left
      intro x hx
      exact ih x hx fun f hf => h f (mem_nodes_child hx hf)

theorem relabel_relabel (ν μ : Nat → Nat) (e : Expr) :
    (e.relabel ν).relabel μ = e.relabel (μ ∘ ν) := by
  induction e using children_induction with
  | step e ih =>
    apply eq_of_shell
    · rw [shell_relabel, shell_relabel, shell_relabel, withLabel_withLabel, label_relabel,
        id_relabel]
      rfl
    · rw [children_relabel, children_relabel, children_relabel, List.map_map]
      exact List.map_congr_left ih

theorem relabel_id (e : Expr) : e.relabel (fun k => k) = e := by
  induction e using children_induction with
  | step e ih =>
    apply eq_of_shell
    · rw [shell_relabel]
      cases e <;> rfl
    · rw [children_relabel]
      exact (List.map_congr_left ih).trans (List.map_id _)

theorem relabel_eq_self (h : ∀ f ∈ e.nodes, ν f.id = f.id) : e.relabel ν = e :=
  (relabel_congr h).trans (relabel_id e)

theorem nodes_relabel (ν : Nat → Nat) (e : Expr) : (e.relabel ν).nodes = e.nodes.map (relabel ν) := by
  induction e using children_induction with
  | step e ih =>
    rw [nodes_eq, nodes_eq e, children_relabel, List.map_cons, List.map_flatMap, List.flatMap_map]
    exact congrArg (_ :: ·.flatten) (List.map_congr_left ih)

theorem mem_nodes_relabel : f ∈ (e.relabel ν).nodes ↔ ∃ g ∈ e.nodes, g.relabel ν = f := by
  rw [nodes_relabel, List.mem_map]

end Relabel

section Renumber

variable (n m : Nat) (e : Expr)

theorem renumberList_append (xs ys : List Expr) : renumberList n (xs ++ ys) =
    ((renumberList n xs).1 ++ (renumberList (renumberList n xs).2 ys).1,
      (renumberList (renumberList n xs).2 ys).2) := by
  induction xs generalizing n with
  | nil => rfl
  | cons x xs ih => simp [renumberList, ih]

theorem renumberOption_eq (o : Option Expr) : renumberList n o.toList =
    ((renumberOption n o).1.toList, (renumberOption n o).2) := by cases o <;> rfl

theorem children_renumber : ((e.renumber n).1.children, (e.renumber n).2) =
    renumberList (n + 1) e.children := by
  cases e <;>
    simp [renumber, children, renumberList, renumberList_append, renumberOption_eq]

theorem shell_renumber :
    (e.renumber n).1.shell = e.shell.withLabel { e.label with id := n } := by
  have hlist (k : Nat) (es : List Expr) {β : Type} (b : β) :
      ((renumberList k es).1.map fun _ => b) = es.map fun _ => b := by
    induction es generalizing k with
    | nil => rfl
    | cons x xs ih => simp [renumberList, ih]
  have hopt (k : Nat) (o : Option Expr) {β : Type} (b : β) :
      ((renumberOption k o).1.map fun _ => b) = o.map fun _ => b := by
    cases o <;> rfl
  cases e <;> simp only [renumber, shell, withLabel, label, hlist, hopt]

end Renumber

/-- Numbering from further on. -/
theorem renumber_add (n m : Nat) (e : Expr) :
    e.renumber (n + m) = ((e.renumber n).1.relabel (· + m), (e.renumber n).2 + m) := by
  induction e using children_induction generalizing n with
  | step e ih =>
    have hlist {es : List Expr} (hes : ∀ x ∈ es, x ∈ e.children) (n : Nat) :
        renumberList (n + m) es =
          ((renumberList n es).1.map (relabel (· + m)), (renumberList n es).2 + m) := by
      induction es generalizing n with
      | nil => rfl
      | cons x es ihs =>
        obtain ⟨hx, hes⟩ := List.forall_mem_cons.mp hes
        simp only [renumberList, ih x hx, ihs hes, List.map_cons]
    have hchildren := hlist (fun x hx => hx) (n + 1)
    rw [Nat.add_right_comm, ← children_renumber, ← children_renumber] at hchildren
    obtain ⟨hbelow, hnext⟩ := Prod.mk.inj hchildren
    refine Prod.ext (eq_of_shell ?_ ?_) hnext
    · rw [shell_renumber, shell_relabel, shell_renumber, withLabel_withLabel,
        (renumber_numbered e n).id_eq, ← label_shell (e.renumber n).1, shell_renumber]
      cases e <;> rfl
    · rw [hbelow, children_relabel]

/-- The number of nodes, as numbering counts them. -/
def count (e : Expr) : Nat := (e.renumber 0).2

theorem renumber_snd (n : Nat) (e : Expr) : (e.renumber n).2 = n + e.count := by
  have h := renumber_add 0 n e
  rw [Nat.zero_add] at h
  rw [h, Nat.add_comm, count]

theorem renumberList_pair (n : Nat) (x y : Expr) (rest : List Expr) :
    renumberList n (x :: y :: rest) =
      ((x.renumber n).1 :: (y.renumber (n + x.count)).1 ::
          (renumberList (n + x.count + y.count) rest).1,
        (renumberList (n + x.count + y.count) rest).2) := by
  simp only [renumberList, renumber_snd]

/-- Numbering changes nothing but the numbers. -/
theorem relabel_renumber (k n : Nat) (e : Expr) :
    (e.renumber n).1.relabel (fun _ => k) = e.relabel fun _ => k := by
  induction e using children_induction generalizing n with
  | step e ih =>
    have hlist {es : List Expr} (hes : ∀ x ∈ es, x ∈ e.children) (n : Nat) :
        (renumberList n es).1.map (relabel fun _ => k) = es.map (relabel fun _ => k) := by
      induction es generalizing n with
      | nil => rfl
      | cons x es ihs =>
        obtain ⟨hx, hes⟩ := List.forall_mem_cons.mp hes
        simp only [renumberList, List.map_cons, ih x hx, ihs hes]
    apply eq_of_shell
    · rw [shell_relabel, shell_relabel, shell_renumber, withLabel_withLabel,
        ← label_shell (e.renumber n).1, shell_renumber]
      cases e <;> rfl
    · rw [children_relabel, children_relabel, (Prod.mk.inj (children_renumber n e)).1]
      exact hlist (fun x hx => hx) (n + 1)

/-- `e'` is `e` with `x` and `y` exchanged, two members of a block of which one follows the
other, neither of them the last member of the block. -/
inductive Swaps (x y : Expr) : Expr → Expr → Prop where
  | members (l : Label) (pre : List Expr) (z : Expr) (post : List Expr) :
      Swaps x y (block l (pre ++ x :: y :: z :: post)) (block l (pre ++ y :: x :: z :: post))
  | inside {e e' c c' : Expr} {pre post : List Expr} (shell : e.shell = e'.shell)
      (children : e.children = pre ++ c :: post) (children' : e'.children = pre ++ c' :: post)
      (child : Swaps x y c c') : Swaps x y e e'

theorem Swaps.symm {x y e e' : Expr} (h : Swaps x y e e') : Swaps y x e' e := by
  induction h with
  | members l pre z post => exact .members l pre z post
  | inside hshell hchildren hchildren' _ ih => exact .inside hshell.symm hchildren' hchildren ih

/-- Exchanges an interval of length `a` with the interval of length `b` after it. -/
def rotate (start a b k : Nat) : Nat :=
  if k < start then k
  else if k < start + a then k + b
  else if k < start + a + b then k - a
  else k

theorem rotate_rotate (start a b k : Nat) : rotate start b a (rotate start a b k) = k := by
  unfold rotate
  grind

theorem rotate_eq_self {start a b k : Nat} (h : k < start ∨ start + a + b ≤ k) :
    rotate start a b k = k := by
  unfold rotate
  grind

/-- A numbered tree and the tree with two members of a block exchanged, where `ν` gives the
nodes of these the numbers they have then. All other nodes keep theirs. -/
inductive Exchanges (ν : Nat → Nat) (x y : Expr) : Expr → Expr → Prop where
  | members {l : Label} {pre rest : List Expr} (id : ν l.id = l.id)
      (before : ∀ d ∈ pre, d.relabel ν = d) (after : ∀ d ∈ rest, d.relabel ν = d)
      (last : rest ≠ []) :
      Exchanges ν x y (block l (pre ++ x :: y :: rest))
        (block l (pre ++ y.relabel ν :: x.relabel ν :: rest))
  | inside {e e' c c' : Expr} {pre post : List Expr} (id : ν e.id = e.id)
      (shell : e.shell = e'.shell) (children : e.children = pre ++ c :: post)
      (children' : e'.children = pre ++ c' :: post) (before : ∀ d ∈ pre, d.relabel ν = d)
      (after : ∀ d ∈ post, d.relabel ν = d) (child : Exchanges ν x y c c') : Exchanges ν x y e e'

section Numbers

variable {n start a b : Nat} {es : List Expr} {d : Expr}

theorem renumberList_numbered (n : Nat) (es : List Expr) :
    NumberedAll n (renumberList n es).1 (renumberList n es).2 := by
  induction es generalizing n with
  | nil => exact .nil
  | cons e es ih => exact .cons (renumber_numbered e n) (ih _)

/-- Nodes before or after the two intervals keep their numbers. -/
theorem relabel_rotate (h : (renumberList n es).2 ≤ start ∨ start + a + b ≤ n)
    (hd : d ∈ (renumberList n es).1) : d.relabel (rotate start a b) = d := by
  apply relabel_eq_self
  intro f hf
  obtain ⟨lo, hi, hn, hlo, hhi⟩ := (renumberList_numbered n es).mem hd
  have hid := hn.id_bounds hf
  exact rotate_eq_self (by omega)

theorem relabel_rotate_left (start b : Nat) (e : Expr) :
    (e.renumber start).1.relabel (rotate start e.count b) = (e.renumber (start + b)).1 := by
  rw [renumber_add]
  apply relabel_congr
  intro f hf
  have hid := (renumber_numbered e start).id_bounds hf
  rw [renumber_snd] at hid
  unfold rotate
  grind

theorem relabel_rotate_right (start a : Nat) (e : Expr) :
    (e.renumber (start + a)).1.relabel (rotate start a e.count) = (e.renumber start).1 := by
  rw [renumber_add, relabel_relabel]
  apply relabel_eq_self
  intro f hf
  have hid := (renumber_numbered e start).id_bounds hf
  rw [renumber_snd] at hid
  unfold rotate
  grind

end Numbers

/-- Numbering a tree before and after two members are exchanged. -/
theorem Swaps.exchanges {x y e e' : Expr} (h : Swaps x y e e') (n : Nat) :
    (e'.renumber n).2 = (e.renumber n).2 ∧ ∃ start, n < start ∧
      start + x.count + y.count ≤ (e.renumber n).2 ∧
      Exchanges (rotate start x.count y.count) (x.renumber start).1
        (y.renumber (start + x.count)).1 (e.renumber n).1 (e'.renumber n).1 := by
  induction h generalizing n with
  | members l pre z post =>
    have hbefore := renumberList_numbered (n + 1) pre
    simp only [renumber, renumberList_append, renumberList_pair]
    generalize hstart : (renumberList (n + 1) pre).2 = start at *
    rw [Nat.add_right_comm start y.count]
    have hafter := renumberList_numbered (start + x.count + y.count) (z :: post)
    refine ⟨rfl, start, hbefore.le, hafter.le, ?_⟩
    rw [← relabel_rotate_left start y.count x, ← relabel_rotate_right start x.count y]
    refine .members (rotate_eq_self (.inl hbefore.le)) (fun d hd => ?_) (fun d hd => ?_)
      (by simp [renumberList])
    · exact relabel_rotate (.inl (Nat.le_of_eq hstart)) hd
    · exact relabel_rotate (.inr (Nat.le_refl _)) hd
  | @inside e e' c c' pre post hshell hchildren hchildren' _ ih =>
    obtain ⟨hbelow, hnext⟩ := Prod.mk.inj (children_renumber n e)
    obtain ⟨hbelow', hnext'⟩ := Prod.mk.inj (children_renumber n e')
    rw [hchildren, renumberList_append] at hbelow hnext
    rw [hchildren', renumberList_append] at hbelow' hnext'
    have hbefore := (renumberList_numbered (n + 1) pre).le
    obtain ⟨hcount, start, hlo, hhi, hchild⟩ := ih (renumberList (n + 1) pre).2
    simp only [renumberList, hcount] at hbelow hbelow' hnext hnext'
    have hafter := (renumberList_numbered (c.renumber (renumberList (n + 1) pre).2).2 post).le
    refine ⟨hnext'.trans hnext.symm, start, by omega, by omega, ?_⟩
    refine .inside ?_ ?_ hbelow hbelow' (fun d hd => ?_) (fun d hd => ?_) hchild
    · rw [(renumber_numbered e n).id_eq]
      exact rotate_eq_self (.inl (by omega))
    · rw [shell_renumber, shell_renumber, hshell, label_eq_of_shell hshell]
    · exact relabel_rotate (.inl (Nat.le_of_lt hlo)) hd
    · exact relabel_rotate (.inr hhi) hd

end TurtleScript.Expr
