import TurtleScript.Tree.Program

/-!
# Trees by their children

What is shown of a node from what holds of its children holds of every tree. The nodes of
a numbered tree have the numbers of an interval, each child an interval of its own, so a
number names one node.
-/
namespace TurtleScript.Expr

theorem sizeOf_child {e x : Expr} (h : x ∈ e.children) : sizeOf x < sizeOf e := by
  have hopt {o : Option Expr} (hx : x ∈ o.toList) : sizeOf x < sizeOf o := by
    cases o with
    | none => cases hx
    | some y =>
      obtain rfl := List.mem_singleton.mp hx
      simp
  cases e <;> simp only [children, List.mem_append, List.mem_cons, List.not_mem_nil, or_false] at h
  all_goals
    simp only [binary.sizeOf_spec, var.sizeOf_spec, function.sizeOf_spec,
      block.sizeOf_spec, cond.sizeOf_spec, forLoop.sizeOf_spec, forTo.sizeOf_spec,
      forIn.sizeOf_spec, whileLoop.sizeOf_spec, repeatUntil.sizeOf_spec, call.sizeOf_spec,
      ret.sizeOf_spec, paren.sizeOf_spec, element.sizeOf_spec, array.sizeOf_spec]
  case block | call | array =>
    have := List.sizeOf_lt_of_mem h
    omega
  case var | ret =>
    have := hopt h
    omega
  case function =>
    rcases h with h | rfl
    · have := List.sizeOf_lt_of_mem h
      omega
    · omega
  case cond =>
    rcases h with (rfl | rfl) | h
    · omega
    · omega
    · have := hopt h
      omega
  case forLoop =>
    rcases h with ((h | h) | h) | rfl
    · have := hopt h
      omega
    · have := hopt h
      omega
    · have := hopt h
      omega
    · omega
  case element =>
    rcases h with rfl | h
    · omega
    · have := hopt h
      omega
  case paren =>
    subst h
    omega
  case binary | whileLoop | repeatUntil => rcases h with rfl | rfl <;> omega
  case forIn => rcases h with rfl | rfl | rfl <;> omega
  case forTo => rcases h with rfl | rfl | rfl | rfl <;> omega

/-- Induction from the children of a node to the node. -/
theorem children_induction {motive : Expr → Prop}
    (step : ∀ e, (∀ x ∈ e.children, motive x) → motive e) (e : Expr) : motive e :=
  step e fun x _ => children_induction step x
termination_by e
decreasing_by exact sizeOf_child ‹_›

/-- The nodes of a tree in pre-order. -/
def nodes (e : Expr) : List Expr := (e.walk 0).map (·.2)

theorem map_walk (e : Expr) (depth : Nat) :
    (e.walk depth).map (·.2) = e :: e.children.flatMap nodes := by
  induction e using children_induction generalizing depth with
  | step e ih =>
    have hnodes {x : Expr} (hx : x ∈ e.children) (depth : Nat) :
        (x.walk depth).map (·.2) = nodes x := by
      rw [nodes, ih x hx, ih x hx]
    have hlist {es : List Expr} (hes : ∀ x ∈ es, x ∈ e.children) (depth : Nat) :
        (walkList depth es).map (·.2) = es.flatMap nodes := by
      induction es with
      | nil => rfl
      | cons x es ihs =>
        obtain ⟨hx, hes⟩ := List.forall_mem_cons.mp hes
        rw [walkList, List.map_append, hnodes hx, ihs hes, List.flatMap_cons]
    have hopt {o : Option Expr} (ho : ∀ x ∈ o.toList, x ∈ e.children) (depth : Nat) :
        (walkOption depth o).map (·.2) = o.toList.flatMap nodes := by
      cases o with
      | none => rfl
      | some x =>
        rw [walkOption, hnodes (ho x (List.mem_singleton_self x))]
        simp
    cases e <;>
      simp only [walk, children, List.map_cons, List.map_append, List.flatMap_append,
        List.flatMap_cons, List.flatMap_nil, List.append_nil, List.append_assoc, List.map_nil,
        List.cons_append, List.nil_append]
    all_goals
      congr 1
      simp only [children] at hnodes hlist hopt
      grind

theorem nodes_eq (e : Expr) : e.nodes = e :: e.children.flatMap nodes := map_walk e 0

theorem mem_nodes {e f : Expr} : f ∈ e.nodes ↔ f = e ∨ ∃ x ∈ e.children, f ∈ x.nodes := by
  rw [nodes_eq, List.mem_cons, List.mem_flatMap]

theorem mem_nodes_self (e : Expr) : e ∈ e.nodes := mem_nodes.mpr (.inl rfl)

theorem mem_nodes_child {e x f : Expr} (hx : x ∈ e.children) (hf : f ∈ x.nodes) : f ∈ e.nodes :=
  mem_nodes.mpr (.inr ⟨x, hx, hf⟩)

theorem mem_nodes_trans {e f g : Expr} (hf : f ∈ e.nodes) (hg : g ∈ f.nodes) : g ∈ e.nodes := by
  induction e using children_induction with
  | step e ih =>
    rcases mem_nodes.mp hf with rfl | ⟨x, hx, hf⟩
    · exact hg
    · exact mem_nodes_child hx (ih x hx hf)

/-- Induction with the hypothesis for every node below. -/
theorem nodes_induction {motive : Expr → Prop}
    (step : ∀ e, (∀ x ∈ e.children, ∀ y ∈ x.nodes, motive y) → motive e) (e : Expr) : motive e := by
  suffices ∀ y ∈ e.nodes, motive y from this e (mem_nodes_self e)
  induction e using children_induction with
  | step e ih =>
    intro y hy
    rcases mem_nodes.mp hy with rfl | ⟨x, hx, hy⟩
    · exact step y ih
    · exact ih x hx y hy

/-- Induction over the nodes of a tree, with the hypothesis for the children of a node and for the
children of these: the target of an assignment is not evaluated, but its parts are. -/
theorem mem_nodes_induction {root : Expr} {motive : Expr → Prop}
    (step : ∀ e ∈ root.nodes, (∀ x ∈ e.children, x ∈ root.nodes) → (∀ x ∈ e.children, motive x) →
      (∀ x ∈ e.children, ∀ y ∈ x.children, motive y) → motive e)
    (e : Expr) (he : e ∈ root.nodes) : motive e := by
  induction e using nodes_induction with
  | step e ih =>
    have below (x : Expr) (hx : x ∈ e.children) (y : Expr) (hy : y ∈ x.nodes) :
        y ∈ root.nodes ∧ motive y :=
      have hmem := mem_nodes_trans he (mem_nodes_child hx hy)
      ⟨hmem, ih x hx y hy hmem⟩
    exact step e he (fun x hx => (below x hx x x.mem_nodes_self).1)
      (fun x hx => (below x hx x x.mem_nodes_self).2)
      fun x hx y hy => (below x hx y (mem_nodes_child hy y.mem_nodes_self)).2

mutual

/-- The nodes have the numbers from `lo` up to `hi`, in pre-order. -/
inductive Numbered : Nat → Expr → Nat → Prop where
  | node {lo hi : Nat} {e : Expr} (id : e.id = lo) (children : NumberedAll (lo + 1) e.children hi) :
      Numbered lo e hi

inductive NumberedAll : Nat → List Expr → Nat → Prop where
  | nil {n : Nat} : NumberedAll n [] n
  | cons {lo mid hi : Nat} {e : Expr} {es : List Expr} (head : Numbered lo e mid)
      (tail : NumberedAll mid es hi) : NumberedAll lo (e :: es) hi

end

section Numbered

variable {lo mid hi : Nat} {e f : Expr} {es fs : List Expr}

theorem numberedAll_append :
    NumberedAll lo (es ++ fs) hi ↔ ∃ mid, NumberedAll lo es mid ∧ NumberedAll mid fs hi := by
  constructor
  · intro h
    induction es generalizing lo with
    | nil => exact ⟨lo, .nil, h⟩
    | cons e es ih =>
      cases h with
      | cons head tail =>
        obtain ⟨mid, hes, hfs⟩ := ih tail
        exact ⟨mid, .cons head hes, hfs⟩
  · rintro ⟨mid, hes, hfs⟩
    induction es generalizing lo with
    | nil =>
      cases hes
      exact hfs
    | cons e es ih =>
      cases hes with
      | cons head tail => exact .cons head (ih tail)

theorem Numbered.id_eq (h : Numbered lo e hi) : e.id = lo := by
  cases h
  assumption

theorem Numbered.children_numbered (h : Numbered lo e hi) : NumberedAll (lo + 1) e.children hi := by
  cases h
  assumption

theorem NumberedAll.uncons (h : NumberedAll lo (e :: es) hi) :
    ∃ mid, Numbered lo e mid ∧ NumberedAll mid es hi := by
  cases h with
  | cons head tail => exact ⟨_, head, tail⟩

theorem NumberedAll.le_of (h : NumberedAll lo es hi)
    (hle : ∀ e ∈ es, ∀ lo hi, Numbered lo e hi → lo ≤ hi) : lo ≤ hi := by
  induction es generalizing lo with
  | nil =>
    cases h
    exact Nat.le_refl _
  | cons e es ih =>
    obtain ⟨he, hes⟩ := List.forall_mem_cons.mp hle
    cases h with
    | cons head tail => exact Nat.le_trans (he _ _ head) (ih tail hes)

theorem Numbered.lt (h : Numbered lo e hi) : lo < hi := by
  induction e using children_induction generalizing lo hi with
  | step e ih =>
    exact h.children_numbered.le_of fun x hx _ _ hn => Nat.le_of_lt (ih x hx hn)

theorem NumberedAll.le (h : NumberedAll lo es hi) : lo ≤ hi :=
  h.le_of fun _ _ _ _ hn => Nat.le_of_lt hn.lt

theorem NumberedAll.length_le (h : NumberedAll lo es hi) : lo + es.length ≤ hi := by
  induction es generalizing lo with
  | nil =>
    cases h
    exact Nat.le_refl _
  | cons e es ih =>
    cases h with
    | cons head tail =>
      have := head.lt
      have := ih tail
      rw [List.length_cons]
      omega

/-- A member of a numbered list has an interval inside that of the list. -/
theorem NumberedAll.mem (h : NumberedAll lo es hi) (he : e ∈ es) :
    ∃ lo' hi', Numbered lo' e hi' ∧ lo ≤ lo' ∧ hi' ≤ hi := by
  induction es generalizing lo with
  | nil => cases he
  | cons x es ih =>
    cases h with
    | cons head tail =>
      rcases List.mem_cons.mp he with rfl | he
      · exact ⟨_, _, head, Nat.le_refl _, tail.le⟩
      · obtain ⟨lo', hi', hn, hlo, hhi⟩ := ih tail he
        exact ⟨lo', hi', hn, Nat.le_trans (Nat.le_of_lt head.lt) hlo, hhi⟩

theorem Numbered.mem (h : Numbered lo e hi) (hf : f ∈ e.nodes) :
    ∃ lo' hi', Numbered lo' f hi' ∧ lo ≤ lo' ∧ hi' ≤ hi := by
  induction e using children_induction generalizing lo hi with
  | step e ih =>
    rcases mem_nodes.mp hf with rfl | ⟨x, hx, hf⟩
    · exact ⟨lo, hi, h, Nat.le_refl _, Nat.le_refl _⟩
    · obtain ⟨lo', hi', hn, hlo, hhi⟩ := h.children_numbered.mem hx
      obtain ⟨lo'', hi'', hn', hlo', hhi'⟩ := ih x hx hn hf
      exact ⟨lo'', hi'', hn', by omega, by omega⟩

theorem Numbered.id_bounds (h : Numbered lo e hi) (hf : f ∈ e.nodes) : lo ≤ f.id ∧ f.id < hi := by
  obtain ⟨lo', hi', hn, hlo, hhi⟩ := h.mem hf
  have := hn.lt
  rw [hn.id_eq]
  omega

theorem NumberedAll.exists_id_of {k : Nat} (h : NumberedAll lo es hi) (hlo : lo ≤ k) (hhi : k < hi)
    (hall : ∀ e ∈ es, ∀ lo hi, Numbered lo e hi → lo ≤ k → k < hi → ∃ f ∈ e.nodes, f.id = k) :
    ∃ e ∈ es, ∃ f ∈ e.nodes, f.id = k := by
  induction es generalizing lo with
  | nil =>
    cases h
    omega
  | cons e es ih =>
    obtain ⟨he, hes⟩ := List.forall_mem_cons.mp hall
    cases h with
    | @cons _ mid _ _ _ head tail =>
      by_cases hk : k < mid
      · exact ⟨e, List.mem_cons_self, he _ _ head hlo hk⟩
      · obtain ⟨x, hx, hf⟩ := ih tail (Nat.le_of_not_lt hk) hes
        exact ⟨x, List.mem_cons_of_mem e hx, hf⟩

/-- Every number of the interval is that of a node. -/
theorem Numbered.exists_id {k : Nat} (h : Numbered lo e hi) (hlo : lo ≤ k) (hhi : k < hi) :
    ∃ f ∈ e.nodes, f.id = k := by
  induction e using children_induction generalizing lo hi with
  | step e ih =>
    by_cases hk : k = lo
    · exact ⟨e, mem_nodes_self e, h.id_eq.trans hk.symm⟩
    · obtain ⟨x, hx, f, hf, hid⟩ := h.children_numbered.exists_id_of (by omega) hhi
        fun x hx _ _ hn hlo hhi => ih x hx hn hlo hhi
      exact ⟨f, mem_nodes_child hx hf, hid⟩

/-- Members of a numbered list share no number. -/
theorem NumberedAll.eq_of_id (h : NumberedAll lo es hi) {x y : Expr} (hx : x ∈ es) (hy : y ∈ es)
    {f g : Expr} (hf : f ∈ x.nodes) (hg : g ∈ y.nodes) (hid : f.id = g.id) : x = y := by
  induction es generalizing lo with
  | nil => cases hx
  | cons e es ih =>
    cases h with
    | cons head tail =>
      rcases List.mem_cons.mp hx with rfl | hx' <;> rcases List.mem_cons.mp hy with rfl | hy'
      · rfl
      · obtain ⟨lo', hi', hn, hlo, _⟩ := tail.mem hy'
        have := head.id_bounds hf
        have := hn.id_bounds hg
        omega
      · obtain ⟨lo', hi', hn, hlo, _⟩ := tail.mem hx'
        have := head.id_bounds hg
        have := hn.id_bounds hf
        omega
      · exact ih tail hx' hy'

/-- A number names one node. -/
theorem Numbered.eq_of_id (h : Numbered lo e hi) {g : Expr} (hf : f ∈ e.nodes) (hg : g ∈ e.nodes)
    (hid : f.id = g.id) : f = g := by
  induction e using children_induction generalizing lo hi with
  | step e ih =>
    have hchild {x y : Expr} (hx : x ∈ e.children) (hy : y ∈ x.nodes) : y.id ≠ e.id := by
      obtain ⟨lo', hi', hn, hlo, _⟩ := h.children_numbered.mem hx
      have := hn.id_bounds hy
      rw [h.id_eq]
      omega
    rcases mem_nodes.mp hf with rfl | ⟨x, hx, hf'⟩ <;>
      rcases mem_nodes.mp hg with rfl | ⟨y, hy, hg'⟩
    · rfl
    · exact absurd hid.symm (hchild hy hg')
    · exact absurd hid (hchild hx hf')
    · obtain rfl := h.children_numbered.eq_of_id hx hy hf' hg' hid
      obtain ⟨lo', hi', hn, _, _⟩ := h.children_numbered.mem hx
      exact ih x hx hn hf' hg'

theorem NumberedAll.ids_of (h : NumberedAll lo es hi)
    (hall : ∀ e ∈ es, ∀ lo hi, Numbered lo e hi → e.nodes.map id = List.range' lo (hi - lo)) :
    (es.flatMap nodes).map id = List.range' lo (hi - lo) := by
  induction es generalizing lo with
  | nil =>
    cases h
    simp
  | cons e es ih =>
    obtain ⟨he, hes⟩ := List.forall_mem_cons.mp hall
    obtain ⟨mid, hhead, htail⟩ := h.uncons
    have hlo := hhead.lt
    have hhi := htail.le
    obtain ⟨n, rfl⟩ : ∃ n, mid = lo + n := ⟨mid - lo, by omega⟩
    rw [List.flatMap_cons, List.map_append, he _ _ hhead, ih htail hes, Nat.add_sub_cancel_left,
      List.range'_append_1]
    congr 1
    omega

/-- The numbers of the nodes, in pre-order, are those of the interval. -/
theorem Numbered.ids (h : Numbered lo e hi) : e.nodes.map id = List.range' lo (hi - lo) := by
  induction e using children_induction generalizing lo hi with
  | step e ih =>
    have hlt := h.lt
    rw [nodes_eq, List.map_cons, h.id_eq, h.children_numbered.ids_of fun x hx _ _ => ih x hx,
      ← List.range'_succ]
    congr 1
    omega

end Numbered

theorem renumber_numbered (e : Expr) (n : Nat) : Numbered n (e.renumber n).1 (e.renumber n).2 := by
  induction e using children_induction generalizing n with
  | step e ih =>
    have hlist {es : List Expr} (hes : ∀ x ∈ es, x ∈ e.children) (n : Nat) :
        NumberedAll n (renumberList n es).1 (renumberList n es).2 := by
      induction es generalizing n with
      | nil => exact .nil
      | cons x es ihs =>
        obtain ⟨hx, hes⟩ := List.forall_mem_cons.mp hes
        exact .cons (ih x hx n) (ihs hes _)
    have hopt {o : Option Expr} (ho : ∀ x ∈ o.toList, x ∈ e.children) (n : Nat) :
        NumberedAll n (renumberOption n o).1.toList (renumberOption n o).2 := by
      cases o with
      | none => exact .nil
      | some x => exact .cons (ih x (ho x (List.mem_singleton_self x)) n) .nil
    have hone {x : Expr} (hx : x ∈ e.children) (n : Nat) :
        NumberedAll n [(x.renumber n).1] (x.renumber n).2 := .cons (ih x hx n) .nil
    have happ {xs ys : List Expr} {lo mid hi : Nat} (hx : NumberedAll lo xs mid)
        (hy : NumberedAll mid ys hi) : NumberedAll lo (xs ++ ys) hi :=
      numberedAll_append.mpr ⟨mid, hx, hy⟩
    cases e <;> refine .node rfl ?_
    case constant => exact .nil
    case var | ret => exact hopt (by simp) _
    case block | call | array => exact hlist (by simp) _
    case paren => exact hone (by simp) _
    case function => exact happ (hlist (by simp +contextual [children]) _) (hone (by simp) _)
    case element => exact happ (hone (by simp) _) (hopt (by simp +contextual [children]) _)
    case binary | whileLoop | repeatUntil =>
      exact happ (hone (by simp) _) (hone (by simp) _)
    case forIn =>
      exact happ (hone (by simp) _)
        (happ (hone (by simp) _) (hone (by simp) _))
    case forTo =>
      exact happ (hone (by simp) _) (happ (hone (by simp) _)
        (happ (hone (by simp) _) (hone (by simp) _)))
    case cond =>
      exact happ (happ (hone (by simp) _) (hone (by simp) _))
        (hopt (by simp +contextual [children]) _)
    case forLoop =>
      exact happ (happ (happ (hopt (by simp +contextual [children]) _)
        (hopt (by simp +contextual [children]) _)) (hopt (by simp +contextual [children]) _))
        (hone (by simp) _)

end TurtleScript.Expr
