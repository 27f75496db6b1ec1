import TurtleScript.Proofs.Scope.Names

/-!
# Walks that find no problem

Visiting a node is entering it and then visiting those of its children that may have scopes:
the types of declarations and the variables of loops have none. `Entered` says all that
entering does. What holds of one step of this kind and is kept along a list of nodes holds of
the whole walk.
-/
namespace TurtleScript

open ScopeTree

theorem Declared.shut {e : Expr} (h : Declared e) : e.Shut := by
  intro y hy
  rcases h.shape hy with hvar | ⟨l, array, rfl⟩
  · cases y with
    | var => rfl
    | _ => cases hvar
  · rfl

namespace Building

variable {host : Host} {b b₁ : Building} {scope function inner id : Nat} {e : Expr}

/-- What entering a node does to the tree. The node stands in `scope` of `function`, and of its
children `rest` are still to be visited, in `inner` of `id`. -/
structure Entered (host : Host) (scope function inner id : Nat) (e : Expr) (rest : List Expr)
    (t t' : ScopeTree) : Prop where
  children : ∃ front, e.children = front ++ rest ∧ ∀ x ∈ front, x.Shut
  inner_eq : inner = if e.opens then t.outline.regions.size else scope
  id_eq : id = if e.isFunction then t.functions.size else function
  outline : t'.outline = t.outline.enter scope function e
  wf : Wf host t'
  grows : Grows t t'
  function_lt : id < t'.functions.size
  params : ∀ l name params body, e = .function l name params body → t'.HasParams id params
  declares : Declaring (· = e) t t'

/-- A node that is neither a function nor opens a scope. -/
theorem entered_passed {rest : List Expr} {p u : Expr → Prop} {φ : ScopeTree → Prop}
    (hopens : e.opens = false) (hchildren : ∃ front, e.children = front ++ rest ∧ ∀ x ∈ front, x.Shut)
    (hafter : After host p u φ b.tree b₁.tree) (hfunction : function < b.tree.functions.size)
    (houtline : b₁.tree.outline = b.tree.outline) (hdeclares : Declaring (· = e) b.tree b₁.tree) :
    Entered host scope function scope function e rest b.tree b₁.tree where
  children := hchildren
  inner_eq := by simp [hopens]
  id_eq := by simp [(Bool.or_eq_false_iff.mp hopens).2]
  outline := by
    obtain ⟨hscope, hfun⟩ := Bool.or_eq_false_iff.mp hopens
    simp [Outline.enter, hscope, hfun, houtline]
  wf := hafter.wf
  grows := hafter.grows
  function_lt := Nat.lt_of_lt_of_le hfunction hafter.grows.size_functions
  params := by
    rintro l name params body rfl
    cases hopens
  declares := hdeclares

/-- A node that opens a scope and is not a function. -/
theorem entered_opening {rest : List Expr} {p u : Expr → Prop} {φ : ScopeTree → Prop}
    (hopens : e.opensScope = true)
    (hchildren : ∃ front, e.children = front ++ rest ∧ ∀ x ∈ front, x.Shut)
    (hafter : After host p u φ b.tree b₁.tree) (hfunction : function < b.tree.functions.size)
    (houtline : b₁.tree.outline = (b.openScope scope function e.id).2.tree.outline)
    (hdeclares : Declaring (· = e) b.tree b₁.tree) :
    Entered host scope function (b.openScope scope function e.id).1 function e rest b.tree
      b₁.tree := by
  have hfun : e.isFunction = false := by
    cases e with
    | function => cases hopens
    | _ => rfl
  exact {
    children := hchildren
    inner_eq := by simp [Expr.opens, hopens, openScope, pushScope, ScopeTree.outline]
    id_eq := by simp [hfun]
    outline := by
      rw [Outline.enter, hfun, if_neg Bool.false_ne_true, if_pos hopens, houtline]
      exact outline_addScope
    wf := hafter.wf
    grows := hafter.grows
    function_lt := Nat.lt_of_lt_of_le hfunction hafter.grows.size_functions
    params := by
      rintro l name params body rfl
      cases hfun
    declares := hdeclares }

/-- A function, with its parameters as the first of its slots. -/
theorem entered_function {l : Label} {name : String} {params : List Expr} {body : Expr}
    {opened : Option (Nat × Nat)} (h : b.openFunction scope l name params = (opened, b₁))
    (hclean : b₁.problems = []) (hwf : Wf host b.tree)
    (hfunction : function < b.tree.functions.size) :
    opened = some (b.tree.scopes.size, b.tree.functions.size) ∧
      Entered host scope function b.tree.scopes.size b.tree.functions.size
        (.function l name params body) [body] b.tree b₁.tree := by
  obtain ⟨-, hdeclared, inner, hopened, henter⟩ :=
    builds_openFunction (.function l name params body) rfl rfl h hclean
  obtain ⟨-, checked, -, b₂, inner', -, hinner, htree₂, -, hopened', -, htree⟩ :=
    openFunction_clean h hclean
  obtain ⟨hsize, hafter⟩ := henter hwf hfunction
  refine ⟨hinner ▸ hopened', {
    children := ⟨params, rfl, fun x hx => (hdeclared x hx).shut⟩
    inner_eq := (Array.size_map ..).symm
    id_eq := rfl
    outline := ?_
    wf := hafter.wf
    grows := hafter.grows
    function_lt := hsize
    params := ?_
    declares := declaring_openFunction h hclean hwf.toLayout (Nat.zero_lt_of_lt hfunction) }⟩
  · rw [htree, outline_setParams, outline_declareParams, htree₂, outline_addScope,
      outline_addFunction]
    rfl
  · rintro _ _ _ _ ⟨⟩
    exact (hafter.left _ (.refl _)).2.2

theorem visitList_clean {es : List Expr} {lo hi : Nat} (hn : Expr.NumberedAll lo es hi)
    (h : (visitList scope function es b).problems = []) : b.problems = [] := by
  have hbuilds : Builds {} function _ _ _ b (visitList scope function es b) :=
    builds_list (fun x _ => buildsNode x) hn b
  exact (hbuilds h).1

/-- The type after a name has no scope. -/
theorem shut_of_declaredType? {type : Expr} {ty : Ty} (h : declaredType? type = some ty) :
    type.Shut := by
  have hdeclared : Declared (.var {} "" (some type)) := by
    refine ⟨{}, "", some type, rfl, ?_⟩
    rintro _ ⟨⟩
    exact ⟨ty, h⟩
  exact fun y hy => hdeclared.shut y (Expr.mem_nodes_child (List.mem_singleton_self type) hy)

/-- Visiting a node is entering it, then visiting some of its children. -/
theorem visit_enters {lo hi : Nat} (hn : Expr.Numbered lo e hi) (hwf : Wf host b.tree)
    (hfunction : function < b.tree.functions.size)
    (hclean : (visit scope function e b).problems = []) :
    ∃ inner id rest b₁ lo' hi', visit scope function e b = visitList inner id rest b₁ ∧
      Expr.NumberedAll lo' rest hi' ∧
      Entered host scope function inner id e rest b.tree b₁.tree := by
  have hrefl : Builds host function _ _ _ b b := .refl b
  cases e with
  | var l name d =>
    cases d with
    | none =>
      exact ⟨scope, function, [], b, 0, 0, rfl, .nil,
        entered_passed rfl ⟨[], rfl, List.forall_mem_nil _⟩ ((hrefl hclean).2 hwf hfunction) hfunction rfl
          (.refl _)⟩
    | some type =>
      have hdeclare : Builds host function _ _ _ b (b.declare scope function name type l.span) :=
        builds_declare
      have hafter := (hdeclare hclean).2 hwf hfunction
      obtain ⟨ty, hty⟩ := hafter.left _ (.refl _)
      refine ⟨scope, function, [], _, 0, 0, rfl, .nil,
        entered_passed rfl ⟨[type], rfl, ?_⟩ hafter hfunction outline_declare
          (declaring_declare hclean hwf.toLayout hfunction)⟩
      exact List.forall_mem_singleton.mpr (shut_of_declaredType? hty)
  | function l name params body =>
    obtain ⟨mid, -, hbody⟩ := Expr.numberedAll_append.mp hn.children_numbered
    rw [visit] at hclean ⊢
    cases hopen : b.openFunction scope l name params with
    | mk opened b₁ =>
      rw [hopen] at hclean
      have hclean₁ : b₁.problems = [] := by
        cases opened with
        | none => exact hclean
        | some place => exact visitList_clean hbody hclean
      obtain ⟨rfl, hentered⟩ := entered_function hopen hclean₁ hwf hfunction
      exact ⟨_, _, [body], b₁, mid, hi, rfl, hbody, hentered⟩
  | block l body =>
    have hopen : Builds host function _ _ _ b (b.openScope scope function l.id).2 :=
      builds_openScope (.block l body)
    have hclean₁ := visitList_clean hn.children_numbered hclean
    exact ⟨_, function, body, _, _, hi, rfl, hn.children_numbered,
      entered_opening rfl ⟨[], rfl, List.forall_mem_nil _⟩ ((hopen hclean₁).2 hwf hfunction) hfunction rfl
        .addScope⟩
  | forLoop l init condition step body =>
    have hopen : Builds host function _ _ _ b (b.openScope scope function l.id).2 :=
      builds_openScope (.forLoop l init condition step body)
    rw [visit_forLoop] at hclean ⊢
    have hclean₁ := visitList_clean hn.children_numbered hclean
    exact ⟨_, function, _, _, _, hi, rfl, hn.children_numbered,
      entered_opening rfl ⟨[], rfl, List.forall_mem_nil _⟩ ((hopen hclean₁).2 hwf hfunction) hfunction rfl
        .addScope⟩
  | forTo l counter start bound direction body =>
    obtain ⟨mid, -, hrest⟩ := hn.children_numbered.uncons
    have hclean₁ := visitList_clean hrest hclean
    have henter : Builds host function _ _ _ b _ :=
      builds_enterLoop (.forTo l counter start bound direction body) counter scope
    have hafter := (henter hclean₁).2 hwf hfunction
    have hitem := (hafter.left _ (.refl _)).2
    exact ⟨_, function, [start, bound, body], _, mid, hi, rfl, hrest,
      entered_opening rfl ⟨[counter], rfl, List.forall_mem_singleton.mpr hitem.shut⟩ hafter
        hfunction (outline_declareLoopVariable counter)
        (declaring_enterLoop rfl hwf hfunction rfl hclean₁)⟩
  | forIn l item iterable body =>
    obtain ⟨mid, -, hrest⟩ := hn.children_numbered.uncons
    have hclean₁ := visitList_clean hrest hclean
    have henter : Builds host function _ _ _ b _ :=
      builds_enterLoop (.forIn l item iterable body) item scope
    have hafter := ((henter.trans (builds_loopSlots (.forIn l item iterable body) rfl) (by simp)
      (by simp)) hclean₁).2 hwf hfunction
    have hitem := (hafter.left _ (.refl _)).1.2
    exact ⟨_, function, [iterable, body], _, mid, hi, rfl, hrest,
      entered_opening rfl ⟨[item], rfl, List.forall_mem_singleton.mpr hitem.shut⟩ hafter hfunction
        ((outline_declareLoopSlots hclean₁).trans (outline_declareLoopVariable item))
        (declaring_enterForIn rfl hwf hfunction hclean₁)⟩
  | _ =>
    rw [visit_plain rfl rfl rfl] at hclean ⊢
    have hclean₁ := visitList_clean hn.children_numbered hclean
    exact ⟨scope, function, _, b, _, hi, rfl, hn.children_numbered,
      entered_passed rfl ⟨[], rfl, List.forall_mem_nil _⟩ ((hrefl hclean₁).2 hwf hfunction) hfunction rfl
        (.refl _)⟩

/-- What a walk without problems over some nodes leaves. -/
theorem after_visitList {es : List Expr} {lo hi : Nat} (hn : Expr.NumberedAll lo es hi)
    (hwf : Wf host b.tree) (hfunction : function < b.tree.functions.size)
    (hclean : (visitList scope function es b).problems = []) :
    Wf host (visitList scope function es b).tree ∧
      Grows b.tree (visitList scope function es b).tree := by
  have hbuilds : Builds host function _ _ _ b (visitList scope function es b) :=
    builds_list (fun x _ => buildsNode x) hn b
  have hafter := (hbuilds hclean).2 hwf hfunction
  exact ⟨hafter.wf, hafter.grows⟩

section Induction

variable {motive : Nat → Nat → List Expr → ScopeTree → ScopeTree → Prop}
  (nil : ∀ scope function t, motive scope function [] t t)
  (cons : ∀ scope function x es t t₁ t₂, Grows t₁ t₂ → motive scope function [x] t t₁ →
    motive scope function es t₁ t₂ → motive scope function (x :: es) t t₂)
  (enter : ∀ scope function inner id e rest t t₁ t₂,
    Entered host scope function inner id e rest t t₁ → Grows t₁ t₂ →
    motive inner id rest t₁ t₂ → motive scope function [e] t t₂)

include nil cons in
theorem visitList_induction {es : List Expr} {lo hi : Nat} (hn : Expr.NumberedAll lo es hi)
    (hwf : Wf host b.tree) (hfunction : function < b.tree.functions.size)
    (hclean : (visitList scope function es b).problems = [])
    (hnodes : ∀ x ∈ es, ∀ (lo hi : Nat) (b : Building), Expr.Numbered lo x hi → Wf host b.tree →
      function < b.tree.functions.size → (visit scope function x b).problems = [] →
      motive scope function [x] b.tree (visit scope function x b).tree) :
    motive scope function es b.tree (visitList scope function es b).tree := by
  induction es generalizing lo b with
  | nil => exact nil scope function b.tree
  | cons x es ih =>
    obtain ⟨mid, hx, hes⟩ := hn.uncons
    obtain ⟨hfirst, hrest⟩ := List.forall_mem_cons.mp hnodes
    have hclean₁ : (visit scope function x b).problems = [] := visitList_clean hes hclean
    obtain ⟨hwf₁, hgrows₁⟩ := after_visitList (.cons hx .nil) hwf hfunction hclean₁
    have hfunction₁ := Nat.lt_of_lt_of_le hfunction hgrows₁.size_functions
    exact cons scope function x es _ _ _ (after_visitList hes hwf₁ hfunction₁ hclean).2
      (hfirst _ _ b hx hwf hfunction hclean₁) (ih hes hwf₁ hfunction₁ hclean hrest)

include nil cons enter in
/-- Induction over a walk without problems: what entering a node keeps, with the walk over the
children that are left, holds of the walk over the node. -/
theorem visit_induction {lo hi : Nat} (hn : Expr.Numbered lo e hi) (hwf : Wf host b.tree)
    (hfunction : function < b.tree.functions.size)
    (hclean : (visit scope function e b).problems = []) :
    motive scope function [e] b.tree (visit scope function e b).tree := by
  induction e using Expr.children_induction generalizing scope function b lo hi with
  | step e ih =>
    obtain ⟨inner, id, rest, b₁, lo', hi', hvisit, hrest, hentered⟩ :=
      visit_enters hn hwf hfunction hclean
    rw [hvisit] at hclean ⊢
    obtain ⟨front, hchildren, -⟩ := hentered.children
    refine enter scope function inner id e rest _ _ _ hentered
      (after_visitList hrest hentered.wf hentered.function_lt hclean).2 ?_
    refine visitList_induction nil cons hrest hentered.wf hentered.function_lt hclean ?_
    intro x hx lo hi b hn hwf hfunction hclean
    exact ih x (hchildren ▸ List.mem_append_right front hx) hn hwf hfunction hclean

include nil cons enter in
theorem walk_induction {es : List Expr} {lo hi : Nat} (hn : Expr.NumberedAll lo es hi)
    (hwf : Wf host b.tree) (hfunction : function < b.tree.functions.size)
    (hclean : (visitList scope function es b).problems = []) :
    motive scope function es b.tree (visitList scope function es b).tree :=
  visitList_induction nil cons hn hwf hfunction hclean fun _ _ _ _ _ hn hwf hfunction hclean =>
    visit_induction nil cons enter hn hwf hfunction hclean

end Induction

theorem walked_visitList {es : List Expr} {lo hi : Nat} (hn : Expr.NumberedAll lo es hi)
    (hwf : Wf host b.tree) (hfunction : function < b.tree.functions.size)
    (hclean : (visitList scope function es b).problems = [])
    (hscope : scope < b.tree.outline.regions.size) (hfamilies : b.tree.outline.Families) :
    Outline.Walked scope function es b.tree.outline
      (visitList scope function es b).tree.outline := by
  refine walk_induction (motive := fun scope function es t t' =>
    scope < t.outline.regions.size → t.outline.Families →
      Outline.Walked scope function es t.outline t'.outline) ?nil ?cons ?enter hn hwf hfunction
    hclean hscope hfamilies
  case nil => exact fun _ _ _ _ hfamilies => ⟨.refl hfamilies, nofun⟩
  case cons =>
    intro scope function x es t t₁ t₂ _ hfirst hrest hscope hfamilies
    have hwalked := hfirst hscope hfamilies
    refine hwalked.cons (hrest ?_ hwalked.gains.families)
    rw [hwalked.gains.scopes.1]
    omega
  case enter =>
    intro scope function inner id e rest t t₁ t₂ hentered _ hrest hscope hfamilies
    obtain ⟨front, hchildren, hfront⟩ := hentered.children
    have hgains := (Outline.gains_enter function e hscope hfamilies).1
    have hsize := hgains.scopes.1
    rw [hentered.outline, hentered.inner_eq, hentered.id_eq] at hrest
    refine .enter hscope hfamilies hchildren hfront (hrest ?_ hgains.families)
    rw [hsize]
    cases hopens : e.opens with
    | true => simp [hopens]
    | false => simpa [hopens] using hscope

/-- What the walk declares belongs to the nodes it enters. -/
theorem declaring_visitList {es : List Expr} {lo hi : Nat} (hn : Expr.NumberedAll lo es hi)
    (hwf : Wf host b.tree) (hfunction : function < b.tree.functions.size)
    (hclean : (visitList scope function es b).problems = []) :
    Declaring (· ∈ es.flatMap Expr.nodes) b.tree (visitList scope function es b).tree := by
  refine walk_induction (motive := fun _ _ es t t' => Declaring (· ∈ es.flatMap Expr.nodes) t t')
    ?nil ?cons ?enter hn hwf hfunction hclean
  case nil => exact fun _ _ t => .refl t
  case cons =>
    intro scope function x es t t₁ t₂ hgrows hfirst hrest
    have hx (e : Expr) (he : e ∈ [x].flatMap Expr.nodes) : e ∈ (x :: es).flatMap Expr.nodes :=
      List.mem_flatMap.mpr ⟨x, List.mem_cons_self, by simpa using he⟩
    have hes (e : Expr) (he : e ∈ es.flatMap Expr.nodes) : e ∈ (x :: es).flatMap Expr.nodes :=
      List.flatMap_cons ▸ List.mem_append_right _ he
    exact (hfirst.mono hx).trans hgrows (hrest.mono hes)
  case enter =>
    intro scope function inner id e rest t t₁ t₂ hentered hgrows hrest
    obtain ⟨front, hchildren, -⟩ := hentered.children
    rw [List.flatMap_singleton]
    have hself (y : Expr) (hy : y = e) : y ∈ e.nodes := hy ▸ Expr.mem_nodes_self e
    have hbelow (y : Expr) (hy : y ∈ rest.flatMap Expr.nodes) : y ∈ e.nodes := by
      obtain ⟨x, hx, hy⟩ := List.mem_flatMap.mp hy
      exact Expr.mem_nodes_child (hchildren ▸ List.mem_append_right front hx) hy
    exact (hentered.declares.mono hself).trans hgrows (hrest.mono hbelow)

/-- Every function has its parameters in its first slots. -/
theorem params_visitList {es : List Expr} {lo hi : Nat} (hn : Expr.NumberedAll lo es hi)
    (hwf : Wf host b.tree) (hfunction : function < b.tree.functions.size)
    (hclean : (visitList scope function es b).problems = []) :
    ∀ y ∈ es.flatMap Expr.nodes, ∀ l name params body, y = .function l name params body →
      ∃ id, (l.id, id) ∈ (visitList scope function es b).tree.nodeFunctions ∧
        (visitList scope function es b).tree.HasParams id params := by
  refine walk_induction (motive := fun _ _ es _ t' =>
    ∀ y ∈ es.flatMap Expr.nodes, ∀ l name params body, y = .function l name params body →
      ∃ id, (l.id, id) ∈ t'.nodeFunctions ∧ t'.HasParams id params) ?nil ?cons ?enter hn hwf
    hfunction hclean
  case nil => exact fun _ _ _ => nofun
  case cons =>
    intro scope function x es t t₁ t₂ hgrows hfirst hrest y hy l name params body he
    rcases List.mem_append.mp (List.flatMap_cons ▸ hy) with hy | hy
    · obtain ⟨id, hmem, hparams⟩ := hfirst y (by simpa using hy) l name params body he
      exact ⟨id, hgrows.nodeFunctions hmem, hparams.mono hgrows⟩
    · exact hrest y hy l name params body he
  case enter =>
    intro scope function inner id e rest t t₁ t₂ hentered hgrows hrest y hy l name params body he
    obtain ⟨front, hchildren, hfront⟩ := hentered.children
    rw [List.flatMap_singleton] at hy
    rcases Expr.mem_nodes.mp hy with rfl | ⟨x, hx, hy⟩
    · refine ⟨id, hgrows.nodeFunctions ?_, (hentered.params l name params body he).mono hgrows⟩
      have houtline := congrArg Outline.nodeFunctions hentered.outline
      subst he
      rw [hentered.id_eq]
      change t₁.nodeFunctions = _ at houtline
      rw [houtline]
      exact List.mem_cons_self
    · rcases List.mem_append.mp (hchildren ▸ hx) with hx | hx
      · have hshut := hfront x hx y hy
        subst he
        cases hshut
      · exact hrest y (List.mem_flatMap.mpr ⟨x, hx, hy⟩) l name params body he

end Building

end TurtleScript
