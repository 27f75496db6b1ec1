import TurtleScript.Proofs.Scope.Built

/-!
# The outline of a scope tree

A scope tree without its names is an outline: which scope lies in which, which function each
belongs to, and which nodes opened them. Declarations leave the outline alone. A node that
opens a scope adds one scope to it, a function also adds itself, and the walk meets these nodes
in the order of their numbers. So the outline of a program is known exactly.
-/
namespace TurtleScript

/-- The node has a scope of its own. -/
def Expr.opens (e : Expr) : Bool := e.opensScope || e.isFunction

/-- Nothing in the tree has a scope of its own. -/
def Expr.Shut (e : Expr) : Prop := ∀ y ∈ e.nodes, y.opens = false

/-- A scope without its names. -/
structure Region where
  parent : Option Nat
  children : List Nat
  function : Option Nat

def Scope.region (s : Scope) : Region := ⟨s.parent, s.children, s.function⟩

@[ext]
structure Outline where
  regions : Array Region
  /-- How many functions there are. -/
  functions : Nat
  nodeScopes : List (Nat × Nat)
  nodeFunctions : List (Nat × Nat)

def ScopeTree.outline (t : ScopeTree) : Outline where
  regions := t.scopes.map Scope.region
  functions := t.functions.size
  nodeScopes := t.nodeScopes
  nodeFunctions := t.nodeFunctions

namespace Outline

/-- The scope around a scope. -/
def parent? (o : Outline) (i : Nat) : Option Nat := (o.regions[i]?).bind (·.parent)

/-- One more scope, which a node opened. -/
def openScope (o : Outline) (parent function node : Nat) : Outline :=
  { o with
    regions := (o.regions.push ⟨some parent, [], some function⟩).modify parent fun r =>
      { r with children := r.children ++ [o.regions.size] }
    nodeScopes := (node, o.regions.size) :: o.nodeScopes }

/-- One more function. -/
def addFunction (o : Outline) (node : Nat) : Outline :=
  { o with
    functions := o.functions + 1
    nodeFunctions := (node, o.functions) :: o.nodeFunctions }

/-- What a node that stands in `scope` of `function` adds before its children are visited. -/
def enter (o : Outline) (scope function : Nat) (e : Expr) : Outline :=
  if e.isFunction then (o.addFunction e.id).openScope scope o.functions e.id
  else if e.opensScope then o.openScope scope function e.id
  else o

end Outline

namespace ScopeTree

variable {t t' : ScopeTree} {scope function id node : Nat}

theorem outline_declareLocal {name : String} {type : Option Ty} {span : Span}
    (h : t.declareLocal scope function name type span = .ok (id, t')) : t'.outline = t.outline := by
  rw [declareLocal, declareVariable] at h
  split at h
  · cases h
  · cases h
    have hscopes (entry : String × Nat) :
        (t.scopes.modify scope fun s => { s with vars := entry :: s.vars }).map Scope.region =
          t.scopes.map Scope.region := map_modify_of_same fun _ => rfl
    simp only [outline, hscopes, Array.size_modify]

theorem outline_addOverload {o : Overload} : (t.addOverload scope o).outline = t.outline := by
  have hscopes : (t.scopes.modify scope fun s => { s with overloads := s.overloads ++ [o] }).map
      Scope.region = t.scopes.map Scope.region := map_modify_of_same fun _ => rfl
  rw [outline, addOverload, hscopes, outline]

theorem outline_addGlobal {v : Variable} : (t.addGlobal scope v).outline = t.outline := by
  have hscopes (entry : String × Nat) :
      (t.scopes.modify scope fun s => { s with vars := entry :: s.vars }).map Scope.region =
        t.scopes.map Scope.region := map_modify_of_same fun _ => rfl
  simp only [outline, addGlobal, hscopes]

theorem regions_pushScope : (t.pushScope scope function).2.outline.regions =
    (t.outline.regions.push ⟨some scope, [], some function⟩).modify scope fun r =>
      { r with children := r.children ++ [t.scopes.size] } := by
  simp only [outline, pushScope]
  rw [map_modify (fun r : Region => { r with children := r.children ++ [t.scopes.size] })
    fun _ => rfl, Array.map_push]
  rfl

theorem outline_addScope : (t.addScope scope function node).outline =
    t.outline.openScope scope function node := by
  have hsize : t.outline.regions.size = t.scopes.size := Array.size_map ..
  rw [Outline.openScope, hsize, ← regions_pushScope]
  rfl

theorem outline_addFunction {name : String} {span : Span} {types : List Ty} :
    (t.addFunction scope node name span types).outline = t.outline.addFunction node := by
  rw [addFunction, outline_addOverload]
  simp [outline, Outline.addFunction, pushFunction_eq, addFunctionNode]

theorem outline_setParams {count : Nat} : (t.setParams id count).outline = t.outline := by
  simp [outline, setParams]

end ScopeTree

open ScopeTree

namespace Building

variable {b : Building} {scope function : Nat}

theorem outline_declareLocal {name : String} {type : Option Ty} {span : Span} :
    (b.declareLocal scope function name type span).tree.outline = b.tree.outline := by
  rw [declareLocal]
  cases h : b.tree.declareLocal scope function name type span with
  | error problem => rfl
  | ok result => exact ScopeTree.outline_declareLocal h

theorem outline_declare {name : String} {type : Expr} {span : Span} :
    (b.declare scope function name type span).tree.outline = b.tree.outline := by
  rw [declare]
  split
  · rfl
  · split
    · rfl
    · exact outline_declareLocal

theorem outline_declareLoopVariable (e : Expr) :
    (b.declareLoopVariable scope function e).tree.outline = b.tree.outline := by
  rw [declareLoopVariable.eq_def]
  split
  · exact outline_declare
  · split
    · rfl
    · split
      · rfl
      · exact outline_declareLocal
  · rfl

theorem outline_declareLoopSlots {l : Label}
    (h : (b.declareLoopSlots scope function l).problems = []) :
    (b.declareLoopSlots scope function l).tree.outline = b.tree.outline := by
  obtain ⟨-, array, t₁, index, t₂, harray, hindex, htree⟩ := declareLoopSlots_clean h
  rw [htree]
  exact (ScopeTree.outline_declareLocal hindex).trans (ScopeTree.outline_declareLocal harray)

theorem outline_declareParams {inner id : Nat} (params : List Parameter) :
    (b.declareParams inner id params).tree.outline = b.tree.outline := by
  induction params generalizing b with
  | nil => rfl
  | cons p params ih => exact ih.trans outline_declareLocal

end Building

namespace Outline

variable {o o' o'' : Outline} {scope function node : Nat}

/-- The scopes lie in one another as the numbers say, and the lists of children agree. -/
structure Families (o : Outline) : Prop where
  parent_lt : ∀ i p, o.parent? i = some p → p < i
  children : ∀ (i : Nat) (r : Region), o.regions[i]? = some r →
    r.children = (List.range o.regions.size).filter fun c => o.parent? c = some i

theorem regions_openScope (hscope : scope < o.regions.size) (i : Nat) :
    (o.openScope scope function node).regions[i]? =
      if i = o.regions.size then some ⟨some scope, [], some function⟩
      else (o.regions[i]?).map fun r =>
        { r with children := if scope = i then r.children ++ [o.regions.size] else r.children } := by
  rw [openScope, Array.getElem?_modify, Array.getElem?_push]
  by_cases hi : i = o.regions.size
  · rw [if_pos hi, if_pos hi, if_neg (by omega)]
  · rw [if_neg hi, if_neg hi]
    split
    · rfl
    · cases o.regions[i]? <;> rfl

theorem size_openScope : (o.openScope scope function node).regions.size = o.regions.size + 1 := by
  simp [openScope]

theorem parent?_openScope (hscope : scope < o.regions.size) (i : Nat) :
    (o.openScope scope function node).parent? i =
      if i = o.regions.size then some scope else o.parent? i := by
  rw [parent?, regions_openScope hscope]
  split
  · rfl
  · rw [parent?]
    cases o.regions[i]? <;> rfl

theorem Families.openScope (h : o.Families) (hscope : scope < o.regions.size) :
    (o.openScope scope function node).Families where
  parent_lt := by
    intro i p hp
    rw [parent?_openScope hscope] at hp
    split at hp
    · cases hp
      omega
    · exact h.parent_lt i p hp
  children := by
    intro i r hr
    have hrange : (List.range (o.regions.size + 1)).filter
          (fun c => (o.openScope scope function node).parent? c = some i) =
        ((List.range o.regions.size).filter fun c => o.parent? c = some i) ++
          if scope = i then [o.regions.size] else [] := by
      rw [List.range_succ, List.filter_append]
      congr 1
      · refine List.filter_congr fun c hc => ?_
        rw [parent?_openScope hscope, if_neg (Nat.ne_of_lt (List.mem_range.mp hc))]
      · simp [List.filter_cons, parent?_openScope hscope]
    rw [size_openScope, hrange]
    rw [regions_openScope hscope] at hr
    split at hr
    case isTrue hi =>
      -- the new scope has no children: every scope lies in an older one
      cases hr
      subst hi
      rw [if_neg (Nat.ne_of_lt hscope), List.append_nil]
      refine (List.filter_eq_nil_iff.mpr fun c hc hparent => ?_).symm
      have := h.parent_lt c _ (of_decide_eq_true hparent)
      have := List.mem_range.mp hc
      omega
    case isFalse hi =>
      obtain ⟨r₀, hr₀, rfl⟩ := Option.map_eq_some_iff.mp hr
      rw [← h.children i r₀ hr₀]
      split
      · rfl
      · exact (List.append_nil _).symm

/-- Scopes that were there lie where they lay and belong to the same functions. -/
def Kept (o o' : Outline) : Prop :=
  ∀ (i : Nat) (r : Region), o.regions[i]? = some r →
    ∃ r', o'.regions[i]? = some r' ∧ r'.parent = r.parent ∧ r'.function = r.function

theorem Kept.refl (o : Outline) : o.Kept o := fun _ r hr => ⟨r, hr, rfl, rfl⟩

theorem Kept.trans (h : o.Kept o') (h' : o'.Kept o'') : o.Kept o'' := by
  intro i r hr
  obtain ⟨r', hr', hparent, hfunction⟩ := h i r hr
  obtain ⟨r'', hr'', hparent', hfunction'⟩ := h' i r' hr'
  exact ⟨r'', hr'', hparent'.trans hparent, hfunction'.trans hfunction⟩

theorem Kept.openScope (hscope : scope < o.regions.size) :
    o.Kept (o.openScope scope function node) := by
  intro i r hr
  have hlt := (Array.getElem?_eq_some_iff.mp hr).1
  rw [regions_openScope hscope, if_neg (Nat.ne_of_lt hlt), hr]
  exact ⟨_, rfl, rfl, rfl⟩

/-- What the outline has for a node that stands in `scope` of `function`: `inner` and `id` are
the scope and the function in which its children stand. -/
structure Holds (o : Outline) (scope function inner id : Nat) (e : Expr) : Prop where
  opened : e.opens = true → (e.id, inner) ∈ o.nodeScopes ∧
    ∃ r, o.regions[inner]? = some r ∧ r.parent = some scope ∧ r.function = some id
  passed : e.opens = false → inner = scope
  declared : e.isFunction = true → (e.id, id) ∈ o.nodeFunctions
  within : e.isFunction = false → id = function

/-- The outline has what belongs to a node and all below. -/
inductive Nests (o : Outline) : (scope function : Nat) → Expr → Prop where
  | node {scope function inner id : Nat} {e : Expr} : o.Holds scope function inner id e →
      (∀ x ∈ e.children, Nests o inner id x) → Nests o scope function e

theorem Holds.mono {inner id : Nat} {e : Expr} (hkept : o.Kept o')
    (hscopes : o.nodeScopes ⊆ o'.nodeScopes) (hfunctions : o.nodeFunctions ⊆ o'.nodeFunctions)
    (h : o.Holds scope function inner id e) : o'.Holds scope function inner id e where
  opened := by
    intro hopens
    obtain ⟨hmem, r, hr, hparent, hfunction⟩ := h.opened hopens
    obtain ⟨r', hr', hparent', hfunction'⟩ := hkept _ r hr
    exact ⟨hscopes hmem, r', hr', hparent'.trans hparent, hfunction'.trans hfunction⟩
  passed := h.passed
  declared := fun hfun => hfunctions (h.declared hfun)
  within := h.within

theorem Nests.mono {e : Expr} (hkept : o.Kept o') (hscopes : o.nodeScopes ⊆ o'.nodeScopes)
    (hfunctions : o.nodeFunctions ⊆ o'.nodeFunctions) (h : o.Nests scope function e) :
    o'.Nests scope function e := by
  induction h with
  | node hholds _ ih => exact .node (hholds.mono hkept hscopes hfunctions) ih

/-- A tree without scopes needs nothing. -/
theorem Nests.of_shut {e : Expr} (h : e.Shut) : o.Nests scope function e := by
  induction e using Expr.children_induction with
  | step e ih =>
    have hopens := h e (Expr.mem_nodes_self e)
    have hfun : e.isFunction = false := (Bool.or_eq_false_iff.mp hopens).2
    refine .node ⟨fun ho => ?_, fun _ => rfl, fun hf => ?_, fun _ => rfl⟩ fun x hx =>
      ih x hx fun y hy => h y (Expr.mem_nodes_child hx hy)
    · rw [hopens] at ho
      cases ho
    · rw [hfun] at hf
      cases hf

/-- Consecutive numbers for nodes, the latest first. -/
def numberFrom (start : Nat) (es : List Expr) : List (Nat × Nat) :=
  ((es.zipIdx start).map fun p => (p.1.id, p.2)).reverse

/-- The nodes got the next numbers, in order, and were entered in a table under them. -/
def Issued (es : List Expr) (next : Nat) (table : List (Nat × Nat)) (next' : Nat)
    (table' : List (Nat × Nat)) : Prop :=
  next' = next + es.length ∧ table' = numberFrom next es ++ table

theorem Issued.trans {xs ys : List Expr} {n n' n'' : Nat} {a b c : List (Nat × Nat)}
    (h : Issued xs n a n' b) (h' : Issued ys n' b n'' c) : Issued (xs ++ ys) n a n'' c := by
  obtain ⟨rfl, rfl⟩ := h
  obtain ⟨rfl, rfl⟩ := h'
  refine ⟨by rw [List.length_append, Nat.add_assoc], ?_⟩
  simp [numberFrom, List.zipIdx_append]

/-- The nodes of a kind in some trees, in pre-order. -/
def nodesIn (kind : Expr → Bool) (es : List Expr) : List Expr := (es.flatMap Expr.nodes).filter kind

variable {kind : Expr → Bool}

theorem nodesIn_append (xs ys : List Expr) :
    nodesIn kind (xs ++ ys) = nodesIn kind xs ++ nodesIn kind ys := by
  simp [nodesIn]

theorem nodesIn_node (e : Expr) : nodesIn kind [e] = [e].filter kind ++ nodesIn kind e.children := by
  have hnodes : e.nodes = [e] ++ e.children.flatMap Expr.nodes := e.map_walk 0
  rw [nodesIn, List.flatMap_singleton, hnodes, List.filter_append, nodesIn]

theorem nodesIn_shut {es : List Expr} (hkind : ∀ e, kind e = true → e.opens = true)
    (h : ∀ e ∈ es, e.Shut) : nodesIn kind es = [] := by
  refine List.filter_eq_nil_iff.mpr fun y hy hy' => ?_
  obtain ⟨x, hx, hy⟩ := List.mem_flatMap.mp hy
  have := h x hx y hy
  rw [hkind y hy'] at this
  cases this

theorem opens_of_isFunction (e : Expr) (h : e.isFunction = true) : e.opens = true :=
  Bool.or_eq_true_iff.mpr (.inr h)

/-- The outline got these functions and these scopes. -/
structure Gains (functions scopes : List Expr) (o o' : Outline) : Prop where
  functions : Issued functions o.functions o.nodeFunctions o'.functions o'.nodeFunctions
  scopes : Issued scopes o.regions.size o.nodeScopes o'.regions.size o'.nodeScopes
  kept : o.Kept o'
  families : o'.Families

namespace Gains

variable {fs fs' ss ss' : List Expr}

theorem refl (h : o.Families) : Gains [] [] o o := ⟨⟨rfl, rfl⟩, ⟨rfl, rfl⟩, .refl o, h⟩

theorem trans (h : Gains fs ss o o') (h' : Gains fs' ss' o' o'') :
    Gains (fs ++ fs') (ss ++ ss') o o'' :=
  ⟨h.functions.trans h'.functions, h.scopes.trans h'.scopes, h.kept.trans h'.kept, h'.families⟩

theorem nodeScopes (h : Gains fs ss o o') : o.nodeScopes ⊆ o'.nodeScopes := by
  rw [h.scopes.2]
  exact List.subset_append_right ..

theorem nodeFunctions (h : Gains fs ss o o') : o.nodeFunctions ⊆ o'.nodeFunctions := by
  rw [h.functions.2]
  exact List.subset_append_right ..

theorem openScope (e : Expr) (hscope : scope < o.regions.size) (h : o.Families) :
    Gains [] [e] o (o.openScope scope function e.id) :=
  ⟨⟨rfl, rfl⟩, ⟨size_openScope, rfl⟩, .openScope hscope, h.openScope hscope⟩

theorem addFunction (e : Expr) (h : o.Families) : Gains [e] [] o (o.addFunction e.id) :=
  ⟨⟨rfl, rfl⟩, ⟨rfl, rfl⟩, fun _ r hr => ⟨r, hr, rfl, rfl⟩, ⟨h.parent_lt, h.children⟩⟩

end Gains

/-- Entering a node: a function with its scope, a scope, or nothing. -/
theorem gains_enter (function : Nat) (e : Expr) (hscope : scope < o.regions.size) (h : o.Families) :
    Gains ([e].filter Expr.isFunction) ([e].filter Expr.opens) o (o.enter scope function e) ∧
      (o.enter scope function e).Holds scope function (if e.opens then o.regions.size else scope)
        (if e.isFunction then o.functions else function) e := by
  have hnew {o : Outline} {id : Nat} (hscope : scope < o.regions.size) :
      (e.id, o.regions.size) ∈ (o.openScope scope id e.id).nodeScopes ∧
        ∃ r, (o.openScope scope id e.id).regions[o.regions.size]? = some r ∧
          r.parent = some scope ∧ r.function = some id := by
    refine ⟨List.mem_cons_self, ⟨some scope, [], some id⟩, ?_, rfl, rfl⟩
    rw [regions_openScope hscope, if_pos rfl]
  cases hfun : e.isFunction with
  | true =>
    have hopens := opens_of_isFunction e hfun
    have hadd := Gains.addFunction e h
    have hsize : scope < (o.addFunction e.id).regions.size := hscope
    simp only [enter, hfun, hopens, List.filter_cons, List.filter_nil, if_true]
    refine ⟨hadd.trans (.openScope e hsize hadd.families), fun _ => hnew hsize, ?_,
      fun _ => List.mem_cons_self, ?_⟩
    · rw [hopens]
      exact nofun
    · rw [hfun]
      exact nofun
  | false =>
    cases hopens : e.opensScope with
    | true =>
      have hopens' : e.opens = true := Bool.or_eq_true_iff.mpr (.inl hopens)
      simp only [enter, hfun, hopens, hopens', List.filter_cons, List.filter_nil, if_true]
      refine ⟨.openScope e hscope h, fun _ => hnew hscope, ?_, ?_, fun _ => rfl⟩
      · rw [hopens']
        exact nofun
      · rw [hfun]
        exact nofun
    | false =>
      have hopens' : e.opens = false := Bool.or_eq_false_iff.mpr ⟨hopens, hfun⟩
      simp only [enter, hfun, hopens, hopens', List.filter_cons, List.filter_nil]
      refine ⟨.refl h, ?_, fun _ => rfl, ?_, fun _ => rfl⟩
      · rw [hopens']
        exact nofun
      · rw [hfun]
        exact nofun

/-- What the walk over some trees that stand in `scope` of `function` makes of an outline. -/
structure Walked (scope function : Nat) (es : List Expr) (o o' : Outline) : Prop where
  gains : Gains (nodesIn Expr.isFunction es) (nodesIn Expr.opens es) o o'
  nests : ∀ x ∈ es, o'.Nests scope function x

theorem Walked.cons {x : Expr} {es : List Expr} (h : Walked scope function [x] o o')
    (h' : Walked scope function es o' o'') : Walked scope function (x :: es) o o'' where
  gains := by
    rw [← List.singleton_append, nodesIn_append, nodesIn_append]
    exact h.gains.trans h'.gains
  nests := List.forall_mem_cons.mpr ⟨(h.nests x List.mem_cons_self).mono h'.gains.kept
    h'.gains.nodeScopes h'.gains.nodeFunctions, h'.nests⟩

/-- The step of the walk: a node is entered, then those of its children that may have scopes. -/
theorem Walked.enter {e : Expr} {front rest : List Expr} (hscope : scope < o.regions.size)
    (h : o.Families) (hchildren : e.children = front ++ rest) (hfront : ∀ x ∈ front, x.Shut)
    (hrest : Walked (if e.opens then o.regions.size else scope)
      (if e.isFunction then o.functions else function) rest (o.enter scope function e) o') :
    Walked scope function [e] o o' := by
  obtain ⟨hgains, hholds⟩ := gains_enter function e hscope h
  have hnodes {kind : Expr → Bool} (hkind : ∀ e, kind e = true → e.opens = true) :
      nodesIn kind [e] = [e].filter kind ++ nodesIn kind rest := by
    rw [nodesIn_node, hchildren, nodesIn_append, nodesIn_shut hkind hfront, List.nil_append]
  have hholds' := hholds.mono hrest.gains.kept hrest.gains.nodeScopes hrest.gains.nodeFunctions
  refine ⟨?_, List.forall_mem_singleton.mpr (.node hholds' fun x hx => ?_)⟩
  · rw [hnodes opens_of_isFunction, hnodes fun _ h => h]
    exact hgains.trans hrest.gains
  · rw [hchildren] at hx
    rcases List.mem_append.mp hx with hx | hx
    · exact .of_shut (hfront x hx)
    · exact hrest.nests x hx

end Outline

end TurtleScript
