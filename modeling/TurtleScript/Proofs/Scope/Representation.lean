import TurtleScript.Proofs.Scope.Visiting
import TurtleScript.Tree.Construct

/-!
# What a scope tree stands for

The tree of a program without problems, read against the program: its functions are the
declared ones in the order of their nodes, its slots and its locals stand one for one, and its
scopes lie in one another as the nodes that open them do. The main result says so for every
program and every host.
-/
namespace TurtleScript

namespace Expr

/-- A node of a tree, with the nearest nodes around it that have a scope and that declare a
function. -/
inductive Within (tree : Expr) : (scope function : Option Expr) → Expr → Prop where
  | top : Within tree none none tree
  | child {scope function : Option Expr} {e x : Expr} : Within tree scope function e →
      x ∈ e.children →
      Within tree (if e.opens then some e else scope) (if e.isFunction then some e else function) x

theorem Within.descend {tree e y : Expr} {scope function : Option Expr}
    (h : Within tree scope function e) (hy : y ∈ e.nodes) :
    ∃ scope function, Within tree scope function y := by
  induction e using children_induction generalizing scope function with
  | step e ih =>
    rcases mem_nodes.mp hy with rfl | ⟨x, hx, hy⟩
    · exact ⟨scope, function, h⟩
    · exact ih x hx (.child h hx) hy

/-- Every node has its place. -/
theorem exists_within {tree e : Expr} (h : e ∈ tree.nodes) :
    ∃ scope function, Within tree scope function e := Within.top.descend h

/-- Only the root of a tree that has a scope has none around it. -/
theorem Within.eq_top {tree e : Expr} {scope function : Option Expr} (hopens : tree.opens = true)
    (h : Within tree scope function e) (hscope : scope = none) : e = tree := by
  induction h with
  | top => rfl
  | child _ _ ih =>
    split at hscope
    · cases hscope
    · rename_i hclosed
      rw [ih hscope] at hclosed
      exact absurd hopens hclosed

def isBlock : Expr → Bool
  | block .. => true
  | _ => false

end Expr

namespace Outline

variable {o : Outline} {scope function : Nat} {tree e : Expr} {outer declarer : Option Expr}

/-- Where a node stands, from where the whole tree stands. -/
theorem Nests.within (h : o.Nests scope function tree) (hwithin : tree.Within outer declarer e) :
    ∃ s f, o.Nests s f e ∧ (outer = none → s = scope) ∧ (declarer = none → f = function) ∧
      (∀ y, outer = some y → (y.id, s) ∈ o.nodeScopes) ∧
      ∀ y, declarer = some y → (y.id, f) ∈ o.nodeFunctions := by
  induction hwithin with
  | top => exact ⟨scope, function, h, fun _ => rfl, fun _ => rfl, nofun, nofun⟩
  | @child outer declarer e x _ hx ih =>
    obtain ⟨s, f, hnests, hscope, hfunction, houter, hdeclarer⟩ := ih
    cases hnests with
    | @node _ _ inner id _ hholds hchildren =>
      refine ⟨inner, id, hchildren x hx, fun hnone => ?_, fun hnone => ?_, fun y hy => ?_,
        fun y hy => ?_⟩
      · split at hnone
        · cases hnone
        · rename_i hopens
          rw [hholds.passed (Bool.not_eq_true _ ▸ hopens), hscope hnone]
      · split at hnone
        · cases hnone
        · rename_i hfun
          rw [hholds.within (Bool.not_eq_true _ ▸ hfun), hfunction hnone]
      · split at hy
        · rename_i hopens
          cases hy
          exact (hholds.opened hopens).1
        · rename_i hopens
          rw [hholds.passed (Bool.not_eq_true _ ▸ hopens)]
          exact houter y hy
      · split at hy
        · rename_i hfun
          cases hy
          exact hholds.declared hfun
        · rename_i hfun
          rw [hholds.within (Bool.not_eq_true _ ▸ hfun)]
          exact hdeclarer y hy

/-- A scope that lies in another is listed there once. -/
theorem Families.count_eq_one {i p : Nat} {r : Region} (h : o.Families)
    (hparent : o.parent? i = some p) (hr : o.regions[p]? = some r) : r.children.count i = 1 := by
  have hlt : i < o.regions.size := by
    rw [parent?] at hparent
    obtain ⟨s, hs, -⟩ := Option.bind_eq_some_iff.mp hparent
    exact (Array.getElem?_eq_some_iff.mp hs).1
  have hmem : i ∈ r.children := by
    rw [h.children p r hr]
    exact List.mem_filter.mpr ⟨List.mem_range.mpr hlt, decide_eq_true hparent⟩
  have hnodup : r.children.Nodup := by
    rw [h.children p r hr]
    exact List.nodup_range.filter _
  rw [hnodup.count, if_pos hmem]

theorem nodesIn_singleton {kind : Expr → Bool} (e : Expr) : nodesIn kind [e] = e.nodes.filter kind := by
  rw [nodesIn, List.flatMap_singleton]

theorem mem_numberFrom {start node i : Nat} {es : List Expr} :
    (node, i) ∈ numberFrom start es ↔ ∃ k e, es[k]? = some e ∧ node = e.id ∧ i = start + k := by
  simp only [numberFrom, List.mem_reverse, List.mem_map, Prod.exists, Prod.mk.injEq,
    List.mem_zipIdx_iff_le_and_getElem?_sub]
  constructor
  · rintro ⟨e, j, ⟨hle, hj⟩, rfl, rfl⟩
    exact ⟨j - start, e, hj, rfl, by omega⟩
  · rintro ⟨k, e, hk, rfl, rfl⟩
    exact ⟨e, start + k, ⟨by omega, by simpa using hk⟩, rfl, rfl⟩

end Outline

open ScopeTree

namespace Building

variable {b : Building} {host : Host}

theorem outline_declareHost : (b.declareHost host).tree.outline = b.tree.outline := by
  have hfold {α : Type} (step : Building → α → Building) (xs : List α) (b : Building)
      (h : ∀ b x, (step b x).tree.outline = b.tree.outline) :
      (xs.foldl step b).tree.outline = b.tree.outline := by
    induction xs generalizing b with
    | nil => rfl
    | cons x xs ih => exact (ih _).trans (h b x)
  rw [declareHost]
  refine (hfold _ _ _ fun b p => ?_).trans (hfold _ _ _ fun b p => ?_)
  · cases h : b.tree.declareOverload root
        { name := p.1.name, params := p.1.params, callee := .native p.2 } with
    | error problem => simp only [h]; rfl
    | ok tree =>
      simp only [h, accept]
      rw [declareOverload_eq_ok h, outline_addOverload]
  · cases h : b.tree.declareVariable root { name := p.1.name, type := some p.1.type
                                            storage := .global p.2, span := {} } with
    | error problem => simp only [h]; rfl
    | ok result =>
      simp only [h]
      change result.2.outline = _
      rw [declareVariable_eq_ok h, outline_addGlobal]

end Building

/-- The outline in which the walk starts: the host's scope and the program's. -/
def Outline.start : Outline where
  regions := #[⟨none, [1], none⟩, ⟨some 0, [], some 0⟩]
  functions := 1
  nodeScopes := []
  nodeFunctions := []

theorem Outline.start_families : Outline.start.Families where
  parent_lt := by
    intro i p hp
    match i with
    | 0 => cases hp
    | 1 => cases hp; decide
    | i + 2 => cases hp
  children := by
    intro i r hr
    match i with
    | 0 => cases hr; decide
    | 1 => cases hr; decide
    | i + 2 => cases hr

/-- The members of a block, any other tree as a whole. -/
def Expr.statements : Expr → List Expr
  | block _ body => body
  | e => [e]

/-- A block at the top has the second scope. -/
def Outline.startFor (body : Expr) : Outline :=
  { Outline.start with nodeScopes := if body.isBlock then [(body.id, 1)] else [] }

/-- The state in which the walk starts, for a host whose names are declared. -/
def Building.begin (b : Building) (body : Expr) : Building where
  tree := if body.isBlock then (b.tree.entered body.span).bindNode body.id
      (b.tree.entered body.span).program else b.tree.entered body.span
  problems := b.problems

/-- The state in which the walk over a program starts. -/
def Building.start (host : Host) (body : Expr) : Building :=
  (({} : Building).declareHost host).begin body

namespace ScopeTree

variable {host : Host} {t : ScopeTree}

theorem outline_entered (span : Span) (h : t.outline = ({} : ScopeTree).outline) :
    (t.entered span).outline = Outline.start ∧ (t.entered span).program = 1 := by
  have hfunctions : t.functions.size = 0 := congrArg Outline.functions h
  have hscopes : t.nodeScopes = [] := congrArg Outline.nodeScopes h
  have hnodes : t.nodeFunctions = [] := congrArg Outline.nodeFunctions h
  have hregions : t.outline.regions = #[⟨none, [], none⟩] := by
    rw [h]
    simp [outline, Scope.region]
  have hsize : t.scopes.size = 1 := by simpa [outline] using congrArg Array.size hregions
  have hpush : (t.entered span).outline.regions = Outline.start.regions := by
    change (((t.pushFunction "main" span).2.setReturnType t.issued .empty).pushScope root
      t.issued).2.outline.regions = _
    rw [regions_pushScope]
    change (t.outline.regions.push _).modify root (fun r =>
      { r with children := r.children ++ [t.scopes.size] }) = _
    rw [hregions, hsize, t.issued_eq, hfunctions]
    rfl
  refine ⟨Outline.ext hpush ?_ hscopes hnodes, hsize⟩
  simp [entered, outline, pushScope, setReturnType, pushFunction_eq, hfunctions, Outline.start]

theorem build_eq_visitList (p : Program) (host : Host) : build p host =
    let b := ({} : Building).declareHost host
    Building.visitList (b.tree.entered p.body.span).program b.tree.issued
      p.body.statements (b.begin p.body) := by
  obtain ⟨body, count⟩ := p
  cases body <;> rfl

/-- The walk starts with the names of the host, which all have types. -/
theorem declaring_begin {b : Building} {nodes : Expr → Prop} (body : Expr)
    (hbare : Building.Bare host b.tree) (hsize : b.tree.scopes.size = 1) :
    Declaring nodes {} (b.begin body).tree := by
  have hnames (name : String) (i : Nat) :
      (b.begin body).tree.variableIn? name i = b.tree.variableIn? name i := by
    rw [Building.begin]
    split <;> exact variableIn?_pushScope
  have hroot {name : String} {i id : Nat} (h : (b.begin body).tree.variableIn? name i = some id) :
      i = 0 := by
    rw [hnames] at h
    obtain ⟨s, hs, -⟩ := Option.bind_eq_some_iff.mp h
    have := (Array.getElem?_eq_some_iff.mp hs).1
    omega
  have hloops : (b.begin body).tree.loopSlots = [] := by
    rw [Building.begin]
    split <;> exact hbare.loopSlots
  have hvars : (b.begin body).tree.vars = b.tree.vars := by
    rw [Building.begin]
    split <;> rfl
  exact {
    single := fun _ i j _ _ _ hi hj => (hroot hi).trans (hroot hj).symm
    kept := by
      intro name i id h
      rw [variableIn?_start] at h
      cases h
    loops := by
      rw [hloops]
      exact nofun
    untyped := by
      intro id v hv htype
      rw [hvars] at hv
      cases hstorage : v.storage with
      | slot function n =>
        obtain ⟨f, -, hf, -⟩ := hbare.slot_of hv hstorage
        rw [hbare.functions] at hf
        cases hf
      | global n =>
        obtain ⟨g, -, hg⟩ := hbare.global_of hv hstorage
        cases htype.symm.trans hg }

theorem outline_start (host : Host) (body : Expr) :
    (Building.start host body).tree.outline = Outline.startFor body ∧
      (Building.start host body).tree.program = 1 := by
  have hhost : (({} : Building).declareHost host).tree.outline = ({} : ScopeTree).outline :=
    Building.outline_declareHost
  obtain ⟨hstart, hprogram⟩ := outline_entered body.span hhost
  constructor
  · rw [Building.start, Building.begin, Outline.startFor]
    cases body.isBlock with
    | true =>
      have hregions := congrArg Outline.regions hstart
      have hfunctions := congrArg Outline.functions hstart
      have hscopes := congrArg Outline.nodeScopes hstart
      have hnodes := congrArg Outline.nodeFunctions hstart
      rw [if_pos rfl, if_pos rfl, hprogram]
      exact Outline.ext hregions hfunctions (congrArg ((body.id, 1) :: ·) hscopes) hnodes
    | false => exact hstart
  · rw [Building.start, Building.begin]
    split <;> exact hprogram

theorem wf_start {body : Expr} (h : (Building.start host body).problems = []) :
    Wf host (Building.start host body).tree ∧
      main < (Building.start host body).tree.functions.size ∧
      Declaring (· ∈ body.nodes) {} (Building.start host body).tree ∧
      (Building.start host body).tree.loopSlots = [] := by
  have hbare := (Building.declareHost_clean h).2 .start
  have hwf : Wf host ((({} : Building).declareHost host).tree.entered body.span) := .entered hbare
  have hsize : (({} : Building).declareHost host).tree.scopes.size = 1 := by
    simpa [outline] using congrArg (·.regions.size) (Building.outline_declareHost (b := {}))
  refine and_assoc.mp ⟨?_, declaring_begin body hbare hsize, ?_⟩
  · rw [Building.start, Building.begin]
    split
    · exact ⟨(After.bindNode body hwf).wf, size_entered hbare⟩
    · exact ⟨hwf, size_entered hbare⟩
  · rw [Building.start, Building.begin]
    split <;> exact hbare.loopSlots

/-- A build is a walk from the start. -/
theorem build_eq_start (p : Program) (host : Host) :
    build p host = Building.visitList 1 main p.body.statements (.start host p.body) := by
  have hhost : (({} : Building).declareHost host).tree.outline = ({} : ScopeTree).outline :=
    Building.outline_declareHost
  have hmain : (({} : Building).declareHost host).tree.issued = main :=
    (ScopeTree.issued_eq _).trans (congrArg Outline.functions hhost)
  have hbuild := build_eq_visitList p host
  dsimp only at hbuild
  rwa [(outline_entered p.body.span hhost).2, hmain] at hbuild

theorem build_eq (p : Program) (host : Host) : ∃ b₀ : Building,
    build p host = Building.visitList 1 main p.body.statements b₀ ∧
      b₀.tree.outline = Outline.startFor p.body ∧ b₀.tree.program = 1 ∧
      (b₀.problems = [] → Wf host b₀.tree ∧ main < b₀.tree.functions.size ∧
        Declaring (· ∈ p.body.nodes) {} b₀.tree) := by
  obtain ⟨hstart, hprogram⟩ := outline_start host p.body
  refine ⟨_, build_eq_start p host, hstart, hprogram, fun hclean => ?_⟩
  obtain ⟨hwf, hmain, hdeclaring, -⟩ := wf_start hclean
  exact ⟨hwf, hmain, hdeclaring⟩

/-- The scope of the nearest node around, the program's if there is none. -/
def scopeAround? (t : ScopeTree) : Option Expr → Option Nat
  | none => some t.program
  | some e => t.scopeOf? e.id

/-- The function that the nearest declaration around declares, the main one if there is none. -/
def functionAround? (t : ScopeTree) : Option Expr → Option Nat
  | none => some main
  | some e => t.functionOf? e.id

theorem scopeAround?_eq {outer : Option Expr} {s : Nat} (hkeys : (t.nodeScopes.map Prod.fst).Nodup)
    (htop : outer = none → s = t.program)
    (houter : ∀ y, outer = some y → (y.id, s) ∈ t.nodeScopes) :
    t.scopeAround? outer = some s := by
  cases outer with
  | none => rw [htop rfl, scopeAround?]
  | some y => exact lookup_of_mem hkeys (houter y rfl)

theorem functionAround?_eq {declarer : Option Expr} {f : Nat}
    (hkeys : (t.nodeFunctions.map Prod.fst).Nodup) (hmain : declarer = none → f = main)
    (hdeclarer : ∀ y, declarer = some y → (y.id, f) ∈ t.nodeFunctions) :
    t.functionAround? declarer = some f := by
  cases declarer with
  | none => rw [hmain rfl, functionAround?]
  | some y => exact lookup_of_mem hkeys (hdeclarer y rfl)

/-- The tree stands for the program. -/
structure Represents (p : Program) (t : ScopeTree) : Prop where
  /-- The nodes are numbered in pre-order. -/
  ordered : p.body.nodes.map Expr.id = List.range p.nodeCount
  functionId : ∀ (i : Nat) (f : FunctionRecord), t.functions[i]? = some f → f.id = i
  /-- There are the main function and the declared ones. -/
  functionCount : t.functions.size = (p.body.nodes.filter Expr.isFunction).length + 1
  /-- The declarations have the numbers from 1 on, in the order of their nodes. -/
  functionOf : ∀ (k : Nat) (e : Expr), (p.body.nodes.filter Expr.isFunction)[k]? = some e →
    t.functionOf? e.id = some (k + 1)
  functionOnly : ∀ (node i : Nat), t.functionOf? node = some i →
    ∃ e ∈ p.body.nodes, e.isFunction = true ∧ e.id = node
  /-- The variable in a slot knows its slot. -/
  slotted : ∀ (function n : Nat) (f : FunctionRecord) (slot : Slot),
    t.functions[function]? = some f → f.slots[n]? = some slot →
      ∃ v, t.vars[slot.var]? = some v ∧ v.storage = .slot function n
  /-- A local is in the slot that it knows and in no other. -/
  stored : ∀ (id function n : Nat) (v : Variable), t.vars[id]? = some v →
    v.storage = .slot function n → ∀ function' n',
      (∃ f slot, t.functions[function']? = some f ∧ f.slots[n']? = some slot ∧ slot.var = id) ↔
        function' = function ∧ n' = n
  params : ∀ l name params body, .function l name params body ∈ p.body.nodes →
    ∃ id, t.functionOf? l.id = some id ∧ t.HasParams id params
  mainParams : ∃ f, t.functions[main]? = some f ∧ f.paramCount = 0
  hostScope : ∃ s, t.scopes[root]? = some s ∧ s.parent = none ∧ s.children = [t.program] ∧
    s.function = none
  programScope : ∃ s, t.scopes[t.program]? = some s ∧ s.parent = some root ∧ root < t.program ∧
    s.function = some main
  bodyScope : p.body.isBlock = true → t.scopeOf? p.body.id = some t.program
  placed : ∀ e ∈ p.body.nodes, ∃ outer declarer, p.body.Within outer declarer e
  /-- The scope of any other node lies in that of the nearest node around, and belongs to the
  function of the nearest declaration, the node itself included. -/
  nested : ∀ outer declarer e, p.body.Within outer declarer e → e.opens = true →
    (e = p.body → e.isBlock = false) →
    ∃ i s parent around, t.scopeOf? e.id = some i ∧ t.scopes[i]? = some s ∧
      t.scopeAround? outer = some parent ∧ t.scopes[parent]? = some around ∧
      s.parent = some parent ∧ parent < i ∧ around.children.count i = 1 ∧
      s.function = t.functionAround? (if e.isFunction then some e else declarer)
  /-- Different nodes have different scopes. -/
  apart : ∀ e ∈ p.body.nodes, ∀ e' ∈ p.body.nodes, e.opens = true → e'.opens = true →
    t.scopeOf? e.id = t.scopeOf? e'.id → e = e'
  /-- Only a block at the top has the program's scope. -/
  programOnly : ∀ e ∈ p.body.nodes, t.scopeOf? e.id = some t.program →
    e = p.body ∧ e.isBlock = true
  /-- There is no further scope. -/
  covered : ∀ i < t.scopes.size, i = root ∨ i = t.program ∨
    ∃ e ∈ p.body.nodes, e.opens = true ∧ t.scopeOf? e.id = some i

theorem exists_numbered_statements {body : Expr} {count : Nat} (hn : Expr.Numbered 0 body count) :
    ∃ lo, Expr.NumberedAll lo body.statements count := by
  cases body with
  | block => exact ⟨_, hn.children_numbered⟩
  | _ => exact ⟨_, .cons hn .nil⟩

theorem mem_nodes_of_statement {e x body : Expr} (hx : x ∈ body.statements) (he : e ∈ x.nodes) :
    e ∈ body.nodes := by
  cases body with
  | block => exact Expr.mem_nodes_child hx he
  | _ => exact List.mem_singleton.mp hx ▸ he

theorem filter_nodes {kind : Expr → Bool} (body : Expr) :
    body.nodes.filter kind = (if body.isBlock then [body].filter kind else []) ++
      Outline.nodesIn kind body.statements := by
  rw [← Outline.nodesIn_singleton]
  cases body with
  | block => exact Outline.nodesIn_node _
  | _ => rfl

theorem mem_nodes_of_opens {e body : Expr} (h : e ∈ Outline.nodesIn Expr.opens body.statements) :
    e ∈ body.nodes ∧ e.opens = true := by
  have hmem : e ∈ body.nodes.filter Expr.opens := by
    rw [filter_nodes]
    exact List.mem_append_right _ h
  exact List.mem_filter.mp hmem

theorem filter_functions (body : Expr) :
    body.nodes.filter Expr.isFunction = Outline.nodesIn Expr.isFunction body.statements := by
  rw [filter_nodes]
  cases body <;> rfl

theorem exists_scope {i : Nat} {r : Region} (h : t.outline.regions[i]? = some r) :
    ∃ s, t.scopes[i]? = some s ∧ s.region = r := by
  rw [outline, Array.getElem?_map] at h
  exact Option.map_eq_some_iff.mp h

section Walk

variable {p : Program}
  (hwalked : Outline.Walked 1 main p.body.statements (Outline.startFor p.body) t.outline)

include hwalked

theorem nodeFunctions_eq :
    t.nodeFunctions = Outline.numberFrom 1 (p.body.nodes.filter Expr.isFunction) := by
  rw [filter_functions]
  exact hwalked.gains.functions.2.trans (List.append_nil _)

theorem nodeScopes_eq : t.nodeScopes =
    Outline.numberFrom 2 (Outline.nodesIn Expr.opens p.body.statements) ++
      if p.body.isBlock then [(p.body.id, 1)] else [] := hwalked.gains.scopes.2

theorem size_scopes_eq :
    t.scopes.size = 2 + (Outline.nodesIn Expr.opens p.body.statements).length := by
  have hsize : t.outline.regions.size = t.scopes.size := Array.size_map ..
  rw [← hsize]
  exact hwalked.gains.scopes.1

/-- Seen from the host, a block at the top is a scope inside the host's. -/
theorem nests_body : t.outline.Nests (if p.body.isBlock then root else 1) main p.body := by
  cases hbody : p.body with
  | block l body =>
    rw [hbody] at hwalked
    obtain ⟨r, hr, hparent, hfunction⟩ := hwalked.gains.kept 1 ⟨some 0, [], some 0⟩ rfl
    have hholds : t.outline.Holds root main 1 main (.block l body) :=
      ⟨fun _ => ⟨hwalked.gains.nodeScopes List.mem_cons_self, r, hr, hparent, hfunction⟩, nofun,
        nofun, fun _ => rfl⟩
    exact .node hholds hwalked.nests
  | _ =>
    rw [hbody] at hwalked
    exact hwalked.nests _ List.mem_cons_self

/-- A scope that a node opened has a number after the first two, but for that of the program. -/
theorem scope_number {node i : Nat} (h : (node, i) ∈ t.nodeScopes) :
    (∃ k e, (Outline.nodesIn Expr.opens p.body.statements)[k]? = some e ∧ node = e.id ∧ i = 2 + k) ∨
      p.body.isBlock = true ∧ node = p.body.id ∧ i = 1 := by
  rw [nodeScopes_eq hwalked] at h
  rcases List.mem_append.mp h with h | h
  · exact .inl (Outline.mem_numberFrom.mp h)
  · split at h
    · rename_i hblock
      cases List.mem_singleton.mp h
      exact .inr ⟨hblock, rfl, rfl⟩
    · cases h

theorem node_eq_of_scope {node node' i : Nat} (h : (node, i) ∈ t.nodeScopes)
    (h' : (node', i) ∈ t.nodeScopes) : node = node' := by
  rcases scope_number hwalked h with ⟨k, e, he, rfl, rfl⟩ | ⟨-, rfl, rfl⟩ <;>
    rcases scope_number hwalked h' with ⟨k', e', he', rfl, hk⟩ | ⟨-, rfl, hk⟩
  · obtain rfl : k = k' := by omega
    cases he.symm.trans he'
    rfl
  · omega
  · omega
  · rfl

/-- The scope of a node other than a block at the top. -/
theorem scope_within {e : Expr} {outer declarer : Option Expr}
    (hwithin : p.body.Within outer declarer e) (hopens : e.opens = true)
    (hinner : e = p.body → e.isBlock = false) :
    ∃ i r s f, (e.id, i) ∈ t.nodeScopes ∧ t.outline.regions[i]? = some r ∧ r.parent = some s ∧
      r.function = some f ∧ (outer = none → s = 1) ∧
      (∀ y, outer = some y → (y.id, s) ∈ t.nodeScopes) ∧
      (e.isFunction = true → (e.id, f) ∈ t.nodeFunctions) ∧
      (e.isFunction = false → (declarer = none → f = main) ∧
        ∀ y, declarer = some y → (y.id, f) ∈ t.nodeFunctions) := by
  obtain ⟨s, f, hnests, htop, hmain, houter, hdeclarer⟩ := (nests_body hwalked).within hwithin
  cases hnests with
  | @node _ _ i id _ hholds hchildren =>
    obtain ⟨hmem, r, hr, hparent, hfunction⟩ := hholds.opened hopens
    refine ⟨i, r, s, id, hmem, hr, hparent, hfunction, fun hnone => ?_, houter, hholds.declared,
      fun hfun => ?_⟩
    · rw [htop hnone]
      split
      · rename_i hblock
        have hbody : p.body.opens = true := by
          cases hb : p.body with
          | block => rfl
          | _ => rw [hb] at hblock; cases hblock
        have heq := hwithin.eq_top hbody hnone
        have hother := hinner heq
        rw [heq, hblock] at hother
        cases hother
      · rfl
    · rw [hholds.within hfun]
      exact ⟨hmain, hdeclarer⟩

/-- A scope comes after the one around it, and is one of its children once. -/
theorem exists_around {i s : Nat} {r : Region} (hr : t.outline.regions[i]? = some r)
    (hparent : r.parent = some s) :
    ∃ around, t.scopes[s]? = some around ∧ s < i ∧ around.children.count i = 1 := by
  have hparent? : t.outline.parent? i = some s := by rw [Outline.parent?, hr]; exact hparent
  have hlt := hwalked.gains.families.parent_lt i s hparent?
  have hsize : s < t.outline.regions.size := Nat.lt_trans hlt (Array.getElem?_eq_some_iff.mp hr).1
  have haround := Array.getElem?_eq_getElem hsize
  have hcount := hwalked.gains.families.count_eq_one hparent? haround
  obtain ⟨around, hscope, hregion⟩ := exists_scope haround
  rw [← hregion] at hcount
  exact ⟨around, hscope, hlt, hcount⟩

/-- The scope of a node lies in that of the nearest node around. -/
theorem scope_nested {e : Expr} {outer declarer : Option Expr} (hbuilt : Built host p t)
    (hprogram : t.program = 1) (hwithin : p.body.Within outer declarer e) (hopens : e.opens = true)
    (hinner : e = p.body → e.isBlock = false) :
    ∃ i s parent around, t.scopeOf? e.id = some i ∧ t.scopes[i]? = some s ∧
      t.scopeAround? outer = some parent ∧ t.scopes[parent]? = some around ∧
      s.parent = some parent ∧ parent < i ∧ around.children.count i = 1 ∧
      s.function = t.functionAround? (if e.isFunction then some e else declarer) := by
  obtain ⟨i, r, parent, f, hmem, hr, hparent, hfunction, htop, houter, hown, hother⟩ :=
    scope_within hwalked hwithin hopens hinner
  obtain ⟨around, haround, hlt, hcount⟩ := exists_around hwalked hr hparent
  obtain ⟨s, hs, rfl⟩ := exists_scope hr
  refine ⟨i, s, parent, around, lookup_of_mem hbuilt.scopeKeys hmem, hs,
    scopeAround?_eq hbuilt.scopeKeys (hprogram ▸ htop) houter, haround, hparent, hlt, hcount,
    hfunction.trans (Eq.symm ?_)⟩
  split
  case isTrue hfun => exact lookup_of_mem hbuilt.functionKeys (hown hfun)
  case isFalse hfun =>
    obtain ⟨hmain, hdeclarer⟩ := hother (Bool.not_eq_true _ ▸ hfun)
    exact functionAround?_eq hbuilt.functionKeys hmain hdeclarer

/-- A scope after the first two is that of a node. -/
theorem exists_node_of_scope {i : Nat} (hi : 2 ≤ i) (hsize : i < t.scopes.size) :
    ∃ e ∈ p.body.nodes, e.opens = true ∧ (e.id, i) ∈ t.nodeScopes := by
  rw [size_scopes_eq hwalked] at hsize
  obtain ⟨k, rfl⟩ := Nat.exists_eq_add_of_le hi
  have hk := List.getElem?_eq_getElem (Nat.lt_of_add_lt_add_left hsize)
  obtain ⟨hnode, hopens⟩ := mem_nodes_of_opens (List.mem_of_getElem? hk)
  refine ⟨_, hnode, hopens, ?_⟩
  rw [nodeScopes_eq hwalked]
  exact List.mem_append_left _ (Outline.mem_numberFrom.mpr ⟨k, _, hk, rfl, rfl⟩)

theorem exists_scope_of_opens {e : Expr} (he : e ∈ p.body.nodes) (hopens : e.opens = true) :
    ∃ i, (e.id, i) ∈ t.nodeScopes := by
  obtain ⟨outer, declarer, hwithin⟩ := Expr.exists_within he
  obtain ⟨s, f, hnests, -⟩ := (nests_body hwalked).within hwithin
  cases hnests with
  | @node _ _ i _ _ hholds _ => exact ⟨i, (hholds.opened hopens).1⟩

theorem mem_body (hblock : p.body.isBlock = true) : (p.body.id, 1) ∈ t.nodeScopes := by
  rw [nodeScopes_eq hwalked, if_pos hblock]
  exact List.mem_append_right _ (List.mem_singleton_self _)

/-- Every further scope lies in the program's or deeper. -/
theorem parent?_ne_root {i : Nat} (hkeys : (t.nodeScopes.map Prod.fst).Nodup) (hi : 2 ≤ i)
    (hsize : i < t.scopes.size) : t.outline.parent? i ≠ some root := by
  obtain ⟨e, he, hopens, hmem⟩ := exists_node_of_scope hwalked hi hsize
  have hinner (heq : e = p.body) : e.isBlock = false := by
    cases hblock : e.isBlock with
    | false => rfl
    | true =>
      subst heq
      have hone := lookup_of_mem hkeys (mem_body hwalked hblock)
      rw [lookup_of_mem hkeys hmem] at hone
      cases hone
      omega
  obtain ⟨outer, declarer, hwithin⟩ := Expr.exists_within he
  obtain ⟨j, r, s, f, hmem', hr, hparent, -, htop, houter, -⟩ :=
    scope_within hwalked hwithin hopens hinner
  obtain rfl : i = j :=
    Option.some.inj ((lookup_of_mem hkeys hmem).symm.trans (lookup_of_mem hkeys hmem'))
  rw [Outline.parent?, hr]
  change r.parent ≠ _
  rw [hparent]
  rintro ⟨⟩
  cases outer with
  | none => cases htop rfl
  | some y =>
    rcases scope_number hwalked (houter y rfl) with ⟨k, -, -, -, hk⟩ | ⟨-, -, hk⟩
    · rw [root] at hk
      omega
    · cases hk

/-- The program's scope is all that the host's has inside. -/
theorem children_root {r : Region} (hkeys : (t.nodeScopes.map Prod.fst).Nodup)
    (hr : t.outline.regions[root]? = some r) : r.children = [1] := by
  have hsize : t.outline.regions.size = t.scopes.size := Array.size_map ..
  obtain ⟨r₀, hr₀, hnone, -⟩ := hwalked.gains.kept 0 ⟨none, [1], none⟩ rfl
  obtain ⟨r₁, hr₁, hone, -⟩ := hwalked.gains.kept 1 ⟨some 0, [], some 0⟩ rfl
  have hzero : t.outline.parent? 0 = none := by rw [Outline.parent?, hr₀]; exact hnone
  have hfirst : t.outline.parent? 1 = some root := by rw [Outline.parent?, hr₁]; exact hone
  have hrest (n : Nat) (hn : n + 2 ≤ t.scopes.size) :
      (List.range (n + 2)).filter (fun c => t.outline.parent? c = some root) = [1] := by
    induction n with
    | zero => simp [List.range_succ, hzero, hfirst]
    | succ n ih =>
      have hlast := parent?_ne_root hwalked hkeys (Nat.le_add_left 2 n) hn
      rw [List.range_succ, List.filter_append, ih (by omega)]
      simp [hlast]
  rw [hwalked.gains.families.children root r hr, hsize, size_scopes_eq hwalked, Nat.add_comm]
  exact hrest _ (by rw [size_scopes_eq hwalked]; omega)

end Walk

/-- The walk of a program without problems. -/
theorem build_walked {p : Program} (hn : Expr.Numbered 0 p.body p.nodeCount)
    (h : (build p host).problems = []) :
    Outline.Walked 1 main p.body.statements (Outline.startFor p.body) (build p host).tree.outline ∧
      (build p host).tree.program = 1 ∧
      ∀ l name params body, .function l name params body ∈ p.body.nodes →
        ∃ id, (l.id, id) ∈ (build p host).tree.nodeFunctions ∧
          (build p host).tree.HasParams id params := by
  obtain ⟨b₀, hbuild, hstart, hprogram, hwf⟩ := build_eq p host
  obtain ⟨lo, hstatements⟩ := exists_numbered_statements hn
  rw [hbuild] at h ⊢
  obtain ⟨hwf, hmain, -⟩ := hwf (Building.visitList_clean hstatements h)
  have hfamilies : (Outline.startFor p.body).Families :=
    ⟨Outline.start_families.parent_lt, Outline.start_families.children⟩
  refine ⟨?_, ?_, fun l name params body hmem => ?_⟩
  · rw [← hstart] at hfamilies ⊢
    refine Building.walked_visitList hstatements hwf hmain h ?_ hfamilies
    rw [hstart]
    exact Nat.lt_succ_self 1
  · exact (Building.after_visitList hstatements hwf hmain h).2.program.trans hprogram
  · refine Building.params_visitList hstatements hwf hmain h _ ?_ l name params body rfl
    have hfilter : Expr.function l name params body ∈ p.body.nodes.filter Expr.isFunction :=
      List.mem_filter.mpr ⟨hmem, rfl⟩
    rw [filter_functions] at hfilter
    exact (List.mem_filter.mp hfilter).1

/-- What a program without problems declares belongs to its nodes, but for the names of the
host. -/
theorem build_declares {p : Program} (hn : Expr.Numbered 0 p.body p.nodeCount)
    (h : (build p host).problems = []) :
    Declaring (· ∈ p.body.nodes) {} (build p host).tree := by
  obtain ⟨b₀, hbuild, -, -, hstart⟩ := build_eq p host
  obtain ⟨lo, hstatements⟩ := exists_numbered_statements hn
  rw [hbuild] at h ⊢
  obtain ⟨hwf, hmain, hdeclares⟩ := hstart (Building.visitList_clean hstatements h)
  refine hdeclares.trans (Building.after_visitList hstatements hwf hmain h).2
    ((Building.declaring_visitList hstatements hwf hmain h).mono fun e he => ?_)
  obtain ⟨x, hx, he⟩ := List.mem_flatMap.mp he
  exact mem_nodes_of_statement hx he

theorem represents {p : Program} (hn : Expr.Numbered 0 p.body p.nodeCount)
    (h : (build p host).problems = []) : Represents p (build p host).tree := by
  have hbuilt := build_clean hn h
  obtain ⟨hwalked, hprogram, hparams⟩ := build_walked hn h
  generalize (build p host).tree = t at *
  have hscopeOf {node i : Nat} : t.scopeOf? node = some i ↔ (node, i) ∈ t.nodeScopes :=
    ⟨mem_of_lookup, lookup_of_mem hbuilt.scopeKeys⟩
  have hfunctionOf {node i : Nat} : t.functionOf? node = some i ↔ (node, i) ∈ t.nodeFunctions :=
    ⟨mem_of_lookup, lookup_of_mem hbuilt.functionKeys⟩
  exact {
    ordered := by rw [hn.ids, Nat.sub_zero, List.range_eq_range']
    functionId := hbuilt.functionId
    functionCount := by
      rw [filter_functions, Nat.add_comm]
      exact hwalked.gains.functions.1
    functionOf := by
      intro k e he
      rw [hfunctionOf, nodeFunctions_eq hwalked]
      exact Outline.mem_numberFrom.mpr ⟨k, e, he, rfl, Nat.add_comm k 1⟩
    functionOnly := by
      intro node i hnode
      obtain ⟨e, he, hfun, hid⟩ := hbuilt.declared _ (hfunctionOf.mp hnode)
      exact ⟨e, he, hfun, hid⟩
    slotted := fun function n f slot hf hslot => hbuilt.slots function f hf n slot hslot
    stored := fun id function n v hv hstorage _ _ => hbuilt.toLayout.in_slot_iff hv hstorage
    params := by
      intro l name params body hmem
      obtain ⟨id, hid, hhas⟩ := hparams l name params body hmem
      exact ⟨id, hfunctionOf.mpr hid, hhas⟩
    mainParams := by
      obtain ⟨f, hf, hcount, -⟩ := hbuilt.mainFunction
      exact ⟨f, hf, hcount⟩
    hostScope := by
      obtain ⟨r, hr, hparent, hfunction⟩ := hwalked.gains.kept root ⟨none, [1], none⟩ rfl
      obtain ⟨s, hs, rfl⟩ := exists_scope hr
      rw [hprogram]
      exact ⟨s, hs, hparent, children_root hwalked hbuilt.scopeKeys hr, hfunction⟩
    programScope := by
      obtain ⟨r, hr, hparent, hfunction⟩ := hwalked.gains.kept 1 ⟨some 0, [], some 0⟩ rfl
      obtain ⟨s, hs, rfl⟩ := exists_scope hr
      rw [hprogram]
      exact ⟨s, hs, hparent, Nat.one_pos, hfunction⟩
    bodyScope := by
      intro hblock
      rw [hscopeOf, hprogram]
      exact mem_body hwalked hblock
    placed := fun e he => Expr.exists_within he
    nested := fun _ _ _ => scope_nested hwalked hbuilt hprogram
    apart := by
      intro e he e' he' hopens hopens' heq
      obtain ⟨i, hi⟩ := exists_scope_of_opens hwalked he hopens
      have hi' := hscopeOf.mp (heq.symm.trans (hscopeOf.mpr hi))
      exact hn.eq_of_id he he' (node_eq_of_scope hwalked hi hi')
    programOnly := by
      intro e he hprog
      rw [hscopeOf, hprogram] at hprog
      rcases scope_number hwalked hprog with ⟨k, -, -, -, hk⟩ | ⟨hblock, hid, -⟩
      · omega
      · obtain rfl := hn.eq_of_id he (Expr.mem_nodes_self _) hid
        exact ⟨rfl, hblock⟩
    covered := by
      intro i hi
      rcases i with _ | _ | i
      · exact .inl rfl
      · exact .inr (.inl hprogram.symm)
      · obtain ⟨e, he, hopens, hmem⟩ := exists_node_of_scope hwalked (Nat.le_add_left 2 i) hi
        exact .inr (.inr ⟨e, he, hopens, hscopeOf.mpr hmem⟩) }

/-- The tree that is built for a program stands for it. -/
theorem build_represents (body : Expr) (host : Host)
    (h : (build (Program.ofExpr body) host).problems = []) :
    Represents (Program.ofExpr body) (build (Program.ofExpr body) host).tree :=
  represents (body.renumber_numbered 0) h

/-- A function with a loop over one of its parameters, and a counted loop around a function. -/
def nesting : Expr :=
  .block {} [
    .function {} "total" [.declare "number" "start", .declareArray "number" "items"]
      (.block {} [
        .forIn {} (.ident "item") (.ident "items")
          (.block {} [.assign (.ident "start") (.operate .add (.ident "start") (.ident "item"))]),
        .ret {} (some (.ident "start"))]),
    .forTo {} (.ident "i") (.number .one) (.ident "limit") .up
      (.block {} [.function {} "inner" [] (.block {} [])])]

def nestingHost : Host := { globals := [{ name := "limit", type := .double }] }

theorem build_represents_nesting :
    (build (Program.ofExpr nesting) nestingHost).problems = [] ∧
    ((Program.ofExpr nesting).body.nodes.filter Expr.opens).length = 9 ∧
    Represents (Program.ofExpr nesting) (build (Program.ofExpr nesting) nestingHost).tree := by
  have hclean : (build (Program.ofExpr nesting) nestingHost).problems = [] := by decide +kernel
  exact ⟨hclean, by decide +kernel, build_represents nesting nestingHost hclean⟩

end ScopeTree

end TurtleScript
