import TurtleScript.Proofs.Scope.Building
import TurtleScript.Proofs.Text.Identifier

/-!
# The scope tree of a program

The tree that is built for a program without problems: the names of the host at its root, a
main function without parameters or result, and every node of the program in its place. The
resolver changes only types in such a tree, and what fits stays fitting.
-/
namespace TurtleScript

open ScopeTree

namespace Building

variable {host : Host} {b : Building}

/-- A fold of declarations keeps what each of them keeps. -/
theorem foldl_clean {α : Type} {step : Building → α → Building} (inv : ScopeTree → Prop)
    (xs : List α) (hstep : ∀ b, ∀ x ∈ xs, (step b x).problems = [] →
      b.problems = [] ∧ (inv b.tree → inv (step b x).tree))
    (h : (xs.foldl step b).problems = []) :
    b.problems = [] ∧ (inv b.tree → inv (xs.foldl step b).tree) := by
  induction xs generalizing b with
  | nil => exact ⟨h, fun hinv => hinv⟩
  | cons x xs ih =>
    obtain ⟨hmid, hrest⟩ := ih (fun b y hy => hstep b y (List.mem_cons_of_mem x hy)) h
    obtain ⟨hstart, hfirst⟩ := hstep b x List.mem_cons_self hmid
    exact ⟨hstart, fun hinv => hrest (hfirst hinv)⟩

/-- A tree that has no function and no node yet. -/
structure Bare (host : Host) (t : ScopeTree) : Prop extends Wf host t where
  functions : t.functions = #[]
  nodeScopes : t.nodeScopes = []
  nodeFunctions : t.nodeFunctions = []
  loopSlots : t.loopSlots = []

theorem Bare.start : Bare host {} where
  functionId := nofun
  params := nofun
  stored := nofun
  slots := nofun
  valued := nofun
  names := by
    intro i scope hs p hp
    cases i with
    | zero => cases hs; cases hp
    | succ i => cases hs
  functionNodes := nofun
  functionNodup := .nil
  loops := nofun
  loopsApart := .nil
  overloads := by
    rintro o ⟨i, scope, hs, ho⟩
    cases i with
    | zero => cases hs; cases ho
    | succ i => cases hs
  functions := rfl
  nodeScopes := rfl
  nodeFunctions := rfl
  loopSlots := rfl

theorem Bare.addGlobal {t : ScopeTree} {scope n : Nat} {v : Variable} {g : HostVariable}
    (h : Bare host t) (hg : host.globals[n]? = some g) (hstorage : v.storage = .global n)
    (htype : v.type = some g.type) : Bare host (t.addGlobal scope v) :=
  { h.toWf.of_grows (h.toLayout.addGlobal hg hstorage htype) .addGlobal
      fun _ => declares_addGlobal with
    functions := h.functions, nodeScopes := h.nodeScopes
    nodeFunctions := h.nodeFunctions, loopSlots := h.loopSlots }

theorem Bare.addOverload {t : ScopeTree} {scope : Nat} {o : Overload} (h : Bare host t)
    (ho : Known host t o) : Bare host (t.addOverload scope o) :=
  { h.toLayout.addOverload with
    overloads := by
      intro o' ho'
      rcases declares_addOverload ho' with rfl | ho'
      · exact ho.mono .addOverload
      · exact (h.overloads o' ho').mono .addOverload
    functions := h.functions, nodeScopes := h.nodeScopes
    nodeFunctions := h.nodeFunctions, loopSlots := h.loopSlots }

theorem declareNative_clean {n : NativeSignature} {index : Nat}
    (hn : host.natives[index]? = some n)
    (h : (b.accept {} (b.tree.declareOverload root
      { name := n.name, params := n.params, callee := .native index })).problems = []) :
    b.problems = [] ∧ (Bare host b.tree → Bare host (b.accept {} (b.tree.declareOverload root
      { name := n.name, params := n.params, callee := .native index })).tree) := by
  obtain ⟨hclean, tree, hok, haccept⟩ := accept_clean h
  refine ⟨hclean, fun hbare => ?_⟩
  rw [haccept, declareOverload_eq_ok hok]
  exact hbare.addOverload ⟨n, hn, rfl, rfl⟩

theorem declareGlobal_clean {g : HostVariable} {index : Nat}
    (hg : host.globals[index]? = some g)
    (h : (b.accept {} (Prod.snd <$> b.tree.declareVariable root
      { name := g.name, type := some g.type, storage := .global index, span := {} })).problems = []) :
    b.problems = [] ∧ (Bare host b.tree → Bare host
      (b.accept {} (Prod.snd <$> b.tree.declareVariable root
        { name := g.name, type := some g.type, storage := .global index, span := {} })).tree) := by
  obtain ⟨hclean, tree, hok, haccept⟩ := accept_clean h
  refine ⟨hclean, fun hbare => ?_⟩
  rw [haccept]
  cases hdeclare : b.tree.declareVariable root
      { name := g.name, type := some g.type, storage := .global index, span := {} } with
  | error problem => rw [hdeclare] at hok; cases hok
  | ok result =>
    rw [hdeclare] at hok
    cases hok
    rw [declareVariable_eq_ok hdeclare]
    exact hbare.addGlobal hg rfl rfl

theorem declareHost_clean (h : (b.declareHost host).problems = []) :
    b.problems = [] ∧ (Bare host b.tree → Bare host (b.declareHost host).tree) := by
  obtain ⟨hmid, hnatives⟩ := foldl_clean (Bare host) _ (fun b p hp hclean =>
    declareNative_clean (List.mem_zipIdx_iff_getElem?.mp hp) hclean) h
  obtain ⟨hstart, hvariables⟩ := foldl_clean (Bare host) _ (fun b p hp hclean =>
    declareGlobal_clean (List.mem_zipIdx_iff_getElem?.mp hp) hclean) hmid
  exact ⟨hstart, fun hbare => hnatives (hvariables hbare)⟩

end Building

namespace ScopeTree

variable {host : Host} {t t' : ScopeTree} {id : Nat} {type : Ty}

/-- The function `id` gets a result type, all else stays. -/
theorem functions_setReturnType (t : ScopeTree) (id : Nat) (type : Ty) (i : Nat) :
    (t.setReturnType id type).functions[i]? = (t.functions[i]?).map fun f =>
      { f with returnType := if id = i then some type else f.returnType } := by
  rw [setReturnType, Array.getElem?_modify]
  split
  case isTrue h => rfl
  case isFalse h => cases t.functions[i]? <;> rfl

theorem vars_setVariableType (t : ScopeTree) (id : Nat) (type : Ty) (i : Nat) :
    (t.setVariableType id type).vars[i]? = (t.vars[i]?).map fun v =>
      { v with type := if id = i then some type else v.type } := by
  rw [setVariableType, Array.getElem?_modify]
  split
  case isTrue h => rfl
  case isFalse h => cases t.vars[i]? <;> rfl

/-- The variable of a loop that holds its array. -/
def IsLoopArray (t : ScopeTree) (id : Nat) : Prop := ∃ p ∈ t.loopSlots, p.2.array = id

/-- Two trees that differ in types only: results and variables that had a type keep it, but
for the hidden arrays of loops. -/
structure Refines (t t' : ScopeTree) : Prop where
  scopes : t'.scopes = t.scopes
  nodeScopes : t'.nodeScopes = t.nodeScopes
  nodeFunctions : t'.nodeFunctions = t.nodeFunctions
  loopSlots : t'.loopSlots = t.loopSlots
  program : t'.program = t.program
  sizeVars : t'.vars.size = t.vars.size
  sizeFunctions : t'.functions.size = t.functions.size
  vars : ∀ (id : Nat) (v : Variable), t.vars[id]? = some v → ∃ v', t'.vars[id]? = some v' ∧
    v'.name = v.name ∧ v'.storage = v.storage ∧
    (¬ t.IsLoopArray id → ∀ type, v.type = some type → v'.type = some type)
  functions : ∀ (i : Nat) (f : FunctionRecord), t.functions[i]? = some f →
    ∃ f', t'.functions[i]? = some f' ∧ f'.id = f.id ∧ f'.paramCount = f.paramCount ∧
      f'.slots = f.slots ∧ ∀ type, f.returnType = some type → f'.returnType = some type

namespace Refines

theorem refl (t : ScopeTree) : Refines t t where
  scopes := rfl
  nodeScopes := rfl
  nodeFunctions := rfl
  loopSlots := rfl
  program := rfl
  sizeVars := rfl
  sizeFunctions := rfl
  vars := fun _ v hv => ⟨v, hv, rfl, rfl, fun _ _ h => h⟩
  functions := fun _ f hf => ⟨f, hf, rfl, rfl, rfl, fun _ h => h⟩

theorem trans {t'' : ScopeTree} (h : Refines t t') (h' : Refines t' t'') : Refines t t'' where
  scopes := h'.scopes.trans h.scopes
  nodeScopes := h'.nodeScopes.trans h.nodeScopes
  nodeFunctions := h'.nodeFunctions.trans h.nodeFunctions
  loopSlots := h'.loopSlots.trans h.loopSlots
  program := h'.program.trans h.program
  sizeVars := h'.sizeVars.trans h.sizeVars
  sizeFunctions := h'.sizeFunctions.trans h.sizeFunctions
  vars := by
    intro id v hv
    obtain ⟨v', hv', hname, hstorage, htype⟩ := h.vars id v hv
    obtain ⟨v'', hv'', hname', hstorage', htype'⟩ := h'.vars id v' hv'
    refine ⟨v'', hv'', hname'.trans hname, hstorage'.trans hstorage, fun hid type hv => ?_⟩
    exact htype' (by rw [IsLoopArray, h.loopSlots]; exact hid) type (htype hid type hv)
  functions := by
    intro i f hf
    obtain ⟨f', hf', hid, hcount, hslots, hresult⟩ := h.functions i f hf
    obtain ⟨f'', hf'', hid', hcount', hslots', hresult'⟩ := h'.functions i f' hf'
    exact ⟨f'', hf'', hid'.trans hid, hcount'.trans hcount, hslots'.trans hslots,
      fun type hf => hresult' type (hresult type hf)⟩

/-- A variable of the later tree was there before. -/
theorem vars_back {v' : Variable} (h : Refines t t') (hv : t'.vars[id]? = some v') :
    ∃ v, t.vars[id]? = some v ∧ v'.name = v.name ∧ v'.storage = v.storage ∧
      (¬ t.IsLoopArray id → ∀ type, v.type = some type → v'.type = some type) := by
  have hlt : id < t.vars.size := h.sizeVars ▸ (Array.getElem?_eq_some_iff.mp hv).1
  obtain ⟨u, hu, hrest⟩ := h.vars id _ (Array.getElem?_eq_getElem hlt)
  cases hv.symm.trans hu
  exact ⟨_, Array.getElem?_eq_getElem hlt, hrest⟩

theorem functions_back {i : Nat} {f' : FunctionRecord} (h : Refines t t')
    (hf : t'.functions[i]? = some f') :
    ∃ f, t.functions[i]? = some f ∧ f'.id = f.id ∧ f'.paramCount = f.paramCount ∧
      f'.slots = f.slots ∧ ∀ type, f.returnType = some type → f'.returnType = some type := by
  have hlt : i < t.functions.size := h.sizeFunctions ▸ (Array.getElem?_eq_some_iff.mp hf).1
  obtain ⟨g, hg, hrest⟩ := h.functions i _ (Array.getElem?_eq_getElem hlt)
  cases hf.symm.trans hg
  exact ⟨_, Array.getElem?_eq_getElem hlt, hrest⟩

/-- The result of a function is fixed. -/
theorem setReturnType
    (hopen : ∀ f, t.functions[id]? = some f → f.returnType = none ∨ f.returnType = some type) :
    Refines t (t.setReturnType id type) :=
  { refl t with
    sizeFunctions := Array.size_modify
    functions := by
      intro i f hf
      refine ⟨{ f with returnType := if id = i then some type else f.returnType }, ?_, rfl, rfl,
        rfl, fun type' htype => ?_⟩
      · rw [functions_setReturnType, hf]
        rfl
      · dsimp only
        split
        case isTrue h =>
          subst h
          rcases hopen f hf with hnone | hsome
          · rw [hnone] at htype
            cases htype
          · exact hsome.symm.trans htype
        case isFalse => exact htype }

/-- The type of a variable is fixed, or that of a loop's array replaced. -/
theorem setVariableType
    (hopen : ∀ v, t.vars[id]? = some v → v.type = none ∨ t.IsLoopArray id) :
    Refines t (t.setVariableType id type) :=
  { refl t with
    sizeVars := Array.size_modify
    vars := by
      intro i v hv
      refine ⟨{ v with type := if id = i then some type else v.type }, ?_, rfl, rfl,
        fun hi type' htype => ?_⟩
      · rw [vars_setVariableType, hv]
        rfl
      · dsimp only
        split
        case isTrue h =>
          subst h
          rcases hopen v hv with hnone | harray
          · rw [hnone] at htype
            cases htype
          · exact absurd harray hi
        case isFalse => exact htype }

end Refines

theorem reserved_of_foldName {name name' : String} (h : foldName name = foldName name')
    (hname : Reserved name) : Reserved name' := by
  rw [Reserved] at hname ⊢
  have hhead := congrArg (fun s => s.toList.head?) h
  simp only [foldName, String.toList_map, List.head?_map, hname, Option.map_some] at hhead
  obtain ⟨c, hc, hlower⟩ := Option.map_eq_some_iff.mp hhead.symm
  have hdollar : Char.toLower '$' = '$' := rfl
  rw [hc, (toLower_eq_iff (.inl (by decide)) c).mp (hlower.trans hdollar)]

theorem not_reserved {name : String} (h : Text.isIdentifier name = true) : ¬ Reserved name := by
  intro hreserved
  rw [Reserved] at hreserved
  rw [Text.isIdentifier] at h
  cases hname : name.toList with
  | nil => simp [hname] at hreserved
  | cons first rest =>
    obtain rfl : first = '$' := by simpa [hname] using hreserved
    simp [hname, Text.isIdentifierStart_dollar] at h

/-- The array of a loop is a local under a name of its own. -/
theorem Layout.loopArray {v : Variable} (h : Layout host t) (hid : t.IsLoopArray id)
    (hv : t.vars[id]? = some v) : Reserved v.name ∧ ∃ function n, v.storage = .slot function n := by
  obtain ⟨p, hp, rfl⟩ := hid
  obtain ⟨u, w, hu, hw, hname, -, hstorage⟩ := h.loops p hp
  cases hv.symm.trans hu
  exact ⟨hname, hstorage⟩

theorem Stored.refines {v v' : Variable} (hlayout : Layout host t) (hr : Refines t t')
    (h : Stored host t id v) (hv : t.vars[id]? = some v) (hstorage : v'.storage = v.storage)
    (htype : ¬ t.IsLoopArray id → ∀ type, v.type = some type → v'.type = some type) :
    Stored host t' id v' := by
  rw [Stored, hstorage]
  cases hplace : v.storage with
  | global n =>
    simp only [Stored, hplace] at h ⊢
    obtain ⟨g, hg, hglobal⟩ := h
    refine ⟨g, hg, htype (fun hid => ?_) _ hglobal⟩
    obtain ⟨-, function, m, hslot⟩ := hlayout.loopArray hid hv
    rw [hplace] at hslot
    cases hslot
  | slot function n =>
    simp only [Stored, hplace] at h ⊢
    obtain ⟨f, slot, hf, hslot, hvar⟩ := h
    obtain ⟨f', hf', -, -, hslots, -⟩ := hr.functions function f hf
    exact ⟨f', slot, hf', hslots ▸ hslot, hvar⟩

theorem Known.refines {o : Overload} (hlayout : Layout host t) (hr : Refines t t')
    (h : Known host t o) : Known host t' o := by
  cases hcallee : o.callee with
  | native index => simpa only [Known, hcallee] using h
  | script id =>
    simp only [Known, hcallee] at h ⊢
    obtain ⟨hmain, hname, ⟨node, hnode⟩, f, hf, hcount, hparams⟩ := h
    obtain ⟨f', hf', -, hcount', hslots, -⟩ := hr.functions id f hf
    refine ⟨hmain, hname, ⟨node, hr.nodeFunctions ▸ hnode⟩, f', hf', hcount'.trans hcount,
      fun k type hk => ?_⟩
    obtain ⟨slot, v, hslot, hv, htype, hid⟩ := hparams k type hk
    obtain ⟨v', hv', hname', -, htype'⟩ := hr.vars _ v hv
    refine ⟨slot, v', hslots ▸ hslot, hv', htype' (fun harray => ?_) type htype, hname' ▸ hid⟩
    exact not_reserved hid (hlayout.loopArray harray hv).1

theorem Wf.refines (h : Wf host t) (hr : Refines t t')
    (hvalued : t'.Valued) : Wf host t' where
  functionId := by
    intro i f' hf'
    obtain ⟨f, hf, hid, -⟩ := hr.functions_back hf'
    exact hid.trans (h.functionId i f hf)
  params := by
    intro i f' hf'
    obtain ⟨f, hf, -, hcount, hslots, -⟩ := hr.functions_back hf'
    rw [hcount, hslots]
    exact h.params i f hf
  stored := by
    intro id v' hv'
    obtain ⟨v, hv, -, hstorage, htype⟩ := hr.vars_back hv'
    exact (h.stored id v hv).refines h.toLayout hr hv hstorage htype
  slots := by
    intro i f' hf' n slot hslot
    obtain ⟨f, hf, -, -, hslots, -⟩ := hr.functions_back hf'
    obtain ⟨v, hv, hstorage⟩ := h.slots i f hf n slot (hslots ▸ hslot)
    obtain ⟨v', hv', -, hstorage', -⟩ := hr.vars _ v hv
    exact ⟨v', hv', hstorage'.trans hstorage⟩
  valued := hvalued
  names := by
    intro i scope hs p hp
    rw [hr.scopes] at hs
    obtain ⟨v, hv, hname⟩ := h.names i scope hs p hp
    obtain ⟨v', hv', hname', -⟩ := hr.vars _ v hv
    exact ⟨v', hv', hname' ▸ hname⟩
  functionNodes := by
    rw [hr.nodeFunctions, hr.sizeFunctions]
    exact h.functionNodes
  functionNodup := hr.nodeFunctions ▸ h.functionNodup
  loops := by
    intro p hp
    rw [hr.loopSlots] at hp
    obtain ⟨v, w, hv, hw, hvname, hwname, hstorage⟩ := h.loops p hp
    obtain ⟨v', hv', hvname', hstorage', -⟩ := hr.vars _ v hv
    obtain ⟨w', hw', hwname', -⟩ := hr.vars _ w hw
    exact ⟨v', w', hv', hw', hvname' ▸ hvname, hwname' ▸ hwname, hstorage' ▸ hstorage⟩
  loopsApart := hr.loopSlots ▸ h.loopsApart
  overloads := by
    rintro o ⟨i, scope, hs, ho⟩
    rw [hr.scopes] at hs
    exact (h.overloads o ⟨i, scope, hs, ho⟩).refines h.toLayout hr

theorem HasLoop.refines {function node : Nat} (hr : Refines t t') (h : t.HasLoop function node) :
    t'.HasLoop function node := by
  obtain ⟨slots, v, w, a, i, hmem, hv, hw, hvstorage, hwstorage, hne⟩ := h
  obtain ⟨v', hv', -, hv'storage, -⟩ := hr.vars _ v hv
  obtain ⟨w', hw', -, hw'storage, -⟩ := hr.vars _ w hw
  exact ⟨slots, v', w', a, i, hr.loopSlots ▸ hmem, hv', hw', hv'storage.trans hvstorage,
    hw'storage.trans hwstorage, hne⟩

theorem Placed.refines {scope function : Nat} {e : Expr} (hr : Refines t t')
    (h : t.Placed scope function e) : t'.Placed scope function e := by
  induction h with
  | declared h => exact .declared h
  | function hscope hnode hparams _ ih =>
    exact .function (hr.nodeScopes ▸ hscope) (hr.nodeFunctions ▸ hnode) hparams ih
  | opening hopens hscope hloop _ ih =>
    exact .opening hopens (hr.nodeScopes ▸ hscope)
      (fun l item iterable body he => (hloop l item iterable body he).refines hr) ih
  | plain hscope hfun hvar _ ih => exact .plain hscope hfun hvar ih

/-- The tree of a program without problems. -/
structure Built (host : Host) (p : Program) (t : ScopeTree) : Prop extends Wf host t where
  placed : t.Placed t.program main p.body
  scopeKeys : (t.nodeScopes.map Prod.fst).Nodup
  functionKeys : (t.nodeFunctions.map Prod.fst).Nodup
  loopKeys : (t.loopSlots.map Prod.fst).Nodup
  declared : ∀ q ∈ t.nodeFunctions, ∃ y ∈ p.body.nodes, y.isFunction = true ∧ y.id = q.1
  covered : ∀ i, i ≠ main → i < t.functions.size → ∃ node, (node, i) ∈ t.nodeFunctions
  mainFunction : ∃ f, t.functions[main]? = some f ∧ f.paramCount = 0 ∧ f.returnType = some .empty

theorem Built.refines {p : Program} (h : Built host p t) (hr : Refines t t')
    (hvalued : t'.Valued) : Built host p t' :=
  { h.toWf.refines hr hvalued with
    placed := by
      rw [hr.program]
      exact h.placed.refines hr
    scopeKeys := hr.nodeScopes ▸ h.scopeKeys
    functionKeys := hr.nodeFunctions ▸ h.functionKeys
    loopKeys := hr.loopSlots ▸ h.loopKeys
    declared := hr.nodeFunctions ▸ h.declared
    covered := by
      rw [hr.nodeFunctions, hr.sizeFunctions]
      exact h.covered
    mainFunction := by
      obtain ⟨f, hf, hcount, hresult⟩ := h.mainFunction
      obtain ⟨f', hf', -, hcount', -, hresult'⟩ := hr.functions _ f hf
      exact ⟨f', hf', hcount'.trans hcount, hresult' _ hresult⟩ }

/-- The tree in which the walk over the program starts. -/
def entered (t : ScopeTree) (span : Span) : ScopeTree :=
  let (main, tree) := t.pushFunction "main" span
  let (program, tree) := (tree.setReturnType main .empty).pushScope root main
  { tree with program }

theorem functions_entered {span : Span} (h : Building.Bare host t) :
    (t.entered span).functions[main]? =
      some { id := main, name := "main", returnType := some .empty, span } := by
  simp [entered, pushScope, functions_setReturnType, pushFunction_eq, h.functions, main]

theorem functions_entered_size {span : Span} (h : Building.Bare host t) :
    (t.entered span).functions.size = 1 := by
  simp [entered, pushScope, setReturnType, pushFunction_eq, h.functions]

theorem Wf.entered {span : Span} (h : Building.Bare host t) : Wf host (t.entered span) := by
  have hpush : Wf host (t.pushFunction "main" span).2 :=
    h.toWf.of_grows h.toLayout.pushFunction .pushFunction fun _ ho => ho
  have hset : Refines (t.pushFunction "main" span).2
      ((t.pushFunction "main" span).2.setReturnType t.issued .empty) := by
    refine .setReturnType fun f hf => .inl ?_
    rw [pushFunction_eq, t.issued_eq, Array.getElem?_push_size] at hf
    cases hf
    rfl
  have hwf := hpush.refines hset hpush.valued
  exact { hwf.toLayout.pushScope with
    overloads := fun o ho => hwf.overloads o (declares_pushScope ho) }

theorem Keyed.nodup {β : Type} {keys : Nat → Prop} {old new : List (Nat × β)}
    (h : Keyed keys old new) (hold : old = []) :
    (new.map Prod.fst).Nodup ∧ ∀ p ∈ new, keys p.1 := by
  obtain ⟨added, rfl, hnodup, hkeys⟩ := h
  rw [hold, List.append_nil]
  exact ⟨hnodup, hkeys⟩

/-- The walk enters the nodes of the program in tables that had none. -/
theorem After.built {p : Program} {span : Span} (hbare : Building.Bare host t)
    (h : After host (fun y => y ∈ p.body.nodes) (fun y => y ∈ p.body.nodes)
      (fun t' => t'.Placed (t.entered span).program main p.body) (t.entered span) t') :
    Built host p t' :=
  { h.wf with
    placed := h.grows.program.symm ▸ h.left t' (.refl t')
    scopeKeys := (Keyed.nodup h.nodeScopes hbare.nodeScopes).1
    functionKeys := (Keyed.nodup h.nodeFunctions hbare.nodeFunctions).1
    loopKeys := (Keyed.nodup h.loopSlots hbare.loopSlots).1
    declared := by
      intro q hq
      obtain ⟨y, ⟨hy, hfun⟩, hid⟩ := (Keyed.nodup h.nodeFunctions hbare.nodeFunctions).2 q hq
      exact ⟨y, hy, hfun, hid⟩
    covered := by
      intro i hi hsize
      refine h.covered i ?_ hsize
      rw [functions_entered_size hbare]
      exact Nat.one_le_iff_ne_zero.mpr hi
    mainFunction := by
      obtain ⟨f, hf, -, hcount, hresult⟩ := h.grows.functions main _ (functions_entered hbare)
      exact ⟨f, hf, hcount, hresult⟩ }

theorem After.bindNode {scope : Nat} (e : Expr) (h : Wf host t) :
    After host (fun y => y = e) (fun _ => False) (fun t => (e.id, scope) ∈ t.nodeScopes) t
      (t.bindNode e.id scope) :=
  have hgrows : Grows t (t.bindNode e.id scope) :=
    { Grows.refl t with nodeScopes := List.subset_cons_self .. }
  { wf := h.of_grows { h.toLayout with } hgrows fun _ ho => ho
    grows := hgrows
    nodeScopes := .one ⟨e, rfl, rfl⟩
    nodeFunctions := .refl
    loopSlots := .refl
    covered := fun _ hold hnew => absurd hnew (Nat.not_lt.mpr hold)
    left := fun _ hg => hg.nodeScopes List.mem_cons_self }

theorem size_entered {span : Span} (h : Building.Bare host t) :
    main < (t.entered span).functions.size :=
  (Array.getElem?_eq_some_iff.mp (functions_entered h)).1

/-- The walk over a program that is one block, whose scope is the program's. -/
theorem built_block {b : Building} {l : Label} {body : List Expr} {count : Nat} {span : Span}
    (hbare : b.problems = [] → Building.Bare host b.tree)
    (hn : Expr.Numbered 0 (.block l body) count)
    (h : (Building.visitList (b.tree.entered span).program b.tree.issued body
      ⟨(b.tree.entered span).bindNode l.id (b.tree.entered span).program, b.problems⟩).problems = []) :
    Built host ⟨.block l body, count⟩
      (Building.visitList (b.tree.entered span).program b.tree.issued body
        ⟨(b.tree.entered span).bindNode l.id (b.tree.entered span).program, b.problems⟩).tree := by
  obtain ⟨hclean, hafter⟩ :=
    Building.builds_list (fun x _ => Building.buildsNode x) hn.children_numbered _ h
  replace hbare := hbare hclean
  have hmain : b.tree.issued = main := by
    rw [b.tree.issued_eq, hbare.functions]
    rfl
  have hbind : After host _ _ _ (b.tree.entered span)
      ((b.tree.entered span).bindNode l.id (b.tree.entered span).program) :=
    After.bindNode (.block l body) (.entered hbare)
  rw [hmain] at hafter ⊢
  refine After.built hbare ((hbind.trans (hafter hbind.wf (size_entered hbare)) ?_ nofun).mono
    ?_ ?_ ?_)
  · rintro y z rfl ⟨x, hx, hz⟩
    obtain ⟨lo, hi, hnx, hlo, -⟩ := hn.children_numbered.mem hx
    have := (hnx.id_bounds hz).1
    rw [hn.id_eq]
    omega
  · rintro y (rfl | hy)
    · exact Expr.mem_nodes_self _
    · exact Expr.mem_nodes.mpr (.inr hy)
  · rintro y (hy | hy)
    · exact hy.elim
    · exact Expr.mem_nodes.mpr (.inr hy)
  · rintro t ⟨hscope, hplaced⟩
    exact .opening rfl hscope nofun hplaced

/-- The walk over any other program. -/
theorem built_single {b : Building} {body : Expr} {count : Nat} {span : Span}
    (hbare : b.problems = [] → Building.Bare host b.tree) (hn : Expr.Numbered 0 body count)
    (h : (Building.visit (b.tree.entered span).program b.tree.issued body
      ⟨b.tree.entered span, b.problems⟩).problems = []) :
    Built host ⟨body, count⟩ (Building.visit (b.tree.entered span).program b.tree.issued body
      ⟨b.tree.entered span, b.problems⟩).tree := by
  obtain ⟨hclean, hafter⟩ := Building.buildsNode body _ _ _ _ _ hn h
  replace hbare := hbare hclean
  have hmain : b.tree.issued = main := by
    rw [b.tree.issued_eq, hbare.functions]
    rfl
  rw [hmain] at hafter ⊢
  exact After.built hbare (hafter (.entered hbare) (size_entered hbare))

theorem build_clean {p : Program} (hn : Expr.Numbered 0 p.body p.nodeCount)
    (h : (build p host).problems = []) :
    Built host p (build p host).tree := by
  have hbare (hclean : (({} : Building).declareHost host).problems = []) :
      Building.Bare host (({} : Building).declareHost host).tree :=
    (Building.declareHost_clean hclean).2 .start
  obtain ⟨body, count⟩ := p
  cases body with
  | block l body => exact built_block hbare hn h
  | _ => exact built_single hbare hn h

end ScopeTree

end TurtleScript
