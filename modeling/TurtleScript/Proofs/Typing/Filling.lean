import TurtleScript.Proofs.Scope.Entering
import TurtleScript.Proofs.Typing.Changes

/-!
# What the resolver fills in

The resolver gives types to variables and results to functions and changes nothing else in the
tree of scopes, whichever program the tree was built for and wherever the walk stops. It writes
over one kind of type only, that of the hidden array of a loop; the builder leaves these open, so
no type that was there before is lost.
-/
namespace TurtleScript

open ScopeTree

def Variable.untyped (v : Variable) : Variable := { v with type := none }

def FunctionRecord.untyped (f : FunctionRecord) : FunctionRecord := { f with returnType := none }

namespace ScopeTree

/-- The tree without the types of its variables and the results of its functions. -/
def untyped (t : ScopeTree) : ScopeTree :=
  { t with
    vars := t.vars.map (·.untyped)
    functions := t.functions.map (·.untyped)
    issued_eq := by rw [Array.size_map, t.issued_eq] }

/-- `t'` is `t` with types where it had none. -/
structure Fills (t t' : ScopeTree) : Prop where
  untyped : t'.untyped = t.untyped
  vars : ∀ (id : Nat) (v : Variable) (type : Ty), t.vars[id]? = some v → v.type = some type →
    t'.vars[id]? = some v
  functions : ∀ (i : Nat) (f : FunctionRecord) (type : Ty), t.functions[i]? = some f →
    f.returnType = some type → t'.functions[i]? = some f

theorem untyped_setVariableType (t : ScopeTree) (id : Nat) (type : Ty) :
    (t.setVariableType id type).untyped = t.untyped := by
  have hvars : (t.setVariableType id type).vars.map (·.untyped) = t.vars.map (·.untyped) := by
    refine Array.ext_getElem? fun i => ?_
    rw [Array.getElem?_map, Array.getElem?_map, vars_setVariableType]
    cases t.vars[i]? <;> rfl
  rw [untyped, hvars]
  rfl

theorem untyped_setReturnType (t : ScopeTree) (id : Nat) (type : Ty) :
    (t.setReturnType id type).untyped = t.untyped := by
  have hfunctions :
      (t.setReturnType id type).functions.map (·.untyped) = t.functions.map (·.untyped) := by
    refine Array.ext_getElem? fun i => ?_
    rw [Array.getElem?_map, Array.getElem?_map, functions_setReturnType]
    cases t.functions[i]? <;> rfl
  exact ScopeTree.ext rfl rfl hfunctions rfl rfl rfl rfl rfl

end ScopeTree

section Changes

variable {e : Expr} {p : Expr → Prop} {s s' : Typing}

theorem Change.untyped_eq (h : Change e s s') : s'.tree.untyped = s.tree.untyped := by
  cases h with
  | visited | typed => rfl
  | bound | iterated => exact untyped_setVariableType ..
  | returned => exact untyped_setReturnType ..

theorem Changes.untyped_eq (h : Changes p s s') : s'.tree.untyped = s.tree.untyped := by
  induction h with
  | refl => rfl
  | tail _ hstep ih =>
    obtain ⟨e, -, hchange⟩ := hstep
    exact hchange.untyped_eq.trans ih

end Changes

/-- What the resolver leaves comes of its changes, whether it succeeds or not. -/
theorem ScopeTree.exists_changes (t : ScopeTree) (p : Program) (host : Host)
    (cancelled : Cancellation) :
    ∃ s, Changes p.body.Reaches { tree := t } s ∧ s.tree = (t.resolve p host cancelled).2 := by
  let c : Resolve.Context := { host, cancelled, scope := t.program, function := main }
  rcases (Resolve.walksNode p.body t c { tree := t } (.refl t)).cases with
    ⟨d, s, hvisit, hchanges⟩ | ⟨type, s, hvisit, hchanges, -⟩
  · refine ⟨s, hchanges, ?_⟩
    rw [ScopeTree.resolve, hvisit]
  · refine ⟨s, hchanges, ?_⟩
    rw [ScopeTree.resolve, hvisit]

namespace ScopeTree

/-- The hidden arrays of loops have no type yet. -/
def ArraysOpen (t : ScopeTree) : Prop :=
  ∀ slots ∈ t.loopSlots, ∃ v, t.vars[slots.2.array]? = some v ∧ v.type = none

/-- `t'` has the variables of `t`, and no other loops. -/
structure Extends (t t' : ScopeTree) : Prop where
  vars : ∀ (id : Nat) (v : Variable), t.vars[id]? = some v → t'.vars[id]? = some v
  loopSlots : t'.loopSlots = t.loopSlots

section

variable {t t' t'' : ScopeTree} {scope function id : Nat} {name : String} {type : Option Ty}
  {span : Span}

theorem Extends.refl (t : ScopeTree) : Extends t t := ⟨fun _ _ h => h, rfl⟩

theorem Extends.trans (h : Extends t t') (h' : Extends t' t'') : Extends t t'' where
  vars := fun id v hv => h'.vars id v (h.vars id v hv)
  loopSlots := h'.loopSlots.trans h.loopSlots

theorem Extends.setParams {count : Nat} (h : Extends t t') : Extends t (t'.setParams id count) :=
  ⟨h.vars, h.loopSlots⟩

theorem Extends.arraysOpen (h : Extends t t') (hopen : t.ArraysOpen) : t'.ArraysOpen := by
  intro slots hslots
  obtain ⟨v, hv, htype⟩ := hopen slots (h.loopSlots ▸ hslots)
  exact ⟨v, h.vars _ v hv, htype⟩

theorem extends_of_declareVariable {v : Variable}
    (h : t.declareVariable scope v = .ok (id, t')) : Extends t t' ∧ t'.vars[id]? = some v := by
  rw [declareVariable] at h
  split at h
  · cases h
  · cases h
    exact ⟨⟨fun _ _ h => getElem?_push_of_some h, rfl⟩, Array.getElem?_push_size⟩

theorem extends_of_declareLocal
    (h : t.declareLocal scope function name type span = .ok (id, t')) :
    Extends t t' ∧ ∃ v, t'.vars[id]? = some v ∧ v.type = type := by
  rw [declareLocal] at h
  obtain ⟨⟨id', t₁⟩, hdeclare, hrest⟩ := Except.bind_eq_ok h
  cases hrest
  obtain ⟨⟨hvars, hloops⟩, hv⟩ := extends_of_declareVariable hdeclare
  exact ⟨⟨hvars, hloops⟩, _, hv, rfl⟩

end

end ScopeTree

namespace Building

variable {b : Building} {scope function : Nat} {name : String} {span : Span}

theorem extends_accept {result : Except ScopeProblem ScopeTree}
    (h : ∀ t, result = .ok t → Extends b.tree t) : Extends b.tree (b.accept span result).tree := by
  cases result with
  | error => exact .refl _
  | ok t => exact h t rfl

theorem extends_declareLocal {type : Option Ty} :
    Extends b.tree (b.declareLocal scope function name type span).tree := by
  refine extends_accept fun t ht => ?_
  cases hdeclare : b.tree.declareLocal scope function name type span with
  | error problem => rw [hdeclare] at ht; cases ht
  | ok result =>
    rw [hdeclare] at ht
    cases ht
    exact (extends_of_declareLocal hdeclare).1

theorem extends_declare {type : Expr} :
    Extends b.tree (b.declare scope function name type span).tree := by
  rw [declare]
  split
  · exact .refl _
  · cases declaredType? type with
    | none => exact .refl _
    | some ty => exact extends_declareLocal

theorem extends_declareLoopVariable (e : Expr) :
    Extends b.tree (b.declareLoopVariable scope function e).tree := by
  rw [declareLoopVariable.eq_def]
  split
  · exact extends_declare
  · split
    · exact .refl _
    · split
      · exact .refl _
      · exact extends_declareLocal
  · exact .refl _

theorem extends_foldl {α : Type} {step : Building → α → Building}
    (hstep : ∀ b x, Extends b.tree (step b x).tree) (xs : List α) (b : Building) :
    Extends b.tree (xs.foldl step b).tree := by
  induction xs generalizing b with
  | nil => exact .refl _
  | cons x xs ih => exact (hstep b x).trans (ih (step b x))

theorem extends_openScope {parent node : Nat} :
    Extends b.tree (b.openScope parent function node).2.tree := ⟨fun _ _ h => h, rfl⟩

theorem extends_declareOverload {o : Overload} :
    Extends b.tree (b.accept span (b.tree.declareOverload scope o)).tree := by
  refine extends_accept fun t ht => ?_
  rw [declareOverload_eq_ok ht]
  exact ⟨fun _ _ h => h, rfl⟩

theorem extends_openFunction {l : Label} {params : List Expr} :
    Extends b.tree (b.openFunction scope l name params).2.tree := by
  rw [openFunction]
  split
  · exact .refl _
  · cases checkParameters name params with
    | error problems => exact .refl _
    | ok params =>
      let b₁ : Building :=
        { b with tree := (b.tree.pushFunction name l.span).2.addFunctionNode l.id b.tree.issued }
      have hrecord : Extends b.tree b₁.tree := ⟨fun _ _ h => h, rfl⟩
      refine Extends.setParams (((hrecord.trans extends_declareOverload).trans
        extends_openScope).trans (extends_foldl (fun b p => ?_) params _))
      exact extends_declareLocal

/-- A loop that gets its variables has an array without a type. -/
theorem arraysOpen_declareLoopSlots {l : Label} (h : b.tree.ArraysOpen) :
    (b.declareLoopSlots scope function l).tree.ArraysOpen := by
  rw [declareLoopSlots]
  generalize harray : b.tree.declareLocal scope function s!"$array{l.id}" none l.span = array
  cases array with
  | error problem =>
    simp only [Except.toOption, Option.elim_none]
    generalize hindex : b.tree.declareLocal scope function s!"$index{l.id}" _ l.span = index
    cases index with
    | error problem => exact h
    | ok index => exact (extends_of_declareLocal hindex).1.arraysOpen h
  | ok array =>
    obtain ⟨hextends, v, hv, htype⟩ := extends_of_declareLocal harray
    simp only [Except.toOption, Option.elim_some]
    generalize hindex : array.2.declareLocal scope function s!"$index{l.id}" _ l.span = index
    cases index with
    | error problem => exact hextends.arraysOpen h
    | ok index =>
      have hextends' := (extends_of_declareLocal hindex).1
      refine List.forall_mem_cons.mpr ⟨⟨v, hextends'.vars _ v hv, htype⟩, ?_⟩
      exact (hextends.trans hextends').arraysOpen h

theorem arraysOpen_enter (scope function : Nat) (e : Expr) (b : Building)
    (h : b.tree.ArraysOpen) : (enter scope function b e).2.tree.ArraysOpen := by
  cases e with
  | var l name type =>
    cases type with
    | none => exact h
    | some type => exact extends_declare.arraysOpen h
  | function => exact extends_openFunction.arraysOpen h
  | block | forLoop => exact extends_openScope.arraysOpen h
  | forTo l counter =>
    exact (extends_openScope.trans (extends_declareLoopVariable counter)).arraysOpen h
  | forIn l item =>
    exact arraysOpen_declareLoopSlots
      ((extends_openScope.trans (extends_declareLoopVariable item)).arraysOpen h)
  | _ => exact h

theorem extends_declareHost {host : Host} : Extends b.tree (b.declareHost host).tree := by
  refine (extends_foldl (fun b p => ?_) host.globals.zipIdx b).trans
    (extends_foldl (fun b p => extends_declareOverload) host.natives.zipIdx _)
  refine extends_accept fun t ht => ?_
  cases hdeclare : b.tree.declareVariable root
      { name := p.1.name, type := some p.1.type, storage := .global p.2, span := {} } with
  | error problem => rw [hdeclare] at ht; cases ht
  | ok result =>
    rw [hdeclare] at ht
    cases ht
    exact (extends_of_declareVariable hdeclare).1

end Building

theorem ScopeTree.build_arraysOpen (p : Program) (host : Host) :
    (build p host).tree.ArraysOpen := by
  have hvisit (e : Expr) (scope function : Nat) (b : Building) (h : b.tree.ArraysOpen) :
      (Building.visit scope function e b).tree.ArraysOpen :=
    Building.visit_preserves (P := fun b => b.tree.ArraysOpen) Building.arraysOpen_enter e scope
      function h
  have hhost : (({} : Building).declareHost host).tree.ArraysOpen :=
    Building.extends_declareHost.arraysOpen nofun
  rw [build]
  cases p.body with
  | block l body =>
    exact Building.visitList_preserves (P := fun b => b.tree.ArraysOpen)
      (fun e _ => hvisit e _ _) hhost
  | _ => exact hvisit _ _ _ _ hhost

namespace ScopeTree

variable {t t' : ScopeTree}

theorem ArraysOpen.not_isLoopArray {id : Nat} {v : Variable} {type : Ty} (h : t.ArraysOpen)
    (hv : t.vars[id]? = some v) (htype : v.type = some type) : ¬ t.IsLoopArray id := by
  rintro ⟨slots, hslots, rfl⟩
  obtain ⟨u, hu, hnone⟩ := h slots hslots
  cases hv.symm.trans hu
  rw [hnone] at htype
  cases htype

/-- A tree that differs in types only has the same types where they were set, if the arrays of
loops had none. -/
theorem Refines.fills (h : Refines t t') (huntyped : t'.untyped = t.untyped)
    (hopen : t.ArraysOpen) : Fills t t' where
  untyped := huntyped
  vars := by
    intro id v type hv htype
    obtain ⟨v', hv', -, -, hkept⟩ := h.vars id v hv
    have htype' : v'.type = v.type :=
      (hkept (hopen.not_isLoopArray hv htype) type htype).trans htype.symm
    have heq : v'.untyped = v.untyped := by
      simpa [ScopeTree.untyped, hv, hv'] using congrArg (·.vars[id]?) huntyped
    cases v
    cases v'
    simp_all [Variable.untyped]
  functions := by
    intro i f type hf htype
    obtain ⟨f', hf', -, -, -, hkept⟩ := h.functions i f hf
    have htype' : f'.returnType = f.returnType := (hkept type htype).trans htype.symm
    have heq : f'.untyped = f.untyped := by
      simpa [ScopeTree.untyped, hf, hf'] using congrArg (·.functions[i]?) huntyped
    cases f
    cases f'
    simp_all [FunctionRecord.untyped]

/-- The resolver fills in types that were not set and leaves all else as it was, for the program
that the tree was built for or another, for the host it was built for or another, and whether it
finds a problem or not. -/
theorem resolve_fills (built p : Program) (builtHost host : Host) (cancelled : Cancellation) :
    Fills (build built builtHost).tree
      ((build built builtHost).tree.resolve p host cancelled).2 := by
  obtain ⟨s, hchanges, hs⟩ := (build built builtHost).tree.exists_changes p host cancelled
  rw [← hs]
  exact hchanges.refines.fills hchanges.untyped_eq (build_arraysOpen built builtHost)

end ScopeTree

end TurtleScript
