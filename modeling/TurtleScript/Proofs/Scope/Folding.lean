import TurtleScript.Proofs.Scope.Outline
import TurtleScript.Proofs.Tree.Folding

/-!
# Scopes do not depend on case

A scope tree is folded by folding all names in it. Everything that is asked of a tree or done
to it gives the folded answer if it is asked of the folded tree, with folded names. So the tree
of a folded program is the folded tree of the program, and what is reported for it is what is
reported for the program, with the names in it folded.
-/
namespace TurtleScript

def ScopeProblem.folded : ScopeProblem → ScopeProblem
  | .variableRedeclared name => .variableRedeclared (foldName name)
  | .functionRedeclared name params => .functionRedeclared (foldName name) params
  | .invalidName role name => .invalidName role (foldName name)
  | .malformedDeclaration name => .malformedDeclaration (foldName name)
  | .malformedParameter name => .malformedParameter (foldName name)
  | .untypedParameter position function => .untypedParameter position (foldName function)
  | .loopVariable found => .loopVariable found

def AssignmentTarget.folded : AssignmentTarget → AssignmentTarget
  | .named name => .named (foldName name)
  | .element => .element

def TypeProblem.folded : TypeProblem → TypeProblem
  | .undeclaredVariable name => .undeclaredVariable (foldName name)
  | .foreignVariable name function => .foreignVariable (foldName name) (foldName function)
  | .variableTypeUnknown name => .variableTypeUnknown (foldName name)
  | .loopVariableType name actual expected => .loopVariableType (foldName name) actual expected
  | .assignmentType source target expected => .assignmentType source target.folded expected
  | .undeclaredFunction name args => .undeclaredFunction (foldName name) args
  | .returnTypeUnknown name args => .returnTypeUnknown (foldName name) args
  | .returnTypes function known found => .returnTypes (foldName function) known found
  | .noRecord name => .noRecord (foldName name)
  | .recordMismatch name params => .recordMismatch (foldName name) params
  | p => p

def CodeProblem.folded : CodeProblem → CodeProblem
  | .unknownVariable name => .unknownVariable (foldName name)
  | .unresolvedCall name => .unresolvedCall (foldName name)
  | .noReturnType function => .noReturnType (foldName function)
  | p => p

def Problem.folded : Problem → Problem
  | .scope p => .scope p.folded
  | .typing p => .typing p.folded
  | .code p => .code p.folded
  | .image p => .image p

theorem Problem.category_folded (p : Problem) : p.folded.category = p.category := by
  cases p with
  | scope p => cases p <;> rfl
  | typing p => cases p <;> rfl
  | code => rfl
  | image => rfl

def Diagnostic.folded (d : Diagnostic) : Diagnostic := { d with problem := d.problem.folded }

/-- Folds a result or what was wrong. -/
def foldOutcome {ε α : Type} (onError : ε → ε) (onResult : α → α) : Except ε α → Except ε α
  | .ok a => .ok (onResult a)
  | .error e => .error (onError e)

def Variable.folded (v : Variable) : Variable := { v with name := foldName v.name }

def Overload.folded (o : Overload) : Overload := { o with name := foldName o.name }

/-- Variables are kept under folded names anyway. -/
def Scope.folded (s : Scope) : Scope := { s with overloads := s.overloads.map Overload.folded }

def Slot.folded (s : Slot) : Slot := { s with name := foldName s.name }

def FunctionRecord.folded (f : FunctionRecord) : FunctionRecord :=
  { f with name := foldName f.name, slots := f.slots.map Slot.folded }

namespace ScopeTree

def folded (t : ScopeTree) : ScopeTree :=
  { t with
    scopes := t.scopes.map Scope.folded
    vars := t.vars.map Variable.folded
    functions := t.functions.map FunctionRecord.folded
    issued_eq := by rw [Array.size_map, t.issued_eq] }

section Folded

variable (t : ScopeTree) (scope function : Nat) (name : String)

theorem getElem?_scopes_folded : t.folded.scopes[scope]? = (t.scopes[scope]?).map Scope.folded := by
  simp [folded]

theorem getElem?_vars_folded (id : Nat) :
    t.folded.vars[id]? = (t.vars[id]?).map Variable.folded := by
  simp [folded]

theorem getElem?_functions_folded :
    t.folded.functions[function]? = (t.functions[function]?).map FunctionRecord.folded := by
  simp [folded]

theorem ancestorsFrom_folded (fuel : Nat) :
    t.folded.ancestorsFrom fuel scope = t.ancestorsFrom fuel scope := by
  induction fuel generalizing scope with
  | zero => rfl
  | succ fuel ih =>
    rw [ancestorsFrom, ancestorsFrom, getElem?_scopes_folded]
    cases t.scopes[scope]? with
    | none => rfl
    | some s =>
      cases hparent : s.parent with
      | none => simp [Scope.folded, hparent]
      | some parent => simp [Scope.folded, hparent, ih]

theorem variableIn?_folded :
    t.folded.variableIn? (foldName name) scope = t.variableIn? name scope := by
  rw [variableIn?, variableIn?, getElem?_scopes_folded, foldName_foldName]
  cases t.scopes[scope]? <;> rfl

theorem lookupVariable?_folded :
    t.folded.lookupVariable? scope (foldName name) = t.lookupVariable? scope name := by
  rw [lookupVariable?, lookupVariable?, ancestors, ancestors, ancestorsFrom_folded]
  congr 1
  funext i
  exact variableIn?_folded t i name

theorem overloadsIn?_folded : t.folded.overloadsIn? (foldName name) scope =
    (t.overloadsIn? name scope).map (List.map Overload.folded) := by
  rw [overloadsIn?, overloadsIn?, getElem?_scopes_folded]
  cases t.scopes[scope]? with
  | none => rfl
  | some s =>
    have hfilter : (s.folded.overloads.filter (foldName ·.name = foldName (foldName name))) =
        (s.overloads.filter (foldName ·.name = foldName name)).map Overload.folded := by
      simp [Scope.folded, Overload.folded, List.filter_map, Function.comp_def]
    simp only [Option.map_some, Option.bind_eq_bind, Option.bind_some, hfilter]
    cases s.overloads.filter (foldName ·.name = foldName name) <;> rfl

theorem lookupOverloads?_folded : t.folded.lookupOverloads? scope (foldName name) =
    (t.lookupOverloads? scope name).map (List.map Overload.folded) := by
  rw [lookupOverloads?, lookupOverloads?, ancestors, ancestors, ancestorsFrom_folded]
  induction t.ancestorsFrom (scope + 1) scope with
  | nil => rfl
  | cons i is ih =>
    rw [List.findSome?_cons, List.findSome?_cons, overloadsIn?_folded]
    cases t.overloadsIn? name i with
    | none => exact ih
    | some overloads => rfl

theorem resolveCall?_folded (args : List Ty) : t.folded.resolveCall? scope (foldName name) args =
    (t.resolveCall? scope name args).map Overload.folded := by
  rw [resolveCall?, resolveCall?, lookupOverloads?_folded]
  cases t.lookupOverloads? scope name with
  | none => rfl
  | some overloads => exact List.find?_map

theorem resolveConcat?_folded (args : List Ty) :
    t.folded.resolveCall? scope Host.concatName args =
      (t.resolveCall? scope Host.concatName args).map Overload.folded := by
  have hname : foldName Host.concatName = Host.concatName := by decide +kernel
  rw [← resolveCall?_folded, hname]

theorem getVariable?_folded :
    (t.folded.lookupVariable? scope (foldName name)).bind (t.folded.vars[·]?) =
      ((t.lookupVariable? scope name).bind (t.vars[·]?)).map Variable.folded := by
  rw [lookupVariable?_folded]
  cases t.lookupVariable? scope name with
  | none => rfl
  | some id => exact getElem?_vars_folded t id

theorem variableType?_folded (id : Nat) :
    (t.folded.vars[id]?).bind (·.type) = (t.vars[id]?).bind (·.type) := by
  rw [getElem?_vars_folded]
  cases t.vars[id]? <;> rfl

theorem functionName_folded : (t.folded.functions[function]?).elim "" (·.name) =
    foldName ((t.functions[function]?).elim "" (·.name)) := by
  rw [getElem?_functions_folded]
  cases t.functions[function]? with
  | none => decide +kernel
  | some f => rfl

theorem returnType?_folded : (t.folded.functions[function]?).bind (·.returnType) =
    (t.functions[function]?).bind (·.returnType) := by
  rw [getElem?_functions_folded]
  cases t.functions[function]? <;> rfl

theorem setVariableType_folded (id : Nat) (type : Ty) :
    (t.setVariableType id type).folded = t.folded.setVariableType id type := by
  have hvars : (t.vars.modify id ({ · with type := some type })).map Variable.folded =
      t.folded.vars.modify id ({ · with type := some type }) := map_modify _ fun _ => rfl
  rw [folded, setVariableType, hvars]
  rfl

theorem setReturnType_folded (id : Nat) (type : Ty) :
    (t.setReturnType id type).folded = t.folded.setReturnType id type := by
  have hfunctions : (t.functions.modify id ({ · with returnType := some type })).map
      FunctionRecord.folded = t.folded.functions.modify id ({ · with returnType := some type }) :=
    map_modify _ fun _ => rfl
  exact ScopeTree.ext rfl rfl hfunctions rfl rfl rfl rfl rfl

theorem setParams_folded (id count : Nat) :
    (t.setParams id count).folded = t.folded.setParams id count := by
  have hfunctions : (t.functions.modify id ({ · with paramCount := count })).map
      FunctionRecord.folded = t.folded.functions.modify id ({ · with paramCount := count }) :=
    map_modify _ fun _ => rfl
  exact ScopeTree.ext rfl rfl hfunctions rfl rfl rfl rfl rfl

theorem pushScope_folded :
    t.folded.pushScope scope function = Prod.map id folded (t.pushScope scope function) := by
  simp only [folded, pushScope, Prod.map, Array.size_map, id]
  rw [map_modify (fun s : Scope => { s with children := s.children ++ [t.scopes.size] })
    fun _ => rfl, Array.map_push]
  rfl

theorem pushFunction_folded (span : Span) :
    t.folded.pushFunction (foldName name) span =
      Prod.map id folded (t.pushFunction name span) := by
  refine Prod.ext rfl (ScopeTree.ext rfl rfl ?_ rfl rfl rfl rfl rfl)
  simp only [folded, pushFunction, Prod.map, Array.map_push]
  rfl

theorem declareVariable_folded (v : Variable) : t.folded.declareVariable scope v.folded =
    foldOutcome ScopeProblem.folded (Prod.map id folded) (t.declareVariable scope v) := by
  have hin : t.folded.variableIn? v.folded.name scope = t.variableIn? v.name scope :=
    variableIn?_folded t scope v.name
  rw [declareVariable, declareVariable, hin]
  split
  · rfl
  · simp only [foldOutcome, Prod.map, id, folded, Array.size_map, Array.map_push]
    rw [map_modify (fun s : Scope => { s with vars := (foldName v.name, t.vars.size) :: s.vars })
      fun _ => rfl]
    simp only [Variable.folded, foldName_foldName]

theorem declareLocal_folded (type : Option Ty) (span : Span) :
    t.folded.declareLocal scope function (foldName name) type span =
      foldOutcome ScopeProblem.folded (Prod.map id folded)
        (t.declareLocal scope function name type span) := by
  have hslots : ((t.folded.functions[function]?).elim [] (·.slots)).length =
      ((t.functions[function]?).elim [] (·.slots)).length := by
    rw [getElem?_functions_folded]
    cases t.functions[function]? with
    | none => rfl
    | some f => exact List.length_map ..
  rw [declareLocal, declareLocal, hslots]
  have hdeclare := declareVariable_folded t scope
    ⟨name, type, .slot function ((t.functions[function]?).elim [] (·.slots)).length, span⟩
  rw [Variable.folded] at hdeclare
  rw [hdeclare]
  cases t.declareVariable scope _ with
  | error p => rfl
  | ok r =>
    have hfunctions : (r.2.functions.modify function fun f =>
        { f with slots := f.slots ++ [⟨name, r.1⟩] }).map FunctionRecord.folded = _ :=
      map_modify (fun f => { f with slots := f.slots ++ [⟨foldName name, r.1⟩] }) fun f => by
        simp [FunctionRecord.folded, Slot.folded]
    exact congrArg Except.ok
      (Prod.ext rfl (ScopeTree.ext rfl rfl hfunctions.symm rfl rfl rfl rfl rfl))

theorem declareOverload_folded (o : Overload) : t.folded.declareOverload scope o.folded =
    foldOutcome ScopeProblem.folded folded (t.declareOverload scope o) := by
  have hany : ((t.folded.overloadsIn? o.folded.name scope).getD []).any (·.params = o.params) =
      ((t.overloadsIn? o.name scope).getD []).any (·.params = o.params) := by
    have hin := overloadsIn?_folded t scope o.name
    rw [Overload.folded, hin]
    cases t.overloadsIn? o.name scope with
    | none => rfl
    | some overloads => exact List.any_map
  have hparams : o.folded.params = o.params := rfl
  rw [declareOverload, declareOverload, hparams, hany]
  split
  · rfl
  · simp only [foldOutcome, folded]
    rw [map_modify (fun s : Scope => { s with overloads := s.overloads ++ [o.folded] }) fun s => ?_]
    simp [Scope.folded]

end Folded

end ScopeTree

def HostVariable.folded (v : HostVariable) : HostVariable := { v with name := foldName v.name }

def NativeSignature.folded (n : NativeSignature) : NativeSignature :=
  { n with name := foldName n.name }

def Host.folded (h : Host) : Host where
  globals := h.globals.map HostVariable.folded
  natives := h.natives.map NativeSignature.folded

def Parameter.folded (p : Parameter) : Parameter := { p with name := foldName p.name }

namespace Building

def folded (b : Building) : Building where
  tree := b.tree.folded
  problems := b.problems.map Diagnostic.folded

variable (b : Building) (scope function : Nat)

theorem report_folded (p : ScopeProblem) (span : Span) :
    (b.report p span).folded = b.folded.report p.folded span := by
  simp only [report, folded, List.map_append]
  rfl

theorem accept_folded (span : Span) (r : Except ScopeProblem ScopeTree) :
    (b.accept span r).folded =
      b.folded.accept span (foldOutcome ScopeProblem.folded ScopeTree.folded r) := by
  cases r with
  | ok tree => rfl
  | error p => exact report_folded b p span

theorem snd_foldOutcome {α ε : Type} (onError : ε → ε) (onResult : α → α)
    (r : Except ε (Nat × α)) : Prod.snd <$> foldOutcome onError (Prod.map id onResult) r =
      foldOutcome onError onResult (Prod.snd <$> r) := by
  cases r <;> rfl

theorem declareLocal_folded (name : String) (type : Option Ty) (span : Span) :
    (b.declareLocal scope function name type span).folded =
      b.folded.declareLocal scope function (foldName name) type span := by
  have htree := ScopeTree.declareLocal_folded b.tree scope function name type span
  rw [declareLocal, accept_folded, ← snd_foldOutcome, ← htree]
  rfl

/-- Two folds that go along with folding at each step. -/
theorem foldl_folded {α : Type} (step step' : Building → α → Building) (onItem : α → α)
    (h : ∀ b a, (step b a).folded = step' b.folded (onItem a)) (items : List α) (b : Building) :
    (items.foldl step b).folded = (items.map onItem).foldl step' b.folded := by
  induction items generalizing b with
  | nil => rfl
  | cons a items ih => rw [List.foldl_cons, ih, h, List.map_cons, List.foldl_cons]

theorem declareHost_folded (h : Host) :
    (b.declareHost h).folded = b.folded.declareHost h.folded := by
  rw [declareHost, declareHost, Host.folded, List.zipIdx_map, List.zipIdx_map]
  rw [foldl_folded _ _ (Prod.map NativeSignature.folded id) fun b n => ?_,
    foldl_folded _ _ (Prod.map HostVariable.folded id) fun b v => ?_]
  · rw [accept_folded, ← snd_foldOutcome, ← ScopeTree.declareVariable_folded]
    rfl
  · rw [accept_folded, ← ScopeTree.declareOverload_folded]
    rfl

theorem openScope_folded (parent node : Nat) :
    b.folded.openScope parent function node =
      Prod.map id folded (b.openScope parent function node) := by
  have htree : b.folded.tree.pushScope parent function = _ :=
    ScopeTree.pushScope_folded b.tree parent function
  rw [openScope, openScope, htree]
  rfl

theorem declare_folded (name : String) (type : Expr) (span : Span) :
    (b.declare scope function name type span).folded =
      b.folded.declare scope function (foldName name) type span := by
  rw [declare, declare, Text.isIdentifier_foldName]
  split
  · exact report_folded ..
  · cases declaredType? type with
    | none => exact report_folded ..
    | some ty => exact declareLocal_folded ..

theorem declareLoopVariable_folded (e : Expr) :
    (b.declareLoopVariable scope function e).folded =
      b.folded.declareLoopVariable scope function e.folded := by
  cases e with
  | var l name type =>
    cases type with
    | some type => exact declare_folded ..
    | none =>
      have hlookup : b.folded.tree.lookupVariable? scope (foldName name) = _ :=
        ScopeTree.lookupVariable?_folded b.tree scope name
      rw [Expr.folded, declareLoopVariable, declareLoopVariable, hlookup,
        Text.isIdentifier_foldName]
      split
      · rfl
      · split
        · exact report_folded ..
        · exact declareLocal_folded ..
  | _ => exact report_folded ..

/-- The names of hidden locals have no case. -/
theorem declareHidden_folded (t : ScopeTree) (stem : String) (node : Nat) (type : Option Ty)
    (span : Span) (h : foldName stem = stem) :
    t.folded.declareLocal scope function (stem ++ toString node) type span =
      foldOutcome ScopeProblem.folded (Prod.map id ScopeTree.folded)
        (t.declareLocal scope function (stem ++ toString node) type span) := by
  have hname : foldName (stem ++ toString node) = stem ++ toString node := by
    rw [foldName_append, h, foldName_toString]
  have hdeclare :=
    ScopeTree.declareLocal_folded t scope function (stem ++ toString node) type span
  rwa [hname] at hdeclare

theorem declareLoopSlots_folded (l : Label) :
    (b.declareLoopSlots scope function l).folded =
      b.folded.declareLoopSlots scope function l := by
  have harray : b.folded.tree.declareLocal scope function s!"$array{l.id}" none l.span = _ :=
    declareHidden_folded scope function b.tree "$array" l.id none l.span (by decide +kernel)
  have hindex (t : ScopeTree) :
      t.folded.declareLocal scope function s!"$index{l.id}" (some .double) l.span = _ :=
    declareHidden_folded scope function t "$index" l.id (some .double) l.span (by decide +kernel)
  rw [declareLoopSlots, declareLoopSlots, harray]
  cases b.tree.declareLocal scope function s!"$array{l.id}" none l.span with
  | error p =>
    have hnext : b.folded.tree.declareLocal scope function s!"$index{l.id}" (some .double)
      l.span = _ := hindex b.tree
    dsimp only [foldOutcome, Except.toOption, Option.elim]
    rw [hnext]
    cases b.tree.declareLocal scope function s!"$index{l.id}" (some .double) l.span <;>
      exact (accept_folded ..).trans (congrArg (accept · l.span _) (accept_folded ..))
  | ok array =>
    have hnext : (Prod.map id ScopeTree.folded array).2.declareLocal scope function
      s!"$index{l.id}" (some .double) l.span = _ := hindex array.2
    dsimp only [foldOutcome, Except.toOption, Option.elim]
    rw [hnext]
    cases array.2.declareLocal scope function s!"$index{l.id}" (some .double) l.span with
    | error p =>
      exact (accept_folded ..).trans (congrArg (accept · l.span _) (accept_folded ..))
    | ok index => rfl

theorem checkParameter_folded (name : String) (position : Nat) (e : Expr) :
    checkParameter (foldName name) position e.folded =
      foldOutcome Diagnostic.folded Parameter.folded (checkParameter name position e) := by
  cases e with
  | var l param type =>
    cases type with
    | none => rfl
    | some type =>
      rw [Expr.folded, checkParameter, checkParameter]
      cases declaredType? type with
      | none => rfl
      | some ty =>
        simp only [Text.isIdentifier_foldName]
        split <;> rfl
  | _ => rfl

/-- What is found for each parameter. -/
def findings (name : String) (params : List Expr) : List (Except Diagnostic Parameter) :=
  params.zipIdx.map fun (p, position) => checkParameter name position p

def finding? : Except Diagnostic Parameter → Option Diagnostic
  | .error d => some d
  | .ok _ => none

theorem checkParameters_eq (name : String) (params : List Expr) : checkParameters name params =
    match (findings name params).filterMap finding? with
    | [] => .ok ((findings name params).filterMap Except.toOption)
    | problems => .error problems := rfl

theorem findings_folded (name : String) (params : List Expr) :
    findings (foldName name) (params.map Expr.folded) =
      (findings name params).map (foldOutcome Diagnostic.folded Parameter.folded) := by
  rw [findings, findings, List.zipIdx_map, List.map_map, List.map_map]
  exact List.map_congr_left fun _ _ => checkParameter_folded ..

theorem filterMap_folded {α : Type} (pick : Except Diagnostic Parameter → Option α)
    (onPick : α → α) (found : List (Except Diagnostic Parameter))
    (h : ∀ r, pick (foldOutcome Diagnostic.folded Parameter.folded r) = (pick r).map onPick) :
    (found.map (foldOutcome Diagnostic.folded Parameter.folded)).filterMap pick =
      (found.filterMap pick).map onPick := by
  rw [List.filterMap_map, List.map_filterMap]
  exact congrArg (List.filterMap · found) (funext h)

theorem checkParameters_folded (name : String) (params : List Expr) :
    checkParameters (foldName name) (params.map Expr.folded) =
      foldOutcome (List.map Diagnostic.folded) (List.map Parameter.folded)
        (checkParameters name params) := by
  rw [checkParameters_eq, checkParameters_eq, findings_folded,
    filterMap_folded finding? Diagnostic.folded _ fun r => by cases r <;> rfl,
    filterMap_folded Except.toOption Parameter.folded _ fun r => by cases r <;> rfl]
  cases (findings name params).filterMap finding? <;> rfl

theorem declareParams_folded (params : List Parameter) :
    (b.declareParams scope function params).folded =
      b.folded.declareParams scope function (params.map Parameter.folded) :=
  foldl_folded _ _ _ (fun _ _ => declareLocal_folded ..) params b

theorem offerFunction_folded (l : Label) (name : String) (types : List Ty) :
    (b.offerFunction scope l name types).folded =
      b.folded.offerFunction scope l (foldName name) types := by
  have hsize : b.folded.tree.functions.size = b.tree.functions.size := Array.size_map ..
  have hpush : b.folded.tree.pushFunction (foldName name) l.span = _ :=
    ScopeTree.pushFunction_folded b.tree name l.span
  have hregister : b.folded.registerFunction l (foldName name) =
      (b.registerFunction l name).folded := by
    rw [registerFunction, registerFunction, hsize, hpush]
    rfl
  rw [offerFunction, offerFunction, hregister, hsize, accept_folded]
  exact congrArg _ (ScopeTree.declareOverload_folded _ scope ⟨name, types, _⟩).symm

theorem openBody_folded (id node : Nat) (params : List Parameter) :
    (b.openBody scope id node params).folded =
      b.folded.openBody scope id node (params.map Parameter.folded) := by
  have hsize : b.folded.tree.scopes.size = b.tree.scopes.size := Array.size_map ..
  rw [openBody, openBody, openScope_folded, hsize, List.length_map]
  simp only [Prod.map, ← declareParams_folded]
  rw [folded, ScopeTree.setParams_folded]
  rfl

theorem openFunction_folded (l : Label) (name : String) (params : List Expr) :
    b.folded.openFunction scope l (foldName name) (params.map Expr.folded) =
      Prod.map id folded (b.openFunction scope l name params) := by
  have hparams := checkParameters_folded name params
  cases hname : Text.isIdentifier name with
  | false =>
    rw [openFunction, openFunction, Text.isIdentifier_foldName, hname]
    exact congrArg (Prod.mk none) (report_folded b (.invalidName .ofFunction name) l.span).symm
  | true =>
    have hname' : Text.isIdentifier (foldName name) = true := by
      rw [Text.isIdentifier_foldName, hname]
    cases hchecked : checkParameters name params with
    | error problems =>
      rw [hchecked] at hparams
      rw [openFunction, openFunction, hname, hname', hparams, hchecked]
      simp [foldOutcome, folded]
    | ok checked =>
      rw [hchecked] at hparams
      have htypes : (checked.map Parameter.folded).map (·.type) = checked.map (·.type) := by
        rw [List.map_map]
        rfl
      have hsize : b.folded.tree.functions.size = b.tree.functions.size := Array.size_map ..
      rw [openFunction_of_checked hname hchecked, openFunction_of_checked hname' hparams, htypes,
        hsize, ← offerFunction_folded]
      refine Prod.ext ?_ (openBody_folded ..).symm
      exact congrArg (fun n => some (n, b.tree.functions.size)) (Array.size_map ..)

/-- Visiting the folded node is visiting the node and folding. -/
def Folds (e : Expr) : Prop :=
  ∀ scope function b, (visit scope function e b).folded = visit scope function e.folded b.folded

theorem visitList_folded {es : List Expr} (h : ∀ e ∈ es, Folds e) :
    (visitList scope function es b).folded =
      visitList scope function (Expr.foldedList es) b.folded := by
  induction es generalizing b with
  | nil => rfl
  | cons e es ih =>
    rw [visitList, ih _ fun e he => h e (List.mem_cons_of_mem _ he), h e List.mem_cons_self]
    rfl

theorem visitOption_folded {o : Option Expr} (h : ∀ e, o = some e → Folds e) :
    (visitOption scope function o b).folded =
      visitOption scope function (Expr.foldedOption o) b.folded := by
  cases o with
  | none => rfl
  | some e => exact h e rfl _ _ _

theorem visit_folded (e : Expr) : Folds e := by
  induction e using Expr.children_induction with
  | step e ih =>
    intro scope function b
    cases e with
    | constant => rfl
    | var l name type =>
      cases type with
      | none => rfl
      | some type => exact declare_folded ..
    | binary l op x y =>
      rw [visit, ih y (by simp), ih x (by simp)]
      rfl
    | function l name params body =>
      rw [visit, Expr.folded, Expr.foldedList_eq, visit, openFunction_folded]
      cases b.openFunction scope l name params with
      | mk opened b₁ =>
        cases opened with
        | none => rfl
        | some place => exact ih body (by simp) ..
    | block l body =>
      rw [visit, Expr.folded, visit, openScope_folded]
      exact visitList_folded _ _ _ ih
    | cond l c t e =>
      rw [visit, visitOption_folded _ _ _ fun x hx => ih x (by simp [hx]),
        ih t (by simp), ih c (by simp)]
      rfl
    | forLoop l init condition step body =>
      rw [visit, Expr.folded, visit, openScope_folded]
      dsimp only [Prod.map, id]
      rw [ih body (by simp),
        visitOption_folded _ _ _ fun x hx => ih x (by simp [hx]),
        visitOption_folded _ _ _ fun x hx => ih x (by simp [hx]),
        visitOption_folded _ _ _ fun x hx => ih x (by simp [hx])]
    | forTo l counter start bound direction body =>
      rw [visit, Expr.folded, visit, openScope_folded]
      dsimp only [Prod.map, id]
      rw [ih body (by simp), ih bound (by simp),
        ih start (by simp), declareLoopVariable_folded]
    | forIn l item iterable body =>
      rw [visit, Expr.folded, visit, openScope_folded]
      dsimp only [Prod.map, id]
      rw [ih body (by simp), ih iterable (by simp),
        declareLoopSlots_folded, declareLoopVariable_folded]
    | whileLoop l c body =>
      rw [visit, ih body (by simp), ih c (by simp)]
      rfl
    | repeatUntil l body c =>
      rw [visit, ih c (by simp), ih body (by simp)]
      rfl
    | call l name args => exact visitList_folded _ _ _ ih
    | ret l value => exact visitOption_folded _ _ _ fun x hx => ih x (by simp [hx])
    | paren l inner => exact ih inner (by simp) ..
    | element l target index =>
      rw [visit, visitOption_folded _ _ _ fun x hx => ih x (by simp [hx]),
        ih target (by simp)]
      rfl
    | array l elements => exact visitList_folded _ _ _ ih

end Building

namespace ScopeTree

theorem entered_folded (t : ScopeTree) (span : Span) :
    (t.entered span).folded = t.folded.entered span := by
  have hmain : foldName "main" = "main" := by decide +kernel
  have hpush := pushFunction_folded t "main" span
  rw [hmain] at hpush
  rw [entered, entered, hpush]
  simp only [Prod.map, id_eq, ← setReturnType_folded, pushScope_folded]
  rfl

/-- The walk over a program that is no block. -/
theorem visit_entered_folded (b : Building) (span : Span) (e : Expr) :
    (Building.visit (b.tree.entered span).program b.tree.issued e
        ⟨b.tree.entered span, b.problems⟩).folded =
      Building.visit (b.folded.tree.entered span).program b.folded.tree.issued e.folded
        ⟨b.folded.tree.entered span, b.folded.problems⟩ := by
  have hissued : b.folded.tree.issued = b.tree.issued := rfl
  have hentered : b.folded.tree.entered span = (b.tree.entered span).folded :=
    (entered_folded ..).symm
  rw [Building.visit_folded, hentered, hissued]
  rfl

/-- The walk over a block, whose scope is the program's. -/
theorem visitList_entered_folded (b : Building) (span : Span) (l : Label) (es : List Expr) :
    (Building.visitList (b.tree.entered span).program b.tree.issued es
        ⟨(b.tree.entered span).bindNode l.id (b.tree.entered span).program, b.problems⟩).folded =
      Building.visitList (b.folded.tree.entered span).program b.folded.tree.issued
        (Expr.foldedList es) ⟨(b.folded.tree.entered span).bindNode l.id
          (b.folded.tree.entered span).program, b.folded.problems⟩ := by
  have hissued : b.folded.tree.issued = b.tree.issued := rfl
  have hentered : b.folded.tree.entered span = (b.tree.entered span).folded :=
    (entered_folded ..).symm
  rw [Building.visitList_folded _ _ _ fun e _ => Building.visit_folded e, hentered, hissued]
  rfl

/-- The tree of a folded program with a folded host is the folded tree. -/
theorem build_folded (p : Program) (h : Host) : (build p h).folded = build p.folded h.folded := by
  have hempty : ({} : Building).folded = {} := by
    simp [Building.folded, ScopeTree.folded, Scope.folded]
  have hhost := Building.declareHost_folded {} h
  rw [hempty] at hhost
  obtain ⟨body, count⟩ := p
  cases body with
  | block l es =>
    refine (visitList_entered_folded _ l.span l es).trans ?_
    rw [hhost]
    rfl
  | _ =>
    refine (visit_entered_folded _ _ _).trans ?_
    rw [hhost]
    rfl

end ScopeTree

end TurtleScript
