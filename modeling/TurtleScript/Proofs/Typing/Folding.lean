import TurtleScript.Proofs.Monad
import TurtleScript.Proofs.Scope.Folding
import TurtleScript.Typing.Resolve

/-!
# Types do not depend on case

The resolver reads names only to look them up in the tree and to report them. So it does with
a folded program in a folded tree what it does with the program: it finds the same types and
fixes the same open ones, or it stops at the same place with the same problem, in which the
names are folded.
-/
namespace TurtleScript

/-- In the folded state `y` does what `x` does, with the result or the diagnostic folded. -/
def FoldsTo {σ α : Type} (onState : σ → σ) (onResult : α → α) (x y : EStateM Diagnostic σ α) :
    Prop :=
  ∀ s, y (onState s) = match x s with
    | .ok a s' => .ok (onResult a) (onState s')
    | .error d s' => .error d.folded (onState s')

namespace FoldsTo

variable {σ α β : Type} {onState : σ → σ} {onResult : α → α} {onResult' : β → β}
  {x x' y y' : EStateM Diagnostic σ α} {f f' : α → EStateM Diagnostic σ β}

theorem bindMap (hx : FoldsTo onState onResult x x')
    (hf : ∀ a, FoldsTo onState onResult' (f a) (f' (onResult a))) :
    FoldsTo onState onResult' (x >>= f) (x' >>= f') := by
  intro s
  rw [EStateM.bind_apply, EStateM.bind_apply, hx s]
  cases x s with
  | ok a s' => exact hf a s'
  | error d s' => rfl

/-- A result without names is the same on both sides. -/
theorem bind (hx : FoldsTo onState id x x')
    (hf : ∀ a, FoldsTo onState onResult' (f a) (f' a)) :
    FoldsTo onState onResult' (x >>= f) (x' >>= f') := hx.bindMap hf

theorem pure (a : α) : FoldsTo onState onResult (pure a) (pure (onResult a)) := fun _ => rfl

theorem throw (d : Diagnostic) :
    FoldsTo onState onResult (throw d) (throw d.folded) := fun _ => rfl

theorem ite {c : Prop} [Decidable c] (hx : FoldsTo onState onResult x x')
    (hy : FoldsTo onState onResult y y') :
    FoldsTo onState onResult (if c then x else y) (if c then x' else y') := by
  split
  · exact hx
  · exact hy

theorem discard (hx : FoldsTo onState onResult x x') :
    FoldsTo onState id (discard x) (discard x') := by
  intro s
  rw [EStateM.discard_apply, EStateM.discard_apply, hx s]
  cases x s <;> rfl

theorem get {f f' : σ → EStateM Diagnostic σ β}
    (hf : ∀ s, FoldsTo onState onResult' (f s) (f' (onState s))) :
    FoldsTo onState onResult' (get >>= f) (get >>= f') :=
  have hget : FoldsTo onState onState (MonadState.get : EStateM Diagnostic σ σ)
    MonadState.get := fun _ => rfl
  hget.bindMap hf

end FoldsTo

/-- Types have no names. -/
def Typing.folded (s : Typing) : Typing := { s with tree := s.tree.folded }

namespace Resolve

def Context.folded (c : Context) : Context := { c with host := c.host.folded }

variable {α β : Type} {onResult : α → α} {onResult' : β → β}

theorem fail_folded (p : TypeProblem) (span : Span) :
    FoldsTo Typing.folded onResult (fail p span) (fail p.folded span) := fun _ => rfl

/-- The problems of a node are those of the folded node. -/
theorem failAt_folded (p : TypeProblem) (e : Expr) :
    FoldsTo Typing.folded onResult (fail p e.span) (fail p.folded e.folded.span) := by
  rw [Expr.span_folded]
  exact fail_folded p e.span

theorem failing_folded {f f' : β → Resolve α} (p : TypeProblem) (span : Span) :
    FoldsTo Typing.folded onResult (fail p span >>= f) (fail p.folded span >>= f') := fun _ => rfl

theorem failingAt_folded {f f' : β → Resolve α} (p : TypeProblem) (e : Expr) :
    FoldsTo Typing.folded onResult (fail p e.span >>= f) (fail p.folded e.folded.span >>= f') := by
  rw [Expr.span_folded]
  exact failing_folded p e.span

theorem orFail_folded (p : TypeProblem) (span : Span) (o : Option α) :
    FoldsTo Typing.folded onResult (orFail p span o) (orFail p.folded span (o.map onResult)) := by
  cases o with
  | none => exact fail_folded p span
  | some a => exact .pure a

theorem orFail_same (p : TypeProblem) (span : Span) (o : Option α) :
    FoldsTo Typing.folded id (orFail p span o) (orFail p.folded span o) := by
  have h : FoldsTo Typing.folded id (orFail p span o) (orFail p.folded span (o.map id)) :=
    orFail_folded p span o
  rwa [Option.map_id_apply] at h

theorem tree_folded {f f' : ScopeTree → Resolve β}
    (hf : ∀ t, FoldsTo Typing.folded onResult' (f t) (f' t.folded)) :
    FoldsTo Typing.folded onResult' (tree >>= f) (tree >>= f') :=
  have htree : FoldsTo Typing.folded ScopeTree.folded tree tree := fun _ => rfl
  htree.bindMap hf

theorem record_folded (node : Nat) (type : Ty) :
    FoldsTo Typing.folded id (record node type) (record node type) := fun _ => rfl

theorem modifyTree_folded {f : ScopeTree → ScopeTree} (h : ∀ t, (f t).folded = f t.folded) :
    FoldsTo Typing.folded id (modify fun s : Typing => { s with tree := f s.tree })
      (modify fun s : Typing => { s with tree := f s.tree }) := by
  intro s
  change EStateM.Result.ok _ (Typing.mk (f s.tree.folded) s.types s.visits) =
    EStateM.Result.ok _ (Typing.mk (f s.tree).folded s.types s.visits)
  rw [h]

/-- The folded walk asks the same questions. -/
theorem polled_folded {c : Context} {span : Span} {f f' : Unit → Resolve α}
    (h : FoldsTo Typing.folded onResult (f ()) (f' ())) :
    FoldsTo Typing.folded onResult (poll c span >>= f) (poll c.folded span >>= f') := by
  have hcount : FoldsTo Typing.folded id
      (modifyGet fun s : Typing => (s.visits, { s with visits := s.visits + 1 }))
      (modifyGet fun s : Typing => (s.visits, { s with visits := s.visits + 1 })) := fun _ => rfl
  have hpoll : FoldsTo Typing.folded id (poll c span) (poll c.folded span) :=
    hcount.bind fun _ => .ite (fail_folded .cancelled span) (.pure ())
  exact hpoll.bind fun _ => h

theorem within_folded (c : Context) (e : Expr) :
    FoldsTo Typing.folded Context.folded (within c e) (within c.folded e.folded) := by
  refine tree_folded fun t => ?_
  rw [Expr.kindName_folded, Expr.span_folded, Expr.id_folded]
  exact (orFail_same (.noScope e.kindName) e.span (t.scopeOf? e.id)).bind fun scope => .pure _

theorem variableType_folded (c : Context) (name : String) (span : Span) :
    FoldsTo Typing.folded id (variableType c name span)
      (variableType c.folded (foldName name) span) := by
  refine tree_folded fun t => ?_
  have hvariable : (t.folded.lookupVariable? c.folded.scope (foldName name)).bind
    (t.folded.vars[·]?) = _ := t.getVariable?_folded c.scope name
  rw [hvariable]
  cases (t.lookupVariable? c.scope name).bind (t.vars[·]?) with
  | none => exact fail_folded (.undeclaredVariable name) span
  | some v =>
    obtain ⟨vname, type, storage, vspan⟩ := v
    have hend := orFail_same (.variableTypeUnknown name) span type
    cases storage with
    | global index => exact hend
    | slot function slot =>
      dsimp only [Option.map_some, Variable.folded, Context.folded]
      rw [ScopeTree.functionName_folded]
      exact .ite (failing_folded (.foreignVariable name _) span) hend

theorem loopVariable_folded (c : Context) (e : Expr) (expected : Ty) :
    FoldsTo Typing.folded id (loopVariable c e expected)
      (loopVariable c.folded e.folded expected) := by
  cases e with
  | var l name d =>
    refine tree_folded fun t => ?_
    have hlookup : t.folded.lookupVariable? c.folded.scope (foldName name) = _ :=
      ScopeTree.lookupVariable?_folded t c.scope name
    rw [hlookup]
    refine (orFail_same (.undeclaredVariable name) l.span _).bind fun var => ?_
    have hend : FoldsTo Typing.folded id
        (do poll c l.span; record l.id (← variableType c name l.span))
        (do poll c.folded l.span; record l.id (← variableType c.folded (foldName name) l.span)) :=
      polled_folded ((variableType_folded c name l.span).bind (record_folded l.id))
    rw [ScopeTree.variableType?_folded]
    cases (t.vars[var]?).bind (·.type) with
    | none =>
      exact (modifyTree_folded fun t =>
        ScopeTree.setVariableType_folded t var expected).bind fun _ => hend
    | some actual =>
      exact .ite (failing_folded (.loopVariableType name actual expected) l.span) hend
  | _ => exact fail_folded .loopVariableKind _

theorem operatorType_folded (c : Context) (op : BinaryOp) (left right : Ty) (span : Span) :
    FoldsTo Typing.folded id (operatorType c op left right span)
      (operatorType c.folded op left right span) := by
  have hmismatch (expected : OperandClass) : FoldsTo Typing.folded (id : Ty → Ty)
      (fail (.operands op expected left right) span)
      (fail (.operands op expected left right) span) :=
    fail_folded (.operands op expected left right) span
  cases op with
  | add =>
    refine .ite (hmismatch _) (.ite (.ite (tree_folded fun t => ?_) (hmismatch _))
      (.ite (.pure _) (hmismatch _)))
    have hconcat : t.folded.resolveCall? c.folded.scope Host.concatName [left, right] = _ :=
      t.resolveConcat?_folded c.scope [left, right]
    rw [hconcat]
    cases t.resolveCall? c.scope Host.concatName [left, right] with
    | none => exact fail_folded (.noConcatenation [left, right]) span
    | some o => exact .pure _
  | equal | assign => exact .pure _
  | _ => exact .ite (.pure _) (hmismatch _)

theorem assignmentTarget_folded (e : Expr) :
    FoldsTo Typing.folded AssignmentTarget.folded (assignmentTarget e)
      (assignmentTarget e.folded) := by
  cases e with
  | var l name d => exact .pure _
  | element l target index =>
    cases index with
    | none => exact fail_folded (.assignmentKind _) _
    | some index => exact .pure _
  | _ => exact fail_folded (.assignmentKind _) _

theorem assignmentType_folded (dest source : Ty) (target : AssignmentTarget) (span : Span) :
    FoldsTo Typing.folded id (assignmentType dest source target span)
      (assignmentType dest source target.folded span) :=
  .ite (.pure _) (fail_folded (.assignmentType source target dest) span)

theorem callType_folded (c : Context) (name : String) (args : List Ty) (span : Span) :
    FoldsTo Typing.folded id (callType c name args span)
      (callType c.folded (foldName name) args span) := by
  refine tree_folded fun t => ?_
  have hcall : t.folded.resolveCall? c.folded.scope (foldName name) args = _ :=
    ScopeTree.resolveCall?_folded t c.scope name args
  rw [hcall]
  refine (orFail_folded (.undeclaredFunction name args) span _).bindMap fun o => ?_
  obtain ⟨oname, params, callee⟩ := o
  cases callee with
  | native index =>
    have hreturn : (c.folded.host.natives[index]?).map (·.returnType) =
        (c.host.natives[index]?).map (·.returnType) := by
      simp [Context.folded, Host.folded, NativeSignature.folded, Function.comp_def]
    dsimp only [Overload.folded]
    rw [hreturn]
    exact orFail_same (.nativeMissing index) span _
  | script id =>
    dsimp only [Overload.folded]
    rw [ScopeTree.returnType?_folded]
    exact orFail_same (.returnTypeUnknown name args) span _

theorem settleReturn_folded (clashes : Ty → Bool) (function : Nat) (type : Ty) (span : Span) :
    FoldsTo Typing.folded id (settleReturn clashes function type span)
      (settleReturn clashes function type span) := by
  refine tree_folded fun t => ?_
  dsimp only
  rw [ScopeTree.returnType?_folded, ScopeTree.functionName_folded]
  cases (t.functions[function]?).bind (·.returnType) with
  | none => exact modifyTree_folded fun t => ScopeTree.setReturnType_folded t function type
  | some known => exact .ite (fail_folded (.returnTypes _ known type) span) (.pure _)

theorem bodyType_folded (function : Nat) (type : Ty) (body : Expr) : FoldsTo Typing.folded id
    (bodyType function type body.span) (bodyType function type body.folded.span) := by
  rw [Expr.span_folded]
  exact settleReturn_folded _ function type body.span

theorem requireBoolean_folded (type : Ty) (e : Expr) :
    FoldsTo Typing.folded id (requireBoolean type e.span) (requireBoolean type e.folded.span) :=
  .ite (.pure _) (failAt_folded (.conditionType type) e)

theorem requireNumberBound_folded (type : Ty) (e : Expr) : FoldsTo Typing.folded id
    (requireNumberBound type e.span) (requireNumberBound type e.folded.span) :=
  .ite (.pure _) (failAt_folded (.boundType type) e)

theorem iterableElement_folded (type : Ty) (e : Expr) :
    FoldsTo Typing.folded id (iterableElement type e.span) (iterableElement type e.folded.span) := by
  cases type with
  | array element =>
    cases element with
    | empty => exact failAt_folded .iterableEmpty e
    | _ => exact .pure _
  | _ => exact failAt_folded (.iterableType _) e

theorem indexedElement_folded (type : Ty) (e : Expr) :
    FoldsTo Typing.folded id (indexedElement type e.span) (indexedElement type e.folded.span) := by
  cases type with
  | array element => exact .pure _
  | _ => exact failAt_folded (.indexedType _) e

theorem joinElement_folded (known : Option Ty) (type : Ty) (e : Expr) : FoldsTo Typing.folded id
    (joinElement known type e.span) (joinElement known type e.folded.span) := by
  cases known with
  | none => exact .ite (failAt_folded .elementWithoutValue e) (.pure _)
  | some expected => exact .ite (.pure _) (failAt_folded (.elementTypes expected type) e)

theorem lastType_folded (body : List Expr) :
    FoldsTo Typing.folded id (lastType body) (lastType (Expr.foldedList body)) := by
  intro s
  have hlast : ((Expr.foldedList body).getLast?.bind fun last => s.types.lookup last.id) =
      body.getLast?.bind fun last => s.types.lookup last.id := by
    rw [Expr.foldedList_eq, List.getLast?_map]
    cases body.getLast? with
    | none => rfl
    | some last => exact congrArg (fun node => s.types.lookup node) (Expr.id_folded last)
  exact congrArg (fun type => EStateM.Result.ok (Option.getD type .empty) s.folded) hlast

-- one equation for each kind of node, which the lemmas below go by
attribute [simp] visit

/-- The walk over the folded node is the walk over the node, folded. -/
def FoldsNode (e : Expr) : Prop :=
  ∀ c, FoldsTo Typing.folded id (visit c e) (visit c.folded e.folded)

section Lists

variable {es : List Expr} (h : ∀ e ∈ es, FoldsNode e) (c : Context)

include h

theorem visitMembers_folded (functions : Bool) : FoldsTo Typing.folded id
    (visitMembers c functions es) (visitMembers c.folded functions (Expr.foldedList es)) := by
  induction es with
  | nil => exact .pure _
  | cons e es ih =>
    obtain ⟨he, hes⟩ := List.forall_mem_cons.mp h
    rw [Expr.foldedList, visitMembers, visitMembers, Expr.isFunction_folded]
    exact .ite ((he c).discard.bind fun _ => ih hes) (ih hes)

theorem visitAll_folded : FoldsTo Typing.folded id
    (visitAll c es) (visitAll c.folded (Expr.foldedList es)) := by
  induction es with
  | nil => exact .pure _
  | cons e es ih =>
    obtain ⟨he, hes⟩ := List.forall_mem_cons.mp h
    rw [Expr.foldedList, visitAll, visitAll]
    exact (he c).bind fun type => (ih hes).bind fun types => .pure _

theorem visitElements_folded (known : Option Ty) : FoldsTo Typing.folded id
    (visitElements c known es) (visitElements c.folded known (Expr.foldedList es)) := by
  induction es generalizing known with
  | nil => exact .pure _
  | cons e es ih =>
    obtain ⟨he, hes⟩ := List.forall_mem_cons.mp h
    rw [Expr.foldedList, visitElements, visitElements]
    exact (he c).bind fun type => (joinElement_folded known type e).bind fun joined =>
      ih hes (some joined)

end Lists

theorem visitOption_folded {o : Option Expr} (h : ∀ e, o = some e → FoldsNode e) (c : Context) :
    FoldsTo Typing.folded id (visitOption c o) (visitOption c.folded (Expr.foldedOption o)) := by
  cases o with
  | none => exact .pure _
  | some e => exact (h e rfl c).discard

/-- The end of the walk over a node. -/
theorem recorded_folded (node : Nat) (type : Ty) : FoldsTo Typing.folded id
    (record node type >>= fun _ => pure type) (record node type >>= fun _ => pure type) :=
  (record_folded node type).bind fun _ => .pure type

theorem visit_constant_folded (l : Label) (value : Literal) : FoldsNode (.constant l value) := by
  intro c
  cases value with
  | boolean | number | string =>
    rw [Expr.folded, visit, visit]
    exact polled_folded (recorded_folded l.id _)

theorem visit_var_folded (l : Label) (name : String) (d : Option Expr) :
    FoldsNode (.var l name d) := by
  intro c
  rw [Expr.folded, visit, visit]
  exact polled_folded ((variableType_folded c name l.span).bind (recorded_folded l.id))

theorem visit_binary_folded (l : Label) (op : BinaryOp) {left right : Expr}
    (hleft : FoldsNode left) (hright : FoldsNode right) : FoldsNode (.binary l op left right) := by
  intro c
  rw [Expr.folded, visit, visit]
  refine polled_folded ?_
  dsimp only
  refine .ite ?_ ?_
  · exact (assignmentTarget_folded left).bindMap fun target => (hleft c).bind fun dest =>
      (hright c).bind fun source =>
        (assignmentType_folded dest source target l.span).bind (recorded_folded l.id)
  · exact (hleft c).bind fun a => (hright c).bind fun b =>
      (operatorType_folded c op a b l.span).bind (recorded_folded l.id)

theorem visit_function_folded (l : Label) (name : String) {params : List Expr} {body : Expr}
    (hparams : ∀ e ∈ params, FoldsNode e) (hbody : FoldsNode body) :
    FoldsNode (.function l name params body) := by
  intro c
  have hwithin := within_folded c (.function l name params body)
  rw [Expr.folded] at hwithin ⊢
  rw [visit, visit]
  refine polled_folded (tree_folded fun t => ?_)
  refine (orFail_same (.noRecord name) l.span (t.functionOf? l.id)).bind fun function => ?_
  refine hwithin.bindMap fun inner => ?_
  refine (visitAll_folded hparams { inner with function }).bind fun types =>
    tree_folded fun t => ?_
  have hrest : FoldsTo Typing.folded id
      (do
        bodyType function (← visit { inner with function } body) body.span
        record l.id Ty.empty
        return Ty.empty)
      (do
        bodyType function (← visit { inner.folded with function } body.folded) body.folded.span
        record l.id Ty.empty
        return Ty.empty) :=
    (hbody { inner with function }).bind fun type =>
      (bodyType_folded function type body).bind fun _ => recorded_folded l.id .empty
  have hcall : t.folded.resolveCall? c.folded.scope (foldName name) types = _ :=
    ScopeTree.resolveCall?_folded t c.scope name types
  rw [hcall]
  cases t.resolveCall? c.scope name types with
  | none => exact failing_folded (.recordMismatch name types) l.span
  | some o =>
    obtain ⟨oname, oparams, callee⟩ := o
    cases callee with
    | native => exact failing_folded (.recordMismatch name types) l.span
    | script found => exact .ite (failing_folded (.recordMismatch name types) l.span) hrest

theorem visit_block_folded (l : Label) {body : List Expr} (h : ∀ e ∈ body, FoldsNode e) :
    FoldsNode (.block l body) := by
  intro c
  have hwithin := within_folded c (.block l body)
  rw [Expr.folded] at hwithin ⊢
  rw [visit, visit]
  exact polled_folded (hwithin.bindMap fun inner =>
    (visitMembers_folded h inner true).bind fun _ =>
      (visitMembers_folded h inner false).bind fun _ =>
        (lastType_folded body).bind (recorded_folded l.id))

theorem visit_cond_folded (l : Label) {condition branch : Expr} {other : Option Expr}
    (hcondition : FoldsNode condition) (hbranch : FoldsNode branch)
    (hother : ∀ e, other = some e → FoldsNode e) :
    FoldsNode (.cond l condition branch other) := by
  intro c
  rw [Expr.folded, visit, visit]
  refine polled_folded ((hcondition c).bind fun type =>
    (requireBoolean_folded type condition).bind fun _ => (hbranch c).bind fun type => ?_)
  cases other with
  | none => exact recorded_folded l.id type
  | some other =>
    refine (hother other rfl c).bind fun otherType => .ite (recorded_folded l.id type) ?_
    exact failing_folded (.branchTypes type otherType) l.span

theorem visit_forLoop_folded (l : Label) {init condition step : Option Expr} {body : Expr}
    (hinit : ∀ e, init = some e → FoldsNode e)
    (hcondition : ∀ e, condition = some e → FoldsNode e)
    (hstep : ∀ e, step = some e → FoldsNode e) (hbody : FoldsNode body) :
    FoldsNode (.forLoop l init condition step body) := by
  intro c
  have hwithin := within_folded c (.forLoop l init condition step body)
  rw [Expr.folded] at hwithin ⊢
  rw [visit, visit]
  refine polled_folded (hwithin.bindMap fun inner =>
    (visitOption_folded hinit inner).bind fun _ => ?_)
  have hrest : FoldsTo Typing.folded id
      (do
        visitOption inner step
        discard (visit inner body)
        record l.id Ty.empty
        return Ty.empty)
      (do
        visitOption inner.folded (Expr.foldedOption step)
        discard (visit inner.folded body.folded)
        record l.id Ty.empty
        return Ty.empty) :=
    (visitOption_folded hstep inner).bind fun _ => (hbody inner).discard.bind fun _ =>
      recorded_folded l.id .empty
  cases condition with
  | none => exact hrest
  | some condition =>
    exact (hcondition condition rfl inner).bind fun type =>
      (requireBoolean_folded type condition).bind fun _ => hrest

theorem visit_forTo_folded (l : Label) (counter : Expr) (direction : Direction)
    {start bound body : Expr} (hstart : FoldsNode start) (hbound : FoldsNode bound)
    (hbody : FoldsNode body) : FoldsNode (.forTo l counter start bound direction body) := by
  intro c
  have hwithin := within_folded c (.forTo l counter start bound direction body)
  rw [Expr.folded] at hwithin ⊢
  rw [visit, visit]
  exact polled_folded (hwithin.bindMap fun inner =>
    (loopVariable_folded inner counter .double).bind fun _ => (hstart inner).bind fun type =>
      (requireNumberBound_folded type start).bind fun _ => (hbound inner).bind fun type =>
        (requireNumberBound_folded type bound).bind fun _ =>
          (hbody inner).discard.bind fun _ => recorded_folded l.id .empty)

theorem visit_forIn_folded (l : Label) (item : Expr) {iterable body : Expr}
    (hiterable : FoldsNode iterable) (hbody : FoldsNode body) :
    FoldsNode (.forIn l item iterable body) := by
  intro c
  have hwithin := within_folded c (.forIn l item iterable body)
  rw [Expr.folded] at hwithin ⊢
  rw [visit, visit]
  refine polled_folded (hwithin.bindMap fun inner => (hiterable inner).bind fun type =>
    (iterableElement_folded type iterable).bind fun element =>
      (loopVariable_folded inner item element).bind fun _ => tree_folded fun t => ?_)
  refine (orFail_same .noLoopSlots l.span (t.loopSlotsOf? l.id)).bind fun slots => ?_
  exact (modifyTree_folded fun t => ScopeTree.setVariableType_folded t slots.array type).bind
    fun _ => (hbody inner).discard.bind fun _ => recorded_folded l.id .empty

theorem visit_whileLoop_folded (l : Label) {condition body : Expr}
    (hcondition : FoldsNode condition) (hbody : FoldsNode body) :
    FoldsNode (.whileLoop l condition body) := by
  intro c
  rw [Expr.folded, visit, visit]
  exact polled_folded ((hcondition c).bind fun type =>
    (requireBoolean_folded type condition).bind fun _ => (hbody c).discard.bind fun _ =>
      recorded_folded l.id .empty)

theorem visit_repeatUntil_folded (l : Label) {body condition : Expr}
    (hbody : FoldsNode body) (hcondition : FoldsNode condition) :
    FoldsNode (.repeatUntil l body condition) := by
  intro c
  rw [Expr.folded, visit, visit]
  exact polled_folded ((hbody c).discard.bind fun _ => (hcondition c).bind fun type =>
    (requireBoolean_folded type condition).bind fun _ => recorded_folded l.id .empty)

theorem visit_call_folded (l : Label) (name : String) {args : List Expr}
    (h : ∀ e ∈ args, FoldsNode e) : FoldsNode (.call l name args) := by
  intro c
  rw [Expr.folded, visit, visit]
  exact polled_folded ((visitAll_folded h c).bind fun types =>
    (callType_folded c name types l.span).bind (recorded_folded l.id))

theorem visit_ret_folded (l : Label) {value : Option Expr}
    (h : ∀ e, value = some e → FoldsNode e) : FoldsNode (.ret l value) := by
  intro c
  rw [Expr.folded, visit, visit]
  refine polled_folded (.ite (failing_folded .returnOutsideFunction l.span) ?_)
  cases value with
  | none =>
    exact (settleReturn_folded _ c.function .empty l.span).bind fun _ =>
      recorded_folded l.id .empty
  | some value =>
    exact (h value rfl c).bind fun type => (settleReturn_folded _ c.function type l.span).bind
      fun _ => recorded_folded l.id .empty

theorem visit_paren_folded (l : Label) {inner : Expr} (h : FoldsNode inner) :
    FoldsNode (.paren l inner) := by
  intro c
  rw [Expr.folded, visit, visit]
  exact polled_folded ((h c).bind (recorded_folded l.id))

theorem visit_element_folded (l : Label) {target : Expr} {index : Option Expr}
    (htarget : FoldsNode target) (hindex : ∀ e, index = some e → FoldsNode e) :
    FoldsNode (.element l target index) := by
  intro c
  cases index with
  | none =>
    rw [Expr.folded, Expr.foldedOption, visit, visit]
    exact polled_folded (failing_folded .arrayTypeAsValue l.span)
  | some index =>
    rw [Expr.folded, Expr.foldedOption, visit, visit]
    exact polled_folded ((htarget c).bind fun type =>
      (indexedElement_folded type target).bind fun element =>
        (hindex index rfl c).bind fun type =>
          .ite (failingAt_folded (.indexType type) index)
            (.ite (failingAt_folded .indexedEmpty target) (recorded_folded l.id element)))

theorem visit_array_folded (l : Label) {elements : List Expr} (h : ∀ e ∈ elements, FoldsNode e) :
    FoldsNode (.array l elements) := by
  intro c
  rw [Expr.folded, visit, visit]
  exact polled_folded ((visitElements_folded h c none).bind fun known => recorded_folded l.id _)

theorem visit_folded (e : Expr) : FoldsNode e := by
  induction e using Expr.children_induction with
  | step e ih =>
    cases e with
    | constant l value => exact visit_constant_folded l value
    | var l name d => exact visit_var_folded l name d
    | binary l op left right =>
      exact visit_binary_folded l op (ih _ (by simp))
        (ih _ (by simp))
    | function l name params body =>
      exact visit_function_folded l name (fun x hx => ih x (by simp [hx]))
        (ih _ (by simp))
    | block l body => exact visit_block_folded l ih
    | cond l condition branch other =>
      exact visit_cond_folded l (ih _ (by simp))
        (ih _ (by simp)) fun x hx => ih x (by simp [hx])
    | forLoop l init condition step body =>
      exact visit_forLoop_folded l (fun x hx => ih x (by simp [hx]))
        (fun x hx => ih x (by simp [hx]))
        (fun x hx => ih x (by simp [hx])) (ih _ (by simp))
    | forTo l counter start bound direction body =>
      exact visit_forTo_folded l counter direction (ih _ (by simp))
        (ih _ (by simp)) (ih _ (by simp))
    | forIn l item iterable body =>
      exact visit_forIn_folded l item (ih _ (by simp))
        (ih _ (by simp))
    | whileLoop l condition body =>
      exact visit_whileLoop_folded l (ih _ (by simp))
        (ih _ (by simp))
    | repeatUntil l body condition =>
      exact visit_repeatUntil_folded l (ih _ (by simp))
        (ih _ (by simp))
    | call l name args => exact visit_call_folded l name ih
    | ret l value => exact visit_ret_folded l fun x hx => ih x (by simp [hx])
    | paren l inner => exact visit_paren_folded l (ih _ (by simp))
    | element l target index =>
      exact visit_element_folded l (ih _ (by simp))
        fun x hx => ih x (by simp [hx])
    | array l elements => exact visit_array_folded l ih

end Resolve

/-- The resolver finds the same types in a folded program, or the same problem. -/
theorem ScopeTree.resolve_folded (t : ScopeTree) (p : Program) (host : Host)
    (cancelled : Cancellation) :
    t.folded.resolve p.folded host.folded cancelled =
      Prod.map (foldOutcome Diagnostic.folded id) folded (t.resolve p host cancelled) := by
  have hvisit : Resolve.visit
      { host := host.folded, cancelled, scope := t.folded.program, function := main }
      p.folded.body { tree := t.folded } = _ :=
    Resolve.visit_folded p.body { host, cancelled, scope := t.program, function := main }
      { tree := t }
  rw [resolve, resolve, hvisit]
  cases Resolve.visit { host, cancelled, scope := t.program, function := main } p.body
    { tree := t } <;> rfl

end TurtleScript
