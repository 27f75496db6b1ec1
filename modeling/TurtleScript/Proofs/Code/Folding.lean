import TurtleScript.Compile
import TurtleScript.Proofs.Code.Shapes
import TurtleScript.Proofs.Typing.Folding

/-!
# Code does not depend on case

The generator too reads names only to look them up and to report them, so the code of a folded
program is that of the program. Names reach a module in two places, as the names of functions
and as those of slots. Hence programs that agree up to the case of their names are both
accepted or both rejected, and compile to modules that agree up to the case of these.
-/
namespace TurtleScript

-- the code at hand has no names, and neither have the problems of a step on it

namespace CodeBuilder

variable {α β : Type} {onResult : α → α}

theorem fail_folded (p : CodeProblem) :
    FoldsTo id onResult (fail p : Build α) (fail p.folded) := fun _ => rfl

theorem failing_folded {f f' : β → Build α} (p : CodeProblem) :
    FoldsTo id onResult (fail p >>= f) (fail p.folded >>= f') := fun _ => rfl

theorem anchor_folded (m : Marker) : FoldsTo id id (anchor m) (anchor m) := by
  refine .get fun b => .ite (failing_folded (.foreignMarker m.function b.function)) ?_
  dsimp only [id]
  cases b.live.find? (·.id = m.id) with
  | none => exact fail_folded (.deadMarker m.id)
  | some a => exact .pure a

theorem aim_folded (site : Nat) (target : Marker) :
    FoldsTo id id (aim site target) (aim site target) :=
  (anchor_folded target).bind fun _ _ => rfl

theorem placeJump_folded (m : Marker) (kind : JumpKind) (target : Marker) :
    FoldsTo id id (placeJump m kind target) (placeJump m kind target) :=
  have hplace : FoldsTo id id (place m (.jump kind 0)) (place m (.jump kind 0)) :=
    (anchor_folded m).bind fun _ _ => rfl
  hplace.bind fun site => aim_folded site target

theorem emitJump_folded (kind : JumpKind) (target : Marker) :
    FoldsTo id id (emitJump kind target) (emitJump kind target) :=
  have hemit : FoldsTo id id (emit (.jump kind 0)) (emit (.jump kind 0)) := fun _ => rfl
  hemit.bind fun site => (aim_folded site target).bind fun _ => .pure site

theorem release_folded (m : Marker) : FoldsTo id id (release m) (release m) :=
  (anchor_folded m).bind fun _ _ => rfl

theorem folded_of_finish {b : CodeBuilder} {d : Diagnostic} (h : b.finish = .error d) :
    d.folded = d := by
  rw [finish] at h
  split at h
  · cases h
  · cases h
    rfl

end CodeBuilder

namespace Generate

variable {α β : Type} {onResult : α → α} {onResult' : β → β}

theorem fail_folded (p : CodeProblem) (span : Span) :
    FoldsTo id onResult (fail p span : Generate α) (fail p.folded span) := fun _ => rfl

theorem orFail_folded (p : CodeProblem) (span : Span) (o : Option α) :
    FoldsTo id onResult (orFail p span o) (orFail p.folded span (o.map onResult)) := by
  cases o with
  | none => exact fail_folded p span
  | some a => exact .pure a

theorem orFail_same (p : CodeProblem) (span : Span) (o : Option α) :
    FoldsTo id id (orFail p span o) (orFail p.folded span o) := by
  have h : FoldsTo id id (orFail p span o) (orFail p.folded span (o.map id)) :=
    orFail_folded p span o
  rwa [Option.map_id_apply] at h

theorem onCode_folded {x : CodeBuilder.Build α} (h : FoldsTo id id x x) :
    FoldsTo id id (onCode x) (onCode x) := by
  intro s
  have hx := h s.builder
  simp only [onCode, id] at hx ⊢
  cases hrun : x s.builder with
  | ok a b => rfl
  | error d b =>
    rw [hrun] at hx
    have hd : d = d.folded := (EStateM.Result.error.inj hx).1
    exact congrArg (fun d => EStateM.Result.error d { s with builder := b }) hd

theorem emit_folded (i : Instr) : FoldsTo id id (emit i) (emit i) := fun _ => rfl

theorem emitAll_folded (is : List Instr) : FoldsTo id id (emitAll is) (emitAll is) := by
  induction is with
  | nil => exact .pure _
  | cons i is ih => exact (emit_folded i).bind fun _ => ih

theorem acquire_folded : FoldsTo id id acquire acquire := fun _ => rfl

theorem releaseAll_folded (ms : List Marker) : FoldsTo id id (releaseAll ms) (releaseAll ms) := by
  induction ms with
  | nil => exact .pure _
  | cons m ms ih => exact (onCode_folded (CodeBuilder.release_folded m)).bind fun _ => ih

theorem placeJump_folded (m : Marker) (kind : JumpKind) (target : Marker) :
    FoldsTo id id (placeJump m kind target) (placeJump m kind target) :=
  onCode_folded (CodeBuilder.placeJump_folded m kind target)

theorem emitJump_folded (kind : JumpKind) (target : Marker) :
    FoldsTo id id (emitJump kind target) (emitJump kind target) :=
  (onCode_folded (CodeBuilder.emitJump_folded kind target)).discard

theorem constant_folded (value : Constant) : FoldsTo id id (constant value) (constant value) :=
  fun _ => rfl

theorem enter_folded (function : Nat) : FoldsTo id id (enter function) (enter function) :=
  fun _ => rfl

theorem leave_folded (outer : CodeBuilder) : FoldsTo id id (leave outer) (leave outer) := by
  refine .get fun s => ?_
  dsimp only [id]
  cases hfinish : s.builder.finish with
  | ok code => exact fun _ => rfl
  | error d =>
    have hthrow : FoldsTo id (id : Unit → Unit) (throw d : Generate Unit) (throw d.folded) :=
      .throw d
    rwa [CodeBuilder.folded_of_finish hfinish] at hthrow

section Shapes

variable {kind : JumpKind} {test test' yes yes' no no' body body' : Generate Unit}

theorem branching_folded (ht : FoldsTo id id test test') (hy : FoldsTo id id yes yes')
    (hn : FoldsTo id id no no') :
    FoldsTo id id (branching test yes no) (branching test' yes' no') :=
  ht.bind fun _ => acquire_folded.bind fun _ => hy.bind fun _ => acquire_folded.bind fun _ =>
    acquire_folded.bind fun _ => hn.bind fun _ => acquire_folded.bind fun _ =>
      (placeJump_folded _ _ _).bind fun _ => (placeJump_folded _ _ _).bind fun _ =>
        releaseAll_folded _

theorem skipping_folded (ht : FoldsTo id id test test') (hy : FoldsTo id id yes yes') :
    FoldsTo id id (skipping test yes) (skipping test' yes') :=
  ht.bind fun _ => acquire_folded.bind fun _ => hy.bind fun _ => acquire_folded.bind fun _ =>
    (placeJump_folded _ _ _).bind fun _ => releaseAll_folded _

theorem looping_folded (hb : FoldsTo id id body body') (ht : FoldsTo id id test test') :
    FoldsTo id id (looping kind body test) (looping kind body' test') :=
  acquire_folded.bind fun _ => acquire_folded.bind fun _ => hb.bind fun _ =>
    acquire_folded.bind fun _ => (placeJump_folded _ _ _).bind fun _ => ht.bind fun _ =>
      (emitJump_folded _ _).bind fun _ => releaseAll_folded _

theorem repeating_folded (hb : FoldsTo id id body body') :
    FoldsTo id id (repeating body) (repeating body') :=
  acquire_folded.bind fun _ => hb.bind fun _ => (emitJump_folded _ _).bind fun _ =>
    releaseAll_folded _

end Shapes

def Context.folded (c : Context) : Context := { c with tree := c.tree.folded }

theorem typeOf_folded (c : Context) (e : Expr) :
    FoldsTo id id (typeOf c e) (typeOf c.folded e.folded) := by
  rw [typeOf, typeOf, Expr.kindName_folded, Expr.span_folded, Expr.id_folded]
  exact orFail_same (.untyped e.kindName) e.span _

theorem within_folded (c : Context) (e : Expr) :
    FoldsTo id Context.folded (within c e) (within c.folded e.folded) := by
  rw [within, within, Expr.kindName_folded, Expr.span_folded, Expr.id_folded]
  exact (orFail_same (.noScope e.kindName) e.span (c.tree.scopeOf? e.id)).bind fun scope => .pure _

theorem storage_folded (c : Context) (name : String) (span : Span) :
    FoldsTo id id (storage c name span) (storage c.folded (foldName name) span) := by
  have hvariable : (c.folded.tree.lookupVariable? c.folded.scope (foldName name)).bind
    (c.folded.tree.vars[·]?) = _ := c.tree.getVariable?_folded c.scope name
  rw [storage, storage, hvariable, Option.map_map]
  exact orFail_same (.unknownVariable name) span _

theorem loopVariable_folded (c : Context) (e : Expr) :
    FoldsTo id id (loopVariable c e) (loopVariable c.folded e.folded) := by
  cases e with
  | var l name d => exact storage_folded c name l.span
  | _ => exact fail_folded (.loopVariable _) _

theorem hidden_folded (c : Context) (var : Nat) (span : Span) :
    FoldsTo id id (hidden c var span) (hidden c.folded var span) := by
  have hvariable : c.folded.tree.vars[var]? = _ := ScopeTree.getElem?_vars_folded c.tree var
  rw [hidden, hidden, hvariable, Option.map_map]
  exact orFail_same .noLoopSlots span _

theorem dropValue_folded (c : Context) (e : Expr) :
    FoldsTo id id (dropValue c e) (dropValue c.folded e.folded) :=
  (typeOf_folded c e).bind fun _ => .ite (emit_folded .pop) (.pure _)

theorem operate_folded (c : Context) (op : BinaryOp) (left right : Ty) (span : Span) :
    FoldsTo id id (operate c op left right span) (operate c.folded op left right span) := by
  refine .ite ?_ (.ite (fail_folded (.arrayEquality left right) span) (emit_folded _))
  have hconcat : c.folded.tree.resolveCall? c.folded.scope Host.concatName [left, right] = _ :=
    c.tree.resolveConcat?_folded c.scope [left, right]
  rw [hconcat]
  exact (orFail_folded (.noConcatenation left right) span _).bindMap fun o => emit_folded _

theorem epilogue_folded (c : Context) (body : Expr) (returnType : Ty) :
    FoldsTo id id (epilogue c body returnType) (epilogue c.folded body.folded returnType) :=
  (typeOf_folded c body).bind fun _ => .ite (emit_folded _)
    (.ite ((emit_folded _).bind fun _ => emit_folded _) (emit_folded _))

/-- The code of the folded node is that of the node. -/
def FoldsNode (e : Expr) : Prop := ∀ c, FoldsTo id id (expr c e) (expr c.folded e.folded)

section Lists

variable {es : List Expr} (h : ∀ e ∈ es, FoldsNode e) (c : Context)

include h

theorem members_folded : FoldsTo id id (members c es) (members c.folded (Expr.foldedList es)) := by
  induction es with
  | nil => exact .pure _
  | cons e es ih =>
    obtain ⟨he, hes⟩ := List.forall_mem_cons.mp h
    have hempty : (Expr.foldedList es).isEmpty = es.isEmpty := by cases es <;> rfl
    rw [Expr.foldedList, members, members, hempty]
    exact (he c).bind fun _ => .ite (ih hes) ((dropValue_folded c e).bind fun _ => ih hes)

theorem arguments_folded :
    FoldsTo id id (arguments c es) (arguments c.folded (Expr.foldedList es)) := by
  induction es with
  | nil => exact .pure _
  | cons e es ih =>
    obtain ⟨he, hes⟩ := List.forall_mem_cons.mp h
    rw [Expr.foldedList, arguments, arguments]
    exact (he c).bind fun _ => (typeOf_folded c e).bind fun type => (ih hes).bind fun types =>
      .pure _

theorem operands_folded : FoldsTo id id (operands c es) (operands c.folded (Expr.foldedList es)) := by
  induction es with
  | nil => exact .pure _
  | cons e es ih =>
    obtain ⟨he, hes⟩ := List.forall_mem_cons.mp h
    rw [Expr.foldedList, operands, operands]
    exact (he c).bind fun _ => ih hes

end Lists

theorem optional_folded {o : Option Expr} (h : ∀ e, o = some e → FoldsNode e) (c : Context) :
    FoldsTo id id (optional c o) (optional c.folded (Expr.foldedOption o)) := by
  cases o with
  | none => exact .pure _
  | some e => exact (h e rfl c).bind fun _ => dropValue_folded c e

theorem expr_assign_folded (l : Label) {left right : Expr} (hright : FoldsNode right)
    (hinner : ∀ e ∈ left.children, FoldsNode e) : FoldsNode (.binary l .assign left right) := by
  intro c
  cases left with
  | var target name d =>
    exact (storage_folded c name target.span).bind fun place => (hright c).bind fun _ =>
      emitAll_folded _
  | element target base index =>
    cases index with
    | none => exact fail_folded (.assignmentKind _) l.span
    | some index =>
      exact (orFail_same (.untyped _) target.span _).bind fun type =>
        (hinner base (by simp) c).bind fun _ =>
          (hinner index (by simp) c).bind fun _ =>
            (emitAll_folded _).bind fun _ => (hright c).bind fun _ => emit_folded _
  | _ => exact fail_folded (.assignmentKind _) l.span

theorem expr_operator_folded (l : Label) {op : BinaryOp} (hop : op ≠ .assign) {left right : Expr}
    (hleft : FoldsNode left) (hright : FoldsNode right) : FoldsNode (.binary l op left right) := by
  intro c
  rw [Expr.folded, expr_operator _ _ hop, expr_operator _ _ hop]
  exact (hleft c).bind fun _ => (hright c).bind fun _ => (typeOf_folded c left).bind fun a =>
    (typeOf_folded c right).bind fun b => operate_folded c op a b l.span

theorem expr_function_folded (l : Label) (name : String) (params : List Expr) {body : Expr}
    (hbody : FoldsNode body) : FoldsNode (.function l name params body) := by
  intro c
  refine (orFail_same .noRecord l.span (c.tree.functionOf? l.id)).bind fun function => ?_
  have hname : (c.folded.tree.functions[function]?).elim "" (·.name) = _ :=
    c.tree.functionName_folded function
  have htype : (c.folded.tree.functions[function]?).bind (·.returnType) = _ :=
    c.tree.returnType?_folded function
  dsimp only
  rw [hname, htype]
  refine (orFail_same (.noReturnType _) l.span _).bind fun returnType => ?_
  exact (within_folded c (.function l name params body)).bindMap fun inner =>
    (enter_folded function).bind fun outer => (hbody inner).bind fun _ =>
      (epilogue_folded inner body returnType).bind fun _ => leave_folded outer

theorem expr_block_folded (l : Label) {body : List Expr} (h : ∀ e ∈ body, FoldsNode e) :
    FoldsNode (.block l body) := by
  intro c
  exact (within_folded c (.block l body)).bindMap fun inner => members_folded h inner

theorem expr_cond_folded (l : Label) {condition branch : Expr} {other : Option Expr}
    (hcondition : FoldsNode condition) (hbranch : FoldsNode branch)
    (hother : ∀ e, other = some e → FoldsNode e) :
    FoldsNode (.cond l condition branch other) := by
  intro c
  cases other with
  | some other =>
    exact (typeOf_folded c (.cond l condition branch (some other))).bind fun type =>
      branching_folded (hcondition c) (hbranch c) (hother other rfl c)
  | none =>
    simp only [Expr.folded, Expr.foldedOption, expr_ifThen]
    exact (typeOf_folded c (.cond l condition branch none)).bind fun type =>
      .ite (skipping_folded (hcondition c) (hbranch c))
        (branching_folded (hcondition c) (hbranch c) (emit_folded _))

theorem expr_forLoop_folded (l : Label) {init condition step : Option Expr} {body : Expr}
    (hinit : ∀ e, init = some e → FoldsNode e)
    (hcondition : ∀ e, condition = some e → FoldsNode e)
    (hstep : ∀ e, step = some e → FoldsNode e) (hbody : FoldsNode body) :
    FoldsNode (.forLoop l init condition step body) := by
  intro c
  rw [Expr.folded, expr_forLoop, expr_forLoop]
  refine (within_folded c (.forLoop l init condition step body)).bindMap fun inner =>
    (optional_folded hinit inner).bind fun _ => ?_
  have hturn := (hbody inner).bind fun _ => (dropValue_folded inner body).bind fun _ =>
    optional_folded hstep inner
  cases condition with
  | none => exact looping_folded hturn (.pure ())
  | some condition => exact looping_folded hturn (hcondition condition rfl inner)

theorem expr_forTo_folded (l : Label) (counter : Expr) (direction : Direction)
    {start bound body : Expr} (hstart : FoldsNode start) (hbound : FoldsNode bound)
    (hbody : FoldsNode body) : FoldsNode (.forTo l counter start bound direction body) := by
  intro c
  rw [Expr.folded, expr_forTo, expr_forTo]
  refine (within_folded c (.forTo l counter start bound direction body)).bindMap fun inner =>
    (loopVariable_folded inner counter).bind fun place => (hstart inner).bind fun _ =>
      (emit_folded _).bind fun _ => looping_folded ?_ ?_
  · exact (hbody inner).bind fun _ => (dropValue_folded inner body).bind fun _ =>
      (emit_folded _).bind fun _ => (constant_folded _).bind fun _ =>
        (emit_folded _).bind fun _ => emit_folded _
  · exact (emit_folded _).bind fun _ => (hbound inner).bind fun _ => emit_folded _

theorem expr_forIn_folded (l : Label) (item : Expr) {iterable body : Expr}
    (hiterable : FoldsNode iterable) (hbody : FoldsNode body) :
    FoldsNode (.forIn l item iterable body) := by
  intro c
  rw [Expr.folded, expr_forIn, expr_forIn]
  refine (within_folded c (.forIn l item iterable body)).bindMap fun inner =>
    (orFail_same .noLoopSlots l.span (inner.tree.loopSlotsOf? l.id)).bind fun slots =>
      (loopVariable_folded inner item).bind fun place => (typeOf_folded inner item).bind fun type =>
        (hidden_folded inner slots.array l.span).bind fun array =>
          (hidden_folded inner slots.index l.span).bind fun index =>
            (hiterable inner).bind fun _ => ?_
  refine (emit_folded _).bind fun _ => (constant_folded _).bind fun _ =>
    (emit_folded _).bind fun _ => looping_folded ?_ (emitAll_folded _)
  -- the element is loaded
  refine (emitAll_folded _).bind fun _ => (emitAll_folded _).bind fun _ =>
    (emitAll_folded _).bind fun _ => (hbody inner).bind fun _ => ?_
  exact (dropValue_folded inner body).bind fun _ => (emit_folded _).bind fun _ =>
    (constant_folded _).bind fun _ => emitAll_folded _

theorem expr_whileLoop_folded (l : Label) {condition body : Expr}
    (hcondition : FoldsNode condition) (hbody : FoldsNode body) :
    FoldsNode (.whileLoop l condition body) := by
  intro c
  rw [Expr.folded, expr_whileLoop, expr_whileLoop]
  exact looping_folded ((hbody c).bind fun _ => dropValue_folded c body) (hcondition c)

theorem expr_repeatUntil_folded (l : Label) {body condition : Expr}
    (hbody : FoldsNode body) (hcondition : FoldsNode condition) :
    FoldsNode (.repeatUntil l body condition) := by
  intro c
  rw [Expr.folded, expr_repeatUntil, expr_repeatUntil]
  exact repeating_folded ((hbody c).bind fun _ => (dropValue_folded c body).bind fun _ =>
    hcondition c)

theorem expr_call_folded (l : Label) (name : String) {args : List Expr}
    (h : ∀ e ∈ args, FoldsNode e) : FoldsNode (.call l name args) := by
  intro c
  refine (arguments_folded h c).bind fun types => ?_
  have hcall : c.folded.tree.resolveCall? c.folded.scope (foldName name) types = _ :=
    ScopeTree.resolveCall?_folded c.tree c.scope name types
  rw [hcall, Expr.length_foldedList]
  exact (orFail_folded (.unresolvedCall name) l.span _).bindMap fun o => emit_folded _

theorem expr_ret_folded (l : Label) {value : Option Expr}
    (h : ∀ e, value = some e → FoldsNode e) : FoldsNode (.ret l value) := by
  intro c
  cases value with
  | none => exact emit_folded _
  | some value =>
    exact (h value rfl c).bind fun _ => (typeOf_folded c value).bind fun type => emit_folded _

theorem expr_element_folded (l : Label) {target : Expr} {index : Option Expr}
    (htarget : FoldsNode target) (hindex : ∀ e, index = some e → FoldsNode e) :
    FoldsNode (.element l target index) := by
  intro c
  cases index with
  | none => exact fail_folded .arrayTypeAsValue l.span
  | some index =>
    exact (typeOf_folded c (.element l target (some index))).bind fun type =>
      (htarget c).bind fun _ => (hindex index rfl c).bind fun _ =>
        (emitAll_folded _).bind fun _ => emit_folded _

theorem expr_array_folded (l : Label) {elements : List Expr} (h : ∀ e ∈ elements, FoldsNode e) :
    FoldsNode (.array l elements) := by
  intro c
  refine (operands_folded h c).bind fun _ =>
    (typeOf_folded c (.array l elements)).bind fun type => ?_
  rw [Expr.length_foldedList]
  cases type with
  | array element => exact emit_folded _
  | _ => exact fail_folded (.arrayLiteralType _) l.span

theorem expr_folded (e : Expr) : FoldsNode e := by
  induction e using Expr.nodes_induction with
  | step e below =>
    have ih (x : Expr) (hx : x ∈ e.children) : FoldsNode x := below x hx x x.mem_nodes_self
    cases e with
    | constant l value => exact fun c => constant_folded (literal value)
    | var l name d =>
      exact fun c => (storage_folded c name l.span).bind fun place => emit_folded _
    | binary l op left right =>
      by_cases hop : op = .assign
      · subst hop
        refine expr_assign_folded l (ih right (by simp)) fun x hx => ?_
        exact below left (by simp) x (Expr.mem_nodes_child hx x.mem_nodes_self)
      · exact expr_operator_folded l hop (ih left (by simp))
          (ih right (by simp))
    | function l name params body =>
      exact expr_function_folded l name params (ih body (by simp))
    | block l body => exact expr_block_folded l ih
    | cond l condition branch other =>
      exact expr_cond_folded l (ih _ (by simp))
        (ih _ (by simp)) fun x hx => ih x (by simp [hx])
    | forLoop l init condition step body =>
      exact expr_forLoop_folded l (fun x hx => ih x (by simp [hx]))
        (fun x hx => ih x (by simp [hx]))
        (fun x hx => ih x (by simp [hx])) (ih _ (by simp))
    | forTo l counter start bound direction body =>
      exact expr_forTo_folded l counter direction (ih _ (by simp))
        (ih _ (by simp)) (ih _ (by simp))
    | forIn l item iterable body =>
      exact expr_forIn_folded l item (ih _ (by simp))
        (ih _ (by simp))
    | whileLoop l condition body =>
      exact expr_whileLoop_folded l (ih _ (by simp))
        (ih _ (by simp))
    | repeatUntil l body condition =>
      exact expr_repeatUntil_folded l (ih _ (by simp))
        (ih _ (by simp))
    | call l name args => exact expr_call_folded l name ih
    | ret l value => exact expr_ret_folded l fun x hx => ih x (by simp [hx])
    | paren l inner => exact ih inner (by simp)
    | element l target index =>
      exact expr_element_folded l (ih _ (by simp))
        fun x hx => ih x (by simp [hx])
    | array l elements => exact expr_array_folded l ih

theorem program_folded (c : Context) (p : Program) :
    FoldsTo id id (program c p) (program c.folded p.folded) :=
  (expr_folded p.body c).bind fun _ => (epilogue_folded c p.body .empty).bind fun _ =>
    leave_folded _

theorem collect_folded (span : Span) (n : Nat) (finished : List (Option (Array Instr))) :
    foldOutcome Diagnostic.folded id (collect span n finished) = collect span n finished := by
  induction finished generalizing n with
  | nil => rfl
  | cons code rest ih =>
    cases code with
    | none => rfl
    | some code =>
      have hrest := ih (n + 1)
      rw [collect]
      cases hcollect : collect span (n + 1) rest with
      | ok codes => rfl
      | error d =>
        rw [hcollect] at hrest
        exact congrArg Except.error (Except.error.inj hrest)

end Generate

def VariableDef.folded (v : VariableDef) : VariableDef := { v with name := foldName v.name }

def FunctionDef.folded (f : FunctionDef) : FunctionDef :=
  { f with name := foldName f.name, slots := f.slots.map VariableDef.folded }

/-- The module with the names of its functions and slots folded. Nothing else in it comes from
the names of a program. -/
def Module.folded (m : Module) : Module := { m with functions := m.functions.map FunctionDef.folded }

def Compiled.folded (c : Compiled) : Compiled := { c with module := c.module.folded }

namespace ScopeTree

variable (t : ScopeTree)

theorem generate_folded (p : Program) (r : Resolution) :
    t.folded.generate p.folded r = foldOutcome Diagnostic.folded id (t.generate p r) := by
  have hsize : t.folded.functions.size = t.functions.size := Array.size_map ..
  have hspan : p.folded.body.span = p.body.span := p.body.span_folded
  have hprogram : Generate.program { tree := t.folded, resolution := r, scope := t.folded.program }
      p.folded { builder := { function := main },
                 finished := Array.replicate t.functions.size none } = _ :=
    Generate.program_folded { tree := t, resolution := r, scope := t.program } p _
  rw [generate, generate, hsize, hprogram, hspan]
  cases Generate.program { tree := t, resolution := r, scope := t.program } p
      { builder := { function := main }, finished := Array.replicate t.functions.size none } with
  | error d s => rfl
  | ok u s =>
    have hcollect := Generate.collect_folded p.body.span 0 s.finished.toList
    dsimp only [id]
    cases hrun : Generate.collect p.body.span 0 s.finished.toList with
    | ok codes => rfl
    | error d =>
      rw [hrun] at hcollect
      exact congrArg Except.error (Except.error.inj hcollect).symm

theorem slotDefs_folded (f : FunctionRecord) :
    t.folded.slotDefs f.folded = (t.slotDefs f).map VariableDef.folded := by
  rw [slotDefs, slotDefs, FunctionRecord.folded, List.map_map, List.map_map]
  refine List.map_congr_left fun slot _ => ?_
  simp only [Function.comp, Slot.folded, variableType?_folded]
  rfl

theorem link_folded (g : Generated) (o : Options) : t.folded.link g o = (t.link g o).folded := by
  have hfunctions : Array.zipWith t.folded.functionDef t.folded.functions g.functions =
      (Array.zipWith t.functionDef t.functions g.functions).map FunctionDef.folded := by
    rw [folded, Array.zipWith_map_left, Array.map_zipWith]
    congr 1
    funext f code
    rw [functionDef, functionDef, FunctionDef.folded, ← slotDefs_folded]
    rfl
  rw [link, hfunctions]
  rfl

end ScopeTree

theorem Program.scopes_folded (p : Program) (host : Host) : p.folded.scopes host.folded =
    foldOutcome Diagnostic.folded ScopeTree.folded (p.scopes host) := by
  have hproblems : (ScopeTree.build p host).folded.problems =
      (ScopeTree.build p host).problems.map Diagnostic.folded := rfl
  rw [scopes, scopes, ← ScopeTree.build_folded, hproblems]
  cases (ScopeTree.build p host).problems <;> rfl

/-- A folded program with a folded host compiles to the folded module. -/
theorem Program.compile_folded (p : Program) (host : Host) (o : Options) (cancelled : Cancellation) :
    p.folded.compile host.folded o cancelled =
      foldOutcome Diagnostic.folded Compiled.folded (p.compile host o cancelled) := by
  rw [compile, compile, scopes_folded]
  cases p.scopes host with
  | error d => rfl
  | ok t =>
    dsimp only [foldOutcome, bind, Except.bind]
    rw [ScopeTree.resolve_folded]
    obtain ⟨resolution, tree⟩ := t.resolve p host cancelled
    cases resolution with
    | error d => rfl
    | ok r =>
      dsimp only [Prod.map, foldOutcome, id]
      rw [ScopeTree.generate_folded]
      cases tree.generate p r with
      | error d => rfl
      | ok g =>
        have hlink := ScopeTree.link_folded tree g o
        dsimp only [foldOutcome, id]
        rw [hlink]
        rfl

/-- Both outcomes are a rejection of the same category at the same place, or both are modules
that agree up to the case of the names of functions and slots. -/
inductive SameUpToCase : Except Diagnostic Compiled → Except Diagnostic Compiled → Prop where
  | rejected {d d' : Diagnostic} (category : d.problem.category = d'.problem.category)
      (span : d.span = d'.span) : SameUpToCase (.error d) (.error d')
  | accepted {c c' : Compiled} (programType : c.programType = c'.programType)
      (module : c.module.folded = c'.module.folded) : SameUpToCase (.ok c) (.ok c')

/-- Outcomes that fold to one are the same up to case. -/
theorem SameUpToCase.of_folded {r r' : Except Diagnostic Compiled}
    (h : foldOutcome Diagnostic.folded Compiled.folded r =
      foldOutcome Diagnostic.folded Compiled.folded r') : SameUpToCase r r' := by
  cases r with
  | error d =>
    cases r' with
    | ok c' => cases h
    | error d' =>
      have hd : d.folded = d'.folded := Except.error.inj h
      have hproblem : d.problem.folded = d'.problem.folded := congrArg (·.problem) hd
      have hspan : d.folded.span = d'.folded.span := congrArg (·.span) hd
      refine .rejected ?_ hspan
      rw [← d.problem.category_folded, ← d'.problem.category_folded, hproblem]
  | ok c =>
    cases r' with
    | error d' => cases h
    | ok c' =>
      have hc : c.folded = c'.folded := Except.ok.inj h
      have htype : c.folded.programType = c'.folded.programType :=
        congrArg (·.programType) hc
      exact .accepted htype (congrArg (·.module) hc)

/-- Names are case-insensitive: programs that are equal after folding the names of variables,
functions and calls are treated alike by every host. -/
theorem compile_sameUpToCase (p p' : Program) (host : Host) (o : Options) (cancelled : Cancellation)
    (h : p.folded = p'.folded) :
    SameUpToCase (p.compile host o cancelled) (p'.compile host o cancelled) := by
  apply SameUpToCase.of_folded
  rw [← Program.compile_folded, ← Program.compile_folded, h]

/-- Declares a function and calls it, under the names given. -/
def doubling (declared called param used : String) : Expr :=
  .block {} [
    .function {} declared [.var {} param (some (.var {} "number" none))]
      (.ret {} (some (.binary {} .add (.var {} used none) (.var {} used none)))),
    .call {} called [.constant {} (.number .one)]]

theorem doubling_folded (declared called param used : String) :
    (Program.ofExpr (doubling declared called param used)).folded =
      .ofExpr (doubling (foldName declared) (foldName called) (foldName param) (foldName used)) :=
  rfl

/-- Two spellings of a program that is accepted. -/
theorem compile_sameUpToCase_doubling :
    ((Program.ofExpr (doubling "twice" "twice" "n" "n")).compile .empty {}
      false).toOption.isSome = true ∧
    SameUpToCase ((Program.ofExpr (doubling "Twice" "tWICE" "n" "N")).compile .empty {} false)
      ((Program.ofExpr (doubling "twice" "twice" "n" "n")).compile .empty {} false) := by
  have hdeclared : foldName "Twice" = foldName "twice" := foldName_congr (by decide)
  have hcalled : foldName "tWICE" = foldName "twice" := foldName_congr (by decide)
  have hused : foldName "N" = foldName "n" := foldName_congr (by decide)
  have hfolded := doubling_folded "Twice" "tWICE" "n" "N"
  rw [hdeclared, hcalled, hused, ← doubling_folded] at hfolded
  exact ⟨by decide +kernel, compile_sameUpToCase _ _ .empty {} false hfolded⟩

end TurtleScript
