import TurtleScript.Proofs.Typing.Positions
import TurtleScript.Proofs.Typing.Resolution

/-!
# What the resolver does to its state

The resolver changes its state in five ways, each on behalf of a node. Whether it succeeds or
stops with a problem, what it leaves comes of such changes. If it succeeds, it has come to every
node below the one that it was sent to, but for those in the types of declarations, and has
given each of them a type.
-/
namespace TurtleScript

open ScopeTree Semantics

/-- A change of the state, on behalf of a node. -/
inductive Change : Expr → Typing → Typing → Prop where
  /-- The walk comes to the node. -/
  | visited (e : Expr) (s : Typing) : Change e s { s with visits := s.visits + 1 }
  /-- The node gets its type. -/
  | typed (e : Expr) (s : Typing) (type : Ty) :
      Change e s { s with types := (e.id, type) :: s.types }
  /-- A variable that was open gets its type. -/
  | bound (e : Expr) {s : Typing} {id : Nat} (type : Ty)
      (hopen : ∀ v, s.tree.vars[id]? = some v → v.type = none) :
      Change e s { s with tree := s.tree.setVariableType id type }
  /-- The array of a loop gets its type, right after the variable of the loop. -/
  | iterated {l : Label} {item iterable body : Expr} {s : Typing} {slots : LoopSlots}
      {element : Ty} {types : List (Nat × Ty)} (type : Ty)
      (hitem : s.types = (item.id, element) :: types)
      (hslots : s.tree.loopSlotsOf? l.id = some slots) :
      Change (.forIn l item iterable body) s
        { s with tree := s.tree.setVariableType slots.array type }
  /-- A function that had none gets its result. -/
  | returned (e : Expr) {s : Typing} {id : Nat} (type : Ty)
      (hopen : ∀ f, s.tree.functions[id]? = some f → f.returnType = none) :
      Change e s { s with tree := s.tree.setReturnType id type }

/-- Changes on behalf of nodes of a kind, one after the other. -/
abbrev Changes (nodes : Expr → Prop) : Typing → Typing → Prop :=
  Relation.ReflTransGen fun s s' => ∃ e, nodes e ∧ Change e s s'

section Changes

variable {e : Expr} {p q : Expr → Prop} {s s' s'' : Typing}

theorem Change.refines (h : Change e s s') : Refines s.tree s'.tree := by
  cases h with
  | visited | typed => exact .refl _
  | bound _ _ hopen => exact .setVariableType fun v hv => .inl (hopen v hv)
  | iterated _ _ hslots =>
    exact .setVariableType fun _ _ => .inr ⟨_, mem_of_lookup hslots, rfl⟩
  | returned _ _ hopen => exact .setReturnType fun f hf => .inl (hopen f hf)

theorem Changes.one (he : p e) (h : Change e s s') : Changes p s s' := .single ⟨e, he, h⟩

theorem Changes.mono (h : Changes p s s') (hpq : ∀ e, p e → q e) : Changes q s s' :=
  Relation.ReflTransGen.mono (fun _ _ ⟨e, he, hchange⟩ => ⟨e, hpq e he, hchange⟩) _ _ h

theorem Changes.refines (h : Changes p s s') : Refines s.tree s'.tree := by
  induction h with
  | refl => exact .refl _
  | tail _ hstep ih =>
    obtain ⟨e, -, hchange⟩ := hstep
    exact ih.trans hchange.refines

end Changes

namespace Resolve

/-- The context in which the nodes below a node are visited. -/
def Context.below (c : Context) (t : ScopeTree) (e : Expr) : Context :=
  { c with scope := (t.below c.here e).scope, function := (t.below c.here e).function }

/-- The walk comes to a node: it visits it, or gives it a type as the variable of a loop. -/
def Meets (c : Context) (e : Expr) (s s' : Typing) : Prop :=
  (∃ type, visit c e s = .ok type s') ∨ ∃ type, loopVariable c e type s = .ok () s'

/-- A step that leaves the state alone. -/
def Keeps {α : Type} (x : Resolve α) : Prop := ∀ s, (∃ a, x s = .ok a s) ∨ ∃ d, x s = .error d s

section Looks

variable {α β : Type} {c : Context} {span : Span} {x : Resolve α} {f : α → Resolve β}

theorem Keeps.pure (a : α) : Keeps (Pure.pure a : Resolve α) := fun _ => .inl ⟨a, rfl⟩

theorem Keeps.fail {problem : TypeProblem} : Keeps (Resolve.fail problem span : Resolve α) :=
  fun _ => .inr ⟨_, rfl⟩

theorem Keeps.ite {g : Prop} [Decidable g] {y : Resolve α} (hx : Keeps x) (hy : Keeps y) :
    Keeps (if g then x else y) := by
  split
  · exact hx
  · exact hy

theorem Keeps.bind (hx : Keeps x) (hf : ∀ a, Keeps (f a)) : Keeps (x >>= f) := by
  intro s
  rcases hx s with ⟨a, ha⟩ | ⟨d, hd⟩
  · rw [EStateM.bind_ok ha]
    exact hf a s
  · exact .inr ⟨d, EStateM.bind_error hd⟩

theorem Keeps.tree : Keeps Resolve.tree := fun s => .inl ⟨s.tree, rfl⟩

theorem Keeps.orFail {problem : TypeProblem} (o : Option α) :
    Keeps (Resolve.orFail problem span o) := by
  cases o with
  | none => exact .fail
  | some a => exact .pure a

theorem Keeps.variableType (name : String) : Keeps (Resolve.variableType c name span) := by
  refine .bind .tree fun t => ?_
  cases (t.lookupVariable? c.scope name).bind (t.vars[·]?) with
  | none => exact .fail
  | some v =>
    dsimp only
    cases v.storage with
    | global => exact .orFail v.type
    | slot => exact .ite (.bind .fail fun _ => .orFail v.type) (.orFail v.type)

theorem Keeps.operatorType {op : BinaryOp} {left right : Ty} :
    Keeps (Resolve.operatorType c op left right span) := by
  cases op with
  | add =>
    refine .ite .fail (.ite (.ite (.bind .tree fun t => ?_) .fail) (.ite (.pure _) .fail))
    cases t.resolveCall? c.scope Host.concatName [left, right] with
    | none => exact .fail
    | some o => exact .pure _
  | equal | assign => exact .pure _
  | _ => exact .ite (.pure _) .fail

theorem Keeps.assignmentTarget {e : Expr} : Keeps (Resolve.assignmentTarget e) := by
  cases e with
  | var => exact .pure _
  | element _ _ index =>
    cases index with
    | none => exact .fail
    | some => exact .pure _
  | _ => exact .fail

theorem Keeps.indexedElement {type : Ty} : Keeps (Resolve.indexedElement type span) := by
  cases type with
  | array element => exact .pure _
  | _ => exact .fail

theorem Keeps.iterableElement {type : Ty} : Keeps (Resolve.iterableElement type span) := by
  cases type with
  | array element =>
    cases element with
    | empty => exact .fail
    | _ => exact .pure _
  | _ => exact .fail

theorem Keeps.joinElement {known : Option Ty} {type : Ty} :
    Keeps (Resolve.joinElement known type span) := by
  cases known with
  | none => exact .ite .fail (.pure _)
  | some expected => exact .ite (.pure _) .fail

theorem Keeps.callType {name : String} {args : List Ty} :
    Keeps (Resolve.callType c name args span) := by
  refine .bind .tree fun t => .bind (.orFail _) fun o => ?_
  cases o.callee with
  | native index => exact .orFail _
  | script id => exact .orFail _

end Looks

/-- From `s` on, `x` changes the state on behalf of `nodes`. If it succeeds, it came to the nodes
`met` on its way, and `post` holds in the end. -/
def WalksFrom {α : Type} (nodes : Expr → Prop) (met : List (Context × Expr))
    (post : α → Typing → Prop) (s : Typing) (x : Resolve α) : Prop :=
  match x s with
  | .ok a s' => Changes nodes s s' ∧ post a s' ∧ ∀ m ∈ met, ∃ s₁ s₂,
      Changes nodes s s₁ ∧ Meets m.1 m.2 s₁ s₂ ∧ Changes nodes s₂ s'
  | .error _ s' => Changes nodes s s'

/-- A part of the walk, from wherever the tree has come of `t`. -/
def Walks {α : Type} (t : ScopeTree) (nodes : Expr → Prop) (met : List (Context × Expr))
    (post : α → Typing → Prop) (x : Resolve α) : Prop :=
  ∀ s, Refines t s.tree → WalksFrom nodes met post s x

section Rules

variable {α β : Type} {t : ScopeTree} {nodes p : Expr → Prop} {met met' : List (Context × Expr)}
  {c : Context} {e y : Expr} {s : Typing} {φ : α → Typing → Prop} {post : β → Typing → Prop}
  {x : Resolve α} {f : α → Resolve β}

theorem WalksFrom.cases (h : WalksFrom nodes met φ s x) :
    (∃ d s', x s = .error d s' ∧ Changes nodes s s') ∨
      ∃ a s', x s = .ok a s' ∧ Changes nodes s s' ∧ φ a s' ∧ ∀ m ∈ met, ∃ s₁ s₂,
        Changes nodes s s₁ ∧ Meets m.1 m.2 s₁ s₂ ∧ Changes nodes s₂ s' := by
  rw [WalksFrom] at h
  cases hx : x s with
  | error d s' =>
    rw [hx] at h
    exact .inl ⟨d, s', rfl, h⟩
  | ok a s' =>
    rw [hx] at h
    exact .inr ⟨a, s', rfl, h⟩

theorem WalksFrom.error {d : Diagnostic} {s' : Typing} (hx : x s = .error d s')
    (h : Changes nodes s s') : WalksFrom nodes met φ s x := by
  rw [WalksFrom, hx]
  exact h

theorem WalksFrom.ok {a : α} {s' : Typing} (hx : x s = .ok a s') (h : Changes nodes s s')
    (hpost : φ a s') (hmet : ∀ m ∈ met, ∃ s₁ s₂,
      Changes nodes s s₁ ∧ Meets m.1 m.2 s₁ s₂ ∧ Changes nodes s₂ s') :
    WalksFrom nodes met φ s x := by
  rw [WalksFrom, hx]
  exact ⟨h, hpost, hmet⟩

theorem WalksFrom.look {f : ScopeTree → Resolve β} (h : WalksFrom nodes met post s (f s.tree)) :
    WalksFrom nodes met post s (Resolve.tree >>= f) := h

theorem Keeps.walks (h : Keeps x) : Walks t nodes [] (fun _ _ => True) x := by
  intro s _
  rcases h s with ⟨a, ha⟩ | ⟨d, hd⟩
  · exact .ok ha .refl trivial nofun
  · exact .error hd .refl

theorem Walks.mono {ψ : α → Typing → Prop} (h : Walks t p met φ x) (hp : ∀ e, p e → nodes e)
    (hmet : ∀ m ∈ met', m ∈ met) (hφ : ∀ a s, φ a s → ψ a s) : Walks t nodes met' ψ x := by
  intro s hs
  rcases (h s hs).cases with ⟨d, s', hx, hchanges⟩ | ⟨a, s', hx, hchanges, hpost, hmeets⟩
  · exact .error hx (hchanges.mono hp)
  · refine .ok hx (hchanges.mono hp) (hφ a s' hpost) fun m hm => ?_
    obtain ⟨s₁, s₂, hbefore, hmeet, hafter⟩ := hmeets m (hmet m hm)
    exact ⟨s₁, s₂, hbefore.mono hp, hmeet, hafter.mono hp⟩

/-- A step that succeeded comes first. -/
theorem WalksFrom.next {a : α} {s₁ : Typing} (hx : x s = .ok a s₁) (hchanges : Changes nodes s s₁)
    (hmeets : ∀ m ∈ met, ∃ s₂ s₃,
      Changes nodes s s₂ ∧ Meets m.1 m.2 s₂ s₃ ∧ Changes nodes s₃ s₁)
    (hf : WalksFrom nodes met' post s₁ (f a)) :
    WalksFrom nodes (met ++ met') post s (x >>= f) := by
  rcases hf.cases with ⟨d, s₂, hf, hchanges'⟩ | ⟨b, s₂, hf, hchanges', hpost, hmeets'⟩
  · exact .error ((EStateM.bind_ok hx).trans hf) (hchanges.trans hchanges')
  · refine .ok ((EStateM.bind_ok hx).trans hf) (hchanges.trans hchanges') hpost fun m hm => ?_
    rcases List.mem_append.mp hm with hm | hm
    · obtain ⟨s₃, s₄, hbefore, hmeet, hafter⟩ := hmeets m hm
      exact ⟨s₃, s₄, hbefore, hmeet, hafter.trans hchanges'⟩
    · obtain ⟨s₃, s₄, hbefore, hmeet, hafter⟩ := hmeets' m hm
      exact ⟨s₃, s₄, hchanges.trans hbefore, hmeet, hafter⟩

theorem WalksFrom.lead {a : α} {s₁ : Typing} (hx : x s = .ok a s₁) (hchanges : Changes nodes s s₁)
    (hf : WalksFrom nodes met post s₁ (f a)) : WalksFrom nodes met post s (x >>= f) := by
  have h : WalksFrom nodes ([] ++ met) post s (x >>= f) := .next hx hchanges nofun hf
  exact h

theorem Walks.bind (hx : Walks t nodes met φ x) (hf : ∀ a, Walks t nodes met' post (f a)) :
    Walks t nodes (met ++ met') post (x >>= f) := by
  intro s hs
  rcases (hx s hs).cases with ⟨d, s₁, hfirst, hchanges⟩ | ⟨a, s₁, hfirst, hchanges, -, hmeets⟩
  · exact .error (EStateM.bind_error hfirst) hchanges
  · exact .next hfirst hchanges hmeets (hf a s₁ (hs.trans hchanges.refines))

/-- The walk comes to no further node. -/
theorem Walks.finish (hx : Walks t nodes met φ x) (hf : ∀ a, Walks t nodes [] post (f a)) :
    Walks t nodes met post (x >>= f) := by
  have h := hx.bind hf
  rwa [List.append_nil] at h

/-- A step that only looks comes first. -/
theorem Keeps.lead (hx : Keeps x) (hf : ∀ a, Walks t nodes met post (f a)) :
    Walks t nodes met post (x >>= f) := hx.walks.bind hf

/-- A part that comes to one node. -/
theorem Walks.single (hx : Walks t nodes met φ x)
    (hmeets : ∀ s a s', x s = .ok a s' → Meets c y s s') :
    Walks t nodes [(c, y)] (fun _ _ => True) x := by
  intro s hs
  rcases (hx s hs).cases with ⟨d, s', hx, hchanges⟩ | ⟨a, s', hx, hchanges, -⟩
  · exact .error hx hchanges
  · refine .ok hx hchanges trivial fun m hm => ?_
    cases List.mem_singleton.mp hm
    exact ⟨s, s', .refl, hmeets s a s' hx, .refl⟩

theorem Walks.discard (hx : Walks t nodes met φ x) :
    Walks t nodes met (fun _ _ => True) (Functor.discard x) := by
  intro s hs
  rcases (hx s hs).cases with ⟨d, s', hx, hchanges⟩ | ⟨a, s', hx, hchanges, -, hmeets⟩
  · exact .error ((EStateM.discard_apply _ s).trans (by rw [hx])) hchanges
  · exact .ok ((EStateM.discard_apply _ s).trans (by rw [hx])) hchanges trivial hmeets

theorem Walks.failing {problem : TypeProblem} {span : Span} :
    Walks t nodes met post (Resolve.fail problem span >>= f) := fun _ _ => .error rfl .refl

theorem Walks.guard {g : Prop} [Decidable g] {problem : TypeProblem} {span : Span}
    {y : Resolve β} (h : Walks t nodes met post y) :
    Walks t nodes met post (if g then Resolve.fail problem span >>= f else y) := by
  split
  · exact .failing
  · exact h

/-- The walk asks whether it is to stop, on behalf of the node that it comes to. -/
theorem Walks.polled {span : Span} {f : Unit → Resolve β} (he : nodes e)
    (h : Walks t nodes met post (f ())) : Walks t nodes met post (poll c span >>= f) := by
  intro s hs
  have hvisited : Changes nodes s { s with visits := s.visits + 1 } := .one he (.visited e s)
  rcases poll_cases c span s with ⟨hok, -⟩ | ⟨d, herror⟩
  · exact .lead hok hvisited (h _ hs)
  · exact .error (EStateM.bind_error herror) hvisited

theorem Walks.orFail {problem : TypeProblem} {span : Span} {o : Option α}
    (h : ∀ a, o = some a → Walks t nodes met post (f a)) :
    Walks t nodes met post (Resolve.orFail problem span o >>= f) := by
  cases o with
  | none => exact .failing
  | some a => exact h a rfl

theorem Walks.tree {f : ScopeTree → Resolve β}
    (h : ∀ t₀, Refines t t₀ → Walks t nodes met post (f t₀)) :
    Walks t nodes met post (Resolve.tree >>= f) := fun s hs => .look (h s.tree hs s hs)

/-- The node itself gets its type, and the visit ends. -/
theorem Walks.record {type : Ty} (he : nodes e) :
    Walks t nodes [] (fun type s => (e.id, type) ∈ s.types)
      (do Resolve.record e.id type; return type) :=
  fun s _ => .ok rfl (.one he (.typed e s type)) List.mem_cons_self nofun

theorem Walks.within {f : Context → Resolve β}
    (h : ∀ scope, t.scopeOf? e.id = some scope → Walks t nodes met post (f { c with scope })) :
    Walks t nodes met post (Resolve.within c e >>= f) := by
  intro s hs
  have hsame : s.tree.scopeOf? e.id = t.scopeOf? e.id := by rw [scopeOf?, hs.nodeScopes, scopeOf?]
  have hwithin : Resolve.within c e s =
      (Resolve.orFail (.noScope e.kindName) e.span (t.scopeOf? e.id) >>= fun scope =>
        Pure.pure { c with scope }) s := by
    rw [← hsame]
    rfl
  cases hscope : t.scopeOf? e.id with
  | none =>
    rw [hscope] at hwithin
    exact .error (EStateM.bind_error hwithin) .refl
  | some scope =>
    rw [hscope] at hwithin
    have hinner := h scope hscope s hs
    rw [WalksFrom] at hinner ⊢
    rw [EStateM.bind_ok hwithin]
    exact hinner

end Rules

section Steps

variable {t : ScopeTree} {nodes : Expr → Prop} {c : Context} {e : Expr} {span : Span} {s : Typing}
  {function : Nat} {type : Ty}

/-- The result of a function is set if it was open. -/
theorem changes_setReturnType (he : nodes e)
    (h : (s.tree.functions[function]?).bind (·.returnType) = none) :
    Changes nodes s { s with tree := s.tree.setReturnType function type } := by
  refine .one he (.returned e type fun f hf => ?_)
  rw [hf] at h
  exact h

theorem Walks.settleReturn {clashes : Ty → Bool} (he : nodes e) :
    Walks t nodes [] (fun _ _ => True) (Resolve.settleReturn clashes function type span) := by
  intro s hs
  refine .look ?_
  dsimp only
  cases hresult : (s.tree.functions[function]?).bind (·.returnType) with
  | none => exact .ok rfl (changes_setReturnType he hresult) trivial nofun
  | some known => exact (Keeps.ite .fail (.pure ())).walks s hs

/-- The node is a variable, which has the type where the walk is. -/
def Bound (c : Context) (e : Expr) (type : Ty) (s : Typing) : Prop :=
  ∃ l name d id v, e = .var l name d ∧ s.tree.lookupVariable? c.scope name = some id ∧
    s.tree.vars[id]? = some v ∧ v.type = some type

/-- The last step at a loop variable, when it can have no other type than the expected one. -/
theorem loopNode_cases {l : Label} {name : String} {expected : Ty} (d : Option Expr)
    (h : ∀ id v type, s.tree.lookupVariable? c.scope name = some id →
      s.tree.vars[id]? = some v → v.type = some type → type = expected) :
    let s' := { s with visits := s.visits + 1 }
    (∃ p, (do poll c l.span; record l.id (← variableType c name l.span)) s = .error p s') ∨
      Bound c (.var l name d) expected s' ∧
        (do poll c l.span; record l.id (← variableType c name l.span)) s =
          .ok () { s' with types := (l.id, expected) :: s'.types } := by
  intro s'
  rcases poll_cases c l.span s with ⟨hpoll, -⟩ | ⟨p, herror⟩
  · rcases Keeps.variableType name s' with ⟨type, hok⟩ | ⟨p, herror⟩
    · obtain ⟨-, id, v, hid, hv, htype, -⟩ := variableType_eq_ok hok
      obtain rfl := h id v type hid hv htype
      refine .inr ⟨⟨l, name, d, id, v, rfl, hid, hv, htype⟩, ?_⟩
      exact (EStateM.bind_ok hpoll).trans (EStateM.bind_ok hok)
    · exact .inl ⟨p, (EStateM.bind_ok hpoll).trans (EStateM.bind_error herror)⟩
  · exact .inl ⟨p, EStateM.bind_error herror⟩

/-- The variable of a loop has the expected type before it gets it as a node. -/
theorem loopVariable_cases (c : Context) (e : Expr) (expected : Ty) (s : Typing) :
    (∃ d s', loopVariable c e expected s = .error d s' ∧ Changes (· = e) s s') ∨
      ∃ s₁, Bound c e expected s₁ ∧ Changes (· = e) s s₁ ∧ loopVariable c e expected s =
        .ok () { s₁ with types := (e.id, expected) :: s₁.types } := by
  cases e with
  | var l name d =>
    have hlook : loopVariable c (.var l name d) expected s = _ := EStateM.bind_ok rfl
    have hvisited (s : Typing) :
        Changes (· = .var l name d) s { s with visits := s.visits + 1 } := .one rfl (.visited _ s)
    cases hid : s.tree.lookupVariable? c.scope name with
    | none =>
      rw [hid] at hlook
      exact .inl ⟨_, s, hlook, .refl⟩
    | some id =>
      rw [hid] at hlook
      have hrun := hlook.trans (EStateM.bind_ok rfl)
      cases htype : (s.tree.vars[id]?).bind (·.type) with
      | none =>
        rw [htype] at hrun
        have hopen (v : Variable) (hv : s.tree.vars[id]? = some v) : v.type = none := by
          rw [hv] at htype
          exact htype
        have hset : Change (.var l name d) s
          { s with tree := s.tree.setVariableType id expected } := .bound _ expected hopen
        have hfixed (id' : Nat) (v : Variable) (type : Ty)
            (hid' : (s.tree.setVariableType id expected).lookupVariable? c.scope name =
              some id') (hv : (s.tree.setVariableType id expected).vars[id']? = some v)
            (hv' : v.type = some type) : type = expected := by
          cases hid.symm.trans ((hset.refines.lookupVariable? _ _).symm.trans hid')
          rw [vars_setVariableType] at hv
          obtain ⟨u, -, rfl⟩ := Option.map_eq_some_iff.mp hv
          rw [if_pos rfl] at hv'
          exact (Option.some.inj hv').symm
        replace hrun := hrun.trans (EStateM.bind_ok rfl)
        rcases loopNode_cases (s := { s with tree := s.tree.setVariableType id expected }) d hfixed
          with ⟨p, herror⟩ | ⟨hbound, hok⟩
        · exact .inl ⟨p, _, hrun.trans herror, .trans (Changes.one rfl hset) (hvisited _)⟩
        · exact .inr ⟨_, hbound, .trans (Changes.one rfl hset) (hvisited _), hrun.trans hok⟩
      | some actual =>
        rw [htype] at hrun
        obtain ⟨v, hv, hactual⟩ := Option.bind_eq_some_iff.mp htype
        by_cases hne : actual = expected
        · have hfixed (id' : Nat) (v' : Variable) (type : Ty)
              (hid' : s.tree.lookupVariable? c.scope name = some id')
              (hv' : s.tree.vars[id']? = some v') (htype' : v'.type = some type) :
              type = expected := by
            cases hid.symm.trans hid'
            cases hv.symm.trans hv'
            cases hactual.symm.trans htype'
            exact hne
          replace hrun := hrun.trans (congrFun (if_neg fun h => h hne) s)
          rcases loopNode_cases d hfixed with ⟨p, herror⟩ | ⟨hbound, hok⟩
          · exact .inl ⟨p, _, hrun.trans herror, hvisited s⟩
          · exact .inr ⟨_, hbound, hvisited s, hrun.trans hok⟩
        · replace hrun := hrun.trans (congrFun (if_pos hne) s)
          exact .inl ⟨_, s, hrun, .refl⟩
  | _ => exact .inl ⟨_, s, rfl, .refl⟩

theorem Walks.loopVariable {expected : Ty} (he : nodes e) :
    Walks t nodes [(c, e)] (fun _ _ => True) (Resolve.loopVariable c e expected) := by
  have hwalks : Walks t nodes [] (fun _ _ => True) (Resolve.loopVariable c e expected) := by
    intro s hs
    have hmono (y : Expr) (hy : y = e) : nodes y := hy ▸ he
    rcases loopVariable_cases c e expected s with
      ⟨d, s', hrun, hchanges⟩ | ⟨s₁, -, hchanges, hrun⟩
    · exact .error hrun (hchanges.mono hmono)
    · exact .ok hrun ((hchanges.mono hmono).tail ⟨e, he, .typed e s₁ expected⟩) trivial nofun
  exact hwalks.single fun s _ s' h => .inr ⟨expected, h⟩

/-- The variable of a loop over an array gets its type, then its array. -/
theorem Walks.iterate {β : Type} {met : List (Context × Expr)} {post : β → Typing → Prop}
    {l : Label} {item iterable body : Expr} {element : Ty} {y : Resolve β}
    (hloop : nodes (.forIn l item iterable body)) (hitem : nodes item)
    (hy : Walks t nodes met post y) :
    Walks t nodes ((c, item) :: met) post (do
      Resolve.loopVariable c item element
      let slots ← Resolve.orFail .noLoopSlots span ((← Resolve.tree).loopSlotsOf? l.id)
      modify fun s => { s with tree := s.tree.setVariableType slots.array type }
      y) := by
  have hvariable : Walks t nodes [(c, item)] (fun _ _ => True)
      (Resolve.loopVariable c item element) := .loopVariable hitem
  intro s hs
  rcases (hvariable s hs).cases with
    ⟨d, s', hrun, hchanges⟩ | ⟨_, s', hrun, hchanges, -, hmeets⟩
  · exact .error (EStateM.bind_error hrun) hchanges
  refine WalksFrom.next hrun hchanges hmeets (.look ?_)
  rcases loopVariable_cases c item element s with ⟨d, s₁, herror, -⟩ | ⟨s₁, -, -, hok⟩
  · cases hrun.symm.trans herror
  cases hrun.symm.trans hok
  cases hslots : s₁.tree.loopSlotsOf? l.id with
  | none => exact .error rfl .refl
  | some slots =>
    have harray : Changes nodes { s₁ with types := (item.id, element) :: s₁.types }
        ⟨s₁.tree.setVariableType slots.array type, (item.id, element) :: s₁.types, s₁.visits⟩ :=
      .one hloop (.iterated type rfl hslots)
    exact .lead rfl .refl (.lead rfl harray
      (hy _ (hs.trans (hchanges.refines.trans harray.refines))))

end Steps

/-- The nodes right below a node that the walk comes to, in the context in which it does. -/
def Context.next (c : Context) (t : ScopeTree) (e : Expr) : List (Context × Expr) :=
  if e.isVariable then [] else e.children.map (c.below t e, ·)

/-- The visit of a node comes to the nodes right below, and gives the node its type. -/
def WalksNode (e : Expr) : Prop :=
  ∀ t c, Walks t e.Reaches (c.next t e) (fun type s => (e.id, type) ∈ s.types) (visit c e)

section Nodes

variable {t : ScopeTree} {nodes : Expr → Prop} {c : Context} {e x : Expr} {es : List Expr}

/-- A node below is visited. -/
theorem WalksNode.visited (h : WalksNode x) (hx : ∀ y, x.Reaches y → nodes y) :
    Walks t nodes [(c, x)] (fun _ _ => True) (visit c x) := by
  have hvisit : Walks t nodes [] (fun _ _ => True) (visit c x) :=
    (h t c).mono hx nofun fun _ _ _ => trivial
  exact hvisit.single fun s type s' h => .inl ⟨type, h⟩

theorem Walks.visitAll (h : ∀ x ∈ es, WalksNode x) (hes : ∀ x ∈ es, ∀ y, x.Reaches y → nodes y) :
    Walks t nodes (es.map (c, ·)) (fun _ _ => True) (Resolve.visitAll c es) := by
  induction es with
  | nil => exact (Keeps.pure _).walks
  | cons x es ih =>
    obtain ⟨hx, hrest⟩ := List.forall_mem_cons.mp h
    obtain ⟨hnodes, hes⟩ := List.forall_mem_cons.mp hes
    exact (hx.visited hnodes).bind fun type => (ih hrest hes).finish fun types =>
      (Keeps.pure _).walks

theorem Walks.visitElements {known : Option Ty} (h : ∀ x ∈ es, WalksNode x)
    (hes : ∀ x ∈ es, ∀ y, x.Reaches y → nodes y) :
    Walks t nodes (es.map (c, ·)) (fun _ _ => True) (Resolve.visitElements c known es) := by
  induction es generalizing known with
  | nil => exact (Keeps.pure _).walks
  | cons x es ih =>
    obtain ⟨hx, hrest⟩ := List.forall_mem_cons.mp h
    obtain ⟨hnodes, hes⟩ := List.forall_mem_cons.mp hes
    exact (hx.visited hnodes).bind fun type => Keeps.joinElement.lead fun _ => ih hrest hes

theorem Walks.visitMembers {functions : Bool} (h : ∀ x ∈ es, WalksNode x)
    (hes : ∀ x ∈ es, ∀ y, x.Reaches y → nodes y) :
    Walks t nodes ((es.filter (·.isFunction = functions)).map (c, ·)) (fun _ _ => True)
      (Resolve.visitMembers c functions es) := by
  induction es with
  | nil => exact (Keeps.pure _).walks
  | cons x es ih =>
    obtain ⟨hx, hrest⟩ := List.forall_mem_cons.mp h
    obtain ⟨hnodes, hes⟩ := List.forall_mem_cons.mp hes
    rw [Resolve.visitMembers, List.filter_cons]
    simp only [decide_eq_true_eq]
    split
    · exact (hx.visited hnodes).discard.bind fun _ => ih hrest hes
    · exact ih hrest hes

theorem Walks.visitOption {o : Option Expr} (h : ∀ x ∈ o, WalksNode x)
    (ho : ∀ x ∈ o, ∀ y, x.Reaches y → nodes y) :
    Walks t nodes (o.toList.map (c, ·)) (fun _ _ => True) (Resolve.visitOption c o) := by
  cases o with
  | none => exact (Keeps.pure _).walks
  | some x => exact ((h x rfl).visited (ho x rfl)).discard

/-- All members of a block are visited, whichever come first. -/
theorem Walks.members (h : ∀ x ∈ es, WalksNode x) (hes : ∀ x ∈ es, ∀ y, x.Reaches y → nodes y) :
    Walks t nodes (es.map (c, ·)) (fun _ _ => True) (do
      Resolve.visitMembers c true es
      Resolve.visitMembers c false es) := by
  refine ((Walks.visitMembers h hes).bind fun _ => Walks.visitMembers h hes).mono (fun _ h => h)
    (fun m hm => ?_) fun _ _ _ => trivial
  obtain ⟨x, hx, rfl⟩ := List.mem_map.mp hm
  cases hfun : x.isFunction with
  | true => exact List.mem_append_left _ (List.mem_map_of_mem (List.mem_filter.mpr ⟨hx, by simp [hfun]⟩))
  | false => exact List.mem_append_right _ (List.mem_map_of_mem (List.mem_filter.mpr ⟨hx, by simp [hfun]⟩))

/-- In the context of the nodes below, when the node does not open a scope. -/
theorem Context.below_plain (hopens : e.opens = false) : c.below t e = c := by
  obtain ⟨hscope, hfun⟩ := Bool.or_eq_false_iff.mp hopens
  simp [Context.below, ScopeTree.below, hopens, hfun]

theorem Context.below_opening {scope : Nat} (hopens : e.opensScope = true)
    (hscope : t.scopeOf? e.id = some scope) : c.below t e = { c with scope } := by
  have hfun : e.isFunction = false := by
    cases e with
    | function => cases hopens
    | _ => rfl
  simp [Context.below, ScopeTree.below, Expr.opens, hopens, hfun, hscope]

theorem Context.next_plain (hopens : e.opens = false) (hvar : e.isVariable = false) :
    c.next t e = e.children.map (c, ·) := by
  rw [Context.next, hvar, Context.below_plain hopens]
  rfl

theorem Context.next_opening {scope : Nat} (hopens : e.opensScope = true)
    (hscope : t.scopeOf? e.id = some scope) :
    c.next t e = e.children.map ({ c with scope }, ·) := by
  have hvar : e.isVariable = false := by
    cases e with
    | var => cases hopens
    | _ => rfl
  rw [Context.next, hvar, Context.below_opening hopens hscope]
  rfl

/-- All below a node has been dealt with. -/
abbrev WalksBelow (e : Expr) : Prop := ∀ x ∈ e.children, WalksNode x

theorem WalksBelow.visit (h : WalksBelow e) (t : ScopeTree) (c : Context) (x : Expr)
    (hplain : e.isVariable = false) (hx : x ∈ e.children) :
    Walks t e.Reaches [(c, x)] (fun _ _ => True) (visit c x) :=
  (h x hx).visited fun _ hy => .child hplain hx hy

theorem walks_constant {l : Label} {value : Literal} : WalksNode (.constant l value) := by
  intro t c
  cases value with
  | boolean | number | string =>
    rw [visit]
    exact .polled (.self _) ((Keeps.pure _).lead fun _ => .record (.self _))

theorem walks_var {l : Label} {name : String} {d : Option Expr} : WalksNode (.var l name d) := by
  intro t c
  rw [visit]
  exact .polled (.self _) ((Keeps.variableType name).lead fun _ => .record (.self _))

theorem walks_paren {l : Label} {inner : Expr} (h : WalksBelow (.paren l inner)) :
    WalksNode (.paren l inner) := by
  intro t c
  rw [visit, Context.next_plain rfl rfl]
  exact .polled (.self _) ((h.visit t c _ rfl List.mem_cons_self).bind fun _ => .record (.self _))

theorem walks_binary {l : Label} {op : BinaryOp} {left right : Expr}
    (h : WalksBelow (.binary l op left right)) : WalksNode (.binary l op left right) := by
  intro t c
  have hleft := h.visit t c left rfl (by simp)
  have hright := h.visit t c right rfl (by simp)
  rw [visit, Context.next_plain rfl rfl]
  refine .polled (.self _) ?_
  dsimp only
  split
  · exact Keeps.assignmentTarget.lead fun _ => hleft.bind fun _ => hright.bind fun _ =>
      (Keeps.ite (.pure _) .fail).lead fun _ => .record (.self _)
  · exact hleft.bind fun _ => hright.bind fun _ => Keeps.operatorType.lead fun _ =>
      .record (.self _)

theorem walks_cond {l : Label} {condition branch : Expr} {other : Option Expr}
    (h : WalksBelow (.cond l condition branch other)) :
    WalksNode (.cond l condition branch other) := by
  intro t c
  have hcond := h.visit t c condition rfl (by simp)
  have hbranch := h.visit t c branch rfl (by simp)
  rw [visit, Context.next_plain rfl rfl]
  refine .polled (.self _) (hcond.bind fun _ => (Keeps.ite (.pure _) .fail).lead fun _ =>
    hbranch.bind fun type => ?_)
  cases other with
  | none => exact (Keeps.pure _).lead fun _ => .record (.self _)
  | some other =>
    have hother := h.visit t c other rfl (by simp)
    refine hother.bind fun otherType => ?_
    dsimp only
    split
    · exact .record (.self _)
    · exact .failing

theorem walks_whileLoop {l : Label} {condition body : Expr}
    (h : WalksBelow (.whileLoop l condition body)) : WalksNode (.whileLoop l condition body) := by
  intro t c
  have hcond := h.visit t c condition rfl (by simp)
  have hbody := h.visit t c body rfl (by simp)
  rw [visit, Context.next_plain rfl rfl]
  exact .polled (.self _) (hcond.bind fun _ => (Keeps.ite (.pure _) .fail).lead fun _ =>
    hbody.discard.bind fun _ => .record (.self _))

theorem walks_repeatUntil {l : Label} {body condition : Expr}
    (h : WalksBelow (.repeatUntil l body condition)) :
    WalksNode (.repeatUntil l body condition) := by
  intro t c
  have hbody := h.visit t c body rfl (by simp)
  have hcond := h.visit t c condition rfl (by simp)
  rw [visit, Context.next_plain rfl rfl]
  exact .polled (.self _) (hbody.discard.bind fun _ => hcond.bind fun _ =>
    (Keeps.ite (.pure _) .fail).lead fun _ => .record (.self _))

theorem walks_call {l : Label} {name : String} {args : List Expr}
    (h : WalksBelow (.call l name args)) : WalksNode (.call l name args) := by
  intro t c
  rw [visit, Context.next_plain rfl rfl]
  exact .polled (.self _) ((Walks.visitAll h fun x hx _ hy => .child rfl hx hy).finish fun _ =>
    Keeps.callType.lead fun _ => .record (.self _))

theorem walks_array {l : Label} {elements : List Expr} (h : WalksBelow (.array l elements)) :
    WalksNode (.array l elements) := by
  intro t c
  rw [visit, Context.next_plain rfl rfl]
  exact .polled (.self _) ((Walks.visitElements h fun x hx _ hy => .child rfl hx hy).finish fun _ =>
    (Keeps.pure _).lead fun _ => .record (.self _))

theorem walks_ret {l : Label} {value : Option Expr} (h : WalksBelow (.ret l value)) :
    WalksNode (.ret l value) := by
  intro t c
  rw [visit, Context.next_plain rfl rfl]
  refine .polled (.self _) (.guard ?_)
  cases value with
  | none => exact (Walks.settleReturn (.self (.ret l none))).bind fun _ => .record (.self _)
  | some value =>
    exact (h.visit t c _ rfl List.mem_cons_self).bind fun _ =>
      (Walks.settleReturn (.self (.ret l (some value)))).bind fun _ => .record (.self _)

theorem walks_element {l : Label} {array : Expr} {index : Option Expr}
    (h : WalksBelow (.element l array index)) : WalksNode (.element l array index) := by
  intro t c
  rw [visit, Context.next_plain rfl rfl]
  refine .polled (.self _) ?_
  cases index with
  | none => exact .failing
  | some index =>
    have harray := h.visit t c array rfl (by simp)
    have hindex := h.visit t c index rfl (by simp)
    exact harray.bind fun _ => Keeps.indexedElement.lead fun _ => hindex.bind fun _ =>
      .guard (.guard ((Keeps.pure _).lead fun _ => .record (.self _)))

theorem walks_block {l : Label} {body : List Expr} (h : WalksBelow (.block l body)) :
    WalksNode (.block l body) := by
  intro t c
  rw [visit]
  refine .polled (.self _) (.within fun scope hscope => ?_)
  rw [Context.next_opening rfl hscope]
  have hmembers : Walks t (Expr.block l body).Reaches (body.map ({ c with scope }, ·))
      (fun type s => ((Expr.block l body).id, type) ∈ s.types) ((do
        Resolve.visitMembers { c with scope } true body
        Resolve.visitMembers { c with scope } false body) >>= fun _ =>
          lastType body >>= fun type => do record l.id type; return type) :=
    (Walks.members h fun x hx _ hy => .child rfl hx hy).finish fun _ =>
      Keeps.lead (fun s => .inl ⟨_, rfl⟩) fun _ => .record (.self (Expr.block l body))
  rw [bind_assoc] at hmembers
  exact hmembers

theorem walks_forLoop {l : Label} {init condition step : Option Expr} {body : Expr}
    (h : WalksBelow (.forLoop l init condition step body)) :
    WalksNode (.forLoop l init condition step body) := by
  intro t c
  rw [visit]
  refine .polled (.self _) (.within fun scope hscope => ?_)
  rw [Context.next_opening rfl hscope]
  have hopt {o : Option Expr} (ho : ∀ x ∈ o, x ∈ (Expr.forLoop l init condition step body).children) :
      Walks t (Expr.forLoop l init condition step body).Reaches (o.toList.map ({ c with scope }, ·))
        (fun _ _ => True) (Resolve.visitOption { c with scope } o) :=
    .visitOption (fun x hx => h x (ho x hx)) fun x hx _ hy => .child rfl (ho x hx) hy
  have hinit := hopt (o := init) fun x hx => by simp [Option.mem_def.mp hx]
  have hstep := hopt (o := step) fun x hx => by simp [Option.mem_def.mp hx]
  have hbody := h.visit t { c with scope } body rfl (by simp)
  simp only [Expr.children, List.map_append, List.append_assoc]
  refine hinit.bind fun _ => ?_
  have hend : Walks t (Expr.forLoop l init condition step body).Reaches []
      (fun type s => ((Expr.forLoop l init condition step body).id, type) ∈ s.types)
      (do record l.id .empty; return .empty) := .record (.self _)
  have hrest := hstep.bind fun _ => hbody.discard.bind fun _ => hend
  cases condition with
  | none => exact hrest
  | some condition =>
    have hcond := h.visit t { c with scope } condition rfl (by simp)
    exact hcond.bind fun _ => (Keeps.ite (.pure _) .fail).lead fun _ => hrest

theorem walks_forTo {l : Label} {counter start bound body : Expr} {direction : Direction}
    (h : WalksBelow (.forTo l counter start bound direction body)) :
    WalksNode (.forTo l counter start bound direction body) := by
  intro t c
  rw [visit]
  refine .polled (.self _) (.within fun scope hscope => ?_)
  rw [Context.next_opening rfl hscope]
  have hcounter : (Expr.forTo l counter start bound direction body).Reaches counter :=
    .child rfl (by simp) (.self _)
  have hstart := h.visit t { c with scope } start rfl (by simp)
  have hbound := h.visit t { c with scope } bound rfl (by simp)
  have hbody := h.visit t { c with scope } body rfl (by simp)
  exact (Walks.loopVariable hcounter).bind fun _ => hstart.bind fun _ =>
    (Keeps.ite (.pure _) .fail).lead fun _ => hbound.bind fun _ =>
      (Keeps.ite (.pure _) .fail).lead fun _ => hbody.discard.bind fun _ => .record (.self _)

theorem walks_forIn {l : Label} {item iterable body : Expr}
    (h : WalksBelow (.forIn l item iterable body)) : WalksNode (.forIn l item iterable body) := by
  intro t c
  rw [visit]
  refine .polled (.self _) (.within fun scope hscope => ?_)
  rw [Context.next_opening rfl hscope]
  have hitem : (Expr.forIn l item iterable body).Reaches item :=
    .child rfl (by simp) (.self _)
  have hiterable := h.visit t { c with scope } iterable rfl (by simp)
  have hbody := h.visit t { c with scope } body rfl (by simp)
  -- the walk comes to the array before the variable
  have hperm : ∀ m ∈ (Expr.forIn l item iterable body).children.map ({ c with scope }, ·),
      m ∈ [({ c with scope }, iterable), ({ c with scope }, item), ({ c with scope }, body)] := by
    simp
  refine Walks.mono ?_ (fun _ h => h) hperm fun _ _ h => h
  exact hiterable.bind fun _ => Keeps.iterableElement.lead fun _ =>
    .iterate (.self (.forIn l item iterable body)) hitem
      (hbody.discard.bind fun _ => .record (.self (.forIn l item iterable body)))

theorem walks_function {l : Label} {name : String} {params : List Expr} {body : Expr}
    (h : WalksBelow (.function l name params body)) :
    WalksNode (.function l name params body) := by
  intro t c
  rw [visit]
  refine .polled (.self _) (.tree fun t₀ ht₀ => .orFail fun id hid => .within fun scope hscope => ?_)
  have hnext : c.next t (.function l name params body) =
      params.map ({ c with scope, function := id }, ·) ++
        [({ c with scope, function := id }, body)] := by
    have hfunction : t.functionOf? l.id = some id := by
      rw [functionOf?, ht₀.nodeFunctions] at hid
      exact hid
    have hscope : t.scopeOf? l.id = some scope := hscope
    simp [Context.next, Context.below, ScopeTree.below, Expr.opens, Expr.isVariable,
      Expr.isFunction, Expr.children, Expr.id, Expr.label, hfunction, hscope]
  rw [hnext]
  have hparams : Walks t (Expr.function l name params body).Reaches
      (params.map ({ c with scope, function := id }, ·)) (fun _ _ => True)
      (Resolve.visitAll { c with scope, function := id } params) :=
    .visitAll (fun x hx => h x (List.mem_append_left _ hx)) fun x hx _ hy =>
      .child rfl (List.mem_append_left _ hx) hy
  have hbody := h.visit t { c with scope, function := id } body rfl (by simp)
  refine hparams.bind fun types => .tree fun t₁ _ => ?_
  cases t₁.resolveCall? c.scope name types with
  | none => exact .failing
  | some o =>
    obtain ⟨oname, oparams, callee⟩ := o
    cases callee with
    | native => exact .failing
    | script found =>
      exact .guard (hbody.bind fun _ => (Walks.settleReturn (.self (.function l name params body))).bind
        fun _ => .record (.self (.function l name params body)))

theorem walksNode (e : Expr) : WalksNode e := by
  induction e using Expr.children_induction with
  | step e h =>
    cases e with
    | constant => exact walks_constant
    | var => exact walks_var
    | binary => exact walks_binary h
    | function => exact walks_function h
    | block => exact walks_block h
    | cond => exact walks_cond h
    | forLoop => exact walks_forLoop h
    | forTo => exact walks_forTo h
    | forIn => exact walks_forIn h
    | whileLoop => exact walks_whileLoop h
    | repeatUntil => exact walks_repeatUntil h
    | call => exact walks_call h
    | ret => exact walks_ret h
    | paren => exact walks_paren h
    | element => exact walks_element h
    | array => exact walks_array h

end Nodes

end Resolve

end TurtleScript
