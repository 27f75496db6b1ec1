import TurtleScript.Proofs.Scope.Outline

/-!
# Names and the variables without a type

A declaration gives a name of one scope to a new variable and takes none away, so a variable
belongs to one scope. The only variables that are declared without a type are those of loops:
the variable that a loop runs through, in the scope of the loop, and the array it goes over.
-/
namespace TurtleScript

/-- The variable of a loop. -/
def Expr.loopVariable? : Expr → Option Expr
  | .forTo _ counter .. => some counter
  | .forIn _ item .. => some item
  | _ => none

namespace ScopeTree

variable {host : Host} {t t' t'' : ScopeTree} {scope function i id : Nat} {f : FunctionRecord}
  {name name' : String} {type : Option Ty} {span : Span} {e : Expr} {nodes : Expr → Prop}

theorem Layout.variableIn?_lt (h : Layout host t) (hid : t.variableIn? name i = some id) :
    id < t.vars.size := by
  obtain ⟨s, hs, hlookup⟩ := Option.bind_eq_some_iff.mp hid
  obtain ⟨l₁, l₂, hvars, -⟩ := List.lookup_eq_some_iff.mp hlookup
  obtain ⟨v, hv, -⟩ := h.names i s hs (foldName name, id) (by simp [hvars])
  exact (Array.getElem?_eq_some_iff.mp hv).1

theorem variableIn?_addLocal : (t.addLocal scope function f name type span).variableIn? name' i =
    if i = scope ∧ foldName name' = foldName name ∧ scope < t.scopes.size then some t.vars.size
    else t.variableIn? name' i := by
  simp only [variableIn?, addLocal, Array.getElem?_modify]
  by_cases hi : scope = i
  · subst hi
    cases hs : t.scopes[scope]? with
    | none =>
      have hout : ¬ scope < t.scopes.size := by simpa using hs
      simp [hout]
    | some s =>
      have hin := (Array.getElem?_eq_some_iff.mp hs).1
      by_cases hname : foldName name' = foldName name
      · simp [hname, hin]
      · simp [hname, List.lookup_cons, beq_false_of_ne hname]
  · simp [hi, Ne.symm hi]

theorem variableIn?_addOverload {o : Overload} :
    (t.addOverload scope o).variableIn? name i = t.variableIn? name i := by
  simp only [variableIn?, addOverload, Array.getElem?_modify]
  split
  · cases t.scopes[i]? <;> rfl
  · rfl

theorem variableIn?_pushScope {parent : Nat} :
    (t.pushScope parent function).2.variableIn? name i = t.variableIn? name i := by
  simp only [variableIn?, pushScope, Array.getElem?_modify, Array.getElem?_push]
  grind

theorem vars_of_addLocal {v : Variable}
    (h : (t.addLocal scope function f name type span).vars[id]? = some v) :
    t.vars[id]? = some v ∨ id = t.vars.size ∧ v.type = type :=
  (of_getElem?_push h).imp_right fun hv => ⟨hv.1, congrArg Variable.type hv.2⟩

theorem variableIn?_start : ({} : ScopeTree).variableIn? name i = none := by
  cases i <;> rfl

/-- A variable is declared only where its name is new. -/
theorem variableIn?_of_declareLocal {r : Nat × ScopeTree}
    (h : t.declareLocal scope function name type span = .ok r) :
    t.variableIn? name scope = none := by
  rw [declareLocal, declareVariable] at h
  split at h
  · cases h
  case isFalse hfree => simpa using hfree

/-- No variable belongs to two scopes. -/
def Single (t : ScopeTree) : Prop :=
  ∀ (i j : Nat) (name name' : String) (id : Nat), t.variableIn? name i = some id →
    t.variableIn? name' j = some id → i = j

theorem Single.start : Single {} := by
  intro i j name name' id hi
  rw [variableIn?_start] at hi
  cases hi

/-- Declarations that take no name away and give none to a variable of another scope. -/
structure KeepsNames (t t' : ScopeTree) : Prop where
  single : t.Single → t'.Single
  kept : ∀ (name : String) (i id : Nat), t.variableIn? name i = some id →
    t'.variableIn? name i = some id

namespace KeepsNames

theorem of_eq (h : ∀ name i, t'.variableIn? name i = t.variableIn? name i) : KeepsNames t t' where
  single := by
    intro hsingle i j name name' id hi hj
    rw [h] at hi hj
    exact hsingle i j name name' id hi hj
  kept := fun name i id hid => (h name i).trans hid

theorem trans (h : KeepsNames t t') (h' : KeepsNames t' t'') : KeepsNames t t'' where
  single := fun hsingle => h'.single (h.single hsingle)
  kept := fun name i id hid => h'.kept name i id (h.kept name i id hid)

theorem addLocal (hlayout : Layout host t) (hfree : t.variableIn? name scope = none) :
    KeepsNames t (t.addLocal scope function f name type span) where
  single := by
    intro hsingle i j name₁ name₂ id hi hj
    rw [variableIn?_addLocal] at hi hj
    split at hi <;> split at hj
    case isTrue.isTrue hi' hj' => exact hi'.1.trans hj'.1.symm
    -- the number of the new variable was not given before
    case isTrue.isFalse => exact absurd (hlayout.variableIn?_lt hj) (by simp_all)
    case isFalse.isTrue => exact absurd (hlayout.variableIn?_lt hi) (by simp_all)
    case isFalse.isFalse => exact hsingle i j name₁ name₂ id hi hj
  kept := by
    intro name' i id hid
    rw [variableIn?_addLocal, if_neg, hid]
    rintro ⟨rfl, hname, -⟩
    rw [variableIn?, hname, ← variableIn?, hfree] at hid
    cases hid

theorem declareLocal (hlayout : Layout host t) (hf : t.functions[function]? = some f)
    (h : t.declareLocal scope function name type span = .ok (id, t')) : KeepsNames t t' := by
  obtain ⟨-, rfl⟩ := declareLocal_eq_ok hf h
  exact .addLocal hlayout (variableIn?_of_declareLocal h)

end KeepsNames

/-- The loop `e` over an array has these hidden variables, the array in its own scope. -/
def HoldsArray (t : ScopeTree) (e : Expr) (p : Nat × LoopSlots) : Prop :=
  ∃ l item iterable body name i, e = .forIn l item iterable body ∧ p.1 = l.id ∧
    (l.id, i) ∈ t.nodeScopes ∧ t.variableIn? name i = some p.2.array

/-- The loop `e` declares its variable in its own scope, without a type. -/
def HoldsVariable (t : ScopeTree) (e : Expr) (id : Nat) : Prop :=
  ∃ l name i, e.loopVariable? = some (.var l name none) ∧ (e.id, i) ∈ t.nodeScopes ∧
    t.variableIn? name i = some id

theorem HoldsArray.mono {p : Nat × LoopSlots} (hg : Grows t t') (hn : KeepsNames t t')
    (h : t.HoldsArray e p) : t'.HoldsArray e p := by
  obtain ⟨l, item, iterable, body, name, i, he, hp, hscope, hid⟩ := h
  exact ⟨l, item, iterable, body, name, i, he, hp, hg.nodeScopes hscope, hn.kept name i _ hid⟩

theorem HoldsVariable.mono (hg : Grows t t') (hn : KeepsNames t t') (h : t.HoldsVariable e id) :
    t'.HoldsVariable e id := by
  obtain ⟨l, name, i, he, hscope, hid⟩ := h
  exact ⟨l, name, i, he, hg.nodeScopes hscope, hn.kept name i id hid⟩

/-- What a part of the walk that enters `nodes` declares. -/
structure Declaring (nodes : Expr → Prop) (t t' : ScopeTree) : Prop extends KeepsNames t t' where
  loops : ∀ p ∈ t'.loopSlots, p ∈ t.loopSlots ∨ ∃ e, nodes e ∧ t'.HoldsArray e p
  untyped : ∀ (id : Nat) (v : Variable), t'.vars[id]? = some v → v.type = none →
    t.vars[id]? = some v ∨ t'.IsLoopArray id ∨ ∃ e, nodes e ∧ t'.HoldsVariable e id

namespace Declaring

theorem of_same (hn : KeepsNames t t') (hloops : t'.loopSlots = t.loopSlots)
    (hvars : t'.vars = t.vars) : Declaring nodes t t' :=
  { hn with
    loops := fun _ hp => .inl (hloops ▸ hp)
    untyped := fun _ _ hv _ => .inl (hvars ▸ hv) }

theorem refl (t : ScopeTree) : Declaring nodes t t := of_same (.of_eq fun _ _ => rfl) rfl rfl

theorem trans (hg : Grows t' t'') (h : Declaring nodes t t') (h' : Declaring nodes t' t'') :
    Declaring nodes t t'' :=
  { h.toKeepsNames.trans h'.toKeepsNames with
    loops := by
      intro p hp
      rcases h'.loops p hp with hp | hnew
      · rcases h.loops p hp with hp | ⟨e, he, harray⟩
        · exact .inl hp
        · exact .inr ⟨e, he, harray.mono hg h'.toKeepsNames⟩
      · exact .inr hnew
    untyped := by
      intro id v hv htype
      rcases h'.untyped id v hv htype with hv | hnew
      · rcases h.untyped id v hv htype with hv | ⟨p, hp, hid⟩ | ⟨e, he, hvariable⟩
        · exact .inl hv
        · exact .inr (.inl ⟨p, hg.loopSlots hp, hid⟩)
        · exact .inr (.inr ⟨e, he, hvariable.mono hg h'.toKeepsNames⟩)
      · exact .inr hnew }

theorem mono {nodes' : Expr → Prop} (h : Declaring nodes t t') (himp : ∀ e, nodes e → nodes' e) :
    Declaring nodes' t t' :=
  { h.toKeepsNames with
    loops := fun p hp => (h.loops p hp).imp_right fun ⟨e, he, harray⟩ => ⟨e, himp e he, harray⟩
    untyped := fun id v hv htype => (h.untyped id v hv htype).imp_right <| Or.imp_right
      fun ⟨e, he, hvariable⟩ => ⟨e, himp e he, hvariable⟩ }

theorem addScope {parent node : Nat} : Declaring nodes t (t.addScope parent function node) :=
  of_same (.of_eq fun _ _ => variableIn?_pushScope) rfl rfl

theorem addFunction {node : Nat} {types : List Ty} :
    Declaring nodes t (t.addFunction scope node name span types) :=
  of_same (.of_eq fun _ _ => variableIn?_addOverload) rfl rfl

theorem setParams {count : Nat} (h : Declaring nodes t t') : Declaring nodes t (t'.setParams id count) :=
  ⟨⟨h.single, h.kept⟩, h.loops, h.untyped⟩

/-- A local with a type. -/
theorem addLocal {ty : Ty} (hlayout : Layout host t) (hfree : t.variableIn? name scope = none) :
    Declaring nodes t (t.addLocal scope function f name (some ty) span) :=
  { KeepsNames.addLocal hlayout hfree with
    loops := fun _ hp => .inl hp
    untyped := by
      intro id v hv htype
      rcases vars_of_addLocal hv with hv | ⟨-, hty⟩
      · exact .inl hv
      · cases hty.symm.trans htype }

/-- The variable of a loop that has its scope. -/
theorem addLoopVariable {l : Label} (hlayout : Layout host t)
    (hfree : t.variableIn? name scope = none) (hscope : scope < t.scopes.size)
    (hloop : e.loopVariable? = some (.var l name none)) (hnode : (e.id, scope) ∈ t.nodeScopes) :
    Declaring (· = e) t (t.addLocal scope function f name none span) :=
  { KeepsNames.addLocal hlayout hfree with
    loops := fun _ hp => .inl hp
    untyped := by
      intro id v hv _
      rcases vars_of_addLocal hv with hv | ⟨rfl, -⟩
      · exact .inl hv
      · refine .inr (.inr ⟨e, rfl, l, name, scope, hloop, hnode, ?_⟩)
        rw [variableIn?_addLocal, if_pos ⟨rfl, rfl, hscope⟩] }

/-- The hidden variables of a loop over an array that has its scope. -/
theorem addLoop {l : Label} {item iterable body : Expr} {slots : LoopSlots}
    (hnames : KeepsNames t t') (hloops : t'.loopSlots = t.loopSlots)
    (hvars : ∀ (id : Nat) (v : Variable), t'.vars[id]? = some v → v.type = none →
      t.vars[id]? = some v ∨ slots.array = id)
    (hnode : (l.id, scope) ∈ t'.nodeScopes) (harray : t'.variableIn? name scope = some slots.array) :
    Declaring (· = .forIn l item iterable body) t (t'.addLoop l.id slots) :=
  { hnames with
    loops := by
      intro p hp
      rcases List.mem_cons.mp hp with rfl | hp
      · exact .inr ⟨_, rfl, l, item, iterable, body, name, scope, rfl, rfl, hnode, harray⟩
      · exact .inl (hloops ▸ hp)
    untyped := fun id v hv htype => (hvars id v hv htype).imp_right fun hid =>
      .inl ⟨(l.id, slots), List.mem_cons_self, hid⟩ }

end Declaring

end ScopeTree

open ScopeTree

namespace Building

variable {host : Host} {b : Building} {scope function : Nat} {name : String} {type : Option Ty}
  {span : Span} {e : Expr} {nodes : Expr → Prop}

theorem free_of_declareLocal (h : (b.declareLocal scope function name type span).problems = []) :
    b.tree.variableIn? name scope = none := by
  obtain ⟨-, tree, hok, -⟩ := accept_clean h
  cases hdeclare : b.tree.declareLocal scope function name type span with
  | error problem => rw [hdeclare] at hok; cases hok
  | ok r => exact variableIn?_of_declareLocal hdeclare

theorem declaring_declareLocal {ty : Ty}
    (h : (b.declareLocal scope function name (some ty) span).problems = [])
    (hlayout : Layout host b.tree) (hfunction : function < b.tree.functions.size) :
    Declaring nodes b.tree (b.declareLocal scope function name (some ty) span).tree := by
  have hfree := free_of_declareLocal h
  rw [declareLocal_clean h (Array.getElem?_eq_getElem hfunction)]
  exact .addLocal hlayout hfree

theorem declaring_declare {type : Expr} (h : (b.declare scope function name type span).problems = [])
    (hlayout : Layout host b.tree) (hfunction : function < b.tree.functions.size) :
    Declaring nodes b.tree (b.declare scope function name type span).tree := by
  rw [declare] at h ⊢
  split at h
  · simp [report] at h
  case isFalse hname =>
    rw [if_neg hname]
    cases hty : declaredType? type with
    | none => simp [hty, report] at h
    | some ty =>
      rw [hty] at h
      exact declaring_declareLocal h hlayout hfunction

theorem declaring_declareLoopVariable {item : Expr}
    (h : (b.declareLoopVariable scope function item).problems = [])
    (hlayout : Layout host b.tree) (hfunction : function < b.tree.functions.size)
    (hscope : scope < b.tree.scopes.size) (hloop : e.loopVariable? = some item)
    (hnode : (e.id, scope) ∈ b.tree.nodeScopes) :
    Declaring (· = e) b.tree (b.declareLoopVariable scope function item).tree := by
  cases item with
  | var l name d =>
    cases d with
    | some type => exact declaring_declare h hlayout hfunction
    | none =>
      rw [declareLoopVariable] at h ⊢
      split at h
      case isTrue hfound =>
        rw [if_pos hfound]
        exact .refl _
      case isFalse hfound =>
        rw [if_neg hfound]
        split at h
        · simp [report] at h
        case isFalse hname =>
          have hfree := free_of_declareLocal h
          rw [if_neg hname, declareLocal_clean h (Array.getElem?_eq_getElem hfunction)]
          exact .addLoopVariable hlayout hfree hscope hloop hnode
  | _ => simp [declareLoopVariable, report] at h

theorem declaring_declareLoopSlots {l : Label} {item iterable body : Expr}
    (h : (b.declareLoopSlots scope function l).problems = [])
    (hlayout : Layout host b.tree) (hfunction : function < b.tree.functions.size)
    (hscope : scope < b.tree.scopes.size) (hnode : (l.id, scope) ∈ b.tree.nodeScopes) :
    Declaring (· = .forIn l item iterable body) b.tree
      (b.declareLoopSlots scope function l).tree := by
  obtain ⟨-, array, t₁, index, t₂, harray, hindex, htree⟩ := declareLoopSlots_clean h
  have hf := Array.getElem?_eq_getElem hfunction
  obtain ⟨-, hquiet₁, hlayout₁, hf₁, -⟩ := declareLocal_step hlayout hf (by simp) harray
  obtain ⟨-, hquiet₂, -⟩ := declareLocal_step hlayout₁ hf₁ (by simp) hindex
  have hnames₂ := KeepsNames.declareLocal hlayout₁ hf₁ hindex
  obtain ⟨rfl, ht₁⟩ := declareLocal_eq_ok hf harray
  obtain ⟨-, ht₂⟩ := declareLocal_eq_ok hf₁ hindex
  rw [htree]
  refine .addLoop ((KeepsNames.declareLocal hlayout hf harray).trans hnames₂)
    (hquiet₂.sameLoops.trans hquiet₁.sameLoops) (fun id v hv htype => ?_)
    (hquiet₂.nodeScopes (hquiet₁.nodeScopes hnode)) (hnames₂.kept s!"$array{l.id}" scope _ ?_)
  · rcases vars_of_addLocal (ht₂ ▸ hv) with hv | ⟨-, hty⟩
    · exact (vars_of_addLocal (ht₁ ▸ hv)).imp_right fun hid => hid.1.symm
    · cases hty.symm.trans htype
  · rw [ht₁, variableIn?_addLocal, if_pos ⟨rfl, rfl, hscope⟩]

theorem declaring_declareParams {inner id : Nat} {params : List Parameter}
    (h : (b.declareParams inner id params).problems = []) (hlayout : Layout host b.tree)
    (hfunction : id < b.tree.functions.size) (htypes : ∀ p ∈ params, p.type ≠ .empty) :
    Declaring nodes b.tree (b.declareParams inner id params).tree := by
  induction params generalizing b with
  | nil => exact .refl _
  | cons p params ih =>
    have hrest : ((b.declareLocal inner id p.name (some p.type) p.span).declareParams inner id
        params).problems = [] := h
    have hclean := declareParams_clean hrest
    have hfirst : Declaring nodes b.tree _ := declaring_declareLocal hclean hlayout hfunction
    have hf := Array.getElem?_eq_getElem hfunction
    have hne : some p.type ≠ some .empty := fun he =>
      htypes p List.mem_cons_self (Option.some.inj he)
    have hmore (q : Parameter) (hq : q ∈ params) := htypes q (List.mem_cons_of_mem p hq)
    have hfold : b.declareParams inner id (p :: params) =
        (b.declareLocal inner id p.name (some p.type) p.span).declareParams inner id params := rfl
    rw [declareLocal_clean hclean hf] at hrest hfirst hfold
    have hlayout₁ : Layout host (b.tree.addLocal inner id _ p.name (some p.type) p.span) :=
      hlayout.addLocal hf hne
    have hf₁ : (b.tree.addLocal inner id _ p.name (some p.type) p.span).functions[id]? = some _ :=
      functions_addLocal hf
    have hquiet := (declareParams_step params hrest hlayout₁ hf₁ hmore).1
    rw [hfold]
    exact hfirst.trans hquiet.toGrows
      (ih hrest hlayout₁ (Array.getElem?_eq_some_iff.mp hf₁).1 hmore)

theorem declaring_openFunction {l : Label} {params : List Expr} {opened : Option (Nat × Nat)}
    {b' : Building} (h : b.openFunction scope l name params = (opened, b'))
    (hclean : b'.problems = []) (hlayout : Layout host b.tree) (hmain : main < b.tree.functions.size) :
    Declaring nodes b.tree b'.tree := by
  obtain ⟨-, checked, hcheck, b₁, inner, -, -, htree₁, -, -, hparams, htree⟩ :=
    openFunction_clean h hclean
  have hgood := (checkParameters_declared hcheck).2
  have hlayout₁ : Layout host b₁.tree :=
    htree₁ ▸ (hlayout.addFunction (Nat.ne_of_gt hmain)).addScope
  have hf₁ : b₁.tree.functions[b.tree.functions.size]? =
      some { id := b.tree.functions.size, name, span := l.span } := by
    rw [htree₁, functions_addScope, functions_addFunction]
  have htypes (p : Parameter) (hp : p ∈ checked) := (hgood p hp).1
  have hquiet := (declareParams_step checked hparams hlayout₁ hf₁ htypes).1
  have hfirst : Declaring nodes b.tree b₁.tree := by
    rw [htree₁]
    exact Declaring.addFunction.trans .addScope .addScope
  have hsecond : Declaring nodes b₁.tree _ :=
    declaring_declareParams hparams hlayout₁ (Array.getElem?_eq_some_iff.mp hf₁).1 htypes
  rw [htree]
  exact (hfirst.trans hquiet.toGrows hsecond).setParams

section Entering

variable {b₁ : Building} {inner : Nat} {l : Label} {item iterable body : Expr}

/-- The scope of a loop and its variable. -/
theorem declaring_enterLoop (hopen : b.openScope scope function e.id = (inner, b₁))
    (hwf : Wf host b.tree) (hfunction : function < b.tree.functions.size)
    (hloop : e.loopVariable? = some item)
    (h : (b₁.declareLoopVariable inner function item).problems = []) :
    Declaring (· = e) b.tree (b₁.declareLoopVariable inner function item).tree := by
  have hvariable : Builds host function _ _ _ b₁ (b₁.declareLoopVariable inner function item) :=
    builds_loopVariable item
  obtain ⟨hclean, hafter⟩ := hvariable h
  cases hopen
  have hwf₁ := ((builds_openScope e hclean).2 hwf hfunction).wf
  refine Declaring.addScope.trans (hafter hwf₁ hfunction).grows ?_
  refine declaring_declareLoopVariable h hwf₁.toLayout hfunction ?_ hloop List.mem_cons_self
  simp [bindNode]

/-- The scope of a loop over an array and all its variables. -/
theorem declaring_enterForIn (hopen : b.openScope scope function l.id = (inner, b₁))
    (hwf : Wf host b.tree) (hfunction : function < b.tree.functions.size)
    (h : ((b₁.declareLoopVariable inner function item).declareLoopSlots inner function
      l).problems = []) :
    Declaring (· = .forIn l item iterable body) b.tree
      ((b₁.declareLoopVariable inner function item).declareLoopSlots inner function l).tree := by
  have hslots : Builds host function _ _ _ (b₁.declareLoopVariable inner function item)
      ((b₁.declareLoopVariable inner function item).declareLoopSlots inner function l) :=
    builds_loopSlots (.forIn l item iterable body) rfl
  obtain ⟨hclean, hafter⟩ := hslots h
  have hdeclares : Declaring (· = .forIn l item iterable body) b.tree _ :=
    declaring_enterLoop hopen hwf hfunction rfl hclean
  have houtline : (b₁.declareLoopVariable inner function item).tree.outline = b₁.tree.outline :=
    outline_declareLoopVariable item
  cases hopen
  have henter : Builds host function _ _ _ b _ :=
    builds_enterLoop (.forIn l item iterable body) item scope
  have hentered := (henter hclean).2 hwf hfunction
  have hfunction₁ := Nat.lt_of_lt_of_le hfunction hentered.grows.size_functions
  refine hdeclares.trans (hafter hentered.wf hfunction₁).grows ?_
  refine declaring_declareLoopSlots h hentered.wf.toLayout hfunction₁ ?_
    (hentered.left _ (.refl _)).1
  have hsize := congrArg (·.regions.size) houtline
  simp only [ScopeTree.outline, Array.size_map] at hsize
  rw [hsize]
  simp [bindNode]

end Entering

end Building

end TurtleScript
