import TurtleScript.Proofs.Scope.Growth
import TurtleScript.Proofs.Scope.Renaming
import TurtleScript.Proofs.Tree.Relabelling

/-!
# Two builders in step

The builder goes over one tree twice, from two states of which the second has everything that
the first has and some facts besides. The two runs do the same, under other numbers, as long as
no additional name is met: a declaration is refused in the second run if it is refused in the
first or clashes with what is there besides.
-/
namespace TurtleScript

open ScopeTree

/-- No variable is written with a name that is hidden. -/
def Expr.Unhidden (e : Expr) : Prop :=
  ∀ l name d, .var l name d ∈ e.nodes → ¬ HiddenName (foldName name)

theorem Expr.Unhidden.child {e c : Expr} (h : e.Unhidden) (hc : c ∈ e.children) : c.Unhidden :=
  fun l name d hmem => h l name d (mem_nodes_child hc hmem)

theorem Expr.loopVariable_mem_nodes {e v : Expr} (h : e.loopVariable? = some v) : v ∈ e.nodes := by
  refine mem_nodes_child ?_ (mem_nodes_self v)
  cases e with
  | forTo | forIn =>
    cases h
    exact List.mem_cons_self
  | _ => cases h

theorem Expr.visited_relabel (ν : Nat → Nat) (e : Expr) :
    (e.relabel ν).visited = e.visited.map (relabel ν) := by
  have hchildren := children_relabel ν e
  cases e with
  | var | function | forTo | forIn => rfl
  | _ => exact hchildren

theorem declaredType?_relabel (ν : Nat → Nat) (e : Expr) :
    declaredType? (e.relabel ν) = declaredType? e := by
  cases e with
  | var l name d => cases d <;> rfl
  | element l target index =>
    cases target with
    | var l name d => cases index <;> cases d <;> rfl
    | _ => cases index <;> rfl
  | _ => rfl

namespace Building

theorem checkParameter_relabel (ν : Nat → Nat) (function : String) (position : Nat) (e : Expr) :
    checkParameter function position (e.relabel ν) = checkParameter function position e := by
  cases e with
  | var l name d =>
    cases d with
    | none => rfl
    | some type =>
      simp only [Expr.relabel, Expr.relabelOption, checkParameter, declaredType?_relabel,
        Expr.span_relabel]
  | _ => rfl

theorem checkParameters_relabel (ν : Nat → Nat) (function : String) (params : List Expr) :
    checkParameters function (params.map (Expr.relabel ν)) = checkParameters function params := by
  rw [checkParameters, checkParameters, List.zipIdx_map, List.map_map,
    List.map_congr_left fun p _ => checkParameter_relabel ν function p.2 p.1]

/-- Two runs so far: the second has no problem if the first has none and nothing clashes, and
then it has what the first has and some facts besides. -/
structure Alongside (ρ : Renaming) (extra : Set Fact) (b b' : Building) : Prop where
  clean_iff : b'.problems = [] ↔ b.problems = [] ∧ Agrees ρ extra b.tree
  embeds : b'.problems = [] → Embeds ρ extra b.tree b'.tree

namespace Alongside

variable {ρ : Renaming} {extra : Set Fact} {b b' c c' : Building} {scope function : Nat}
  {name : String} {type : Option Ty} {span : Span}

theorem of_embeds (h : Embeds ρ extra b.tree b'.tree) (hb : b.problems = [])
    (hb' : b'.problems = []) : Alongside ρ extra b b' :=
  ⟨iff_of_true hb' ⟨hb, h.agrees⟩, fun _ => h⟩

theorem of_problem (hb : b.problems = [] → ¬ Agrees ρ extra b.tree) (hb' : b'.problems ≠ []) :
    Alongside ρ extra b b' :=
  ⟨iff_of_false hb' fun h => hb h.1 h.2, fun h => absurd h hb'⟩

theorem of_reports {p p' : ScopeProblem} {span span' : Span} :
    Alongside ρ extra (b.report p span) (b'.report p' span') :=
  of_problem (by simp [report]) (by simp [report])

/-- It is enough to go on from two runs without problems. -/
theorem andThen (h : Alongside ρ extra b b') (hc : Grown b c) (hc' : Grown b' c')
    (hnext : b.problems = [] → b'.problems = [] → Embeds ρ extra b.tree b'.tree →
      Alongside ρ extra c c') : Alongside ρ extra c c' := by
  by_cases hb' : b'.problems = []
  · exact hnext (h.clean_iff.mp hb').1 hb' (h.embeds hb')
  · refine of_problem (fun hclean hagrees => hb' ?_) fun hclean => hb' (hc'.clean hclean)
    exact h.clean_iff.mpr ⟨hc.clean hclean, hagrees.anti hc.facts⟩

theorem append (h : Embeds ρ extra b.tree b'.tree) (hb : b.problems = []) (hb' : b'.problems = [])
    (problems : List Diagnostic) :
    Alongside ρ extra { b with problems := b.problems ++ problems }
      { b' with problems := b'.problems ++ problems } := by
  cases problems with
  | nil => exact of_embeds h (by simp [hb]) (by simp [hb'])
  | cons p ps => exact of_problem (by simp) (by simp)

theorem declareLocal (h : Embeds ρ extra b.tree b'.tree) (hb : b.problems = [])
    (hb' : b'.problems = []) (hscope : scope < b.tree.scopes.size)
    (hfunction : function < b.tree.functions.size) (hname : ¬ HiddenName (foldName name)) :
    Alongside ρ extra (b.declareLocal scope function name type span)
      (b'.declareLocal (ρ.scope scope) (ρ.function function) name type span) := by
  rw [Building.declareLocal, Building.declareLocal]
  cases hok' : b'.tree.declareLocal (ρ.scope scope) (ρ.function function) name type span with
  | ok r' =>
    have hfree := declareLocal_isOk.mp ⟨_, hok'⟩
    obtain ⟨r, hok⟩ := declareLocal_isOk.mpr ((h.named?_eq_none hname).mp hfree).1
    rw [hok]
    exact of_embeds (h.declareLocal hscope hfunction (.inl rfl) hok hok').1 hb hb'
  | error problem' =>
    cases hok : b.tree.declareLocal scope function name type span with
    | error problem => exact of_reports
    | ok r =>
      refine of_problem (fun _ hagrees => ?_) (by simp [accept, report])
      -- the new variable would have to be one of those that were there
      have hfree := declareLocal_isOk.mp ⟨_, hok⟩
      obtain ⟨hid, hadds⟩ := adds_declareLocal hok
      have htaken : ¬ b'.tree.named? (foldName name) (ρ.scope scope) = none := by
        intro hnone
        obtain ⟨r', hr'⟩ := declareLocal_isOk.mpr hnone
        rw [hok'] at hr'
        cases hr'
      rw [h.named?_eq_none hname] at htaken
      obtain ⟨id, hextra⟩ : ∃ id, .name (ρ.scope scope) (foldName name) id ∈ extra := by
        simpa [hfree] using htaken
      have hnew : .name scope (foldName name) b.tree.vars.size ∈ r.2.facts := by
        rw [hadds.facts]
        exact .inr (.inr ⟨rfl, hscope, hname⟩)
      have heq := hagrees.names hnew hextra
      have hlt := (h.sound' _ (h.extra_subset hextra)).2
      rw [heq, h.next_var] at hlt
      exact Nat.lt_irrefl _ hlt

theorem declareOverload {o : Overload} (h : Embeds ρ extra b.tree b'.tree) (hb : b.problems = [])
    (hb' : b'.problems = []) (hscope : scope < b.tree.scopes.size)
    (hcallee : o.callee.Within b.tree.functions.size)
    (hfresh : ∀ i key params, .overload i key params (o.callee.rename ρ) ∉ extra) :
    Alongside ρ extra (b.accept span (b.tree.declareOverload scope o))
      (b'.accept span (b'.tree.declareOverload (ρ.scope scope)
        { o with callee := o.callee.rename ρ })) := by
  cases hok' : b'.tree.declareOverload (ρ.scope scope) { o with callee := o.callee.rename ρ } with
  | ok tree' =>
    have hfree := (declareOverload_isOk _).mp ⟨_, hok'⟩
    obtain ⟨tree, hok⟩ := (declareOverload_isOk o).mpr (h.signature?_eq_none.mp hfree).1
    rw [hok]
    exact of_embeds (h.declareOverload hscope hcallee hok hok') hb hb'
  | error problem' =>
    cases hok : b.tree.declareOverload scope o with
    | error problem => exact of_reports
    | ok tree =>
      refine of_problem (fun _ hagrees => ?_) (by simp [accept, report])
      have hfree := (declareOverload_isOk o).mp ⟨_, hok⟩
      have htaken : ¬ b'.tree.signature? (ρ.scope scope) (foldName o.name) o.params = none := by
        intro hnone
        obtain ⟨tree', htree'⟩ := (declareOverload_isOk
          { o with callee := o.callee.rename ρ }).mpr hnone
        cases hok'.symm.trans htree'
      rw [h.signature?_eq_none] at htaken
      obtain ⟨callee, hextra⟩ : ∃ callee,
          .overload (ρ.scope scope) (foldName o.name) o.params callee ∈ extra := by
        simpa [hfree] using htaken
      have hnew : .overload scope (foldName o.name) o.params o.callee ∈ tree.facts := by
        rw [(adds_declareOverload hok).facts]
        exact .inr ⟨rfl, hscope⟩
      rw [hagrees.overloads hnew hextra] at hextra
      exact hfresh _ _ _ hextra

theorem declare {ty : Expr} (h : Embeds ρ extra b.tree b'.tree) (hb : b.problems = [])
    (hb' : b'.problems = []) (hscope : scope < b.tree.scopes.size)
    (hfunction : function < b.tree.functions.size) :
    Alongside ρ extra (b.declare scope function name ty span)
      (b'.declare (ρ.scope scope) (ρ.function function) name (ty.relabel ρ.node) span) := by
  rw [Building.declare, Building.declare, declaredType?_relabel]
  split
  · exact of_reports
  case isFalse hname =>
    cases declaredType? ty with
    | none => exact of_reports
    | some ty =>
      exact declareLocal h hb hb' hscope hfunction (not_hidden (by simpa using hname))

theorem declareLoopVariable {item : Expr} (h : Embeds ρ extra b.tree b'.tree)
    (hb : b.problems = []) (hb' : b'.problems = []) (hscope : scope < b.tree.scopes.size)
    (hfunction : function < b.tree.functions.size)
    (hitem : ∀ l name, item = .var l name none → ¬ HiddenName (foldName name) ∧
      Sheltered ρ extra b.tree (foldName name) scope) :
    Alongside ρ extra (b.declareLoopVariable scope function item)
      (b'.declareLoopVariable (ρ.scope scope) (ρ.function function) (item.relabel ρ.node)) := by
  cases item with
  | var l name d =>
    cases d with
    | some type => exact declare h hb hb' hscope hfunction
    | none =>
      obtain ⟨hvisible, hsheltered⟩ := hitem l name rfl
      have hfound := congrArg Option.isSome (h.lookupVariable? hvisible hsheltered)
      rw [Option.isSome_map] at hfound
      rw [Expr.relabel, Expr.relabelOption, Building.declareLoopVariable,
        Building.declareLoopVariable, hfound]
      split
      · exact of_embeds h hb hb'
      · split
        · exact of_reports
        · exact declareLocal h hb hb' hscope hfunction hvisible
  | _ => exact of_reports

/-- The hidden variables of a loop, in a scope that has none so far. -/
theorem declareLoopSlots {l : Label} (h : Embeds ρ extra b.tree b'.tree) (hb : b.problems = [])
    (hb' : b'.problems = []) (hscope : scope < b.tree.scopes.size)
    (hfunction : function < b.tree.functions.size)
    (hfree : ∀ key, HiddenName key → b.tree.named? key scope = none)
    (hfree' : ∀ key, HiddenName key → b'.tree.named? key (ρ.scope scope) = none) :
    Alongside ρ extra (b.declareLoopSlots scope function l)
      (b'.declareLoopSlots (ρ.scope scope) (ρ.function function) { l with id := ρ.node l.id }) := by
  obtain ⟨t₁, t₁', harray, harray', h₁⟩ := h.declareHidden none l.span hscope hfunction
    (hidden_array l.id) (hidden_array (ρ.node l.id)) (hfree _ (hidden_array l.id))
    (hfree' _ (hidden_array (ρ.node l.id)))
  obtain ⟨hscopes, hvars, hfunctions⟩ := sizes_declareLocal harray
  have hindexFree := hfree _ (hidden_index l.id)
  have hindexFree' := hfree' _ (hidden_index (ρ.node l.id))
  rw [← named?_declareLocal (index_ne_array l.id l.id) harray] at hindexFree
  rw [← named?_declareLocal (index_ne_array (ρ.node l.id) (ρ.node l.id)) harray'] at hindexFree'
  rw [← hscopes] at hscope
  rw [← hfunctions] at hfunction
  obtain ⟨t₂, t₂', hindex, hindex', h₂⟩ := h₁.declareHidden (some .double) l.span hscope hfunction
    (hidden_index l.id) (hidden_index (ρ.node l.id)) hindexFree hindexFree'
  rw [declareLoopSlots_eq (l := l) harray hindex,
    declareLoopSlots_eq (l := { l with id := ρ.node l.id }) harray' hindex']
  obtain ⟨-, hvars₂, -⟩ := sizes_declareLocal hindex
  obtain ⟨-, hvars₁', -⟩ := sizes_declareLocal harray'
  obtain ⟨-, hvars₂', -⟩ := sizes_declareLocal hindex'
  refine of_embeds (h₂.addLoop ?_ ?_ ?_ ?_) hb hb'
  · omega
  · omega
  · rw [h.next_var]
    omega
  · rw [h₁.next_var]
    omega

theorem openScope {node : Nat} (h : Embeds ρ extra b.tree b'.tree) (hb : b.problems = [])
    (hb' : b'.problems = []) (hscope : scope < b.tree.scopes.size) :
    Alongside ρ extra (b.openScope scope function node).2
      (b'.openScope (ρ.scope scope) (ρ.function function) (ρ.node node)).2 :=
  of_embeds (h.addScope hscope) hb hb'

theorem declareParams {inner id : Nat} {params : List Parameter}
    (hparams : ∀ p ∈ params, Text.isIdentifier p.name = true) (h : Embeds ρ extra b.tree b'.tree)
    (hb : b.problems = []) (hb' : b'.problems = []) (hinner : inner < b.tree.scopes.size)
    (hid : id < b.tree.functions.size) :
    Alongside ρ extra (b.declareParams inner id params)
      (b'.declareParams (ρ.scope inner) (ρ.function id) params) := by
  induction params generalizing b b' with
  | nil => exact of_embeds h hb hb'
  | cons p params ih =>
    obtain ⟨hp, hparams⟩ := List.forall_mem_cons.mp hparams
    have hfirst : Alongside ρ extra (b.declareLocal inner id p.name (some p.type) p.span) _ :=
      declareLocal h hb hb' hinner hid (not_hidden hp)
    have hgrown : Grown b (b.declareLocal inner id p.name (some p.type) p.span) :=
      .declareLocal trivial
    refine hfirst.andThen (.declareParams (fun _ => trivial) params)
      (.declareParams (fun _ => trivial) params) fun hc hc' hnext => ih hparams hnext hc hc' ?_ ?_
    · exact Nat.lt_of_lt_of_le hinner hgrown.extent.1
    · exact Nat.lt_of_lt_of_le hid hgrown.extent.2.2

theorem offerFunction {l : Label} {types : List Ty} (h : Embeds ρ extra b.tree b'.tree)
    (hb : b.problems = []) (hb' : b'.problems = []) (hscope : scope < b.tree.scopes.size) :
    Alongside ρ extra (b.offerFunction scope l name types)
      (b'.offerFunction (ρ.scope scope) { l with id := ρ.node l.id } name types) := by
  have hregister : Embeds ρ extra (b.registerFunction l name).tree
      (b'.registerFunction { l with id := ρ.node l.id } name).tree := h.addFunctionNode
  have hid : b.tree.functions.size < (b.registerFunction l name).tree.functions.size := by
    simp [registerFunction, addFunctionNode, pushFunction_eq]
  -- the number of the function is new, so nothing that is there calls it
  have hfresh (i : Nat) (key : String) (types : List Ty) :
      .overload i key types (.script (ρ.function b.tree.functions.size)) ∉ extra := by
    intro hextra
    have hlt : ρ.function b.tree.functions.size < b'.tree.functions.size :=
      (h.sound' _ (h.extra_subset hextra)).2
    rw [h.next_function] at hlt
    exact Nat.lt_irrefl _ hlt
  rw [Building.offerFunction, Building.offerFunction, ← h.next_function]
  exact declareOverload hregister hb hb' hscope hid hfresh

/-- The scope of a function and its parameters. -/
theorem openBody {id node : Nat} {params : List Parameter} (h : Embeds ρ extra b.tree b'.tree)
    (hb : b.problems = []) (hb' : b'.problems = []) (hscope : scope < b.tree.scopes.size)
    (hid : id < b.tree.functions.size) (hparams : ∀ p ∈ params, Text.isIdentifier p.name = true) :
    Alongside ρ extra (b.openBody scope id node params)
      (b'.openBody (ρ.scope scope) (ρ.function id) (ρ.node node) params) := by
  have hopen : Embeds ρ extra (b.openScope scope id node).2.tree
      (b'.openScope (ρ.scope scope) (ρ.function id) (ρ.node node)).2.tree := h.addScope hscope
  have hdeclare := declareParams hparams hopen hb hb' lt_openScope hid
  rw [h.next_scope] at hdeclare
  exact hdeclare.andThen (.adds adds_setParams (by simp)) (.adds adds_setParams (by simp))
    fun hc hc' hnext => of_embeds hnext.setParams hc hc'

end Alongside

/-- Two runs after the same node is entered. -/
structure InStep (ρ : Renaming) (extra : Set Fact) (r r' : Option (Nat × Nat) × Building) : Prop where
  alongside : Alongside ρ extra r.2 r'.2
  place : r'.2.problems = [] → r'.1 = r.1.map fun p => (ρ.scope p.1, ρ.function p.2)

section InStep

variable {ρ : Renaming} {extra : Set Fact} {b b' : Building} {scope function : Nat}

theorem inStep_openFunction {l : Label} {name : String} {params : List Expr}
    (h : Embeds ρ extra b.tree b'.tree) (hb : b.problems = []) (hb' : b'.problems = [])
    (hscope : scope < b.tree.scopes.size) :
    InStep ρ extra (b.openFunction scope l name params)
      (b'.openFunction (ρ.scope scope) { l with id := ρ.node l.id } name
        (params.map (Expr.relabel ρ.node))) := by
  cases hname : Text.isIdentifier name with
  | false =>
    rw [openFunction, if_pos (by simp [hname]), openFunction, if_pos (by simp [hname])]
    exact ⟨.of_reports, fun _ => rfl⟩
  | true =>
    have hcheck' := checkParameters_relabel ρ.node name params
    cases hcheck : checkParameters name params with
    | error problems =>
      rw [hcheck] at hcheck'
      rw [openFunction, if_neg (by simp [hname]), hcheck, openFunction,
        if_neg (by simp [hname]), hcheck']
      exact ⟨.append h hb hb' problems, fun _ => rfl⟩
    | ok checked =>
      rw [hcheck] at hcheck'
      rw [openFunction_of_checked hname hcheck, openFunction_of_checked hname hcheck', ← h.next_function]
      have hparams p hp := ((checkParameters_declared hcheck).2 p hp).2
      have hoffer : Alongside ρ extra (b.offerFunction scope l name (checked.map (·.type))) _ :=
        .offerFunction h hb hb' hscope
      have hgrown : Grown b (b.offerFunction scope l name (checked.map (·.type))) :=
        .offerFunction
      refine ⟨hoffer.andThen (.openBody (fun _ => trivial) checked)
        (.openBody (fun _ => trivial) checked) fun hc hc' hnext => ?_, fun hclean => ?_⟩
      · exact .openBody hnext hc hc' (Nat.lt_of_lt_of_le hscope hgrown.extent.1)
          lt_offerFunction hparams
      · let c := b'.offerFunction (ρ.scope scope) { l with id := ρ.node l.id } name
          (checked.map (·.type))
        have hbody : Grown c (c.openBody (ρ.scope scope) (ρ.function b.tree.functions.size)
            (ρ.node l.id) checked) := .openBody (fun _ => trivial) checked
        have hnext := (hoffer.embeds (hbody.clean hclean)).next_scope
        exact congrArg (fun i => some (i, ρ.function b.tree.functions.size)) hnext.symm

/-- Declaring the variable of a loop adds no hidden name. -/
theorem named?_declareLoopVariable {key : String} {i : Nat} (hkey : HiddenName key) (item : Expr) :
    (b.declareLoopVariable scope function item).tree.named? key i = b.tree.named? key i := by
  have hlocal {name : String} {type : Option Ty} {span : Span}
      (hname : Text.isIdentifier name = true) :
      (b.declareLocal scope function name type span).tree.named? key i = b.tree.named? key i := by
    rw [declareLocal]
    cases hok : b.tree.declareLocal scope function name type span with
    | error problem => rfl
    | ok r =>
      have hne : key ≠ foldName name := fun heq => not_hidden hname (heq ▸ hkey)
      exact named?_declareLocal hne hok
  rw [declareLoopVariable.eq_def]
  split
  · rw [declare]
    split
    · rfl
    case isFalse hname =>
      split
      · rfl
      · exact hlocal (by simpa using hname)
  · split
    · rfl
    · split
      · rfl
      case isFalse hname => exact hlocal (by simpa using hname)
  · rfl

theorem named?_openScope {key : String} {node : Nat} :
    (b.openScope scope function node).2.tree.named? key b.tree.scopes.size = none := by
  simp only [openScope, bindNode, pushScope, named?, Array.getElem?_modify, Array.getElem?_push]
  split <;> simp

/-- The scope of a loop and its variable. -/
theorem alongside_enterLoop {node : Nat} {item : Expr} (h : Embeds ρ extra b.tree b'.tree)
    (hb : b.problems = []) (hb' : b'.problems = []) (hscope : scope < b.tree.scopes.size)
    (hfunction : function < b.tree.functions.size)
    (hitem : ∀ l name, item = .var l name none → ¬ HiddenName (foldName name) ∧
      Sheltered ρ extra b.tree (foldName name) scope) :
    Alongside ρ extra
      ((b.openScope scope function node).2.declareLoopVariable b.tree.scopes.size function item)
      ((b'.openScope (ρ.scope scope) (ρ.function function) (ρ.node node)).2.declareLoopVariable
        b'.tree.scopes.size (ρ.function function) (item.relabel ρ.node)) := by
  have hopen : Embeds ρ extra (b.openScope scope function node).2.tree
      (b'.openScope (ρ.scope scope) (ρ.function function) (ρ.node node)).2.tree := h.addScope hscope
  have hopened : Grown b (b.openScope scope function node).2 := .openScope
  rw [← h.next_scope]
  refine .declareLoopVariable hopen hb hb' ?_ hfunction fun l name hvar => ?_
  · exact lt_openScope
  · exact ⟨(hitem l name hvar).1, h.sheltered_new (hitem l name hvar).2 hopened.facts scope_mem_openScope⟩

/-- The scope of a loop over an array, its variable and the hidden ones. -/
theorem alongside_enterForIn {l : Label} {item : Expr} (h : Embeds ρ extra b.tree b'.tree)
    (hb : b.problems = []) (hb' : b'.problems = []) (hscope : scope < b.tree.scopes.size)
    (hfunction : function < b.tree.functions.size)
    (hitem : ∀ l name, item = .var l name none → ¬ HiddenName (foldName name) ∧
      Sheltered ρ extra b.tree (foldName name) scope) :
    Alongside ρ extra
      (((b.openScope scope function l.id).2.declareLoopVariable b.tree.scopes.size function
        item).declareLoopSlots b.tree.scopes.size function l)
      (((b'.openScope (ρ.scope scope) (ρ.function function) (ρ.node l.id)).2.declareLoopVariable
        b'.tree.scopes.size (ρ.function function) (item.relabel ρ.node)).declareLoopSlots
          b'.tree.scopes.size (ρ.function function) { l with id := ρ.node l.id }) := by
  have henter : Alongside ρ extra ((b.openScope scope function l.id).2.declareLoopVariable
      b.tree.scopes.size function item) _ := alongside_enterLoop h hb hb' hscope hfunction hitem
  have hgrown : Grown (b.openScope scope function l.id).2
      ((b.openScope scope function l.id).2.declareLoopVariable b.tree.scopes.size function item) :=
    .declareLoopVariable (fun _ => trivial) item
  refine henter.andThen (.declareLoopSlots fun _ => trivial) (.declareLoopSlots fun _ => trivial)
    fun hc hc' hnext => ?_
  rw [← h.next_scope] at hc' hnext ⊢
  refine .declareLoopSlots hnext hc hc' (Nat.lt_of_lt_of_le lt_openScope hgrown.extent.1)
    (Nat.lt_of_lt_of_le hfunction hgrown.extent.2.2) (fun key hkey => ?_) fun key hkey => ?_
  · rw [named?_declareLoopVariable hkey, named?_openScope]
  · rw [named?_declareLoopVariable hkey, h.next_scope, named?_openScope]

/-- Entering a node in both runs. -/
theorem inStep_enter {e : Expr} (h : Embeds ρ extra b.tree b'.tree) (hb : b.problems = [])
    (hb' : b'.problems = []) (hscope : scope < b.tree.scopes.size)
    (hfunction : function < b.tree.functions.size)
    (hloop : ∀ l name, e.loopVariable? = some (.var l name none) → ¬ HiddenName (foldName name) ∧
      Sheltered ρ extra b.tree (foldName name) scope) :
    InStep ρ extra (enter scope function b e)
      (enter (ρ.scope scope) (ρ.function function) b' (e.relabel ρ.node)) := by
  have hstay : Alongside ρ extra b b' := .of_embeds h hb hb'
  have hopen (node : Nat) : Alongside ρ extra (b.openScope scope function node).2
      (b'.openScope (ρ.scope scope) (ρ.function function) (ρ.node node)).2 :=
    .openScope h hb hb' hscope
  have hplace : some (b'.tree.scopes.size, ρ.function function) =
      (some (b.tree.scopes.size, function)).map fun p => (ρ.scope p.1, ρ.function p.2) := by
    rw [Option.map_some, h.next_scope]
  cases e with
  | var l name type =>
    cases type with
    | none => exact ⟨hstay, fun _ => rfl⟩
    | some type => exact ⟨.declare h hb hb' hscope hfunction, fun _ => rfl⟩
  | function l name params body =>
    rw [Expr.relabel, Expr.relabelList_eq]
    exact inStep_openFunction h hb hb' hscope
  | block | forLoop => exact ⟨hopen _, fun _ => hplace⟩
  | forTo l counter start bound direction body =>
    refine ⟨alongside_enterLoop h hb hb' hscope hfunction fun l name hvar => ?_, fun _ => hplace⟩
    exact hloop l name (congrArg some hvar)
  | forIn l item iterable body =>
    refine ⟨alongside_enterForIn h hb hb' hscope hfunction fun l name hvar => ?_, fun _ => hplace⟩
    exact hloop l name (congrArg some hvar)
  | _ => exact ⟨hstay, fun _ => rfl⟩

end InStep

section Walk

variable {ρ : Renaming} {extra : Set Fact} {b b' : Building} {scope function : Nat} {e : Expr}
  {es : List Expr}

/-- What must not come in between when the walk goes over a list. -/
def Clear (ρ : Renaming) (extra : Set Fact) (t : ScopeTree) (scope : Nat) (es : List Expr) : Prop :=
  ∀ pre c post, es = pre ++ c :: post → ∀ key, c.Seeks key →
    (∃ d ∈ pre, d.Declares key) ∨ Sheltered ρ extra t key scope

/-- Two walks over one list. -/
theorem alongside_visitList
    (h : ∀ e ∈ es, ∀ b b' : Building, Embeds ρ extra b.tree b'.tree → b.problems = [] →
      b'.problems = [] → scope < b.tree.scopes.size → function < b.tree.functions.size →
      (∀ key, e.Seeks key → Sheltered ρ extra b.tree key scope) →
      Alongside ρ extra (visit scope function e b)
        (visit (ρ.scope scope) (ρ.function function) (e.relabel ρ.node) b'))
    (hbb' : Embeds ρ extra b.tree b'.tree) (hb : b.problems = []) (hb' : b'.problems = [])
    (hscope : scope < b.tree.scopes.size) (hfunction : function < b.tree.functions.size)
    (hclear : Clear ρ extra b.tree scope es) :
    Alongside ρ extra (visitList scope function es b)
      (visitList (ρ.scope scope) (ρ.function function) (es.map (Expr.relabel ρ.node)) b') := by
  induction es generalizing b b' with
  | nil => exact .of_embeds hbb' hb hb'
  | cons e es ih =>
    obtain ⟨he, hes⟩ := List.forall_mem_cons.mp h
    have hgrown : Grown b _ := grown_visit scope function e
    have hfirst := he b b' hbb' hb hb' hscope hfunction fun key hseeks =>
      (hclear [] e es rfl key hseeks).resolve_left nofun
    refine hfirst.andThen (grown_visitList scope function es) (grown_visitList _ _ _)
      fun hc hc' hnext => ih hes hnext hc hc' (Nat.lt_of_lt_of_le hscope hgrown.extent.1)
        (Nat.lt_of_lt_of_le hfunction hgrown.extent.2.2) ?_
    rintro pre c post rfl key hseeks
    rcases hclear (e :: pre) c post rfl key hseeks with ⟨d, hd, hdeclares⟩ | hsheltered
    · rcases List.mem_cons.mp hd with rfl | hd
      · obtain ⟨id, hid⟩ := named_of_declares hdeclares hc hscope
        exact .inr (.found hid)
      · exact .inl ⟨d, hd, hdeclares⟩
    · exact .inr (hsheltered.mono hgrown.facts)

/-- Two walks over one tree. -/
theorem alongside_visit (e : Expr) (hnames : e.Unhidden) (h : Embeds ρ extra b.tree b'.tree)
    (hb : b.problems = []) (hb' : b'.problems = []) (hscope : scope < b.tree.scopes.size)
    (hfunction : function < b.tree.functions.size)
    (hseeks : ∀ key, e.Seeks key → Sheltered ρ extra b.tree key scope) :
    Alongside ρ extra (visit scope function e b)
      (visit (ρ.scope scope) (ρ.function function) (e.relabel ρ.node) b') := by
  induction e using Expr.children_induction generalizing b b' scope function with
  | step e ih =>
    have henter : InStep ρ extra (enter scope function b e)
        (enter (ρ.scope scope) (ρ.function function) b' (e.relabel ρ.node)) :=
      inStep_enter h hb hb' hscope hfunction fun l name hloop =>
        ⟨hnames l name none (Expr.loopVariable_mem_nodes hloop), hseeks _ (.loop hloop rfl)⟩
    rw [visit_eq, visit_eq, Expr.visited_relabel]
    refine henter.alongside.andThen (grown_visitBelow _ _) (grown_visitBelow _ _)
      fun hc hc' hnext => ?_
    have hplace := henter.place hc'
    have hentered : Grown b (enter scope function b e).2 := (Leads.enter scope function e).grown
    cases hopened : (enter scope function b e).1 with
    | none =>
      rw [hopened] at hplace
      rw [visitBelow_none hopened, visitBelow_none hplace]
      exact henter.alongside
    | some place =>
      obtain ⟨inner, id⟩ := place
      rw [hopened] at hplace
      rw [visitBelow_some hopened, visitBelow_some hplace]
      have hin := place_enter hscope hfunction hopened
      refine alongside_visitList (fun c hmem _ _ => ih c (Expr.visited_subset hmem)
        (hnames.child (Expr.visited_subset hmem))) hnext hc hc' hin.inner_lt hin.id_lt ?_
      intro pre c post hvisited key hkey
      by_cases hdeclares : ∃ d ∈ pre, d.Declares key
      · exact .inl hdeclares
      · refine .inr ?_
        by_cases hbinds : e.Binds key
        · obtain ⟨var, hvar⟩ := named_of_binds hbinds hopened hc
          exact .found hvar
        · have hsheltered := hseeks key (.inside hvisited hbinds
            (fun d hd hdecl => hdeclares ⟨d, hd, hdecl⟩) hkey)
          rcases hin.inner_eq with ⟨_, rfl⟩ | ⟨rfl, hfact⟩
          · exact hsheltered.mono hentered.facts
          · exact h.sheltered_new hsheltered hentered.facts hfact

end Walk

end Building

end TurtleScript
