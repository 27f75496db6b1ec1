import Mathlib.Data.Set.Image
import TurtleScript.Proofs.Scope.Built
import TurtleScript.Proofs.Scope.Names
import TurtleScript.Proofs.Tree.Folding

/-!
# What a scope tree says

The tables of a scope tree are a set of facts about numbers: which scope lies in which, which
name stands for which variable, what a node opened. The order in which entries came into the
tables is no fact, and neither are slots, spans and the names that loops hide from the program.
Every step of the builder adds facts and takes none away, and the facts it adds name only
numbers that are given out.

Facts can be read under other numbers. What is asked of a tree has the same answer, under the
other numbers, in a tree of the renamed facts.
-/
namespace TurtleScript

/-- A name under which the builder keeps a variable of a loop over an array. -/
def HiddenName (key : String) : Prop := ∃ n : Nat, key = s!"$array{n}" ∨ key = s!"$index{n}"

theorem foldName_array (n : Nat) : foldName s!"$array{n}" = s!"$array{n}" := by
  have hword : foldName "$array" = "$array" := by decide +kernel
  rw [foldName_append, foldName_toString]
  exact congrArg (· ++ toString n) hword

theorem foldName_index (n : Nat) : foldName s!"$index{n}" = s!"$index{n}" := by
  have hword : foldName "$index" = "$index" := by decide +kernel
  rw [foldName_append, foldName_toString]
  exact congrArg (· ++ toString n) hword

theorem hidden_array (n : Nat) : HiddenName (foldName s!"$array{n}") := ⟨n, .inl (foldName_array n)⟩

theorem hidden_index (n : Nat) : HiddenName (foldName s!"$index{n}") := ⟨n, .inr (foldName_index n)⟩

theorem index_ne_array (n m : Nat) : foldName s!"$index{n}" ≠ foldName s!"$array{m}" := by
  rw [foldName_index, foldName_array]
  intro h
  simpa [String.toList_append, ToString.toString] using congrArg String.toList h

inductive Fact where
  | scope (scope : Nat) (parent : Option Nat)
  | name (scope : Nat) (key : String) (id : Nat)
  /-- A variable with its type so far and the function that has a slot for it. -/
  | var (id : Nat) (type : Option Ty) (owner : Option Nat)
  | overload (scope : Nat) (key : String) (params : List Ty) (callee : Callee)
  | function (id : Nat) (result : Option Ty)
  | nodeScope (node scope : Nat)
  | nodeFunction (node id : Nat)
  | loop (node array index : Nat)

def Storage.owner? : Storage → Option Nat
  | .slot function _ => some function
  | .global _ => none

/-- How many scopes, variables and functions there are. -/
structure Extent where
  scopes : Nat
  vars : Nat
  functions : Nat

namespace Extent

instance : LE Extent where
  le n m := n.scopes ≤ m.scopes ∧ n.vars ≤ m.vars ∧ n.functions ≤ m.functions

instance : Add Extent where
  add n m := ⟨n.scopes + m.scopes, n.vars + m.vars, n.functions + m.functions⟩

variable {n m k : Extent}

theorem add_eq (n m : Extent) :
    n + m = ⟨n.scopes + m.scopes, n.vars + m.vars, n.functions + m.functions⟩ := rfl

theorem le_refl (n : Extent) : n ≤ n := ⟨Nat.le_refl _, Nat.le_refl _, Nat.le_refl _⟩

theorem le_trans (h : n ≤ m) (h' : m ≤ k) : n ≤ k :=
  ⟨Nat.le_trans h.1 h'.1, Nat.le_trans h.2.1 h'.2.1, Nat.le_trans h.2.2 h'.2.2⟩

theorem le_add (n d : Extent) : n ≤ n + d :=
  ⟨Nat.le_add_right .., Nat.le_add_right .., Nat.le_add_right ..⟩

end Extent

namespace ScopeTree

/-- The variable that a folded name stands for in one scope. -/
def named? (t : ScopeTree) (key : String) (scope : Nat) : Option Nat :=
  (t.scopes[scope]?).bind (·.vars.lookup key)

/-- The callee of the overload with a folded name and these parameters in one scope. -/
def signature? (t : ScopeTree) (scope : Nat) (key : String) (params : List Ty) : Option Callee :=
  (t.scopes[scope]?).bind fun s =>
    (s.overloads.find? fun o => foldName o.name = key ∧ o.params = params).map (·.callee)

def extent (t : ScopeTree) : Extent := ⟨t.scopes.size, t.vars.size, t.functions.size⟩

def Says (t : ScopeTree) : Fact → Prop
  | .scope i parent => (t.scopes[i]?).map (·.parent) = some parent
  | .name i key id => t.named? key i = some id ∧ ¬ HiddenName key
  | .var id type owner =>
    (t.vars[id]?).map (fun v => (v.type, v.storage.owner?)) = some (type, owner)
  | .overload i key params callee => t.signature? i key params = some callee
  | .function id result => (t.functions[id]?).map (·.returnType) = some result
  | .nodeScope node i => (node, i) ∈ t.nodeScopes
  | .nodeFunction node id => (node, id) ∈ t.nodeFunctions
  | .loop node array index => (node, ⟨array, index⟩) ∈ t.loopSlots

def facts (t : ScopeTree) : Set Fact := {φ | t.Says φ}

theorem mem_facts {t : ScopeTree} {φ : Fact} : φ ∈ t.facts ↔ t.Says φ := Iff.rfl

/-- The facts of a local that is declared when the tables reach to `n`. -/
def localFacts (n : Extent) (scope function : Nat) (name : String) (type : Option Ty) : Set Fact :=
  {φ | φ = .var n.vars type (some function) ∨
    φ = .name scope (foldName name) n.vars ∧ scope < n.scopes ∧ ¬ HiddenName (foldName name)}

/-- The facts of an overload. -/
def overloadFacts (n : Extent) (scope : Nat) (o : Overload) : Set Fact :=
  {φ | φ = .overload scope (foldName o.name) o.params o.callee ∧ scope < n.scopes}

/-- A step that adds facts and gives out so many numbers. -/
structure Adds (d : Extent) (new : Set Fact) (t t' : ScopeTree) : Prop where
  facts : t'.facts = t.facts ∪ new
  extent : t'.extent = t.extent + d

section Steps

variable {t t' : ScopeTree} {scope function id node : Nat} {name : String} {type : Option Ty}
  {span : Span}

theorem variableIn?_eq : t.variableIn? name scope = t.named? (foldName name) scope := rfl

theorem lookup_modify_vars {scopes : Array Scope} {key key' : String} {i : Nat} :
    ((scopes.modify scope fun s => { s with vars := (key', id) :: s.vars })[i]?).bind
        (·.vars.lookup key) =
      if i = scope ∧ key = key' ∧ scope < scopes.size then some id
      else (scopes[i]?).bind (·.vars.lookup key) := by
  rw [Array.getElem?_modify]
  by_cases hi : scope = i
  · subst hi
    cases hs : scopes[scope]? with
    | none =>
      have hout : ¬ scope < scopes.size := by simpa using hs
      simp [hout]
    | some s =>
      have hin := (Array.getElem?_eq_some_iff.mp hs).1
      by_cases hkey : key = key'
      · simp [hkey, hin]
      · simp [hkey, List.lookup_cons, beq_false_of_ne hkey]
  · simp [hi, Ne.symm hi]

/-- A local can be declared where its name is free. -/
theorem declareLocal_isOk : (∃ r, t.declareLocal scope function name type span = .ok r) ↔
    t.named? (foldName name) scope = none := by
  rw [declareLocal, declareVariable, variableIn?_eq]
  cases t.named? (foldName name) scope <;> simp [bind, Except.bind, pure, Except.pure]

theorem adds_declareLocal (h : t.declareLocal scope function name type span = .ok (id, t')) :
    id = t.vars.size ∧ Adds ⟨0, 1, 0⟩ (localFacts t.extent scope function name type) t t' := by
  have hfree := variableIn?_of_declareLocal h
  rw [declareLocal, declareVariable] at h
  split at h
  · cases h
  cases h
  refine ⟨rfl, Set.ext fun φ => ?_, by simp [extent, Extent.add_eq]⟩
  rw [Set.mem_union, mem_facts, mem_facts]
  cases φ with
  | scope i parent =>
    simp only [Says, Array.getElem?_modify]
    split <;> cases t.scopes[i]? <;> simp [localFacts]
  | name i key var =>
    rw [variableIn?_eq, named?] at hfree
    simp only [Says, named?, lookup_modify_vars]
    split
    case isTrue hnew =>
      obtain ⟨rfl, rfl, hin⟩ := hnew
      have hnone : (t.scopes[i]?.bind fun s => s.vars.lookup (foldName name)) ≠ some var := by
        rw [hfree]
        rintro ⟨⟩
      simp only [hnone, false_and, false_or, localFacts, extent, Set.mem_ofPred_eq, hin,
        reduceCtorEq, Fact.name.injEq, Option.some.injEq, true_and, @eq_comm _ t.vars.size]
    case isFalse hold =>
      have hnot : Fact.name i key var ∉ localFacts t.extent scope function name type := by
        rintro (hvar | ⟨hname, hin, -⟩)
        · cases hvar
        · cases hname
          exact hold ⟨rfl, rfl, hin⟩
      simp [hnot]
  | var var type' owner =>
    simp only [Says, Array.getElem?_push]
    split
    case isTrue hid =>
      subst hid
      simp [localFacts, extent, Storage.owner?, eq_comm]
    case isFalse hid => simp [localFacts, extent, hid]
  | function i result =>
    simp only [Says, Array.getElem?_modify]
    split <;> cases t.functions[i]? <;> simp [localFacts]
  | overload i key params callee =>
    simp only [Says, signature?, Array.getElem?_modify]
    split <;> cases t.scopes[i]? <;> simp [localFacts]
  | nodeScope | nodeFunction | loop => simp [Says, localFacts]

theorem sizes_declareLocal (h : t.declareLocal scope function name type span = .ok (id, t')) :
    t'.scopes.size = t.scopes.size ∧ t'.vars.size = t.vars.size + 1 ∧
      t'.functions.size = t.functions.size := by
  have hextent := (adds_declareLocal h).2.extent
  rwa [extent, extent, Extent.add_eq, Extent.mk.injEq] at hextent

/-- A declaration leaves the other names as they are. -/
theorem named?_declareLocal {key : String} {i : Nat} (hkey : key ≠ foldName name)
    (h : t.declareLocal scope function name type span = .ok (id, t')) :
    t'.named? key i = t.named? key i := by
  rw [declareLocal, declareVariable] at h
  split at h
  · cases h
  · cases h
    rw [named?, lookup_modify_vars, if_neg (fun hnew => hkey hnew.2.1), named?]

theorem find?_overloads (s : Scope) (key : String) (params : List Ty) :
    (s.overloads.find? fun o => foldName o.name = key ∧ o.params = params) =
      (s.overloads.filter (foldName ·.name = key)).find? (·.params = params) := by
  simp [List.find?_filter]

/-- An overload can be declared where there is none with the same name and parameters. -/
theorem declareOverload_isOk (o : Overload) : (∃ r, t.declareOverload scope o = .ok r) ↔
    t.signature? scope (foldName o.name) o.params = none := by
  have hfound : ((t.overloadsIn? o.name scope).getD []).any (·.params = o.params) =
      (t.signature? scope (foldName o.name) o.params).isSome := by
    rw [overloadsIn?, signature?]
    cases t.scopes[scope]? with
    | none => rfl
    | some s =>
      simp only [Option.bind_some, find?_overloads, Option.isSome_map, List.isSome_find?]
      change (Option.getD ((some s).bind _) []).any _ = _
      rw [Option.bind_some]
      cases s.overloads.filter (foldName ·.name = foldName o.name) <;> rfl
  rw [declareOverload, hfound]
  cases t.signature? scope (foldName o.name) o.params <;> simp

theorem adds_declareOverload {o : Overload} (h : t.declareOverload scope o = .ok t') :
    Adds ⟨0, 0, 0⟩ (overloadFacts t.extent scope o) t t' := by
  have hfree := (declareOverload_isOk o).mp ⟨t', h⟩
  obtain rfl := declareOverload_eq_ok h
  refine ⟨Set.ext fun φ => ?_, by simp [extent, addOverload, Extent.add_eq]⟩
  rw [Set.mem_union, mem_facts, mem_facts]
  cases φ with
  | scope i parent =>
    simp only [Says, addOverload, Array.getElem?_modify]
    split <;> cases t.scopes[i]? <;> simp [overloadFacts]
  | name i key var =>
    simp only [Says, addOverload, named?, Array.getElem?_modify]
    split <;> cases t.scopes[i]? <;> simp [overloadFacts]
  | overload i key params callee =>
    rw [signature?] at hfree
    simp only [Says, addOverload, signature?, Array.getElem?_modify]
    by_cases hi : scope = i
    · subst hi
      cases hs : t.scopes[scope]? with
      | none =>
        have hout : ¬ scope < t.scopes.size := by simpa using hs
        simp [overloadFacts, extent, hout]
      | some s =>
        have hin := (Array.getElem?_eq_some_iff.mp hs).1
        rw [hs] at hfree
        simp only [if_true, Option.map_some, Option.bind_some, List.find?_append] at hfree ⊢
        by_cases hsame : foldName o.name = key ∧ o.params = params
        · obtain ⟨rfl, rfl⟩ := hsame
          rw [Option.map_eq_none_iff] at hfree
          rw [hfree, Option.none_or]
          simp [overloadFacts, extent, hin, eq_comm]
        · have hother : List.find? (fun o => foldName o.name = key ∧ o.params = params) [o] =
              none := by simpa using hsame
          have hnot : Fact.overload scope key params callee ∉ overloadFacts t.extent scope o := by
            rintro ⟨heq, -⟩
            cases heq
            exact hsame ⟨rfl, rfl⟩
          rw [hother, Option.or_none, or_iff_left hnot]
    · have hnot : Fact.overload i key params callee ∉ overloadFacts t.extent scope o := by
        rintro ⟨heq, -⟩
        cases heq
        exact hi rfl
      simp [hi, hnot]
  | var | function | nodeScope | nodeFunction | loop => simp [Says, addOverload, overloadFacts]

theorem adds_addScope {parent : Nat} :
    Adds ⟨1, 0, 0⟩ {.scope t.scopes.size (some parent), .nodeScope node t.scopes.size} t
      (t.addScope parent function node) := by
  refine ⟨Set.ext fun φ => ?_, ?_⟩
  case refine_2 => simp [extent, addScope, bindNode, pushScope, Extent.add_eq]
  rw [Set.mem_union, mem_facts, mem_facts]
  cases φ with
  | scope i above =>
    simp only [Says, addScope, bindNode, pushScope, Array.getElem?_modify, Array.getElem?_push]
    grind
  | name i key var =>
    simp only [Says, addScope, bindNode, pushScope, named?, Array.getElem?_modify,
      Array.getElem?_push]
    grind
  | overload i key params callee =>
    simp only [Says, addScope, bindNode, pushScope, signature?, Array.getElem?_modify,
      Array.getElem?_push]
    grind
  | nodeScope => simp [Says, addScope, bindNode, pushScope, or_comm]
  | var | function | nodeFunction | loop => simp [Says, addScope, bindNode, pushScope]

theorem adds_addFunctionNode :
    Adds ⟨0, 0, 1⟩ {.function t.functions.size none, .nodeFunction node t.functions.size} t
      ((t.pushFunction name span).2.addFunctionNode node t.functions.size) := by
  refine ⟨Set.ext fun φ => ?_, ?_⟩
  case refine_2 => simp [extent, addFunctionNode, pushFunction_eq, Extent.add_eq]
  rw [Set.mem_union, mem_facts, mem_facts]
  cases φ with
  | function i result =>
    simp only [Says, addFunctionNode, pushFunction_eq, Array.getElem?_push]
    grind
  | nodeFunction => simp [Says, addFunctionNode, pushFunction_eq, or_comm]
  | _ => simp [Says, addFunctionNode, pushFunction_eq, named?, signature?]

theorem adds_setParams {count : Nat} : Adds ⟨0, 0, 0⟩ ∅ t (t.setParams id count) := by
  refine ⟨Set.ext fun φ => ?_, by simp [extent, setParams, Extent.add_eq]⟩
  rw [Set.union_empty, mem_facts, mem_facts]
  cases φ with
  | function i result =>
    simp only [Says, setParams, Array.getElem?_modify]
    split <;> cases t.functions[i]? <;> simp
  | _ => rfl

theorem adds_addLoop {slots : LoopSlots} :
    Adds ⟨0, 0, 0⟩ {.loop node slots.array slots.index} t (t.addLoop node slots) := by
  obtain ⟨array, index⟩ := slots
  refine ⟨Set.ext fun φ => ?_, rfl⟩
  rw [Set.mem_union, mem_facts, mem_facts]
  cases φ with
  | loop => simp [Says, addLoop, or_comm]
  | _ => simp [Says, addLoop, named?, signature?]

end Steps

section Answers

variable {t : ScopeTree} {scope id id' : Nat} {key name : String} {params args : List Ty}
  {parent parent' : Option Nat} {callee callee' : Callee}

theorem name_unique (h : .name scope key id ∈ t.facts) (h' : .name scope key id' ∈ t.facts) :
    id = id' := Option.some.inj (h.1.symm.trans h'.1)

theorem overload_unique (h : .overload scope key params callee ∈ t.facts)
    (h' : .overload scope key params callee' ∈ t.facts) : callee = callee' :=
  Option.some.inj (Eq.trans (Eq.symm h) h')

theorem exists_parent (h : scope < t.scopes.size) : ∃ parent, .scope scope parent ∈ t.facts :=
  ⟨t.scopes[scope].parent, by simp [mem_facts, Says, h]⟩

end Answers

end ScopeTree

def Callee.Within (functions : Nat) : Callee → Prop
  | .script id => id < functions
  | .native _ => True

/-- All numbers of scopes, variables and functions in the fact are given out, and a scope lies
in one that was there before. -/
def Fact.Within (n : Extent) : Fact → Prop
  | .scope i parent => i < n.scopes ∧ ∀ p ∈ parent, p < i
  | .name i _ id => i < n.scopes ∧ id < n.vars
  | .var id _ owner => id < n.vars ∧ ∀ f ∈ owner, f < n.functions
  | .overload i _ _ callee => i < n.scopes ∧ callee.Within n.functions
  | .function id _ => id < n.functions
  | .nodeScope _ i => i < n.scopes
  | .nodeFunction _ id => id < n.functions
  | .loop _ array index => array < n.vars ∧ index < n.vars

theorem Fact.Within.mono {n m : Extent} {φ : Fact} (h : φ.Within n) (hle : n ≤ m) : φ.Within m := by
  obtain ⟨hscopes, hvars, hfunctions⟩ := hle
  cases φ with
  | scope => exact ⟨Nat.lt_of_lt_of_le h.1 hscopes, h.2⟩
  | name => exact ⟨Nat.lt_of_lt_of_le h.1 hscopes, Nat.lt_of_lt_of_le h.2 hvars⟩
  | var =>
    exact ⟨Nat.lt_of_lt_of_le h.1 hvars, fun f hf => Nat.lt_of_lt_of_le (h.2 f hf) hfunctions⟩
  | overload i key params callee =>
    refine ⟨Nat.lt_of_lt_of_le h.1 hscopes, ?_⟩
    cases callee with
    | script => exact Nat.lt_of_lt_of_le h.2 hfunctions
    | native => trivial
  | function | nodeFunction => exact Nat.lt_of_lt_of_le h hfunctions
  | nodeScope => exact Nat.lt_of_lt_of_le h hscopes
  | loop => exact ⟨Nat.lt_of_lt_of_le h.1 hvars, Nat.lt_of_lt_of_le h.2 hvars⟩

namespace ScopeTree

/-- The tables refer to nothing that is not there. -/
def Sound (t : ScopeTree) : Prop := ∀ φ ∈ t.facts, φ.Within t.extent

variable {t : ScopeTree} {scope : Nat} {parent : Option Nat} {name : String}

theorem lt_of_name {key : String} {id : Nat} (h : .name scope key id ∈ t.facts) :
    scope < t.scopes.size := by
  obtain ⟨s, hs, -⟩ := Option.bind_eq_some_iff.mp h.1
  exact (Array.getElem?_eq_some_iff.mp hs).1

/-- More steps than the scope's number do not lead further out. -/
theorem Sound.ancestorsFrom (h : t.Sound) {fuel : Nat} (hfuel : scope < fuel) :
    t.ancestorsFrom fuel scope = t.ancestors scope := by
  induction fuel using Nat.strong_induction_on generalizing scope with
  | _ fuel ih =>
    obtain ⟨fuel, rfl⟩ := Nat.exists_eq_succ_of_ne_zero (Nat.ne_of_gt (Nat.zero_lt_of_lt hfuel))
    rw [ancestors, ScopeTree.ancestorsFrom, ScopeTree.ancestorsFrom]
    cases hs : t.scopes[scope]? with
    | none => rfl
    | some s =>
      cases hparent : s.parent with
      | none => simp [hparent]
      | some p =>
        have hfact : .scope scope (some p) ∈ t.facts := by simp [mem_facts, Says, hs, hparent]
        have hp := (h _ hfact).2 p rfl
        have hscope : scope < fuel.succ := hfuel
        simp only [hparent]
        rw [ih fuel (Nat.lt_succ_self fuel) (by omega), ih scope hfuel hp]

theorem Sound.ancestors_eq (h : t.Sound) (hscope : .scope scope parent ∈ t.facts) :
    t.ancestors scope = scope :: parent.elim [] t.ancestors := by
  obtain ⟨s, hs, rfl⟩ := Option.map_eq_some_iff.mp hscope
  rw [ancestors, ScopeTree.ancestorsFrom, hs]
  cases hparent : s.parent with
  | none => simp [hparent]
  | some p =>
    have hp := (h _ hscope).2 p hparent
    simp only [hparent, Option.elim_some]
    rw [h.ancestorsFrom hp]

/-- A name is looked up in the scope and then in the one around it. -/
theorem Sound.lookupVariable?_eq (h : t.Sound) (hscope : .scope scope parent ∈ t.facts)
    (name : String) : t.lookupVariable? scope name =
      (t.named? (foldName name) scope).or (parent.bind (t.lookupVariable? · name)) := by
  rw [lookupVariable?, h.ancestors_eq hscope, List.findSome?_cons, variableIn?_eq]
  cases t.named? (foldName name) scope with
  | some id => rfl
  | none => cases parent <;> rfl

end ScopeTree

end TurtleScript
