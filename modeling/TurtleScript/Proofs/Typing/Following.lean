import TurtleScript.Proofs.Scope.Answers
import TurtleScript.Proofs.Typing.Resolution

/-!
# Walks under other numbers

One walk of the resolver follows another if it ends without a problem wherever the other does,
in a state that says the same under other numbers for scopes, variables, functions and nodes.
Every step of the resolver follows the same step under these numbers.
-/
namespace TurtleScript

open ScopeTree

namespace Resolve

/-- The states say the same under the numbers `π`. -/
structure Mirrors (π : Renaming) (s s' : Typing) : Prop where
  tree : Alike π s.tree s'.tree
  types : s'.types = s.types.map fun p => (π.node p.1, p.2)
  visits : s'.visits = s.visits

def Context.rename (π : Renaming) (c : Context) : Context :=
  { c with scope := π.scope c.scope, function := π.function c.function }

/-- Where `x` ends without a problem, so does `x'`, with a result that belongs to that of `x`. -/
def Follows {α β : Type} (π : Renaming) (post : α → β → Prop) (x : Resolve α) (x' : Resolve β) :
    Prop :=
  ∀ ⦃s s' : Typing⦄, Mirrors π s s' → ∀ ⦃a : α⦄ ⦃t : Typing⦄, x s = .ok a t →
    ∃ b t', x' s' = .ok b t' ∧ post a b ∧ Mirrors π t t'

namespace Follows

variable {α β γ δ : Type} {π : Renaming} {φ : α → β → Prop} {post : γ → δ → Prop} {x : Resolve α}
  {x' : Resolve β} {y : Resolve γ} {y' : Resolve δ} {f : α → Resolve γ} {f' : β → Resolve δ}
  {problem problem' : TypeProblem} {span span' : Span} {c : Context} {e e' : Expr}

theorem bind (hx : Follows π φ x x') (hf : ∀ a b, φ a b → Follows π post (f a) (f' b)) :
    Follows π post (x >>= f) (x' >>= f') := by
  intro s s' hs a t h
  obtain ⟨b, s₁, hx₁, hf₁⟩ := EStateM.bind_eq_ok h
  obtain ⟨b', s₁', hx₁', hb, hs₁⟩ := hx hs hx₁
  obtain ⟨a', t', hf₁', hpost, ht⟩ := hf b b' hb hs₁ hf₁
  exact ⟨a', t', (EStateM.bind_ok hx₁').trans hf₁', hpost, ht⟩

/-- The usual case: both steps have one result. -/
theorem next {x : Resolve α} {x' : Resolve α} {f' : α → Resolve δ} (hx : Follows π Eq x x')
    (hf : ∀ a, Follows π post (f a) (f' a)) : Follows π post (x >>= f) (x' >>= f') :=
  hx.bind fun a _ h => h ▸ hf a

theorem pure {a : γ} {b : δ} (h : post a b) : Follows π post (Pure.pure a) (Pure.pure b) := by
  intro s s' hs _ _ ha
  cases ha
  exact ⟨b, s', rfl, h, hs⟩

theorem fail : Follows π post (Resolve.fail problem span) y' := nofun

theorem failing : Follows π post (Resolve.fail problem span >>= f) y' := nofun

theorem guard {g g' : Prop} [Decidable g] [Decidable g'] (hg : g' → g) (h : Follows π post y y') :
    Follows π post (if g then Resolve.fail problem span >>= f else y)
      (if g' then Resolve.fail problem' span' >>= f' else y') := by
  by_cases hcase : g
  · rw [if_pos hcase]
    exact failing
  · rw [if_neg hcase, if_neg fun h => hcase (hg h)]
    exact h

/-- Both walks ask the same question. -/
theorem polled {f : Unit → Resolve γ} {f' : Unit → Resolve δ} (h : Follows π post (f ()) (f' ())) :
    Follows π post (poll c span >>= f) (poll (c.rename π) span' >>= f') := by
  intro s s' hs a t hrun
  have hasked : c.cancelled.asked s'.visits = false := by
    rcases poll_cases c span s with ⟨-, hasked⟩ | ⟨d, herror⟩
    · rw [hs.visits]
      exact hasked
    · cases hrun.symm.trans (EStateM.bind_error herror)
  have hnext : Mirrors π { s with visits := s.visits + 1 } { s' with visits := s'.visits + 1 } :=
    ⟨hs.tree, hs.types, congrArg (· + 1) hs.visits⟩
  obtain ⟨b, t', hrun', hb, ht⟩ := h hnext (polled_eq_ok hrun)
  exact ⟨b, t', (EStateM.bind_ok (poll_eq_ok hasked)).trans hrun', hb, ht⟩

theorem orFail {o : Option α} {o' : Option β} {k : α → β} (ho : o' = o.map k)
    (h : ∀ a, o = some a → Follows π post (f a) (f' (k a))) :
    Follows π post (Resolve.orFail problem span o >>= f)
      (Resolve.orFail problem' span' o' >>= f') := by
  subst ho
  cases o with
  | none => exact failing
  | some a => exact h a rfl

theorem tree {f : ScopeTree → Resolve γ} {f' : ScopeTree → Resolve δ}
    (h : ∀ t t', Alike π t t' → Follows π post (f t) (f' t')) :
    Follows π post (Resolve.tree >>= f) (Resolve.tree >>= f') :=
  fun _ _ hs => h _ _ hs.tree hs

theorem record (node : Nat) (type : Ty) :
    Follows π Eq (Resolve.record node type) (Resolve.record (π.node node) type) := by
  intro s s' hs _ _ h
  cases h
  exact ⟨(), _, rfl, rfl, hs.tree, congrArg ((π.node node, type) :: ·) hs.types, hs.visits⟩

theorem within {f : Context → Resolve γ} {f' : Context → Resolve δ} (hid : e'.id = π.node e.id)
    (h : ∀ scope, Follows π post (f { c with scope }) (f' ({ c with scope }.rename π))) :
    Follows π post (Resolve.within c e >>= f) (Resolve.within (c.rename π) e' >>= f') := by
  rw [Resolve.within, Resolve.within, bind_assoc, bind_assoc]
  refine tree fun t t' ht => ?_
  rw [bind_assoc, bind_assoc]
  refine orFail (k := π.scope) ?_ fun scope _ => h scope
  rw [hid, ht.scopeOf?]

theorem discard (hx : Follows π φ x x') :
    Follows π Eq (Functor.discard x) (Functor.discard x') := by
  intro s s' hs _ t h
  obtain ⟨a, hx₁⟩ := EStateM.discard_eq_ok h
  obtain ⟨b, t', hx₁', -, ht⟩ := hx hs hx₁
  refine ⟨(), t', ?_, rfl, ht⟩
  rw [EStateM.discard_apply, hx₁']

end Follows

section Steps

variable {π : Renaming} {c : Context} {span span' : Span} {name : String} {type : Ty}

theorem follows_requireBoolean : Follows π Eq (requireBoolean type span) (requireBoolean type span') := by
  rw [requireBoolean, requireBoolean]
  split
  · exact .pure rfl
  · exact .fail

theorem follows_requireNumberBound :
    Follows π Eq (requireNumberBound type span) (requireNumberBound type span') := by
  rw [requireNumberBound, requireNumberBound]
  split
  · exact .pure rfl
  · exact .fail

theorem follows_assignmentType {source : Ty} {target target' : AssignmentTarget} :
    Follows π Eq (assignmentType type source target span)
      (assignmentType type source target' span') := by
  rw [assignmentType, assignmentType]
  split
  · exact .pure rfl
  · exact .fail

theorem follows_iterableElement :
    Follows π Eq (iterableElement type span) (iterableElement type span') := by
  unfold iterableElement
  split
  · exact .fail
  · exact .pure rfl
  · exact .fail

theorem follows_indexedElement :
    Follows π Eq (indexedElement type span) (indexedElement type span') := by
  unfold indexedElement
  split
  · exact .pure rfl
  · exact .fail

theorem follows_joinElement {known : Option Ty} :
    Follows π Eq (joinElement known type span) (joinElement known type span') := by
  unfold joinElement
  split <;> split
  · exact .fail
  · exact .pure rfl
  · exact .pure rfl
  · exact .fail

theorem follows_orFail {problem problem' : TypeProblem} {o o' : Option Ty} (h : o' = o) :
    Follows π Eq (orFail problem span o) (orFail problem' span' o') := by
  subst h
  cases o' with
  | none => exact .fail
  | some type => exact .pure rfl

/-- A variable is known in both states, with one type and with owners that belong together. -/
theorem exists_variable {t t' : ScopeTree} (ht : Alike π t t') {id : Nat} {v : Variable}
    (hv : t.vars[id]? = some v) : ∃ v', t'.vars[π.var id]? = some v' ∧ v'.type = v.type ∧
      v'.storage.owner? = v.storage.owner?.map π.function := by
  have hvar := ht.variable_eq id
  rw [hv] at hvar
  obtain ⟨v', hv', heq⟩ := Option.map_eq_some_iff.mp hvar
  obtain ⟨htype, howner⟩ := Prod.mk.inj heq
  exact ⟨v', hv', htype, howner⟩

theorem follows_variableType (hname : ¬ HiddenName (foldName name)) :
    Follows π Eq (variableType c name span) (variableType (c.rename π) name span') := by
  rw [variableType, variableType]
  refine .tree fun t t' ht => ?_
  have hfound := ht.lookupVariable? hname c.scope
  cases hid : t.lookupVariable? c.scope name with
  | none => exact .fail
  | some id =>
    rw [hid, Option.map_some] at hfound
    cases hv : t.vars[id]? with
    | none =>
      simp only [Option.bind_some, hv]
      exact .fail
    | some v =>
      obtain ⟨v', hv', htype, howner⟩ := exists_variable ht hv
      simp only [Context.rename, hfound, Option.bind_some, hv, hv', htype]
      cases hstorage : v.storage with
      | global n =>
        rw [hstorage] at howner
        cases hstorage' : v'.storage with
        | global m => exact follows_orFail rfl
        | slot owner m => simp [hstorage', Storage.owner?] at howner
      | slot owner n =>
        rw [hstorage] at howner
        cases hstorage' : v'.storage with
        | global m => simp [hstorage', Storage.owner?] at howner
        | slot owner' m =>
          rw [hstorage'] at howner
          cases howner
          refine .guard (fun hne heq => hne ?_) (follows_orFail rfl)
          rw [heq]

theorem follows_operatorType {op : BinaryOp} {left right : Ty} :
    Follows π Eq (operatorType c op left right span)
      (operatorType (c.rename π) op left right span') := by
  have hcheck {g : Prop} [Decidable g] {result : Ty} {problem problem' : TypeProblem} :
      Follows π Eq (if g then pure result else fail problem span)
        (if g then pure result else fail problem' span') := by
    split
    · exact .pure rfl
    · exact .fail
  cases op with
  | equal | assign => exact .pure rfl
  | add =>
    unfold operatorType
    dsimp only
    split
    · exact .fail
    split
    · split
      · refine .tree fun t t' ht => ?_
        have hcall := ht.resolveCall? Host.concatName [left, right] c.scope
        cases hconcat : t.resolveCall? c.scope Host.concatName [left, right] with
        | none => exact .fail
        | some o =>
          rw [hconcat] at hcall
          obtain ⟨o', ho', -⟩ := Option.map_eq_some_iff.mp hcall
          simp only [Context.rename, ho']
          exact .pure rfl
      · exact .fail
    · exact hcheck
  | _ => exact hcheck

theorem follows_callType {args : List Ty} :
    Follows π Eq (callType c name args span) (callType (c.rename π) name args span') := by
  rw [callType, callType]
  refine .tree fun t t' ht => ?_
  have hcall := ht.resolveCall? name args c.scope
  cases ho : t.resolveCall? c.scope name args with
  | none => exact .failing
  | some o =>
    rw [ho] at hcall
    obtain ⟨⟨_, _, callee'⟩, ho', hcallee⟩ := Option.map_eq_some_iff.mp hcall
    obtain ⟨_, _, callee⟩ := o
    dsimp only at hcallee
    subst hcallee
    simp only [Context.rename, ho']
    cases callee with
    | native index => exact follows_orFail rfl
    | script id => exact follows_orFail (ht.returnType? id)

theorem follows_setReturnType (function : Nat) (type : Ty) :
    Follows π Eq
      (modify fun s => { s with tree := s.tree.setReturnType function type } : Resolve Unit)
      (modify fun s => { s with tree := s.tree.setReturnType (π.function function) type }) := by
  intro s s' hs _ _ h
  cases h
  exact ⟨(), _, rfl, rfl, hs.tree.setReturnType function type, hs.types, hs.visits⟩

theorem follows_setVariableType (id : Nat) (type : Ty) :
    Follows π Eq
      (modify fun s => { s with tree := s.tree.setVariableType id type } : Resolve Unit)
      (modify fun s => { s with tree := s.tree.setVariableType (π.var id) type }) := by
  intro s s' hs _ _ h
  cases h
  exact ⟨(), _, rfl, rfl, hs.tree.setVariableType id type, hs.types, hs.visits⟩

theorem follows_settleReturn {clashes : Ty → Bool} {function : Nat} :
    Follows π Eq (settleReturn clashes function type span)
      (settleReturn clashes (π.function function) type span') := by
  rw [settleReturn, settleReturn]
  refine .tree fun t t' ht => ?_
  simp only [ht.returnType?]
  cases (t.functions[function]?).bind (·.returnType) with
  | none => exact follows_setReturnType function type
  | some known =>
    dsimp only
    split
    · exact .fail
    · exact .pure rfl

theorem follows_loopVariable {l : Label} {d d' : Option Expr} (hname : ¬ HiddenName (foldName name)) :
    Follows π Eq (loopVariable c (.var l name d) type)
      (loopVariable (c.rename π) (.var { l with id := π.node l.id } name d') type) := by
  rw [loopVariable, loopVariable]
  refine .tree fun t t' ht => .orFail (ht.lookupVariable? hname c.scope) fun id hid => ?_
  have hnode : Follows π Eq (do poll c l.span; record l.id (← variableType c name l.span))
      (do poll (c.rename π) l.span; record (π.node l.id) (← variableType (c.rename π) name l.span)) :=
    .polled ((follows_variableType hname).next (.record l.id))
  have htype : (t'.vars[π.var id]?).bind (·.type) = (t.vars[id]?).bind (·.type) := by
    have hvar := congrArg (·.bind Prod.fst) (ht.variable_eq id)
    simpa [Option.bind_map, Function.comp_def] using hvar
  simp only [htype]
  cases (t.vars[id]?).bind (·.type) with
  | none => exact (follows_setVariableType id type).next fun _ => hnode
  | some actual => exact .guard (fun h => h) hnode

end Steps

end Resolve

end TurtleScript
