import TurtleScript.Proofs.Monad
import TurtleScript.Proofs.Typing.Judgement

/-!
# The resolver finds types by the rules

A part of the walk that succeeds leaves a tree that still fits, in which only open types were
fixed, and adds the types of the nodes it visited to the table. What it checked on its way
holds in the end: the final tree refines all that came before, and no entry of the table is
ever hidden by a later one.
-/
namespace TurtleScript

open ScopeTree Semantics

namespace ScopeTree

variable {t t' : ScopeTree}

theorem ancestorsFrom_congr (h : t'.scopes = t.scopes) (fuel scope : Nat) :
    t'.ancestorsFrom fuel scope = t.ancestorsFrom fuel scope := by
  induction fuel generalizing scope with
  | zero => rfl
  | succ fuel ih => simp only [ancestorsFrom, h, ih]

theorem Refines.lookupVariable? (h : Refines t t') (scope : Nat) (name : String) :
    t'.lookupVariable? scope name = t.lookupVariable? scope name := by
  have hin : t'.variableIn? name = t.variableIn? name := by
    funext i
    simp only [variableIn?, h.scopes]
  rw [ScopeTree.lookupVariable?, ScopeTree.lookupVariable?, ancestors, ancestors,
    ancestorsFrom_congr h.scopes, hin]

theorem Refines.resolveCall? (h : Refines t t') (scope : Nat) (name : String) (args : List Ty) :
    t'.resolveCall? scope name args = t.resolveCall? scope name args := by
  have hin : t'.overloadsIn? name = t.overloadsIn? name := by
    funext i
    simp only [overloadsIn?, h.scopes]
  rw [ScopeTree.resolveCall?, ScopeTree.resolveCall?, lookupOverloads?, lookupOverloads?,
    ancestors, ancestors, ancestorsFrom_congr h.scopes, hin]

/-- A name that is found stands for a variable of that name, up to the case of letters. -/
theorem Layout.lookupVariable? {host : Host} {scope id : Nat} {name : String}
    (h : Layout host t) (hid : t.lookupVariable? scope name = some id) :
    ∃ v, t.vars[id]? = some v ∧ foldName v.name = foldName name := by
  obtain ⟨i, -, hi⟩ := List.exists_of_findSome?_eq_some hid
  obtain ⟨s, hs, hvar⟩ := Option.bind_eq_some_iff.mp hi
  obtain ⟨l₁, l₂, hvars, -⟩ := List.lookup_eq_some_iff.mp hvar
  exact h.names i s hs (foldName name, id) (by simp [hvars])

/-- A program does not reach the arrays of loops. -/
theorem Layout.not_loopArray {host : Host} {scope id : Nat} {name : String}
    (h : Layout host t) (hname : Text.isIdentifier name = true)
    (hid : t.lookupVariable? scope name = some id) : ¬ t.IsLoopArray id := by
  obtain ⟨v, hv, hfold⟩ := h.lookupVariable? hid
  intro harray
  exact not_reserved hname (reserved_of_foldName hfold (h.loopArray harray hv).1)

end ScopeTree

namespace Resolve

/-- A later tree and table, seen from a state on the way. -/
structure Later (s : Typing) (t : ScopeTree) (r : Resolution) : Prop where
  refines : Refines s.tree t
  types : ∀ (k : Nat) (type : Ty), s.types.lookup k = some type → r.typeOf? k = some type

theorem Later.refl (s : Typing) (type : Ty) : Later s s.tree ⟨type, s.types⟩ :=
  ⟨.refl _, fun _ _ h => h⟩

/-- A tree that fits, with its number of functions, which never changes. -/
structure Sized (host : Host) (n : Nat) (t : ScopeTree) : Prop extends Wf host t where
  size : t.functions.size = n

theorem Sized.function {host : Host} {n i : Nat} {t : ScopeTree} (h : Sized host n t)
    (hi : i < n) : ∃ f, t.functions[i]? = some f :=
  ⟨_, Array.getElem?_eq_getElem (h.size ▸ hi)⟩

/-- The table has no types under keys of a kind. -/
def Fresh (keys : Nat → Prop) (s : Typing) : Prop := ∀ p ∈ s.types, ¬ keys p.1

/-- What a part of the walk does to the state: it adds types under keys of a kind. -/
structure Advances (host : Host) (n : Nat) (keys : Nat → Prop) (s s' : Typing) : Prop where
  sized : Sized host n s'.tree
  refines : Refines s.tree s'.tree
  types : Keyed keys s.types s'.types

variable {α β : Type} {host : Host} {n : Nat} {p q keys : Nat → Prop} {s s' s'' : Typing}
  {φ ψ : α → ScopeTree → Resolution → Prop} {post : β → ScopeTree → Resolution → Prop}
  {x : Resolve α} {f : α → Resolve β} {c : Context}

theorem Advances.refl (h : Sized host n s.tree) : Advances host n keys s s :=
  ⟨h, .refl _, .refl⟩

theorem Advances.trans (h : Advances host n p s s') (h' : Advances host n q s' s'')
    (hp : ∀ k, p k → keys k ∧ ¬ q k) (hq : ∀ k, q k → keys k) : Advances host n keys s s'' where
  sized := h'.sized
  refines := h.refines.trans h'.refines
  types := by
    refine (h.types.trans h'.types fun k hk => (hp k hk).2).mono ?_
    rintro k (hk | hk)
    · exact (hp k hk).1
    · exact hq k hk

theorem Advances.mono (h : Advances host n p s s') (hp : ∀ k, p k → q k) :
    Advances host n q s s' :=
  ⟨h.sized, h.refines, h.types.mono hp⟩

theorem Advances.fresh (h : Advances host n p s s') (hs : Fresh q s) (hp : ∀ k, p k → ¬ q k) :
    Fresh q s' := by
  obtain ⟨added, hadded, -, hkeys⟩ := h.types
  intro e he
  rw [hadded] at he
  rcases List.mem_append.mp he with he | he
  · exact hp _ (hkeys e he)
  · exact hs e he

/-- Types that are added hide none that were there. -/
theorem Advances.later {t : ScopeTree} {r : Resolution} (h : Advances host n keys s s')
    (hs : Fresh keys s) (hl : Later s' t r) : Later s t r where
  refines := h.refines.trans hl.refines
  types := by
    obtain ⟨added, hadded, -, hkeys⟩ := h.types
    intro k type hk
    refine hl.types k type ?_
    have hnone : added.lookup k = none := by
      refine List.lookup_eq_none_iff.mpr fun p hp => bne_iff_ne.mpr fun he => ?_
      exact hs _ (mem_of_lookup hk) (he ▸ hkeys p hp)
    rw [hadded, List.lookup_append, hnone, Option.none_or]
    exact hk

/-- A part of the walk that succeeds advances the state, and what it leaves holds from then
on. -/
def Resolves (host : Host) (n : Nat) (keys : Nat → Prop)
    (post : α → ScopeTree → Resolution → Prop) (x : Resolve α) : Prop :=
  ∀ s a s', Sized host n s.tree → Fresh keys s → x s = .ok a s' →
    Advances host n keys s s' ∧ ∀ t r, Later s' t r → post a t r

theorem Resolves.bind (hx : Resolves host n p φ x) (hp : ∀ k, p k → keys k ∧ ¬ q k)
    (hq : ∀ k, q k → keys k)
    (hf : ∀ a, Resolves host n q (fun b t r => φ a t r → post b t r) (f a)) :
    Resolves host n keys post (x >>= f) := by
  intro s b s'' hs hfresh h
  obtain ⟨a, s', hx', hf'⟩ := EStateM.bind_eq_ok h
  have hfreshx : Fresh p s := fun e he hk => hfresh e he (hp _ hk).1
  obtain ⟨hfirst, hleft⟩ := hx s a s' hs hfreshx hx'
  have hfreshf : Fresh q s' :=
    hfirst.fresh (fun e he hk => hfresh e he (hq _ hk)) fun k hk => (hp k hk).2
  obtain ⟨hsecond, hpost⟩ := hf a s' b s'' hfirst.sized hfreshf hf'
  exact ⟨hfirst.trans hsecond hp hq,
    fun t r hl => hpost t r hl (hleft t r (hsecond.later hfreshf hl))⟩

theorem Resolves.mono (hx : Resolves host n p φ x) (hp : ∀ k, p k → q k)
    (hφ : ∀ a t r, φ a t r → ψ a t r) : Resolves host n q ψ x := by
  intro s a s' hs hfresh h
  obtain ⟨hadvances, hpost⟩ := hx s a s' hs (fun e he hk => hfresh e he (hp _ hk)) h
  exact ⟨hadvances.mono hp, fun t r hl => hφ a t r (hpost t r hl)⟩

/-- A step that visits no node comes first. -/
theorem Resolves.lead (hx : Resolves host n (fun _ => False) φ x)
    (hf : ∀ a, Resolves host n keys (fun b t r => φ a t r → post b t r) (f a)) :
    Resolves host n keys post (x >>= f) :=
  hx.bind nofun (fun _ h => h) hf

theorem Resolves.pure {a : α} (h : ∀ t r, φ a t r) : Resolves host n keys φ (Pure.pure a) := by
  rintro s _ s' hs - ⟨⟩
  exact ⟨.refl hs, fun t r _ => h t r⟩

theorem Resolves.fail {problem : TypeProblem} {span : Span} :
    Resolves host n keys φ (Resolve.fail problem span) := by
  rintro s a s' - - ⟨⟩

theorem Resolves.failing {problem : TypeProblem} {span : Span} :
    Resolves host n keys post (Resolve.fail problem span >>= f) := by
  intro s b s' hs _ h
  obtain ⟨a, s₁, hfail, -⟩ := EStateM.bind_eq_ok h
  cases hfail

/-- A check that stops the walk. -/
theorem Resolves.guard {g : Prop} [Decidable g] {problem : TypeProblem} {span : Span}
    {y : Resolve β} (h : ¬ g → Resolves host n keys post y) :
    Resolves host n keys post (if g then Resolve.fail problem span >>= f else y) := by
  split
  · exact .failing
  · exact h ‹_›

theorem poll_eq_ok {span : Span} (h : c.cancelled.asked s.visits = false) :
    poll c span s = .ok () { s with visits := s.visits + 1 } := by
  refine (EStateM.bind_ok rfl).trans (congrFun (if_neg ?_) _)
  rw [h]
  exact Bool.false_ne_true

/-- A question is counted, and stops the walk or lets it go on. -/
theorem poll_cases (c : Context) (span : Span) (s : Typing) :
    poll c span s = .ok () { s with visits := s.visits + 1 } ∧
        c.cancelled.asked s.visits = false ∨
      ∃ d, poll c span s = .error d { s with visits := s.visits + 1 } := by
  cases hasked : c.cancelled.asked s.visits with
  | true => exact .inr ⟨_, (EStateM.bind_ok rfl).trans (congrFun (if_pos hasked) _)⟩
  | false => exact .inl ⟨poll_eq_ok hasked, rfl⟩

theorem polled_eq_ok {span : Span} {f : Unit → Resolve β}
    (h : (poll c span >>= f) s = .ok b s') :
    f () { s with visits := s.visits + 1 } = .ok b s' := by
  rcases poll_cases c span s with ⟨hok, -⟩ | ⟨d, herror⟩
  · exact (EStateM.bind_ok hok).symm.trans h
  · cases h.symm.trans (EStateM.bind_error herror)

/-- The walk comes to a node and is not to stop. -/
theorem Resolves.polled {span : Span} {f : Unit → Resolve β} (h : Resolves host n keys post (f ())) :
    Resolves host n keys post (poll c span >>= f) := by
  intro s b s' hs hfresh hrun
  obtain ⟨hadvances, hpost⟩ :=
    h { s with visits := s.visits + 1 } b s' hs hfresh (polled_eq_ok hrun)
  exact ⟨⟨hadvances.sized, hadvances.refines, hadvances.types⟩, hpost⟩

theorem Resolves.orFail {problem : TypeProblem} {span : Span} {o : Option α}
    (h : ∀ a, o = some a → Resolves host n keys post (f a)) :
    Resolves host n keys post (Resolve.orFail problem span o >>= f) := by
  cases o with
  | none => exact .failing
  | some a => exact h a rfl

/-- The tree is looked at. -/
theorem Resolves.tree {f : ScopeTree → Resolve β}
    (h : ∀ t₀, Sized host n t₀ →
      Resolves host n keys (fun b t r => Refines t₀ t → post b t r) (f t₀)) :
    Resolves host n keys post (Resolve.tree >>= f) := by
  intro s b s' hs hfresh hrun
  obtain ⟨hadvances, hpost⟩ := h s.tree hs s b s' hs hfresh hrun
  exact ⟨hadvances, fun t r hl => hpost t r hl (hadvances.later hfresh hl).refines⟩

/-- A node gets its type and the walk over it ends. -/
theorem Resolves.record {id : Nat} {type : Ty} {post : Ty → ScopeTree → Resolution → Prop}
    (hid : keys id) (h : ∀ t r, r.typeOf? id = some type → post type t r) :
    Resolves host n keys post (do Resolve.record id type; return type) := by
  rintro s _ s' hs - ⟨⟩
  exact ⟨⟨hs, .refl _, .one hid⟩, fun t r hl => h t r (hl.types id type List.lookup_cons_self)⟩

/-- The position of a context. -/
abbrev Context.here (c : Context) : Position := ⟨c.scope, c.function⟩

theorem Resolves.within {e : Expr} {f : Context → Resolve β}
    (h : ∀ scope, Resolves host n keys
      (fun b t r => t.scopeOf? e.id = some scope → post b t r) (f { c with scope })) :
    Resolves host n keys post (Resolve.within c e >>= f) := by
  intro s b s' hs hfresh hrun
  obtain ⟨c', s₁, hwithin, hf⟩ := EStateM.bind_eq_ok hrun
  rw [Resolve.within] at hwithin
  obtain ⟨t₀, _, ⟨⟩, hwithin⟩ := EStateM.bind_eq_ok hwithin
  cases hscope : s.tree.scopeOf? e.id with
  | none => simp only [hscope] at hwithin; cases hwithin
  | some scope =>
    simp only [hscope] at hwithin
    cases hwithin
    obtain ⟨hadvances, hpost⟩ := h scope s b s' hs hfresh hf
    refine ⟨hadvances, fun t r hl => hpost t r hl ?_⟩
    rw [scopeOf?, (hadvances.later hfresh hl).refines.nodeScopes]
    exact hscope

/-- A variable of the tree that has a type has it in the end. -/
theorem hasVar_of {t₀ t : ScopeTree} {scope function id : Nat} {name : String} {v : Variable}
    {type : Ty} (hs : Layout host t₀) (hr : Refines t₀ t)
    (hid : t₀.lookupVariable? scope name = some id) (hv : t₀.vars[id]? = some v)
    (htype : v.type = some type) (hlocal : ∀ owner n, v.storage = .slot owner n → owner = function) :
    t.HasVar ⟨scope, function⟩ name type := by
  obtain ⟨v', hv', -, hstorage, htype'⟩ := hr.vars id v hv
  refine ⟨id, v', (hr.lookupVariable? scope name).trans hid, hv',
    fun hname => htype' (hs.not_loopArray hname hid) type htype,
    fun owner n h => hlocal owner n (hstorage.symm.trans h), ?_⟩
  rintro rfl
  obtain ⟨index, hglobal⟩ := hs.valued id v hv htype
  refine htype' (fun harray => ?_) .empty htype
  obtain ⟨-, _, _, hslot⟩ := hs.loopArray harray hv
  cases hglobal.symm.trans hslot

/-- What the look at a variable has checked. -/
theorem variableType_eq_ok {name : String} {span : Span} {type : Ty}
    (h : variableType c name span s = .ok type s') :
    s' = s ∧ ∃ id v, s.tree.lookupVariable? c.scope name = some id ∧ s.tree.vars[id]? = some v ∧
      v.type = some type ∧ ∀ owner n, v.storage = .slot owner n → owner = c.function := by
  rw [variableType] at h
  obtain ⟨t₀, _, ⟨⟩, h⟩ := EStateM.bind_eq_ok h
  cases hfind : (s.tree.lookupVariable? c.scope name).bind (s.tree.vars[·]?) with
  | none => simp only [hfind] at h; cases h
  | some v =>
    obtain ⟨id, hid, hv⟩ := Option.bind_eq_some_iff.mp hfind
    have hfound (h : orFail (.variableTypeUnknown name) span v.type s = .ok type s') :
        s' = s ∧ v.type = some type := by
      cases htype : v.type with
      | none => rw [htype] at h; cases h
      | some actual => rw [htype] at h; cases h; exact ⟨rfl, rfl⟩
    simp only [hfind] at h
    cases hstorage : v.storage with
    | global index =>
      simp only [hstorage] at h
      obtain ⟨rfl, htype⟩ := hfound h
      refine ⟨rfl, id, v, hid, hv, htype, fun owner' n hslot => ?_⟩
      cases hstorage.symm.trans hslot
    | slot owner m =>
      simp only [hstorage] at h
      split at h
      case isTrue =>
        obtain ⟨_, _, hfail, -⟩ := EStateM.bind_eq_ok h
        cases hfail
      case isFalse howner =>
        obtain ⟨rfl, htype⟩ := hfound h
        refine ⟨rfl, id, v, hid, hv, htype, fun owner' n hslot => ?_⟩
        cases hstorage.symm.trans hslot
        exact Decidable.not_not.mp howner

theorem Resolves.variableType {name : String} {span : Span} :
    Resolves host n (fun _ => False) (fun type t _ => t.HasVar c.here name type)
      (Resolve.variableType c name span) := by
  intro s type s' hs _ h
  obtain ⟨rfl, id, v, hid, hv, htype, hlocal⟩ := variableType_eq_ok h
  exact ⟨.refl hs, fun t r hl => hasVar_of hs.toLayout hl.refines hid hv htype hlocal⟩

theorem Sized.refines {t t' : ScopeTree} (h : Sized host n t) (hr : Refines t t')
    (hvalued : t'.Valued) : Sized host n t' :=
  { h.toWf.refines hr hvalued with size := hr.sizeFunctions.trans h.size }

/-- The type of a variable that is open, or of a loop's array, is set. -/
theorem Sized.setVariableType {t : ScopeTree} {id : Nat} {type : Ty} (h : Sized host n t)
    (htype : type ≠ .empty)
    (hopen : ∀ v, t.vars[id]? = some v → v.type = none ∨ t.IsLoopArray id) :
    Sized host n (t.setVariableType id type) := by
  refine h.refines (.setVariableType hopen) fun i v' hv' hempty => ?_
  rw [vars_setVariableType] at hv'
  obtain ⟨v, hv, rfl⟩ := Option.map_eq_some_iff.mp hv'
  dsimp only at hempty
  split at hempty
  case isTrue => exact absurd (Option.some.inj hempty) htype
  case isFalse => exact h.valued i v hv hempty

/-- The variable of a loop, once its type is fixed, gets it as a node. -/
theorem loopNode_eq_ok {l : Label} {name : String} {id : Nat} {v : Variable} {expected : Ty}
    {u : Unit} (hs : Sized host n s.tree)
    (hid : s.tree.lookupVariable? c.scope name = some id) (hv : s.tree.vars[id]? = some v)
    (htype : v.type = some expected)
    (h : (do poll c l.span; record l.id (← variableType c name l.span)) s = .ok u s') :
    Advances host n (fun k => k = l.id) s s' ∧ ∀ t r, Later s' t r →
      t.HasVar c.here name expected ∧ r.typeOf? l.id = some expected := by
  obtain ⟨type, s₁, hvariable, hrecord⟩ := EStateM.bind_eq_ok (polled_eq_ok h)
  obtain ⟨rfl, id', v', hid', hv', htype', hlocal⟩ := variableType_eq_ok hvariable
  cases hid.symm.trans hid'
  cases hv.symm.trans hv'
  cases htype.symm.trans htype'
  cases hrecord
  refine ⟨⟨hs, .refl _, .one rfl⟩, fun t r hl => ⟨?_, hl.types _ _ List.lookup_cons_self⟩⟩
  exact hasVar_of hs.toLayout hl.refines hid hv htype hlocal

/-- The variable of a loop gets the expected type, or had it. -/
theorem Resolves.loopVariable {e : Expr} {expected : Ty} (hexpected : expected ≠ .empty) :
    Resolves host n (fun k => k = e.id) (fun _ t r => ∃ l name d, e = .var l name d ∧
        t.HasVar c.here name expected ∧ r.typeOf? l.id = some expected)
      (Resolve.loopVariable c e expected) := by
  cases e with
  | var l name d =>
    rw [Resolve.loopVariable]
    intro s u s' hs _ h
    obtain ⟨t₀, _, ⟨⟩, h⟩ := EStateM.bind_eq_ok h
    cases hid : s.tree.lookupVariable? c.scope name with
    | none => simp only [hid] at h; cases h
    | some id =>
      simp only [hid] at h
      obtain ⟨_, _, ⟨⟩, h⟩ := EStateM.bind_eq_ok h
      obtain ⟨v, hv, -⟩ := hs.toLayout.lookupVariable? hid
      simp only [hv, Option.bind_some] at h
      cases htype : v.type with
      | none =>
        simp only [htype] at h
        obtain ⟨_, _, ⟨⟩, h⟩ := EStateM.bind_eq_ok h
        have hopen (v' : Variable) (hv' : s.tree.vars[id]? = some v') :
            v'.type = none ∨ s.tree.IsLoopArray id := by
          cases hv.symm.trans hv'
          exact .inl htype
        have hset : Refines s.tree (s.tree.setVariableType id expected) :=
          .setVariableType hopen
        have hsized : Sized host n (s.tree.setVariableType id expected) :=
          hs.setVariableType hexpected hopen
        obtain ⟨hadvances, hpost⟩ := loopNode_eq_ok hsized
          ((hset.lookupVariable? _ _).trans hid)
          (by rw [vars_setVariableType, hv]; rfl) (if_pos rfl) h
        refine ⟨⟨hadvances.sized, hset.trans hadvances.refines, hadvances.types⟩, ?_⟩
        exact fun t r hl => ⟨l, name, d, rfl, hpost t r hl⟩
      | some actual =>
        simp only [htype] at h
        split at h
        case isTrue =>
          obtain ⟨_, _, hfail, -⟩ := EStateM.bind_eq_ok h
          cases hfail
        case isFalse hne =>
          rw [Decidable.not_not.mp hne] at htype
          obtain ⟨hadvances, hpost⟩ := loopNode_eq_ok hs hid hv htype h
          exact ⟨hadvances, fun t r hl => ⟨l, name, d, rfl, hpost t r hl⟩⟩
  | _ => exact .fail

theorem Resolves.allow {g : Prop} [Decidable g] {problem : TypeProblem} {span : Span}
    (h : g → Resolves host n keys φ x) :
    Resolves host n keys φ (if g then x else Resolve.fail problem span) := by
  split
  · exact h ‹_›
  · exact .fail

theorem Resolves.deny {g : Prop} [Decidable g] {problem : TypeProblem} {span : Span}
    (h : ¬ g → Resolves host n keys φ x) :
    Resolves host n keys φ (if g then Resolve.fail problem span else x) := by
  split
  · exact .fail
  · exact h ‹_›

/-- A check without a result comes first. -/
theorem Resolves.check {g : Prop} [Decidable g] {problem : TypeProblem} {span : Span}
    {f : Unit → Resolve β} (h : g → Resolves host n keys post (f ())) :
    Resolves host n keys post ((if g then Pure.pure () else Resolve.fail problem span) >>= f) := by
  split
  · exact h ‹_›
  · exact .failing

theorem Resolves.operatorType {op : BinaryOp} {left right : Ty} {span : Span}
    (hop : op ≠ .assign) :
    Resolves host n (fun _ => False) (fun type t _ => t.Operates c.scope op left right type)
      (Resolve.operatorType c op left right span) := by
  cases op with
  | assign => contradiction
  | equal => exact .pure fun _ _ => .equal
  | sub | mul | div | mod =>
    refine .allow fun ⟨hleft, hright⟩ => .pure fun t _ => ?_
    rw [hleft, hright]
    exact .arithmetic (by simp)
  | less | greater | lessEqual | greaterEqual =>
    refine .allow fun ⟨hleft, hright⟩ => .pure fun t _ => ?_
    rw [hleft, hright]
    exact .comparison (by simp)
  | and | or =>
    refine .allow fun ⟨hleft, hright⟩ => .pure fun t _ => ?_
    rw [hleft, hright]
    exact .logic (by simp)
  | add =>
    refine .deny fun _ => ?_
    split
    case isTrue hstring =>
      refine .allow fun ⟨hleft, hright⟩ => .tree fun t₀ _ => ?_
      cases hcall : t₀.resolveCall? c.scope Host.concatName [left, right] with
      | none => exact .fail
      | some o =>
        refine .pure fun t _ hr => .concat (o := o) hstring hleft hright ?_
        exact (hr.resolveCall? _ _ _).trans hcall
    case isFalse =>
      refine .allow fun ⟨hleft, hright⟩ => .pure fun t _ => ?_
      rw [hleft, hright]
      exact .arithmetic (by simp)

theorem Resolves.callType {name : String} {args : List Ty} {span : Span} (hc : c.host = host) :
    Resolves host n (fun _ => False) (fun type t _ => ∃ o,
        t.resolveCall? c.scope name args = some o ∧ Yields host t o.callee type)
      (Resolve.callType c name args span) := by
  rw [Resolve.callType]
  refine .tree fun t₀ _ => .orFail fun o ho => ?_
  have hcall {t : ScopeTree} (hr : Refines t₀ t) : t.resolveCall? c.scope name args = some o :=
    (hr.resolveCall? _ _ _).trans ho
  cases hcallee : o.callee with
  | native index =>
    dsimp only
    cases hnative : c.host.natives[index]? with
    | none => exact .fail
    | some native =>
      refine .pure fun t _ hr => ⟨o, hcall hr, ?_⟩
      rw [hcallee, Yields]
      exact ⟨native, hc ▸ hnative, rfl⟩
  | script id =>
    dsimp only
    cases hfunction : (t₀.functions[id]?).bind (·.returnType) with
    | none => exact .fail
    | some type =>
      obtain ⟨f, hf, htype⟩ := Option.bind_eq_some_iff.mp hfunction
      refine .pure fun t _ hr => ⟨o, hcall hr, ?_⟩
      obtain ⟨f', hf', -, -, -, hresult⟩ := hr.functions id f hf
      rw [hcallee, Yields]
      exact ⟨f', hf', hresult type htype⟩

/-- A function that has a result keeps it. -/
theorem Later.returns {t : ScopeTree} {r : Resolution} {function : Nat} {type : Ty}
    {f : FunctionRecord} (hl : Later s t r) (hf : s.tree.functions[function]? = some f)
    (htype : f.returnType = some type) : t.Returns function type := by
  obtain ⟨f', hf', -, -, -, hresult⟩ := hl.refines.functions function f hf
  exact ⟨f', hf', hresult type htype⟩

/-- The result of a function that had none is set. -/
theorem setReturnType_step {function : Nat} {type : Ty} {f : FunctionRecord}
    (hs : Sized host n s.tree) (hf : s.tree.functions[function]? = some f)
    (hopen : f.returnType = none) :
    Advances host n keys s { s with tree := s.tree.setReturnType function type } ∧
      ∀ t r, Later { s with tree := s.tree.setReturnType function type } t r →
        t.Returns function type := by
  have hset : Refines s.tree (s.tree.setReturnType function type) := by
    refine .setReturnType fun f' hf' => ?_
    cases hf.symm.trans hf'
    exact .inl hopen
  refine ⟨⟨hs.refines hset hs.valued, hset, .refl⟩, fun t r hl => ?_⟩
  refine hl.returns (f := { f with returnType := some type }) ?_ rfl
  simp [functions_setReturnType, hf]

theorem Resolves.settleReturn {clashes : Ty → Bool} {function : Nat} {type : Ty} {span : Span}
    (hfunction : function < n) :
    Resolves host n (fun _ => False) (fun _ t _ => ∃ result, t.Returns function result ∧
      (result = type ∨ clashes result = false)) (Resolve.settleReturn clashes function type span) := by
  rw [Resolve.settleReturn]
  intro s u s' hs _ h
  obtain ⟨t₀, _, ⟨⟩, h⟩ := EStateM.bind_eq_ok h
  obtain ⟨f, hf⟩ := hs.function hfunction
  simp only [hf, Option.bind_some] at h
  cases hresult : f.returnType with
  | none =>
    simp only [hresult] at h
    cases h
    obtain ⟨hadvances, hreturns⟩ := setReturnType_step hs hf hresult
    exact ⟨hadvances, fun t r hl => ⟨type, hreturns t r hl, .inl rfl⟩⟩
  | some known =>
    simp only [hresult] at h
    split at h
    case isTrue => cases h
    case isFalse hclash =>
      cases h
      exact ⟨.refl hs, fun t r hl => ⟨known, hl.returns hf hresult, .inr (by simpa using hclash)⟩⟩

theorem Resolves.returnType {function : Nat} {type : Ty} {span : Span} (hfunction : function < n) :
    Resolves host n (fun _ => False) (fun _ t _ => t.Returns function type)
      (Resolve.returnType function type span) := by
  refine (Resolves.settleReturn hfunction).mono (fun _ h => h) fun _ t _ => ?_
  rintro ⟨result, hreturns, rfl | hsame⟩
  · exact hreturns
  · simp only [ne_eq, decide_not, Bool.not_eq_false', decide_eq_true_eq] at hsame
    exact hsame ▸ hreturns

theorem Resolves.bodyType {function : Nat} {type : Ty} {span : Span} (hfunction : function < n) :
    Resolves host n (fun _ => False) (fun _ t _ => ∃ result, t.Returns function result ∧
        (result = type ∨ result = .empty ∨ type = .empty))
      (Resolve.bodyType function type span) := by
  refine (Resolves.settleReturn hfunction).mono (fun _ h => h) fun _ t _ => ?_
  rintro ⟨result, hreturns, hsame | hfits⟩
  · exact ⟨result, hreturns, .inl hsame⟩
  · refine ⟨result, hreturns, ?_⟩
    simp only [Ty.isEmpty] at hfits
    grind

end Resolve

end TurtleScript
