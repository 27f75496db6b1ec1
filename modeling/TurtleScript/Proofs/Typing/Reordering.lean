import Mathlib.Data.List.Forall2
import TurtleScript.Proofs.Scope.Reordering
import TurtleScript.Proofs.Typing.Following
import TurtleScript.Proofs.Typing.Walk

/-!
# Types of programs in another order

Functions are visited before the other members of a block. So the resolver goes over the nodes of
a program in the same order when a function and another member of a block are exchanged, and it
finds the same types unless the exchange changed the scopes.
-/
namespace TurtleScript

open ScopeTree

namespace Resolve

/-- Nodes that are the same but for the numbers and what stands below, such that a visit of the
one follows a visit of the other. -/
structure Twin (π : Renaming) (e e' : Expr) : Prop where
  shell : e'.shell = (e.relabel π.node).shell
  visit : ∀ c, Follows π Eq (visit c e) (visit (c.rename π) e')

namespace Twin

variable {π : Renaming} {e e' : Expr}

theorem label_eq (h : Twin π e e') : e'.label = { e.label with id := π.node e.label.id } :=
  (Expr.label_eq_of_shell h.shell).trans (Expr.label_relabel π.node e)

theorem isFunction_eq (h : Twin π e e') : e'.isFunction = e.isFunction := by
  rw [← Expr.isFunction_shell, h.shell, Expr.isFunction_shell, Expr.isFunction_relabel]

end Twin

section Lists

variable {π : Renaming} {c : Context} {es es' : List Expr}

theorem follows_visitAll (h : List.Forall₂ (Twin π) es es') :
    Follows π Eq (visitAll c es) (visitAll (c.rename π) es') := by
  induction h with
  | nil => exact .pure rfl
  | cons he _ ih => exact (he.visit c).next fun _ => ih.next fun _ => .pure rfl

theorem follows_visitElements {known : Option Ty} (h : List.Forall₂ (Twin π) es es') :
    Follows π Eq (visitElements c known es) (visitElements (c.rename π) known es') := by
  induction h generalizing known with
  | nil => exact .pure rfl
  | cons he _ ih => exact (he.visit c).next fun _ => follows_joinElement.next fun _ => ih

theorem follows_visitOption {o o' : Option Expr} (h : Option.Rel (Twin π) o o') :
    Follows π Eq (visitOption c o) (visitOption (c.rename π) o') := by
  cases h with
  | none => exact .pure rfl
  | some he => exact (he.visit c).discard

theorem follows_visitMembers {functions : Bool} (h : List.Forall₂ (Twin π) es es') :
    Follows π Eq (visitMembers c functions es) (visitMembers (c.rename π) functions es') := by
  induction h with
  | nil => exact .pure rfl
  | cons he _ ih =>
    rw [visitMembers, visitMembers, he.isFunction_eq]
    split
    · exact (he.visit c).discard.next fun _ => ih
    · exact ih

/-- Members of the other kind are passed over. -/
theorem visitMembers_filter (c : Context) (functions : Bool) (es : List Expr) :
    visitMembers c functions es =
      visitMembers c functions (es.filter (·.isFunction = functions)) := by
  induction es with
  | nil => rfl
  | cons e es ih =>
    rw [visitMembers, List.filter_cons]
    split
    case isTrue h => rw [if_pos (decide_eq_true h), visitMembers, if_pos h, ih]
    case isFalse h => rw [if_neg (by simpa using h), ih]

theorem lookup_mirrored (types : List (Nat × Ty)) (node : Nat) :
    (types.map fun p => (π.node p.1, p.2)).lookup (π.node node) = types.lookup node := by
  induction types with
  | nil => rfl
  | cons p types ih =>
    rw [List.map_cons, List.lookup_cons, List.lookup_cons, ih]
    by_cases h : node = p.1
    · simp [h]
    · have hne : π.node node ≠ π.node p.1 := fun heq => h (π.node_injective heq)
      rw [beq_false_of_ne h, beq_false_of_ne hne]

theorem follows_lastType (h : es'.getLast?.map Expr.id = es.getLast?.map (π.node ·.id)) :
    Follows π Eq (lastType es) (lastType es') := by
  intro s s' hs _ _ hrun
  cases hrun
  refine ⟨_, s', rfl, ?_, hs⟩
  have hlast : (es'.getLast?.bind fun last => s'.types.lookup last.id) =
      es.getLast?.bind fun last => s.types.lookup last.id := by
    have hids (es : List Expr) : (es.getLast?.bind fun last => s'.types.lookup last.id) =
        (es.getLast?.map Expr.id).bind (s'.types.lookup ·) := by rw [Option.bind_map]; rfl
    rw [hids, h, Option.bind_map, hs.types]
    simp only [Function.comp_def, lookup_mirrored]
  rw [hlast]

end Lists

section Nodes

variable {π : Renaming} {l : Label} {c : Context}

theorem follows_recorded (node : Nat) (type : Ty) :
    Follows π Eq (do record node type; return type) (do record (π.node node) type; return type) :=
  (Follows.record node type).next fun _ => .pure rfl

/-- The end of the visit of a node without a value. -/
theorem follows_empty (node : Nat) :
    Follows π Eq (do let type ← pure .empty; record node type; return type)
      (do let type ← pure .empty; record (π.node node) type; return type) :=
  .next (.pure rfl) fun type => follows_recorded node type

theorem follows_constant {value : Literal} : Follows π Eq (visit c (.constant l value))
    (visit (c.rename π) (.constant { l with id := π.node l.id } value)) := by
  rw [visit.eq_1 c, visit.eq_1 (c.rename π)]
  refine .polled ?_
  cases value with
  | boolean | number | string => exact .next (.pure rfl) fun type => follows_recorded l.id type

theorem follows_var {name : String} {d d' : Option Expr} (hname : ¬ HiddenName (foldName name)) :
    Follows π Eq (visit c (.var l name d))
      (visit (c.rename π) (.var { l with id := π.node l.id } name d')) := by
  rw [visit.eq_1 c, visit.eq_1 (c.rename π)]
  exact .polled ((follows_variableType hname).next (follows_recorded l.id))

theorem follows_paren {inner inner' : Expr} (h : Twin π inner inner') :
    Follows π Eq (visit c (.paren l inner))
      (visit (c.rename π) (.paren { l with id := π.node l.id } inner')) := by
  rw [visit.eq_1 c, visit.eq_1 (c.rename π)]
  exact .polled ((h.visit c).next (follows_recorded l.id))

/-- Whether a node can be assigned to shows in the node itself. -/
theorem follows_assignmentTarget {left left' : Expr} (h : Twin π left left') :
    Follows π (fun _ _ => True) (assignmentTarget left) (assignmentTarget left') := by
  have hshell := h.shell
  cases left with
  | var l name d => cases left' <;> first | exact .pure trivial | cases hshell
  | element l target index =>
    cases index with
    | none => exact .fail
    | some index =>
      cases left' with
      | element l' target' index' =>
        cases index' with
        | none => cases hshell
        | some index' => exact .pure trivial
      | _ => cases hshell
  | _ => exact .fail

theorem follows_binary {op : BinaryOp} {left left' right right' : Expr} (hleft : Twin π left left')
    (hright : Twin π right right') : Follows π Eq (visit c (.binary l op left right))
      (visit (c.rename π) (.binary { l with id := π.node l.id } op left' right')) := by
  rw [visit.eq_1 c, visit.eq_1 (c.rename π)]
  refine .polled ?_
  dsimp only
  split
  · exact (follows_assignmentTarget hleft).bind fun _ _ _ => (hleft.visit c).next fun _ =>
      (hright.visit c).next fun _ => follows_assignmentType.next (follows_recorded l.id)
  · exact (hleft.visit c).next fun _ => (hright.visit c).next fun _ =>
      follows_operatorType.next (follows_recorded l.id)

theorem follows_whileLoop {condition condition' body body' : Expr}
    (hcondition : Twin π condition condition') (hbody : Twin π body body') :
    Follows π Eq (visit c (.whileLoop l condition body))
      (visit (c.rename π) (.whileLoop { l with id := π.node l.id } condition' body')) := by
  rw [visit.eq_1 c, visit.eq_1 (c.rename π)]
  exact .polled ((hcondition.visit c).next fun _ => follows_requireBoolean.next fun _ =>
    (hbody.visit c).discard.next fun _ => follows_empty l.id)

theorem follows_repeatUntil {body body' condition condition' : Expr} (hbody : Twin π body body')
    (hcondition : Twin π condition condition') :
    Follows π Eq (visit c (.repeatUntil l body condition))
      (visit (c.rename π) (.repeatUntil { l with id := π.node l.id } body' condition')) := by
  rw [visit.eq_1 c, visit.eq_1 (c.rename π)]
  exact .polled ((hbody.visit c).discard.next fun _ => (hcondition.visit c).next fun _ =>
    follows_requireBoolean.next fun _ => follows_empty l.id)

theorem follows_call {name : String} {args args' : List Expr} (h : List.Forall₂ (Twin π) args args') :
    Follows π Eq (visit c (.call l name args))
      (visit (c.rename π) (.call { l with id := π.node l.id } name args')) := by
  rw [visit.eq_1 c, visit.eq_1 (c.rename π)]
  exact .polled ((follows_visitAll h).next fun _ =>
    follows_callType.next (follows_recorded l.id))

theorem follows_array {elements elements' : List Expr} (h : List.Forall₂ (Twin π) elements elements') :
    Follows π Eq (visit c (.array l elements))
      (visit (c.rename π) (.array { l with id := π.node l.id } elements')) := by
  rw [visit.eq_1 c, visit.eq_1 (c.rename π)]
  exact .polled ((follows_visitElements h).next fun _ => .next (.pure rfl)
    (follows_recorded l.id))

theorem follows_cond {condition condition' branch branch' : Expr} {other other' : Option Expr}
    (hcondition : Twin π condition condition') (hbranch : Twin π branch branch')
    (hother : Option.Rel (Twin π) other other') :
    Follows π Eq (visit c (.cond l condition branch other))
      (visit (c.rename π) (.cond { l with id := π.node l.id } condition' branch' other')) := by
  rw [visit.eq_1 c, visit.eq_1 (c.rename π)]
  refine .polled ((hcondition.visit c).next fun _ => follows_requireBoolean.next fun _ =>
    (hbranch.visit c).next fun type => ?_)
  cases hother with
  | none => exact .next (.pure rfl) (follows_recorded l.id)
  | some hother =>
    refine (hother.visit c).next fun otherType => ?_
    dsimp only
    split
    · exact .next (.pure rfl) (follows_recorded l.id)
    · exact .failing

theorem follows_ret {value value' : Option Expr} (hmain : π.function ScopeTree.main = ScopeTree.main)
    (hvalue : Option.Rel (Twin π) value value') : Follows π Eq (visit c (.ret l value))
      (visit (c.rename π) (.ret { l with id := π.node l.id } value')) := by
  rw [visit.eq_1 c, visit.eq_1 (c.rename π)]
  refine .polled (.guard (fun h => ?_) ?_)
  · exact π.function_injective (h.trans hmain.symm)
  · cases hvalue with
    | none => exact follows_settleReturn.next fun _ => follows_empty l.id
    | some hvalue =>
      exact (hvalue.visit c).next fun _ => follows_settleReturn.next fun _ => follows_empty l.id

theorem follows_element {array array' : Expr} {index index' : Option Expr}
    (harray : Twin π array array') (hindex : Option.Rel (Twin π) index index') :
    Follows π Eq (visit c (.element l array index))
      (visit (c.rename π) (.element { l with id := π.node l.id } array' index')) := by
  rw [visit.eq_1 c, visit.eq_1 (c.rename π)]
  refine .polled ?_
  cases hindex with
  | none => exact .failing
  | some hindex =>
    exact (harray.visit c).next fun _ => follows_indexedElement.next fun _ =>
      (hindex.visit c).next fun _ => .guard (fun h => h) (.guard (fun h => h)
        (.next (.pure rfl) (follows_recorded l.id)))

/-- The functions among the members of a block and the other members may stand in any order to
each other. -/
theorem follows_block {body body' : List Expr}
    (hmembers : ∀ functions : Bool, List.Forall₂ (Twin π)
      (body.filter (·.isFunction = functions)) (body'.filter (·.isFunction = functions)))
    (hlast : body'.getLast?.map Expr.id = body.getLast?.map (π.node ·.id)) :
    Follows π Eq (visit c (.block l body))
      (visit (c.rename π) (.block { l with id := π.node l.id } body')) := by
  have hkind (functions : Bool) (c : Context) : Follows π Eq (visitMembers c functions body)
      (visitMembers (c.rename π) functions body') := by
    rw [visitMembers_filter, visitMembers_filter _ _ body']
    exact follows_visitMembers (hmembers functions)
  rw [visit.eq_1 c, visit.eq_1 (c.rename π)]
  exact .polled (.within rfl fun scope => (hkind true _).next fun _ =>
    (hkind false _).next fun _ => (follows_lastType hlast).next (follows_recorded l.id))

theorem follows_forLoop {init init' condition condition' step step' : Option Expr} {body body' : Expr}
    (hinit : Option.Rel (Twin π) init init') (hcondition : Option.Rel (Twin π) condition condition')
    (hstep : Option.Rel (Twin π) step step') (hbody : Twin π body body') :
    Follows π Eq (visit c (.forLoop l init condition step body))
      (visit (c.rename π) (.forLoop { l with id := π.node l.id } init' condition' step' body')) := by
  rw [visit.eq_1 c, visit.eq_1 (c.rename π)]
  refine .polled (.within rfl fun scope => (follows_visitOption hinit).next fun _ => ?_)
  have hrest := (follows_visitOption (c := { c with scope }) hstep).next fun _ =>
    (hbody.visit { c with scope }).discard.next fun _ => follows_empty l.id
  cases hcondition with
  | none => exact hrest
  | some hcondition =>
    exact (hcondition.visit _).next fun _ => follows_requireBoolean.next fun _ => hrest

/-- The variable of a loop. -/
theorem Twin.loopVariable {e e' : Expr} (h : Twin π e e') (hnames : e.Unhidden) (expected : Ty) :
    Follows π Eq (loopVariable c e expected) (loopVariable (c.rename π) e' expected) := by
  have hshell := h.shell
  cases e with
  | var l name d =>
    cases e' with
    | var l' name' d' =>
      simp only [Expr.shell, Expr.relabel, Expr.var.injEq] at hshell
      obtain ⟨rfl, rfl, -⟩ := hshell
      exact follows_loopVariable (hnames l name' d (Expr.mem_nodes_self _))
    | _ => cases hshell
  | _ => exact .fail

theorem follows_forTo {counter counter' start start' bound bound' body body' : Expr}
    {direction : Direction} (hcounter : Twin π counter counter') (hnames : counter.Unhidden)
    (hstart : Twin π start start') (hbound : Twin π bound bound') (hbody : Twin π body body') :
    Follows π Eq (visit c (.forTo l counter start bound direction body)) (visit (c.rename π)
      (.forTo { l with id := π.node l.id } counter' start' bound' direction body')) := by
  rw [visit.eq_1 c, visit.eq_1 (c.rename π)]
  exact .polled (.within rfl fun scope => (hcounter.loopVariable hnames .double).next
    fun _ => (hstart.visit _).next fun _ => follows_requireNumberBound.next fun _ =>
      (hbound.visit _).next fun _ => follows_requireNumberBound.next fun _ =>
        (hbody.visit _).discard.next fun _ => follows_empty l.id)

theorem follows_forIn {item item' iterable iterable' body body' : Expr} (hitem : Twin π item item')
    (hnames : item.Unhidden) (hiterable : Twin π iterable iterable') (hbody : Twin π body body') :
    Follows π Eq (visit c (.forIn l item iterable body))
      (visit (c.rename π) (.forIn { l with id := π.node l.id } item' iterable' body')) := by
  rw [visit.eq_1 c, visit.eq_1 (c.rename π)]
  exact .polled (.within rfl fun scope => (hiterable.visit _).next fun type =>
    follows_iterableElement.next fun element => (hitem.loopVariable hnames element).next fun _ =>
      .tree fun t t' ht => .orFail (ht.loopSlotsOf? l.id) fun slots _ =>
        (follows_setVariableType slots.array type).next fun _ =>
          (hbody.visit _).discard.next fun _ => follows_empty l.id)

theorem follows_function {name : String} {params params' : List Expr} {body body' : Expr}
    (hparams : List.Forall₂ (Twin π) params params') (hbody : Twin π body body') :
    Follows π Eq (visit c (.function l name params body))
      (visit (c.rename π) (.function { l with id := π.node l.id } name params' body')) := by
  rw [visit.eq_1 c, visit.eq_1 (c.rename π)]
  refine .polled (.tree fun t t' ht => .orFail (ht.functionOf? l.id) fun id _ =>
    .within rfl fun scope => ?_)
  refine (follows_visitAll (c := { c with scope, function := id }) hparams).next fun types =>
    .tree fun t t' ht => ?_
  have hcall := ht.resolveCall? name types c.scope
  cases ho : t.resolveCall? c.scope name types with
  | none => exact .failing
  | some o =>
    rw [ho] at hcall
    obtain ⟨⟨_, _, callee'⟩, ho', hcallee⟩ := Option.map_eq_some_iff.mp hcall
    obtain ⟨_, _, callee⟩ := o
    dsimp only at hcallee
    subst hcallee
    simp only [Context.rename, ho']
    cases callee with
    | native => exact .failing
    | script found =>
      refine .guard (fun hne heq => hne (congrArg π.function heq)) ?_
      exact (hbody.visit { c with scope, function := id }).next fun _ =>
        follows_settleReturn.next fun _ => follows_empty l.id

end Nodes

section Trees

variable {π : Renaming}

theorem forall₂_append_inj {α β : Type} {R : α → β → Prop} {xs xs' : List α} {ys ys' : List β}
    (hlength : xs.length = ys.length) (h : List.Forall₂ R (xs ++ xs') (ys ++ ys')) :
    List.Forall₂ R xs ys ∧ List.Forall₂ R xs' ys' := by
  induction xs generalizing ys with
  | nil =>
    cases ys with
    | nil => exact ⟨.nil, h⟩
    | cons => cases hlength
  | cons x xs ih =>
    cases ys with
    | nil => cases hlength
    | cons y ys =>
      obtain ⟨hxy, h⟩ := List.forall₂_cons.mp h
      obtain ⟨hxs, hrest⟩ := ih (Nat.succ.inj hlength) h
      exact ⟨.cons hxy hxs, hrest⟩

theorem forall₂_toList_append {α β : Type} {R : α → β → Prop} {o : Option α} {o' : Option β}
    {xs : List α} {ys : List β} (hsome : o.isSome = o'.isSome)
    (h : List.Forall₂ R (o.toList ++ xs) (o'.toList ++ ys)) :
    Option.Rel R o o' ∧ List.Forall₂ R xs ys := by
  cases o <;> cases o'
  · exact ⟨.none, h⟩
  · cases hsome
  · cases hsome
  · obtain ⟨hxy, h⟩ := List.forall₂_cons.mp h
    exact ⟨.some hxy, h⟩

theorem rel_of_toList {α β : Type} {R : α → β → Prop} {o : Option α} {o' : Option β}
    (h : List.Forall₂ R o.toList o'.toList) : Option.Rel R o o' := by
  cases o <;> cases o'
  · exact .none
  · cases h
  · cases h
  · exact .some (List.forall₂_cons.mp h).1

theorem isSome_of_relabel {o o' : Option Expr} {b : Expr}
    (h : o'.map (fun _ => b) = (Expr.relabelOption π.node o).map fun _ => b) :
    o.isSome = o'.isSome := by
  rw [isSome_eq_of_map h, Expr.relabelOption_eq, Option.isSome_map]

theorem map_id_of_twins {es es' : List Expr} (h : List.Forall₂ (Twin π) es es') :
    es'.map Expr.id = es.map (π.node ·.id) := by
  induction h with
  | nil => rfl
  | cons he _ ih => rw [List.map_cons, List.map_cons, ih, Expr.id, he.label_eq]; rfl

theorem filter_of_twins {es es' : List Expr} (h : List.Forall₂ (Twin π) es es') (functions : Bool) :
    List.Forall₂ (Twin π) (es.filter (·.isFunction = functions))
      (es'.filter (·.isFunction = functions)) := by
  refine List.rel_filter (fun e e' he => ?_) h
  change decide (e.isFunction = functions) = true ↔ decide (e'.isFunction = functions) = true
  rw [he.isFunction_eq]

/-- A node and another one with the same below it, but for the numbers. -/
theorem twin_node {e e' : Expr} (hmain : π.function ScopeTree.main = ScopeTree.main) (hnames : e.Unhidden)
    (hshell : e'.shell = (e.relabel π.node).shell)
    (hchildren : List.Forall₂ (Twin π) e.children e'.children) : Twin π e e' := by
  refine ⟨hshell, fun c => ?_⟩
  cases e <;> cases e' <;>
    simp only [Expr.shell, Expr.relabel, reduceCtorEq, Expr.constant.injEq, Expr.binary.injEq,
      Expr.var.injEq, Expr.function.injEq, Expr.block.injEq, Expr.cond.injEq, Expr.forLoop.injEq,
      Expr.forTo.injEq, Expr.forIn.injEq, Expr.whileLoop.injEq, Expr.repeatUntil.injEq,
      Expr.call.injEq, Expr.ret.injEq, Expr.paren.injEq, Expr.element.injEq,
      Expr.array.injEq] at hshell
  case constant =>
    obtain ⟨rfl, rfl⟩ := hshell
    exact follows_constant
  case binary =>
    obtain ⟨rfl, rfl, -⟩ := hshell
    obtain ⟨hleft, hchildren⟩ := List.forall₂_cons.mp hchildren
    obtain ⟨hright, -⟩ := List.forall₂_cons.mp hchildren
    exact follows_binary hleft hright
  case var =>
    obtain ⟨rfl, rfl, -⟩ := hshell
    exact follows_var (hnames _ _ _ (Expr.mem_nodes_self _))
  case function =>
    obtain ⟨rfl, rfl, hparams, -⟩ := hshell
    have hlength := congrArg List.length hparams
    obtain ⟨hparams, hchildren⟩ := forall₂_append_inj (by simpa using hlength.symm) hchildren
    obtain ⟨hbody, -⟩ := List.forall₂_cons.mp hchildren
    exact follows_function hparams hbody
  case block =>
    obtain ⟨rfl, -⟩ := hshell
    refine follows_block (filter_of_twins hchildren) ?_
    rw [← List.getLast?_map, ← List.getLast?_map]
    exact congrArg List.getLast? (map_id_of_twins hchildren)
  case cond =>
    obtain ⟨rfl, -⟩ := hshell
    obtain ⟨hcondition, hchildren⟩ := List.forall₂_cons.mp hchildren
    obtain ⟨hbranch, hchildren⟩ := List.forall₂_cons.mp hchildren
    exact follows_cond hcondition hbranch (rel_of_toList hchildren)
  case forLoop =>
    obtain ⟨rfl, hinit, hcondition, hstep, -⟩ := hshell
    simp only [Expr.children, List.append_assoc] at hchildren
    obtain ⟨hinit, hchildren⟩ := forall₂_toList_append (isSome_of_relabel hinit) hchildren
    obtain ⟨hcondition, hchildren⟩ := forall₂_toList_append (isSome_of_relabel hcondition) hchildren
    obtain ⟨hstep, hchildren⟩ := forall₂_toList_append (isSome_of_relabel hstep) hchildren
    obtain ⟨hbody, -⟩ := List.forall₂_cons.mp hchildren
    exact follows_forLoop hinit hcondition hstep hbody
  case forTo =>
    obtain ⟨rfl, -, -, -, rfl, -⟩ := hshell
    obtain ⟨hcounter, hchildren⟩ := List.forall₂_cons.mp hchildren
    obtain ⟨hstart, hchildren⟩ := List.forall₂_cons.mp hchildren
    obtain ⟨hbound, hchildren⟩ := List.forall₂_cons.mp hchildren
    obtain ⟨hbody, -⟩ := List.forall₂_cons.mp hchildren
    exact follows_forTo hcounter (hnames.child List.mem_cons_self) hstart hbound hbody
  case forIn =>
    obtain ⟨rfl, -⟩ := hshell
    obtain ⟨hitem, hchildren⟩ := List.forall₂_cons.mp hchildren
    obtain ⟨hiterable, hchildren⟩ := List.forall₂_cons.mp hchildren
    obtain ⟨hbody, -⟩ := List.forall₂_cons.mp hchildren
    exact follows_forIn hitem (hnames.child List.mem_cons_self) hiterable hbody
  case whileLoop =>
    obtain ⟨rfl, -⟩ := hshell
    obtain ⟨hcondition, hchildren⟩ := List.forall₂_cons.mp hchildren
    obtain ⟨hbody, -⟩ := List.forall₂_cons.mp hchildren
    exact follows_whileLoop hcondition hbody
  case repeatUntil =>
    obtain ⟨rfl, -⟩ := hshell
    obtain ⟨hbody, hchildren⟩ := List.forall₂_cons.mp hchildren
    obtain ⟨hcondition, -⟩ := List.forall₂_cons.mp hchildren
    exact follows_repeatUntil hbody hcondition
  case call =>
    obtain ⟨rfl, rfl, -⟩ := hshell
    exact follows_call hchildren
  case ret =>
    obtain ⟨rfl, -⟩ := hshell
    exact follows_ret hmain (rel_of_toList hchildren)
  case paren =>
    obtain ⟨rfl, -⟩ := hshell
    obtain ⟨hinner, -⟩ := List.forall₂_cons.mp hchildren
    exact follows_paren hinner
  case element =>
    obtain ⟨rfl, -⟩ := hshell
    obtain ⟨harray, hchildren⟩ := List.forall₂_cons.mp hchildren
    exact follows_element harray (rel_of_toList hchildren)
  case array =>
    obtain ⟨rfl, -⟩ := hshell
    exact follows_array hchildren

theorem twin_relabel (e : Expr) (hmain : π.function ScopeTree.main = ScopeTree.main) (hnames : e.Unhidden) :
    Twin π e (e.relabel π.node) := by
  induction e using Expr.children_induction with
  | step e ih =>
    refine twin_node hmain hnames rfl ?_
    rw [Expr.children_relabel, List.forall₂_map_right_iff, List.forall₂_same]
    exact fun x hx => ih x hx (hnames.child hx)

/-- Nodes that keep their numbers. -/
theorem twins_same {es : List Expr} (hmain : π.function ScopeTree.main = ScopeTree.main)
    (hnames : ∀ e ∈ es, e.Unhidden) (h : ∀ e ∈ es, e.relabel π.node = e) :
    List.Forall₂ (Twin π) es es := by
  rw [List.forall₂_same]
  intro e he
  have htwin := twin_relabel e hmain (hnames e he)
  rwa [h e he] at htwin

/-- Two members of different kinds that change places. -/
theorem filter_exchanged {x x' y y' : Expr} {rest : List Expr} (hx : Twin π x x') (hy : Twin π y y')
    (hrest : List.Forall₂ (Twin π) rest rest) (hkinds : x.isFunction ≠ y.isFunction)
    (functions : Bool) : List.Forall₂ (Twin π)
      ((x :: y :: rest).filter (·.isFunction = functions))
      ((y' :: x' :: rest).filter (·.isFunction = functions)) := by
  have hrest := filter_of_twins hrest functions
  by_cases hfun : x.isFunction = functions
  · have hother : ¬ y.isFunction = functions := fun h => hkinds (hfun.trans h.symm)
    simp only [List.filter_cons, hx.isFunction_eq, hy.isFunction_eq, hfun, hother, decide_true,
      decide_false, if_true]
    exact .cons hx hrest
  · have hother : y.isFunction = functions := by
      rw [Bool.eq_not_of_ne hkinds.symm, Bool.eq_not_of_ne hfun, Bool.not_not]
    simp only [List.filter_cons, hx.isFunction_eq, hy.isFunction_eq, hfun, hother, decide_true,
      decide_false, if_true]
    exact .cons hy hrest

/-- Exchanging a function with another member of a block. -/
theorem twin_exchanges {x y e e' : Expr} (h : Expr.Exchanges π.node x y e e')
    (hmain : π.function ScopeTree.main = ScopeTree.main) (hnames : e.Unhidden)
    (hkinds : x.isFunction ≠ y.isFunction) :
    Twin π e e' := by
  induction h with
  | @members l pre rest hid hpre hpost hlast =>
    have hmembers : ∀ d ∈ pre ++ x :: y :: rest, d.Unhidden := fun d hd => hnames.child hd
    rw [List.forall_mem_append, List.forall_mem_cons, List.forall_mem_cons] at hmembers
    obtain ⟨hpreNames, hx, hy, hrestNames⟩ := hmembers
    have hbefore := twins_same hmain hpreNames hpre
    have hafter := twins_same hmain hrestNames hpost
    have hshell := (Expr.Exchanges.members (x := x) (y := y) hid hpre hpost hlast).shell_eq
    refine ⟨?_, fun c => ?_⟩
    · rw [Expr.shell_relabel_of_id hid, hshell]
    · have hlabel : { l with id := π.node l.id } = l := by rw [hid]
      rw [← hlabel, show Expr.block _ (pre ++ x :: y :: rest) = .block l (pre ++ x :: y :: rest) by
        rw [hlabel]]
      refine follows_block (fun functions => ?_) ?_
      · rw [List.filter_append, List.filter_append]
        exact List.rel_append (filter_of_twins hbefore functions) (filter_exchanged
          (twin_relabel x hmain hx) (twin_relabel y hmain hy) hafter hkinds functions)
      · have hsplit (x y : Expr) : (pre ++ x :: y :: rest).getLast? = rest.getLast? := by
          rw [show pre ++ x :: y :: rest = pre ++ [x, y] ++ rest by simp,
            List.getLast?_append_of_ne_nil _ hlast]
        rw [hsplit, hsplit, ← List.getLast?_map, ← List.getLast?_map]
        exact congrArg List.getLast? (map_id_of_twins hafter)
  | @inside e e' c c' pre post hid hshell hchildren hchildren' hpre hpost _ ih =>
    have hmembers : ∀ d ∈ pre ++ c :: post, d.Unhidden := by
      rw [← hchildren]
      exact fun d hd => hnames.child hd
    rw [List.forall_mem_append, List.forall_mem_cons] at hmembers
    refine twin_node hmain hnames ?_ ?_
    · rw [Expr.shell_relabel_of_id hid, hshell]
    · rw [hchildren, hchildren']
      exact List.rel_append (twins_same hmain hmembers.1 hpre)
        (.cons (ih hmembers.2.1) (twins_same hmain hmembers.2.2 hpost))

end Trees

end Resolve

open Resolve in
/-- If the scopes of two programs that differ in the order of a function and another member of a
block have been built, the types of the second can be resolved where those of the first can. -/
theorem ScopeTree.resolve_reordered {π : Renaming} {x y : Expr} {p q : Program} {t t' : ScopeTree}
    {host : Host} {cancelled : Cancellation} {r : Resolution} {t₁ : ScopeTree}
    (h : Expr.Exchanges π.node x y p.body q.body) (hmain : π.function main = main)
    (hprogram : t'.program = π.scope t.program) (hnames : p.body.Unhidden)
    (hkinds : x.isFunction ≠ y.isFunction) (ht : Alike π t t')
    (hresolve : t.resolve p host cancelled = (.ok r, t₁)) :
    ∃ r' t₁', t'.resolve q host cancelled = (.ok r', t₁') ∧
      r'.types = r.types.map fun entry => (π.node entry.1, entry.2) := by
  have hcontext : Context.rename π { host, cancelled, scope := t.program, function := main } =
      { host, cancelled, scope := t'.program, function := main } := by
    rw [Context.rename, hmain, ← hprogram]
  have hstart : Mirrors π { tree := t } { tree := t' } := ⟨ht, rfl, rfl⟩
  obtain ⟨visits, hvisit⟩ := visit_of_resolve hresolve
  obtain ⟨type, s', hvisit', -, hs'⟩ :=
    (twin_exchanges h hmain hnames hkinds).visit _ hstart hvisit
  rw [hcontext] at hvisit'
  exact ⟨⟨type, s'.types⟩, s'.tree, by rw [resolve, hvisit'], hs'.types⟩

end TurtleScript
