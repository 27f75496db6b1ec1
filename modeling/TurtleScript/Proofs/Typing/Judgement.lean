import TurtleScript.Proofs.Scope.Built
import TurtleScript.Proofs.Semantics.Evaluation

/-!
# The typing rules

The rules by which a tree is well typed, once all types are fixed: against a host, the scope
tree that the resolver left, and the table of the types that it gave to the nodes. A rule
reads the types of names and functions in the final tree, where the resolver, which fixes
them on its way, could not.
-/
namespace TurtleScript

open Semantics (Position)

def Literal.type : Literal → Ty
  | .boolean _ => .boolean
  | .number _ => .double
  | .string _ => .string

/-- The type in the table; a node that is not there has none. -/
def Resolution.type (r : Resolution) (e : Expr) : Ty := (r.typeOf? e.id).getD .empty

namespace ScopeTree

/-- A name stands for a variable, a global or a local of the function at hand. It has the type,
unless the name is one that no program can declare: the array of a loop may change its type, but
not to or from the type without values. -/
def HasVar (t : ScopeTree) (here : Position) (name : String) (type : Ty) : Prop :=
  ∃ id v, t.lookupVariable? here.scope name = some id ∧ t.vars[id]? = some v ∧
    (Text.isIdentifier name = true → v.type = some type) ∧
    (∀ function n, v.storage = .slot function n → function = here.function) ∧
    (type = .empty → v.type = some .empty)

def Returns (t : ScopeTree) (id : Nat) (type : Ty) : Prop :=
  ∃ f, t.functions[id]? = some f ∧ f.returnType = some type

theorem Returns.unique {t : ScopeTree} {id : Nat} {type type' : Ty} (h : t.Returns id type)
    (h' : t.Returns id type') : type = type' := by
  obtain ⟨f, hf, htype⟩ := h
  obtain ⟨f', hf', htype'⟩ := h'
  cases hf.symm.trans hf'
  exact Option.some.inj (htype.symm.trans htype')

/-- The type of what a callee returns. -/
def Yields (host : Host) (t : ScopeTree) (callee : Callee) (type : Ty) : Prop :=
  match callee with
  | .native index => ∃ n, host.natives[index]? = some n ∧ n.returnType = type
  | .script id => t.Returns id type

/-- An operator other than assignment, with the types of its operands and its own. -/
inductive Operates (t : ScopeTree) (scope : Nat) : BinaryOp → Ty → Ty → Ty → Prop where
  | arithmetic {op : BinaryOp} : op ∈ [.add, .sub, .mul, .div, .mod] →
      Operates t scope op .double .double .double
  | comparison {op : BinaryOp} : op ∈ [.less, .greater, .lessEqual, .greaterEqual] →
      Operates t scope op .double .double .boolean
  | logic {op : BinaryOp} : op ∈ [.and, .or] → Operates t scope op .boolean .boolean .boolean
  | equal {left right : Ty} : Operates t scope .equal left right .boolean
  | concat {left right : Ty} {o : Overload} : left = .string ∨ right = .string →
      left = .string ∨ left = .double → right = .string ∨ right = .double →
      t.resolveCall? scope Host.concatName [left, right] = some o →
      Operates t scope .add left right .string

theorem Operates.ne_assign {t : ScopeTree} {scope : Nat} {op : BinaryOp} {a b type : Ty}
    (h : t.Operates scope op a b type) : op ≠ .assign := by
  rintro rfl
  cases h with
  | arithmetic hmem => simp at hmem
  | comparison hmem => simp at hmem
  | logic hmem => simp at hmem

end ScopeTree

/-- What may be assigned to. -/
def Expr.isTarget : Expr → Bool
  | .var .. | .element _ _ (some _) => true
  | _ => false

/-- A node has a type where it stands, and so has all that is evaluated below it. -/
inductive Typed (host : Host) (t : ScopeTree) (r : Resolution) : Position → Expr → Ty → Prop where
  | constant {here : Position} {l : Label} {value : Literal} :
      r.typeOf? l.id = some value.type → Typed host t r here (.constant l value) value.type
  | var {here : Position} {l : Label} {name : String} {d : Option Expr} {type : Ty} :
      r.typeOf? l.id = some type → t.HasVar here name type →
      Typed host t r here (.var l name d) type
  | assign {here : Position} {l : Label} {left right : Expr} {type source : Ty} :
      r.typeOf? l.id = some type → left.isTarget = true → Typed host t r here left type →
      Typed host t r here right source → type.accepts source = true →
      Typed host t r here (.binary l .assign left right) type
  | operator {here : Position} {l : Label} {op : BinaryOp} {left right : Expr} {a b type : Ty} :
      r.typeOf? l.id = some type → Typed host t r here left a → Typed host t r here right b →
      t.Operates here.scope op a b type → Typed host t r here (.binary l op left right) type
  | function {here : Position} {l : Label} {name : String} {params : List Expr} {body : Expr}
      {scope id : Nat} {result type : Ty} :
      r.typeOf? l.id = some .empty → t.functionOf? l.id = some id → t.scopeOf? l.id = some scope →
      Typed host t r ⟨scope, id⟩ body type → t.Returns id result →
      result = type ∨ result = .empty ∨ type = .empty →
      Typed host t r here (.function l name params body) .empty
  | block {here : Position} {l : Label} {body : List Expr} {scope : Nat} :
      r.typeOf? l.id = some ((body.getLast?.map r.type).getD .empty) →
      t.scopeOf? l.id = some scope →
      (∀ x ∈ body, Typed host t r ⟨scope, here.function⟩ x (r.type x)) →
      Typed host t r here (.block l body) ((body.getLast?.map r.type).getD .empty)
  | ifThen {here : Position} {l : Label} {condition branch : Expr} {type : Ty} :
      r.typeOf? l.id = some type → Typed host t r here condition .boolean →
      Typed host t r here branch type → Typed host t r here (.cond l condition branch none) type
  | ifElse {here : Position} {l : Label} {condition branch other : Expr} {type : Ty} :
      r.typeOf? l.id = some type → Typed host t r here condition .boolean →
      Typed host t r here branch type → Typed host t r here other type →
      Typed host t r here (.cond l condition branch (some other)) type
  | forLoop {here : Position} {l : Label} {init condition step : Option Expr} {body : Expr}
      {scope : Nat} {type : Ty} :
      r.typeOf? l.id = some .empty → t.scopeOf? l.id = some scope →
      (∀ x ∈ init, Typed host t r ⟨scope, here.function⟩ x (r.type x)) →
      (∀ x ∈ condition, Typed host t r ⟨scope, here.function⟩ x .boolean) →
      (∀ x ∈ step, Typed host t r ⟨scope, here.function⟩ x (r.type x)) →
      Typed host t r ⟨scope, here.function⟩ body type →
      Typed host t r here (.forLoop l init condition step body) .empty
  | forTo {here : Position} {l lc : Label} {name : String} {d : Option Expr}
      {start bound body : Expr} {direction : Direction} {scope : Nat} {type : Ty} :
      r.typeOf? l.id = some .empty → t.scopeOf? l.id = some scope →
      t.HasVar ⟨scope, here.function⟩ name .double →
      Typed host t r ⟨scope, here.function⟩ start .double →
      Typed host t r ⟨scope, here.function⟩ bound .double →
      Typed host t r ⟨scope, here.function⟩ body type →
      Typed host t r here (.forTo l (.var lc name d) start bound direction body) .empty
  | forIn {here : Position} {l li : Label} {name : String} {d : Option Expr}
      {iterable body : Expr} {scope : Nat} {element type : Ty} :
      r.typeOf? l.id = some .empty → t.scopeOf? l.id = some scope → element ≠ .empty →
      r.typeOf? li.id = some element → t.HasVar ⟨scope, here.function⟩ name element →
      Typed host t r ⟨scope, here.function⟩ iterable (.array element) →
      Typed host t r ⟨scope, here.function⟩ body type →
      Typed host t r here (.forIn l (.var li name d) iterable body) .empty
  | whileLoop {here : Position} {l : Label} {condition body : Expr} {type : Ty} :
      r.typeOf? l.id = some .empty → Typed host t r here condition .boolean →
      Typed host t r here body type → Typed host t r here (.whileLoop l condition body) .empty
  | repeatUntil {here : Position} {l : Label} {body condition : Expr} {type : Ty} :
      r.typeOf? l.id = some .empty → Typed host t r here body type →
      Typed host t r here condition .boolean →
      Typed host t r here (.repeatUntil l body condition) .empty
  | call {here : Position} {l : Label} {name : String} {args : List Expr} {o : Overload}
      {type : Ty} :
      r.typeOf? l.id = some type → (∀ x ∈ args, Typed host t r here x (r.type x)) →
      t.resolveCall? here.scope name (args.map r.type) = some o →
      ScopeTree.Yields host t o.callee type →
      Typed host t r here (.call l name args) type
  | ret {here : Position} {l : Label} {value : Option Expr} :
      r.typeOf? l.id = some .empty → here.function ≠ ScopeTree.main →
      (∀ x ∈ value, Typed host t r here x (r.type x)) →
      t.Returns here.function ((value.map r.type).getD .empty) →
      Typed host t r here (.ret l value) .empty
  | paren {here : Position} {l : Label} {inner : Expr} {type : Ty} :
      r.typeOf? l.id = some type → Typed host t r here inner type →
      Typed host t r here (.paren l inner) type
  | element {here : Position} {l : Label} {array index : Expr} {type : Ty} :
      r.typeOf? l.id = some type → type ≠ .empty → Typed host t r here array (.array type) →
      Typed host t r here index .double → Typed host t r here (.element l array (some index)) type
  | array {here : Position} {l : Label} {elements : List Expr} {type : Ty} :
      r.typeOf? l.id = some (.array type) → (elements = [] ↔ type = .empty) →
      (∀ x ∈ elements, Typed host t r here x type) →
      Typed host t r here (.array l elements) (.array type)

namespace Typed

variable {host : Host} {t : ScopeTree} {r : Resolution} {here : Position} {e : Expr} {type : Ty}

/-- The table has the type of a typed node. -/
theorem typeOf? (h : Typed host t r here e type) : r.typeOf? e.id = some type := by
  cases h <;> assumption

theorem type_eq (h : Typed host t r here e type) : r.type e = type := by
  rw [Resolution.type, h.typeOf?]
  rfl

end Typed

/-- The types of typed nodes, one after the other. -/
theorem Resolution.mapM_typeOf? {r : Resolution} {es : List Expr}
    (h : ∀ x ∈ es, r.typeOf? x.id = some (r.type x)) :
    es.mapM (fun x => r.typeOf? x.id) = some (es.map r.type) := by
  induction es with
  | nil => rfl
  | cons e es ih =>
    obtain ⟨he, hes⟩ := List.forall_mem_cons.mp h
    rw [List.mapM_cons, he, ih hes]
    rfl

end TurtleScript
