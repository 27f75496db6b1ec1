import TurtleScript.Proofs.Typing.Judgement

/-!
# Where the nodes of a program stand

The parts of a typed node are typed in the scope that the node opens, if it opens one, and in
the body of the same function. So every function of a typed program has a body that is typed
in the scope of its parameters.
-/
namespace TurtleScript

open Semantics (Position)

/-- The nodes whose code is in the code of a node. The target of an assignment and the variable
of a loop are not evaluated, only what is below them. -/
def Expr.parts : Expr → List Expr
  | .var .. | .function .. => []
  | .binary _ .assign (.element _ base index) right => base :: index.toList ++ [right]
  | .binary _ .assign _ right => [right]
  | .forTo _ _ start bound _ body => [start, bound, body]
  | .forIn _ _ iterable body => [iterable, body]
  | e => e.children

theorem Expr.parts_operator {l : Label} {op : BinaryOp} {left right : Expr} (hop : op ≠ .assign) :
    (Expr.binary l op left right).parts = [left, right] := by
  cases op with
  | assign => exact absurd rfl hop
  | _ => rfl

namespace ScopeTree

/-- Where the parts of a node stand that is no function. -/
def inside (t : ScopeTree) (here : Position) (e : Expr) : Position :=
  if e.opensScope then ⟨(t.scopeOf? e.id).getD here.scope, here.function⟩ else here

section Inside

variable {t : ScopeTree} {here : Position} {e x : Expr} {scope : Nat}

theorem inside_opening (he : e.opensScope = true) (hscope : t.scopeOf? e.id = some scope) :
    t.inside here e = ⟨scope, here.function⟩ := by
  rw [inside, if_pos he, hscope]
  rfl

theorem inside_plain (he : e.opensScope = false) : t.inside here e = here := by
  rw [inside, if_neg (by simp [he])]

theorem inside_function : (t.inside here e).function = here.function := by
  cases he : e.opensScope with
  | true => rw [inside, if_pos he]
  | false => rw [inside_plain he]

theorem Placed.inside (hkeys : (t.nodeScopes.map Prod.fst).Nodup)
    (h : t.Placed here.scope here.function e) (hfun : e.isFunction = false)
    (hvar : e.isVariable = false) (hx : x ∈ e.children) :
    t.Placed (t.inside here e).scope (t.inside here e).function x := by
  cases h with
  | declared h =>
    obtain ⟨l, name, d, rfl, -⟩ := h
    cases hvar
  | function => cases hfun
  | opening hopens hscope _ hparts =>
    rw [inside_opening hopens (lookup_of_mem hkeys hscope)]
    exact hparts x hx
  | plain hopens _ _ hparts =>
    rw [inside_plain hopens]
    exact hparts x hx

end Inside

end ScopeTree

open ScopeTree

variable {host : Host} {t : ScopeTree} {r : Resolution} {here : Position} {e x : Expr} {type : Ty}

theorem Typed.part (h : Typed host t r here e type) (hx : x ∈ e.parts) :
    ∃ type, Typed host t r (t.inside here e) x type := by
  cases h with
  | constant | var | function => cases hx
  | assign _ htarget hleft hright =>
    cases hleft with
    | var =>
      obtain rfl : x = _ := List.mem_singleton.mp hx
      exact ⟨_, hright⟩
    | element _ _ harray hindex =>
      obtain rfl | rfl | rfl : x = _ ∨ x = _ ∨ x = _ := by simpa [Expr.parts] using hx
      · exact ⟨_, harray⟩
      · exact ⟨_, hindex⟩
      · exact ⟨_, hright⟩
    | _ => cases htarget
  | operator _ hleft hright hop =>
    rw [Expr.parts_operator hop.ne_assign] at hx
    obtain rfl | rfl : x = _ ∨ x = _ := by simpa using hx
    · exact ⟨_, hleft⟩
    · exact ⟨_, hright⟩
  | block _ hscope hbody =>
    rw [inside_opening rfl hscope]
    exact ⟨_, hbody x hx⟩
  | ifThen _ hc hb =>
    obtain rfl | rfl : x = _ ∨ x = _ := by simpa [Expr.parts] using hx
    · exact ⟨_, hc⟩
    · exact ⟨_, hb⟩
  | ifElse _ hc hb ho =>
    obtain rfl | rfl | rfl : x = _ ∨ x = _ ∨ x = _ := by
      simpa [Expr.parts] using hx
    · exact ⟨_, hc⟩
    · exact ⟨_, hb⟩
    · exact ⟨_, ho⟩
  | forLoop _ hscope hi hc hs hb =>
    rw [inside_opening rfl hscope]
    simp only [Expr.parts, Expr.children, List.mem_append, Option.mem_toList, List.mem_singleton,
      or_assoc] at hx
    rcases hx with hx | hx | hx | rfl
    · exact ⟨_, hi x hx⟩
    · exact ⟨_, hc x hx⟩
    · exact ⟨_, hs x hx⟩
    · exact ⟨_, hb⟩
  | forTo _ hscope _ hs ht hb =>
    rw [inside_opening rfl hscope]
    obtain rfl | rfl | rfl : x = _ ∨ x = _ ∨ x = _ := by simpa [Expr.parts] using hx
    · exact ⟨_, hs⟩
    · exact ⟨_, ht⟩
    · exact ⟨_, hb⟩
  | forIn _ hscope _ _ _ hi hb =>
    rw [inside_opening rfl hscope]
    obtain rfl | rfl : x = _ ∨ x = _ := by simpa [Expr.parts] using hx
    · exact ⟨_, hi⟩
    · exact ⟨_, hb⟩
  | whileLoop _ hc hb =>
    obtain rfl | rfl : x = _ ∨ x = _ := by simpa [Expr.parts] using hx
    · exact ⟨_, hc⟩
    · exact ⟨_, hb⟩
  | repeatUntil _ hb hc =>
    obtain rfl | rfl : x = _ ∨ x = _ := by simpa [Expr.parts] using hx
    · exact ⟨_, hb⟩
    · exact ⟨_, hc⟩
  | call _ ha => exact ⟨_, ha x hx⟩
  | ret _ _ hv => exact ⟨_, hv x (by simpa [Expr.parts] using hx)⟩
  | paren _ hinner =>
    obtain rfl : x = _ := List.mem_singleton.mp hx
    exact ⟨_, hinner⟩
  | element _ _ harray hindex =>
    obtain rfl | rfl : x = _ ∨ x = _ := by simpa [Expr.parts] using hx
    · exact ⟨_, harray⟩
    · exact ⟨_, hindex⟩
  | array _ _ he => exact ⟨_, he x hx⟩

/-- The children of a typed node are typed, but for the variable of a loop. -/
theorem Typed.child (h : Typed host t r here e type) (hfun : e.isFunction = false)
    (hvar : e.isVariable = false) (hx : x ∈ e.children) :
    x.isVariable = true ∨ ∃ type, Typed host t r (t.inside here e) x type := by
  by_cases hpart : x ∈ e.parts
  · exact .inr (h.part hpart)
  cases h with
  | var => cases hvar
  | function => cases hfun
  | @assign _ l left right _ _ _ _ hleft _ =>
    have hright : right ∈ (Expr.binary l .assign left right).parts := by
      cases left <;> simp [Expr.parts]
    obtain rfl | rfl : x = left ∨ x = right := by simpa using hx
    · exact .inr ⟨_, hleft⟩
    · exact absurd hright hpart
  | operator _ _ _ hop =>
    rw [Expr.parts_operator hop.ne_assign] at hpart
    exact absurd hx hpart
  | forTo | forIn =>
    rcases List.mem_cons.mp hx with rfl | hx
    · exact .inl rfl
    · exact absurd hx hpart
  | _ => exact absurd hx hpart

/-- The body of a function of the program, typed in the scope of its parameters. -/
structure IsBody (host : Host) (t : ScopeTree) (r : Resolution) (id scope : Nat) (result type : Ty)
    (body : Expr) : Prop where
  typed : Typed host t r ⟨scope, id⟩ body type
  placed : t.Placed scope id body
  returns : t.Returns id result
  fits : result = type ∨ result = .empty ∨ type = .empty

/-- Every function below a typed node has its body. -/
theorem Typed.bodies (hscopes : (t.nodeScopes.map Prod.fst).Nodup)
    (hfunctions : (t.nodeFunctions.map Prod.fst).Nodup) (h : Typed host t r here e type)
    (hplaced : t.Placed here.scope here.function e) {l : Label} {name : String}
    {params : List Expr} {body : Expr} (hmem : .function l name params body ∈ e.nodes) :
    ∃ id scope result type, t.functionOf? l.id = some id ∧ t.scopeOf? l.id = some scope ∧
      IsBody host t r id scope result type body := by
  induction e using Expr.children_induction generalizing here type with
  | step e ih =>
  cases hfun : e.isFunction with
  | true =>
    cases h with
    | @function _ l' _ params' body' scope id result bodyType _ hid hscope hbody hreturns hfits =>
      cases hplaced with
      | declared h => obtain ⟨_, _, _, ⟨⟩, _⟩ := h
      | opening hopens => cases hopens
      | plain _ hfun => cases hfun
      | function hinner hnode hparams hplaced =>
        cases hid.symm.trans (lookup_of_mem hfunctions hnode)
        cases hscope.symm.trans (lookup_of_mem hscopes hinner)
        rcases Expr.mem_nodes.mp hmem with heq | ⟨x, hx, hmem⟩
        · cases heq
          exact ⟨id, scope, result, bodyType, hid, hscope, hbody, hplaced, hreturns, hfits⟩
        rcases List.mem_append.mp hx with hx | hx
        · cases (hparams x hx).isFunction hmem
        · cases List.mem_singleton.mp hx
          exact ih _ (by simp) hbody hplaced hmem
    | _ => cases hfun
  | false =>
    cases hvar : e.isVariable with
    | true =>
      cases e with
      | var => cases hplaced.declared_var.isFunction hmem
      | _ => cases hvar
    | false =>
      rcases Expr.mem_nodes.mp hmem with rfl | ⟨x, hx, hmem⟩
      · cases hfun
      have hplaced := hplaced.inside hscopes hfun hvar hx
      rcases h.child hfun hvar hx with hname | ⟨type, htyped⟩
      · cases x with
        | var => cases hplaced.declared_var.isFunction hmem
        | _ => cases hname
      · exact ih x hx htyped hplaced hmem

end TurtleScript
