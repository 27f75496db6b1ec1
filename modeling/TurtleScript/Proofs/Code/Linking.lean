import TurtleScript.Compile
import TurtleScript.Proofs.Code.Walk
import TurtleScript.Proofs.Typing.Bodies
import TurtleScript.Proofs.Typing.Walk

/-!
# What a compiled module is made of

A program that was accepted has a tree without problems, types by the rules, and code; the
module has one function for each record of the tree, whose code is that of a typed body.
-/
namespace TurtleScript.Code

open ScopeTree Semantics

/-- What the passes leave of a program that was accepted. -/
structure Compiles (host : Host) (p : Program) (t : ScopeTree) (r : Resolution) (g : Generated) :
    Prop where
  built : Built host p t
  numbered : Expr.Numbered 0 p.body p.nodeCount
  typed : Typed host t r ⟨t.program, ScopeTree.main⟩ p.body r.programType
  code : t.generate p r = .ok g

theorem scopes_eq_ok {p : Program} {host : Host} {t : ScopeTree} :
    p.scopes host = .ok t ↔ (build p host).problems = [] ∧ (build p host).tree = t := by
  rw [Program.scopes]
  cases hproblems : (build p host).problems with
  | nil => simp
  | cons d ds => simp

theorem compile_eq_ok {body : Expr} {host : Host} {o : Options} {cancelled : Cancellation} {c : Compiled}
    (h : (Program.ofExpr body).compile host o cancelled = .ok c) :
    ∃ t r g, (build (.ofExpr body) host).tree.resolve (.ofExpr body) host cancelled = (.ok r, t) ∧
      Compiles host (.ofExpr body) t r g ∧ c = ⟨t.link g o, r.programType⟩ := by
  obtain ⟨t₀, hscopes, h⟩ := Except.bind_eq_ok h
  obtain ⟨hclean, rfl⟩ := scopes_eq_ok.mp hscopes
  generalize hresolve : ScopeTree.resolve _ _ _ _ = resolved at h
  obtain ⟨resolution, t⟩ := resolved
  obtain ⟨r, hr, hrest⟩ := Except.bind_eq_ok h
  obtain ⟨g, hg, hlink⟩ := Except.bind_eq_ok hrest
  cases hr
  cases hlink
  have hn := Expr.renumber_numbered body 0
  obtain ⟨-, hbuilt, htyped⟩ := resolve_eq_ok (build_clean hn hclean) hn hresolve
  exact ⟨t, r, g, rfl, ⟨hbuilt, hn, htyped, hg⟩, rfl⟩

/-- The body of a function: all of the program, or that of the node that declares it. -/
inductive HasBody (t : ScopeTree) (p : Program) : Nat → Expr → Prop where
  | program : HasBody t p ScopeTree.main p.body
  | node {l : Label} {name : String} {params : List Expr} {body : Expr} {id : Nat} :
      .function l name params body ∈ p.body.nodes → t.functionOf? l.id = some id →
      HasBody t p id body

namespace Compiles

variable {host : Host} {p : Program} {t : ScopeTree} {r : Resolution} {g : Generated} {o : Options}
  {id : Nat}

/-- The code of every function is that of a typed body. -/
theorem body {code : Array Instr} (h : Compiles host p t r g)
    (hcode : g.functions[id]? = some code) :
    ∃ scope result type body, HasBody t p id body ∧ IsBody host t r id scope result type body ∧
      lowerBody g.pool ⟨t, r, scope⟩ result body = some code.toList := by
  obtain ⟨-, hcodes⟩ := generate_eq_ok h.code
  obtain ⟨hmain, hother⟩ := hcodes id code hcode
  by_cases hid : id = ScopeTree.main
  · subst hid
    obtain ⟨f, hf, -, hresult⟩ := h.built.mainFunction
    exact ⟨t.program, .empty, r.programType, p.body, .program,
      ⟨h.typed, h.built.placed, ⟨f, hf, hresult⟩, .inr (.inl rfl)⟩, hmain rfl⟩
  · obtain ⟨l, name, params, e, scope, f, result, hmem, hfunction, hscope, hf, hresult, hlower⟩ :=
      hother hid
    obtain ⟨id', scope', result', type, hfunction', hscope', hbody⟩ :=
      h.typed.bodies h.built.scopeKeys h.built.functionKeys h.built.placed hmem
    cases hfunction.symm.trans hfunction'
    cases hscope.symm.trans hscope'
    cases hbody.returns.unique ⟨f, hf, hresult⟩
    exact ⟨scope, result, type, e, .node hmem hfunction, hbody, hlower⟩

/-- The functions of the module and the records of the tree. -/
theorem function_iff {d : FunctionDef} :
    (t.link g o).functions[id]? = some d ↔ ∃ f code, t.functions[id]? = some f ∧
      g.functions[id]? = some code ∧ d = t.functionDef f code := by
  rw [link, Array.getElem?_zipWith]
  cases t.functions[id]? <;> cases g.functions[id]? <;> simp [eq_comm]

/-- Every record has its function. -/
theorem function {f : FunctionRecord} (h : Compiles host p t r g)
    (hf : t.functions[id]? = some f) :
    ∃ code, g.functions[id]? = some code ∧
      (t.link g o).functions[id]? = some (t.functionDef f code) := by
  obtain ⟨hsize, -⟩ := generate_eq_ok h.code
  have hlt : id < g.functions.size := hsize ▸ (Array.getElem?_eq_some_iff.mp hf).1
  have hcode := Array.getElem?_eq_getElem hlt
  exact ⟨_, hcode, function_iff.mpr ⟨f, _, hf, hcode, rfl⟩⟩

end Compiles

end TurtleScript.Code
