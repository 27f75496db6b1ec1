import TurtleScript.Proofs.Code.Parts
import TurtleScript.Proofs.Typing.Completeness

/-!
# Calls and returns agree

The result of a function is fixed by the first `return` that the resolver comes to, or by the
end of the body. In a program that has code, all that depends on it agrees with it: the types of
the calls, the counts of the returns in the code, and the end of the code. The program's own
statements return nothing.
-/
namespace TurtleScript

open ScopeTree Semantics

namespace Code

/-- Every return in a code has a count with this property. -/
def Returning (fine : Int32 → Prop) (code : List Instr) : Prop := ∀ n, .ret n ∈ code → fine n

section Returning

variable {fine : Int32 → Prop} {pool : Pool} {t : ScopeTree} {r : Resolution} {c : Context}
  {here : Position} {e : Expr} {xs ys code : List Instr} {i : Instr} {n : Int32}

@[simp] theorem returning_nil : Returning fine [] := nofun

@[simp] theorem returning_append :
    Returning fine (xs ++ ys) ↔ Returning fine xs ∧ Returning fine ys := by
  simp only [Returning, List.mem_append, or_imp, forall_and]

@[simp] theorem returning_ret : Returning fine (.ret n :: xs) ↔ fine n ∧ Returning fine xs := by
  simp only [Returning, List.mem_cons, or_imp, forall_and, Instr.ret.injEq, forall_eq]

@[simp] theorem returning_cons (h : ∀ n, i ≠ .ret n) :
    Returning fine (i :: xs) ↔ Returning fine xs := by
  have hother (n : Int32) : .ret n ≠ i := (h n).symm
  simp only [Returning, List.mem_cons, hother, false_or]

/-- Only a `return` brings a return into the code. -/
theorem Brings.ne_ret (h : Brings pool c e i) (hret : ∀ l value, e ≠ .ret l value) :
    i ≠ .ret n := by
  cases h with
  | plain h =>
    rintro rfl
    cases h
  | @load place _ | @store place _ => cases place <;> exact nofun
  | @call _ _ o _ => cases o.callee <;> exact nofun
  | ret _ he => exact absurd he (hret _ _)
  | _ => exact nofun

theorem Assembled.returning {own : Instr → Prop} {parts : List Expr}
    (hown : ∀ i, own i → ∀ n, i ≠ .ret n)
    (hparts : ∀ x ∈ parts, ∀ code, lower pool c x = some code → Returning fine code)
    (h : Assembled own (lower pool c) parts code) : Returning fine code := by
  induction h with
  | nil => exact returning_nil
  | own h => simp [hown _ h]
  | part h => exact hparts _ List.mem_cons_self _ h
  | append _ _ ih ih' =>
    obtain ⟨hx, hy⟩ := List.forall_mem_append.mp hparts
    simp [ih hx, ih' hy]
  | skip _ _ ih ih' =>
    obtain ⟨hx, hy⟩ := List.forall_mem_append.mp hparts
    simp [Code.skip, ih hx, ih' hy]
  | branch _ _ _ ih ih' ih'' =>
    obtain ⟨hxy, hz⟩ := List.forall_mem_append.mp hparts
    obtain ⟨hx, hy⟩ := List.forall_mem_append.mp hxy
    simp [Code.branch, ih hx, ih' hy, ih'' hz]
  | loop _ _ ih ih' =>
    obtain ⟨hx, hy⟩ := List.forall_mem_append.mp hparts
    simp [Code.loop, ih hx, ih' hy]
  | again _ ih => simp [Code.again, ih hparts]
  | listed hmem _ ih => exact ih fun x hx => hparts x ((hmem x).mp hx)

variable (fine pool c e) in
/-- Every return in the code of a node has a count with this property. -/
def Gives : Prop := ∀ ⦃code : List Instr⦄, lower pool c e = some code → Returning fine code

/-- The returns in the code of a node that is no `return` itself are in the codes of the parts. -/
theorem gives_of_parts (hret : ∀ l value, e ≠ .ret l value)
    (hparts : ∀ x ∈ e.parts, Gives fine pool ⟨t, r, (t.inside here e).scope⟩ x) :
    Gives fine pool ⟨t, r, here.scope⟩ e :=
  fun _ h => (lower_fromParts h).returning (fun _ hi _ => hi.ne_ret hret) fun x hx _ hcode =>
    hparts x hx hcode

end Returning

/-- The count of a return in the body of a function, by the result of the function. -/
def Counts (t : ScopeTree) (function : Nat) (n : Int32) : Prop :=
  function ≠ ScopeTree.main ∧
    ∃ result, t.Returns function result ∧ n = if result = .empty then 0 else 1

section Typed

variable {host : Host} {p : Program} {t : ScopeTree} {r : Resolution} {g : Generated}
  {here there : Position} {e x : Expr} {type : Ty} {pool : Pool} {code : List Instr}

/-- The code of a `return`. -/
theorem lower_ret {l : Label} {value : Option Expr} (h : Typed host t r here (.ret l value) type)
    (hcode : lower pool ⟨t, r, here.scope⟩ (.ret l value) = some code) :
    ∃ before n, value.elim (some []) (lower pool ⟨t, r, here.scope⟩) = some before ∧
      code = before ++ [.ret n] ∧ Counts t here.function n := by
  cases h with
  | ret _ hmain hvalue hreturns =>
    cases value with
    | none =>
      cases hcode
      exact ⟨[], 0, rfl, rfl, hmain, _, hreturns, rfl⟩
    | some value =>
      obtain ⟨before, hlower, hrest⟩ := Option.bind_eq_some_iff.mp hcode
      obtain ⟨valueType, htype, hlast⟩ := Option.bind_eq_some_iff.mp hrest
      cases hlast
      cases (hvalue value rfl).typeOf?.symm.trans htype
      refine ⟨before, _, hlower, rfl, hmain, _, hreturns, ?_⟩
      simp only [Ty.isEmpty, decide_eq_true_eq]
      rfl

/-- The returns in the code of a typed node have the count of the function that it stands in. -/
theorem gives_of_typed (h : Typed host t r here e type) :
    Gives (Counts t here.function) pool ⟨t, r, here.scope⟩ e := by
  -- by the parts: a function below has code of its own, so all parts stand in one function
  induction e using Expr.parts_induction generalizing here type with
  | step e ih =>
    have hparts (x : Expr) (hx : x ∈ e.parts) :
        Gives (Counts t here.function) pool ⟨t, r, (t.inside here e).scope⟩ x := by
      obtain ⟨type, hpart⟩ := h.part hx
      have hgives := ih x hx hpart
      rw [inside_function] at hgives
      exact hgives
    by_cases hret : ∃ l value, e = .ret l value
    · obtain ⟨l, value, rfl⟩ := hret
      rw [inside_plain rfl] at hparts
      intro code hcode
      obtain ⟨before, n, hbefore, rfl, hn⟩ := lower_ret h hcode
      refine returning_append.mpr ⟨?_, returning_ret.mpr ⟨hn, returning_nil⟩⟩
      cases value with
      | none =>
        cases hbefore
        exact returning_nil
      | some value => exact hparts value List.mem_cons_self hbefore
    · exact gives_of_parts (fun l value he => hret ⟨l, value, he⟩) hparts

/-- The end of the code of a body, and the returns before it. -/
theorem lowerBody_ends {result : Ty} (h : Typed host t r here e type)
    (hcode : lowerBody pool ⟨t, r, here.scope⟩ result e = some code) :
    code.getLast? = some (.ret (if type = result ∧ result ≠ .empty then 1 else 0)) ∧
      Returning (Counts t here.function) code.dropLast := by
  obtain ⟨body, hbody, hrest⟩ := Option.bind_eq_some_iff.mp hcode
  obtain ⟨bodyType, htype, hlast⟩ := Option.bind_eq_some_iff.mp hrest
  cases hlast
  cases h.typeOf?.symm.trans htype
  have hreturning := gives_of_typed h hbody
  obtain ⟨front, hepilogue, hfront⟩ := epilogue_eq result type
  rw [hepilogue, ← List.append_assoc, List.dropLast_concat, returning_append]
  refine ⟨List.getLast?_concat, hreturning, ?_⟩
  rcases hfront with rfl | rfl <;> simp

/-- A child of a typed node is one of its parts, or a variable, or the element that is assigned
to. -/
theorem part_of_child (h : Typed host t r here e type) (hfun : e.isFunction = false)
    (hvar : e.isVariable = false) (hx : x ∈ e.children) :
    x ∈ e.parts ∨ x.isVariable = true ∨ e.opensScope = false ∧ ∃ l array index,
      x = .element l array index ∧ ∀ y ∈ x.children, y ∈ e.parts := by
  cases h with
  | var => cases hvar
  | function => cases hfun
  | @assign _ l left right _ _ _ htarget _ _ =>
    obtain rfl | rfl : x = left ∨ x = right := by simpa using hx
    · cases x with
      | var => exact .inr (.inl rfl)
      | element => exact .inr (.inr ⟨rfl, _, _, _, rfl, fun y hy => List.mem_append_left _ hy⟩)
      | _ => cases htarget
    · refine .inl ?_
      cases left <;> simp [Expr.parts]
  | operator _ _ _ hop =>
    rw [Expr.parts_operator hop.ne_assign]
    exact .inl hx
  | forTo | forIn =>
    rcases List.mem_cons.mp hx with rfl | hx
    · exact .inr (.inl rfl)
    · exact .inl hx
  | _ => exact .inl hx

/-- A node that is met on the way down: it stands there, or it is a variable, or an element of
which the parts stand there. -/
inductive Met (t : ScopeTree) (p : Program) (here : Position) : Expr → Prop where
  | stands {e : Expr} : t.Stands p here e → Met t p here e
  | var {e : Expr} : e.isVariable = true → Met t p here e
  | target {l : Label} {array : Expr} {index : Option Expr} :
      (∀ x ∈ (Expr.element l array index).children, t.Stands p here x) →
      Met t p here (.element l array index)

/-- The parameters of a function are declarations. -/
theorem params_declared {scope function : Nat} (h : t.Placed scope function e) {l : Label}
    {name : String} {params : List Expr} {body : Expr}
    (hmem : .function l name params body ∈ e.nodes) : ∀ q ∈ params, Declared q := by
  induction h with
  | declared h => cases h.isTypeSyntax hmem
  | function _ _ hparams _ ih =>
    rcases Expr.mem_nodes.mp hmem with heq | ⟨x, hx, hmem⟩
    · cases heq
      exact hparams
    rcases List.mem_append.mp hx with hx | hx
    · cases (hparams x hx).isTypeSyntax hmem
    · cases List.mem_singleton.mp hx
      exact ih hmem
  | opening hopens _ _ _ ih =>
    rcases Expr.mem_nodes.mp hmem with rfl | ⟨x, hx, hmem⟩
    · cases hopens
    · exact ih x hx hmem
  | plain _ hfun _ _ ih =>
    rcases Expr.mem_nodes.mp hmem with rfl | ⟨x, hx, hmem⟩
    · cases hfun
    · exact ih x hx hmem

theorem Met.child (hc : Compiles host p t r g) (h : Met t p here e) (hvar : e.isVariable = false)
    (hx : x ∈ e.children) : Met t p (t.below here e) x := by
  cases h with
  | var h => simp [h] at hvar
  | target hparts => exact .stands (hparts x hx)
  | stands h =>
    obtain ⟨hnode, ⟨type, htyped⟩, -⟩ := hc.settled h
    cases hfun : e.isFunction with
    | false =>
      rw [below_eq_inside hfun]
      rcases part_of_child htyped hfun hvar hx with hx | hx | ⟨hopens, l, array, index, rfl, hy⟩
      · exact .stands (h.part hx)
      · exact .var hx
      · have hstands (y : Expr) (hmem : y ∈ (Expr.element l array index).children) :=
          h.part (hy y hmem)
        rw [inside_plain hopens] at hstands ⊢
        exact .target hstands
    | true =>
      cases htyped with
      | @function _ l name params body scope id _ _ _ hid hscope =>
        rcases List.mem_append.mp hx with hx | hx
        · obtain ⟨_, _, _, rfl, -⟩ := params_declared hc.built.placed hnode x hx
          exact .var rfl
        · cases List.mem_singleton.mp hx
          have hbelow : t.below here (.function l name params x) = ⟨scope, id⟩ := by
            simp [below, Expr.opens, Expr.isFunction, Expr.id, Expr.label, hid, hscope]
          exact hbelow ▸ .stands (h.body hid hscope)
      | _ => cases hfun

theorem Met.sits (hc : Compiles host p t r g) (h : Met t p here e)
    (hsits : t.Sits here e there x) : Met t p there x := by
  induction hsits with
  | self => exact h
  | child hvar hx _ ih => exact ih (h.child hc hvar hx)

/-- A node that is evaluated stands where it sits. -/
theorem stands_of_sits (hc : Compiles host p t r g)
    (h : t.Sits ⟨t.program, ScopeTree.main⟩ p.body here e) (hvar : e.isVariable = false)
    (helement : ∀ l array index, e ≠ .element l array index) : t.Stands p here e := by
  cases Met.sits hc (.stands .program) h with
  | stands h => exact h
  | var h => simp [h] at hvar
  | target => exact absurd rfl (helement _ _ _)

theorem Compiles.call_type (hc : Compiles host p t r g) {l : Label} {name : String}
    {args : List Expr} (h : t.Sits ⟨t.program, ScopeTree.main⟩ p.body here (.call l name args)) :
    ∃ o type, t.resolveCall? here.scope name (args.map r.type) = some o ∧
      r.typeOf? l.id = some type ∧ Yields host t o.callee type := by
  obtain ⟨-, ⟨type, htyped⟩, -⟩ := hc.settled (stands_of_sits hc h rfl nofun)
  cases htyped with
  | call htype _ ho hyields => exact ⟨_, type, ho, htype, hyields⟩

theorem Compiles.ret_code (hc : Compiles host p t r g) {l : Label} {value : Option Expr}
    (h : t.Sits ⟨t.program, ScopeTree.main⟩ p.body here (.ret l value)) :
    ∃ code before n, g.functions[here.function]? = some code ∧
      value.elim (some []) (lower g.pool ⟨t, r, here.scope⟩) = some before ∧
      lower g.pool ⟨t, r, here.scope⟩ (.ret l value) = some (before ++ [.ret n]) ∧
      before ++ [.ret n] <:+: code.toList ∧ Counts t here.function n := by
  obtain ⟨-, ⟨type, htyped⟩, code, hcode, part, hpart, hinfix⟩ :=
    hc.settled (stands_of_sits hc h rfl nofun)
  obtain ⟨before, n, hbefore, rfl, hn⟩ := lower_ret htyped hpart
  exact ⟨code, before, n, hcode, hbefore, hpart, hinfix, hn⟩

/-- A function has one body. -/
theorem Compiles.body_unique (hc : Compiles host p t r g) {id : Nat} (h : HasBody t p id e)
    (h' : HasBody t p id x) : x = e := by
  have hother {node id : Nat} (hid : t.functionOf? node = some id) : id ≠ ScopeTree.main :=
    (hc.built.functionNodes _ (mem_of_lookup hid)).1
  cases h with
  | program =>
    cases h' with
    | program => rfl
    | node _ hid => exact absurd rfl (hother hid)
  | node hmem hid =>
    cases h' with
    | program => exact absurd rfl (hother hid)
    | node hmem' hid' =>
      have hsame :=
        fst_eq_of_snd_eq hc.built.functionNodup (mem_of_lookup hid') (mem_of_lookup hid)
      cases hc.numbered.eq_of_id hmem' hmem hsame
      rfl

/-- The end of the code of a function, and the returns before it. -/
theorem Compiles.function_ends (hc : Compiles host p t r g) {id : Nat}
    (hid : id < t.functions.size) :
    ∃ code body result type, g.functions[id]? = some code ∧ HasBody t p id body ∧
      t.Returns id result ∧ r.typeOf? body.id = some type ∧
      code.toList.getLast? = some (.ret (if type = result ∧ result ≠ .empty then 1 else 0)) ∧
      Returning (Counts t id) code.toList.dropLast := by
  obtain ⟨code, hcode, -⟩ := hc.function (o := {}) (Array.getElem?_eq_getElem hid)
  obtain ⟨scope, result, type, body, hbody, hisBody, hlower⟩ := hc.body hcode
  obtain ⟨hlast, hreturning⟩ := lowerBody_ends hisBody.typed hlower
  exact ⟨code, body, result, type, hcode, hbody, hisBody.returns, hisBody.typed.typeOf?, hlast,
    hreturning⟩

end Typed

/-- A program that has code is consistent about results. Every node but the syntax of types sits in
one place. A call of a function has the type that the function returns; a `return` in a function
is a return in its code, with a value if the function has one. The code of a function ends with a
value if its body has the type of the result, and the program returns none. -/
theorem results_agree (body : Expr) (host : Host) (cancelled : Cancellation) {r : Resolution}
    {t : ScopeTree} {g : Generated} (hclean : (build (.ofExpr body) host).problems = [])
    (hresolve : (build (.ofExpr body) host).tree.resolve (.ofExpr body) host cancelled =
      (.ok r, t))
    (hgenerate : t.generate (.ofExpr body) r = .ok g) :
    (∀ e ∈ (Program.ofExpr body).body.nodes, e.isTypeSyntax = false →
      ∃ here, ∀ there, t.Sits ⟨t.program, ScopeTree.main⟩ (Program.ofExpr body).body there e ↔
        there = here) ∧
    (∀ here l name args,
      t.Sits ⟨t.program, ScopeTree.main⟩ (Program.ofExpr body).body here (.call l name args) →
      ∃ o type, t.resolveCall? here.scope name (args.map r.type) = some o ∧
        r.typeOf? l.id = some type ∧ ∀ id, o.callee = .script id → t.Returns id type) ∧
    (∀ here l value,
      t.Sits ⟨t.program, ScopeTree.main⟩ (Program.ofExpr body).body here (.ret l value) →
      here.function ≠ ScopeTree.main ∧ ∃ result code before, t.Returns here.function result ∧
        g.functions[here.function]? = some code ∧
        value.elim (some []) (lower g.pool ⟨t, r, here.scope⟩) = some before ∧
        lower g.pool ⟨t, r, here.scope⟩ (.ret l value) =
          some (before ++ [.ret (if result = .empty then 0 else 1)]) ∧
        before ++ [.ret (if result = .empty then 0 else 1)] <:+: code.toList) ∧
    (∀ id < t.functions.size, ∃ code e result type, g.functions[id]? = some code ∧
      (∀ x, HasBody t (.ofExpr body) id x ↔ x = e) ∧ t.Returns id result ∧
      r.typeOf? e.id = some type ∧
      code.toList.getLast? = some (.ret (if type = result ∧ result ≠ .empty then 1 else 0)) ∧
      ∀ n, .ret n ∈ code.toList.dropLast →
        id ≠ ScopeTree.main ∧ n = if result = .empty then 0 else 1) ∧
    ∃ code, g.functions[ScopeTree.main]? = some code ∧ .ret 1 ∉ code.toList := by
  have hn : Expr.Numbered 0 (Program.ofExpr body).body (Program.ofExpr body).nodeCount :=
    body.renumber_numbered 0
  obtain ⟨-, hbuilt, htyped⟩ := resolve_eq_ok (build_clean hn hclean) hn hresolve
  have hc : Compiles host (.ofExpr body) t r g := ⟨hbuilt, hn, htyped, hgenerate⟩
  refine ⟨fun e he hkind => ?_, fun here l name args hsits => ?_, fun here l value hsits => ?_,
    fun id hid => ?_, ?_⟩
  · obtain ⟨here, hsits⟩ :=
      Sits.exists_of_reaches (t := t) (hbuilt.placed.reaches he hkind) ⟨t.program, ScopeTree.main⟩
    exact ⟨here, fun there => ⟨fun h => h.unique hn hsits, fun h => h ▸ hsits⟩⟩
  · obtain ⟨o, type, ho, htype, hyields⟩ := hc.call_type hsits
    refine ⟨o, type, ho, htype, fun id hid => ?_⟩
    rw [hid] at hyields
    exact hyields
  · obtain ⟨code, before, n, hcode, hbefore, hlower, hinfix, hmain, result, hresult, rfl⟩ :=
      hc.ret_code hsits
    exact ⟨hmain, result, code, before, hresult, hcode, hbefore, hlower, hinfix⟩
  · obtain ⟨code, e, result, type, hcode, hbody, hresult, htype, hlast, hbefore⟩ :=
      hc.function_ends hid
    refine ⟨code, e, result, type, hcode, fun x => ⟨hc.body_unique hbody, fun h => h ▸ hbody⟩,
      hresult, htype, hlast, fun n hmem => ?_⟩
    obtain ⟨hmain, result', hresult', hcount⟩ := hbefore n hmem
    cases hresult.unique hresult'
    exact ⟨hmain, hcount⟩
  · obtain ⟨f, hf, -, hempty⟩ := hbuilt.mainFunction
    obtain ⟨code, e, result, type, hcode, -, hresult, -, hlast, hbefore⟩ :=
      hc.function_ends (Array.getElem?_eq_some_iff.mp hf).1
    cases hresult.unique ⟨f, hf, hempty⟩
    obtain ⟨front, hfront⟩ := List.getLast?_eq_some_iff.mp hlast
    rw [hfront, List.dropLast_concat] at hbefore
    refine ⟨code, hcode, fun hmem => ?_⟩
    rw [hfront] at hmem
    rcases List.mem_append.mp hmem with hmem | hmem
    · exact (hbefore 1 hmem).1 rfl
    · simp at hmem

/-- A function that calls itself between a `return` and the value at its end, called before it
is declared. -/
def factorial : Expr :=
  .block {} [
    .call {} "factorial" [.constant {} (.number .one)],
    .function {} "factorial" [.var {} "n" (some (.var {} "number" none))]
      (.block {} [
        .cond {} (.binary {} .less (.var {} "n" none) (.constant {} (.number .one)))
          (.ret {} (some (.constant {} (.number .one)))) none,
        .binary {} .mul (.var {} "n" none)
          (.call {} "factorial"
            [.binary {} .sub (.var {} "n" none) (.constant {} (.number .one))])])]

theorem results_agree_factorial : ∃ r t g code,
    (build (.ofExpr factorial) .empty).problems = [] ∧
    (build (.ofExpr factorial) .empty).tree.resolve (.ofExpr factorial) .empty false = (.ok r, t) ∧
    t.generate (.ofExpr factorial) r = .ok g ∧ r.typeOf? 15 = some .double ∧
    t.Returns 1 .double ∧ g.functions[1]? = some code ∧
    code.toList.getLast? = some (.ret 1) ∧ (∀ n, .ret n ∈ code.toList.dropLast → n = 1) ∧
    ∃ code, g.functions[ScopeTree.main]? = some code ∧ .ret 1 ∉ code.toList := by
  have hbuild : (build (.ofExpr factorial) .empty).problems = [] := by decide +kernel
  let facts (result : Except Diagnostic Resolution × ScopeTree) := result.1.toOption.map fun r =>
    (r.typeOf? 15, r.typeOf? 6, result.2.functionOf? 3, result.2.functions[1]?.bind (·.returnType),
      (result.2.generate (.ofExpr factorial) r).toOption.isSome)
  have hfacts : facts ((build (.ofExpr factorial) .empty).tree.resolve (.ofExpr factorial) .empty
      false) = some (some .double, some .double, some 1, some .double, true) := by
    decide +kernel
  generalize hresolve : ScopeTree.resolve _ _ _ _ = resolved at hfacts ⊢
  obtain ⟨_ | r, t⟩ := resolved
  case error => cases hfacts
  simp only [facts, Except.toOption, Option.map_some, Option.some.injEq, Prod.mk.injEq] at hfacts
  obtain ⟨hcall, htype, hfunction, hresult, hgenerated⟩ := hfacts
  obtain ⟨f, hf, hresult⟩ := Option.bind_eq_some_iff.mp hresult
  have hreturns : t.Returns 1 .double := ⟨f, hf, hresult⟩
  generalize hgenerate : ScopeTree.generate _ _ _ = generated at hgenerated
  cases generated with
  | error => cases hgenerated
  | ok g =>
    obtain ⟨-, -, -, hends, hmain⟩ :=
      results_agree factorial .empty false hbuild hresolve hgenerate
    obtain ⟨code, e, result, type, hcode, hbody, hresult', htype', hlast, hbefore⟩ :=
      hends 1 (Array.getElem?_eq_some_iff.mp hf).1
    cases hresult'.unique hreturns
    obtain rfl := (hbody _).mp (.node (List.mem_of_getElem? (i := 3) rfl) hfunction)
    cases htype.symm.trans htype'
    exact ⟨r, t, g, code, hbuild, rfl, hgenerate, hcall, hreturns, hcode, hlast,
      fun n hn => (hbefore n hn).2, hmain⟩

end Code

end TurtleScript
