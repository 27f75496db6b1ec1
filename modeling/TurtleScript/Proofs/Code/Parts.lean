import TurtleScript.Proofs.Code.Linking

/-!
# Where the code of a node is

The code of a node has the codes of its parts in it. So each node of a compiled program that is
evaluated has its code in the code of its function.
-/
namespace TurtleScript

open Semantics (Position)

/-- What a node reads a variable for or gives one a value. -/
def Expr.named? : Expr → Option Expr
  | .var l name type => some (.var l name type)
  | .binary _ .assign left _ | .forTo _ left .. | .forIn _ left .. => some left
  | _ => none

/-- What has the type of the elements that a node goes to. -/
def Expr.indexed? : Expr → Option Expr
  | .element l base index | .binary _ .assign (.element l base index) _ =>
    some (.element l base index)
  | .forIn _ item .. => some item
  | _ => none

namespace Expr

variable {e x : Expr}

/-- A part of a node is a child of it, or of the element that it assigns to. -/
theorem of_mem_parts (hx : x ∈ e.parts) : e.isFunction = false ∧ e.isVariable = false ∧
    (x ∈ e.children ∨ ∃ l array index,
      .element l array index ∈ e.children ∧ x ∈ (element l array index).children) := by
  cases e with
  | var | function => cases hx
  | binary l op left right =>
    refine ⟨rfl, rfl, ?_⟩
    by_cases hop : op = .assign
    · subst hop
      cases left with
      | element target array index =>
        rcases List.mem_append.mp hx with hx | hx
        · exact .inr ⟨target, array, index, List.mem_cons_self, hx⟩
        · exact .inl (List.mem_cons_of_mem _ hx)
      | _ => exact .inl (List.mem_cons_of_mem _ hx)
    · rw [parts_operator hop] at hx
      exact .inl hx
  | forTo | forIn => exact ⟨rfl, rfl, .inl (List.mem_cons_of_mem _ hx)⟩
  | _ => exact ⟨rfl, rfl, .inl hx⟩

theorem below_of_part (hx : x ∈ e.parts) : ∃ c ∈ e.children, x ∈ c.nodes := by
  obtain ⟨-, -, hx | ⟨l, array, index, hc, hx⟩⟩ := of_mem_parts hx
  · exact ⟨x, hx, x.mem_nodes_self⟩
  · exact ⟨_, hc, mem_nodes_child hx x.mem_nodes_self⟩

theorem mem_nodes_part (hx : x ∈ e.parts) {y : Expr} (hy : y ∈ x.nodes) : y ∈ e.nodes := by
  obtain ⟨c, hc, hxc⟩ := below_of_part hx
  exact mem_nodes_child hc (mem_nodes_trans hxc hy)

theorem parts_induction {motive : Expr → Prop}
    (step : ∀ e, (∀ x ∈ e.parts, motive x) → motive e) (e : Expr) : motive e := by
  induction e using nodes_induction with
  | step e ih =>
    refine step e fun x hx => ?_
    obtain ⟨c, hc, hxc⟩ := below_of_part hx
    exact ih c hc x hxc

/-- The code of `y` is in that of `x`. -/
inductive Contains : Expr → Expr → Prop where
  | self (x : Expr) : Contains x x
  | part {x c y : Expr} : c ∈ x.parts → Contains c y → Contains x y

theorem Contains.mem_nodes {x y : Expr} (h : Contains x y) : y ∈ x.nodes := by
  induction h with
  | self x => exact mem_nodes_self x
  | part hc _ ih => exact mem_nodes_part hc ih

end Expr

namespace ScopeTree

/-- The nodes of a program for which there is code, and where each of them stands. -/
inductive Stands (t : ScopeTree) (p : Program) : Position → Expr → Prop where
  | program : Stands t p ⟨t.program, main⟩ p.body
  | part {here : Position} {e x : Expr} : Stands t p here e → x ∈ e.parts →
      Stands t p (t.inside here e) x
  | body {here : Position} {l : Label} {name : String} {params : List Expr} {body : Expr}
      {scope id : Nat} : Stands t p here (.function l name params body) →
      t.functionOf? l.id = some id → t.scopeOf? l.id = some scope → Stands t p ⟨scope, id⟩ body

end ScopeTree

/-- The parts of a node are placed inside it. -/
theorem ScopeTree.Placed.part {t : ScopeTree} {here : Position} {e x : Expr}
    (hkeys : (t.nodeScopes.map Prod.fst).Nodup) (h : t.Placed here.scope here.function e)
    (hx : x ∈ e.parts) : t.Placed (t.inside here e).scope (t.inside here e).function x := by
  obtain ⟨hfun, hvar, hx | ⟨l, array, index, hc, hx⟩⟩ := Expr.of_mem_parts hx
  · exact h.inside hkeys hfun hvar hx
  · have hpart := (h.inside hkeys hfun hvar hc).inside hkeys rfl rfl hx
    rwa [inside_plain rfl] at hpart

namespace Code

open ScopeTree Semantics

open Generate (operand load store elementAddress call operator)

/-- Code that is put together from the codes of `xs` and from instructions of its own. -/
inductive Assembled (own : Instr → Prop) (code? : Expr → Option (List Instr)) :
    List Expr → List Instr → Prop where
  | nil : Assembled own code? [] []
  | own {i : Instr} : own i → Assembled own code? [] [i]
  | part {x : Expr} {code : List Instr} : code? x = some code → Assembled own code? [x] code
  | append {xs ys : List Expr} {first second : List Instr} : Assembled own code? xs first →
      Assembled own code? ys second → Assembled own code? (xs ++ ys) (first ++ second)
  | skip {xs ys : List Expr} {test yes : List Instr} : Assembled own code? xs test →
      Assembled own code? ys yes → Assembled own code? (xs ++ ys) (skip test yes)
  | branch {xs ys zs : List Expr} {test yes no : List Instr} : Assembled own code? xs test →
      Assembled own code? ys yes → Assembled own code? zs no →
      Assembled own code? (xs ++ ys ++ zs) (branch test yes no)
  | loop {xs ys : List Expr} {kind : JumpKind} {body test : List Instr} :
      Assembled own code? xs body → Assembled own code? ys test →
      Assembled own code? (xs ++ ys) (loop kind body test)
  | again {xs : List Expr} {body : List Instr} : Assembled own code? xs body →
      Assembled own code? xs (again body)
  /-- The order of the parts is of no account. -/
  | listed {xs ys : List Expr} {code : List Instr} (h : ∀ x, x ∈ xs ↔ x ∈ ys) :
      Assembled own code? xs code → Assembled own code? ys code

/-- An instruction that names nothing and does not leave its place. -/
def Plain : Instr → Bool
  | .pushInt _ | .pop | .dup | .arith _ | .compare _ | .eq | .logic _ | .toInt | .intMul | .intAdd
  | .length => true
  | _ => false

/-- The places that a node reads or writes itself. -/
inductive Uses (c : Context) (e : Expr) : Storage → Prop where
  | named {x : Expr} {place : Storage} : e.named? = some x → loopVariable? c x = some place →
      Uses c e place
  | hidden {l : Label} {item iterable body : Expr} {slots : LoopSlots} {id : Nat}
      {place : Storage} : e = .forIn l item iterable body → c.tree.loopSlotsOf? l.id = some slots →
      id = slots.array ∨ id = slots.index → hidden? c id = some place → Uses c e place

/-- The instructions that a node has of its own, where `c` is the context of its parts. -/
inductive Brings (pool : Pool) (c : Context) (e : Expr) : Instr → Prop where
  | plain {i : Instr} : Plain i → Brings pool c e i
  | constant {value : Constant} {n : Nat} : pool.values.idxOf? value = some n →
      Brings pool c e (.loadConst (operand n))
  | load {place : Storage} : Uses c e place → Brings pool c e (load place)
  | store {place : Storage} : Uses c e place → Brings pool c e (store place)
  | getField {x : Expr} {type : Ty} : e.indexed? = some x → typeOf? c x = some type →
      Brings pool c e (.getField TypeDef.payloadField type.size.toInt32)
  | setField {x : Expr} {type : Ty} : e.indexed? = some x → typeOf? c x = some type →
      Brings pool c e (.setField TypeDef.payloadField type.size.toInt32)
  | call {name : String} {types : List Ty} {o : Overload} :
      c.tree.resolveCall? c.scope name types = some o →
      Brings pool c e (call types.length o.callee)
  | pushDefault (type : Ty) : Brings pool c e (.pushDefault type.id.toInt32)
  | newArray (count : Int32) (type : Ty) : Brings pool c e (.newArray count type.id.toInt32)
  | ret {l : Label} {value : Option Expr} (n : Int32) : e = .ret l value → Brings pool c e (.ret n)

/-- The code of a node is put together from the codes of its parts, which have the context `c`. -/
def FromParts (pool : Pool) (c : Context) (e : Expr) (code : List Instr) : Prop :=
  Assembled (Brings pool c e) (lower pool c) e.parts code

section Assembled

variable {t : ScopeTree} {r : Resolution} {pool : Pool} {c : Context} {here : Position} {l : Label}
  {e x : Expr} {es : List Expr} {code : List Instr}

theorem constant_assembled {value : Constant} (h : constant? pool value = some code) :
    Assembled (Brings pool c e) (lower pool c) [] code := by
  obtain ⟨n, hn, rfl⟩ := Option.map_eq_some_iff.mp h
  exact .own (.constant hn)

theorem drop_assembled (h : drop? c x = some code) :
    Assembled (Brings pool c e) (lower pool c) [] code := by
  obtain ⟨type, -, rfl⟩ := Option.map_eq_some_iff.mp h
  split
  · exact .nil
  · exact .own (.plain rfl)

theorem elementAddress_assembled (stride : Int32) :
    Assembled (Brings pool c e) (lower pool c) [] (elementAddress stride) :=
  (Assembled.own (.plain rfl)).append <| (Assembled.own (.plain rfl)).append <|
    (Assembled.own (.plain rfl)).append (.own (.plain rfl))

theorem operator_assembled {op : BinaryOp} {left right : Ty} {i : Instr}
    (h : operator? c op left right = some i) :
    Assembled (Brings pool c e) (lower pool c) [] [i] := by
  rw [operator?] at h
  split at h
  · obtain ⟨o, ho, rfl⟩ := Option.map_eq_some_iff.mp h
    exact .own (.call ho)
  · split at h
    · cases h
    · cases h
      cases op <;> exact .own (.plain rfl)

theorem all_assembled (h : lowerAll pool c es = some code) :
    Assembled (Brings pool c e) (lower pool c) es code := by
  induction es generalizing code with
  | nil =>
    cases h
    exact .nil
  | cons x es ih =>
    obtain ⟨first, hfirst, h⟩ := Option.bind_eq_some_iff.mp h
    obtain ⟨rest, hrest, h⟩ := Option.bind_eq_some_iff.mp h
    cases h
    exact .append (.part hfirst) (ih hrest)

theorem members_assembled (h : lowerMembers pool c es = some code) :
    Assembled (Brings pool c e) (lower pool c) es code := by
  induction es generalizing code with
  | nil =>
    cases h
    exact .nil
  | cons x es ih =>
    obtain ⟨first, hfirst, dropped, hdropped, rest, hrest, rfl⟩ := lowerMembers_cons_eq_some h
    have hdrop : Assembled (Brings pool c e) (lower pool c) [] dropped := by
      rw [dropBefore?] at hdropped
      split at hdropped
      · cases hdropped
        exact .nil
      · exact drop_assembled hdropped
    exact .append (.append (.part hfirst) hdrop) (ih hrest)

theorem optional_assembled {o : Option Expr} (h : lowerOptional pool c o = some code) :
    Assembled (Brings pool c e) (lower pool c) o.toList code := by
  cases o with
  | none =>
    cases h
    exact .nil
  | some x =>
    obtain ⟨value, hvalue, h⟩ := Option.bind_eq_some_iff.mp h
    obtain ⟨dropped, hdropped, h⟩ := Option.bind_eq_some_iff.mp h
    cases h
    exact .append (.part hvalue) (drop_assembled hdropped)

theorem within_inside {inner : Context} (h : within? ⟨t, r, here.scope⟩ e = some inner)
    (he : e.opensScope = true) : inner = ⟨t, r, (t.inside here e).scope⟩ := by
  obtain ⟨scope, hscope, rfl⟩ := Option.map_eq_some_iff.mp h
  rw [inside_opening he hscope]

theorem assign_fromParts {left right : Expr}
    (h : lower pool c (.binary l .assign left right) = some code) :
    FromParts pool c (.binary l .assign left right) code := by
  cases left with
  | var =>
    obtain ⟨place, hplace, h⟩ := Option.bind_eq_some_iff.mp h
    obtain ⟨value, hvalue, h⟩ := Option.bind_eq_some_iff.mp h
    cases h
    exact .append (.part hvalue) (.append (.own (.plain rfl)) (.own (.store (.named rfl hplace))))
  | element target array index =>
    cases index with
    | none => cases h
    | some index =>
      obtain ⟨type, htype, arrayCode, harray, indexCode, hindex, value, hvalue, rfl⟩ :=
        lower_assignElement_eq_some h
      change Assembled _ _ [array, index, right] _
      exact .append (.append (.append (.append (.part harray) (.part hindex))
        (elementAddress_assembled _)) (.part hvalue)) (.own (.setField rfl htype))
  | _ => cases h

theorem binary_fromParts {op : BinaryOp} {left right : Expr}
    (h : lower pool c (.binary l op left right) = some code) :
    FromParts pool c (.binary l op left right) code := by
  by_cases hop : op = .assign
  · subst hop
    exact assign_fromParts h
  · obtain ⟨leftCode, hleft, rightCode, hright, _, -, _, -, i, hi, rfl⟩ :=
      lower_operator_eq_some hop h
    rw [FromParts, Expr.parts_operator hop]
    exact .append (.append (.part hleft) (.part hright)) (operator_assembled hi)

theorem cond_fromParts {condition yesBranch : Expr} {noBranch : Option Expr}
    (h : lower pool c (.cond l condition yesBranch noBranch) = some code) :
    FromParts pool c (.cond l condition yesBranch noBranch) code := by
  rw [lower] at h
  obtain ⟨type, -, h⟩ := Option.bind_eq_some_iff.mp h
  obtain ⟨test, htest, h⟩ := Option.bind_eq_some_iff.mp h
  obtain ⟨yes, hyes, h⟩ := Option.bind_eq_some_iff.mp h
  cases noBranch with
  | none =>
    cases h
    change Assembled _ _ [condition, yesBranch] _
    rw [orDefault]
    split
    · exact .skip (.part htest) (.part hyes)
    · exact .branch (.part htest) (.part hyes) (.own (.pushDefault type))
  | some noBranch =>
    obtain ⟨no, hno, h⟩ := Option.bind_eq_some_iff.mp h
    cases h
    exact .branch (.part htest) (.part hyes) (.part hno)

theorem forLoop_fromParts {init condition step : Option Expr} {body : Expr}
    (h : lower pool ⟨t, r, here.scope⟩ e = some code)
    (he : e = .forLoop l init condition step body) :
    FromParts pool ⟨t, r, (t.inside here e).scope⟩ e code := by
  subst he
  obtain ⟨c, hc, initCode, hinit, bodyCode, hbody, dropped, hdropped, stepCode, hstep, kind, test,
    htest, rfl⟩ := lower_forLoop_eq_some h
  cases within_inside hc rfl
  have hround := ((Assembled.part hbody).append (drop_assembled hdropped)).append
    (optional_assembled (e := .forLoop l init condition step body) hstep)
  cases htest with
  | none =>
    refine .listed ?_ (.append (optional_assembled hinit) (.loop hround .nil))
    grind [Expr.parts, Expr.children]
  | some htest =>
    refine .listed ?_ (.append (optional_assembled hinit) (.loop hround (.part htest)))
    grind [Expr.parts, Expr.children]

theorem forTo_fromParts {counter start bound body : Expr} {direction : Direction}
    (h : lower pool ⟨t, r, here.scope⟩ e = some code)
    (he : e = .forTo l counter start bound direction body) :
    FromParts pool ⟨t, r, (t.inside here e).scope⟩ e code := by
  subst he
  obtain ⟨c, hc, place, hplace, startCode, hstart, bodyCode, hbody, dropped, hdropped, one, hone,
    boundCode, hbound, rfl⟩ := lower_forTo_eq_some h
  cases within_inside hc rfl
  have hplace : Uses _ (.forTo l counter start bound direction body) place := .named rfl hplace
  refine .listed ?_ (.append
    (.append (.part hstart) (.own (.store hplace)))
    (.loop
      (.append (.append (.append (.append (.part hbody) (drop_assembled hdropped))
        (.own (.load hplace))) (constant_assembled hone))
          (.append (.own (.plain rfl)) (.own (.store hplace))))
      (.append (.append (.own (.load hplace)) (.part hbound)) (.own (.plain rfl)))))
  grind [Expr.parts]

theorem forIn_fromParts {item iterable body : Expr}
    (h : lower pool ⟨t, r, here.scope⟩ e = some code) (he : e = .forIn l item iterable body) :
    FromParts pool ⟨t, r, (t.inside here e).scope⟩ e code := by
  subst he
  obtain ⟨c, hc, slots, hslots, place, hplace, type, htype, array, harray, index, hindex,
    iterableCode, hiterable, zero, hzero, bodyCode, hbody, dropped, hdropped, one, hone, rfl⟩ :=
      lower_forIn_eq_some h
  cases within_inside hc rfl
  have harray : Uses _ (.forIn l item iterable body) array := .hidden rfl hslots (.inl rfl) harray
  have hindex : Uses _ (.forIn l item iterable body) index := .hidden rfl hslots (.inr rfl) hindex
  exact .append
    (.append (.append (.append (.part hiterable) (.own (.store harray)))
      (constant_assembled hzero)) (.own (.store hindex)))
    (.loop
      (.append (.append (.append (.append (.append (.append (.append
        (.append (.own (.load harray)) (.own (.load hindex))) (elementAddress_assembled _))
          (.append (.own (.getField rfl htype)) (.own (.store (.named rfl hplace)))))
            (.part hbody)) (drop_assembled hdropped)) (.own (.load hindex)))
              (constant_assembled hone)) (.append (.own (.plain rfl)) (.own (.store hindex))))
      (.append (.own (.load hindex)) (.append (.own (.load harray))
        (.append (.own (.plain rfl)) (.own (.plain rfl))))))

theorem whileLoop_fromParts {condition body : Expr}
    (h : lower pool c (.whileLoop l condition body) = some code) :
    FromParts pool c (.whileLoop l condition body) code := by
  obtain ⟨bodyCode, hbody, dropped, hdropped, test, htest, rfl⟩ := lower_whileLoop_eq_some h
  refine .listed ?_ (.loop (.append (.part hbody) (drop_assembled hdropped)) (.part htest))
  simp [Expr.parts, or_comm]

theorem repeatUntil_fromParts {body condition : Expr}
    (h : lower pool c (.repeatUntil l body condition) = some code) :
    FromParts pool c (.repeatUntil l body condition) code := by
  obtain ⟨bodyCode, hbody, dropped, hdropped, test, htest, rfl⟩ := lower_repeatUntil_eq_some h
  exact .again (.append (.append (.part hbody) (drop_assembled hdropped)) (.part htest))

theorem call_fromParts {name : String} {args : List Expr}
    (h : lower pool c (.call l name args) = some code) :
    FromParts pool c (.call l name args) code := by
  obtain ⟨argsCode, hargs, types, htypes, o, ho, rfl⟩ := lower_call_eq_some h
  rw [← length_of_mapM htypes, FromParts, ← List.append_nil (Expr.parts _)]
  exact .append (all_assembled hargs) (.own (.call ho))

theorem ret_fromParts {value : Option Expr} (h : lower pool c (.ret l value) = some code) :
    FromParts pool c (.ret l value) code := by
  cases value with
  | none =>
    cases h
    exact .own (.ret 0 rfl)
  | some value =>
    obtain ⟨valueCode, hvalue, h⟩ := Option.bind_eq_some_iff.mp h
    obtain ⟨_, -, h⟩ := Option.bind_eq_some_iff.mp h
    cases h
    exact .append (.part hvalue) (.own (.ret _ rfl))

theorem element_fromParts {array : Expr} {index : Option Expr}
    (h : lower pool c (.element l array index) = some code) :
    FromParts pool c (.element l array index) code := by
  cases index with
  | none => cases h
  | some index =>
    obtain ⟨type, htype, arrayCode, harray, indexCode, hindex, rfl⟩ := lower_element_eq_some h
    exact .append (.append (.append (.part harray) (.part hindex))
      (elementAddress_assembled _)) (.own (.getField rfl htype))

theorem array_fromParts {elements : List Expr} (h : lower pool c (.array l elements) = some code) :
    FromParts pool c (.array l elements) code := by
  obtain ⟨elementsCode, helements, h⟩ := Option.bind_eq_some_iff.mp h
  obtain ⟨type, -, h⟩ := Option.bind_eq_some_iff.mp h
  cases type with
  | array element =>
    cases h
    rw [FromParts, ← List.append_nil (Expr.parts _)]
    exact .append (all_assembled helements) (.own (.newArray _ element))
  | _ => cases h

theorem plain_fromParts (hplain : e.opensScope = false) (h : lower pool c e = some code) :
    FromParts pool c e code := by
  cases e with
  | block | forLoop | forTo | forIn => cases hplain
  | function =>
    cases h
    exact .nil
  | constant => exact constant_assembled h
  | var =>
    obtain ⟨place, hplace, h⟩ := Option.bind_eq_some_iff.mp h
    cases h
    exact .own (.load (.named rfl hplace))
  | binary => exact binary_fromParts h
  | cond => exact cond_fromParts h
  | whileLoop => exact whileLoop_fromParts h
  | repeatUntil => exact repeatUntil_fromParts h
  | call => exact call_fromParts h
  | ret => exact ret_fromParts h
  | paren => exact .part h
  | element => exact element_fromParts h
  | array => exact array_fromParts h

theorem lower_fromParts (h : lower pool ⟨t, r, here.scope⟩ e = some code) :
    FromParts pool ⟨t, r, (t.inside here e).scope⟩ e code := by
  cases hopens : e.opensScope with
  | false =>
    rw [inside_plain hopens]
    exact plain_fromParts hopens h
  | true =>
    cases e with
    | block l body =>
      obtain ⟨c, hc, h⟩ := Option.bind_eq_some_iff.mp h
      cases within_inside hc rfl
      exact members_assembled h
    | forLoop => exact forLoop_fromParts h rfl
    | forTo => exact forTo_fromParts h rfl
    | forIn => exact forIn_fromParts h rfl
    | _ => cases hopens

end Assembled

section Parts

variable {t : ScopeTree} {r : Resolution} {pool : Pool} {c : Context} {here : Position}
  {e x : Expr} {xs ys code : List Instr}

/-- The code of `x` is somewhere in this code. -/
def Has (pool : Pool) (c : Context) (x : Expr) (code : List Instr) : Prop :=
  ∃ part, lower pool c x = some part ∧ part <:+: code

theorem Has.mono (h : Has pool c x xs) (hxs : xs <:+: ys) : Has pool c x ys := by
  obtain ⟨part, hpart, hinfix⟩ := h
  exact ⟨part, hpart, hinfix.trans hxs⟩

theorem Has.left (h : Has pool c x xs) : Has pool c x (xs ++ ys) := h.mono List.infix_append_left

theorem Has.right (h : Has pool c x ys) : Has pool c x (xs ++ ys) := h.mono List.infix_append_right

theorem Has.cons {i : Instr} (h : Has pool c x code) : Has pool c x (i :: code) :=
  h.mono (List.infix_cons List.infix_rfl)

theorem Assembled.has {own : Instr → Prop} {parts : List Expr}
    (h : Assembled own (lower pool c) parts code) (hx : x ∈ parts) : Has pool c x code := by
  induction h with
  | nil | own => cases hx
  | part hcode =>
    obtain rfl := List.mem_singleton.mp hx
    exact ⟨_, hcode, List.infix_rfl⟩
  | append _ _ ih ih' => exact (List.mem_append.mp hx).elim (ih · |>.left) (ih' · |>.right)
  | skip _ _ ih ih' => exact (List.mem_append.mp hx).elim (ih · |>.left) (ih' · |>.cons.right)
  | branch _ _ _ ih ih' ih'' =>
    rcases List.mem_append.mp hx with hx | hx
    · exact (List.mem_append.mp hx).elim (ih · |>.left) (ih' · |>.left.cons.right)
    · exact (ih'' hx).cons.right.cons.right
  | loop _ _ ih ih' =>
    exact (List.mem_append.mp hx).elim (ih · |>.left.cons) (ih' · |>.left.right.cons)
  | again _ ih => exact (ih hx).left
  | listed hmem _ ih => exact ih ((hmem x).mpr hx)

/-- The code of a node has that of its parts in it. -/
theorem has_part (h : lower pool ⟨t, r, here.scope⟩ e = some code) (hx : x ∈ e.parts) :
    Has pool ⟨t, r, (t.inside here e).scope⟩ x code :=
  (lower_fromParts h).has hx

end Parts

/-- A node that stands somewhere in a compiled program is typed there, and the code of its
function has its code. -/
structure Settled (host : Host) (p : Program) (t : ScopeTree) (r : Resolution) (g : Generated)
    (here : Position) (e : Expr) : Prop where
  node : e ∈ p.body.nodes
  typed : ∃ type, Typed host t r here e type
  code : ∃ code, g.functions[here.function]? = some code ∧
    Has g.pool ⟨t, r, here.scope⟩ e code.toList

section Programs

variable {host : Host} {p : Program} {t : ScopeTree} {r : Resolution} {g : Generated}
  {here : Position} {e : Expr}

/-- The code of a body comes first in the code of its function. -/
theorem has_body {pool : Pool} {c : Context} {result : Ty} {code : Array Instr}
    (h : lowerBody pool c result e = some code.toList) : Has pool c e code.toList := by
  obtain ⟨body, hbody, h⟩ := Option.bind_eq_some_iff.mp h
  obtain ⟨_, -, h⟩ := Option.bind_eq_some_iff.mp h
  rw [← Option.some.inj h]
  exact ⟨body, hbody, List.infix_append_left⟩

theorem Compiles.settled (h : Compiles host p t r g) (hstands : t.Stands p here e) :
    Settled host p t r g here e := by
  obtain ⟨hsize, hcodes⟩ := generate_eq_ok h.code
  induction hstands with
  | program =>
    obtain ⟨f, hf, -, -⟩ := h.built.mainFunction
    obtain ⟨code, hcode, -⟩ := h.function (o := {}) hf
    exact ⟨p.body.mem_nodes_self, ⟨_, h.typed⟩, code, hcode, has_body ((hcodes _ _ hcode).1 rfl)⟩
  | @part here e x _ hx ih =>
    obtain ⟨type, htyped⟩ := ih.typed
    obtain ⟨code, hcode, part, hpart, hinfix⟩ := ih.code
    refine ⟨Expr.mem_nodes_trans ih.node (Expr.mem_nodes_part hx x.mem_nodes_self),
      htyped.part hx, code, ?_, (has_part hpart hx).mono hinfix⟩
    rw [inside_function]
    exact hcode
  | @body here l name params body scope id _ hid hscope ih =>
    obtain ⟨type, htyped⟩ := ih.typed
    cases htyped with
    | @function _ _ _ _ _ scope' id' result type _ hid' hscope' hbody hreturns =>
      cases hid.symm.trans hid'
      cases hscope.symm.trans hscope'
      obtain ⟨f, hf, -⟩ := hreturns
      obtain ⟨code, hcode, -⟩ := h.function (o := {}) hf
      have hmem := mem_of_lookup hid
      obtain ⟨l', name', params', body', scope', _, result', hnode', hid'', hscope'', -, -,
        hlower⟩ := (hcodes id code hcode).2 (h.built.functionNodes _ hmem).1
      -- the function that the code is of is this one: a number belongs to one node
      have hsame := fst_eq_of_snd_eq h.built.functionNodup hmem (mem_of_lookup hid'')
      cases h.numbered.eq_of_id ih.node hnode' hsame
      cases hscope.symm.trans hscope''
      have hbody' : body ∈ p.body.nodes := Expr.mem_nodes_trans ih.node
        (Expr.mem_nodes_child (by simp) body.mem_nodes_self)
      exact ⟨hbody', ⟨_, hbody⟩, code, hcode, has_body hlower⟩

end Programs

end Code

end TurtleScript
