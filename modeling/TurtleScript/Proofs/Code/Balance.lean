import TurtleScript.Proofs.Code.Levels
import TurtleScript.Proofs.Code.Parts
import TurtleScript.Proofs.Machine.Preservation

/-!
# Balanced code

The code of an expression leaves the values of the expression's type on the operand stack and
takes nothing that was there before, on all paths through it. There is one exception: `==`
compares whatever it is given, also expressions without values, and then takes too much.
-/
namespace TurtleScript

/-- What is evaluated for a node compares an expression that has no value. -/
def Resolution.Compares (r : Resolution) (e : Expr) : Prop :=
  ∃ l left right, e.Contains (.binary l .equal left right) ∧
    (r.typeOf? left.id = some .empty ∨ r.typeOf? right.id = some .empty)

theorem Resolution.Compares.of_part {r : Resolution} {e x : Expr} (hx : x ∈ e.parts)
    (h : r.Compares x) : r.Compares e := by
  obtain ⟨l, left, right, hcontains, hempty⟩ := h
  exact ⟨l, left, right, .part hx hcontains, hempty⟩

namespace Code

open ScopeTree Semantics Machine

open Generate (operand load store elementAddress call operator)

variable {σ : Type}

/-- A call puts on the stack what the callee returns. -/
def Announces (m : Machine σ) (host : Host) (t : ScopeTree) : Prop :=
  ∀ (o : Overload) (type : Ty) (argc : Nat), t.Declares o → Yields host t o.callee type →
    m.gives host (call argc o.callee) = type.values

section Instructions

variable {m : Machine σ} {host : Host} {t : ScopeTree} {r : Resolution} {pool : Pool}
  {code : List Instr} {type : Ty}

theorem constant_lifts {value : Constant} (h : constant? pool value = some code) (low : Nat) :
    Lifts m host code low (low + 1) := by
  obtain ⟨n, -, rfl⟩ := Option.map_eq_some_iff.mp h
  exact .one low rfl rfl nofun

theorem load_lifts (place : Storage) (low : Nat) : Lifts m host [load place] low (low + 1) := by
  cases place <;> exact .one low rfl rfl nofun

theorem store_lifts (place : Storage) (low : Nat) : Lifts m host [store place] (low + 1) low := by
  cases place <;> exact .one low rfl rfl nofun

theorem drop_lifts {c : Context} {e : Expr} (h : drop? c e = some code)
    (htype : c.resolution.typeOf? e.id = some type) (low : Nat) :
    Lifts m host code (low + type.values) low := by
  obtain ⟨type', htype', rfl⟩ := Option.map_eq_some_iff.mp h
  cases htype.symm.trans htype'
  rw [Ty.values]
  split
  · exact .nil low
  · exact .one low rfl rfl nofun

theorem elementAddress_lifts (stride : Int32) (low : Nat) :
    Lifts m host (elementAddress stride) (low + 2) (low + 1) := by
  have htoInt : Lifts m host [.toInt] (low + 2) (low + 2) := .one (low + 1) rfl rfl nofun
  have hpush : Lifts m host [.pushInt stride] (low + 2) (low + 3) := .one (low + 2) rfl rfl nofun
  have hmul : Lifts m host [.intMul] (low + 3) (low + 2) := .one (low + 1) rfl rfl nofun
  have hadd : Lifts m host [.intAdd] (low + 2) (low + 1) := .one low rfl rfl nofun
  exact htoInt.append (hpush.append (hmul.append hadd))

theorem address_lifts {array index : List Instr} {low : Nat}
    (ha : Lifts m host array low (low + 1)) (hi : Lifts m host index (low + 1) (low + 2))
    (stride : Int32) : Lifts m host (array ++ index ++ elementAddress stride) low (low + 1) :=
  (ha.append hi).append (elementAddress_lifts stride low)

theorem toNat_operand {n : Nat} (h : n < 2 ^ 31) : (operand n).toInt.toNat = n := by
  rw [operand, Int32.toInt_ofNat_of_lt h, Int.toNat_natCast]

theorem call_lifts {o : Overload} {argc : Nat} (hm : Announces m host t) (ho : t.Declares o)
    (hyields : Yields host t o.callee type) (hargc : argc < 2 ^ 31) (low : Nat) :
    Lifts m host [call argc o.callee] (low + argc) (low + type.values) := by
  refine .one low ?_ (hm o type argc ho hyields) ?_
  · cases o.callee <;> exact announced_operand hargc
  · cases o.callee <;> nofun

theorem operator_lifts {c : Context} {op : BinaryOp} {left right : Ty} {i : Instr}
    (hm : Announces m host c.tree) (hwf : Wf host c.tree) (hregular : host.Regular)
    (hop : c.tree.Operates c.scope op left right type) (h : operator? c op left right = some i)
    (low : Nat) : Lifts m host [i] (low + 2) (low + type.values) := by
  rw [operator?] at h
  split at h
  case isTrue hconcat =>
    obtain ⟨o, ho, rfl⟩ := Option.map_eq_some_iff.mp h
    have htype : type = .string := by
      cases hop with
      | concat => rfl
      | arithmetic => simp at hconcat
      | comparison hmem => simp [hconcat.1] at hmem
      | logic hmem => simp [hconcat.1] at hmem
      | equal => cases hconcat.1
    subst htype
    exact call_lifts hm (resolveCall?_eq_some ho).1 (hwf.concat_yields hregular ho) (by decide) low
  case isFalse hconcat =>
    split at h
    · cases h
    · cases h
      have hvalues : type.values = 1 := by cases hop <;> rfl
      rw [hvalues]
      cases op <;> exact .one low rfl rfl (by rintro _ _ ⟨⟩)

end Instructions

section Nodes

variable (m : Machine σ) (host : Host) (t : ScopeTree) (r : Resolution) (pool : Pool)

/-- The code of a node leaves the values of the type. -/
def Raises (scope : Nat) (e : Expr) (type : Ty) : Prop :=
  ∀ ⦃code : List Instr⦄, lower pool ⟨t, r, scope⟩ e = some code →
    ∀ low, Lifts m host code low (low + type.values)

variable {m host t r pool} {scope inner : Nat} {l : Label} {e x : Expr} {es : List Expr} {type : Ty}
  {code : List Instr}

theorem all_lifts {types : Expr → Ty} (hes : ∀ x ∈ es, Raises m host t r pool scope x (types x))
    (hne : ∀ x ∈ es, types x ≠ .empty) (h : lowerAll pool ⟨t, r, scope⟩ es = some code)
    (low : Nat) : Lifts m host code low (low + es.length) := by
  induction es generalizing code low with
  | nil =>
    cases h
    exact .nil low
  | cons e es ih =>
    obtain ⟨he, hes⟩ := List.forall_mem_cons.mp hes
    obtain ⟨hee, hees⟩ := List.forall_mem_cons.mp hne
    obtain ⟨first, hfirst, h⟩ := Option.bind_eq_some_iff.mp h
    obtain ⟨rest, hrest, h⟩ := Option.bind_eq_some_iff.mp h
    cases h
    have hone := he hfirst low
    rw [Ty.values_of_ne hee] at hone
    have hall := hone.append (ih hes hees hrest (low + 1))
    rwa [Nat.add_right_comm] at hall

theorem members_lifts (hes : ∀ x ∈ es, Raises m host t r pool scope x (r.type x))
    (htypes : ∀ x ∈ es, r.typeOf? x.id = some (r.type x))
    (h : lowerMembers pool ⟨t, r, scope⟩ es = some code) (low : Nat) :
    Lifts m host code low (low + ((es.getLast?.map r.type).getD .empty).values) := by
  induction es generalizing code with
  | nil =>
    cases h
    exact .nil low
  | cons e es ih =>
    obtain ⟨he, hes⟩ := List.forall_mem_cons.mp hes
    obtain ⟨hte, htes⟩ := List.forall_mem_cons.mp htypes
    obtain ⟨first, hfirst, dropped, hdropped, rest, hrest, rfl⟩ := lowerMembers_cons_eq_some h
    cases es with
    | nil =>
      cases hdropped
      cases hrest
      rw [List.append_nil, List.append_nil]
      exact he hfirst low
    | cons x xs =>
      rw [List.getLast?_cons_cons]
      exact ((he hfirst low).append (drop_lifts hdropped hte low)).append (ih hes htes hrest)

theorem optional_lifts {o : Option Expr} (ho : ∀ x ∈ o, Raises m host t r pool scope x (r.type x))
    (htypes : ∀ x ∈ o, r.typeOf? x.id = some (r.type x))
    (h : lowerOptional pool ⟨t, r, scope⟩ o = some code) (low : Nat) :
    Lifts m host code low low := by
  cases o with
  | none =>
    cases h
    exact .nil low
  | some x =>
    obtain ⟨value, hvalue, h⟩ := Option.bind_eq_some_iff.mp h
    obtain ⟨dropped, hdropped, h⟩ := Option.bind_eq_some_iff.mp h
    cases h
    exact (ho x rfl hvalue low).append (drop_lifts hdropped (htypes x rfl) low)

theorem raises_var {name : String} {d : Option Expr} (hne : type ≠ .empty) :
    Raises m host t r pool scope (.var l name d) type := by
  intro code h low
  obtain ⟨place, -, h⟩ := Option.bind_eq_some_iff.mp h
  cases h
  rw [Ty.values_of_ne hne]
  exact load_lifts place low

theorem raises_assignVar {target : Label} {name : String} {d : Option Expr} {right : Expr}
    {source : Ty} (hne : type ≠ .empty) (hsource : source ≠ .empty)
    (hr : Raises m host t r pool scope right source) :
    Raises m host t r pool scope (.binary l .assign (.var target name d) right) type := by
  intro code h low
  obtain ⟨place, -, h⟩ := Option.bind_eq_some_iff.mp h
  obtain ⟨value, hvalue, h⟩ := Option.bind_eq_some_iff.mp h
  cases h
  have hright := hr hvalue low
  rw [Ty.values_of_ne hsource] at hright
  rw [Ty.values_of_ne hne]
  have hdup : Lifts m host [.dup] (low + 1) (low + 2) := .one low rfl rfl nofun
  exact hright.append (hdup.append (store_lifts place (low + 1)))

theorem raises_assignElement {target : Label} {array index right : Expr} {source : Ty}
    (hne : type ≠ .empty) (hsource : source ≠ .empty)
    (ha : Raises m host t r pool scope array (.array type))
    (hi : Raises m host t r pool scope index .double)
    (hr : Raises m host t r pool scope right source) :
    Raises m host t r pool scope (.binary l .assign (.element target array (some index)) right)
      type := by
  intro code h low
  obtain ⟨_, -, arrayCode, harray, indexCode, hindex, value, hvalue, rfl⟩ :=
    lower_assignElement_eq_some h
  have hright := hr hvalue (low + 1)
  rw [Ty.values_of_ne hsource] at hright
  rw [Ty.values_of_ne hne]
  have haddress := address_lifts (ha harray low) (hi hindex (low + 1))
  exact ((haddress _).append hright).append (.one low rfl rfl nofun)

theorem raises_operator {op : BinaryOp} {left right : Expr} {a b : Ty}
    (hm : Announces m host t) (hwf : Wf host t) (hregular : host.Regular)
    (hop : t.Operates scope op a b type) (ha : r.typeOf? left.id = some a)
    (hb : r.typeOf? right.id = some b) (hvalues : a ≠ .empty ∧ b ≠ .empty)
    (hl : Raises m host t r pool scope left a) (hr : Raises m host t r pool scope right b) :
    Raises m host t r pool scope (.binary l op left right) type := by
  intro code h low
  obtain ⟨leftCode, hleft, rightCode, hright, _, hleftType, _, hrightType, i, hi, rfl⟩ :=
    lower_operator_eq_some hop.ne_assign h
  cases ha.symm.trans hleftType
  cases hb.symm.trans hrightType
  have hfirst := hl hleft low
  have hsecond := hr hright (low + 1)
  rw [Ty.values_of_ne hvalues.1] at hfirst
  rw [Ty.values_of_ne hvalues.2] at hsecond
  exact (hfirst.append hsecond).append (operator_lifts hm hwf hregular hop hi low)

theorem raises_block {body : List Expr} (hscope : t.scopeOf? l.id = some inner)
    (htypes : ∀ x ∈ body, r.typeOf? x.id = some (r.type x))
    (hb : ∀ x ∈ body, Raises m host t r pool inner x (r.type x)) :
    Raises m host t r pool scope (.block l body) ((body.getLast?.map r.type).getD .empty) := by
  intro code h low
  obtain ⟨c, hc, h⟩ := Option.bind_eq_some_iff.mp h
  cases within_eq_some hc hscope
  exact members_lifts hb htypes h low

theorem raises_ifElse {condition branch other : Expr}
    (hc : Raises m host t r pool scope condition .boolean)
    (hb : Raises m host t r pool scope branch type)
    (ho : Raises m host t r pool scope other type) :
    Raises m host t r pool scope (.cond l condition branch (some other)) type := by
  intro code h low
  obtain ⟨_, -, h⟩ := Option.bind_eq_some_iff.mp h
  obtain ⟨test, htest, h⟩ := Option.bind_eq_some_iff.mp h
  obtain ⟨yes, hyes, h⟩ := Option.bind_eq_some_iff.mp h
  obtain ⟨no, hno, h⟩ := Option.bind_eq_some_iff.mp h
  cases h
  exact (hc htest low).branch (hb hyes low) (ho hno low)

/-- Where there is no other branch, a default takes the place of the value. -/
theorem raises_ifThen {condition branch : Expr} (htype : r.typeOf? l.id = some type)
    (hc : Raises m host t r pool scope condition .boolean)
    (hb : Raises m host t r pool scope branch type) :
    Raises m host t r pool scope (.cond l condition branch none) type := by
  intro code h low
  obtain ⟨_, htype', h⟩ := Option.bind_eq_some_iff.mp h
  obtain ⟨test, htest, h⟩ := Option.bind_eq_some_iff.mp h
  obtain ⟨yes, hyes, h⟩ := Option.bind_eq_some_iff.mp h
  cases h
  cases htype.symm.trans htype'
  have hbranch := hb hyes low
  rw [orDefault]
  rw [Ty.values] at hbranch ⊢
  split
  case isTrue hempty =>
    rw [if_pos hempty] at hbranch
    exact (hc htest low).skip hbranch
  case isFalse hempty =>
    rw [if_neg hempty] at hbranch
    exact (hc htest low).branch hbranch (.one low rfl rfl (by rintro _ _ ⟨⟩))

theorem round_lifts {c : Context} {body : Expr} {bodyCode dropped : List Instr}
    (htype : c.resolution.typeOf? body.id = some type) (hdropped : drop? c body = some dropped)
    {low : Nat} (hb : Lifts m host bodyCode low (low + type.values)) :
    Lifts m host (bodyCode ++ dropped) low low :=
  hb.append (drop_lifts hdropped htype low)

theorem raises_forLoop {init condition step : Option Expr} {body : Expr}
    (hscope : t.scopeOf? l.id = some inner)
    (hi : ∀ x ∈ init, Raises m host t r pool inner x (r.type x))
    (hit : ∀ x ∈ init, r.typeOf? x.id = some (r.type x))
    (hc : ∀ x ∈ condition, Raises m host t r pool inner x .boolean)
    (hs : ∀ x ∈ step, Raises m host t r pool inner x (r.type x))
    (hst : ∀ x ∈ step, r.typeOf? x.id = some (r.type x))
    (hb : Raises m host t r pool inner body type) (hbt : r.typeOf? body.id = some type) :
    Raises m host t r pool scope (.forLoop l init condition step body) .empty := by
  intro code h low
  obtain ⟨c, hcontext, initCode, hinit, bodyCode, hbody, dropped, hdropped, stepCode, hstep, kind,
    test, htest, rfl⟩ := lower_forLoop_eq_some h
  cases within_eq_some hcontext hscope
  have hround := (round_lifts hbt hdropped (hb hbody low)).append (optional_lifts hs hst hstep low)
  refine (optional_lifts hi hit hinit low).append (hround.loop ?_)
  cases htest with
  | none => exact .nil low
  | some htest => exact hc _ rfl htest low

theorem raises_forTo {counter start bound body : Expr} {direction : Direction}
    (hscope : t.scopeOf? l.id = some inner) (hs : Raises m host t r pool inner start .double)
    (ht : Raises m host t r pool inner bound .double) (hb : Raises m host t r pool inner body type)
    (hbt : r.typeOf? body.id = some type) :
    Raises m host t r pool scope (.forTo l counter start bound direction body) .empty := by
  intro code h low
  obtain ⟨c, hcontext, place, -, startCode, hstart, bodyCode, hbody, dropped, hdropped, one, hone,
    boundCode, hbound, rfl⟩ := lower_forTo_eq_some h
  cases within_eq_some hcontext hscope
  have hcount : Lifts m host [.arith (if direction = .up then .add else .sub)]
      (low + 2) (low + 1) := .one low rfl rfl nofun
  have hcompare : Lifts m host [.compare (if direction = .up then .gt else .lt)]
      (low + 2) (low + 1) := .one low rfl rfl nofun
  have hround := (((round_lifts hbt hdropped (hb hbody low)).append (load_lifts place low)).append
    (constant_lifts hone (low + 1))).append (hcount.append (store_lifts place low))
  have htest := ((load_lifts place low).append (ht hbound (low + 1))).append hcompare
  exact ((hs hstart low).append (store_lifts place low)).append (hround.loop htest)

theorem raises_forIn {item iterable body : Expr} {element : Ty}
    (hscope : t.scopeOf? l.id = some inner)
    (hi : Raises m host t r pool inner iterable (.array element))
    (hb : Raises m host t r pool inner body type) (hbt : r.typeOf? body.id = some type) :
    Raises m host t r pool scope (.forIn l item iterable body) .empty := by
  intro code h low
  obtain ⟨c, hcontext, slots, -, place, -, itemType, -, array, -, index, -, iterableCode, hiterable,
    zero, hzero, bodyCode, hbody, dropped, hdropped, one, hone, rfl⟩ := lower_forIn_eq_some h
  cases within_eq_some hcontext hscope
  have hstart := (((hi hiterable low).append (store_lifts array low)).append
    (constant_lifts hzero low)).append (store_lifts index low)
  have hget : Lifts m host [.getField TypeDef.payloadField itemType.size.toInt32]
      (low + 1) (low + 1) := .one low rfl rfl nofun
  have hadd : Lifts m host [.arith .add] (low + 2) (low + 1) := .one low rfl rfl nofun
  have hlength : Lifts m host [.length] (low + 2) (low + 2) := .one (low + 1) rfl rfl nofun
  have hcompare : Lifts m host [.compare .lt] (low + 2) (low + 1) := .one low rfl rfl nofun
  have hitem := (address_lifts (load_lifts array low) (load_lifts index (low + 1))
    itemType.size.toInt32).append (hget.append (store_lifts place low))
  have hround := ((((hitem.append (hb hbody low)).append (drop_lifts hdropped hbt low)).append
    (load_lifts index low)).append (constant_lifts hone (low + 1))).append
      (hadd.append (store_lifts index low))
  have htest := (load_lifts index low).append <| (load_lifts array (low + 1)).append <|
    hlength.append hcompare
  exact hstart.append (hround.loop htest)

theorem raises_whileLoop {condition body : Expr}
    (hc : Raises m host t r pool scope condition .boolean)
    (hb : Raises m host t r pool scope body type) (hbt : r.typeOf? body.id = some type) :
    Raises m host t r pool scope (.whileLoop l condition body) .empty := by
  intro code h low
  obtain ⟨bodyCode, hbody, dropped, hdropped, test, htest, rfl⟩ := lower_whileLoop_eq_some h
  exact (round_lifts hbt hdropped (hb hbody low)).loop (hc htest low)

theorem raises_repeatUntil {body condition : Expr} (hb : Raises m host t r pool scope body type)
    (hbt : r.typeOf? body.id = some type)
    (hc : Raises m host t r pool scope condition .boolean) :
    Raises m host t r pool scope (.repeatUntil l body condition) .empty := by
  intro code h low
  obtain ⟨bodyCode, hbody, dropped, hdropped, test, htest, rfl⟩ := lower_repeatUntil_eq_some h
  exact ((round_lifts hbt hdropped (hb hbody low)).append (hc htest low)).again

theorem raises_call {name : String} {args : List Expr} {o : Overload} (hm : Announces m host t)
    (hwf : Wf host t) (hregular : host.Regular) (hargc : args.length < 2 ^ 31)
    (htypes : ∀ x ∈ args, r.typeOf? x.id = some (r.type x))
    (ho : t.resolveCall? scope name (args.map r.type) = some o)
    (hyields : Yields host t o.callee type)
    (ha : ∀ x ∈ args, Raises m host t r pool scope x (r.type x)) :
    Raises m host t r pool scope (.call l name args) type := by
  intro code h low
  obtain ⟨argsCode, hargs, types, htypes', o', ho', rfl⟩ := lower_call_eq_some h
  cases (r.mapM_typeOf? htypes).symm.trans htypes'
  cases ho.symm.trans ho'
  obtain ⟨hdeclares, hparams, -⟩ := resolveCall?_eq_some ho
  have hne (x : Expr) (hx : x ∈ args) : r.type x ≠ .empty :=
    hwf.params_ne_empty hregular hdeclares _ (hparams ▸ List.mem_map_of_mem hx)
  exact (all_lifts ha hne hargs low).append (call_lifts hm hdeclares hyields hargc low)

theorem raises_ret {value : Option Expr} (hv : ∀ x ∈ value, Raises m host t r pool scope x (r.type x))
    (htypes : ∀ x ∈ value, r.typeOf? x.id = some (r.type x)) :
    Raises m host t r pool scope (.ret l value) .empty := by
  intro code h low
  cases value with
  | none =>
    cases h
    exact .ret (Nat.zero_le _) low
  | some x =>
    obtain ⟨valueCode, hvalue, h⟩ := Option.bind_eq_some_iff.mp h
    obtain ⟨_, htype, h⟩ := Option.bind_eq_some_iff.mp h
    cases h
    cases (htypes x rfl).symm.trans htype
    refine (hv x rfl hvalue low).append (.ret ?_ low)
    rw [Ty.values]
    split
    · exact Nat.zero_le _
    · exact Nat.le_add_left ..

theorem raises_element {array index : Expr} (hne : type ≠ .empty)
    (ha : Raises m host t r pool scope array (.array type))
    (hi : Raises m host t r pool scope index .double) :
    Raises m host t r pool scope (.element l array (some index)) type := by
  intro code h low
  obtain ⟨_, -, arrayCode, harray, indexCode, hindex, rfl⟩ := lower_element_eq_some h
  rw [Ty.values_of_ne hne]
  have haddress := address_lifts (ha harray low) (hi hindex (low + 1))
  exact (haddress _).append (.one low rfl rfl nofun)

theorem raises_array {elements : List Expr} (hcount : elements.length < 2 ^ 31)
    (hne : elements = [] ↔ type = .empty)
    (he : ∀ x ∈ elements, Raises m host t r pool scope x type) :
    Raises m host t r pool scope (.array l elements) (.array type) := by
  intro code h low
  obtain ⟨elementsCode, helements, h⟩ := Option.bind_eq_some_iff.mp h
  obtain ⟨found, -, h⟩ := Option.bind_eq_some_iff.mp h
  cases found with
  | array element =>
    cases h
    have hvalued (x : Expr) (hx : x ∈ elements) : type ≠ .empty := by
      intro hempty
      rw [hne.mpr hempty] at hx
      cases hx
    exact (all_lifts he hvalued helements low).append
      (.one low (toNat_operand hcount) rfl nofun)
  | _ => cases h

/-- A variable has a value, unless the host has one of the type without values. -/
theorem var_ne_empty {here : Position} {name : String} (hwf : Wf host t) (hregular : host.Regular)
    (h : t.HasVar here name type) : type ≠ .empty := by
  rintro rfl
  obtain ⟨id, v, -, hv, -, -, hempty⟩ := h
  obtain ⟨n, hglobal⟩ := hwf.valued id v hv (hempty rfl)
  obtain ⟨g, hg, htype⟩ := hwf.global_of hv hglobal
  exact hregular.globals g (List.mem_of_getElem? hg)
    (Option.some.inj (htype.symm.trans (hempty rfl)))

/-- The code of a typed node leaves the values of its type. -/
theorem raises (hm : Announces m host t) (hwf : Wf host t) (hregular : host.Regular) (e : Expr) :
    ∀ ⦃here : Position⦄ ⦃type : Ty⦄, Typed host t r here e type →
      (∀ y ∈ e.nodes, y.children.length < 2 ^ 31) → ¬ r.Compares e →
        Raises m host t r pool here.scope e type := by
  induction e using Expr.parts_induction with
  | step e ih =>
  intro here type htyped hcount hcompares
  have part {x : Expr} (hx : x ∈ e.parts) {here : Position} {type : Ty}
      (htyped : Typed host t r here x type) : Raises m host t r pool here.scope x type :=
    ih x hx htyped (fun y hy => hcount y (Expr.mem_nodes_part hx hy))
      fun h => hcompares (h.of_part hx)
  have hlength : e.children.length < 2 ^ 31 := hcount e e.mem_nodes_self
  cases htyped with
  | @constant _ _ value =>
    have hvalues : value.type.values = 1 := by cases value <;> rfl
    exact fun code h low => hvalues ▸ constant_lifts h low
  | var _ hvar => exact raises_var (var_ne_empty hwf hregular hvar)
  | @assign _ _ left right _ _ _ htarget hleft hright haccepts =>
    cases hleft with
    | var _ hvar =>
      have hne := var_ne_empty hwf hregular hvar
      exact raises_assignVar hne (ne_empty_of_accepts haccepts hne)
        (part (by simp [Expr.parts]) hright)
    | element _ hne harray hindex =>
      exact raises_assignElement hne (ne_empty_of_accepts haccepts hne)
        (part (by simp [Expr.parts]) harray) (part (by simp [Expr.parts]) hindex)
        (part (by simp [Expr.parts]) hright)
    | _ => cases htarget
  | @operator _ _ op left right a b _ _ hleft hright hop =>
    rw [Expr.parts_operator hop.ne_assign] at part
    have hvalues := hop.operands_ne_empty fun hequal => by
      subst hequal
      constructor
      · rintro rfl
        exact hcompares ⟨_, left, right, .self _, .inl hleft.typeOf?⟩
      · rintro rfl
        exact hcompares ⟨_, left, right, .self _, .inr hright.typeOf?⟩
    exact raises_operator hm hwf hregular hop hleft.typeOf? hright.typeOf? hvalues
      (part (by simp) hleft) (part (by simp) hright)
  | function =>
    intro code h low
    cases h
    exact .nil low
  | block _ hscope hbody =>
    exact raises_block hscope (fun x hx => (hbody x hx).typeOf?)
      fun x hx => part hx (hbody x hx)
  | ifThen htype hc hb =>
    exact raises_ifThen htype (part (by simp [Expr.parts]) hc)
      (part (by simp [Expr.parts]) hb)
  | ifElse _ hc hb ho =>
    exact raises_ifElse (part (by simp [Expr.parts]) hc)
      (part (by simp [Expr.parts]) hb)
      (part (by simp [Expr.parts]) ho)
  | forLoop _ hscope hi hc hs hb =>
    have hpart {x : Expr} {o : Option Expr} (hx : x ∈ o) : o = some x := hx
    exact raises_forLoop hscope
      (fun x hx => part (by simp [Expr.parts, hpart hx]) (hi x hx))
      (fun x hx => (hi x hx).typeOf?)
      (fun x hx => part (by simp [Expr.parts, hpart hx]) (hc x hx))
      (fun x hx => part (by simp [Expr.parts, hpart hx]) (hs x hx))
      (fun x hx => (hs x hx).typeOf?)
      (part (by simp [Expr.parts]) hb) hb.typeOf?
  | forTo _ hscope _ hs ht hb =>
    exact raises_forTo hscope (part (by simp [Expr.parts]) hs) (part (by simp [Expr.parts]) ht)
      (part (by simp [Expr.parts]) hb) hb.typeOf?
  | forIn _ hscope _ _ _ hi hb =>
    exact raises_forIn hscope (part (by simp [Expr.parts]) hi) (part (by simp [Expr.parts]) hb)
      hb.typeOf?
  | whileLoop _ hc hb =>
    exact raises_whileLoop (part (by simp [Expr.parts]) hc)
      (part (by simp [Expr.parts]) hb) hb.typeOf?
  | repeatUntil _ hb hc =>
    exact raises_repeatUntil (part (by simp [Expr.parts]) hb) hb.typeOf?
      (part (by simp [Expr.parts]) hc)
  | call _ ha ho hyields =>
    exact raises_call hm hwf hregular hlength (fun x hx => (ha x hx).typeOf?) ho hyields
      fun x hx => part hx (ha x hx)
  | ret _ _ hv =>
    exact raises_ret (fun x hx => part (by simpa [Expr.parts] using hx) (hv x hx))
      fun x hx => (hv x hx).typeOf?
  | paren _ hx =>
    have hinner := part List.mem_cons_self hx
    exact fun _ h => hinner h
  | element _ hne harray hindex =>
    exact raises_element hne (part (by simp [Expr.parts]) harray)
      (part (by simp [Expr.parts]) hindex)
  | array _ hne he => exact raises_array hlength hne fun x hx => part hx (he x hx)

end Nodes

theorem id_eq_empty_iff {type : Ty} : type.id = Ty.empty.id ↔ type = .empty := by
  cases type <;> simp [Ty.id, Ty.kind, Kind.id, Kind.tag]

theorem Compiles.announces {host : Host} {p : Program} {t : ScopeTree} {r : Resolution}
    {g : Generated} {o : Options} (h : Compiles host p t r g) (hfits : Fits host p (t.link g o))
    (natives : Array (Native σ)) : Announces ⟨t.link g o, natives⟩ host t := by
  intro overload type argc _ hyields
  cases hcallee : overload.callee with
  | native index =>
    rw [hcallee] at hyields
    obtain ⟨n, hn, rfl⟩ := hyields
    have hlt := Nat.lt_trans (List.getElem?_eq_some_iff.mp hn).1 hfits.natives
    simp only [Generate.call, gives, index?_operand hlt, Option.bind_some, hn, Option.map_some,
      Option.getD_some]
  | script id =>
    rw [hcallee] at hyields
    obtain ⟨f, hf, htype⟩ := hyields
    obtain ⟨code, -, hd⟩ := h.function (o := o) hf
    have hreturn : (t.functionDef f code).returnType = type.id := by rw [functionDef, htype]; rfl
    simp only [Generate.call, gives, h.callee hfits hd, Option.map_some, Option.getD_some, hreturn,
      id_eq_empty_iff, Ty.values, Ty.isEmpty, decide_eq_true_eq]

/-- In a compiled program, the code of every node that is evaluated is in the code of its
function, and balanced there, unless the node compares an expression that has no value. -/
theorem compile_balanced (body : Expr) (host : Host) (o : Options) (cancelled : Cancellation)
    (natives : Array (Native σ)) {c : Compiled} {r : Resolution} {t : ScopeTree} {g : Generated}
    (hcompile : (Program.ofExpr body).compile host o cancelled = .ok c)
    (hresolve : (build (.ofExpr body) host).tree.resolve (.ofExpr body) host cancelled = (.ok r, t))
    (hgenerate : t.generate (.ofExpr body) r = .ok g) (hfits : Fits host (.ofExpr body) c.module)
    (hregular : host.Regular) {here : Position} {e : Expr}
    (hstands : t.Stands (.ofExpr body) here e) (hcompares : ¬ r.Compares e) :
    ∃ f code type, c.module.functions[here.function]? = some f ∧
      lower g.pool ⟨t, r, here.scope⟩ e = some code ∧ r.typeOf? e.id = some type ∧
      code <:+: f.code.toList ∧ ∀ before rest, f.code.toList = before ++ code ++ rest →
        Balanced ⟨c.module, natives⟩ host f.code before.length (before.length + code.length)
          type := by
  obtain ⟨t', r', g', hresolve', h, rfl⟩ := compile_eq_ok hcompile
  cases hresolve.symm.trans hresolve'
  cases hgenerate.symm.trans h.code
  obtain ⟨hnode, ⟨type, htyped⟩, whole, hwhole, code, hcode, hinfix⟩ := h.settled hstands
  obtain ⟨hsize, -⟩ := generate_eq_ok h.code
  obtain ⟨record, hrecord⟩ : ∃ record, t.functions[here.function]? = some record :=
    ⟨_, Array.getElem?_eq_getElem (hsize ▸ (Array.getElem?_eq_some_iff.mp hwhole).1)⟩
  have hf : (t.link g o).functions[here.function]? = some (t.functionDef record whole) :=
    Compiles.function_iff.mpr ⟨record, whole, hrecord, hwhole, rfl⟩
  have hcount (y : Expr) (hy : y ∈ e.nodes) : y.children.length < 2 ^ 31 :=
    h.children_lt hfits (Expr.mem_nodes_trans hnode hy)
  have hlifts := raises (h.announces hfits natives) h.built.toWf hregular e htyped hcount hcompares
    hcode 0
  have hshort : code.length < 2 ^ 31 :=
    Nat.lt_of_le_of_lt hinfix.length_le (hfits.code _ (Array.mem_of_getElem? hf))
  refine ⟨_, code, type, hf, hcode, htyped.typeOf?, hinfix, fun before rest hsplit => ?_⟩
  rw [Nat.zero_add] at hlifts
  exact hlifts.balanced hsplit hshort

theorem comparesNothing_of_compares {r : Resolution} {e : Expr} (h : r.Compares e) :
    ComparesNothing r e := by
  obtain ⟨l, left, right, hcontains, hempty⟩ := h
  exact ⟨l, left, right, hcontains.mem_nodes, hempty⟩

theorem compile_balanced_summing : ∃ (c : Compiled) (r : Resolution) (t : ScopeTree) (g : Generated)
    (f : FunctionDef) (code : List Instr) (type : Ty),
    (Program.ofExpr summing).compile summingHost {} false = .ok c ∧
    c.module.functions[0]? = some f ∧
    lower g.pool ⟨t, r, t.program⟩ (Program.ofExpr summing).body = some code ∧
    r.typeOf? (Program.ofExpr summing).body.id = some type ∧
    ∃ before rest, f.code.toList = before ++ code ++ rest ∧
      Balanced ⟨c.module, #[remember]⟩ summingHost f.code before.length
        (before.length + code.length) type := by
  obtain ⟨c, r, t, hcompile, hresolve, hfits⟩ := summing_compiles
  obtain ⟨t', r', g, hresolve', h, -⟩ := compile_eq_ok hcompile
  cases hresolve.symm.trans hresolve'
  obtain ⟨f, code, type, hf, hcode, htype, ⟨before, rest, hsplit⟩, hbalanced⟩ :=
    compile_balanced summing summingHost {} false #[remember] hcompile hresolve h.code hfits
      summing_regular .program fun hc => summing_compares r (comparesNothing_of_compares hc)
  exact ⟨c, r, t, g, f, code, type, hcompile, hf, hcode, htype, before, rest, hsplit.symm,
    hbalanced before rest hsplit.symm⟩

/-- Compares what a native returns that returns nothing. -/
def comparing : Expr :=
  .binary {} .equal (.call {} "log" []) (.constant {} (.number .one))

def comparingHost : Host where
  globals := []
  natives := [⟨"log", [], .empty⟩]

def silent : Native Unit := fun _ heap host => (.ok none, heap, host)

theorem comparingHost_regular : comparingHost.Regular where
  globals := nofun
  params := by decide
  concat := by decide +kernel

/-- The call leaves nothing and the constant one value, of which the comparison takes two. -/
theorem comparing_path (m : Machine σ) :
    ¬ Balanced m comparingHost #[.callNative 0 0, .loadConst 0, .eq, .pop, .ret 0] 0 3
      .boolean := by
  intro h
  have hcalled : Path m comparingHost #[.callNative 0 0, .loadConst 0, .eq, .pop, .ret 0] 0 3
      (1 : Nat) 0 :=
    Path.enter.step (i := .callNative 0 0) (by decide) (by decide) rfl (by decide)
  have hloaded : Path m comparingHost #[.callNative 0 0, .loadConst 0, .eq, .pop, .ret 0] 0 3
      (2 : Nat) 1 :=
    hcalled.step (i := .loadConst 0) (by decide) (by decide) rfl (by decide)
  have htaken := h.above 2 1 .eq hloaded (by decide) rfl
  exact absurd htaken (by decide)

/-- The program is accepted, but the comparison takes two values where there is one. -/
theorem comparing_unbalanced : ∃ c r t g f code,
    (Program.ofExpr comparing).compile comparingHost {} false = .ok c ∧
    (build (.ofExpr comparing) comparingHost).tree.resolve (.ofExpr comparing) comparingHost false =
      (.ok r, t) ∧
    t.generate (.ofExpr comparing) r = .ok g ∧ Fits comparingHost (.ofExpr comparing) c.module ∧
    comparingHost.Regular ∧ c.module.functions[0]? = some f ∧
    lower g.pool ⟨t, r, t.program⟩ (Program.ofExpr comparing).body = some code ∧
    r.typeOf? (Program.ofExpr comparing).body.id = some .boolean ∧
    f.code.toList = code ++ [.pop, .ret 0] ∧
    ¬ Balanced ⟨c.module, #[silent]⟩ comparingHost f.code 0 code.length .boolean ∧
    (Machine.run ⟨c.module, #[silent]⟩ 100 #[] {} ()).1 =
      .stopped (.fault (.stackUnderflow .eq)) := by
  have hfacts : ((Program.ofExpr comparing).compile comparingHost {} false).toOption.any (fun c =>
      countable c.module && decide (c.programType = .boolean) &&
      decide (c.module.functions[0]?.map (·.code) =
        some #[.callNative 0 0, .loadConst 0, .eq, .pop, .ret 0]) &&
      decide ((Machine.run ⟨c.module, #[silent]⟩ 100 #[] {} ()).1 =
        .stopped (.fault (.stackUnderflow .eq)))) = true := by decide +kernel
  cases hcompile : (Program.ofExpr comparing).compile comparingHost {} false with
  | error d =>
    rw [hcompile] at hfacts
    cases hfacts
  | ok c =>
    simp only [hcompile, Except.toOption, Option.any_some, Bool.and_eq_true,
      decide_eq_true_eq] at hfacts
    obtain ⟨⟨⟨hcount, htype⟩, hcode⟩, hrun⟩ := hfacts
    obtain ⟨f, hf, hwhole⟩ := Option.map_eq_some_iff.mp hcode
    obtain ⟨t, r, g, hresolve, h, rfl⟩ := compile_eq_ok hcompile
    have htyped : r.typeOf? (Program.ofExpr comparing).body.id = some .boolean :=
      htype ▸ h.typed.typeOf?
    obtain ⟨record, code, -, hbody, rfl⟩ := Compiles.function_iff.mp hf
    obtain ⟨-, hcodes⟩ := generate_eq_ok h.code
    obtain ⟨front, hfront, hrest⟩ := Option.bind_eq_some_iff.mp ((hcodes _ _ hbody).1 rfl)
    obtain ⟨_, htyped', hrest⟩ := Option.bind_eq_some_iff.mp hrest
    cases htyped.symm.trans htyped'
    obtain rfl : code = #[.callNative 0 0, .loadConst 0, .eq, .pop, .ret 0] := hwhole
    have hsplit : front ++ [.pop, .ret 0] =
        [.callNative 0 0, .loadConst 0, .eq] ++ [.pop, .ret 0] := Option.some.inj hrest
    obtain rfl := List.append_cancel_right hsplit
    exact ⟨_, r, t, g, _, _, rfl, hresolve, h.code,
      fits_of_countable hcount (by decide +kernel) (by decide) (by decide),
      comparingHost_regular, hf, hfront, htyped, rfl, comparing_path _, hrun⟩

end Code

end TurtleScript
