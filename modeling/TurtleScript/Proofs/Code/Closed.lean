import TurtleScript.Proofs.Code.Parts

/-!
# Compiled modules are closed

Every number in the code of a module is the number of something that is there: a constant, a
slot of the function at hand, a global or a native of the host, a function of the module, a type
of the catalogue. Every jump stays inside the code, which ends with a return.
-/
namespace TurtleScript

/-- The operand that stands for a number: the number itself, if it is small enough. -/
def Stands (op : Int32) (n : Nat) : Prop := op = Int32.ofNat n ∧ (n < 2 ^ 31 → op.toInt = n)

/-- The operand is the number of one of `count` things. -/
def Below (op : Int32) (count : Nat) : Prop := ∃ n, n < count ∧ Stands op n

namespace Module

/-- The operands of an instruction in `f` are numbers of what the module and the host have. -/
def Names (host : Host) (m : Module) (f : FunctionDef) : Instr → Prop
  | .loadConst op => Below op m.constants.size
  | .loadLocal op | .storeLocal op => Below op f.slots.length
  | .loadGlobal op | .storeGlobal op => Below op host.globals.length
  | .call id argc => ∃ n g, m.functions[n]? = some g ∧ Stands id n ∧ Stands argc g.paramCount.toNat
  | .callNative index argc => ∃ n s, host.natives[n]? = some s ∧ Stands index n ∧
      Stands argc s.params.length
  | .pushDefault type | .newArray _ type => (m.type? type.toUInt32).isSome
  | .getField field stride | .setField field stride => field = 2 ∧ 0 < stride
  | _ => True

/-- Function number `i` of the module is closed. -/
structure Closed (host : Host) (m : Module) (i : Nat) (f : FunctionDef) : Prop where
  id : f.id.toNat = i % 2 ^ 32
  params : f.paramCount.toNat ≤ f.slots.length
  last : ∃ count, f.code.back? = some (.ret count)
  jumps : ∀ (k : Nat) (kind : JumpKind) (delta : Int32), f.code[k]? = some (.jump kind delta) →
    0 ≤ k + delta.toInt ∧ k + delta.toInt < f.code.size
  operands : ∀ instr ∈ f.code, m.Names host f instr

end Module

theorem stands_ofNat (n : Nat) : Stands (Int32.ofNat n) n :=
  ⟨rfl, fun h => Int32.toInt_ofNat_of_lt h⟩

namespace Code

open ScopeTree Semantics

open Generate (operand load store elementAddress call operator)

/-- Code whose jumps end in it or right behind it, and whose instructions are fine. -/
structure Inside (fine : Instr → Prop) (code : List Instr) : Prop where
  instrs : ∀ i ∈ code, fine i
  jumps : ∀ (k : Nat) (kind : JumpKind) (delta : Int32), code[k]? = some (.jump kind delta) →
    ∃ target, target ≤ code.length ∧ delta = distance ((target : Int) - k)

namespace Inside

variable {fine : Instr → Prop} {xs ys code : List Instr} {kind : JumpKind} {n : Nat}

theorem nil : Inside fine [] := ⟨nofun, nofun⟩

theorem append (hx : Inside fine xs) (hy : Inside fine ys) : Inside fine (xs ++ ys) where
  instrs := by
    intro i hi
    rcases List.mem_append.mp hi with hi | hi
    · exact hx.instrs i hi
    · exact hy.instrs i hi
  jumps := by
    intro k kind delta hk
    rw [List.length_append]
    by_cases hlt : k < xs.length
    · rw [List.getElem?_append_left hlt] at hk
      obtain ⟨target, hle, rfl⟩ := hx.jumps k kind delta hk
      exact ⟨target, by omega, rfl⟩
    · rw [List.getElem?_append_right (by omega)] at hk
      obtain ⟨target, hle, rfl⟩ := hy.jumps _ kind delta hk
      exact ⟨xs.length + target, by omega, by congr 1; omega⟩

/-- An instruction that is no jump. -/
theorem one {i : Instr} (hi : fine i) (hjump : ∀ kind delta, i ≠ .jump kind delta) :
    Inside fine [i] where
  instrs := by
    intro j hj
    cases List.mem_singleton.mp hj
    exact hi
  jumps := by
    intro k kind delta hk
    cases List.mem_singleton.mp (List.mem_of_getElem? hk)
    exact absurd rfl (hjump kind delta)

/-- A jump ahead. -/
theorem ahead (hfine : ∀ delta, fine (.jump kind delta)) (h : Inside fine code)
    (hn : n ≤ code.length + 1) : Inside fine (.jump kind (distance n) :: code) where
  instrs := List.forall_mem_cons.mpr ⟨hfine _, h.instrs⟩
  jumps := by
    intro k kind' delta hk
    cases k with
    | zero =>
      cases hk
      exact ⟨n, hn, by simp⟩
    | succ k =>
      obtain ⟨target, hle, rfl⟩ := h.jumps k kind' delta hk
      exact ⟨target + 1, Nat.succ_le_succ hle, by congr 1; omega⟩

/-- A jump back. -/
theorem back (hfine : ∀ delta, fine (.jump kind delta)) (h : Inside fine code)
    (hn : n ≤ code.length) : Inside fine (code ++ [.jump kind (distance (-n))]) where
  instrs := by
    intro i hi
    rcases List.mem_append.mp hi with hi | hi
    · exact h.instrs i hi
    · cases List.mem_singleton.mp hi
      exact hfine _
  jumps := by
    intro k kind' delta hk
    rw [List.length_append, List.length_singleton]
    by_cases hlt : k < code.length
    · rw [List.getElem?_append_left hlt] at hk
      obtain ⟨target, hle, rfl⟩ := h.jumps k kind' delta hk
      exact ⟨target, by omega, rfl⟩
    · obtain rfl : k = code.length := by
        have := (List.getElem?_eq_some_iff.mp hk).1
        rw [List.length_append, List.length_singleton] at this
        omega
      rw [List.getElem?_concat_length] at hk
      cases hk
      exact ⟨code.length - n, by omega, by congr 1; omega⟩

variable {test yes no body : List Instr}

theorem branch (hfine : ∀ kind delta, fine (.jump kind delta)) (ht : Inside fine test)
    (hy : Inside fine yes) (hn : Inside fine no) : Inside fine (Code.branch test yes no) := by
  have hstop : Inside fine (.jump .always (distance (no.length + 1 : Nat)) :: no) :=
    ahead (hfine _) hn (Nat.le_refl _)
  refine ht.append (ahead (n := yes.length + 2) (hfine _) (hy.append hstop) ?_)
  simp only [List.length_append, List.length_cons]
  omega

theorem skip (hfine : ∀ kind delta, fine (.jump kind delta)) (ht : Inside fine test)
    (hy : Inside fine yes) : Inside fine (Code.skip test yes) :=
  ht.append (ahead (n := yes.length + 1) (hfine _) hy (Nat.le_refl _))

theorem loop (hfine : ∀ kind delta, fine (.jump kind delta)) (hb : Inside fine body)
    (ht : Inside fine test) : Inside fine (Code.loop kind body test) := by
  have hround := back (n := body.length + test.length) (hfine kind) (hb.append ht)
    (Nat.le_of_eq List.length_append.symm)
  rw [Code.loop, ← List.append_assoc]
  refine ahead (n := body.length + 1) (hfine _) hround ?_
  simp only [List.length_append]
  omega

theorem again (hfine : ∀ kind delta, fine (.jump kind delta)) (hb : Inside fine body) :
    Inside fine (Code.again body) := back (hfine _) hb (Nat.le_refl _)

end Inside

/-- What the module has of the tree, seen from its function number `function`. -/
structure Provides (t : ScopeTree) (pool : Pool) (m : Module) (function : Nat) (f : FunctionDef) :
    Prop where
  constants : m.constants.size = pool.values.length
  types : m.types = TypeDef.catalogue
  slots : ∀ record, t.functions[function]? = some record → f.slots.length = record.slots.length
  functions : ∀ (n : Nat) (record : FunctionRecord), t.functions[n]? = some record →
    ∃ g, m.functions[n]? = some g ∧ g.paramCount = UInt32.ofNat record.paramCount

section Instructions

variable {host : Host} {t : ScopeTree} {r : Resolution} {pool : Pool} {m : Module}
  {function : Nat} {f : FunctionDef} {code : List Instr}

theorem names_jump (kind : JumpKind) (delta : Int32) : m.Names host f (.jump kind delta) := trivial

/-- A variable that the function can reach. -/
theorem names_place (hp : Provides t pool m function f) (hlayout : Layout host t) {id : Nat}
    {v : Variable} (hv : t.vars[id]? = some v)
    (hown : ∀ owner n, v.storage = .slot owner n → owner = function) :
    m.Names host f (load v.storage) ∧ m.Names host f (store v.storage) := by
  have hstored := hlayout.stored id v hv
  rw [Stored] at hstored
  cases hplace : v.storage with
  | global n =>
    rw [hplace] at hstored
    obtain ⟨g, hg, -⟩ := hstored
    have hbelow : Below (operand n) host.globals.length :=
      ⟨n, (List.getElem?_eq_some_iff.mp hg).1, stands_ofNat n⟩
    exact ⟨hbelow, hbelow⟩
  | slot owner n =>
    rw [hplace] at hstored
    obtain ⟨record, slot, hrecord, hslot, -⟩ := hstored
    cases hown owner n hplace
    have hbelow : Below (operand n) f.slots.length :=
      ⟨n, hp.slots record hrecord ▸ (List.getElem?_eq_some_iff.mp hslot).1, stands_ofNat n⟩
    exact ⟨hbelow, hbelow⟩

/-- A parameter count stands for itself in an operand. -/
theorem stands_count (n : Nat) : Stands (operand n) (UInt32.ofNat n).toNat := by
  have heq : operand n = Int32.ofNat (UInt32.ofNat n).toNat := by
    rw [operand, UInt32.toNat_ofNat']
    exact Int32.toBitVec_inj.mp (BitVec.eq_of_toNat_eq (by simp))
  exact heq ▸ stands_ofNat _

theorem names_call (hp : Provides t pool m function f) (hwf : Wf host t) {scope : Nat}
    {name : String} {types : List Ty} {o : Overload}
    (ho : t.resolveCall? scope name types = some o) :
    m.Names host f (call types.length o.callee) := by
  obtain ⟨hdeclares, hparams, -⟩ := resolveCall?_eq_some ho
  have hknown := hwf.overloads o hdeclares
  rw [Known] at hknown
  cases hcallee : o.callee with
  | native index =>
    rw [hcallee] at hknown
    obtain ⟨n, hn, -, hcount⟩ := hknown
    refine ⟨index, n, hn, stands_ofNat index, ?_⟩
    rw [hcount, hparams]
    exact stands_ofNat _
  | script id =>
    rw [hcallee] at hknown
    obtain ⟨-, -, -, record, hrecord, hcount, -⟩ := hknown
    obtain ⟨g, hg, hparamCount⟩ := hp.functions id record hrecord
    refine ⟨id, g, hg, stands_ofNat id, ?_⟩
    rw [hparamCount, hcount, hparams]
    exact stands_count _

/-- The stride of a type with values. -/
theorem names_field {type : Ty} (hne : type ≠ .empty) :
    TypeDef.payloadField = 2 ∧ 0 < type.size.toInt32 := by
  refine ⟨rfl, ?_⟩
  cases type with
  | empty => exact absurd rfl hne
  | array element => exact (by decide : 0 < Kind.array.size.toInt32)
  | _ => decide

theorem names_type (hp : Provides t pool m function f) (type : Ty) :
    (m.type? type.id.toInt32.toUInt32).isSome := by
  rw [Module.type?, hp.types, Ty.id]
  cases type.kind <;> decide

variable {here : Position} {e : Expr} {type : Ty} {i : Instr} {place : Storage}

theorem Brings.ne_jump {c : Context} (h : Brings pool c e i) (kind : JumpKind) (delta : Int32) :
    i ≠ .jump kind delta := by
  cases h with
  | plain h =>
    rintro rfl
    cases h
  | @load place _ | @store place _ => cases place <;> exact nofun
  | @call _ _ o _ => cases o.callee <;> exact nofun
  | _ => exact nofun

/-- The hidden variables of a loop are in slots of its function. -/
theorem hidden_names (hp : Provides t pool m function f) (hlayout : Layout host t)
    (hkeys : (t.loopSlots.map Prod.fst).Nodup) {node id scope : Nat}
    (hloop : t.HasLoop function node) {slots : LoopSlots} (hslots : t.loopSlotsOf? node = some slots)
    (hid : id = slots.array ∨ id = slots.index) (hplace : hidden? ⟨t, r, scope⟩ id = some place) :
    m.Names host f (load place) ∧ m.Names host f (store place) := by
  obtain ⟨slots', v, w, a, i, hmem, hv, hw, hvstorage, hwstorage, -⟩ := hloop
  cases hslots.symm.trans (lookup_of_mem hkeys hmem)
  have hslot {u : Variable} {k : Nat} (hu : t.vars[id]? = some u)
      (hstorage : u.storage = .slot function k) :
      m.Names host f (load place) ∧ m.Names host f (store place) := by
    rw [hidden?, hu] at hplace
    cases hplace
    refine names_place hp hlayout hu fun owner n h => ?_
    cases hstorage.symm.trans h
    rfl
  rcases hid with rfl | rfl
  · exact hslot hv hvstorage
  · exact hslot hw hwstorage

/-- The variable of a typed node is where the node looks for it. -/
theorem hasVar_of_typed (h : Typed host t r here e type) {l : Label} {name : String}
    {d : Option Expr} (hx : e.named? = some (.var l name d)) :
    ∃ type, t.HasVar (t.inside here e) name type := by
  cases h with
  | var _ hvar =>
    cases hx
    rw [inside_plain rfl]
    exact ⟨_, hvar⟩
  | assign _ _ hleft =>
    cases hx
    cases hleft with
    | var _ hvar => exact ⟨_, hvar⟩
  | @operator _ _ op _ _ _ _ _ _ _ _ hop =>
    cases op with
    | assign => exact absurd rfl hop.ne_assign
    | _ => cases hx
  | forTo _ hscope hvar =>
    cases hx
    rw [inside_opening rfl hscope]
    exact ⟨_, hvar⟩
  | forIn _ hscope _ _ hvar =>
    cases hx
    rw [inside_opening rfl hscope]
    exact ⟨_, hvar⟩
  | _ => cases hx

theorem indexed_ne_empty (h : Typed host t r here e type) {x : Expr} {element : Ty}
    (hx : e.indexed? = some x) (htype : r.typeOf? x.id = some element) : element ≠ .empty := by
  cases h with
  | element htype' hne =>
    cases hx
    cases htype'.symm.trans htype
    exact hne
  | assign _ htarget hleft =>
    cases hleft with
    | element htype' hne =>
      cases hx
      cases htype'.symm.trans htype
      exact hne
    | var => cases hx
    | _ => cases htarget
  | @operator _ _ op _ _ _ _ _ _ _ _ hop =>
    cases op with
    | assign => exact absurd rfl hop.ne_assign
    | _ => cases hx
  | forIn _ _ hne htype' =>
    cases hx
    cases htype'.symm.trans htype
    exact hne
  | _ => cases hx

/-- What a node reads or writes itself is there in its function. -/
theorem Uses.names (hp : Provides t pool m function f) (hlayout : Layout host t)
    (hkeys : (t.loopSlots.map Prod.fst).Nodup) (hhere : here.function = function)
    (htyped : Typed host t r here e type) (hplaced : t.Placed here.scope here.function e)
    (h : Uses ⟨t, r, (t.inside here e).scope⟩ e place) :
    m.Names host f (load place) ∧ m.Names host f (store place) := by
  cases h with
  | @named x _ hx hplace =>
    cases x with
    | var l name d =>
      obtain ⟨type, id, v, hlookup, hv, -, hown, -⟩ := hasVar_of_typed htyped hx
      rw [loopVariable?, storage?, hlookup, Option.bind_some, hv] at hplace
      cases hplace
      exact names_place hp hlayout hv (hhere ▸ inside_function ▸ hown)
    | _ => cases hplace
  | hidden he hslots hid hplace =>
    subst he
    exact hidden_names hp hlayout hkeys (hhere ▸ hplaced.loop) hslots hid hplace

/-- What a node brings into the code names what is there. -/
theorem Brings.names (hp : Provides t pool m function f) (hwf : Wf host t)
    (hkeys : (t.loopSlots.map Prod.fst).Nodup) (hhere : here.function = function)
    (htyped : Typed host t r here e type) (hplaced : t.Placed here.scope here.function e)
    (h : Brings pool ⟨t, r, (t.inside here e).scope⟩ e i) : m.Names host f i := by
  cases h with
  | plain h => cases i <;> trivial
  | @constant _ n hn => exact ⟨n, hp.constants ▸ (List.idxOf?_eq_some_iff.mp hn).1, stands_ofNat n⟩
  | load h => exact (h.names hp hwf.toLayout hkeys hhere htyped hplaced).1
  | store h => exact (h.names hp hwf.toLayout hkeys hhere htyped hplaced).2
  | getField hx htype | setField hx htype => exact names_field (indexed_ne_empty htyped hx htype)
  | call ho => exact names_call hp hwf ho
  | pushDefault type => exact names_type hp type
  | newArray _ type => exact names_type hp type
  | ret => trivial

theorem Assembled.inside {own fine : Instr → Prop} {parts : List Expr} {c : Context}
    (hfine : ∀ kind delta, fine (.jump kind delta))
    (hown : ∀ i, own i → fine i ∧ ∀ kind delta, i ≠ .jump kind delta)
    (hparts : ∀ x ∈ parts, ∀ code, lower pool c x = some code → Inside fine code)
    (h : Assembled own (lower pool c) parts code) : Inside fine code := by
  induction h with
  | nil => exact .nil
  | own h => exact .one (hown _ h).1 (hown _ h).2
  | part h => exact hparts _ List.mem_cons_self _ h
  | append _ _ ih ih' =>
    obtain ⟨hx, hy⟩ := List.forall_mem_append.mp hparts
    exact (ih hx).append (ih' hy)
  | skip _ _ ih ih' =>
    obtain ⟨hx, hy⟩ := List.forall_mem_append.mp hparts
    exact .skip hfine (ih hx) (ih' hy)
  | branch _ _ _ ih ih' ih'' =>
    obtain ⟨hxy, hz⟩ := List.forall_mem_append.mp hparts
    obtain ⟨hx, hy⟩ := List.forall_mem_append.mp hxy
    exact .branch hfine (ih hx) (ih' hy) (ih'' hz)
  | loop _ _ ih ih' =>
    obtain ⟨hx, hy⟩ := List.forall_mem_append.mp hparts
    exact .loop hfine (ih hx) (ih' hy)
  | again _ ih => exact .again hfine (ih hparts)
  | listed hmem _ ih => exact ih fun x hx => hparts x ((hmem x).mp hx)

variable (host t r pool m f) in
/-- The code of a node stays inside and names what is there. -/
def Closes (scope : Nat) (e : Expr) : Prop :=
  ∀ ⦃code : List Instr⦄, lower pool ⟨t, r, scope⟩ e = some code → Inside (m.Names host f) code

/-- The code of a typed node in its place stays inside and names what is there. -/
theorem closes (hp : Provides t pool m function f) (hwf : Wf host t)
    (hscopes : (t.nodeScopes.map Prod.fst).Nodup) (hloops : (t.loopSlots.map Prod.fst).Nodup)
    (e : Expr) : ∀ ⦃here : Position⦄ ⦃type : Ty⦄, here.function = function →
      Typed host t r here e type → t.Placed here.scope here.function e →
        Closes host t r pool m f here.scope e := by
  induction e using Expr.parts_induction with
  | step e ih =>
    intro here type hhere htyped hplaced code h
    refine (lower_fromParts h).inside names_jump (fun i hi => ?_) fun x hx code hcode => ?_
    · exact ⟨hi.names hp hwf hloops hhere htyped hplaced, hi.ne_jump⟩
    · obtain ⟨type, hpart⟩ := htyped.part hx
      exact ih x hx (inside_function.trans hhere) hpart (hplaced.part hscopes hx) hcode

end Instructions

section Functions

variable {host : Host} {t : ScopeTree} {r : Resolution} {pool : Pool} {m : Module}
  {function scope : Nat} {f : FunctionDef} {fine : Instr → Prop} {code : List Instr}

theorem body_inside {result : Ty} {body : Expr} (hb : Closes host t r pool m f scope body)
    (h : lowerBody pool ⟨t, r, scope⟩ result body = some code) :
    ∃ front count, code = front ++ [.ret count] ∧ Inside (m.Names host f) front := by
  obtain ⟨bodyCode, hbody, h⟩ := Option.bind_eq_some_iff.mp h
  obtain ⟨type, -, h⟩ := Option.bind_eq_some_iff.mp h
  obtain ⟨front, hepilogue, hfront⟩ := epilogue_eq result type
  cases h
  rw [hepilogue, ← List.append_assoc]
  refine ⟨_, _, rfl, (hb hbody).append ?_⟩
  rcases hfront with rfl | rfl
  · exact .nil
  · exact .one trivial nofun

/-- Where a return follows, a jump that ends right behind the code ends inside. -/
theorem jump_inside {front : List Instr} {count : Int32} (h : Inside fine front) {k : Nat}
    {kind : JumpKind} {delta : Int32}
    (hk : (front ++ [Instr.ret count])[k]? = some (.jump kind delta))
    (hsize : (front ++ [Instr.ret count]).length < 2 ^ 31) :
    0 ≤ k + delta.toInt ∧ k + delta.toInt < (front ++ [Instr.ret count]).length := by
  rw [List.length_append, List.length_singleton] at hsize ⊢
  have hlt : k < front.length := by
    by_cases hlt : k < front.length
    · exact hlt
    · rw [List.getElem?_append_right (by omega)] at hk
      cases List.mem_singleton.mp (List.mem_of_getElem? hk)
  rw [List.getElem?_append_left hlt] at hk
  obtain ⟨target, htarget, rfl⟩ := h.jumps k kind delta hk
  rw [toInt_distance (by omega)]
  omega

theorem Compiles.provides {p : Program} {g : Generated} {o : Options} (h : Compiles host p t r g)
    (hf : (t.link g o).functions[function]? = some f) :
    Provides t g.pool (t.link g o) function f where
  constants := rfl
  types := rfl
  slots := by
    intro record hrecord
    obtain ⟨record', code, hrecord', -, rfl⟩ := function_iff.mp hf
    cases hrecord.symm.trans hrecord'
    exact List.length_map ..
  functions := by
    intro n record hrecord
    obtain ⟨code, -, hg⟩ := h.function (o := o) hrecord
    exact ⟨_, hg, rfl⟩

end Functions

/-- Every function of a compiled module is closed. -/
theorem compile_closed (body : Expr) (host : Host) (o : Options) (cancelled : Cancellation) {c : Compiled}
    (h : (Program.ofExpr body).compile host o cancelled = .ok c) {i : Nat} {f : FunctionDef}
    (hf : c.module.functions[i]? = some f) (hsize : f.code.size < 2 ^ 31) :
    c.module.Closed host i f := by
  obtain ⟨t, r, g, -, hc, rfl⟩ := compile_eq_ok h
  obtain ⟨record, code, hrecord, hcode, rfl⟩ := Compiles.function_iff.mp hf
  obtain ⟨scope, result, type, body, -, hbody, hlower⟩ := hc.body hcode
  have hcloses := closes (hc.provides hf) hc.built.toWf hc.built.scopeKeys hc.built.loopKeys body
    rfl hbody.typed hbody.placed
  obtain ⟨front, count, hcode, hinside⟩ := body_inside hcloses hlower
  obtain rfl : code = (front ++ [Instr.ret count]).toArray := by rw [← hcode]
  constructor
  case id =>
    change (UInt32.ofNat record.id).toNat = _
    rw [hc.built.functionId i record hrecord, UInt32.toNat_ofNat']
  case params =>
    change (UInt32.ofNat record.paramCount).toNat ≤ (t.slotDefs record).length
    have hparams := hc.built.params i record hrecord
    rw [UInt32.toNat_ofNat', slotDefs, List.length_map]
    exact Nat.le_trans (Nat.mod_le ..) hparams
  case last => exact ⟨count, by simp [functionDef]⟩
  case jumps =>
    intro k kind delta hk
    exact jump_inside hinside (by simpa [functionDef] using hk) (by simpa [functionDef] using hsize)
  case operands =>
    intro instr hinstr
    rcases List.mem_append.mp (List.mem_toArray.mp hinstr) with hinstr | hinstr
    · exact hinside.instrs instr hinstr
    · cases List.mem_singleton.mp hinstr
      exact trivial

/-- A loop over a variable of the host, with a call in its body. -/
def counting : Expr :=
  .block {} [
    .function {} "next" [.var {} "n" (some (.var {} "number" none))]
      (.ret {} (some (.binary {} .add (.var {} "n" none) (.constant {} (.number .one))))),
    .whileLoop {}
      (.binary {} .less (.var {} "count" none) (.constant {} (.number .one)))
      (.binary {} .assign (.var {} "count" none) (.call {} "next" [.var {} "count" none]))]

/-- A host with one variable. -/
def countingHost : Host := { globals := [{ name := "count", type := .double }] }

theorem compile_closed_counting :
    ∃ c f, (Program.ofExpr counting).compile countingHost {} false = .ok c ∧
      c.module.functions[0]? = some f ∧ f.code.size = 11 ∧ c.module.Closed countingHost 0 f := by
  have hsizes : ((Program.ofExpr counting).compile countingHost {} false).toOption.bind
      (fun c => c.module.functions[0]?.map (·.code.size)) = some 11 := by decide +kernel
  cases hcompile : (Program.ofExpr counting).compile countingHost {} false with
  | error d =>
    rw [hcompile] at hsizes
    cases hsizes
  | ok c =>
    rw [hcompile] at hsizes
    obtain ⟨f, hf, hsize⟩ := Option.map_eq_some_iff.mp hsizes
    exact ⟨c, f, rfl, hf, hsize, compile_closed counting countingHost {} false hcompile hf
      (hsize ▸ by decide)⟩

end Code

end TurtleScript
