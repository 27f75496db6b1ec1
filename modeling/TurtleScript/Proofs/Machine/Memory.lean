import TurtleScript.Proofs.Machine.Simulation

/-!
# Places, elements and the host

The instructions that read and write variables, go through arrays and call the host, each
against the operation of the evaluator that it carries out.
-/
namespace TurtleScript

open Semantics (Store Eval Exit)

/-- The number that goes into the operand of a load or a store. -/
def Storage.number : Storage → Nat
  | .slot _ n => n
  | .global n => n

namespace Machine.Setting

variable {σ α : Type} {z : Setting σ} {c d next : Nat} {ghost : Nat → Option Value} {i : Instr}

/-- A stretch of code stands at an index. -/
def Holds (z : Setting σ) (next : Nat) (seg : List Instr) : Prop :=
  ∀ j i, seg[j]? = some i → z.code[next + j]? = some i

namespace Holds

variable {xs ys : List Instr}

theorem append (h : z.Holds next (xs ++ ys)) : z.Holds next xs ∧ z.Holds (next + xs.length) ys := by
  constructor
  · intro j i hj
    have hlt : j < xs.length := (List.getElem?_eq_some_iff.mp hj).1
    exact h j i ((List.getElem?_append_left hlt).trans hj)
  · intro j i hj
    rw [Nat.add_assoc]
    exact h (xs.length + j) i (by rw [List.getElem?_append_right (by omega)]; simpa using hj)

theorem head (h : z.Holds next (i :: xs)) : z.code[next]? = some i := h 0 i rfl

theorem tail (h : z.Holds next (i :: xs)) : z.Holds (next + 1) xs := by
  intro j i hj
  rw [Nat.add_assoc, Nat.add_comm 1 j]
  exact h (j + 1) i hj

end Holds

section Variables

variable {function : Nat} {place : Storage}

theorem Sim.read (hi : z.code[next]? = some (Generate.load place)) (hn : place.number < 2 ^ 31)
    (hv : ∀ slot, place = .slot function slot → ¬ z.hidden slot) :
    z.Sim 1 ⟨next, ghost, []⟩ (Eval.read function place) fun v => ⟨next + 1, ghost, [v]⟩ := by
  refine Sim.of_execute hi (by cases place <;> simp [Generate.load]) fun s locals rest hagrees => ?_
  have hread : Eval.read function place s = Eval.need (s.get? function place) s := rfl
  rw [hread]
  cases hget : s.get? function place with
  | none => exact trivial
  | some v =>
    have hload : z.machine.execute next (Generate.load place)
        (z.activation.state (next + 1) locals rest s) =
        .ok () (z.activation.state (next + 1) locals (v :: rest) s) := by
      cases place with
      | slot owner n =>
        simp only [Store.get?, Option.ite_none_right_eq_some] at hget
        obtain ⟨rfl, hget⟩ := hget
        exact loadLocal_state hn ((hagrees.visible n (hv n rfl)).trans hget)
      | global n => exact loadGlobal_state hn hget
    simp only [List.nil_append, hload]
    exact ⟨locals, hagrees, rfl⟩

section Slots

variable {width slot : Nat} {hidden : Nat → Prop} {actual locals : Array Value}

/-- A slot that is not hidden changes for both. -/
theorem agrees_set (h : Agrees width hidden ghost actual locals) (hslot : ¬ hidden slot)
    (v : Value) :
    Agrees width hidden ghost (actual.setIfInBounds slot v) (locals.setIfInBounds slot v) where
  actualSize := by rw [Array.size_setIfInBounds, h.actualSize]
  localsSize := by rw [Array.size_setIfInBounds, h.localsSize]
  visible := by
    intro i hi
    simp only [Array.getElem?_setIfInBounds, h.actualSize, h.localsSize, h.visible i hi]
  ghost := by
    intro i w hw
    obtain ⟨hi, hget⟩ := h.ghost i w hw
    have hne : slot ≠ i := fun he => hslot (he ▸ hi)
    exact ⟨hi, by rw [Array.getElem?_setIfInBounds, if_neg hne, hget]⟩

/-- A hidden slot changes for the machine alone. -/
theorem agrees_hide (h : Agrees width hidden ghost actual locals) (hslot : hidden slot)
    (hlt : slot < width) (v : Value) :
    Agrees width hidden (fun i => if i = slot then some v else ghost i)
      (actual.setIfInBounds slot v) locals where
  actualSize := by rw [Array.size_setIfInBounds, h.actualSize]
  localsSize := h.localsSize
  visible := by
    intro i hi
    have hne : slot ≠ i := fun he => hi (he ▸ hslot)
    rw [Array.getElem?_setIfInBounds, if_neg hne, h.visible i hi]
  ghost := by
    intro i w hw
    by_cases he : i = slot
    · subst he
      rw [if_pos rfl] at hw
      cases hw
      exact ⟨hslot, by rw [Array.getElem?_setIfInBounds, if_pos rfl, if_pos (h.actualSize ▸ hlt)]⟩
    · rw [if_neg he] at hw
      obtain ⟨hi, hget⟩ := h.ghost i w hw
      exact ⟨hi, by rw [Array.getElem?_setIfInBounds, if_neg (Ne.symm he), hget]⟩

end Slots

theorem Sim.write {v : Value} (hi : z.code[next]? = some (Generate.store place))
    (hn : place.number < 2 ^ 31) (hv : ∀ slot, place = .slot function slot → ¬ z.hidden slot) :
    z.Sim 1 ⟨next, ghost, [v]⟩ (Eval.write function place v) fun _ => ⟨next + 1, ghost, []⟩ := by
  refine Sim.of_execute hi (by cases place <;> simp [Generate.store]) fun s locals rest hagrees => ?_
  have hwrite : Eval.write function place v s =
      (Eval.need (s.set? function place v) >>= fun s' => set s') s := rfl
  rw [hwrite]
  cases hset : s.set? function place v with
  | none => exact trivial
  | some s' =>
    cases place with
    | slot owner n =>
      simp only [Store.set?, Option.ite_none_right_eq_some] at hset
      obtain ⟨⟨rfl, hlt⟩, hset⟩ := hset
      cases hset
      have hstore : z.machine.execute next (Generate.store (.slot owner n))
          (z.activation.state (next + 1) locals ([v] ++ rest) s) = _ :=
        storeLocal_state hn (by rwa [hagrees.actualSize, ← hagrees.localsSize])
      simp only [hstore]
      exact ⟨_, agrees_set hagrees (hv n rfl) v, rfl⟩
    | global n =>
      simp only [Store.set?, Option.ite_none_right_eq_some] at hset
      obtain ⟨hlt, hset⟩ := hset
      cases hset
      have hstore : z.machine.execute next (Generate.store (.global n))
          (z.activation.state (next + 1) locals ([v] ++ rest) s) = _ :=
        storeGlobal_state hn hlt
      simp only [hstore]
      exact ⟨locals, hagrees, rfl⟩

theorem Silent.loadHidden {owner slot : Nat} {v : Value}
    (hi : z.code[next]? = some (Generate.load (.slot owner slot))) (hn : slot < 2 ^ 31)
    (hv : ghost slot = some v) : z.Silent 1 ⟨next, ghost, []⟩ ⟨next + 1, ghost, [v]⟩ := by
  refine Sim.of_execute hi (by simp [Generate.load]) fun s locals rest hagrees => ?_
  have hload : z.machine.execute next (Generate.load (.slot owner slot))
      (z.activation.state (next + 1) locals ([] ++ rest) s) = _ :=
    loadLocal_state hn (hagrees.ghost slot v hv).2
  simp only [hload]
  exact ⟨locals, hagrees, rfl⟩

theorem Silent.storeHidden {owner slot : Nat} {v : Value}
    (hi : z.code[next]? = some (Generate.store (.slot owner slot))) (hn : slot < 2 ^ 31)
    (hslot : z.hidden slot) (hlt : slot < z.width) :
    z.Silent 1 ⟨next, ghost, [v]⟩
      ⟨next + 1, fun i => if i = slot then some v else ghost i, []⟩ := by
  refine Sim.of_execute hi (by simp [Generate.store]) fun s locals rest hagrees => ?_
  have hstore : z.machine.execute next (Generate.store (.slot owner slot))
      (z.activation.state (next + 1) locals ([v] ++ rest) s) = _ :=
    storeLocal_state hn (by rwa [hagrees.actualSize])
  simp only [hstore]
  exact ⟨_, agrees_hide hagrees hslot hlt v, rfl⟩

end Variables

section Elements

variable {cell : Nat} {index : Double} {type : Ty} {v : Value}

theorem Silent.elementAddress (h : z.Holds next (Generate.elementAddress type.size.toInt32)) :
    z.Silent 4 ⟨next, ghost, [.double index, .array cell]⟩
      ⟨next + 4, ghost, [.address cell (Eval.offset index type)]⟩ := by
  have toInt : z.Silent 1 ⟨next, ghost, [.double index, .array cell]⟩
      ⟨next + 1, ghost, [.int index.truncate, .array cell]⟩ :=
    .rewrite h.head (by simp) ((rewrites_toInt index).frame [.array cell])
  have pushInt : z.Silent 1 ⟨next + 1, ghost, [.int index.truncate, .array cell]⟩
      ⟨next + 1 + 1, ghost,
        [.int type.size.toInt32.toInt64, .int index.truncate, .array cell]⟩ :=
    .rewrite h.tail.head (by simp) ((rewrites_pushInt type.size.toInt32).frame _)
  have intMul : z.Silent 1
      ⟨next + 1 + 1, ghost, [.int type.size.toInt32.toInt64, .int index.truncate, .array cell]⟩
      ⟨next + 1 + 1 + 1, ghost, [.int (Eval.offset index type), .array cell]⟩ :=
    .rewrite h.tail.tail.head (by simp) ((rewrites_intMul index.truncate _).frame [.array cell])
  exact toInt.trans <| pushInt.trans <| intMul.trans <|
    .rewrite h.tail.tail.tail.head (by simp) (rewrites_intAdd cell _)

theorem stride_eq (htype : type.isEmpty = false) :
    type.size.toInt32.toInt = type.size.toNat ∧ type.size.toNat ∈ [1, 2, 4, 8, 16] := by
  cases type with
  | empty => cases htype
  | array _ =>
    exact (by decide : Kind.array.size.toInt32.toInt = Kind.array.size.toNat ∧
      Kind.array.size.toNat ∈ [1, 2, 4, 8, 16])
  | _ => decide

/-- The size of a type divides the size of the address space, so an offset that was
wrapped around is still a whole number of elements. -/
theorem toInt_offset (htype : type.isEmpty = false) (n : Int64) :
    (n * type.size.toInt32.toInt64).toInt =
      type.size.toInt32.toInt * n.toInt.bmod (2 ^ 64 / type.size.toNat) := by
  obtain ⟨hint, hmem⟩ := stride_eq htype
  rw [Int64.toInt_mul, Int32.toInt_toInt64, hint]
  generalize type.size.toNat = size at hmem
  generalize n.toInt = i
  simp only [List.mem_cons, List.not_mem_nil, or_false] at hmem
  rcases hmem with rfl | rfl | rfl | rfl | rfl <;> simp only [Int.bmod_def] <;> omega

theorem aligned (htype : type.isEmpty = false) (n : Int64) :
    ¬ (type.size.toInt32.toInt ≤ 0 ∨
      (n * type.size.toInt32.toInt64).toInt % type.size.toInt32.toInt ≠ 0) := by
  obtain ⟨hint, hmem⟩ := stride_eq htype
  rw [toInt_offset htype, Int.mul_emod_right, hint]
  simp only [List.mem_cons, List.not_mem_nil, or_false] at hmem
  omega

/-- An address made from an index leads to the element that starts after its bytes, if there
is one. -/
theorem element_offset (op : Opcode) (htype : type.isEmpty = false) (n : Int64) (st : State σ) :
    element op (.address cell (n * type.size.toInt32.toInt64)) TypeDef.payloadField
        type.size.toInt32 st =
      if 0 ≤ (n * type.size.toInt32.toInt64).toInt / type.size.toInt32.toInt ∧
          (n * type.size.toInt32.toInt64).toInt / type.size.toInt32.toInt <
            (st.heap.cell cell).elements.size then
        .ok (cell, ((n * type.size.toInt32.toInt64).toInt / type.size.toInt32.toInt).toNat) st
      else
        .error (.fault (.indexOutOfBounds
          ((n * type.size.toInt32.toInt64).toInt / type.size.toInt32.toInt)
          (st.heap.cell cell).elements.size)) st :=
  congrFun (if_neg (aligned htype n)) st

/-- The index stands for an element of the array. -/
def InBounds (s : Store σ) (cell : Nat) (index : Double) (type : Ty) : Prop :=
  0 ≤ Eval.position index type ∧ Eval.position index type < (s.heap.cell cell).elements.size

theorem locate_stuck (htype : type.isEmpty = true) (s : Store σ) :
    Eval.locate cell index type s = .error .stuck s := by
  rw [Eval.locate, if_pos htype]
  rfl

theorem locate_found {s : Store σ} (htype : type.isEmpty = false)
    (hin : InBounds s cell index type) :
    Eval.locate cell index type s = .ok (Eval.position index type).toNat s := by
  rw [Eval.locate, if_neg (by simp [htype])]
  exact (EStateM.bind_ok (rfl : Eval.length cell s = .ok _ s)).trans (congrFun (if_pos hin) s)

theorem locate_missing {s : Store σ} (htype : type.isEmpty = false)
    (hin : ¬ InBounds s cell index type) :
    Eval.locate cell index type s = .error (.stopped (.fault (.indexOutOfBounds
      (Eval.position index type) (s.heap.cell cell).elements.size))) s := by
  rw [Eval.locate, if_neg (by simp [htype])]
  exact (EStateM.bind_ok (rfl : Eval.length cell s = .ok _ s)).trans (congrFun (if_neg hin) s)

section

variable {a : Activation} {locals : Array Value} {temps : List Value} {s : Store σ}

theorem element_found (op : Opcode) (htype : type.isEmpty = false)
    (hin : InBounds s cell index type) :
    element op (.address cell (Eval.offset index type)) TypeDef.payloadField type.size.toInt32
        (a.state next locals temps s) =
      .ok (cell, (Eval.position index type).toNat) (a.state next locals temps s) :=
  (element_offset op htype index.truncate _).trans (if_pos hin)

theorem element_missing (op : Opcode) (htype : type.isEmpty = false)
    (hin : ¬ InBounds s cell index type) :
    element op (.address cell (Eval.offset index type)) TypeDef.payloadField type.size.toInt32
        (a.state next locals temps s) =
      .error (.fault (.indexOutOfBounds (Eval.position index type)
        (s.heap.cell cell).elements.size)) (a.state next locals temps s) :=
  (element_offset op htype index.truncate _).trans (if_neg hin)

variable {m : Machine σ} {here n : Nat} {address : Value} {field stride : Int32} {why : Stop}
  {st : State σ}

theorem getField_found
    (h : element .getField address field stride (a.state next locals temps s) =
      .ok (cell, n) (a.state next locals temps s))
    (hv : (s.heap.cell cell).elements[n]? = some v) :
    m.execute here (.getField field stride) (a.state next locals (address :: temps) s) =
      .ok () (a.state next locals (v :: temps) s) := by
  refine (EStateM.bind_ok (Activation.pop_state ..)).trans <| (EStateM.bind_ok h).trans ?_
  change Exec.push ((s.heap.cell cell).elements[n]?.getD .empty) _ = _
  rw [hv]
  exact Activation.push_state v

theorem getField_missing
    (h : element .getField address field stride (a.state next locals temps s) = .error why st) :
    m.execute here (.getField field stride) (a.state next locals (address :: temps) s) =
      .error why st :=
  (EStateM.bind_ok (Activation.pop_state ..)).trans (EStateM.bind_error h)

theorem setField_found
    (h : element .setField address field stride (a.state next locals temps s) =
      .ok (cell, n) (a.state next locals temps s)) :
    m.execute here (.setField field stride) (a.state next locals (v :: address :: temps) s) =
      .ok () (a.state next locals (v :: temps) { s with heap := s.heap.write cell n v }) :=
  (EStateM.bind_ok (Activation.pop_state ..)).trans <|
    (EStateM.bind_ok (Activation.pop_state ..)).trans <| (EStateM.bind_ok h).trans <|
      Activation.push_state (s := { s with heap := s.heap.write cell n v }) v

theorem setField_missing
    (h : element .setField address field stride (a.state next locals temps s) = .error why st) :
    m.execute here (.setField field stride) (a.state next locals (v :: address :: temps) s) =
      .error why st :=
  (EStateM.bind_ok (Activation.pop_state ..)).trans <|
    (EStateM.bind_ok (Activation.pop_state ..)).trans (EStateM.bind_error h)

end

theorem Sim.readElement
    (hi : z.code[next]? = some (.getField TypeDef.payloadField type.size.toInt32)) :
    z.Sim 1 ⟨next, ghost, [.address cell (Eval.offset index type)]⟩
      (Eval.readElement cell index type) fun v => ⟨next + 1, ghost, [v]⟩ := by
  refine Sim.of_execute hi (by simp) fun s locals rest hagrees => ?_
  cases htype : type.isEmpty with
  | true =>
    rw [Eval.readElement, EStateM.bind_error (locate_stuck htype s)]
    exact trivial
  | false =>
    by_cases hin : InBounds s cell index type
    · obtain ⟨v, hv⟩ : ∃ v, (s.heap.cell cell).elements[(Eval.position index type).toNat]? =
          some v := ⟨_, Array.getElem?_eq_getElem (by have := hin.1; have := hin.2; omega)⟩
      have hread : Eval.readElement cell index type s = .ok v s := by
        refine (EStateM.bind_ok (locate_found htype hin)).trans ?_
        change Eval.need (s.heap.cell cell).elements[_]? s = _
        rw [hv]
        rfl
      rw [hread, List.singleton_append, getField_found (element_found _ htype hin) hv]
      exact ⟨locals, hagrees, rfl⟩
    · have hread : Eval.readElement cell index type s = _ :=
        EStateM.bind_error (locate_missing htype hin)
      rw [hread, List.singleton_append, getField_missing (element_missing _ htype hin)]
      exact ⟨rfl, rfl, rfl, rfl⟩

theorem Sim.writeElement
    (hi : z.code[next]? = some (.setField TypeDef.payloadField type.size.toInt32)) :
    z.Sim 1 ⟨next, ghost, [v, .address cell (Eval.offset index type)]⟩
      (Eval.writeElement cell index type v) fun _ => ⟨next + 1, ghost, [v]⟩ := by
  refine Sim.of_execute hi (by simp) fun s locals rest hagrees => ?_
  cases htype : type.isEmpty with
  | true =>
    rw [Eval.writeElement, EStateM.bind_error (locate_stuck htype s)]
    exact trivial
  | false =>
    by_cases hin : InBounds s cell index type
    · have hwrite : Eval.writeElement cell index type v s = _ :=
        EStateM.bind_ok (locate_found htype hin)
      rw [hwrite, List.cons_append, List.singleton_append,
        setField_found (element_found _ htype hin), Semantics.write_eq_withElement]
      exact ⟨locals, hagrees, rfl⟩
    · have hwrite : Eval.writeElement cell index type v s = _ :=
        EStateM.bind_error (locate_missing htype hin)
      rw [hwrite, List.cons_append, List.singleton_append,
        setField_missing (element_missing _ htype hin)]
      exact ⟨rfl, rfl, rfl, rfl⟩

theorem Sim.length (hi : z.code[next]? = some .length) :
    z.Sim 1 ⟨next, ghost, [.array cell]⟩ (Eval.length cell)
      fun n => ⟨next + 1, ghost, [.double (.ofNat n)]⟩ := by
  refine Sim.of_execute hi (by simp) fun s locals rest hagrees => ?_
  have hlength : z.machine.execute next .length
      (z.activation.state (next + 1) locals ([.array cell] ++ rest) s) = _ :=
    (EStateM.bind_ok (Activation.pop_state ..)).trans (Activation.push_state _)
  rw [hlength]
  exact ⟨locals, hagrees, rfl⟩

/-- The catalogue has a descriptor for every kind. -/
theorem type?_id {m : Machine σ} (h : m.module.types = TypeDef.catalogue) (k : Kind) :
    m.type? k.id.toInt32 = some (TypeDef.standard k) := by
  have hindex : Int32.index? k.id.toInt32 = some k.id.toNat := by cases k <;> rfl
  have hid : UInt32.ofNat k.id.toNat = k.id := UInt32.ofNat_toNat
  simp only [type?, hindex, Option.bind_eq_bind, Option.bind_some, hid, Module.type?, h]
  cases k <;> rfl

theorem Sim.defaultOf (htypes : z.machine.module.types = TypeDef.catalogue)
    (hi : z.code[next]? = some (.pushDefault type.id.toInt32)) :
    z.Sim 1 ⟨next, ghost, []⟩ (Eval.defaultOf type) fun v => ⟨next + 1, ghost, [v]⟩ := by
  refine Sim.of_execute hi (by simp) fun s locals rest hagrees => ?_
  have hdefault : z.machine.execute next (.pushDefault type.id.toInt32)
      (z.activation.state (next + 1) locals ([] ++ rest) s) =
      .ok () (z.activation.state (next + 1) locals ((s.heap.defaultOf type.kind).1 :: rest)
        { s with heap := (s.heap.defaultOf type.kind).2 }) := by
    have htype := type?_id htypes type.kind
    simp only [execute, Ty.id, htype]
    exact Activation.push_state (s := { s with heap := (s.heap.defaultOf type.kind).2 }) _
  rw [hdefault]
  exact ⟨locals, hagrees, rfl⟩

theorem Sim.newArray {values : List Value} (htypes : z.machine.module.types = TypeDef.catalogue)
    (hn : values.length < 2 ^ 31)
    (hi : z.code[next]? =
      some (.newArray (Generate.operand values.length) type.id.toInt32)) :
    z.Sim 1 ⟨next, ghost, values.reverse⟩ (Eval.newArray type values)
      fun v => ⟨next + 1, ghost, [v]⟩ := by
  refine Sim.of_execute hi (by simp) fun s locals rest hagrees => ?_
  let cell : Cell := { elementType := type.id, stride := type.size, elements := values.toArray }
  have harray : z.machine.execute next (.newArray (Generate.operand values.length) type.id.toInt32)
      (z.activation.state (next + 1) locals (values.reverse ++ rest) s) =
      .ok () (z.activation.state (next + 1) locals (.array (s.heap.alloc cell).1 :: rest)
        { s with heap := (s.heap.alloc cell).2 }) := by
    have htype := type?_id htypes type.kind
    change z.machine.newArray _ _ _ = _
    simp only [Machine.newArray, index?_operand hn, Ty.id, htype]
    refine (EStateM.bind_ok (Activation.popMany_state _ values (by omega))).trans ?_
    exact Activation.push_state (s := { s with heap := (s.heap.alloc cell).2 }) _
  rw [harray]
  exact ⟨locals, hagrees, rfl⟩

end Elements

theorem Sim.native {index : Nat} {args : List Value} (hindex : index < 2 ^ 31)
    (hargs : args.length < 2 ^ 31)
    (hi : z.code[next]? =
      some (.callNative (Generate.operand index) (Generate.operand args.length))) :
    z.Sim 1 ⟨next, ghost, args.reverse⟩
      (do Eval.native (← Eval.need z.machine.natives[index]?) args)
      fun v => ⟨next + 1, ghost, v.toList⟩ := by
  refine Sim.of_execute hi (by simp) fun s locals rest hagrees => ?_
  cases hf : z.machine.natives[index]? with
  | none => exact trivial
  | some f =>
    generalize hresult : z.machine.execute next _ _ = result
    change z.machine.callNative _ _ _ = _ at hresult
    simp only [Machine.callNative, announced_operand hargs, index?_operand hindex,
      Option.bind_some, hf] at hresult
    replace hresult := ((EStateM.bind_ok (Activation.popMany_state _ args (by omega))).trans
      (EStateM.bind_ok (a := f) rfl)).symm.trans hresult
    have heval : (do Eval.native (← Eval.need (some f)) args : Eval σ _) s =
        Eval.native f args s := rfl
    rw [heval, Eval.native]
    rcases hr : f args s.heap s.host with ⟨why | v, heap, host⟩
    · obtain rfl : .error why (z.activation.state (next + 1) locals rest { s with heap, host }) =
          result :=
        (EStateM.bind_error (by simp [Activation.state, State.atop, hr])).symm.trans hresult
      exact ⟨rfl, rfl, rfl, rfl⟩
    · obtain rfl : .ok () (z.activation.state (next + 1) locals (v.toList ++ rest)
          { s with heap, host }) = result := by
        refine ((EStateM.bind_ok (a := v) (by simp only [Activation.state, State.atop, hr]; rfl)).trans
          ?_).symm.trans hresult
        cases v with
        | none => rfl
        | some v => exact Activation.push_state (s := { s with heap, host }) v
      exact ⟨locals, hagrees, rfl⟩

end Machine.Setting

end TurtleScript
