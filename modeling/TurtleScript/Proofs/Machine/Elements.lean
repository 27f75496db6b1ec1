import TurtleScript.Compile
import TurtleScript.Proofs.Machine.Memory
import TurtleScript.Tree.Construct

/-!
# Access to the elements of an array

The code of `array[index]` turns the index into a byte offset and the offset back into an
element. The offset is a product modulo `2 ^ 64`, so what comes back is the index only as long
as the product fits. The main result says which element an access touches, for every index.
-/
namespace TurtleScript

open Semantics (Store)

namespace Heap

/-- A write changes one element of one array. -/
theorem getElem?_cell_write (h : Heap) {ref n : Nat} {v : Value} (hn : n < (h.cell ref).elements.size)
    (r j : Nat) : ((h.write ref n v).cell r).elements[j]? =
      if r = ref ∧ j = n then some v else (h.cell r).elements[j]? := by
  have hcell : (h.write ref n v).cell r =
      if r = ref then { h.cell r with elements := (h.cell r).elements.setIfInBounds n v }
      else h.cell r := by
    simp only [cell, write, Array.getElem?_modify]
    split
    case isTrue heq =>
      subst heq
      rw [if_pos rfl]
      cases h.cells[ref]? <;> rfl
    case isFalse hne => rw [if_neg (Ne.symm hne)]
  rw [hcell]
  by_cases hr : r = ref
  · subst hr
    rw [if_pos rfl, Array.getElem?_setIfInBounds]
    by_cases hj : j = n
    · subst hj
      rw [if_pos rfl, if_pos hn, if_pos ⟨rfl, rfl⟩]
    · rw [if_neg (Ne.symm hj), if_neg fun h => hj h.2]
  · rw [if_neg hr, if_neg fun h => hr h.1]

end Heap

namespace Machine

variable {σ : Type} {m : Machine σ} {a : Activation} {next ref : Nat} {locals : Array Value}
  {temps : List Value} {s : Store σ} {type : Ty} {index : Int64} {v : Value}

/-- The code of an element's address from where the index is an integer. -/
def addressing (type : Ty) : List Instr := (Generate.elementAddress type.size.toInt32).tail

/-- The bytes before the element at an index, as far as an address can hold them. -/
def byteOffset (type : Ty) (index : Int64) : Int64 := index * type.size.toInt32.toInt64

/-- The bytes before the element at an index can be counted with 64 bits. -/
def Addressable (type : Ty) (index : Int64) : Prop :=
  -2 ^ 63 ≤ index.toInt * type.size.toNat ∧ index.toInt * type.size.toNat < 2 ^ 63

/-- The element that an index comes to: indices that are as many elements apart as fill the
address space are the same. -/
def reached (type : Ty) (index : Int64) : Int := index.toInt.bmod (2 ^ 64 / type.size.toNat)

theorem reached_eq_iff (htype : type ≠ .empty) :
    reached type index = index.toInt ↔ Addressable type index := by
  obtain ⟨-, hmem⟩ := Setting.stride_eq (decide_eq_false htype)
  rw [reached, Addressable]
  generalize type.size.toNat = size at hmem
  generalize index.toInt = i
  simp only [List.mem_cons, List.not_mem_nil, or_false] at hmem
  rcases hmem with rfl | rfl | rfl | rfl | rfl <;> simp only [Int.bmod_def] <;> omega

/-- The offset is divided by what it was multiplied with. -/
theorem byteOffset_div (htype : type ≠ .empty) :
    (byteOffset type index).toInt / type.size.toInt32.toInt = reached type index := by
  obtain ⟨hint, hmem⟩ := Setting.stride_eq (decide_eq_false htype)
  rw [byteOffset, Setting.toInt_offset (decide_eq_false htype)]
  refine Int.mul_ediv_cancel_left _ ?_
  rw [hint]
  simp only [List.mem_cons, List.not_mem_nil, or_false] at hmem
  omega

/-- From `st` on, an element of an array is put on the stack and nothing else is changed; where
the array has no such element, the run stops and says so. -/
structure ReadsElement (m : Machine σ) (a : Activation) (st : State σ) (next : Nat)
    (locals : Array Value) (temps : List Value) (s : Store σ) (ref : Nat) (position : Int) :
    Prop where
  found : ∀ (n : Nat) (v : Value), position = n → (s.heap.cell ref).elements[n]? = some v →
    ∃ k, Runs m k st (a.state next locals (v :: temps) s)
  missing : position < 0 ∨ (s.heap.cell ref).elements.size ≤ position →
    Stops m st (.fault (.indexOutOfBounds position (s.heap.cell ref).elements.size)) s

/-- From `st` on, an element of an array is replaced by `v`, which stays on the stack, and no
other element of any array is changed; where the array has no such element, the run stops, says
so and changes none. -/
structure WritesElement (m : Machine σ) (a : Activation) (st : State σ) (next : Nat)
    (locals : Array Value) (temps : List Value) (s : Store σ) (ref : Nat) (position : Int)
    (v : Value) : Prop where
  found : ∀ n : Nat, position = n → n < (s.heap.cell ref).elements.size →
    ∃ k heap, Runs m k st (a.state next locals (v :: temps) { s with heap }) ∧
      ∀ r j, (heap.cell r).elements[j]? =
        if r = ref ∧ j = n then some v else (s.heap.cell r).elements[j]?
  missing : position < 0 ∨ (s.heap.cell ref).elements.size ≤ position →
    Stops m st (.fault (.indexOutOfBounds position (s.heap.cell ref).elements.size)) s

/-- The instructions of a stretch of code, by their place in the function. -/
theorem getElem?_code {seg before rest : List Instr} {i : Instr} {j : Nat}
    (hcode : a.function.code.toList = before ++ seg ++ rest) (hj : seg[j]? = some i) :
    a.function.code[before.length + j]? = some i := by
  have hlt : j < seg.length := (List.getElem?_eq_some_iff.mp hj).1
  rw [← Array.getElem?_toList, hcode, List.append_assoc,
    List.getElem?_append_right (Nat.le_add_right ..), Nat.add_sub_cancel_left,
    List.getElem?_append_left hlt, hj]

theorem Runs.rewrite {i : Instr} {before after : List Value}
    (hi : a.function.code[next]? = some i) (hne : i ≠ .halt) (h : m.Rewrites i before after) :
    Runs m 1 (a.state next locals (before ++ temps) s)
      (a.state (next + 1) locals (after ++ temps) s) :=
  .one ((step_state hi hne).trans (EStateM.bind_ok (h ..)))

/-- An array and an index become an address. -/
theorem runs_addressing {before rest : List Instr}
    (hcode : a.function.code.toList = before ++ addressing type ++ rest) :
    Runs m 3 (a.state before.length locals (.int index :: .array ref :: temps) s)
      (a.state (before.length + 3) locals (.address ref (byteOffset type index) :: temps) s) := by
  have pushed : Runs m 1 (a.state before.length locals (.int index :: .array ref :: temps) s)
      (a.state (before.length + 1) locals
        (.int type.size.toInt32.toInt64 :: .int index :: .array ref :: temps) s) :=
    .rewrite (getElem?_code (j := 0) hcode rfl) nofun (rewrites_pushInt _)
  have multiplied : Runs m 1
      (a.state (before.length + 1) locals
        (.int type.size.toInt32.toInt64 :: .int index :: .array ref :: temps) s)
      (a.state (before.length + 2) locals
        (.int (byteOffset type index) :: .array ref :: temps) s) :=
    .rewrite (getElem?_code (j := 1) hcode rfl) nofun (rewrites_intMul index _)
  have added : Runs m 1
      (a.state (before.length + 2) locals (.int (byteOffset type index) :: .array ref :: temps) s)
      (a.state (before.length + 3) locals (.address ref (byteOffset type index) :: temps) s) :=
    .rewrite (getElem?_code (j := 2) hcode rfl) nofun (rewrites_intAdd ref _)
  exact pushed.trans (multiplied.trans added)

section

variable (op : Opcode) (st : State σ) (htype : type ≠ .empty)

include htype

/-- An address made from an index leads to the element that the index comes to. -/
theorem element_reached {n : Nat} (hposition : reached type index = n)
    (hn : n < (st.heap.cell ref).elements.size) :
    element op (.address ref (byteOffset type index)) TypeDef.payloadField type.size.toInt32 st =
      .ok (ref, n) st := by
  have hindex : (byteOffset type index).toInt / _ = _ := byteOffset_div htype
  refine (Setting.element_offset op (decide_eq_false htype) index st).trans ?_
  rw [byteOffset] at hindex
  rw [hindex, hposition, if_pos ⟨Int.natCast_nonneg n, Int.ofNat_lt.mpr hn⟩, Int.toNat_natCast]

theorem element_unreached
    (hout : reached type index < 0 ∨ (st.heap.cell ref).elements.size ≤ reached type index) :
    element op (.address ref (byteOffset type index)) TypeDef.payloadField type.size.toInt32 st =
      .error (.fault (.indexOutOfBounds (reached type index)
        (st.heap.cell ref).elements.size)) st := by
  have hindex : (byteOffset type index).toInt / _ = _ := byteOffset_div htype
  refine (Setting.element_offset op (decide_eq_false htype) index st).trans ?_
  rw [byteOffset] at hindex
  rw [hindex, if_neg (by omega)]

end

theorem readsElement_getField (htype : type ≠ .empty)
    (hi : a.function.code[next]? = some (.getField TypeDef.payloadField type.size.toInt32)) :
    ReadsElement m a (a.state next locals (.address ref (byteOffset type index) :: temps) s)
      (next + 1) locals temps s ref (reached type index) := by
  have hstep : m.step (a.state next locals (.address ref (byteOffset type index) :: temps) s) = _ :=
    step_state hi nofun
  constructor
  case found =>
    intro n v hposition hv
    have hn : n < (s.heap.cell ref).elements.size := (Array.getElem?_eq_some_iff.mp hv).1
    have hplace := element_reached .getField (a.state (next + 1) locals temps s) htype
      hposition hn
    exact ⟨1, .one (hstep.trans (EStateM.bind_ok (Setting.getField_found hplace hv)))⟩
  case missing =>
    intro hout
    have hplace := element_unreached .getField (a.state (next + 1) locals temps s) htype hout
    exact ⟨0, _, _, .refl _, hstep.trans (EStateM.bind_error (Setting.getField_missing hplace)),
      rfl, rfl, rfl⟩

theorem writesElement_setField (htype : type ≠ .empty)
    (hi : a.function.code[next]? = some (.setField TypeDef.payloadField type.size.toInt32)) :
    WritesElement m a
      (a.state next locals (v :: .address ref (byteOffset type index) :: temps) s)
      (next + 1) locals temps s ref (reached type index) v := by
  have hstep : m.step
      (a.state next locals (v :: .address ref (byteOffset type index) :: temps) s) = _ :=
    step_state hi nofun
  constructor
  case found =>
    intro n hposition hn
    have hplace := element_reached .setField (a.state (next + 1) locals temps s) htype
      hposition hn
    exact ⟨1, s.heap.write ref n v,
      .one (hstep.trans (EStateM.bind_ok (Setting.setField_found hplace))),
      s.heap.getElem?_cell_write hn⟩
  case missing =>
    intro hout
    have hplace := element_unreached .setField (a.state (next + 1) locals temps s) htype hout
    exact ⟨0, _, _, .refl _, hstep.trans (EStateM.bind_error (Setting.setField_missing hplace)),
      rfl, rfl, rfl⟩

theorem ReadsElement.before {st st₁ : State σ} {k : Nat} {position : Int} (hr : Runs m k st st₁)
    (h : ReadsElement m a st₁ next locals temps s ref position) :
    ReadsElement m a st next locals temps s ref position where
  found := by
    intro n v hposition hv
    obtain ⟨j, hrun⟩ := h.found n v hposition hv
    exact ⟨k + j, hr.trans hrun⟩
  missing := fun hout => (h.missing hout).before hr

theorem WritesElement.before {st st₁ : State σ} {k : Nat} {position : Int} (hr : Runs m k st st₁)
    (h : WritesElement m a st₁ next locals temps s ref position v) :
    WritesElement m a st next locals temps s ref position v where
  found := by
    intro n hposition hn
    obtain ⟨j, heap, hrun, hheap⟩ := h.found n hposition hn
    exact ⟨k + j, heap, hr.trans hrun, hheap⟩
  missing := fun hout => (h.missing hout).before hr

/-- The code of an access reads or replaces the element that the index comes to, whatever the
type of the elements, the array and the index. This is the element with that index exactly if
its bytes can be counted. -/
theorem access_reaches (m : Machine σ) (a : Activation) {type : Ty} (htype : type ≠ .empty)
    (ref : Nat) (index : Int64) (locals : Array Value) (temps : List Value) (s : Store σ)
    (before rest : List Instr) :
    (reached type index = index.toInt ↔ Addressable type index) ∧
    (a.function.code.toList = before ++ (addressing type ++
        [.getField TypeDef.payloadField type.size.toInt32]) ++ rest →
      ReadsElement m a (a.state before.length locals (.int index :: .array ref :: temps) s)
        (before.length + 4) locals temps s ref (reached type index)) ∧
    ∀ (value : List Instr) (v : Value) (k : Nat) (locals' : Array Value) (s' : Store σ),
      a.function.code.toList = before ++ (addressing type ++ value ++
        [.setField TypeDef.payloadField type.size.toInt32]) ++ rest →
      -- the code of the value leaves it above the address
      Runs m k
        (a.state (before.length + 3) locals (.address ref (byteOffset type index) :: temps) s)
        (a.state (before.length + 3 + value.length) locals'
          (v :: .address ref (byteOffset type index) :: temps) s') →
      WritesElement m a (a.state before.length locals (.int index :: .array ref :: temps) s)
        (before.length + 3 + value.length + 1) locals' temps s' ref (reached type index) v := by
  refine ⟨reached_eq_iff htype, fun hcode => ?_, fun value v k locals' s' hcode hvalue => ?_⟩
  · have hfront : a.function.code.toList = before ++ addressing type ++
        (.getField TypeDef.payloadField type.size.toInt32 :: rest) := hcode.trans (by simp)
    exact (readsElement_getField htype (getElem?_code (j := 3) hcode rfl)).before
      (runs_addressing hfront)
  · have hfront : a.function.code.toList = before ++ addressing type ++
        (value ++ .setField TypeDef.payloadField type.size.toInt32 :: rest) := hcode.trans (by simp)
    have hlast : (addressing type ++ value ++
        [Instr.setField TypeDef.payloadField type.size.toInt32])[3 + value.length]? =
        some (.setField TypeDef.payloadField type.size.toInt32) := by
      have hlength : (addressing type ++ value).length = 3 + value.length := List.length_append
      rw [← hlength, List.getElem?_concat_length]
    have hset := getElem?_code hcode hlast
    rw [← Nat.add_assoc] at hset
    exact (writesElement_setField htype hset).before ((runs_addressing hfront).trans hvalue)

/-- The number `2 ^ 61`, so many doubles being as long as the address space. -/
def farIndex : Double := ⟨0x43c0000000000000⟩

/-- Reads the element `2 ^ 61` of an array of one number. -/
def overrunning : Expr :=
  .assign (.ident "out") (.element {} (.array {} [.number .one]) (some (.number farIndex)))

def overrunningHost : Host := { globals := [{ name := "out", type := .double }] }

/-- The machine of the program, with the array on its heap and about to form the address. -/
def overrunningCode : Activation where
  function := { id := 0, name := "main", returnType := Kind.empty.id, paramCount := 0, slots := []
                code := #[.pushInt 8, .intMul, .intAdd, .getField 2 8, .ret 0] }
  under := []
  caller := {}
  callers := []

theorem access_reaches_overrunning :
    let heap : Heap := ⟨#[{ elementType := 6, stride := 8, elements := #[.double .one] }]⟩
    farIndex.truncate.toInt = 2 ^ 61 ∧ ¬ Addressable .double farIndex.truncate ∧
    reached .double farIndex.truncate = 0 ∧
    ∀ m : Machine Unit, ∃ k, Runs m k
      (overrunningCode.state 0 #[] [.int farIndex.truncate, .array 0] ⟨#[], #[], heap, ()⟩)
      (overrunningCode.state 4 #[] [.double .one] ⟨#[], #[], heap, ()⟩) := by
  have hreached : reached .double farIndex.truncate = 0 := by decide +kernel
  refine ⟨by decide +kernel, ?_, hreached, fun m => ?_⟩
  · rw [Addressable]
    decide +kernel
  · have htype : Ty.double ≠ .empty := nofun
    obtain ⟨-, hread, -⟩ := access_reaches m overrunningCode htype 0 farIndex.truncate #[] []
      ⟨#[], #[], ⟨#[{ elementType := 6, stride := 8, elements := #[.double .one] }]⟩, ()⟩ [] [.ret 0]
    exact (hread rfl).found 0 (.double .one) hreached rfl

/-- An array of one number is read at an index beyond all memory, and the run goes on with its
first element. -/
theorem overrunning_finishes : ∃ c,
    (Program.ofExpr overrunning).compile overrunningHost {} false = .ok c ∧
    farIndex.truncate.toInt = 2 ^ 61 ∧
    (Machine.run ⟨c.module, #[]⟩ 100 #[.double .zero] {} ()).1 = .finished 15 none ∧
    (Machine.run ⟨c.module, #[]⟩ 100 #[.double .zero] {} ()).2.globals = #[.double .one] ∧
    (Machine.run ⟨c.module, #[]⟩ 100 #[.double .zero] {} ()).2.heap.cells.map (·.elements) =
      #[#[.double .one]] := by
  have hfacts : ((Program.ofExpr overrunning).compile overrunningHost {} false).toOption.any
      (fun c =>
        let (ending, s) := Machine.run ⟨c.module, #[]⟩ 100 #[.double .zero] {} ()
        ending = .finished 15 none && s.globals = #[.double .one] &&
          s.heap.cells.map (·.elements) = #[#[.double .one]]) = true := by decide +kernel
  cases hcompile : (Program.ofExpr overrunning).compile overrunningHost {} false with
  | error d =>
    rw [hcompile] at hfacts
    cases hfacts
  | ok c =>
    simp only [hcompile, Except.toOption, Option.any_some, Bool.and_eq_true,
      decide_eq_true_eq] at hfacts
    obtain ⟨⟨hending, hglobals⟩, hcells⟩ := hfacts
    exact ⟨c, rfl, by decide +kernel, hending, hglobals, hcells⟩

end Machine

end TurtleScript
