import TurtleScript.Proofs.Code.Linking
import TurtleScript.Proofs.Machine.Programs

/-!
# Compiled modules are linked

A compiled module has what a run of its program takes: every function stands under its number,
with the slots of its record and the code of its body, and the slots that loops use are out of
reach of the names in the program. Operands are numbers of 32 bits, so this holds as far as
nothing is counted past them.
-/
namespace TurtleScript

namespace ScopeTree.Layout

variable {host : Host} {t : ScopeTree}

/-- The slots of loops have names that no program can write. -/
theorem reserved_of_hidden {id function slot : Nat} {v : Variable} (h : Layout host t)
    (hv : t.vars[id]? = some v) (hslot : v.storage = .slot function slot)
    (hhidden : t.Hidden function slot) : Reserved v.name := by
  obtain ⟨node, array, index, ⟨slots, a, i, hslots, ha, hi, harray, hindex⟩, hcase⟩ := hhidden
  obtain ⟨a', i', ha', hi', haname, hiname, -⟩ := h.loops _ (mem_of_lookup hslots)
  cases ha.symm.trans ha'
  cases hi.symm.trans hi'
  rcases hcase with rfl | rfl
  · obtain rfl := h.eq_of_slot hv ha hslot harray
    cases hv.symm.trans ha
    exact haname
  · obtain rfl := h.eq_of_slot hv hi hslot hindex
    cases hv.symm.trans hi
    exact hiname

theorem loops_apart {function id array index id' array' index' : Nat} (h : Layout host t)
    (hloop : t.LoopPlaces function id array index)
    (hloop' : t.LoopPlaces function id' array' index') (hne : id ≠ id') :
    array ≠ array' ∧ array ≠ index' ∧ index ≠ array' ∧ index ≠ index' := by
  obtain ⟨slots, a, i, hslots, ha, hi, harray, hindex⟩ := hloop
  obtain ⟨slots', a', i', hslots', ha', hi', harray', hindex'⟩ := hloop'
  have hall := List.Pairwise.forall_of_forall_of_flip
    (R := fun p q : Nat × LoopSlots => p.1 ≠ q.1 → p.2.array ≠ q.2.array ∧
      p.2.array ≠ q.2.index ∧ p.2.index ≠ q.2.array ∧ p.2.index ≠ q.2.index)
    (fun p _ h => absurd rfl h) (h.loopsApart.imp fun {p q} hp (_ : p.1 ≠ q.1) => hp)
    (h.loopsApart.imp fun {p q} ⟨h₁, h₂, h₃, h₄⟩ (_ : q.1 ≠ p.1) =>
      ⟨h₁.symm, h₃.symm, h₂.symm, h₄.symm⟩)
  obtain ⟨h₁, h₂, h₃, h₄⟩ := hall (mem_of_lookup hslots) (mem_of_lookup hslots') hne
  refine ⟨?_, ?_, ?_, ?_⟩
  · rintro rfl
    exact h₁ (h.eq_of_slot ha ha' harray harray')
  · rintro rfl
    exact h₂ (h.eq_of_slot ha hi' harray hindex')
  · rintro rfl
    exact h₃ (h.eq_of_slot hi ha' hindex harray')
  · rintro rfl
    exact h₄ (h.eq_of_slot hi hi' hindex hindex')

end ScopeTree.Layout

namespace Code

open ScopeTree Semantics Machine

/-- What operands count is less than they can hold. -/
structure Fits (host : Host) (p : Program) (m : Module) : Prop where
  nodes : p.nodeCount < 2 ^ 31
  globals : host.globals.length < 2 ^ 31
  natives : host.natives.length < 2 ^ 31
  constants : m.constants.size < 2 ^ 31
  functions : m.functions.size < 2 ^ 31
  slots : ∀ f ∈ m.functions, f.slots.length < 2 ^ 31
  code : ∀ f ∈ m.functions, f.code.size < 2 ^ 31

variable {σ : Type}

/-- The world of a program that was compiled. -/
abbrev world (p : Program) (t : ScopeTree) (r : Resolution) (natives : Array (Native σ)) :
    World σ := ⟨p.body, t, r, natives⟩

namespace Compiles

variable {host : Host} {p : Program} {t : ScopeTree} {r : Resolution} {g : Generated}
  {o : Options} {natives : Array (Native σ)}

theorem size_functions (h : Compiles host p t r g) :
    (t.link g o).functions.size = t.functions.size := by
  obtain ⟨hsize, -⟩ := generate_eq_ok h.code
  simp [link, hsize]

/-- The number of a function is its place. -/
theorem id_eq {id : Nat} {d : FunctionDef} (h : Compiles host p t r g)
    (hfits : Fits host p (t.link g o)) (hd : (t.link g o).functions[id]? = some d) :
    d.id.toNat = id := by
  have hlt : id < 2 ^ 31 :=
    Nat.lt_trans (Array.getElem?_eq_some_iff.mp hd).1 hfits.functions
  obtain ⟨f, code, hf, -, rfl⟩ := function_iff.mp hd
  change (UInt32.ofNat f.id).toNat = id
  rw [h.built.functionId id f hf, UInt32.toNat_ofNat_of_lt' (Nat.lt_trans hlt (by decide))]

theorem callee {id : Nat} {d : FunctionDef} (h : Compiles host p t r g)
    (hfits : Fits host p (t.link g o)) (hd : (t.link g o).functions[id]? = some d) :
    Machine.callee? ⟨t.link g o, natives⟩ (Generate.operand id) = some d := by
  have hlt : id < 2 ^ 31 :=
    Nat.lt_trans (Array.getElem?_eq_some_iff.mp hd).1 hfits.functions
  have hmem : d ∈ (t.link g o).functions := Array.mem_of_getElem? hd
  rw [Machine.callee?, index?_operand hlt]
  change (t.link g o).functions.findRev? (·.id.toNat = id) = some d
  rw [Array.findRev?_eq_find?_reverse]
  cases hfind : (t.link g o).functions.reverse.find? (·.id.toNat = id) with
  | none =>
    have hnone := Array.find?_eq_none.mp hfind d (by simpa using hmem)
    simp [h.id_eq hfits hd] at hnone
  | some d' =>
    have hmem' : d' ∈ (t.link g o).functions := by simpa using Array.mem_of_find?_eq_some hfind
    have hid : d'.id.toNat = id := by simpa using Array.find?_some hfind
    obtain ⟨id', hd'⟩ := Array.mem_iff_getElem?.mp hmem'
    rw [h.id_eq hfits hd'] at hid
    rw [← hid, hd'] at hd
    exact hd

/-- A loop in the body of a function has its slots there. -/
theorem loop_places {id scope : Nat} {f : FunctionRecord} {body : Expr} {l : Label}
    {item iterable inner : Expr} (h : Compiles host p t r g) (hf : t.functions[id]? = some f)
    (hplaced : t.Placed scope id body) (hin : body.Encloses (.forIn l item iterable inner)) :
    ∃ array index, t.LoopPlaces id l.id array index ∧ array ≠ index ∧
      array < f.slots.length ∧ index < f.slots.length := by
  have hloop : t.HasLoop id l.id := by
    generalize hx : Expr.forIn l item iterable inner = x at hin
    induction hin generalizing scope with
    | self x =>
      subst hx
      exact hplaced.loop
    | @child x c y hfun hc hin ih =>
      cases hvar : x.isVariable with
      | true =>
        cases x with
        | var =>
          have hmem := Expr.mem_nodes_child hc hin.mem_nodes
          subst hx
          rcases hplaced.declared_var.shape hmem with hvar | ⟨_, _, ⟨⟩⟩
          cases hvar
        | _ => cases hvar
      | false =>
        obtain ⟨scope', hparts⟩ := hplaced.child hfun hvar
        exact ih (hparts c hc) hx
  obtain ⟨slots, v, w, a, i, hmem, hv, hw, hvslot, hwslot, hne⟩ := hloop
  have hbound {id' n : Nat} {u : Variable} (hu : t.vars[id']? = some u)
      (hslot : u.storage = .slot id n) : n < f.slots.length := by
    obtain ⟨f', slot, hf', hn, -⟩ := h.built.slot_of hu hslot
    cases hf.symm.trans hf'
    exact (List.getElem?_eq_some_iff.mp hn).1
  exact ⟨a, i, ⟨slots, v, w, lookup_of_mem h.built.loopKeys hmem, hv, hw, hvslot, hwslot⟩, hne,
    hbound hv hvslot, hbound hw hwslot⟩

/-- The function of a record whose body was lowered. -/
theorem installed {id scope : Nat} {f : FunctionRecord} {result : Ty} {body : Expr}
    {code : Array Instr} (h : Compiles host p t r g) (hfits : Fits host p (t.link g o))
    (hf : t.functions[id]? = some f) (hresult : f.returnType = some result)
    (hplaced : t.Placed scope id body) (hcode : g.functions[id]? = some code)
    (hlower : lowerBody g.pool ⟨t, r, scope⟩ result body = some code.toList) :
    Installed (world p t r natives) ⟨t.link g o, natives⟩ g.pool id scope f result body
      (t.functionDef f code) := by
  have hd : (t.link g o).functions[id]? = some (t.functionDef f code) :=
    function_iff.mpr ⟨f, code, hf, hcode, rfl⟩
  have hmem := Array.mem_of_getElem? hd
  have hslots : f.slots.length < 2 ^ 31 := by
    simpa [functionDef, slotDefs] using hfits.slots _ hmem
  have hparams := h.built.params id f hf
  exact {
    callee := h.callee hfits hd
    name := rfl
    returnType := by
      change (f.returnType.getD .empty).id = result.id
      rw [hresult, Option.getD_some]
    params := UInt32.toNat_ofNat_of_lt' (Nat.lt_trans (by omega : f.paramCount < 2 ^ 31) (by decide))
    slots := by simp [functionDef, slotDefs, World.slotTypes]
    paramSlots := hparams
    code := hlower
    size := hfits.code _ hmem
    loops := fun l item iterable inner hin => h.loop_places hf hplaced hin }

theorem declared_installed {id : Nat} {l : Label} {body : Expr} {scope : Nat} {f : FunctionRecord}
    {result : Ty} (h : Compiles host p t r g) (hfits : Fits host p (t.link g o))
    (hdecl : (world p t r natives).declaration? id = some (l, body))
    (hscope : t.scopeOf? l.id = some scope) (hf : t.functions[id]? = some f)
    (hresult : f.returnType = some result) :
    ∃ d, Installed (world p t r natives) ⟨t.link g o, natives⟩ g.pool id scope f result body d := by
  obtain ⟨name, params, hmem, hid⟩ := World.declaration?_eq_some hdecl
  have hnode := mem_of_lookup hid
  obtain ⟨code, hcode, -⟩ := h.function (o := o) hf
  obtain ⟨-, hcodes⟩ := generate_eq_ok h.code
  obtain ⟨l', name', params', body', scope', f', result', hmem', hid', hscope', hf', hresult',
    hlower⟩ := (hcodes id code hcode).2 (h.built.functionNodes _ hnode).1
  -- a function has one node, and the number of a node names one
  have hlabel : l.id = l'.id :=
    fst_eq_of_snd_eq h.built.functionNodup hnode (mem_of_lookup hid')
  cases h.numbered.eq_of_id hmem hmem' hlabel
  cases hscope.symm.trans hscope'
  cases hf.symm.trans hf'
  cases hresult.symm.trans hresult'
  obtain ⟨_, _, _, _, hid'', hscope'', hbody⟩ :=
    h.typed.bodies h.built.scopeKeys h.built.functionKeys h.built.placed hmem
  cases hid.symm.trans hid''
  cases hscope.symm.trans hscope''
  exact ⟨_, h.installed hfits hf hresult hbody.placed hcode hlower⟩

theorem children_lt {e : Expr} (h : Compiles host p t r g) (hfits : Fits host p (t.link g o))
    (he : e ∈ p.body.nodes) : e.children.length < 2 ^ 31 := by
  obtain ⟨lo, hi, hn, -, hhi⟩ := h.numbered.mem he
  have := hn.children_numbered.length_le
  have := hfits.nodes
  omega

/-- A compiled module is linked with its program. -/
theorem linkedAll (h : Compiles host p t r g) (hfits : Fits host p (t.link g o))
    (hnames : ∀ l name d, .var l name d ∈ p.body.nodes → Text.isIdentifier name = true) :
    LinkedAll (world p t r natives) ⟨t.link g o, natives⟩ g.pool where
  natives := rfl
  types := rfl
  constants := by simp [link]
  poolSize := by simpa [link] using hfits.constants
  children := fun _ he => h.children_lt hfits he
  places := by
    intro id v hv
    cases hplace : v.storage with
    | global n =>
      obtain ⟨g, hg, -⟩ := h.built.global_of hv hplace
      exact Nat.lt_trans (List.getElem?_eq_some_iff.mp hg).1 hfits.globals
    | slot function n =>
      obtain ⟨f, slot, hf, hn, -⟩ := h.built.slot_of hv hplace
      obtain ⟨code, -, hd⟩ := h.function (o := o) hf
      have hslots := hfits.slots _ (Array.mem_of_getElem? hd)
      rw [functionDef, slotDefs, List.length_map] at hslots
      exact Nat.lt_trans (List.getElem?_eq_some_iff.mp hn).1 hslots
  callees := by
    intro scope name types o' ho
    have hknown := h.built.overloads o' (resolveCall?_eq_some ho).1
    cases hcallee : o'.callee with
    | native index =>
      rw [Known, hcallee] at hknown
      obtain ⟨n, hn, -⟩ := hknown
      exact Nat.lt_trans (List.getElem?_eq_some_iff.mp hn).1 hfits.natives
    | script id =>
      rw [Known, hcallee] at hknown
      obtain ⟨-, -, -, f, hf, -⟩ := hknown
      have := hfits.functions
      rw [h.size_functions] at this
      exact Nat.lt_trans (Array.getElem?_eq_some_iff.mp hf).1 this
  below := by
    intro e he x hx y hy
    obtain ⟨lo, hi, hn, -⟩ := h.numbered.mem he
    obtain ⟨lo', hi', hn', hlo, -⟩ := hn.children_numbered.mem hx
    have := (hn'.id_bounds hy).1
    rw [hn.id_eq]
    omega
  visible := by
    intro l name d hmem scope id v hid hv function slot hslot hhidden
    obtain ⟨v', hv', hfold⟩ := h.built.lookupVariable? hid
    cases hv.symm.trans hv'
    exact not_reserved (hnames l name d hmem)
      (reserved_of_foldName hfold (h.built.reserved_of_hidden hv hslot hhidden))
  apart := fun _ _ _ _ _ _ _ hloop hloop' hne => h.built.loops_apart hloop hloop' hne
  declared := fun _ _ _ _ _ _ hdecl hscope hf hresult =>
    h.declared_installed hfits hdecl hscope hf hresult
  program := by
    intro f hf
    obtain ⟨f', hf', -, hresult⟩ := h.built.mainFunction
    cases hf.symm.trans hf'
    obtain ⟨code, hcode, -⟩ := h.function (o := o) hf
    obtain ⟨-, hcodes⟩ := generate_eq_ok h.code
    exact ⟨_, h.installed hfits hf hresult h.built.placed hcode ((hcodes _ code hcode).1 rfl)⟩
  entry := rfl

end Compiles

end Code

end TurtleScript
