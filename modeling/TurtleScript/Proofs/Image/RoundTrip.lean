import TurtleScript.Proofs.Image.Front

/-!
# Modules through their images

A module comes back from either of its images with its functions in the order of their
numbers, and it comes back exactly if every function has slots for its parameters and
keeps its jumps inside. The fixed form is written of no other functions; the relative
form is, and is then refused on reading.
-/
namespace TurtleScript

/-- What an image is checked for, of every function. -/
def FunctionDef.Sound (f : FunctionDef) : Prop :=
  f.paramCount.toNat ≤ f.slots.length ∧ JumpsInside f.code.toList

/-- The module with its functions in the order of their numbers; those of one number
keep their order. -/
def Module.ordered (m : Module) : Module :=
  { m with functions := (m.functions.toList.mergeSort fun f g => f.id ≤ g.id).toArray }

namespace Image

namespace Read

/-- The code section, and the module that it completes, with whatever comes behind. -/
def coded (f : Front) : Read Module := do
  let placed := sortByKey (·.1.id) f.defs
  if placed.all (·.1.id ≠ f.entryPoint) then fail (.noEntryFunction f.entryPoint.toNat)
  let start ← position
  boot (Module.boot f.entryPoint).toList
  let functions ← bodies f.form start f.codeLength placed
  return { f with constants := f.constants.toArray, functions := functions.toArray }

/-- An image with whatever comes behind it. -/
def contents : Read Module := front >>= coded

/-- What is last: nothing comes behind. -/
def finished (m : Module) : Read Module := do
  let left := (← get).rest.length
  if left ≠ 0 then fail (.trailingBytes left)
  return m

theorem finished_apply (m : Module) (c : Cursor) :
    finished m c =
      if c.rest.length ≠ 0 then fail (.trailingBytes c.rest.length) c else .ok (m, c) := by
  change (if c.rest.length ≠ 0 then _ else _ : Read Module) c = _
  split <;> rfl

theorem back_eq (f : Front) : back f = coded f >>= finished := by
  rw [back, coded]
  split
  · rfl
  · simp only [bind_assoc, pure_bind]
    rfl

theorem module_eq_contents : Read.module = contents >>= finished := by
  rw [module_eq, contents, bind_assoc, funext back_eq]

/-- The code section after a front in order that defines the entry function. -/
theorem coded_apply {f : Front} (hs : f.defs.Pairwise fun p q => p.1.id ≤ q.1.id)
    (he : ∃ p ∈ f.defs, p.1.id = f.entryPoint) (position : Nat) (code : List UInt8) :
    coded f ⟨position, (Module.boot f.entryPoint).toList.flatMap Image.instr ++ code⟩ =
      match bodies f.form position f.codeLength f.defs
          ⟨position + ((Module.boot f.entryPoint).toList.flatMap Image.instr).length, code⟩ with
      | .error d => .error d
      | .ok (functions, e) => .ok ({ f with
          constants := f.constants.toArray, functions := functions.toArray }, e) := by
  have hall : ¬ f.defs.all (·.1.id ≠ f.entryPoint) = true := by
    obtain ⟨p, hp, hid⟩ := he
    intro hne
    exact of_decide_eq_true (List.all_eq_true.mp hne p hp) hid
  simp only [coded, sortByKey_of_pairwise _ hs, if_neg hall]
  change (boot _ >>= fun _ => bodies _ position _ _ >>= _ : Read Module) _ = _
  rw [(boot_reads _).bind_apply, Read.bind_apply]
  cases bodies f.form position f.codeLength f.defs _ <;> rfl

end Read

/-- An image is read if there is nothing behind it. -/
theorem ofBytes_eq (b : List UInt8) :
    Module.ofBytes b = match Read.contents ⟨0, b⟩ with
      | .error d => .error d
      | .ok (m, c) =>
        if c.rest.length ≠ 0 then
          .error ⟨.image (.trailingBytes c.rest.length), ⟨c.position, c.position⟩⟩
        else .ok m := by
  rw [Module.ofBytes, Read.module_eq_contents, Read.bind_apply]
  cases Read.contents ⟨0, b⟩ with
  | error d => rfl
  | ok p =>
    simp only [Read.finished_apply]
    by_cases hrest : p.2.rest.length ≠ 0
    · simp only [if_pos hrest]
      rfl
    · simp only [if_neg hrest]

theorem ofBytes_eq_ok {b : List UInt8} {m : Module} :
    Module.ofBytes b = .ok m ↔ ∃ position, Read.contents ⟨0, b⟩ = .ok (m, ⟨position, []⟩) := by
  rw [ofBytes_eq]
  constructor
  · intro h
    split at h
    · cases h
    · rename_i m' c hc
      split at h
      · cases h
      · rename_i hrest
        cases h
        obtain ⟨position, rest⟩ := c
        obtain rfl : rest = [] := List.length_eq_zero_iff.mp (Decidable.not_not.mp hrest)
        exact ⟨position, hc⟩
  · rintro ⟨position, h⟩
    rw [h]
    rfl

section

variable {m : Module} {a : Addressing} {bytes : List UInt8}

/-- A written module is read up to the checks of its functions, and then to its end. -/
theorem contents_bytes (h : Image.bytes m a = .ok bytes) :
    ((∀ f ∈ m.functions, f.Sound) →
      ∃ position, Read.contents ⟨0, bytes⟩ = .ok (m.ordered, ⟨position, []⟩)) ∧
    (¬ (∀ f ∈ m.functions, f.Sound) → ∃ d, Read.contents ⟨0, bytes⟩ = .error d) := by
  obtain ⟨hentry, placed, code, before, hbodies, hfront, rfl⟩ := bytes_eq_ok.mp h
  have hplaced := bodies_placed hbodies
  have hmem (f : FunctionDef) : f ∈ sortByKey (·.id) m.functions.toList ↔ f ∈ m.functions := by
    rw [mem_sortByKey, Array.mem_toList_iff]
  have hsorted : (placed.map Read.definition).Pairwise fun p q => p.1.id ≤ q.1.id := by
    have hp := pairwise_sortByKey (·.id) m.functions.toList
    rw [← hplaced, List.pairwise_map] at hp
    exact List.pairwise_map.mpr hp
  have hfit : Read.ParamsFit placed ↔ ∀ f ∈ m.functions, f.paramCount.toNat ≤ f.slots.length := by
    simp only [← hmem, ← hplaced, List.forall_mem_map]
    rfl
  have hdefined : ∃ p ∈ placed.map Read.definition, p.1.id = m.entryPoint := by
    obtain ⟨f, hf, hid⟩ := hentry
    obtain ⟨p, hp, rfl⟩ := List.mem_map.mp (hplaced ▸ (hmem f).mpr hf)
    exact ⟨_, List.mem_map_of_mem hp, hid⟩
  obtain ⟨hok, herror⟩ := Read.front_apply hfront
    ((Module.boot m.entryPoint).toList.flatMap instr ++ code)
  rw [Read.contents, Read.bind_apply]
  by_cases hp : ∀ f ∈ m.functions, f.paramCount.toNat ≤ f.slots.length
  · rw [hok (hfit.mpr hp)]
    simp only [frontOf]
    rw [Read.coded_apply hsorted hdefined]
    have hb := Read.bodies_apply before.length hbodies []
    simp only [List.append_nil, hmem] at hb
    simp only [List.length_append]
    constructor
    · intro hf
      rw [hb.1 fun f hin => (hf f hin).2, Module.ordered, ← sortByKey_eq_mergeSort, Array.toArray_toList]
      exact ⟨_, rfl⟩
    · intro hf
      have hjumps : ¬ ∀ f ∈ m.functions, JumpsInside f.code.toList := fun hj =>
        hf fun f hin => ⟨hp f hin, hj f hin⟩
      obtain ⟨d, hd⟩ := hb.2 hjumps
      exact ⟨d, by rw [hd]⟩
  · obtain ⟨d, hd⟩ := herror (mt hfit.mp hp)
    refine ⟨fun hf => absurd (fun f hin => (hf f hin).1) hp, fun _ => ⟨d, ?_⟩⟩
    rw [hd]

theorem ofBytes_bytes (h : Image.bytes m a = .ok bytes) :
    ((∀ f ∈ m.functions, f.Sound) → Module.ofBytes bytes = .ok m.ordered) ∧
    (¬ (∀ f ∈ m.functions, f.Sound) → ∃ d, Module.ofBytes bytes = .error d) := by
  obtain ⟨hok, herror⟩ := contents_bytes h
  refine ⟨fun hf => ofBytes_eq_ok.mpr (hok hf), fun hf => ?_⟩
  obtain ⟨d, hd⟩ := herror hf
  exact ⟨d, by rw [ofBytes_eq, hd]⟩

theorem jumpsInside_of_fixed {base : Nat} {fs : List FunctionDef}
    {placed : List (FunctionDef × Nat)} {code : List UInt8}
    (h : Image.bodies .fixed base fs = .ok (placed, code)) :
    ∀ f ∈ fs, JumpsInside f.code.toList := by
  induction fs generalizing base placed code with
  | nil => exact nofun
  | cons f fs ih =>
    obtain ⟨first, placed', rest, hf, hr, _, _⟩ := Read.bodies_cons h
    obtain ⟨fixed, hc, _⟩ := Except.bind_eq_ok hf
    refine List.forall_mem_cons.mpr ⟨?_, ih hr⟩
    simpa [jumpsInside_iff] using Read.insideFrom_of_fixCode hc

end

end Image

theorem Module.toBytes_eq_ok {m : Module} {a : Addressing} {bytes : List UInt8} :
    m.toBytes a = .ok bytes ↔ Image.bytes m a = .ok bytes := by
  rw [Module.toBytes]
  cases Image.bytes m a <;> simp

/-- An image is read back exactly if every function of its module has slots for its
parameters and keeps its jumps inside, which the fixed form is never written without. What
is read is the module with its functions in order, from either form. -/
theorem Module.ofBytes_toBytes (m : Module) (a : Addressing) (bytes : List UInt8)
    (h : m.toBytes a = .ok bytes) :
    ((∃ m', Module.ofBytes bytes = .ok m') ↔
      ∀ f ∈ m.functions, f.paramCount.toNat ≤ f.slots.length ∧ JumpsInside f.code.toList) ∧
    (a = .fixed → ∀ f ∈ m.functions, JumpsInside f.code.toList) ∧
    (∀ m', Module.ofBytes bytes = .ok m' → m' = m.ordered) ∧
    ∀ a' bytes' m', Module.ofBytes bytes = .ok m' → m.toBytes a' = .ok bytes' →
      Module.ofBytes bytes' = .ok m' := by
  have hb := Module.toBytes_eq_ok.mp h
  obtain ⟨hok, herror⟩ := Image.ofBytes_bytes hb
  have hsound {m' : Module} (hm : Module.ofBytes bytes = .ok m') : ∀ f ∈ m.functions, f.Sound := by
    refine Classical.byContradiction fun hf => ?_
    obtain ⟨d, hd⟩ := herror hf
    cases hd.symm.trans hm
  have hread {m' : Module} (hm : Module.ofBytes bytes = .ok m') : m' = m.ordered :=
    Except.ok.inj (hm.symm.trans (hok (hsound hm)))
  refine ⟨⟨fun ⟨_, hm⟩ => hsound hm, fun hf => ⟨_, hok hf⟩⟩, ?_, fun m' => hread, ?_⟩
  · rintro rfl f hf
    obtain ⟨_, placed, code, _, hbodies, _, _⟩ := Image.bytes_eq_ok.mp hb
    refine Image.jumpsInside_of_fixed hbodies f ?_
    rwa [Image.mem_sortByKey, Array.mem_toList_iff]
  · intro a' bytes' m' hm hb'
    rw [hread hm]
    exact (Image.ofBytes_bytes (Module.toBytes_eq_ok.mp hb')).1 (hsound hm)

/-- Two functions out of order, one with a parameter and one with a jump, and a constant
that is not a number. -/
def Module.unordered : Module where
  name := "m"
  vendor := ""
  version := {}
  entryPoint := 1
  constants := #[.double ⟨0x7ff8000000000001⟩]
  types := []
  functions := #[⟨1, "main", 0, 0, [], #[.jump .always 1, .ret 0]⟩,
    ⟨0, "f", 0, 1, [⟨3, "x"⟩], #[.ret 0]⟩]

theorem Module.ofBytes_toBytes_unordered :
    ∃ bytes, Module.unordered.toBytes .fixed = .ok bytes ∧
      Module.ofBytes bytes = .ok Module.unordered.ordered := by
  obtain ⟨bytes, h⟩ : ∃ bytes, Module.unordered.toBytes .fixed = .ok bytes := ⟨_, rfl⟩
  obtain ⟨hiff, hinside, hread, _⟩ := Module.ofBytes_toBytes Module.unordered .fixed bytes h
  have hparams : ∀ f ∈ Module.unordered.functions, f.paramCount.toNat ≤ f.slots.length := by decide
  obtain ⟨m, hm⟩ := hiff.mpr fun f hf => ⟨hparams f hf, hinside rfl f hf⟩
  exact ⟨bytes, h, hread m hm ▸ hm⟩

end TurtleScript
