import TurtleScript.Proofs.Image.RoundTrip

/-!
# Images have one spelling

Every image that is read was written: writing the module again, in the form of the
image, gives an image of the same module. The two are the same bytes if the image has
its function definitions in the order of their numbers; the order of the definitions is
the only thing an image may choose.
-/
namespace TurtleScript.Image

section

variable {α : Type} {w : α → Except ImageProblem (List UInt8)}

theorem concat_perm {as bs : List α} (h : as.Perm bs) {xs : List UInt8}
    (hw : concat w as = .ok xs) : ∃ ys, concat w bs = .ok ys ∧ ys.length = xs.length := by
  induction h generalizing xs with
  | nil => exact ⟨xs, hw, rfl⟩
  | cons a _ ih =>
    obtain ⟨first, hf, h1⟩ := Except.bind_eq_ok hw
    obtain ⟨rest, hr, h2⟩ := Except.bind_eq_ok h1
    cases h2
    obtain ⟨ys, hy, hlen⟩ := ih hr
    refine ⟨first ++ ys, (Except.bind_ok hf).trans (Except.bind_ok hy), ?_⟩
    rw [List.length_append, List.length_append, hlen]
  | swap a b as =>
    obtain ⟨first, hf, h1⟩ := Except.bind_eq_ok hw
    obtain ⟨others, ho, h2⟩ := Except.bind_eq_ok h1
    cases h2
    obtain ⟨second, hs, h3⟩ := Except.bind_eq_ok ho
    obtain ⟨rest, hr, h4⟩ := Except.bind_eq_ok h3
    cases h4
    refine ⟨second ++ (first ++ rest), ?_, ?_⟩
    · exact (Except.bind_ok hs).trans
        (Except.bind_ok ((Except.bind_ok hf).trans (Except.bind_ok hr)))
    · simp only [List.length_append]
      omega
  | trans _ _ ih ih' =>
    obtain ⟨ys, hy, hlen⟩ := ih hw
    obtain ⟨zs, hz, hlen'⟩ := ih' hy
    exact ⟨zs, hz, hlen'.trans hlen⟩

theorem concat_congr {β : Type} {v : β → Except ImageProblem (List UInt8)} {g : α → β}
    (h : ∀ a, v (g a) = w a) (as : List α) : concat v (as.map g) = concat w as := by
  induction as with
  | nil => rfl
  | cons a as ih => rw [List.map_cons, concat, concat, h, ih]

end

/-- The order of its definitions does not decide whether a front can be written. -/
theorem front_perm {f : Front} {bytes : List UInt8} (h : front f = .ok bytes)
    {defs : List (FunctionDef × Nat)} (hp : f.defs.Perm defs) :
    ∃ bytes', front { f with defs } = .ok bytes' := by
  obtain ⟨constants, types, xs, before, counts, places, hc, ht, hd, hb, hn, hs, rfl⟩ :=
    front_eq_ok_iff.mp h
  obtain ⟨ys, hy, hlen⟩ := concat_perm hp hd
  refine ⟨_, front_eq_ok_iff.mpr ⟨constants, types, ys, before, counts, places, hc, ht, hy, hb, ?_, ?_,
    rfl⟩⟩
  · simpa only [Front.counts, hp.length_eq] using hn
  · simpa only [starts, hlen] using hs

/-- A front holds no code. -/
theorem front_definition (f : Front) :
    front { f with defs := f.defs.map Read.definition } = front f := by
  have hdefs : concat (fun p => functionDef p.1 p.2) (f.defs.map Read.definition) =
      concat (fun p => functionDef p.1 p.2) f.defs := concat_congr (fun _ => rfl) f.defs
  simp only [front, hdefs, Front.counts, List.length_map]

/-- The form that the flag byte of an image gives, which follows the signature and the
version of the format. -/
def form (b : List UInt8) : Addressing := if b.getD 6 0 &&& 1 = 1 then .fixed else .relative

theorem form_front {f : Front} {bytes : List UInt8} (h : front f = .ok bytes) (rest : List UInt8) :
    form (bytes ++ rest) = f.form := by
  obtain ⟨constants, types, xs, before, counts, places, hc, ht, hd, hb, hn, hs, rfl⟩ :=
    front_eq_ok_iff.mp h
  obtain ⟨name, _, h1⟩ := Except.bind_eq_ok hb
  obtain ⟨vendor, _, h2⟩ := Except.bind_eq_ok h1
  cases h2
  have hflag (xs : List UInt8) :
      (magic ++ (word 2 formatVersion ++ ([flag f.form] ++ xs))).getD 6 0 = flag f.form := rfl
  simp only [List.append_assoc, form, hflag]
  cases f.form <;> decide

/-- The numbers of the function definitions of an image, as they stand there. -/
def definitionIds (b : List UInt8) : List UInt32 :=
  match Read.front ⟨0, b⟩ with
  | .ok (f, _) => f.defs.map (·.1.id)
  | .error _ => []

namespace Read

/-- What the code section of an image held. -/
theorem coded_eq_ok {f : Front} {c : Cursor} {m : Module} {last : Nat}
    (hbare : ∀ p ∈ f.defs, bare p.1 = p.1) (hsmall : c.position + c.rest.length < 2 ^ 31)
    (h : coded f c = .ok (m, ⟨last, []⟩)) :
    ∃ placed code,
      m = { f with constants := f.constants.toArray, functions := (placed.map (·.1)).toArray } ∧
      (∃ p ∈ placed, p.1.id = f.entryPoint) ∧ (∀ p ∈ placed, JumpsInside p.1.code.toList) ∧
      placed.map definition = sortByKey (·.1.id) f.defs ∧
      Image.bodies f.form ((Module.boot f.entryPoint).toList.flatMap Image.instr).length
        (placed.map (·.1)) = .ok (placed, code) ∧
      c.rest = (Module.boot f.entryPoint).toList.flatMap Image.instr ++ code ∧
      f.codeLength = ((Module.boot f.entryPoint).toList.flatMap Image.instr ++ code).length := by
  rw [coded] at h
  split at h
  · cases h
  · rename_i hall
    obtain ⟨_, _, hstart, h⟩ := bind_eq_ok h
    cases hstart
    obtain ⟨_, d, hboot, h⟩ := bind_eq_ok h
    obtain ⟨fs, e, hb, h⟩ := bind_eq_ok h
    cases h
    have ht := boot_eq_ok hboot
    have hlen := congrArg List.length ht.rest
    rw [List.length_append] at hlen
    have hp := ht.position
    have hne : ∃ p ∈ sortByKey (·.1.id) f.defs, p.1.id = f.entryPoint := by
      simpa using hall
    obtain ⟨hin, hend, placed, code, hw, hpl, htake⟩ :=
      bodies_eq_ok (fun p hp => hbare p ((mem_sortByKey _).mp hp)) hp (by omega)
        (fun hnil => by rw [hnil] at hne; simp at hne) hb
    obtain rfl := bodies_placed hw
    have hq := htake.position
    refine ⟨placed, code, rfl, ?_, fun p hp => hin _ (List.mem_map_of_mem hp), hpl, hw, ?_, ?_⟩
    · obtain ⟨p, hp, hid⟩ := hne
      rw [← hpl] at hp
      obtain ⟨q, hq, rfl⟩ := List.mem_map.mp hp
      exact ⟨q, hq, hid⟩
    · rw [ht.rest, htake.rest, List.append_nil]
    · rw [List.length_append]
      omega

end Read

/-- What was read is written again. -/
theorem bytes_ofBytes {b : List UInt8} {m : Module} (hsmall : b.length < 2 ^ 31)
    (h : Module.ofBytes b = .ok m) :
    m.functions.toList.Pairwise (fun f g => f.id ≤ g.id) ∧
    (∀ f ∈ m.functions, f.Sound) ∧
    (∃ b', Image.bytes m (form b) = .ok b') ∧
    ((definitionIds b).Pairwise (· ≤ ·) → Image.bytes m (form b) = .ok b) := by
  obtain ⟨last, h⟩ := ofBytes_eq_ok.mp h
  obtain ⟨f, c, hf, hb⟩ := Read.bind_eq_ok h
  obtain ⟨hbare, hfit, before, hw, ht⟩ := Read.front_eq_ok hf
  obtain rfl : b = before ++ c.rest := ht.rest
  have hc : c.position = 0 + before.length := ht.position
  rw [List.length_append] at hsmall
  obtain ⟨placed, code, rfl, hentry, hin, hpl, hbodies, hrest, hcode⟩ :=
    Read.coded_eq_ok hbare (by omega) hb
  have hsorted : (placed.map (·.1)).Pairwise fun f g => f.id ≤ g.id := by
    have hs := pairwise_sortByKey (·.1.id) f.defs
    rw [← hpl, List.pairwise_map] at hs
    exact List.pairwise_map.mpr hs
  have hfront : front (frontOf { f with
        constants := f.constants.toArray, functions := (placed.map (·.1)).toArray }
        f.form placed
        ((Module.boot f.entryPoint).toList.flatMap instr ++ code).length) =
      front { f with defs := sortByKey (·.1.id) f.defs } := by
    rw [← hpl, ← hcode]
    exact (front_definition { f with defs := placed }).symm
  have hwrite {before' : List UInt8}
      (hb : front { f with defs := sortByKey (·.1.id) f.defs } = .ok before') :
      Image.bytes { f with
        constants := f.constants.toArray, functions := (placed.map (·.1)).toArray } f.form =
        .ok (before' ++ c.rest) := by
    refine bytes_eq_ok.mpr ⟨?_, placed, code, before', ?_, hfront.trans hb, ?_⟩
    · obtain ⟨p, hp, hid⟩ := hentry
      exact ⟨p.1, List.mem_toArray.mpr (List.mem_map_of_mem hp), hid⟩
    · rw [sortByKey_of_pairwise _ hsorted]
      exact hbodies
    · rw [hrest]
  rw [form_front hw]
  refine ⟨hsorted, ?_, ?_, ?_⟩
  · intro g hg
    obtain ⟨p, hp, rfl⟩ := List.mem_map.mp (List.mem_toArray.mp hg)
    have hdef : Read.definition p ∈ sortByKey (·.1.id) f.defs :=
      hpl ▸ List.mem_map_of_mem hp
    exact ⟨hfit (Read.definition p) ((mem_sortByKey _).mp hdef), hin p hp⟩
  · obtain ⟨before', hb⟩ := front_perm hw (sortByKey_perm (·.1.id) f.defs).symm
    exact ⟨_, hwrite hb⟩
  · intro hids
    rw [definitionIds, hf] at hids
    refine hwrite ?_
    rw [sortByKey_of_pairwise _ (List.pairwise_map.mp hids)]
    exact hw

end TurtleScript.Image

namespace TurtleScript

theorem Module.ordered_of_pairwise {m : Module}
    (h : m.functions.toList.Pairwise fun f g => f.id ≤ g.id) : m.ordered = m := by
  rw [Module.ordered, List.mergeSort_of_pairwise (h.imp decide_eq_true)]

/-- A module that was read has its functions in order, has its entry function, slots for
all parameters and no jump that leaves its function. It is written in the form of its
image to an image of itself, which is the one it was read from if that has its
definitions in order. -/
theorem Module.toBytes_ofBytes (b : List UInt8) (m : Module) (hsize : b.length < 2 ^ 31)
    (h : Module.ofBytes b = .ok m) :
    m.functions.toList.Pairwise (fun f g => f.id ≤ g.id) ∧
    (∃ f ∈ m.functions, f.id = m.entryPoint) ∧
    (∀ f ∈ m.functions,
      f.paramCount.toNat ≤ f.slots.length ∧ JumpsInside f.code.toList) ∧
    (∃ b', m.toBytes (Image.form b) = .ok b' ∧ Module.ofBytes b' = .ok m) ∧
    ((Image.definitionIds b).Pairwise (· ≤ ·) → m.toBytes (Image.form b) = .ok b) := by
  obtain ⟨hsorted, hsound, ⟨b', hb'⟩, hsame⟩ := Image.bytes_ofBytes hsize h
  obtain ⟨hentry, _⟩ := Image.bytes_eq_ok.mp hb'
  have hread := (Image.ofBytes_bytes hb').1 hsound
  rw [Module.ordered_of_pairwise hsorted] at hread
  exact ⟨hsorted, hentry, hsound, ⟨b', Module.toBytes_eq_ok.mpr hb', hread⟩,
    fun hids => Module.toBytes_eq_ok.mpr (hsame hids)⟩

/-- The image of one function, which jumps to its end; the jump is written as a byte. -/
def Image.jumpToEnd : List UInt8 :=
  [84, 82, 80, 78, 1, 0, 1, 0, 0, 0, 0, 0, 0, 0, 0, 0, 0, 0, 0, 0, 0, 0, 0, 3, 0, 0, 0, 0, 0, 0,
    0, 0, 0, 0, 0, 0, 0, 0, 0, 1, 0, 0, 0, 0, 0, 0, 0, 21, 0, 0, 0, 75, 0, 0, 0, 75, 0, 0, 0, 75,
    0, 0, 0, 75, 0, 0, 0, 100, 0, 0, 0, 100, 0, 0, 0, 3, 0, 0, 0, 1, 0, 0, 0, 102, 0, 0, 0, 0, 15,
    0, 0, 0, 0, 0, 0, 0, 0, 0, 0, 0, 6, 0, 0, 0, 0, 72, 3, 0, 0, 0, 0, 0, 0, 0, 79, 0, 64, 21, 0,
    0, 0]

theorem Module.toBytes_ofBytes_jumpToEnd :
    Image.jumpToEnd.length < 2 ^ 31 ∧
      ∃ m, Module.ofBytes Image.jumpToEnd = .ok m ∧ m.toBytes .fixed = .ok Image.jumpToEnd := by
  have hlength : Image.jumpToEnd.length = 121 := rfl
  have hsize : Image.jumpToEnd.length < 2 ^ 31 := by omega
  obtain ⟨m, hm⟩ : ∃ m, Module.ofBytes Image.jumpToEnd = .ok m := ⟨_, rfl⟩
  obtain ⟨_, _, _, _, hsame⟩ := Module.toBytes_ofBytes Image.jumpToEnd m hsize hm
  exact ⟨hsize, m, hm, hsame (by decide)⟩

end TurtleScript
