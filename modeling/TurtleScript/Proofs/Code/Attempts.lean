import TurtleScript.Proofs.Code.Construction

/-!
# Calls that fail

A call on code under construction fails exactly if it names a marker that is not in use: one of
another function, or one that was released. To look for a marker changes nothing, so a call that
looks for its markers before it writes has no effect when it fails. A jump, however, is written
before its target is looked for. If only the target is not in use, the call fails and the jump
stays, aimed at nothing, as if it had been written for a plain instruction. So calls that may fail
lead to no other states than calls that all succeed.
-/
namespace TurtleScript

namespace CodeBuilder

/-- The marker is one of this function and has not been released. -/
def Uses (b : CodeBuilder) (m : Marker) : Prop :=
  m.function = b.function ∧ m.id ∈ b.live.map (·.id)

instance (b : CodeBuilder) (m : Marker) : Decidable (b.Uses m) :=
  inferInstanceAs (Decidable (_ ∧ _))

/-- What is said of a marker that is not in use. -/
def refusal (b : CodeBuilder) (m : Marker) : Diagnostic where
  problem := .code <|
    if m.function = b.function then .deadMarker m.id else .foreignMarker m.function b.function
  span := {}

/-- Two builders of one function with the same markers in use. -/
structure Alike (b b' : CodeBuilder) : Prop where
  function : b'.function = b.function
  ids : b'.live.map (·.id) = b.live.map (·.id)
  next : b'.nextMarker = b.nextMarker

section Markers

variable {b b' : CodeBuilder} {m target : Marker}

theorem Alike.uses_iff (h : Alike b b') : b'.Uses m ↔ b.Uses m := by
  rw [Uses, Uses, h.function, h.ids]

theorem Alike.refusal (h : Alike b b') : b'.refusal m = b.refusal m := by
  rw [CodeBuilder.refusal, CodeBuilder.refusal, h.function]

theorem alike_insert (b : CodeBuilder) (spot : Anchor) (i : Instr) : Alike b (b.insert spot i) :=
  ⟨rfl, Draft.ids_insert b spot i, rfl⟩

theorem anchor_refused (h : ¬ b.Uses m) : anchor m b = .error (b.refusal m) b := by
  refine (EStateM.bind_ok rfl).trans ?_
  by_cases hf : m.function = b.function
  · have hnone : b.live.find? (·.id = m.id) = none :=
      List.find?_eq_none.mpr fun a ha hid =>
        h ⟨hf, List.mem_map.mpr ⟨a, ha, of_decide_eq_true hid⟩⟩
    rw [if_neg (not_not_intro hf), refusal, if_pos hf]
    simp only [hnone]
    rfl
  · rw [if_pos hf, refusal, if_neg hf]
    rfl

theorem aim_ok (site : Nat) (h : b.Uses target) :
    ∃ b', aim site target b = .ok () b' ∧ Alike b b' := by
  obtain ⟨a, ha⟩ := Tokens.anchor_ok h.1 h.2
  exact ⟨_, EStateM.bind_ok ha, rfl, rfl, rfl⟩

theorem place_ok (i : Instr) (h : b.Uses m) : ∃ k b', place m i b = .ok k b' ∧ Alike b b' := by
  obtain ⟨spot, hspot⟩ := Tokens.anchor_ok h.1 h.2
  exact ⟨spot.index, b.insert spot i, EStateM.bind_ok hspot, alike_insert b spot i⟩

theorem placeJump_ok (kind : JumpKind) (hm : b.Uses m) (ht : b.Uses target) :
    ∃ b', placeJump m kind target b = .ok () b' ∧ Alike b b' := by
  obtain ⟨k, b₁, hplace, h₁⟩ := place_ok (.jump kind 0) hm
  obtain ⟨b₂, haim, h₂⟩ := aim_ok k (h₁.uses_iff.mpr ht)
  exact ⟨b₂, (EStateM.bind_ok hplace).trans haim, h₂.function.trans h₁.function,
    h₂.ids.trans h₁.ids, h₂.next.trans h₁.next⟩

theorem emitJump_ok (kind : JumpKind) (h : b.Uses target) :
    ∃ k b', emitJump kind target b = .ok k b' ∧ Alike b b' := by
  obtain ⟨b', haim, halike⟩ :=
    aim_ok (b := { b with code := b.code.push (.jump kind 0) }) b.code.size h
  exact ⟨b.code.size, b', (EStateM.bind_ok rfl).trans (EStateM.bind_ok haim), halike.function,
    halike.ids, halike.next⟩

theorem place_refused (i : Instr) (h : ¬ b.Uses m) : place m i b = .error (b.refusal m) b :=
  EStateM.bind_error (anchor_refused h)

/-- The jump is in place when its target is looked for. -/
theorem placeJump_stranded (kind : JumpKind) (hm : b.Uses m) (ht : ¬ b.Uses target) :
    ∃ k b', place m (.jump kind 0) b = .ok k b' ∧ Alike b b' ∧
      placeJump m kind target b = .error (b.refusal target) b' := by
  obtain ⟨k, b', hplace, halike⟩ := place_ok (.jump kind 0) hm
  refine ⟨k, b', hplace, halike, (EStateM.bind_ok hplace).trans ?_⟩
  rw [← halike.refusal]
  exact EStateM.bind_error (anchor_refused (mt halike.uses_iff.mp ht))

theorem emitJump_stranded (kind : JumpKind) (h : ¬ b.Uses target) :
    emitJump kind target b =
      .error (b.refusal target) { b with code := b.code.push (.jump kind 0) } :=
  (EStateM.bind_ok rfl).trans (EStateM.bind_error (EStateM.bind_error (anchor_refused h)))

end Markers

end CodeBuilder

namespace Draft

theorem Describes.size_place {function : Nat} {d : Draft} {b b' : CodeBuilder} {m : Marker}
    {i : Instr} {u : Unit} (h : Describes function d b)
    (hop : (CodeBuilder.Operation.place m i).perform b = .ok u b') :
    b'.code.size = b.code.size + 1 := by
  obtain ⟨k, b₁, hplace, -⟩ := EStateM.bind_eq_ok hop
  obtain ⟨a, b₂, ha, -⟩ := EStateM.bind_eq_ok hplace
  obtain ⟨xs, ys, hsplit, hinsert⟩ := h.split ha
  rw [(h.place hop).refines.size_code, h.refines.size_code]
  simp only [step, hsplit, hinsert, Tokens.instrs_append, Tokens.instrs_mark, Tokens.instrs_instr,
    List.length_append, List.length_cons]
  omega

end Draft

namespace CodeBuilder

/-- What can be asked for: where a marker stands, or an operation. -/
inductive Call where
  | index (m : Marker)
  | operate (op : Operation)
deriving DecidableEq, Repr

namespace Call

def perform : Call → Build Unit
  | .index m => do let _ ← CodeBuilder.index m
  | .operate op => op.perform

/-- The markers that a call names. -/
def markers : Call → List Marker
  | .index m | .operate (.place m _) | .operate (.release m) => [m]
  | .operate (.emitJump _ target) => [target]
  | .operate (.placeJump m _ target) => [m, target]
  | .operate (.emit _) | .operate .acquire => []

/-- What a call has done when it finds that the target of its jump is not in use. -/
def leftover (b : CodeBuilder) : Call → Option Operation
  | .operate (.emitJump kind target) =>
    if b.Uses target then none else some (.emit (.jump kind 0))
  | .operate (.placeJump m kind target) =>
    if b.Uses m ∧ ¬ b.Uses target then some (.place m (.jump kind 0)) else none
  | _ => none

/-- How a call ends, with the state that it leaves. -/
inductive Ends (b : CodeBuilder) (c : Call) : EStateM.Result Diagnostic CodeBuilder Unit → Prop
  | done {b' : CodeBuilder} : (∀ m ∈ c.markers, b.Uses m) → Ends b c (.ok () b')
  | refused {m : Marker} : m ∈ c.markers → ¬ b.Uses m → c.leftover b = none →
      Ends b c (.error (b.refusal m) b)
  | stranded {m : Marker} {op : Operation} {b' : CodeBuilder} : m ∈ c.markers → ¬ b.Uses m →
      c.leftover b = some op → op.perform b = .ok () b' → Alike b b' →
      Ends b c (.error (b.refusal m) b')

/-- A call that writes nothing before it has found its only marker. -/
theorem ends_of_anchor {b : CodeBuilder} {c : Call} {m : Marker} (hmarkers : c.markers = [m])
    (hleft : c.leftover b = none)
    (hok : ∀ a, anchor m b = .ok a b → ∃ b', c.perform b = .ok () b')
    (herror : ∀ e, anchor m b = .error e b → c.perform b = .error e b) :
    c.Ends b (c.perform b) := by
  by_cases h : b.Uses m
  · obtain ⟨a, ha⟩ := Tokens.anchor_ok h.1 h.2
    obtain ⟨b', hb'⟩ := hok a ha
    rw [hb']
    exact .done (by simpa [hmarkers] using h)
  · rw [herror _ (anchor_refused h)]
    exact .refused (by simp [hmarkers]) h hleft

theorem ends_emitJump (b : CodeBuilder) (kind : JumpKind) (target : Marker) :
    Ends b (.operate (.emitJump kind target)) ((Operation.emitJump kind target).perform b) := by
  by_cases h : b.Uses target
  · obtain ⟨k, b', hjump, -⟩ := emitJump_ok kind h
    rw [show (Operation.emitJump kind target).perform b = .ok () b' from EStateM.bind_ok hjump]
    exact .done (by simpa [markers] using h)
  · rw [show (Operation.emitJump kind target).perform b = _ from
      EStateM.bind_error (emitJump_stranded kind h)]
    exact .stranded (by simp [markers]) h (if_neg h) rfl ⟨rfl, rfl, rfl⟩

/-- The place of the jump is looked for before anything is written, its target after it. -/
theorem ends_placeJump (b : CodeBuilder) (m : Marker) (kind : JumpKind) (target : Marker) :
    Ends b (.operate (.placeJump m kind target)) (placeJump m kind target b) := by
  by_cases hm : b.Uses m
  · by_cases ht : b.Uses target
    · obtain ⟨b', hjump, -⟩ := placeJump_ok kind hm ht
      rw [hjump]
      exact .done (by simpa [markers] using ⟨hm, ht⟩)
    · obtain ⟨k, b', hplace, halike, hjump⟩ := placeJump_stranded kind hm ht
      rw [hjump]
      exact .stranded (by simp [markers]) ht (if_pos ⟨hm, ht⟩) (EStateM.bind_ok hplace) halike
  · rw [show placeJump m kind target b = _ from
      EStateM.bind_error (place_refused (.jump kind 0) hm)]
    exact .refused (by simp [markers]) hm (if_neg fun h => hm h.1)

theorem ends (b : CodeBuilder) (c : Call) : c.Ends b (c.perform b) := by
  match c with
  | .index m =>
    exact ends_of_anchor rfl rfl
      (fun a ha => ⟨b, EStateM.bind_ok (EStateM.bind_ok ha)⟩)
      (fun e he => EStateM.bind_error (EStateM.bind_error he))
  | .operate (.emit i) => exact .done nofun
  | .operate .acquire => exact .done nofun
  | .operate (.emitJump kind target) => exact ends_emitJump b kind target
  | .operate (.place m i) =>
    exact ends_of_anchor rfl rfl
      (fun a ha => ⟨b.insert a i, EStateM.bind_ok (EStateM.bind_ok ha)⟩)
      (fun e he => EStateM.bind_error (EStateM.bind_error he))
  | .operate (.placeJump m kind target) => exact ends_placeJump b m kind target
  | .operate (.release m) =>
    exact ends_of_anchor rfl rfl (fun a ha => ⟨_, EStateM.bind_ok ha⟩)
      (fun e he => EStateM.bind_error he)

theorem fails_iff (b : CodeBuilder) (c : Call) :
    (∃ e b', c.perform b = .error e b') ↔ ∃ m ∈ c.markers, ¬ b.Uses m := by
  have hends := c.ends b
  constructor
  · rintro ⟨e, b', h⟩
    rw [h] at hends
    cases hends with
    | refused hm hu | stranded hm hu => exact ⟨_, hm, hu⟩
  · rintro ⟨m, hm, hu⟩
    cases h : c.perform b with
    | error e b' => exact ⟨e, b', rfl⟩
    | ok u b' =>
      rw [h] at hends
      cases hends with
      | done hall => exact absurd (hall m hm) hu

/-- A leftover is one more instruction. The markers stand inside the code, so that this is so for
an insertion as well. -/
theorem size_leftover {function : Nat} {d : Draft} {b b' : CodeBuilder} {c : Call} {op : Operation}
    (hd : Draft.Describes function d b) (hleft : c.leftover b = some op)
    (hop : op.perform b = .ok () b') : b'.code.size = b.code.size + 1 := by
  unfold leftover at hleft
  split at hleft
  case h_1 kind target =>
    obtain ⟨-, h⟩ := Option.ite_none_left_eq_some.mp hleft
    cases h
    cases hop
    exact Array.size_push _
  case h_2 m kind target =>
    obtain ⟨-, h⟩ := Option.ite_none_right_eq_some.mp hleft
    cases h
    exact hd.size_place hop
  case h_3 => cases hleft

end Call

/-- The state that a call leaves, whether it failed or not. -/
def attempt (b : CodeBuilder) (c : Call) : CodeBuilder :=
  match c.perform b with
  | .ok _ b' | .error _ b' => b'

/-- The state of the code of a function after any calls. -/
def reached (function : Nat) (calls : List Call) : CodeBuilder := calls.foldl attempt { function }

theorem performAll_append {xs : List Operation} {b b' : CodeBuilder} {u : Unit}
    (h : performAll xs b = .ok u b') (ys : List Operation) :
    performAll (xs ++ ys) b = performAll ys b' := by
  induction xs generalizing b with
  | nil =>
    obtain ⟨-, rfl⟩ := EStateM.pure_eq_ok h
    rfl
  | cons op xs ih =>
    obtain ⟨_, b₁, hop, hrest⟩ := EStateM.bind_eq_ok h
    exact (EStateM.bind_ok hop).trans (ih hrest)

/-- What a call does, operations do that succeed. -/
theorem exists_performAll_attempt (b : CodeBuilder) (c : Call) :
    ∃ ops, performAll ops b = .ok () (b.attempt c) := by
  rw [attempt]
  cases hc : c.perform b with
  | ok u b' =>
    cases c with
    | index m =>
      obtain ⟨k, b₁, hindex, hk⟩ := EStateM.bind_eq_ok hc
      obtain ⟨a, b₂, ha, hk'⟩ := EStateM.bind_eq_ok hindex
      obtain ⟨rfl, -, -⟩ := Tokens.anchor_eq_ok ha
      cases hk'
      cases hk
      exact ⟨[], rfl⟩
    | operate op => exact ⟨[op], EStateM.bind_ok hc⟩
  | error e b' =>
    have hends := c.ends b
    rw [hc] at hends
    cases hends with
    | refused => exact ⟨[], rfl⟩
    | stranded _ _ _ hop => exact ⟨[_], EStateM.bind_ok hop⟩

/-- Calls that fail lead nowhere that operations without a failure do not lead. -/
theorem exists_performAll_reached (function : Nat) (calls : List Call) :
    ∃ ops, performAll ops { function } = .ok () (reached function calls) := by
  rw [reached]
  generalize ({ function } : CodeBuilder) = b
  induction calls generalizing b with
  | nil => exact ⟨[], rfl⟩
  | cons c calls ih =>
    obtain ⟨xs, hxs⟩ := exists_performAll_attempt b c
    obtain ⟨ys, hys⟩ := ih (b.attempt c)
    exact ⟨xs ++ ys, (performAll_append hxs ys).trans hys⟩

/-- A call fails exactly if a marker that it names is not in use. Then all is as it was before,
unless the call has a leftover: a jump whose target was looked for too late. It is then as after
the operation that writes the jump and nothing more, with the same markers in use. -/
theorem perform_error_iff (function : Nat) (calls : List Call) (c : Call) (b : CodeBuilder)
    (hb : reached function calls = b) :
    ((∃ e b', c.perform b = .error e b') ↔ ∃ m ∈ c.markers, ¬ b.Uses m) ∧
    ∀ e b', c.perform b = .error e b' →
      (∃ m ∈ c.markers, ¬ b.Uses m ∧ e = b.refusal m) ∧
      (b' = b ↔ c.leftover b = none) ∧
      (∀ op ∈ c.leftover b, op.perform b = .ok () b') ∧
      Alike b b' := by
  refine ⟨c.fails_iff b, fun e b' h => ?_⟩
  have hends := c.ends b
  rw [h] at hends
  cases hends with
  | refused hm hu hleft =>
    exact ⟨⟨_, hm, hu, rfl⟩, iff_of_true rfl hleft, by simp [hleft], rfl, rfl, rfl⟩
  | stranded hm hu hleft hop halike =>
    obtain ⟨ops, hops⟩ := exists_performAll_reached function calls
    rw [hb] at hops
    have hsize := Call.size_leftover ((Draft.describes_start function).performAll hops) hleft hop
    refine ⟨⟨_, hm, hu, rfl⟩, iff_of_false ?_ (by simp [hleft]), ?_, halike⟩
    · rintro rfl
      omega
    · intro op hop'
      rw [hleft] at hop'
      cases hop'
      exact hop

/-- A loop with a marker at its start, one at its jump and one that was released. Two of the calls
fail. -/
def retired : List Call :=
  [.operate .acquire, .operate (.emit .dup), .operate .acquire,
    .operate (.emitJump .always ⟨1, 4⟩), .operate .acquire, .operate (.release ⟨2, 9⟩),
    .operate (.release ⟨2, 4⟩), .index ⟨2, 4⟩]

def retiredBuilder : CodeBuilder where
  function := 4
  code := #[.dup, .jump .always 0]
  live := [⟨0, 0⟩, ⟨1, 1⟩]
  jumps := [⟨1, ⟨1, 1⟩⟩]
  nextMarker := 3

theorem reached_retired : reached 4 retired = retiredBuilder := by decide +kernel

/-- The same code with a jump at its start that is aimed at nothing. -/
def strayed : CodeBuilder :=
  { retiredBuilder with
    code := #[.jump .ifFalse 0, .dup, .jump .always 0]
    live := [⟨0, 0⟩, ⟨1, 2⟩]
    jumps := [⟨2, ⟨1, 2⟩⟩] }

theorem perform_error_iff_retired :
    reached 4 retired = retiredBuilder ∧
    (∃ e b', (Call.operate (.placeJump ⟨2, 4⟩ .ifFalse ⟨0, 4⟩)).perform retiredBuilder =
      .error e b' ∧ b' = retiredBuilder) ∧
    (Operation.place ⟨0, 4⟩ (.jump .ifFalse 0)).perform retiredBuilder = .ok () strayed := by
  refine ⟨reached_retired, ?_, ?_⟩
  · obtain ⟨hfails, heffect⟩ := perform_error_iff 4 retired
      (.operate (.placeJump ⟨2, 4⟩ .ifFalse ⟨0, 4⟩)) _ reached_retired
    obtain ⟨e, b', h⟩ := hfails.mpr ⟨⟨2, 4⟩, by decide, by decide⟩
    exact ⟨e, b', h, (heffect e b' h).2.1.mpr (by decide)⟩
  · obtain ⟨-, heffect⟩ := perform_error_iff 4 retired
      (.operate (.placeJump ⟨0, 4⟩ .ifFalse ⟨2, 4⟩)) _ reached_retired
    exact (heffect ⟨.code (.deadMarker 2), {}⟩ _ (by decide +kernel)).2.2.1 _ (by decide)

/-- The place of the jump is in use and its target is not, so the call fails when the code, the
places of the markers and the other jumps have already moved. -/
theorem placeJump_moves_code :
    reached 4 retired = retiredBuilder ∧
    (Call.operate (.placeJump ⟨0, 4⟩ .ifFalse ⟨2, 4⟩)).perform retiredBuilder =
      .error ⟨.code (.deadMarker 2), {}⟩ strayed ∧
    strayed.code ≠ retiredBuilder.code ∧ strayed.live ≠ retiredBuilder.live ∧
    strayed.jumps ≠ retiredBuilder.jumps ∧
    ∃ b, (Call.operate (.emitJump .ifTrue ⟨0, 9⟩)).perform retiredBuilder =
        .error ⟨.code (.foreignMarker 9 4), {}⟩ b ∧ b.code ≠ retiredBuilder.code :=
  ⟨reached_retired, by decide +kernel, by decide, by decide, by decide, _, rfl, by decide⟩

end CodeBuilder

end TurtleScript
