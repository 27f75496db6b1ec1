import TurtleScript.Proofs.Image.RoundTrip

/-!
# Images and their beginnings

Reading goes from front to back and looks at nothing before it is due. So on the beginning of an
input it does what it does on the whole input, until it comes to the end of what is there. An image
says itself how long it is: cut short, it ends too early, and with anything behind it, it has bytes
too many.
-/
namespace TurtleScript.Image

/-- The same place in an input that goes on with `more`. -/
def Cursor.followed (c : Cursor) (more : List UInt8) : Cursor := { c with rest := c.rest ++ more }

namespace Read

variable {α β : Type}

/-- How reading ends on `total` bytes, and how it ends if `more` follows. -/
inductive Endings (total : Nat) (more : List UInt8) :
    Except Diagnostic (α × Cursor) → Except Diagnostic (α × Cursor) → Prop where
  | read (a : α) {c : Cursor} (inside : c.position + c.rest.length = total) :
      Endings total more (.ok (a, c)) (.ok (a, c.followed more))
  | failed (d : Diagnostic) : Endings total more (.error d) (.error d)
  /-- The input came to its end; what follows may be read in any way. -/
  | cut {stop : Nat} (inside : stop ≤ total) (later : Except Diagnostic (α × Cursor)) :
      Endings total more (.error ⟨.image .endOfInput, ⟨stop, stop⟩⟩) later

/-- Up to the end of the input, what follows makes no difference. -/
def Steady (r : Read α) : Prop :=
  ∀ c more, Endings (c.position + c.rest.length) more (r c) (r (c.followed more))

namespace Steady

theorem pure (a : α) : Steady (pure a) := fun _ _ => .read a rfl

theorem fail (p : ImageProblem) : Steady (fail p : Read α) := fun _ _ => .failed _

theorem throw (d : Diagnostic) : Steady (throw d : Read α) := fun _ _ => .failed d

theorem position : Steady position := fun c _ => .read c.position rfl

theorem bind {r : Read α} {k : α → Read β} (hr : Steady r) (hk : ∀ a, Steady (k a)) :
    Steady (r >>= k) := by
  intro c more
  have h := hr c more
  rw [Read.bind_apply, Read.bind_apply]
  generalize r c = x at h
  generalize r (c.followed more) = y at h
  cases h with
  | read a inside =>
    rw [← inside]
    exact hk a _ more
  | failed d => exact .failed d
  | cut inside later => exact .cut inside _

theorem ite {p : Prop} [Decidable p] {x y : Read α} (hx : Steady x) (hy : Steady y) :
    Steady (if p then x else y) := by
  split
  · exact hx
  · exact hy

/-- A check before the rest. -/
theorem check {p : Prop} [Decidable p] {q : ImageProblem} {k : Read α} (hk : Steady k) :
    Steady (if p then Read.fail q >>= fun _ : PUnit => k else k) :=
  .ite ((Steady.fail q).bind fun _ => hk) hk

theorem take (n : Nat) : Steady (take n) := by
  rintro ⟨position, rest⟩ more
  by_cases hn : n ≤ rest.length
  · have hlength : (rest.take n).length = n := List.length_take_of_le hn
    have hread (after : List UInt8) : Read.take n ⟨position, rest.take n ++ after⟩ =
        .ok (rest.take n, ⟨position + n, after⟩) := by
      simpa only [hlength] using take_reads (rest.take n) position after
    have hhere := hread (rest.drop n)
    have hlater := hread (rest.drop n ++ more)
    rw [← List.append_assoc] at hlater
    rw [List.take_append_drop] at hhere hlater
    rw [Cursor.followed, hhere, hlater]
    refine .read _ ?_
    change position + n + (rest.drop n).length = position + rest.length
    rw [List.length_drop]
    omega
  · have hcut : Read.take n ⟨position, rest⟩ = .error ⟨.image .endOfInput, ⟨position, position⟩⟩ := by
      have hshort : (rest.take n).length ≠ n := by
        rw [List.length_take]
        omega
      simp only [Read.take, Read.bind_apply, get, getThe, MonadStateOf.get, StateT.get, Pure.pure,
        Except.pure, List.splitAt_eq, if_neg hshort]
      rfl
    rw [hcut]
    exact .cut (Nat.le_add_right _ _) _

theorem map {r : Read α} (hr : Steady r) (f : α → β) : Steady (do return f (← r)) :=
  hr.bind fun _ => .pure _

theorem many {r : Read α} (hr : Steady r) (n : Nat) : Steady (many r n) := by
  induction n with
  | zero => exact .pure []
  | succ n ih => exact hr.bind fun _ => ih.map _

end Steady

theorem number_steady (width : Nat) : Steady (number width) := (Steady.take width).map _

theorem byte_steady : Steady byte := (number_steady 1).map _

theorem word16_steady : Steady word16 := (number_steady 2).map _

theorem word32_steady : Steady Read.word32 := (number_steady 4).map _

theorem operand_steady : Steady operand := word32_steady.map _

theorem flag_steady : Steady Read.flag := by
  refine byte_steady.bind fun b => ?_
  split
  · exact .pure _
  · exact .pure _
  · exact .fail _

theorem text_steady : Steady Read.text := by
  refine (number_steady 4).bind fun n => (Steady.take n).bind fun bytes => ?_
  split
  · exact .pure _
  · exact .fail _

theorem kind_steady (role : TagRole) : Steady (kind role) := by
  refine byte_steady.bind fun tag => ?_
  split
  · exact .pure _
  · exact .fail _

theorem constant_steady : Steady Read.constant := by
  refine (kind_steady _).bind fun k => ?_
  split
  · exact flag_steady.map _
  · exact (number_steady 8).map _
  · exact text_steady.map _
  · exact .fail _

theorem fieldDef_steady : Steady fieldDef := word32_steady.bind fun _ => text_steady.map _

theorem variableDef_steady : Steady variableDef := word32_steady.bind fun _ => text_steady.map _

theorem typeDef_steady : Steady Read.typeDef :=
  word32_steady.bind fun _ => text_steady.bind fun _ => flag_steady.bind fun _ =>
    (kind_steady _).bind fun _ => word32_steady.bind fun _ => (number_steady 4).bind fun n =>
      (fieldDef_steady.many n).map _

theorem functionDef_steady : Steady Read.functionDef := by
  refine word32_steady.bind fun _ => text_steady.bind fun _ => word32_steady.bind fun _ =>
    (number_steady 4).bind fun _ => word32_steady.bind fun _ => (number_steady 4).bind fun n =>
      (variableDef_steady.many n).bind fun _ => ?_
  exact .ite (.fail _) (.pure _)

theorem instr_steady : Steady Read.instr := by
  refine byte_steady.bind fun b => ?_
  split
  · exact .fail _
  · refine (operand_steady.many _).bind fun _ => ?_
    split
    · exact .pure _
    · exact .fail _

theorem code_steady (stop limit : Nat) : Steady (code stop limit) := by
  induction limit with
  | zero => exact .pure []
  | succ limit ih =>
    refine Steady.position.bind fun here => ?_
    exact .ite (instr_steady.bind fun _ => ih.map _) (.pure [])

theorem sectionStart_steady (name : String) (pointer : Nat) : Steady (sectionStart name pointer) :=
  Steady.position.bind fun _ => .ite (.fail _) (.pure ())

theorem reserved_steady (name : String) (count : Nat) : Steady (reserved name count) :=
  .ite (.pure ()) (.fail _)

theorem boot_steady (is : List Instr) : Steady (boot is) := by
  induction is with
  | nil => exact .pure ()
  | cons i is ih => exact instr_steady.bind fun _ => .check ih

theorem body_steady (a : Addressing) (start : Nat) (f : FunctionDef) (offset stop : Nat) :
    Steady (body a start f offset stop) := by
  refine Steady.position.bind fun here => .check ?_
  refine (code_steady _ _).bind fun raw => Steady.position.bind fun there => .check ?_
  split
  · exact .pure _
  · exact .fail _

theorem bodies_steady (a : Addressing) (start length : Nat) (defs : List (FunctionDef × Nat)) :
    Steady (bodies a start length defs) := by
  induction defs with
  | nil => exact .pure []
  | cons p defs ih => exact (body_steady a start p.1 p.2 _).bind fun _ => ih.map _

theorem signature_steady : Steady signature :=
  (Steady.take _).bind fun _ => .ite (.throw _) (.pure ())

theorem addressing_steady : Steady addressing := by
  refine byte_steady.bind fun b => ?_
  split
  · exact .pure _
  · exact .pure _
  · exact .fail _

theorem version_steady : Steady version :=
  word16_steady.bind fun _ => word16_steady.bind fun _ => word16_steady.bind fun _ =>
    word16_steady.map _

theorem sectionTable_steady : Steady sectionTable := by
  rw [sectionTable_eq]
  exact ((number_steady 4).many 6).map _

theorem heading_steady : Steady heading :=
  signature_steady.bind fun _ => (word16_steady.bind fun _ => .ite (.fail _) (.pure ())).bind fun _ =>
    addressing_steady.bind fun _ => text_steady.bind fun _ => text_steady.bind fun _ =>
      version_steady.bind fun _ => word32_steady.map _

theorem front_steady : Steady front :=
  heading_steady.bind fun _ => sectionTable_steady.bind fun _ => sectionTable_steady.bind fun _ =>
    (reserved_steady _ _).bind fun _ => (reserved_steady _ _).bind fun _ =>
      (sectionStart_steady _ _).bind fun _ => (constant_steady.many _).bind fun _ =>
        (sectionStart_steady _ _).bind fun _ => (typeDef_steady.many _).bind fun _ =>
          (sectionStart_steady _ _).bind fun _ => (sectionStart_steady _ _).bind fun _ =>
            (functionDef_steady.many _).bind fun _ => (sectionStart_steady _ _).bind fun _ =>
              (sectionStart_steady _ _).map _

theorem coded_steady (f : Front) : Steady (coded f) :=
  .check <| Steady.position.bind fun start => (boot_steady _).bind fun _ =>
    (bodies_steady f.form start _ _).map _

theorem contents_steady : Steady contents := front_steady.bind coded_steady

end Read

section

variable {b more : List UInt8} {m : Module}

theorem contents_append {c : Cursor} (h : Read.contents ⟨0, b⟩ = .ok (m, c)) (more : List UInt8) :
    Read.contents ⟨0, b ++ more⟩ = .ok (m, c.followed more) ∧
      c.position + c.rest.length = b.length := by
  have hends := Read.contents_steady ⟨0, b⟩ more
  rw [h, Cursor.followed] at hends
  generalize Read.contents ⟨0, b ++ more⟩ = x at hends ⊢
  cases hends with
  | read _ inside => exact ⟨rfl, by simpa using inside⟩

theorem ofBytes_append (h : Module.ofBytes b = .ok m) (hmore : more ≠ []) :
    Module.ofBytes (b ++ more) =
      .error ⟨.image (.trailingBytes more.length), ⟨b.length, b.length⟩⟩ := by
  obtain ⟨position, hb⟩ := ofBytes_eq_ok.mp h
  obtain ⟨happend, hposition⟩ := contents_append hb more
  obtain rfl : position = b.length := hposition
  have hlength : more.length ≠ 0 := mt List.length_eq_zero_iff.mp hmore
  rw [ofBytes_eq, happend]
  exact if_pos hlength

theorem ofBytes_cut (h : Module.ofBytes (b ++ more) = .ok m) (hmore : more ≠ []) :
    ∃ stop ≤ b.length, Module.ofBytes b = .error ⟨.image .endOfInput, ⟨stop, stop⟩⟩ := by
  obtain ⟨position, hall⟩ := ofBytes_eq_ok.mp h
  have hends := Read.contents_steady ⟨0, b⟩ more
  rw [Cursor.followed, hall] at hends
  rw [ofBytes_eq]
  generalize Read.contents ⟨0, b⟩ = x at hends ⊢
  generalize hy : (.ok (m, ⟨position, []⟩) : Except Diagnostic (Module × Cursor)) = y at hends
  cases hends with
  | read _ inside =>
    have hrest := congrArg (·.2.rest) (Except.ok.inj hy)
    exact absurd (List.append_eq_nil_iff.mp hrest.symm).2 hmore
  | failed d => cases hy
  | cut inside _ => exact ⟨_, by simpa using inside, rfl⟩

/-- No beginning of a written image is read, be the image itself read or not. -/
theorem ofBytes_of_bytes {a : Addressing} (h : Image.bytes m a = .ok (b ++ more)) (hmore : more ≠ []) :
    ∃ d, Module.ofBytes b = .error d := by
  cases hb : Module.ofBytes b with
  | error d => exact ⟨d, rfl⟩
  | ok m' =>
    obtain ⟨position, hread⟩ := ofBytes_eq_ok.mp hb
    obtain ⟨happend, _⟩ := contents_append hread more
    obtain ⟨hok, herror⟩ := contents_bytes h
    by_cases hsound : ∀ f ∈ m.functions, f.Sound
    · obtain ⟨last, hall⟩ := hok hsound
      have hrest := congrArg (·.2.rest) (Except.ok.inj (happend.symm.trans hall))
      exact absurd hrest hmore
    · obtain ⟨d, hall⟩ := herror hsound
      cases happend.symm.trans hall

end

end TurtleScript.Image

namespace TurtleScript

/-- Of an image that is read, no proper beginning is: it comes to its end in the middle of something.
Nothing that goes on behind it is read either: the bytes behind it are too many. And no beginning of
what a module is written to is read, at whatever byte it is cut. -/
theorem Module.ofBytes_prefixFree (b : List UInt8) :
    (∀ m, Module.ofBytes b = .ok m →
      (∀ p, p <+: b → p ≠ b →
        ∃ stop ≤ p.length, Module.ofBytes p = .error ⟨.image .endOfInput, ⟨stop, stop⟩⟩) ∧
      ∀ more, more ≠ [] → Module.ofBytes (b ++ more) =
        .error ⟨.image (.trailingBytes more.length), ⟨b.length, b.length⟩⟩) ∧
    ∀ (m : Module) a, m.toBytes a = .ok b → ∀ n < b.length, ∃ d, Module.ofBytes (b.take n) = .error d := by
  refine ⟨fun m h => ⟨?_, fun more hmore => Image.ofBytes_append h hmore⟩, ?_⟩
  · rintro p ⟨more, rfl⟩ hne
    refine Image.ofBytes_cut h ?_
    rintro rfl
    exact hne (List.append_nil p).symm
  · intro m a h n hn
    have hwritten := Module.toBytes_eq_ok.mp h
    rw [← List.take_append_drop n b] at hwritten
    refine Image.ofBytes_of_bytes hwritten ?_
    intro hdrop
    have := List.drop_eq_nil_iff.mp hdrop
    omega

theorem Module.ofBytes_prefixFree_unordered :
    ∃ bytes m, Module.unordered.toBytes .fixed = .ok bytes ∧ Module.ofBytes bytes = .ok m ∧
      (∀ n < bytes.length, ∃ d, Module.ofBytes (bytes.take n) = .error d) ∧
      Module.ofBytes (bytes ++ [0]) =
        .error ⟨.image (.trailingBytes 1), ⟨bytes.length, bytes.length⟩⟩ := by
  obtain ⟨bytes, m, hb, hm⟩ : ∃ bytes m, Module.unordered.toBytes .fixed = .ok bytes ∧
      Module.ofBytes bytes = .ok m := ⟨_, _, rfl, rfl⟩
  obtain ⟨hread, hwritten⟩ := Module.ofBytes_prefixFree bytes
  exact ⟨bytes, m, hb, hm, hwritten _ _ hb, (hread m hm).2 [0] (by decide)⟩

end TurtleScript
