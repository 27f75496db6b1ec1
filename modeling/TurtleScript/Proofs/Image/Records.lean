import TurtleScript.Proofs.Image.Codec

/-!
# Records of the sections

Constants, types and function definitions. A function definition is read without its
code, and only if its parameters have slots.
-/
namespace TurtleScript.Image.Read

variable {α : Type}

theorem constant_codec : Codec Read.constant Image.constant where
  reads {c bytes} h := by
    cases c with
    | boolean b =>
      cases h
      exact ((kind_codec .constant).reads rfl).after ((flag_codec.reads rfl).map Constant.boolean)
    | double d =>
      cases h
      have hr := (number_reads 8 d.bits.toNat_lt).map
        fun n => Constant.double ⟨UInt64.ofNat n⟩
      rw [UInt64.ofNat_toNat] at hr
      exact ((kind_codec .constant).reads rfl).after hr
    | string s =>
      obtain ⟨payload, hp, hw⟩ := Except.bind_eq_ok h
      cases hw
      exact ((kind_codec .constant).reads rfl).after ((text_codec.reads hp).map Constant.string)
  writes {c e a} h := by
    obtain ⟨k, d, hk, hr⟩ := bind_eq_ok h
    obtain ⟨tag, htag, hc⟩ := (kind_codec .constant).writes hk
    cases htag
    cases k with
    | boolean =>
      obtain ⟨b, d', hb, hp⟩ := bind_eq_ok hr
      obtain ⟨rfl, rfl⟩ := pure_eq_ok hp
      obtain ⟨bytes, hw, hd⟩ := flag_codec.writes hb
      cases hw
      exact ⟨_, rfl, hc.trans hd⟩
    | double =>
      obtain ⟨x, d', hx, hp⟩ := bind_eq_ok hr
      obtain ⟨rfl, rfl⟩ := pure_eq_ok hp
      obtain ⟨hlt, hd⟩ := number_eq_ok hx
      refine ⟨_, rfl, ?_⟩
      rw [UInt64.toNat_ofNat', Nat.mod_eq_of_lt hlt]
      exact hc.trans hd
    | string =>
      obtain ⟨s, d', hs, hp⟩ := bind_eq_ok hr
      obtain ⟨rfl, rfl⟩ := pure_eq_ok hp
      obtain ⟨bytes, hw, hd⟩ := text_codec.writes hs
      exact ⟨Kind.string.tag :: bytes, by rw [Image.constant, hw]; rfl, hc.trans hd⟩
    | _ => cases hr

/-- A number and a name, for any record that is made of the two. -/
theorem named_codec {make : UInt32 → String → α} {typeId : α → UInt32} {name : α → String}
    (hmake : ∀ a, make (typeId a) (name a) = a) (hid : ∀ i s, typeId (make i s) = i)
    (hname : ∀ i s, name (make i s) = s) :
    Codec (do return make (← Read.word32) (← Read.text)) fun a => named (typeId a) (name a) where
  reads {a bytes} h := by
    obtain ⟨text, ht, hw⟩ := Except.bind_eq_ok h
    cases hw
    have hr := (word32_codec.reads rfl).bind (k := fun i => do return make i (← Read.text))
      ((text_codec.reads ht).map (make (typeId a)))
    rwa [hmake] at hr
  writes {c e a} h := by
    obtain ⟨id, d, hi, hr⟩ := bind_eq_ok h
    obtain ⟨s, d', hs, hp⟩ := bind_eq_ok hr
    obtain ⟨rfl, rfl⟩ := pure_eq_ok hp
    obtain ⟨xs, hx, hc⟩ := word32_codec.writes hi
    obtain ⟨ys, hy, hd⟩ := text_codec.writes hs
    cases hx
    refine ⟨Image.word32 id ++ ys, ?_, hc.trans hd⟩
    rw [hid, hname, named, hy]
    rfl

theorem fieldDef_codec : Codec fieldDef fun f => named f.typeId f.name :=
  named_codec (fun _ => rfl) (fun _ _ => rfl) (fun _ _ => rfl)

theorem variableDef_codec : Codec variableDef fun v => named v.typeId v.name :=
  named_codec (fun _ => rfl) (fun _ _ => rfl) (fun _ _ => rfl)

theorem typeDef_codec : Codec Read.typeDef Image.typeDef where
  reads {t bytes} h := by
    obtain ⟨name, hn, hw⟩ := Except.bind_eq_ok h
    obtain ⟨count, hc, hw'⟩ := Except.bind_eq_ok hw
    obtain ⟨fields, hf, hp⟩ := Except.bind_eq_ok hw'
    cases hp
    simp only [List.append_assoc]
    exact (word32_codec.reads rfl).bind <| (text_codec.reads hn).bind <|
      (flag_codec.reads rfl).bind <| ((kind_codec .typeKind).reads rfl).bind <|
      (word32_codec.reads rfl).bind <| (sized_codec.reads hc).bind <|
      (many_reads fieldDef_codec hf).map _
  writes {c e t} h := by
    obtain ⟨id, c1, h1, r1⟩ := bind_eq_ok h
    obtain ⟨name, c2, h2, r2⟩ := bind_eq_ok r1
    obtain ⟨isPrimitive, c3, h3, r3⟩ := bind_eq_ok r2
    obtain ⟨kind, c4, h4, r4⟩ := bind_eq_ok r3
    obtain ⟨size, c5, h5, r5⟩ := bind_eq_ok r4
    obtain ⟨n, c6, h6, r6⟩ := bind_eq_ok r5
    obtain ⟨fields, c7, h7, r7⟩ := bind_eq_ok r6
    obtain ⟨rfl, rfl⟩ := pure_eq_ok r7
    obtain ⟨b1, w1, t1⟩ := word32_codec.writes h1
    obtain ⟨b2, w2, t2⟩ := text_codec.writes h2
    obtain ⟨b3, w3, t3⟩ := flag_codec.writes h3
    obtain ⟨b4, w4, t4⟩ := (kind_codec .typeKind).writes h4
    obtain ⟨b5, w5, t5⟩ := word32_codec.writes h5
    obtain ⟨b6, w6, t6⟩ := sized_codec.writes h6
    obtain ⟨rfl, b7, w7, t7⟩ := many_eq_ok fieldDef_codec h7
    cases w1
    cases w3
    cases w4
    cases w5
    refine ⟨_, ?_, (((((t1.trans t2).trans t3).trans t4).trans t5).trans t6).trans t7⟩
    simp only [Image.typeDef, w2, w6, w7]
    rfl

/-- A function as its definition has it, without code. -/
def bare (f : FunctionDef) : FunctionDef := { f with code := #[] }

section FunctionDef

variable {f : FunctionDef} {offset : Nat} {bytes : List UInt8}

/-- A written definition is read up to the check of its parameters. -/
theorem functionDef_apply (h : Image.functionDef f offset = .ok bytes) (position : Nat)
    (rest : List UInt8) :
    Read.functionDef ⟨position, bytes ++ rest⟩ =
      if f.slots.length < f.paramCount.toNat then
        fail (.tooFewSlots f.id.toNat f.paramCount.toNat f.slots.length)
          ⟨position + bytes.length, rest⟩
      else .ok ((bare f, offset), ⟨position + bytes.length, rest⟩) := by
  obtain ⟨name, hn, h1⟩ := Except.bind_eq_ok h
  obtain ⟨at_, ho, h2⟩ := Except.bind_eq_ok h1
  obtain ⟨count, hc, h3⟩ := Except.bind_eq_ok h2
  obtain ⟨slots, hs, h4⟩ := Except.bind_eq_ok h3
  cases h4
  simp only [List.append_assoc, List.length_append, ← Nat.add_assoc]
  rw [Read.functionDef, (word32_codec.reads rfl).bind_apply, (text_codec.reads hn).bind_apply,
    (word32_codec.reads rfl).bind_apply, (sized_codec.reads ho).bind_apply,
    (word32_codec.reads rfl).bind_apply, (sized_codec.reads hc).bind_apply,
    (many_reads variableDef_codec hs).bind_apply]
  split <;> rfl

theorem functionDef_reads (h : Image.functionDef f offset = .ok bytes)
    (hp : f.paramCount.toNat ≤ f.slots.length) : Reads Read.functionDef bytes (bare f, offset) := by
  intro position rest
  rw [functionDef_apply h, if_neg (Nat.not_lt.mpr hp)]

theorem functionDef_eq_ok {c d : Cursor} (h : Read.functionDef c = .ok ((f, offset), d)) :
    bare f = f ∧ f.paramCount.toNat ≤ f.slots.length ∧
      ∃ bytes, Image.functionDef f offset = .ok bytes ∧ Takes c bytes d := by
  obtain ⟨id, c1, h1, r1⟩ := bind_eq_ok h
  obtain ⟨name, c2, h2, r2⟩ := bind_eq_ok r1
  obtain ⟨returnType, c3, h3, r3⟩ := bind_eq_ok r2
  obtain ⟨at_, c4, h4, r4⟩ := bind_eq_ok r3
  obtain ⟨paramCount, c5, h5, r5⟩ := bind_eq_ok r4
  obtain ⟨n, c6, h6, r6⟩ := bind_eq_ok r5
  obtain ⟨slots, c7, h7, r7⟩ := bind_eq_ok r6
  split at r7
  · cases r7
  · rename_i hle
    obtain ⟨hf, rfl⟩ := pure_eq_ok r7
    cases hf
    obtain ⟨b1, w1, t1⟩ := word32_codec.writes h1
    obtain ⟨b2, w2, t2⟩ := text_codec.writes h2
    obtain ⟨b3, w3, t3⟩ := word32_codec.writes h3
    obtain ⟨b4, w4, t4⟩ := sized_codec.writes h4
    obtain ⟨b5, w5, t5⟩ := word32_codec.writes h5
    obtain ⟨b6, w6, t6⟩ := sized_codec.writes h6
    obtain ⟨rfl, b7, w7, t7⟩ := many_eq_ok variableDef_codec h7
    cases w1
    cases w3
    cases w5
    refine ⟨rfl, Nat.not_lt.mp hle, _, ?_,
      (((((t1.trans t2).trans t3).trans t4).trans t5).trans t6).trans t7⟩
    simp only [Image.functionDef, w2, w4, w6, w7]
    rfl

end FunctionDef

end TurtleScript.Image.Read
