import TurtleScript.Image.Reader
import TurtleScript.Image.Writer
import TurtleScript.Proofs.Monad
import TurtleScript.Proofs.Text.Utf8

/-!
# Readers and writers of one form

A reader and a writer belong together if the reader gives back what was written,
whatever follows, and if everything it accepts is what the writer writes. The second
half leaves a form no freedom. Both halves are shown here for words, texts and tags,
and carried through sequences.
-/
namespace TurtleScript

theorem Kind.tag_of_ofTag? {b : UInt8} {k : Kind} (h : Kind.ofTag? b = some k) : k.tag = b := by
  obtain ⟨hb, rfl⟩ := List.getElem?_eq_some_iff.mp h
  have hall : ∀ n : Fin 11, (Kind.all.get n).tag.toNat = n.val := by decide
  exact UInt8.toNat_inj.mp (hall ⟨b.toNat, hb⟩)

namespace Image

namespace Read

variable {α β : Type}

/-- `r` takes exactly `bytes` and gives `a`, wherever it stands and whatever follows. -/
def Reads (r : Read α) (bytes : List UInt8) (a : α) : Prop :=
  ∀ position rest, r ⟨position, bytes ++ rest⟩ = .ok (a, ⟨position + bytes.length, rest⟩)

/-- Going from `c` to `d` takes `bytes`. -/
structure Takes (c : Cursor) (bytes : List UInt8) (d : Cursor) : Prop where
  rest : c.rest = bytes ++ d.rest
  position : d.position = c.position + bytes.length

theorem Takes.refl (c : Cursor) : Takes c [] c := ⟨rfl, rfl⟩

theorem Takes.trans {c d e : Cursor} {xs ys : List UInt8} (h : Takes c xs d) (k : Takes d ys e) :
    Takes c (xs ++ ys) e where
  rest := by rw [h.rest, k.rest, List.append_assoc]
  position := by rw [k.position, h.position, List.length_append, Nat.add_assoc]

theorem reads_pure (a : α) : Reads (pure a) [] a := fun _ _ => rfl

theorem bind_apply (r : Read α) (k : α → Read β) (c : Cursor) :
    (r >>= k) c = match r c with
      | .ok (a, d) => k a d
      | .error e => .error e := by
  change Except.bind (r c) _ = _
  cases r c with
  | error e => rfl
  | ok p => rfl

theorem Reads.bind_apply {r : Read α} {bytes : List UInt8} {a : α} (h : Reads r bytes a)
    (k : α → Read β) (position : Nat) (rest : List UInt8) :
    (r >>= k) ⟨position, bytes ++ rest⟩ = k a ⟨position + bytes.length, rest⟩ := by
  rw [Read.bind_apply, h position rest]

theorem Reads.bind {r : Read α} {k : α → Read β} {xs ys : List UInt8} {a : α} {b : β}
    (h : Reads r xs a) (hk : Reads (k a) ys b) : Reads (r >>= k) (xs ++ ys) b := by
  intro position rest
  rw [List.append_assoc, h.bind_apply, hk, List.length_append, Nat.add_assoc]

/-- Reading after a tag that was written before. -/
theorem Reads.after {r : Read α} {k : α → Read β} {a : α} {b : β} {tag : UInt8}
    {bytes : List UInt8} (h : Reads r [tag] a) (hk : Reads (k a) bytes b) :
    Reads (r >>= k) (tag :: bytes) b :=
  h.bind hk

theorem Reads.map {r : Read α} {bytes : List UInt8} {a : α} (h : Reads r bytes a) (f : α → β) :
    Reads (do return f (← r)) bytes (f a) := by
  have hb := h.bind (k := fun a => pure (f a)) (reads_pure (f a))
  rwa [List.append_nil] at hb

/-- A sequence of two readers that succeeded. -/
theorem bind_eq_ok {r : Read α} {k : α → Read β} {c e : Cursor} {b : β}
    (h : (r >>= k) c = .ok (b, e)) : ∃ a d, r c = .ok (a, d) ∧ k a d = .ok (b, e) := by
  rw [Read.bind_apply] at h
  cases hr : r c with
  | error d => simp only [hr] at h; cases h
  | ok p =>
    simp only [hr] at h
    exact ⟨p.1, p.2, rfl, h⟩

theorem pure_eq_ok {a b : α} {c d : Cursor} (h : (pure a : Read α) c = .ok (b, d)) :
    a = b ∧ c = d := by
  cases h
  exact ⟨rfl, rfl⟩

/-- `r` reads what `w` writes, and nothing else. -/
structure Codec (r : Read α) (w : α → Except ImageProblem (List UInt8)) : Prop where
  reads {a : α} {bytes : List UInt8} (h : w a = .ok bytes) : Reads r bytes a
  writes {c d : Cursor} {a : α} (h : r c = .ok (a, d)) : ∃ bytes, w a = .ok bytes ∧ Takes c bytes d

theorem take_reads (bytes : List UInt8) : Reads (take bytes.length) bytes bytes := by
  intro position rest
  simp only [take, Read.bind_apply, get, getThe, MonadStateOf.get, StateT.get, pure, Except.pure,
    List.splitAt_eq, List.take_left, List.drop_left, if_true]
  rfl

theorem take_eq_ok {n : Nat} {c d : Cursor} {bytes : List UInt8}
    (h : take n c = .ok (bytes, d)) : bytes.length = n ∧ Takes c bytes d := by
  simp only [take, Read.bind_apply, get, getThe, MonadStateOf.get, StateT.get, pure, Except.pure,
    List.splitAt_eq] at h
  split at h
  · rename_i hn
    cases h
    exact ⟨hn, (List.take_append_drop n c.rest).symm, by rw [hn]⟩
  · cases h

theorem number_reads (width : Nat) {n : Nat} (h : n < Nat.pow 256 width) :
    Reads (number width) (word width n) n := by
  have ht := (take_reads (word width n)).map ofWord
  rwa [length_word, ofWord_word, Nat.mod_eq_of_lt h] at ht

theorem number_eq_ok {width n : Nat} {c d : Cursor} (h : number width c = .ok (n, d)) :
    n < Nat.pow 256 width ∧ Takes c (word width n) d := by
  obtain ⟨bytes, e, ht, hp⟩ := bind_eq_ok h
  obtain ⟨rfl, rfl⟩ := pure_eq_ok hp
  obtain ⟨rfl, hc⟩ := take_eq_ok ht
  exact ⟨ofWord_lt bytes, (word_ofWord bytes).symm ▸ hc⟩

theorem byte_codec : Codec byte fun b => .ok [b] where
  reads {b bytes} h := by
    cases h
    have hr := (number_reads 1 b.toNat_lt).map UInt8.ofNat
    simpa only [byte, word, UInt8.ofNat_toNat] using hr
  writes h := by
    obtain ⟨n, d, hn, hp⟩ := bind_eq_ok h
    obtain ⟨rfl, rfl⟩ := pure_eq_ok hp
    obtain ⟨_, ht⟩ := number_eq_ok hn
    exact ⟨_, rfl, ht⟩

theorem word16_codec : Codec word16 fun n => .ok (word 2 n.toNat) where
  reads {n bytes} h := by
    cases h
    have hr := (number_reads 2 n.toNat_lt).map UInt16.ofNat
    rwa [UInt16.ofNat_toNat] at hr
  writes h := by
    obtain ⟨n, d, hn, hp⟩ := bind_eq_ok h
    obtain ⟨rfl, rfl⟩ := pure_eq_ok hp
    obtain ⟨hlt, ht⟩ := number_eq_ok hn
    refine ⟨_, rfl, ?_⟩
    rwa [UInt16.toNat_ofNat', Nat.mod_eq_of_lt hlt]

theorem word32_codec : Codec Read.word32 fun n => .ok (Image.word32 n) where
  reads {n bytes} h := by
    cases h
    have hr := (number_reads 4 n.toNat_lt).map UInt32.ofNat
    rwa [UInt32.ofNat_toNat] at hr
  writes h := by
    obtain ⟨n, d, hn, hp⟩ := bind_eq_ok h
    obtain ⟨rfl, rfl⟩ := pure_eq_ok hp
    obtain ⟨hlt, ht⟩ := number_eq_ok hn
    refine ⟨_, rfl, ?_⟩
    rwa [Image.word32, UInt32.toNat_ofNat', Nat.mod_eq_of_lt hlt]

/-- Lengths, counts and positions. -/
theorem sized_codec : Codec (number 4) sized where
  reads {n bytes} h := by
    rw [sized] at h
    split at h
    · rename_i hn
      cases h
      exact number_reads 4 hn
    · cases h
  writes h := by
    obtain ⟨hlt, ht⟩ := number_eq_ok h
    exact ⟨_, if_pos hlt, ht⟩

theorem operand_codec : Codec operand fun a => .ok (Image.word32 a.toUInt32) where
  reads {a bytes} h := by
    have hr := (word32_codec.reads (a := a.toUInt32) h).map UInt32.toInt32
    rwa [Int32.toInt32_toUInt32] at hr
  writes h := by
    obtain ⟨n, d, hn, hp⟩ := bind_eq_ok h
    obtain ⟨rfl, rfl⟩ := pure_eq_ok hp
    exact word32_codec.writes hn

theorem flag_codec : Codec Read.flag fun b => .ok (flagByte b) where
  reads {b bytes} h := by
    cases h
    intro position rest
    rw [flag, flagByte, (byte_codec.reads rfl).bind_apply]
    cases b <;> rfl
  writes {c d a} h := by
    obtain ⟨b, e, hb, hk⟩ := bind_eq_ok h
    obtain ⟨bytes, hw, ht⟩ := byte_codec.writes hb
    cases hw
    split at hk
    · obtain ⟨rfl, rfl⟩ := pure_eq_ok hk
      exact ⟨_, rfl, ht⟩
    · obtain ⟨rfl, rfl⟩ := pure_eq_ok hk
      exact ⟨_, rfl, ht⟩
    · cases hk

theorem text_codec : Codec Read.text Image.text where
  reads {s bytes} h := by
    obtain ⟨size, hs, hp⟩ := Except.bind_eq_ok h
    cases hp
    refine (sized_codec.reads hs).bind ?_
    intro position rest
    rw [(take_reads (Text.Utf8.encode s)).bind_apply, Text.Utf8.decode_encode]
    rfl
  writes h := by
    obtain ⟨n, d, hn, hn'⟩ := bind_eq_ok h
    obtain ⟨bytes, e, hb, hk⟩ := bind_eq_ok hn'
    obtain ⟨size, hs, hc⟩ := sized_codec.writes hn
    obtain ⟨rfl, hd⟩ := take_eq_ok hb
    cases hs' : Text.Utf8.decode bytes with
    | error fault => simp only [hs'] at hk; cases hk
    | ok s =>
      simp only [hs'] at hk
      obtain ⟨rfl, rfl⟩ := pure_eq_ok hk
      have he := Text.Utf8.encode_of_decode hs'
      refine ⟨size ++ bytes, ?_, hc.trans hd⟩
      simp only [Image.text, he, hs]
      rfl

theorem kind_codec (role : TagRole) : Codec (kind role) fun k => .ok [k.tag] where
  reads {k bytes} h := by
    cases h
    intro position rest
    rw [kind, (byte_codec.reads rfl).bind_apply, Kind.ofTag?_tag]
    rfl
  writes h := by
    obtain ⟨b, d, hb, hk⟩ := bind_eq_ok h
    obtain ⟨bytes, hw, ht⟩ := byte_codec.writes hb
    cases hw
    cases hk' : Kind.ofTag? b with
    | none => simp only [hk'] at hk; cases hk
    | some k =>
      simp only [hk'] at hk
      obtain ⟨rfl, rfl⟩ := pure_eq_ok hk
      rw [← Kind.tag_of_ofTag? hk'] at ht
      exact ⟨_, rfl, ht⟩

theorem many_reads {r : Read α} {w : α → Except ImageProblem (List UInt8)} (h : Codec r w)
    {as : List α} {bytes : List UInt8} (hw : concat w as = .ok bytes) :
    Reads (many r as.length) bytes as := by
  induction as generalizing bytes with
  | nil =>
    cases hw
    exact reads_pure []
  | cons a as ih =>
    obtain ⟨first, hf, hw⟩ := Except.bind_eq_ok hw
    obtain ⟨rest, hr, hw⟩ := Except.bind_eq_ok hw
    cases hw
    exact (h.reads hf).bind ((ih hr).map (a :: ·))

theorem many_eq_ok {r : Read α} {w : α → Except ImageProblem (List UInt8)} (h : Codec r w)
    {n : Nat} {c d : Cursor} {as : List α} (hr : many r n c = .ok (as, d)) :
    as.length = n ∧ ∃ bytes, concat w as = .ok bytes ∧ Takes c bytes d := by
  induction n generalizing c as with
  | zero =>
    obtain ⟨rfl, rfl⟩ := pure_eq_ok hr
    exact ⟨rfl, [], rfl, .refl c⟩
  | succ n ih =>
    obtain ⟨a, e, ha, hk⟩ := bind_eq_ok hr
    obtain ⟨as', e', has, hp⟩ := bind_eq_ok hk
    obtain ⟨rfl, rfl⟩ := pure_eq_ok hp
    obtain ⟨first, hf, hc⟩ := h.writes ha
    obtain ⟨hn, rest, hw, hd⟩ := ih has
    refine ⟨congrArg (· + 1) hn, first ++ rest, ?_, hc.trans hd⟩
    rw [concat, hf, hw]
    rfl

end Read

end Image

end TurtleScript
