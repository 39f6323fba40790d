import Mathlib.Data.List.Forall2
import RecordIndex.Field.Codec
import RecordIndex.Node.Codec

/-!
# Reading what has been written

`Decoder.Reads d bs a` says that the decoder `d` reads `a` from data that starts with `bs`, and
stops right behind it, wherever in the data it starts and whatever follows. Decoders that run one
after the other read byte strings that stand one after the other (`Reads.bind`), so the round trip
of a format is put together like the format.

* `Field.reads_decoder`: a field is read back from its encoded form.
* `Decoder.reads_times`: so is a row of values.
* `Decoder.bytes_eq_ok_iff`, `Decoder.word_eq_ok` and `FieldType.decoder_eq_ok`: what has been read
  stood in front.
-/

namespace RecordIndex

namespace Decoder

variable {α β : Type}

/-- Whatever follows, the decoder reads `a` from data that starts with `bs`, and stops there. -/
def Reads (d : Decoder α) (bs : Bytes) (a : α) : Prop :=
  ∀ o rest, d ⟨o, bs ++ rest⟩ = .ok (a, ⟨o + bs.length, rest⟩)

theorem run_bind (d : Decoder α) (f : α → Decoder β) (c : Cursor) :
    (d >>= f) c = match d c with
      | .ok (a, c') => f a c'
      | .error e => .error e := by
  show (StateT.bind d f) c = _
  unfold StateT.bind
  cases d c with
  | error e => rfl
  | ok p => rfl

theorem bind_eq_ok_iff {d : Decoder α} {f : α → Decoder β} {c c' : Cursor} {b : β} :
    (d >>= f) c = .ok (b, c') ↔ ∃ a c₁, d c = .ok (a, c₁) ∧ f a c₁ = .ok (b, c') := by
  rw [run_bind]
  constructor
  · intro h
    split at h
    · rename_i a c₁ hd
      exact ⟨a, c₁, hd, h⟩
    · cases h
  · rintro ⟨a, c₁, hd, hf⟩
    rw [hd]
    exact hf

theorem map_eq_ok_iff {d : Decoder α} {f : α → β} {c c' : Cursor} {b : β} :
    (f <$> d) c = .ok (b, c') ↔ ∃ a, d c = .ok (a, c') ∧ f a = b := by
  rw [map_eq_pure_bind, bind_eq_ok_iff]
  constructor
  · rintro ⟨a, c₁, hd, hf⟩
    cases hf
    exact ⟨a, hd, rfl⟩
  · rintro ⟨a, hd, rfl⟩
    exact ⟨a, c', hd, rfl⟩

theorem run_eq_ok_iff {d : Decoder α} {bs : Bytes} {a : α} :
    d.run bs = .ok a ↔ ∃ c, d (.start bs) = .ok (a, c) := by
  unfold Decoder.run
  show Except.map Prod.fst (d (.start bs)) = _ ↔ _
  cases h : d (.start bs) with
  | error e => simp [Except.map]
  | ok p =>
    obtain ⟨b, c⟩ := p
    simp [Except.map]

theorem Reads.pure (a : α) : Reads (Pure.pure a) [] a := fun _ _ => rfl

theorem Reads.bind {d : Decoder α} {f : α → Decoder β} {s t : Bytes} {a : α} {b : β}
    (h : Reads d s a) (hf : Reads (f a) t b) : Reads (d >>= f) (s ++ t) b := by
  intro o rest
  have hd : d ⟨o, s ++ t ++ rest⟩ = .ok (a, ⟨o + s.length, t ++ rest⟩) := by
    rw [List.append_assoc]
    exact h o (t ++ rest)
  rw [run_bind, hd]
  show f a ⟨o + s.length, t ++ rest⟩ = _
  rw [hf, List.length_append, Nat.add_assoc]

theorem Reads.map {d : Decoder α} {bs : Bytes} {a : α} (h : Reads d bs a) (f : α → β) :
    Reads (f <$> d) bs (f a) := by
  intro o rest
  rw [map_eq_pure_bind, run_bind, h]
  rfl

/-- A decoder that reads nothing may follow. -/
theorem Reads.bind_pure {d : Decoder α} {f : α → Decoder β} {bs : Bytes} {a : α} {b : β}
    (h : Reads d bs a) (hf : Reads (f a) [] b) : Reads (d >>= f) bs b := by
  have := h.bind hf
  rwa [List.append_nil] at this

theorem Reads.run {d : Decoder α} {bs : Bytes} {a : α} (h : Reads d bs a) (rest : Bytes) :
    d.run (bs ++ rest) = .ok a := by
  unfold Decoder.run
  rw [show StateT.run d (.start (bs ++ rest)) = .ok (a, ⟨0 + bs.length, rest⟩) from h 0 rest]
  rfl

theorem reads_bytes (bs : Bytes) : Reads (bytes bs.length) bs bs := fun o rest =>
  bytes_append o bs rest

theorem reads_word {w n : Nat} (h : n < BigEndian.limit w) : Reads (word w) (BigEndian.encode w n) n := by
  intro o rest
  rw [word_encode h, BigEndian.length_encode]

theorem reads_byte (b : UInt8) : Reads byte [b] b := fun _ _ => rfl

theorem reads_liftM (a : α) : Reads (liftM (Except.ok a : Except Error α)) [] a := fun _ _ => rfl

/-- A row of values is read back from their encoded forms, one after the other. -/
theorem reads_times {d : Decoder α} {as : List α} {parts : List Bytes}
    (h : List.Forall₂ (fun a bs => Reads d bs a) as parts) :
    Reads (times d as.length) parts.flatten as := by
  induction h with
  | nil => exact .pure []
  | cons ha _ ih => exact ha.bind (ih.bind_pure (.pure _))

theorem bytes_eq_ok_iff {n o o' : Nat} {b rest rest' : Bytes} :
    bytes n ⟨o, rest⟩ = .ok (b, ⟨o', rest'⟩) ↔ rest = b ++ rest' ∧ b.length = n ∧ o' = o + n := by
  constructor
  · intro h
    rcases Nat.lt_or_ge rest.length n with hlt | hge
    · rw [bytes_of_short hlt] at h
      cases h
    · rw [bytes_of_le hge] at h
      cases h
      exact ⟨(List.take_append_drop n rest).symm, List.length_take_of_le hge, rfl⟩
  · rintro ⟨rfl, rfl, rfl⟩
    exact bytes_append o b rest'

/-- A word that is read stands in front. -/
theorem word_eq_ok {w n o o' : Nat} {rest rest' : Bytes}
    (h : word w ⟨o, rest⟩ = .ok (n, ⟨o', rest'⟩)) :
    rest = BigEndian.encode w n ++ rest' ∧ n < BigEndian.limit w := by
  obtain ⟨bs, hbs, rfl⟩ := map_eq_ok_iff.1 h
  obtain ⟨rfl, rfl, -⟩ := bytes_eq_ok_iff.1 hbs
  exact ⟨by rw [BigEndian.encode_decode], BigEndian.decode_lt bs⟩

end Decoder

theorem FieldType.decoder_eq_ok {t : FieldType} {o o' : Nat} {rest rest' : Bytes}
    (h : FieldType.decoder ⟨o, rest⟩ = .ok (t, ⟨o', rest'⟩)) : rest = t.signal :: rest' := by
  cases rest with
  | nil => cases h
  | cons s rest =>
    obtain ⟨s', c₁, hs, h⟩ := Decoder.bind_eq_ok_iff.1 h
    cases hs
    cases ht : FieldType.ofSignal? s with
    | none =>
      rw [ht] at h
      cases h
    | some t' =>
      rw [ht] at h
      cases h
      rw [FieldType.ofSignal?_eq_some_iff.1 ht]

theorem FieldType.reads_decoder (t : FieldType) : Decoder.Reads FieldType.decoder [t.signal] t := by
  refine (Decoder.reads_byte t.signal).bind_pure ?_
  rw [ofSignal?_signal]
  exact .pure t

namespace Field

/-- A string is read from a slot with any padding. -/
theorem reads_paddedString {s : String} {padding : Bytes} (h : s.utf8ByteSize ≤ maxStringBytes)
    (hlen : 4 + s.utf8ByteSize + padding.length = stringFieldBytes) :
    Decoder.Reads stringDecoder
      (BigEndian.encode 4 s.utf8ByteSize ++ (Utf8.encode s ++ padding)) s := by
  have hword : s.utf8ByteSize < BigEndian.limit 4 := Nat.lt_of_le_of_lt h (by decide)
  refine (Decoder.reads_word hword).bind ?_
  rw [if_neg (Nat.not_lt.2 h)]
  have hslot := Decoder.reads_bytes (Utf8.encode s ++ padding)
  rw [List.length_append, Utf8.length_encode,
    show s.utf8ByteSize + padding.length = stringFieldBytes - 4 by omega] at hslot
  refine hslot.bind_pure ?_
  rw [List.take_left' (Utf8.length_encode s), Utf8.decode_encode]
  exact .pure s

/-- A string is read back from its slot. -/
theorem reads_stringDecoder {s : String} (h : s.utf8ByteSize ≤ maxStringBytes) :
    Decoder.Reads stringDecoder (stringSlot s) s := by
  refine reads_paddedString h ?_
  have hle : s.utf8ByteSize ≤ stringFieldBytes - 4 := Nat.le_trans h (by decide)
  rw [length_zeros, Utf8.length_encode, stringFieldBytes] at *
  omega

/-- A field is read back from its encoded form. -/
theorem reads_decoder {f : Field} {bs : Bytes} (h : f.encode = .ok bs) :
    Decoder.Reads (decoder f.type) bs f := by
  cases f with
  | int32 v =>
    cases h
    have := (Decoder.reads_word (w := 4) v.toUInt32.toNat_lt).map
      fun n => int32 (UInt32.ofNat n).toInt32
    simpa [decoder, type] using this
  | int64 v =>
    cases h
    have := (Decoder.reads_word (w := 8) v.toUInt64.toNat_lt).map
      fun n => int64 (UInt64.ofNat n).toInt64
    simpa [decoder, type] using this
  | str s =>
    simp only [encode] at h
    split at h
    · rename_i hs
      cases h
      exact (reads_stringDecoder hs).map str
    · cases h

end Field
end RecordIndex
