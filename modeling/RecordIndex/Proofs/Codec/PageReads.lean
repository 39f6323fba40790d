import Mathlib.Data.List.Forall2
import RecordIndex.Field.Codec
import RecordIndex.Page
import RecordIndex.Proofs.Codec.Reads

/-!
# Reading a page of any bytes

`Page.Checks p d i n P Q` says everything about a decoder at a position of a page: it answers exactly
if `P`, with a value that satisfies `Q` and `n` bytes further on, and otherwise it reports a
corruption that is not missing data. The rules put such statements together like the decoders.

* `Page.Checks.bind`, `guard` and `times` are the rules.
* `Page.checks_fieldDecoder`: a field is accepted exactly if it is an integer or a string slot in
  order, and it is written as it stands on the page, with the padding cleared.
-/

namespace RecordIndex

/-! ### Bytes of a page -/

namespace Page

/-- The byte at a position. -/
def byteAt (p : Page) (i : Nat) : UInt8 := p.bytes[i]?.getD 0

/-- The `n` bytes from position `i` on. -/
def slice (p : Page) (i n : Nat) : Bytes := (p.bytes.drop i).take n

/-- The four-byte word at a position. -/
def wordAt (p : Page) (i : Nat) : Nat := BigEndian.decode (p.slice i 4)

variable {p q : Page} {i j m n : Nat}

theorem ext_bytes (h : p.bytes = q.bytes) : p = q := by
  cases p
  cases q
  cases h
  rfl

theorem length_slice (h : i + n ≤ pageSize) : (p.slice i n).length = n := by
  rw [slice, List.length_take, List.length_drop, p.length_eq]
  omega

theorem slice_add (p : Page) (i m n : Nat) :
    p.slice i (m + n) = p.slice i m ++ p.slice (i + m) n := by
  rw [slice, List.take_add, List.drop_drop]
  rfl

theorem take_slice (h : m ≤ n) : (p.slice i n).take m = p.slice i m := by
  rw [slice, List.take_take, Nat.min_eq_left h]
  rfl

theorem getElem?_slice (h : j < n) (hn : i + n ≤ pageSize) :
    (p.slice i n)[j]? = some (p.byteAt (i + j)) := by
  have hij : i + j < p.bytes.length := by rw [p.length_eq]; omega
  rw [slice, List.getElem?_take_of_lt h, List.getElem?_drop, byteAt, List.getElem?_eq_getElem hij]
  rfl

/-- Bytes of one length are a slice of a page if the page has each of them in its place. -/
theorem slice_eq {bs : Bytes} (hlen : bs.length = n) (hn : i + n ≤ pageSize)
    (h : ∀ j, j < n → bs[j]? = some (p.byteAt (i + j))) : p.slice i n = bs := by
  refine List.ext_getElem? fun j => ?_
  rcases Nat.lt_or_ge j n with hj | hj
  · rw [getElem?_slice hj hn, h j hj]
  · rw [List.getElem?_eq_none (by rw [length_slice hn]; exact hj),
      List.getElem?_eq_none (by rw [hlen]; exact hj)]

theorem slice_one (h : i < pageSize) : p.slice i 1 = [p.byteAt i] := by
  refine slice_eq rfl h fun j hj => ?_
  obtain rfl : j = 0 := by omega
  rfl

theorem slice_pageSize (p : Page) : p.slice 0 pageSize = p.bytes := by
  rw [slice, List.drop_zero, List.take_of_length_le (Nat.le_of_eq p.length_eq)]

/-- A row of slices of one length. -/
theorem slice_mul (p : Page) (i m n : Nat) :
    p.slice i (n * m) = (List.range' i n m).flatMap fun j => p.slice j m := by
  induction n generalizing i with
  | zero => simp [slice]
  | succ n ih => rw [Nat.succ_mul, Nat.add_comm, slice_add, ih, List.range'_succ, List.flatMap_cons]

/-! ### Decoders on a page -/

/-- Reading from a position on. -/
def cursor (p : Page) (i : Nat) : Cursor := ⟨i, p.bytes.drop i⟩

theorem advance_cursor (p : Page) (i n : Nat) : (p.cursor i).advance n = p.cursor (i + n) := by
  simp [cursor, Cursor.advance]

end Page

/-- The corruption is not that the data ends too early. -/
def Corruption.NotShort (cause : Corruption) : Prop :=
  ∀ needed offset left, cause ≠ .endOfData needed offset left

namespace Page

variable {α β : Type} {p : Page} {i m n : Nat} {P P' : Prop} {Q : α → Prop} {R : β → Prop}

/-- At position `i` of the page the decoder answers exactly if `P`, moving `n` bytes on, with a value
that satisfies `Q`; otherwise it reports a corruption, but not that the data ends too early. -/
structure Checks (p : Page) (d : Decoder α) (i n : Nat) (P : Prop) (Q : α → Prop) : Prop where
  accepts : P → ∃ a, d (p.cursor i) = .ok (a, p.cursor (i + n)) ∧ Q a
  refuses : ¬ P → ∃ cause, d (p.cursor i) = .error (.corrupted cause) ∧ cause.NotShort

namespace Checks

theorem pure {a : α} (hP : P) (h : Q a) : Checks p (pure a) i 0 P Q :=
  ⟨fun _ => ⟨a, rfl, h⟩, fun hn => absurd hP hn⟩

theorem fail {cause : Corruption} (hP : ¬ P) (h : cause.NotShort) :
    Checks p (Decoder.fail cause) i n P Q :=
  ⟨fun hp => absurd hp hP, fun _ => ⟨cause, rfl, h⟩⟩

theorem bind {d : Decoder α} {f : α → Decoder β} (h : Checks p d i m P Q)
    (hf : ∀ a, Q a → Checks p (f a) (i + m) n P' R) : Checks p (d >>= f) i (m + n) (P ∧ P') R := by
  refine ⟨fun ⟨hP, hP'⟩ => ?_, fun hn => ?_⟩
  · obtain ⟨a, hd, ha⟩ := h.accepts hP
    obtain ⟨b, hb, hR⟩ := (hf a ha).accepts hP'
    rw [← Nat.add_assoc]
    exact ⟨b, by rw [Decoder.run_bind, hd]; exact hb, hR⟩
  · by_cases hP : P
    · obtain ⟨a, hd, ha⟩ := h.accepts hP
      obtain ⟨cause, hc, hshort⟩ := (hf a ha).refuses fun hP' => hn ⟨hP, hP'⟩
      exact ⟨cause, by rw [Decoder.run_bind, hd]; exact hc, hshort⟩
    · obtain ⟨cause, hc, hshort⟩ := h.refuses hP
      exact ⟨cause, by rw [Decoder.run_bind, hc], hshort⟩

theorem mono {d : Decoder α} {Q' : α → Prop} (h : Checks p d i n P Q)
    (hQ : ∀ a, P → Q a → Q' a) : Checks p d i n P Q' := by
  refine ⟨fun hP => ?_, h.refuses⟩
  obtain ⟨a, hd, ha⟩ := h.accepts hP
  exact ⟨a, hd, hQ a hP ha⟩

theorem of_iff {d : Decoder α} (h : Checks p d i n P Q) (hP : P' ↔ P) : Checks p d i n P' Q :=
  ⟨fun hp => h.accepts (hP.1 hp), fun hn => h.refuses fun hp => hn (hP.2 hp)⟩

/-- What comes first is read from any page. -/
theorem bind_of_true {d : Decoder α} {f : α → Decoder β} (h : Checks p d i m True Q)
    (hf : ∀ a, Q a → Checks p (f a) (i + m) n P R) : Checks p (d >>= f) i (m + n) P R :=
  (h.bind hf).of_iff (true_and P).symm.to_iff

/-- What follows reads nothing and refuses nothing. -/
theorem map {d : Decoder α} (h : Checks p d i n P Q) {f : α → β} (hf : ∀ a, Q a → R (f a)) :
    Checks p (f <$> d) i n P R := by
  rw [map_eq_pure_bind]
  exact (h.bind (n := 0) fun a ha => .pure trivial (hf a ha)).of_iff (and_true P).symm.to_iff

/-- A test of what has been read. -/
theorem guard {d : Decoder α} {bad : Prop} [Decidable bad] {cause : Corruption}
    (hshort : cause.NotShort) (h : ¬ bad → Checks p d i n P Q) :
    Checks p (if bad then Decoder.fail cause else d) i n (¬ bad ∧ P) Q := by
  by_cases hbad : bad
  · rw [if_pos hbad]
    exact fail (fun hP => hP.1 hbad) hshort
  · rw [if_neg hbad]
    exact (h hbad).of_iff (and_iff_right hbad)

/-- A row of values of one length, each in its place. -/
theorem times {d : Decoder α} {P : Nat → Prop} {W : α → Nat → Prop}
    (h : ∀ j ∈ List.range' i n m, Checks p d j m (P j) (W · j)) :
    Checks p (Decoder.times d n) i (n * m) (∀ j ∈ List.range' i n m, P j)
      fun as => List.Forall₂ W as (List.range' i n m) := by
  induction n generalizing i with
  | zero =>
    rw [Nat.zero_mul]
    exact pure (by simp) .nil
  | succ n ih =>
    rw [List.range'_succ] at h ⊢
    rw [Nat.succ_mul, Nat.add_comm (n * m), List.forall_mem_cons]
    refine (h i List.mem_cons_self).bind fun a ha => ?_
    exact ((ih fun j hj => h j (List.mem_cons_of_mem i hj)).bind (n := 0) fun as has =>
      .pure trivial (.cons ha has)).of_iff (and_true _).symm.to_iff

/-- What reading from the start of the page answers. -/
theorem run_ok {d : Decoder α} (h : Checks p d 0 n P Q) (hP : P) :
    ∃ a, d.run p.bytes = .ok a ∧ Q a := by
  obtain ⟨a, ha, hQ⟩ := h.accepts hP
  exact ⟨a, Decoder.run_eq_ok_iff.2 ⟨_, ha⟩, hQ⟩

theorem run_error {d : Decoder α} (h : Checks p d 0 n P Q) (hP : ¬ P) :
    ∃ cause, d.run p.bytes = .error (.corrupted cause) ∧ cause.NotShort := by
  obtain ⟨cause, hc, hshort⟩ := h.refuses hP
  refine ⟨cause, ?_, hshort⟩
  show Except.map Prod.fst (d (p.cursor 0)) = _
  rw [hc]
  rfl

/-- What reading from the start of the page fails with. -/
theorem corrupted_of_run {d : Decoder α} {e : Error} (h : Checks p d 0 n P Q)
    (he : d.run p.bytes = .error e) : ∃ cause, e = .corrupted cause ∧ cause.NotShort := by
  by_cases hP : P
  · obtain ⟨a, ha, -⟩ := h.run_ok hP
    rw [he] at ha
    cases ha
  · obtain ⟨cause, hc, hshort⟩ := h.run_error hP
    rw [he] at hc
    cases hc
    exact ⟨cause, rfl, hshort⟩

end Checks

theorem checks_bytes (h : i + n ≤ pageSize) :
    Checks p (Decoder.bytes n) i n True (· = p.slice i n) := by
  refine ⟨fun _ => ⟨p.slice i n, ?_, rfl⟩, fun hn => absurd trivial hn⟩
  rw [Decoder.bytes_of_le, advance_cursor]
  · rfl
  · show n ≤ (p.bytes.drop i).length
    rw [List.length_drop, p.length_eq]
    omega

theorem checks_word (h : i + n ≤ pageSize) : Checks p (Decoder.word n) i n True fun x =>
    x = BigEndian.decode (p.slice i n) ∧ x < BigEndian.limit n ∧
      BigEndian.encode n x = p.slice i n := by
  refine (checks_bytes h).map fun bs hbs => ?_
  subst hbs
  have hlt := BigEndian.decode_lt (p.slice i n)
  have henc := BigEndian.encode_decode (p.slice i n)
  rw [length_slice h] at hlt henc
  exact ⟨rfl, hlt, henc⟩

theorem checks_byte (h : i < pageSize) : Checks p Decoder.byte i 1 True (· = p.byteAt i) := by
  refine ⟨fun _ => ⟨p.byteAt i, ?_, rfl⟩, fun hn => absurd trivial hn⟩
  have hi : i < p.bytes.length := by rw [p.length_eq]; exact h
  have hbyte : p.byteAt i = p.bytes[i] := by rw [byteAt, List.getElem?_eq_getElem hi]; rfl
  rw [cursor, List.drop_eq_getElem_cons hi, hbyte]
  rfl

/-! ### Fields on a page -/

/-- A string slot starts at the position: its length is in bounds, and so many bytes of UTF-8
follow. -/
def HoldsString (p : Page) (i : Nat) : Prop :=
  p.wordAt i ≤ maxStringBytes ∧ ∃ s, p.slice (i + 4) (p.wordAt i) = Utf8.encode s

/-- The encoded form of the field of a type at a position. -/
def fieldAt (p : Page) (t : FieldType) (i : Nat) : Bytes :=
  match t with
  | .str => p.slice i 4 ++ padTo (stringFieldBytes - 4) (p.slice (i + 4) (p.wordAt i))
  | t => p.slice i t.size

theorem checks_stringDecoder (h : i + stringFieldBytes ≤ pageSize) :
    Checks p Field.stringDecoder i stringFieldBytes (p.HoldsString i)
      fun s => (Field.str s).encode = .ok (p.fieldAt .str i) := by
  have hslot : i + 4 + 46 ≤ pageSize := h
  refine (checks_word (Nat.le_of_add_right_le hslot)).bind_of_true (n := 46) fun x hx => ?_
  obtain ⟨rfl, -, henc⟩ := hx
  refine (Checks.guard (P := ∃ s, p.slice (i + 4) (p.wordAt i) = Utf8.encode s)
    (fun _ _ _ => by simp) fun hlong => ?_).of_iff (and_congr_left fun _ => Nat.not_lt.symm)
  have hle : p.wordAt i ≤ maxStringBytes := Nat.not_lt.1 hlong
  refine (checks_bytes hslot).bind_of_true (n := 0) fun slot hs => ?_
  have hfit : p.wordAt i ≤ 46 := Nat.le_trans hle (by decide)
  have htake : slot.take (BigEndian.decode (p.slice i 4)) = p.slice (i + 4) (p.wordAt i) := by
    rw [hs]
    exact take_slice hfit
  rw [htake]
  cases hdec : Utf8.decode (p.slice (i + 4) (p.wordAt i)) with
  | error defect =>
    refine .fail ?_ fun _ _ _ => by simp
    rintro ⟨s, hs⟩
    rw [(Utf8.decode_eq_ok_iff _ _).2 hs] at hdec
    cases hdec
  | ok s =>
    have hs := (Utf8.decode_eq_ok_iff _ _).1 hdec
    have hlen : s.utf8ByteSize = p.wordAt i := by
      rw [← Utf8.length_encode, ← hs, length_slice (by omega)]
    have hword : BigEndian.encode 4 (p.wordAt i) = p.slice i 4 := henc
    refine .pure ⟨s, hs⟩ ?_
    rw [Field.encode, if_pos (by rw [hlen]; exact hle), Field.stringSlot, fieldAt, hs, hlen, hword]

/-- A field is accepted exactly if it is an integer or its string slot is in order, and it has the
encoded form that stands on the page. -/
theorem checks_fieldDecoder {t : FieldType} (h : i + t.size ≤ pageSize) :
    Checks p (Field.decoder t) i t.size (t = .str → p.HoldsString i)
      fun f => f.encode = .ok (p.fieldAt t i) := by
  cases t with
  | str => exact ((checks_stringDecoder h).map fun s hs => hs).of_iff (by simp)
  | int32 =>
    refine ((checks_word (n := 4) h).map fun x hx => ?_).of_iff (by simp)
    obtain ⟨-, hlt, henc⟩ := hx
    rw [Field.encode, UInt32.toUInt32_toInt32, UInt32.toNat_ofNat_of_lt' hlt, henc]
    rfl
  | int64 =>
    refine ((checks_word (n := 8) h).map fun x hx => ?_).of_iff (by simp)
    obtain ⟨-, hlt, henc⟩ := hx
    rw [Field.encode, UInt64.toUInt64_toInt64, UInt64.toNat_ofNat_of_lt' hlt, henc]
    rfl

end Page
end RecordIndex
