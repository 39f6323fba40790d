import RecordIndex.Proofs.Codec.Reads
import RecordIndex.Record.Codec

/-!
# Records and their slots

A record that passes `Record.validate` has an encoded form of exactly its size, and is read back
from it with its fields in their order (`Record.exists_encode`).
-/

namespace RecordIndex

/-- A field that does not pass the check has no encoded form. -/
theorem Field.exists_unencodable {f : Field} {e : Error} (h : f.validate = .error e) :
    ∃ cause, e = .encoding cause := by
  unfold validate at h
  split at h
  · split_ifs at h
    cases h
    exact ⟨_, rfl⟩
  · cases h

namespace Fields

/-- A name is read back from its length and its bytes. -/
theorem reads_nameDecoder {name : String} (h : name.utf8ByteSize < UInt32.size) :
    Decoder.Reads nameDecoder (BigEndian.encode 4 name.utf8ByteSize ++ Utf8.encode name) name := by
  have hword : name.utf8ByteSize < BigEndian.limit 4 := h
  refine (Decoder.reads_word hword).bind ?_
  have hname := Decoder.reads_bytes (Utf8.encode name)
  rw [Utf8.length_encode] at hname
  refine hname.bind_pure ?_
  rw [Utf8.decode_encode]
  exact .pure name

/-- An entry that passes the check has an encoded form of its size, and is read back from it. -/
theorem exists_encodeEntry {e : String × Field} (h : validateEntry e = .ok ()) :
    ∃ bs, encodeEntry e = .ok bs ∧ bs.length = entrySize e ∧ Decoder.Reads entryDecoder bs e := by
  obtain ⟨name, field⟩ := e
  unfold validateEntry at h
  split at h
  · cases h
  · rename_i hname
    obtain ⟨bs, hbs⟩ := (Field.encode_isOk_iff field).2 ((Field.validate_eq_ok_iff field).1 h)
    refine ⟨BigEndian.encode 4 name.utf8ByteSize ++ Utf8.encode name ++ field.type.signal :: bs,
      by rw [encodeEntry, hbs]; rfl, ?_, ?_⟩
    · simp only [entrySize, List.length_append, BigEndian.length_encode, Utf8.length_encode,
        List.length_cons, Field.length_encode hbs]
      omega
    · refine (reads_nameDecoder (Nat.lt_of_not_le hname)).bind ?_
      refine (FieldType.reads_decoder field.type).bind ?_
      exact (Field.reads_decoder hbs).bind_pure (.pure (name, field))

/-- Entries that pass the check have encoded forms, and are read back from them. -/
theorem exists_mapM_encodeEntry {entries : List (String × Field)}
    (h : entries.forM validateEntry = .ok ()) :
    ∃ parts, entries.mapM encodeEntry = .ok parts ∧
      parts.flatten.length = size ⟨entries⟩ ∧
      List.Forall₂ (fun e bs => Decoder.Reads entryDecoder bs e ∧ bs.length = entrySize e)
        entries parts := by
  induction entries with
  | nil => exact ⟨[], rfl, rfl, .nil⟩
  | cons e entries ih =>
    cases he : validateEntry e with
    | error err =>
      have hbind : (validateEntry e >>= fun _ => entries.forM validateEntry) = .ok () := h
      rw [he] at hbind
      cases hbind
    | ok u =>
      have hbind : (validateEntry e >>= fun _ => entries.forM validateEntry) = .ok () := h
      rw [he] at hbind
      obtain ⟨parts, hparts, hlen, hall⟩ := ih hbind
      obtain ⟨bs, hbs, hsize, hreads⟩ := exists_encodeEntry he
      refine ⟨bs :: parts, by rw [List.mapM_cons, hbs, hparts]; rfl, ?_,
        .cons ⟨hreads, hsize⟩ hall⟩
      rw [List.flatten_cons, List.length_append, hsize, hlen]
      rfl

theorem length_entries_le_size (entries : List (String × Field)) :
    entries.length ≤ size ⟨entries⟩ := by
  induction entries with
  | nil => exact Nat.le_refl 0
  | cons e entries ih =>
    show entries.length + 1 ≤ entrySize e + size ⟨entries⟩
    unfold entrySize
    omega

/-- Entries up to the end of the data are read back, if at least as many may be read. -/
theorem entriesDecoder_flatten {entries : List (String × Field)} {parts : List Bytes}
    (h : List.Forall₂ (fun e bs => Decoder.Reads entryDecoder bs e ∧ bs.length = entrySize e)
      entries parts) {budget : Nat} (hbudget : entries.length ≤ budget) (o : Nat) :
    entriesDecoder budget ⟨o, parts.flatten⟩ =
      .ok (entries, ⟨o + parts.flatten.length, []⟩) := by
  induction h generalizing budget o with
  | nil => cases budget <;> rfl
  | @cons e bs entries parts he _ ih =>
    cases budget with
    | zero => simp at hbudget
    | succ budget =>
      obtain ⟨hreads, hsize⟩ := he
      have hne : (bs ++ parts.flatten).isEmpty = false := by
        rw [List.isEmpty_eq_false_iff_exists_mem]
        have hpos : 0 < bs.length := by rw [hsize, entrySize]; omega
        obtain ⟨b, hb⟩ := List.exists_mem_of_length_pos hpos
        exact ⟨b, List.mem_append_left _ hb⟩
      rw [List.flatten_cons]
      unfold entriesDecoder
      rw [Decoder.run_bind]
      show (if (bs ++ parts.flatten).isEmpty = true then _ else _ : Decoder _)
        ⟨o, bs ++ parts.flatten⟩ = _
      rw [hne, if_neg (by decide), Decoder.run_bind, hreads]
      show (entriesDecoder budget >>= _) ⟨o + bs.length, parts.flatten⟩ = _
      rw [Decoder.run_bind, ih (by simpa using hbudget), List.length_append, ← Nat.add_assoc]
      rfl

/-- Entries take as many bytes as their sizes add up to. -/
theorem length_flatten {entries : List (String × Field)} {parts : List Bytes}
    (h : List.Forall₂ (fun e bs => Decoder.Reads entryDecoder bs e ∧ bs.length = entrySize e)
      entries parts) : parts.flatten.length = size ⟨entries⟩ := by
  induction h with
  | nil => rfl
  | cons he _ ih =>
    rw [List.flatten_cons, List.length_append, he.2, ih]
    rfl

theorem exists_unencodable {entries : List (String × Field)} {err : Error}
    (h : entries.forM validateEntry = .error err) : ∃ cause, err = .encoding cause := by
  induction entries with
  | nil => cases h
  | cons e entries ih =>
    have hbind : (validateEntry e >>= fun _ => entries.forM validateEntry) = .error err := h
    cases he : validateEntry e with
    | ok u =>
      rw [he] at hbind
      exact ih hbind
    | error err' =>
      rw [he] at hbind
      cases hbind
      unfold validateEntry at he
      split_ifs at he
      · cases he
        exact ⟨_, rfl⟩
      · exact Field.exists_unencodable he

end Fields

namespace Record

/-- The key of a record that passes the check fits its slot. -/
theorem key_fits {r : Record} (h : r.validate = .ok ()) : r.key.Fits := by
  rw [← Field.validate_eq_ok_iff]
  cases hk : r.key.validate with
  | error e => rw [validate, hk] at h; cases h
  | ok u => rfl

/-- A record that does not pass the check has no encoded form. -/
theorem exists_unencodable {r : Record} {e : Error} (h : r.validate = .error e) :
    ∃ cause, e = .encoding cause := by
  rw [validate] at h
  cases hk : r.key.validate with
  | error e' =>
    rw [hk] at h
    cases h
    exact Field.exists_unencodable hk
  | ok u =>
    rw [hk] at h
    exact Fields.exists_unencodable h

/-- A record is read from its signal, its key and its entries, one after the other. -/
theorem decode_of_reads {t : FieldType} {key : Field} {keyBytes : Bytes}
    {entries : List (String × Field)} {parts : List Bytes}
    (hkey : Decoder.Reads (Field.decoder t) keyBytes key)
    (hall : List.Forall₂ (fun e bs => Decoder.Reads Fields.entryDecoder bs e ∧
      bs.length = Fields.entrySize e) entries parts) :
    decode (t.signal :: keyBytes ++ parts.flatten) = .ok ⟨key, ⟨entries⟩⟩ := by
  have hcount : entries.length ≤ parts.flatten.length := by
    rw [Fields.length_flatten hall]
    exact Fields.length_entries_le_size entries
  have hvalue : Fields.decoder ⟨0 + 1 + keyBytes.length, parts.flatten⟩ =
      .ok (⟨entries⟩, ⟨0 + 1 + keyBytes.length + parts.flatten.length, []⟩) := by
    unfold Fields.decoder
    rw [Decoder.run_bind]
    show (Fields.entriesDecoder parts.flatten.length >>= _) _ = _
    rw [Decoder.run_bind, Fields.entriesDecoder_flatten hall hcount]
    rfl
  refine Decoder.run_eq_ok_iff.2 ⟨⟨0 + 1 + keyBytes.length + parts.flatten.length, []⟩, ?_⟩
  unfold decoder
  rw [Decoder.run_bind, show Cursor.start (t.signal :: keyBytes ++ parts.flatten) =
    ⟨0, [t.signal] ++ (keyBytes ++ parts.flatten)⟩ from rfl, FieldType.reads_decoder t]
  show (Field.decoder t >>= _) ⟨0 + 1, keyBytes ++ parts.flatten⟩ = _
  rw [Decoder.run_bind, hkey]
  show (Fields.decoder >>= _) ⟨0 + 1 + keyBytes.length, parts.flatten⟩ = _
  rw [Decoder.run_bind, hvalue]
  rfl

/-- A record that passes the check has an encoded form, of its size, and is read back from it. -/
theorem exists_encode {r : Record} (h : r.validate = .ok ()) :
    ∃ bs, r.encode = .ok bs ∧ bs.length = r.size ∧ decode bs = .ok r := by
  obtain ⟨key, ⟨entries⟩⟩ := r
  cases hk : key.validate with
  | error e => rw [validate, hk] at h; cases h
  | ok u =>
    rw [validate, hk] at h
    obtain ⟨keyBytes, hkey⟩ := (Field.encode_isOk_iff key).2 ((Field.validate_eq_ok_iff key).1 hk)
    obtain ⟨parts, hparts, hlen, hall⟩ := Fields.exists_mapM_encodeEntry h
    refine ⟨key.type.signal :: keyBytes ++ parts.flatten,
      by rw [encode, hkey, Fields.encode, hparts]; rfl, ?_, ?_⟩
    · simp only [List.length_append, List.length_cons, hlen, Field.length_encode hkey, size,
        Fields.size]
      omega
    · exact decode_of_reads (Field.reads_decoder hkey) hall

end Record
end RecordIndex
