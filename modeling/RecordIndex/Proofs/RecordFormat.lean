import RecordIndex.Proofs.Writes
import RecordIndex.Tree.Change

/-!
# The format of records

Which records have an encoded form, and which byte strings are one.

* `Record.encode_exact`: a record has an encoded form exactly if its key and its fields fit their
  slots. The form has the size that the tree reckons with, is read back as the record, and has the
  length that a record file asks for once the tree has let the record in.
* `RecordForm` is the grammar, said of the bytes alone. It pairs a byte string with the one on which
  the padding behind the strings is zero.
* `Record.decode_exact`: a byte string is accepted exactly if it has the form, every other one is
  corrupted, and writing what was read clears the padding and changes nothing else.
-/

namespace RecordIndex

open RecordIndex.Action

/-! ### Records that have an encoded form -/

theorem Fields.encodeEntry_of_fits {e : String × Field} {bs : Bytes} (h : e.2.encode = .ok bs) :
    encodeEntry e =
      .ok (BigEndian.encode 4 e.1.utf8ByteSize ++ Utf8.encode e.1 ++ e.2.type.signal :: bs) := by
  rw [encodeEntry, h]
  rfl

theorem Fields.encode_cons {e : String × Field} {entries : List (String × Field)} {bs bs' : Bytes}
    (he : encodeEntry e = .ok bs) (hes : encode ⟨entries⟩ = .ok bs') :
    encode ⟨e :: entries⟩ = .ok (bs ++ bs') := by
  rw [encode] at hes ⊢
  rw [List.mapM_cons, he]
  cases hparts : entries.mapM encodeEntry with
  | error fault =>
    rw [hparts] at hes
    cases hes
  | ok parts =>
    rw [hparts] at hes
    cases hes
    rfl

theorem Fields.encodeEntry_isOk_iff (e : String × Field) :
    (∃ bs, encodeEntry e = .ok bs) ↔ ∃ bs, e.2.encode = .ok bs := by
  rw [encodeEntry]
  cases e.2.encode <;> simp [bind, Except.bind, pure, Except.pure]

/-- Writing an entry fails only at a field that does not fit its slot. -/
theorem Fields.encodeEntry_eq_error {e : String × Field} {fault : Fault}
    (h : encodeEntry e = .error fault) : fault = .overlongString ∧ ¬ e.2.Fits := by
  cases hf : e.2.encode with
  | ok bs =>
    rw [encodeEntry_of_fits hf] at h
    cases h
  | error fault' =>
    rw [encodeEntry, hf] at h
    cases h
    exact Field.encode_eq_error hf

/-- Writing entries in a row stops at a field that does not fit its slot. -/
theorem Fields.mapM_encodeEntry_eq_error {entries : List (String × Field)} {fault : Fault}
    (h : entries.mapM encodeEntry = .error fault) :
    fault = .overlongString ∧ ∃ e ∈ entries, ¬ e.2.Fits := by
  obtain ⟨e, hmem, he⟩ := exists_mem_of_mapM_eq_error h
  obtain ⟨hfault, hfits⟩ := encodeEntry_eq_error he
  exact ⟨hfault, e, hmem, hfits⟩

/-- An entry whose name is not too long passes the check exactly if its field fits its slot. -/
theorem Fields.validateEntry_eq_ok_iff {e : String × Field}
    (hname : e.1.utf8ByteSize < UInt32.size) : validateEntry e = .ok () ↔ e.2.Fits := by
  rw [validateEntry, if_neg (Nat.not_le.2 hname), Field.validate_eq_ok_iff]

theorem Fields.forM_validateEntry_eq_ok_iff {entries : List (String × Field)}
    (hnames : ∀ e ∈ entries, e.1.utf8ByteSize < UInt32.size) :
    entries.forM validateEntry = .ok () ↔ ∀ e ∈ entries, e.2.Fits := by
  induction entries with
  | nil => simp [List.forM_nil, pure, Except.pure]
  | cons e entries ih =>
    have hhead := validateEntry_eq_ok_iff (hnames e (by simp))
    have htail := ih fun e' he' => hnames e' (List.mem_cons_of_mem e he')
    rw [List.forall_mem_cons, ← hhead, ← htail]
    show (validateEntry e >>= fun _ => entries.forM validateEntry) = .ok () ↔ _
    cases he : validateEntry e with
    | error err => simp [bind, Except.bind]
    | ok u => simp [bind, Except.bind]

namespace Record

/-- A record with names that are not too long passes the check exactly if all its fields fit. -/
theorem validate_eq_ok_iff {r : Record}
    (hnames : ∀ e ∈ r.value.entries, e.1.utf8ByteSize < UInt32.size) :
    r.validate = .ok () ↔ r.key.Fits ∧ ∀ e ∈ r.value.entries, e.2.Fits := by
  rw [← Field.validate_eq_ok_iff, ← Fields.forM_validateEntry_eq_ok_iff hnames, validate]
  cases hk : r.key.validate with
  | error err => simp [bind, Except.bind]
  | ok u => simp [bind, Except.bind, Fields.validate]

/-- Writing a record fails only at a field that does not fit its slot. -/
theorem encode_eq_error {r : Record} {fault : Fault} (h : r.encode = .error fault) :
    fault = .overlongString ∧ ¬ (r.key.Fits ∧ ∀ e ∈ r.value.entries, e.2.Fits) := by
  cases hk : r.key.encode with
  | error fault' =>
    rw [encode, hk] at h
    cases h
    obtain ⟨hfault, hfits⟩ := Field.encode_eq_error hk
    exact ⟨hfault, fun hall => hfits hall.1⟩
  | ok key =>
    cases hv : r.value.entries.mapM Fields.encodeEntry with
    | error fault' =>
      rw [encode, hk, Fields.encode, hv] at h
      cases h
      obtain ⟨hfault, e, he, hfits⟩ := Fields.mapM_encodeEntry_eq_error hv
      exact ⟨hfault, fun hall => hfits (hall.2 e he)⟩
    | ok parts =>
      rw [encode, hk, Fields.encode, hv] at h
      cases h

/-- A record has an encoded form exactly if all its fields fit their slots. -/
theorem encode_isOk_iff (r : Record) :
    (∃ bs, r.encode = .ok bs) ↔ r.key.Fits ∧ ∀ e ∈ r.value.entries, e.2.Fits := by
  simp only [← Field.encode_isOk_iff, ← Fields.encodeEntry_isOk_iff, ← mapM_isOk_iff]
  rw [encode, Fields.encode]
  cases r.key.encode with
  | error fault => simp [bind, Except.bind]
  | ok key =>
    cases r.value.entries.mapM Fields.encodeEntry <;>
      simp [bind, Except.bind, pure, Except.pure]

end Record

/-! ### Records of the size that is asked for -/

/-- The failure is not that a block has another size than the slots. -/
def Failure.NotSize (e : Failure) : Prop := ∀ want got, e ≠ .error (.slotSizeMismatch want got)

theorem Failure.Midway.notSize {e : Failure} (h : e.Midway) : e.NotSize := by
  rintro want got rfl
  cases h.1

theorem SlotFile.concludes_layOut (l : SlotLayout) (f : SlotFile) :
    Concludes (layOut l) f (fun _ g => g.layout = some l) fun e _ => e.NotSize := by
  unfold layOut
  split_ifs
  · exact concludes_fail nofun
  · refine concludes_get_bind ?_
    dsimp only
    split_ifs
    · exact concludes_fail nofun
    · exact rfl

namespace RecordFile

variable {f : SlotFile} {r : Record} {bs : Bytes}

/-- The file has no layout yet, or its slots have a given size. -/
def Admits (f : SlotFile) (n : Nat) : Prop := ∀ l, f.layout = some l → l.slotSize.toNat = n

theorem requireSize_eq_ok_iff {n : Nat} {g : SlotFile} :
    requireSize n f = .ok () g ↔ Admits f n ∧ g = f := by
  rw [requireSize, run_bind, run_get]
  cases hl : f.layout with
  | none => simp [SlotFile.slotSize?, Admits, hl, eq_comm]
  | some l =>
    by_cases hn : l.slotSize.toNat = n <;> simp [SlotFile.slotSize?, Admits, hl, hn, @eq_comm _ f g]

/-- The first record gets slots of its size. -/
theorem concludes_fixSize (n : Nat) (f : SlotFile) :
    Concludes (fixSize n) f (fun _ g => Admits g n ∧ g.layout ≠ none) fun e _ => e.NotSize := by
  unfold fixSize
  split_ifs with hlarge hzero
  · exact concludes_fail nofun
  · exact concludes_fail nofun
  · have hsize : (UInt64.ofNat n).toNat = n :=
      UInt64.toNat_ofNat_of_lt' (Nat.lt_of_le_of_lt (Nat.not_lt.1 hlarge) (by decide))
    refine ((SlotFile.whole_writeBytes 0 _ f).concludes.mono (P := fun _ _ => True)
      (fun _ _ _ => trivial) fun _ _ he => he.2.notSize).bind fun _ f₁ _ => ?_
    refine (SlotFile.concludes_layOut _ f₁).mono (fun _ g hg => ⟨fun l hl => ?_, ?_⟩)
      fun _ _ he => he
    · rw [hg] at hl
      cases hl
      exact hsize
    · rw [hg]
      nofun

/-- A block that has the size of the slots is not refused for its size. -/
theorem concludes_append (hf : Admits f bs.length) (hl : f.layout ≠ none) :
    Concludes (SlotFile.append bs) f (fun _ _ => True) fun e _ => e.NotSize := by
  refine (SlotFile.whole_append bs f).concludes.mono (fun _ _ _ => trivial) fun e _ he => ?_
  exact (he.2 (fun l hl => (hf l hl).symm) (Option.ne_none_iff_exists'.1 hl)).notSize

theorem concludes_add (hbs : r.encode = .ok bs) (hf : Admits f bs.length) :
    Concludes (add r) f (fun _ _ => True) fun e _ => e.NotSize := by
  unfold add
  rw [hbs, ofChecked_ok, pure_bind]
  refine Concludes.bind (Q := fun _ g => g = f) ?_ ?_
  · rw [Concludes, requireSize_eq_ok_iff.2 ⟨hf, rfl⟩]
  · rintro - g rfl
    refine concludes_get_bind ?_
    split_ifs with hnone
    · refine (concludes_fixSize bs.length g).bind fun _ g' hg => ?_
      exact Concludes.map (R := fun _ _ => True) (concludes_append hg.1 hg.2)
    · exact Concludes.map (R := fun _ _ => True) (concludes_append hf fun h => hnone (by rw [h]; rfl))

theorem concludes_replace (hbs : r.encode = .ok bs) (hf : Admits f bs.length) (id : RecordId) :
    Concludes (replace id r) f (fun _ _ => True) fun e _ => e.NotSize := by
  unfold replace
  rw [hbs, ofChecked_ok, pure_bind]
  refine (SlotFile.whole_write id.number bs f).concludes.mono (fun _ _ _ => trivial) fun e _ he => ?_
  exact (he.2 fun l hl => (hf l hl).symm).notSize

end RecordFile

/-- A record that the tree lets in passes the check, and slots that exist have its size. -/
theorem Tree.admits_of_requireStorable {r : Record} {t t' : Tree}
    (h : requireStorable r t = .ok () t') :
    r.validate = .ok () ∧ RecordFile.Admits t'.store.records r.size := by
  obtain ⟨_, t₁, -, h⟩ := bind_eq_ok_iff.1 h
  obtain ⟨_, t₂, hr, h⟩ := bind_eq_ok_iff.1 h
  obtain ⟨f, hf, rfl⟩ := onRecords_eq_ok_iff.1 h
  obtain ⟨hsize, rfl⟩ := RecordFile.requireSize_eq_ok_iff.1 hf
  exact ⟨(ofExcept_eq_ok_iff.1 hr).1, hsize⟩

namespace Record

/-- Writing a record takes what `Record.validate` lets in, which are the records whose key and
fields fit their slots, and gives bytes of the size that the tree reckons with and from which the
record is read back. So once the tree has let a record in, a record file that is still laid out as
it was then refuses neither to add it nor to write it over another for its size. -/
theorem encode_exact (r : Record)
    (hnames : ∀ e ∈ r.value.entries, e.1.utf8ByteSize < UInt32.size) :
    (r.validate = .ok () ↔ ∃ bs, r.encode = .ok bs) ∧
    ((∃ bs, r.encode = .ok bs) ↔ r.key.Fits ∧ ∀ e ∈ r.value.entries, e.2.Fits) ∧
    (∀ fault, r.encode = .error fault → fault = .overlongString) ∧
    (∀ bs, r.encode = .ok bs → bs.length = r.size ∧ decode bs = .ok r) ∧
    ∀ t t' : Tree, Tree.requireStorable r t = .ok () t' →
      ∀ f : SlotFile, f.layout = t'.store.records.layout → ∀ id want got,
        answer (RecordFile.add r f) ≠ .error (.error (.slotSizeMismatch want got)) ∧
        answer (RecordFile.replace id r f) ≠ .error (.error (.slotSizeMismatch want got)) := by
  have hvalid : r.validate = .ok () ↔ ∃ bs, r.encode = .ok bs :=
    (validate_eq_ok_iff hnames).trans (encode_isOk_iff r).symm
  have hexact : ∀ bs, r.encode = .ok bs → bs.length = r.size ∧ decode bs = .ok r := by
    intro bs hbs
    obtain ⟨bs', hbs', hlen, hdec⟩ := exists_encode (hvalid.2 ⟨bs, hbs⟩)
    rw [hbs] at hbs'
    cases hbs'
    exact ⟨hlen, hdec⟩
  refine ⟨hvalid, encode_isOk_iff r, fun _ h => (encode_eq_error h).1, hexact, ?_⟩
  intro t t' ht f hf id want got
  obtain ⟨hr, hadmits⟩ := Tree.admits_of_requireStorable ht
  obtain ⟨bs, hbs⟩ := hvalid.1 hr
  have hsize : RecordFile.Admits f bs.length := by
    rw [(hexact bs hbs).1, RecordFile.Admits, hf]
    exact hadmits
  exact ⟨(RecordFile.concludes_add hbs hsize).answer_ne fun h => h want got rfl,
    (RecordFile.concludes_replace hbs hsize id).answer_ne fun h => h want got rfl⟩

/-- A record whose fields repeat the empty name, and a tree without records. -/
theorem encode_exact_empty_names :
    let r : Record := ⟨.str "k", ⟨[("", .int32 1), ("a", .str "x"), ("", .int64 2)]⟩⟩
    let t : Tree := ⟨default, .str, ⟨1⟩, false⟩
    (∀ e ∈ r.value.entries, e.1.utf8ByteSize < UInt32.size) ∧
    (∃ bs, r.encode = .ok bs ∧ bs.length = 129 ∧ decode bs = .ok r) ∧
    Tree.requireStorable r t = .ok () t ∧
    ∀ id want got,
      answer (RecordFile.add r t.store.records) ≠ .error (.error (.slotSizeMismatch want got)) ∧
      answer (RecordFile.replace id r t.store.records) ≠
        .error (.error (.slotSizeMismatch want got)) := by
  intro r t
  have hnames : ∀ e ∈ r.value.entries, e.1.utf8ByteSize < UInt32.size := by decide
  have hadmitted : Tree.requireStorable r t = .ok () t := rfl
  obtain ⟨hvalid, -, -, hexact, hfiles⟩ := encode_exact r hnames
  obtain ⟨bs, hbs⟩ := hvalid.1 rfl
  exact ⟨hnames, ⟨bs, hbs, (hexact bs hbs).1, (hexact bs hbs).2⟩, hadmitted,
    hfiles t t hadmitted t.store.records rfl⟩

end Record

/-! ### The grammar of records -/

/-- A field of a type as it stands on disk, and the same bytes with the padding zero. An integer is
its bytes; a string is its length, its UTF-8 bytes, and padding up to the size of its slot. -/
inductive FieldForm : FieldType → Bytes → Bytes → Prop where
  | int32 {bs : Bytes} (h : bs.length = 4) : FieldForm .int32 bs bs
  | int64 {bs : Bytes} (h : bs.length = 8) : FieldForm .int64 bs bs
  | str {s : String} {padding : Bytes} (hs : s.utf8ByteSize ≤ maxStringBytes)
      (h : 4 + s.utf8ByteSize + padding.length = stringFieldBytes) :
      FieldForm .str (BigEndian.encode 4 s.utf8ByteSize ++ (Utf8.encode s ++ padding))
        (BigEndian.encode 4 s.utf8ByteSize ++ (Utf8.encode s ++ zeros padding.length))

/-- Entries one after the other, and the same bytes with the padding zero. An entry is the length of
its name, the name in UTF-8, a signal, and a field of the type that the signal stands for. -/
inductive EntriesForm : Bytes → Bytes → Prop where
  | nil : EntriesForm [] []
  | cons {name : String} {t : FieldType} {field field' rest rest' : Bytes}
      (hname : name.utf8ByteSize < UInt32.size) (hfield : FieldForm t field field')
      (hrest : EntriesForm rest rest') :
      EntriesForm
        (BigEndian.encode 4 name.utf8ByteSize ++ Utf8.encode name ++ t.signal :: field ++ rest)
        (BigEndian.encode 4 name.utf8ByteSize ++ Utf8.encode name ++ t.signal :: field' ++ rest')

/-- A record, and the same bytes with the padding zero: a signal, a field of the type that it stands
for, and entries. -/
inductive RecordForm : Bytes → Bytes → Prop where
  | mk {t : FieldType} {key key' entries entries' : Bytes} (hkey : FieldForm t key key')
      (hentries : EntriesForm entries entries') :
      RecordForm (t.signal :: key ++ entries) (t.signal :: key' ++ entries')

variable {b c : Bytes}

/-- A word is read from its bytes. -/
theorem Decoder.reads_word_of_length {w : Nat} (h : b.length = w) :
    Reads (word w) b (BigEndian.decode b) := by
  subst h
  have := reads_word (BigEndian.decode_lt b)
  rwa [BigEndian.encode_decode] at this

theorem FieldForm.length_eq {t : FieldType} (h : FieldForm t b c) : b.length = t.size := by
  cases h with
  | int32 h => exact h
  | int64 h => exact h
  | str _ h =>
    rw [List.length_append, List.length_append, BigEndian.length_encode, Utf8.length_encode,
      ← Nat.add_assoc]
    exact h

/-- What has the form of a field is read as one, and writing that clears the padding. -/
theorem FieldForm.exists_field {t : FieldType} (h : FieldForm t b c) :
    ∃ f : Field, f.type = t ∧ f.encode = .ok c ∧ Decoder.Reads (Field.decoder t) b f := by
  cases h with
  | int32 hlen =>
    have hlt : BigEndian.decode b < 2 ^ 32 := by
      have := BigEndian.decode_lt b
      rwa [hlen] at this
    refine ⟨_, rfl, ?_, (Decoder.reads_word_of_length hlen).map _⟩
    simp only [Field.encode, UInt32.toUInt32_toInt32, UInt32.toNat_ofNat_of_lt' hlt, ← hlen,
      BigEndian.encode_decode]
  | int64 hlen =>
    have hlt : BigEndian.decode b < 2 ^ 64 := by
      have := BigEndian.decode_lt b
      rwa [hlen] at this
    refine ⟨_, rfl, ?_, (Decoder.reads_word_of_length hlen).map _⟩
    simp only [Field.encode, UInt64.toUInt64_toInt64, UInt64.toNat_ofNat_of_lt' hlt, ← hlen,
      BigEndian.encode_decode]
  | @str s padding hs hlen =>
    refine ⟨.str s, rfl, ?_, (Field.reads_paddedString hs hlen).map Field.str⟩
    have hpadding : stringFieldBytes - 4 - (Utf8.encode s).length = padding.length := by
      rw [Utf8.length_encode]
      omega
    rw [Field.encode, if_pos hs, Field.stringSlot, padTo, hpadding]

theorem FieldForm.length_cleared {t : FieldType} (h : FieldForm t b c) :
    c.length = b.length := by
  cases h with
  | int32 => rfl
  | int64 => rfl
  | str => simp

theorem EntriesForm.length_cleared (h : EntriesForm b c) : c.length = b.length := by
  induction h with
  | nil => rfl
  | cons _ hfield _ ih => simp [hfield.length_cleared, ih]

theorem RecordForm.length_cleared (h : RecordForm b c) : c.length = b.length := by
  obtain ⟨hkey, hentries⟩ := h
  simp [hkey.length_cleared, hentries.length_cleared]

/-- What has the form of entries is a row of entries, and writing them clears the padding. -/
theorem EntriesForm.exists_entries (h : EntriesForm b c) :
    ∃ entries parts, b = parts.flatten ∧
      (∀ e ∈ entries, e.1.utf8ByteSize < UInt32.size) ∧ Fields.encode ⟨entries⟩ = .ok c ∧
      List.Forall₂ (fun e bs => Decoder.Reads Fields.entryDecoder bs e ∧
        bs.length = Fields.entrySize e) entries parts := by
  induction h with
  | nil => exact ⟨[], [], rfl, by simp, rfl, .nil⟩
  | @cons name t field field' rest rest' hname hfield _ ih =>
    obtain ⟨f, rfl, hencode, hreads⟩ := hfield.exists_field
    obtain ⟨entries, parts, rfl, hnames, hentries, hall⟩ := ih
    have hentry : Decoder.Reads Fields.entryDecoder
        (BigEndian.encode 4 name.utf8ByteSize ++ Utf8.encode name ++ f.type.signal :: field)
        (name, f) := by
      refine (Fields.reads_nameDecoder hname).bind ?_
      exact (FieldType.reads_decoder f.type).bind (hreads.bind_pure (.pure (name, f)))
    refine ⟨(name, f) :: entries, _ :: parts, List.flatten_cons.symm,
      List.forall_mem_cons.2 ⟨hname, hnames⟩, ?_, .cons ⟨hentry, ?_⟩ hall⟩
    · exact Fields.encode_cons (Fields.encodeEntry_of_fits hencode) hentries
    · simp only [Fields.entrySize, List.length_append, BigEndian.length_encode, Utf8.length_encode,
        List.length_cons, hfield.length_eq, Field.size]
      omega

/-- What has the form of a record is read as one, and writing that clears the padding. -/
theorem RecordForm.exists_record (h : RecordForm b c) :
    ∃ r : Record, (∀ e ∈ r.value.entries, e.1.utf8ByteSize < UInt32.size) ∧
      Record.decode b = .ok r ∧ r.encode = .ok c := by
  obtain ⟨hkey, hentries⟩ := h
  obtain ⟨key, rfl, hencode, hreads⟩ := hkey.exists_field
  obtain ⟨entries, parts, rfl, hnames, hvalue, hall⟩ := hentries.exists_entries
  refine ⟨⟨key, ⟨entries⟩⟩, hnames, Record.decode_of_reads hreads hall, ?_⟩
  rw [Record.encode, hencode, hvalue]
  rfl

/-! ### What decoders accept -/

/-- What is read as a string in its slot has the form of one. -/
theorem Field.form_of_stringDecoder {s : String} {c c' : Cursor}
    (h : stringDecoder c = .ok (s, c')) :
    ∃ front cleared, c.rest = front ++ c'.rest ∧ FieldForm .str front cleared := by
  obtain ⟨n, c₁, hword, h⟩ := Decoder.bind_eq_ok_iff.1 h
  split_ifs at h with hlong
  · cases h
  · obtain ⟨slot, c₂, hslot, h⟩ := Decoder.bind_eq_ok_iff.1 h
    cases htext : Utf8.decode (slot.take n) with
    | error defect =>
      rw [htext] at h
      cases h
    | ok s' =>
      rw [htext] at h
      cases h
      obtain ⟨hfront, -⟩ := Decoder.word_eq_ok hword
      obtain ⟨hrest, hlen, -⟩ := Decoder.bytes_eq_ok_iff.1 hslot
      have hs := (Utf8.decode_eq_ok_iff _ _).1 htext
      have hsize : n = s.utf8ByteSize := by
        have := congrArg List.length hs
        rw [List.length_take_of_le (by rw [hlen]; exact (Nat.not_lt.1 hlong).trans (by decide)),
          Utf8.length_encode] at this
        exact this
      subst hsize
      have hpadding : 4 + s.utf8ByteSize + (slot.drop s.utf8ByteSize).length = stringFieldBytes := by
        rw [List.length_drop, hlen, stringFieldBytes]
        have : s.utf8ByteSize ≤ 45 := Nat.not_lt.1 hlong
        omega
      refine ⟨_, _, ?_, .str (Nat.not_lt.1 hlong) hpadding⟩
      rw [hfront, hrest, ← hs, List.take_append_drop, List.append_assoc]

/-- What is read as a field has the form of one. -/
theorem Field.form_of_decoder {t : FieldType} {f : Field} {c c' : Cursor}
    (h : Field.decoder t c = .ok (f, c')) :
    ∃ front cleared, c.rest = front ++ c'.rest ∧ FieldForm t front cleared := by
  cases t with
  | int32 =>
    obtain ⟨n, hn, -⟩ := Decoder.map_eq_ok_iff.1 h
    exact ⟨_, _, (Decoder.word_eq_ok hn).1, .int32 (BigEndian.length_encode 4 n)⟩
  | int64 =>
    obtain ⟨n, hn, -⟩ := Decoder.map_eq_ok_iff.1 h
    exact ⟨_, _, (Decoder.word_eq_ok hn).1, .int64 (BigEndian.length_encode 8 n)⟩
  | str =>
    obtain ⟨s, hs, -⟩ := Decoder.map_eq_ok_iff.1 h
    exact form_of_stringDecoder hs

namespace Fields

theorem nameDecoder_eq_ok {name : String} {c c' : Cursor} (h : nameDecoder c = .ok (name, c')) :
    c.rest = BigEndian.encode 4 name.utf8ByteSize ++ Utf8.encode name ++ c'.rest ∧
      name.utf8ByteSize < UInt32.size := by
  obtain ⟨n, c₁, hword, h⟩ := Decoder.bind_eq_ok_iff.1 h
  obtain ⟨bs, c₂, hbytes, h⟩ := Decoder.bind_eq_ok_iff.1 h
  cases htext : Utf8.decode bs with
  | error defect =>
    rw [htext] at h
    cases h
  | ok name' =>
    rw [htext] at h
    cases h
    obtain ⟨hfront, hlt⟩ := Decoder.word_eq_ok hword
    obtain ⟨hrest, hlen, -⟩ := Decoder.bytes_eq_ok_iff.1 hbytes
    obtain rfl := (Utf8.decode_eq_ok_iff _ _).1 htext
    rw [Utf8.length_encode] at hlen
    rw [hlen]
    exact ⟨by rw [hfront, hrest, List.append_assoc], hlt⟩

/-- What is read up to the end of the data has the form of entries. -/
theorem form_of_entriesDecoder {budget : Nat} {entries : List (String × Field)} {c c' : Cursor}
    (hbudget : c.rest.length ≤ budget) (h : entriesDecoder budget c = .ok (entries, c')) :
    ∃ cleared, EntriesForm c.rest cleared := by
  induction budget generalizing c c' entries with
  | zero =>
    rw [List.eq_nil_of_length_eq_zero (Nat.le_zero.1 hbudget)]
    exact ⟨[], .nil⟩
  | succ budget ih =>
    obtain ⟨ended, c₁, hended, h⟩ := Decoder.bind_eq_ok_iff.1 h
    cases hended
    split_ifs at h with hnil
    · rw [List.isEmpty_iff.1 hnil]
      exact ⟨[], .nil⟩
    · obtain ⟨e, c₁, he, h⟩ := Decoder.bind_eq_ok_iff.1 h
      obtain ⟨es, c₂, hes, -⟩ := Decoder.bind_eq_ok_iff.1 h
      obtain ⟨name, c₃, hname, he⟩ := Decoder.bind_eq_ok_iff.1 he
      obtain ⟨t, c₄, ht, he⟩ := Decoder.bind_eq_ok_iff.1 he
      obtain ⟨f, c₅, hf, he⟩ := Decoder.bind_eq_ok_iff.1 he
      cases he
      obtain ⟨hfront, hlt⟩ := nameDecoder_eq_ok hname
      obtain ⟨field, field', hfield, hform⟩ := Field.form_of_decoder hf
      have hsplit : c.rest = BigEndian.encode 4 name.utf8ByteSize ++ Utf8.encode name ++
          t.signal :: field ++ c₁.rest := by
        rw [hfront, FieldType.decoder_eq_ok ht, hfield]
        simp only [List.append_assoc, List.cons_append]
      have hshorter : c₁.rest.length ≤ budget := by
        have := congrArg List.length hsplit
        simp only [List.length_append, List.length_cons] at this
        omega
      obtain ⟨cleared, hrest⟩ := ih hshorter hes
      rw [hsplit]
      exact ⟨_, .cons hlt hform hrest⟩

end Fields

/-- What is read as a record has the form of one. -/
theorem Record.form_of_decode {r : Record} (h : decode b = .ok r) : ∃ c, RecordForm b c := by
  obtain ⟨c', h⟩ := Decoder.run_eq_ok_iff.1 h
  obtain ⟨t, c₁, ht, h⟩ := Decoder.bind_eq_ok_iff.1 h
  obtain ⟨key, c₂, hkey, h⟩ := Decoder.bind_eq_ok_iff.1 h
  obtain ⟨value, c₃, hvalue, -⟩ := Decoder.bind_eq_ok_iff.1 h
  obtain ⟨_, c₄, hget, h⟩ := Decoder.bind_eq_ok_iff.1 hvalue
  cases hget
  obtain ⟨entries, c₅, hentries, -⟩ := Decoder.bind_eq_ok_iff.1 h
  obtain ⟨front, cleared, hfront, hform⟩ := Field.form_of_decoder hkey
  obtain ⟨cleared', hform'⟩ := Fields.form_of_entriesDecoder (Nat.le_refl _) hentries
  have hsplit : b = t.signal :: front ++ c₂.rest := by
    rw [List.cons_append, ← hfront]
    exact FieldType.decoder_eq_ok ht
  rw [hsplit]
  exact ⟨_, .mk hform hform'⟩

/-! ### What decoders refuse -/

namespace Decoder

variable {α β : Type}

/-- Whenever the decoder fails, the data is corrupted. -/
def Corrupts (d : Decoder α) : Prop := ∀ c e, d c = .error e → ∃ cause, e = .corrupted cause

theorem corrupts_pure (a : α) : Corrupts (pure a) := nofun

theorem corrupts_fail (cause : Corruption) : Corrupts (fail cause : Decoder α) := by
  intro c e h
  cases h
  exact ⟨cause, rfl⟩

theorem corrupts_bytes (n : Nat) : Corrupts (bytes n) := by
  intro c e h
  rcases Nat.lt_or_ge c.rest.length n with hlt | hge
  · rw [bytes_of_short hlt] at h
    cases h
    exact ⟨_, rfl⟩
  · rw [bytes_of_le hge] at h
    cases h

theorem corrupts_byte : Corrupts byte := by
  rintro ⟨o, rest⟩ e h
  cases rest with
  | nil =>
    cases h
    exact ⟨_, rfl⟩
  | cons b rest => cases h

theorem Corrupts.bind {d : Decoder α} {f : α → Decoder β} (h : Corrupts d)
    (hf : ∀ a, Corrupts (f a)) : Corrupts (d >>= f) := by
  intro c e he
  rw [run_bind] at he
  cases hd : d c with
  | error e' =>
    rw [hd] at he
    cases he
    exact h c _ hd
  | ok p =>
    rw [hd] at he
    exact hf _ _ _ he

theorem Corrupts.map {d : Decoder α} (h : Corrupts d) (f : α → β) : Corrupts (f <$> d) := by
  rw [map_eq_pure_bind]
  exact h.bind fun _ => corrupts_pure _

theorem corrupts_word (w : Nat) : Corrupts (word w) := (corrupts_bytes w).map _

end Decoder

theorem FieldType.corrupts_decoder : Decoder.Corrupts FieldType.decoder := by
  refine Decoder.corrupts_byte.bind fun s => ?_
  cases FieldType.ofSignal? s with
  | none => exact Decoder.corrupts_fail _
  | some t => exact Decoder.corrupts_pure t

theorem Field.corrupts_stringDecoder : Decoder.Corrupts stringDecoder := by
  refine (Decoder.corrupts_word 4).bind fun n => ?_
  split_ifs
  · exact Decoder.corrupts_fail _
  · refine (Decoder.corrupts_bytes _).bind fun slot => ?_
    cases Utf8.decode (slot.take n) with
    | ok s => exact Decoder.corrupts_pure s
    | error defect => exact Decoder.corrupts_fail _

theorem Field.corrupts_decoder (t : FieldType) : Decoder.Corrupts (Field.decoder t) := by
  cases t with
  | int32 => exact (Decoder.corrupts_word 4).map _
  | int64 => exact (Decoder.corrupts_word 8).map _
  | str => exact Field.corrupts_stringDecoder.map _

theorem Fields.corrupts_nameDecoder : Decoder.Corrupts nameDecoder := by
  refine (Decoder.corrupts_word 4).bind fun n => (Decoder.corrupts_bytes n).bind fun bs => ?_
  cases Utf8.decode bs with
  | ok s => exact Decoder.corrupts_pure s
  | error defect => exact Decoder.corrupts_fail _

theorem Fields.corrupts_entryDecoder : Decoder.Corrupts entryDecoder :=
  corrupts_nameDecoder.bind fun _ => FieldType.corrupts_decoder.bind fun t =>
    (Field.corrupts_decoder t).bind fun _ => Decoder.corrupts_pure _

theorem Fields.corrupts_entriesDecoder (budget : Nat) :
    Decoder.Corrupts (entriesDecoder budget) := by
  induction budget with
  | zero => exact Decoder.corrupts_pure []
  | succ budget ih =>
    refine Decoder.Corrupts.bind (d := Decoder.atEnd) nofun fun ended => ?_
    split_ifs
    · exact Decoder.corrupts_pure []
    · exact corrupts_entryDecoder.bind fun e => ih.bind fun es => Decoder.corrupts_pure _

namespace Record

theorem corrupts_decoder : Decoder.Corrupts decoder :=
  FieldType.corrupts_decoder.bind fun t => (Field.corrupts_decoder t).bind fun _ =>
    Decoder.Corrupts.bind
      (Decoder.Corrupts.bind (d := get) nofun fun _ =>
        (Fields.corrupts_entriesDecoder _).bind fun _ => Decoder.corrupts_pure _)
      fun _ => Decoder.corrupts_pure _

/-- Every byte string that is not read as a record is corrupted. -/
theorem corrupted_of_decode {e : Error} (h : decode b = .error e) :
    ∃ cause, e = .corrupted cause := by
  cases hd : decoder (.start b) with
  | ok p =>
    rw [decode, Decoder.run, StateT.run, hd] at h
    cases h
  | error e' =>
    rw [decode, Decoder.run, StateT.run, hd] at h
    cases h
    exact corrupts_decoder _ _ hd

/-- No record starts with a zero byte. -/
theorem not_recordForm_zeros (n : Nat) : ¬ RecordForm (zeros n) c := by
  intro h
  generalize hz : zeros n = b at h
  obtain @⟨t, key, key', entries, entries', -, -⟩ := h
  cases n with
  | zero => cases hz
  | succ n =>
    have hsignal : (0 : UInt8) = t.signal := (List.cons.inj hz).1
    cases t <;> exact absurd hsignal (by decide)

/-- A byte string is read as a record exactly if it has the form of one, and every other one is
corrupted, one that is all zeros among them. What is read passes the check and has the size of the
data. Written again it is the data with the padding behind its strings zero, and that is read as the
same record. -/
theorem decode_exact (b : Bytes) :
    ((∃ r, decode b = .ok r) ↔ ∃ c, RecordForm b c) ∧
    (∀ e, decode b = .error e → ∃ cause, e = .corrupted cause) ∧
    (∀ n, ∃ cause, decode (zeros n) = .error (.corrupted cause)) ∧
    ∀ r, decode b = .ok r → r.validate = .ok () ∧ r.size = b.length ∧
      ∀ c, RecordForm b c → c.length = b.length ∧ r.encode = .ok c ∧ decode c = .ok r := by
  refine ⟨⟨fun ⟨r, hr⟩ => form_of_decode hr, fun ⟨c, hc⟩ => ?_⟩, fun e => corrupted_of_decode,
    fun n => ?_, fun r hr => ?_⟩
  · obtain ⟨r, -, hr, -⟩ := hc.exists_record
    exact ⟨r, hr⟩
  · cases hz : decode (zeros n) with
    | ok r =>
      obtain ⟨c, hc⟩ := form_of_decode hz
      exact absurd hc (not_recordForm_zeros n)
    | error e =>
      obtain ⟨cause, rfl⟩ := corrupted_of_decode hz
      exact ⟨cause, rfl⟩
  · have hwritten : ∀ c, RecordForm b c → r.validate = .ok () ∧ r.size = b.length ∧
        c.length = b.length ∧ r.encode = .ok c ∧ decode c = .ok r := by
      intro c hc
      obtain ⟨r', hnames, hr', hencode⟩ := hc.exists_record
      rw [hr] at hr'
      cases hr'
      have hvalid := (validate_eq_ok_iff hnames).2 ((encode_isOk_iff r).1 ⟨c, hencode⟩)
      obtain ⟨c', hc', hlen, hdec⟩ := exists_encode hvalid
      rw [hencode] at hc'
      cases hc'
      exact ⟨hvalid, hlen.symm.trans hc.length_cleared, hc.length_cleared, hencode, hdec⟩
    obtain ⟨c, hc⟩ := form_of_decode hr
    obtain ⟨hvalid, hsize, -⟩ := hwritten c hc
    exact ⟨hvalid, hsize, fun c hc => (hwritten c hc).2.2⟩

end Record

end RecordIndex
