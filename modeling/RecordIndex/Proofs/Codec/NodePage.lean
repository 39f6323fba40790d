import RecordIndex.Proofs.Codec.Reads
import RecordIndex.Tree.HeaderPage

/-!
# Nodes and their pages

A node whose counts agree and whose keys have the node's key type and fit their slots is
`Encodable`. These are the nodes that have a page, and every node that is read from a page is one of
them.

* `Node.exists_toPage`: an encodable node has a page, and is read back from it.
* `Node.encodable_of_ofPage`: a node that is read from a page with any bytes is encodable.
* `Node.ofPage_setParent`: a page on which only the parent link has changed holds the node with the
  other parent, or no node if it held none before.
* `HeaderPage.ofPage_toPage`: the header of the tree is read back from its page.
* `HeaderPage.ofPage_ne_ok_of_header`: no page is both a header page and the page of a node.
-/

namespace RecordIndex

/-! ### Decoders that read a fixed number of bytes -/

namespace Decoder

variable {α β : Type}

/-- Whenever the decoder answers, it has moved `n` bytes on. -/
def Takes (d : Decoder α) (n : Nat) : Prop := ∀ c a c', d c = .ok (a, c') → c' = c.advance n

theorem Takes.bind {d : Decoder α} {f : α → Decoder β} {m n : Nat} (h : Takes d m)
    (hf : ∀ a, Takes (f a) n) : Takes (d >>= f) (m + n) := by
  intro c b c' hb
  obtain ⟨a, c₁, hd, hfa⟩ := bind_eq_ok_iff.1 hb
  rw [hf a _ _ _ hfa, h _ _ _ hd]
  simp [Cursor.advance, Nat.add_assoc]

theorem takes_pure (a : α) : Takes (pure a) 0 := by
  intro c b c' h
  cases h
  simp [Cursor.advance]

theorem takes_fail (cause : Corruption) (n : Nat) : Takes (fail cause : Decoder α) n := by
  intro c b c' h
  cases h

theorem takes_liftM (x : Except Error α) : Takes (liftM x) 0 := by
  intro c b c' h
  cases x with
  | error e => cases h
  | ok a => exact takes_pure a c b c' h

theorem takes_bytes (n : Nat) : Takes (bytes n) n := by
  intro c b c' h
  rcases Nat.lt_or_ge c.rest.length n with hlt | hge
  · rw [bytes_of_short hlt] at h
    cases h
  · rw [bytes_of_le hge] at h
    cases h
    rfl

theorem takes_word (w : Nat) : Takes (word w) w := by
  intro c n c' h
  obtain ⟨bs, hbs, rfl⟩ := map_eq_ok_iff.1 h
  exact takes_bytes w c bs c' hbs

theorem takes_byte : Takes byte 1 := by
  rintro ⟨o, bs⟩ b c' h
  cases bs with
  | nil => cases h
  | cons a rest =>
    cases h
    rfl

/-- The values of a row come from the decoder of a value. -/
theorem times_eq_ok {d : Decoder α} {n : Nat} {c c' : Cursor} {as : List α}
    (h : times d n c = .ok (as, c')) :
    as.length = n ∧ ∀ a ∈ as, ∃ c₁ c₂, d c₁ = .ok (a, c₂) := by
  induction n generalizing c as with
  | zero =>
    cases h
    exact ⟨rfl, by simp⟩
  | succ n ih =>
    obtain ⟨a, c₁, ha, h⟩ := bind_eq_ok_iff.1 h
    obtain ⟨as', c₂, has, h⟩ := bind_eq_ok_iff.1 h
    cases h
    obtain ⟨hlen, hmem⟩ := ih has
    refine ⟨by rw [List.length_cons, hlen], ?_⟩
    intro b hb
    rcases List.mem_cons.1 hb with rfl | hb
    · exact ⟨c, c₁, ha⟩
    · exact hmem b hb

end Decoder

theorem FieldType.takes_decoder : Decoder.Takes FieldType.decoder 1 := by
  refine Decoder.takes_byte.bind (n := 0) fun b => ?_
  cases FieldType.ofSignal? b with
  | none => exact Decoder.takes_fail _ _
  | some t => exact Decoder.takes_pure t

/-- What is read as a field of a type is one, and fits its slot. -/
theorem Field.type_and_fits_of_decoder {t : FieldType} {c c' : Cursor} {f : Field}
    (h : Field.decoder t c = .ok (f, c')) : f.type = t ∧ f.Fits := by
  cases t with
  | int32 =>
    obtain ⟨n, -, rfl⟩ := Decoder.map_eq_ok_iff.1 h
    exact ⟨rfl, trivial⟩
  | int64 =>
    obtain ⟨n, -, rfl⟩ := Decoder.map_eq_ok_iff.1 h
    exact ⟨rfl, trivial⟩
  | str =>
    obtain ⟨s, hs, rfl⟩ := Decoder.map_eq_ok_iff.1 h
    refine ⟨rfl, ?_⟩
    obtain ⟨length, c₁, -, h⟩ := Decoder.bind_eq_ok_iff.1 hs
    split_ifs at h with hlong
    · cases h
    · obtain ⟨slot, c₂, -, h⟩ := Decoder.bind_eq_ok_iff.1 h
      cases hdec : Utf8.decode (slot.take length) with
      | error defect =>
        rw [hdec] at h
        cases h
      | ok s' =>
        rw [hdec] at h
        cases h
        have hlen := congrArg List.length ((Utf8.decode_eq_ok_iff _ _).1 hdec)
        rw [List.length_take, Utf8.length_encode] at hlen
        show s.utf8ByteSize ≤ maxStringBytes
        omega

/-! ### Headers -/

namespace NodeHeader

theorem reads_parentDecoder (p : Option PageId) :
    Decoder.Reads parentDecoder (encodeParent p) p := by
  cases p with
  | none =>
    refine (Decoder.reads_byte 0).bind ((Decoder.reads_word (by decide)).bind_pure ?_)
    exact .pure none
  | some p =>
    refine (Decoder.reads_byte 1).bind
      ((Decoder.reads_word (w := 8) p.number.toNat_lt).bind_pure ?_)
    simpa using Decoder.Reads.pure (some p)

theorem reads_decoder (h : NodeHeader) : Decoder.Reads decoder h.encode h := by
  refine (FieldType.reads_decoder h.keyType).bind ((Decoder.reads_byte h.kind.byte).bind ?_)
  have hkind : NodeKind.ofByte h.kind.byte = .ok h.kind := by cases h.kind <;> rfl
  rw [hkind]
  refine (Decoder.reads_liftM h.kind).bind (s := []) ?_
  refine (reads_parentDecoder h.parent).bind
    ((Decoder.reads_word (w := 8) h.page.number.toNat_lt).bind_pure ?_)
  simpa using Decoder.Reads.pure h

theorem takes_parentDecoder : Decoder.Takes parentDecoder 9 := by
  refine Decoder.takes_byte.bind (n := 8) fun flag => ?_
  refine (Decoder.takes_word 8).bind (n := 0) fun parent => ?_
  split_ifs
  · exact Decoder.takes_pure none
  · exact Decoder.takes_pure _
  · exact Decoder.takes_fail _ _

theorem takes_decoder : Decoder.Takes decoder nodeHeaderBytes := by
  refine FieldType.takes_decoder.bind (n := 18) fun keyType => ?_
  refine Decoder.takes_byte.bind (n := 17) fun kindByte => ?_
  refine (Decoder.takes_liftM _).bind (m := 0) (n := 17) fun kind => ?_
  refine takes_parentDecoder.bind (n := 8) fun parent => ?_
  exact (Decoder.takes_word 8).bind (n := 0) fun page => Decoder.takes_pure _

end NodeHeader

/-! ### Nodes -/

namespace Node

/-- A leaf has as many records as keys, an internal node one child more than keys. -/
def CountsAgree : Node → Prop
  | .leaf l => l.records.length = l.keys.length
  | .internal n => n.children.length = n.keys.length + 1

/-- The node has a page: its counts agree and are in bounds, and its keys have the node's key type
and fit their slots. -/
structure Encodable (n : Node) : Prop where
  size_le : n.keys.length ≤ fanout
  keys_ok : ∀ k ∈ n.keys, k.type = n.keyType ∧ k.Fits
  counts : n.CountsAgree

/-- The offsets that stand on the node's page. -/
def offsets : Node → List UInt64
  | .leaf l => l.records.map (·.number)
  | .internal n => n.children.map (·.number)

theorem Encodable.length_offsets_le {n : Node} (h : n.Encodable) :
    n.offsets.length ≤ maxChildren := by
  have hsize := h.size_le
  have hcounts := h.counts
  cases n with
  | leaf l =>
    simp only [offsets, List.length_map, keys, CountsAgree, maxChildren] at *
    omega
  | internal n =>
    simp only [offsets, List.length_map, keys, CountsAgree, maxChildren] at *
    omega

theorem assemble_offsets {n : Node} (h : n.Encodable) :
    assemble n.header n.offsets n.keys = .ok n := by
  have hcounts := h.counts
  cases n with
  | leaf l =>
    have hmap : (l.records.map (·.number)).map RecordId.mk = l.records :=
      List.map_map.trans (List.map_id _)
    simp only [CountsAgree] at hcounts
    simp only [assemble, header, Leaf.header, offsets, keys, hmap, List.length_map, hcounts]
    exact if_neg (not_not.2 rfl)
  | internal n =>
    have hmap : (n.children.map (·.number)).map PageId.mk = n.children :=
      List.map_map.trans (List.map_id _)
    simp only [CountsAgree] at hcounts
    simp only [assemble, header, Internal.header, offsets, keys, hmap, List.length_map, hcounts]
    exact if_neg (not_not.2 rfl)

theorem toPage_eq {n : Node} (h : n.Encodable) :
    n.toPage = encodeNode n.header n.offsets n.keys := by
  have hcounts := h.counts
  cases n with
  | leaf l =>
    simp only [CountsAgree] at hcounts
    simp [toPage, Leaf.toPage, hcounts, header, offsets, keys]
  | internal n =>
    simp only [CountsAgree] at hcounts
    simp [toPage, Internal.toPage, hcounts, header, offsets, keys]

theorem length_flatMap_encode (offsets : List UInt64) :
    (offsets.flatMap fun o => BigEndian.encode 8 o.toNat).length = offsets.length * idBytes := by
  induction offsets with
  | nil => rfl
  | cons o offsets ih =>
    rw [List.flatMap_cons, List.length_append, ih, BigEndian.length_encode, List.length_cons,
      Nat.add_mul, idBytes]
    omega

theorem reads_offsetsDecoder (page : PageId) {offsets : List UInt64}
    (h : offsets.length ≤ maxChildren) :
    Decoder.Reads (offsetsDecoder page) (encodeOffsets offsets) offsets := by
  refine (Decoder.reads_word (Nat.lt_of_le_of_lt h (by decide))).bind ?_
  rw [if_neg (Nat.not_lt.2 h)]
  have hlen := length_flatMap_encode offsets
  have hrow : Decoder.Reads (Decoder.times (UInt64.ofNat <$> Decoder.word 8) offsets.length)
      (offsets.flatMap fun o => BigEndian.encode 8 o.toNat) offsets := by
    rw [List.flatMap_def]
    refine Decoder.reads_times ?_
    rw [List.forall₂_map_right_iff, List.forall₂_same]
    intro o _
    simpa using (Decoder.reads_word (w := 8) o.toNat_lt).map UInt64.ofNat
  refine hrow.bind ?_
  have hpad := Decoder.reads_bytes (zeros (maxChildren * idBytes - offsets.length * idBytes))
  rw [length_zeros, ← Nat.sub_mul] at hpad
  rw [hlen, ← Nat.sub_mul]
  exact hpad.bind_pure (.pure offsets)

theorem reads_keysDecoder {header : NodeHeader} {keys : List Field} {parts : List Bytes}
    (hsize : keys.length ≤ fanout) (htype : ∀ k ∈ keys, k.type = header.keyType)
    (hparts : keys.mapM Field.encode = .ok parts) :
    Decoder.Reads (keysDecoder header) (BigEndian.encode 4 keys.length ++ parts.flatten) keys := by
  refine (Decoder.reads_word (Nat.lt_of_le_of_lt hsize (by decide))).bind ?_
  rw [if_neg (Nat.not_lt.2 hsize)]
  refine Decoder.reads_times ?_
  clear hsize
  induction keys generalizing parts with
  | nil =>
    cases hparts
    exact .nil
  | cons k keys ih =>
    rw [List.mapM_cons] at hparts
    cases hk : k.encode with
    | error e => rw [hk] at hparts; cases hparts
    | ok bs =>
      cases hks : keys.mapM Field.encode with
      | error e => rw [hk, hks] at hparts; cases hparts
      | ok rest =>
        rw [hk, hks] at hparts
        cases hparts
        refine .cons ?_ (ih (fun k' hk' => htype k' (List.mem_cons_of_mem _ hk')) hks)
        rw [← htype k (by simp)]
        exact Field.reads_decoder hk

/-- Keys that fit their slots have encoded forms, of the sizes that their types say. -/
theorem exists_mapM_encode {keys : List Field} (h : ∀ k ∈ keys, k.Fits) :
    ∃ parts, keys.mapM Field.encode = .ok parts ∧
      parts.flatten.length ≤ keys.length * stringFieldBytes := by
  induction keys with
  | nil => exact ⟨[], rfl, by simp⟩
  | cons k keys ih =>
    obtain ⟨parts, hparts, hlen⟩ := ih fun k' hk' => h k' (List.mem_cons_of_mem _ hk')
    obtain ⟨bs, hbs⟩ := (Field.encode_isOk_iff k).2 (h k (by simp))
    refine ⟨bs :: parts, by rw [List.mapM_cons, hbs, hparts]; rfl, ?_⟩
    have hk : bs.length ≤ stringFieldBytes := by
      rw [Field.length_encode hbs, Field.size]
      cases k.type <;> decide
    rw [List.flatten_cons, List.length_append, List.length_cons, Nat.add_mul]
    omega

/-- An encodable node has a page, and it is the node on that page. -/
theorem exists_toPage {n : Node} (h : n.Encodable) :
    ∃ page, n.toPage = .ok page ∧ ofPage page = .ok n := by
  have hoff := h.length_offsets_le
  have hsize := h.size_le
  obtain ⟨parts, hparts, hlen⟩ := exists_mapM_encode fun k hk => (h.keys_ok k hk).2
  have hfind : (n.keys.find? fun k => k.type ≠ n.header.keyType) = none := by
    rw [List.find?_eq_none]
    intro k hk
    simpa using show k.type = n.header.keyType from (h.keys_ok k hk).1
  refine ⟨_, by rw [toPage_eq h, encodeNode, if_neg (by omega), hfind, hparts], ?_⟩
  have hrow : (encodeOffsets n.offsets).length = 4 + maxChildren * idBytes := by
    rw [encodeOffsets, List.length_append, BigEndian.length_encode, length_padTo]
    rw [length_flatMap_encode]
    exact Nat.mul_le_mul_right _ hoff
  rw [ofPage, Page.bytes_filled]
  · refine Decoder.Reads.run ?_ _
    rw [List.append_assoc, List.append_assoc]
    refine (NodeHeader.reads_decoder n.header).bind ((reads_offsetsDecoder _ hoff).bind
      ((reads_keysDecoder hsize (fun k hk => (h.keys_ok k hk).1) hparts).bind_pure ?_))
    rw [assemble_offsets h]
    exact Decoder.reads_liftM n
  · have hbound : n.keys.length * stringFieldBytes ≤ fanout * stringFieldBytes :=
      Nat.mul_le_mul_right _ hsize
    simp only [List.length_append, NodeHeader.length_encode, hrow, BigEndian.length_encode]
    simp only [nodeHeaderBytes, maxChildren, fanout, idBytes, stringFieldBytes, pageSize] at *
    omega

theorem assemble_eq_ok {header : NodeHeader} {offsets : List UInt64} {keys : List Field} {n : Node}
    (h : assemble header offsets keys = .ok n) :
    n.header = header ∧ n.keys = keys ∧ n.offsets = offsets ∧ n.CountsAgree := by
  obtain ⟨kind, keyType, parent, page⟩ := header
  unfold assemble at h
  cases kind with
  | leaf =>
    simp only at h
    split_ifs at h with hne
    cases h
    refine ⟨rfl, rfl, List.map_map.trans (List.map_id _), ?_⟩
    simpa [CountsAgree] using not_not.1 hne
  | internal =>
    simp only at h
    split_ifs at h with hne
    cases h
    refine ⟨rfl, rfl, List.map_map.trans (List.map_id _), ?_⟩
    simpa [CountsAgree] using not_not.1 hne

theorem keysDecoder_eq_ok {header : NodeHeader} {c c' : Cursor} {keys : List Field}
    (h : keysDecoder header c = .ok (keys, c')) :
    keys.length ≤ fanout ∧ ∀ k ∈ keys, k.type = header.keyType ∧ k.Fits := by
  obtain ⟨count, c₁, -, h⟩ := Decoder.bind_eq_ok_iff.1 h
  split_ifs at h with hlong
  · cases h
  · obtain ⟨hlen, hmem⟩ := Decoder.times_eq_ok h
    refine ⟨by omega, ?_⟩
    intro k hk
    obtain ⟨c₂, c₃, hdec⟩ := hmem k hk
    exact Field.type_and_fits_of_decoder hdec

/-- What is read behind the header, and how the node is put together. -/
theorem decoder_eq_ok_iff {c c' : Cursor} {n : Node} :
    decoder c = .ok (n, c') ↔ ∃ header c₁ offsets c₂ keys, NodeHeader.decoder c = .ok (header, c₁) ∧
      offsetsDecoder header.page c₁ = .ok (offsets, c₂) ∧ keysDecoder header c₂ = .ok (keys, c') ∧
      assemble header offsets keys = .ok n := by
  constructor
  · intro h
    obtain ⟨header, c₁, hh, h⟩ := Decoder.bind_eq_ok_iff.1 h
    obtain ⟨offsets, c₂, ho, h⟩ := Decoder.bind_eq_ok_iff.1 h
    obtain ⟨keys, c₃, hk, h⟩ := Decoder.bind_eq_ok_iff.1 h
    cases ha : assemble header offsets keys with
    | error e => rw [ha] at h; cases h
    | ok m =>
      rw [ha] at h
      cases h
      exact ⟨header, c₁, offsets, c₂, keys, hh, ho, hk, ha⟩
  · rintro ⟨header, c₁, offsets, c₂, keys, hh, ho, hk, ha⟩
    refine Decoder.bind_eq_ok_iff.2 ⟨header, c₁, hh, Decoder.bind_eq_ok_iff.2 ⟨offsets, c₂, ho,
      Decoder.bind_eq_ok_iff.2 ⟨keys, c', hk, ?_⟩⟩⟩
    rw [ha]
    rfl

/-- Whatever bytes a page has, the node that is read from it is encodable. -/
theorem encodable_of_ofPage {p : Page} {n : Node} (h : ofPage p = .ok n) : n.Encodable := by
  obtain ⟨c, h⟩ := Decoder.run_eq_ok_iff.1 h
  obtain ⟨header, c₁, offsets, c₂, keys, -, -, hk, ha⟩ := decoder_eq_ok_iff.1 h
  obtain ⟨hheader, hkeys, -, hcounts⟩ := assemble_eq_ok ha
  obtain ⟨hsize, hmem⟩ := keysDecoder_eq_ok hk
  subst hkeys hheader
  exact ⟨hsize, hmem, hcounts⟩

/-- The parent link takes no part in putting a node together. -/
theorem assemble_withParent (header : NodeHeader) (offsets : List UInt64) (keys : List Field)
    (parent : Option PageId) : assemble { header with parent } offsets keys =
      (assemble header offsets keys).map (withParent parent) := by
  obtain ⟨kind, keyType, parent', page⟩ := header
  cases kind with
  | leaf =>
    simp only [assemble]
    split_ifs <;> rfl
  | internal =>
    simp only [assemble]
    split_ifs <;> rfl

/-- Reads what stands behind a header, and puts the node together. -/
def bodyDecoder (header : NodeHeader) : Decoder Node := do
  let offsets ← offsetsDecoder header.page
  let keys ← keysDecoder header
  liftM (assemble header offsets keys)

theorem decoder_eq : decoder = NodeHeader.decoder >>= bodyDecoder := rfl

/-- Behind headers that differ in the parent link the same bytes are read. -/
theorem bodyDecoder_withParent (header : NodeHeader) (parent : Option PageId) :
    bodyDecoder { header with parent } = withParent parent <$> bodyDecoder header := by
  have hlift : ∀ x : Except Error Node,
      (liftM (x.map (withParent parent)) : Decoder Node) = withParent parent <$> liftM x := by
    intro x
    cases x <;> rfl
  simp only [bodyDecoder, map_bind, ← hlift, ← assemble_withParent]
  rfl

end Node

namespace Page

variable {p : Page} {h : NodeHeader}

/-- A header is read from the front of a page. -/
theorem header_eq_ok_iff :
    p.header = .ok h ↔ ∃ c, NodeHeader.decoder (.start p.bytes) = .ok (h, c) := by
  rw [header, NodeHeader.decode, if_neg (by rw [p.length_eq]; decide), Decoder.run_eq_ok_iff]

/-- The header that is written is read back. -/
theorem header_setHeader (p : Page) (h : NodeHeader) : (p.setHeader h).header = .ok h :=
  header_eq_ok_iff.2 ⟨_, NodeHeader.reads_decoder h 0 (p.bytes.drop nodeHeaderBytes)⟩

theorem drop_setHeader (p : Page) (h : NodeHeader) :
    (p.setHeader h).bytes.drop nodeHeaderBytes = p.bytes.drop nodeHeaderBytes :=
  List.drop_left' (NodeHeader.length_encode h)

end Page

namespace Node

variable {p : Page} {h : NodeHeader}

/-- On a page with a header, the bytes behind it decide what is read. -/
theorem ofPage_of_header (hp : p.header = .ok h) :
    ofPage p = (bodyDecoder h ⟨nodeHeaderBytes, p.bytes.drop nodeHeaderBytes⟩).map Prod.fst := by
  obtain ⟨c, hc⟩ := Page.header_eq_ok_iff.1 hp
  have hdecoder : decoder (.start p.bytes) = bodyDecoder h c := by
    rw [decoder_eq, Decoder.run_bind, hc]
  have hcursor := NodeHeader.takes_decoder _ _ _ hc
  show (decoder (.start p.bytes)).map Prod.fst = _
  rw [hdecoder, hcursor]
  simp [Cursor.advance, Cursor.start]

/-- Another parent link changes the node on a page only in that link. A page without a node has the
same defect as before. -/
theorem ofPage_setParent (hp : p.header = .ok h) (parent : Option PageId) :
    ofPage (p.setHeader { h with parent }) = (ofPage p).map (withParent parent) := by
  rw [ofPage_of_header (Page.header_setHeader p _), Page.drop_setHeader, bodyDecoder_withParent,
    ofPage_of_header hp, map_eq_pure_bind, Decoder.run_bind]
  cases bodyDecoder h ⟨nodeHeaderBytes, p.bytes.drop nodeHeaderBytes⟩ <;> rfl

/-- The header of the node on a page, and the node on the page with another parent link. -/
theorem ofPage_setHeader {n : Node} (h : ofPage p = .ok n) (parent : Option PageId) :
    p.header = .ok n.header ∧
      ofPage (p.setHeader { n.header with parent }) = .ok (n.withParent parent) := by
  obtain ⟨c, hc⟩ := Decoder.run_eq_ok_iff.1 h
  obtain ⟨header, c₁, offsets, c₂, keys, hh, -, -, ha⟩ := decoder_eq_ok_iff.1 hc
  obtain ⟨rfl, -⟩ := assemble_eq_ok ha
  have hheader : p.header = .ok n.header := Page.header_eq_ok_iff.2 ⟨c₁, hh⟩
  refine ⟨hheader, ?_⟩
  rw [ofPage_setParent hheader, h]
  rfl

end Node

/-! ### The header page -/

namespace HeaderPage

/-- What is read from a header page names a root, and its first byte is that of the mark. -/
theorem root_and_mark_of_ofPage {p : Page} {h : HeaderPage} (hp : ofPage p = .ok h) :
    h.root ≠ .header ∧ ∃ rest, p.bytes = 0x50 :: rest := by
  obtain ⟨c, hp⟩ := Decoder.run_eq_ok_iff.1 hp
  obtain ⟨mark, c₁, hmark, hp⟩ := Decoder.bind_eq_ok_iff.1 hp
  split_ifs at hp with hne
  · cases hp
  · obtain ⟨t, c₂, -, hp⟩ := Decoder.bind_eq_ok_iff.1 hp
    obtain ⟨root, c₃, hroot, hp⟩ := Decoder.bind_eq_ok_iff.1 hp
    obtain ⟨width, c₄, -, hp⟩ := Decoder.bind_eq_ok_iff.1 hp
    split_ifs at hp with hzero hwidth
    · cases hp
    · cases hp
    · cases hp
      rw [not_not] at hne
      obtain ⟨hbytes, -⟩ := Decoder.bytes_eq_ok_iff.1 hmark
      refine ⟨fun hh => hzero ?_, _, by rw [hne] at hbytes; exact hbytes⟩
      have hlt : root < 2 ^ 64 := (Decoder.word_eq_ok hroot).2
      have hnumber := congrArg (fun p => p.number.toNat) hh
      rwa [UInt64.toNat_ofNat_of_lt' hlt] at hnumber

/-- A page that a node header can be read from is no header page. -/
theorem ofPage_ne_ok_of_header {p : Page} {h : NodeHeader} {h' : HeaderPage}
    (hh : p.header = .ok h) : ofPage p ≠ .ok h' := by
  intro hp
  obtain ⟨-, rest, hbytes⟩ := root_and_mark_of_ofPage hp
  obtain ⟨c, hh⟩ := Page.header_eq_ok_iff.1 hh
  obtain ⟨t, c₁, ht, -⟩ := Decoder.bind_eq_ok_iff.1 hh
  have hsignal := FieldType.decoder_eq_ok ht
  rw [hbytes] at hsignal
  have : (0x50 : UInt8) = t.signal := (List.cons.inj hsignal).1
  cases t <;> exact absurd this (by decide)

theorem reads_decoder {h : HeaderPage} (hroot : h.root ≠ .header) :
    Decoder.Reads decoder h.encode h := by
  have hne : h.root.number.toNat ≠ 0 := by
    intro h0
    have hzero : h.root.number = 0 := UInt64.toNat_inj.1 h0
    exact hroot (congrArg PageId.mk hzero)
  refine (Decoder.reads_bytes magic).bind ?_
  rw [if_neg (not_not.2 rfl)]
  refine (FieldType.reads_decoder h.keyType).bind ?_
  refine (Decoder.reads_word (w := 8) h.root.number.toNat_lt).bind ?_
  refine (Decoder.reads_word (w := 4) (by decide)).bind_pure ?_
  rw [if_neg hne, if_neg (not_not.2 rfl)]
  simpa using Decoder.Reads.pure h

/-- The header of the tree is read back from its page. -/
theorem ofPage_toPage {h : HeaderPage} (hroot : h.root ≠ .header) : ofPage h.toPage = .ok h := by
  rw [ofPage, toPage, Page.bytes_filled (by rw [length_encode]; decide)]
  exact (reads_decoder hroot).run _

end HeaderPage
end RecordIndex
