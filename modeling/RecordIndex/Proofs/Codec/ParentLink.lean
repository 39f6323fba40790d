import RecordIndex.Proofs.Codec.NodePage
import RecordIndex.Proofs.Codec.PageReads

/-!
# The parent link of a page

The header that is written over another one says the same but for the parent, so it differs from what
stood there in the nine bytes of the link alone.

* `NodeHeader.decoder_eq_ok`: what has been read as a header.
* `Page.getElem?_setHeader`: the bytes around the link stay.
* `Page.setHeader_eq_self`: a link to a parent is written in one way only.
-/

namespace RecordIndex

namespace Decoder

theorem byte_eq_ok {b : UInt8} {o o' : Nat} {rest rest' : Bytes}
    (h : byte ⟨o, rest⟩ = .ok (b, ⟨o', rest'⟩)) : rest = b :: rest' := by
  cases rest with
  | nil => cases h
  | cons b' rest =>
    cases h
    rfl

end Decoder

namespace NodeKind

theorem ofByte_eq_ok {b : UInt8} {kind : NodeKind} (h : ofByte b = .ok kind) : b = kind.byte := by
  unfold ofByte at h
  split_ifs at h with h0 h1 <;> cases h
  · exact h0
  · exact h1

end NodeKind

namespace NodeHeader

/-- A link to a parent is the bytes that have been read. Without a parent only the first of them is
certain. -/
theorem parentDecoder_eq_ok {parent : Option PageId} {o o' : Nat} {rest rest' : Bytes}
    (h : parentDecoder ⟨o, rest⟩ = .ok (parent, ⟨o', rest'⟩)) :
    ∃ link, rest = link ++ rest' ∧ link.length = 9 ∧
      ∀ q, parent = some q → link = encodeParent (some q) := by
  obtain ⟨flag, ⟨o₁, rest₁⟩, hflag, hword⟩ := Decoder.bind_eq_ok_iff.1 h
  obtain ⟨n, ⟨o₂, rest₂⟩, hword, hparent⟩ := Decoder.bind_eq_ok_iff.1 hword
  obtain ⟨hrest, hlt⟩ := Decoder.word_eq_ok hword
  refine ⟨flag :: BigEndian.encode 8 n, ?_, by simp, ?_⟩
  · rw [Decoder.byte_eq_ok hflag, hrest]
    split_ifs at hparent <;> cases hparent <;> rfl
  · rintro q rfl
    split_ifs at hparent with h0 h1 <;> cases hparent
    rw [encodeParent, h1, UInt64.toNat_ofNat_of_lt' hlt]

/-- A header is the bytes that have been read, but for the link of a node without a parent. -/
theorem decoder_eq_ok {h : NodeHeader} {o o' : Nat} {rest rest' : Bytes}
    (hd : decoder ⟨o, rest⟩ = .ok (h, ⟨o', rest'⟩)) :
    ∃ link, rest = [h.keyType.signal, h.kind.byte] ++ (link ++
        (BigEndian.encode 8 h.page.number.toNat ++ rest')) ∧ link.length = 9 ∧
      ∀ q, h.parent = some q → link = encodeParent (some q) := by
  obtain ⟨keyType, ⟨o₁, rest₁⟩, htype, hd⟩ := Decoder.bind_eq_ok_iff.1 hd
  obtain ⟨b, ⟨o₂, rest₂⟩, hbyte, hd⟩ := Decoder.bind_eq_ok_iff.1 hd
  cases hkind : NodeKind.ofByte b with
  | error e =>
    rw [hkind] at hd
    cases hd
  | ok kind =>
    rw [hkind] at hd
    obtain ⟨kind', c₃, hlift, hd⟩ := Decoder.bind_eq_ok_iff.1 hd
    cases hlift
    obtain ⟨parent, ⟨o₄, rest₄⟩, hparent, hd⟩ := Decoder.bind_eq_ok_iff.1 hd
    obtain ⟨n, ⟨o₅, rest₅⟩, hword, hd⟩ := Decoder.bind_eq_ok_iff.1 hd
    cases hd
    obtain ⟨link, hrest, hlen, hlink⟩ := parentDecoder_eq_ok hparent
    obtain ⟨hrest', hlt⟩ := Decoder.word_eq_ok hword
    refine ⟨link, ?_, hlen, hlink⟩
    rw [FieldType.decoder_eq_ok htype, Decoder.byte_eq_ok hbyte, NodeKind.ofByte_eq_ok hkind, hrest, hrest',
      UInt64.toNat_ofNat_of_lt' hlt]
    rfl

end NodeHeader

namespace Page

variable {p : Page} {h : NodeHeader}

/-- The bytes of a page whose header can be read. -/
theorem bytes_of_header (hp : p.header = .ok h) :
    ∃ link, p.bytes = [h.keyType.signal, h.kind.byte] ++ (link ++
        (BigEndian.encode 8 h.page.number.toNat ++ p.bytes.drop nodeHeaderBytes)) ∧
      link.length = 9 ∧ ∀ q, h.parent = some q → link = NodeHeader.encodeParent (some q) := by
  obtain ⟨⟨o, rest⟩, hd⟩ := header_eq_ok_iff.1 hp
  have htakes := NodeHeader.takes_decoder _ _ _ hd
  obtain rfl : rest = p.bytes.drop nodeHeaderBytes := congrArg Cursor.rest htakes
  exact NodeHeader.decoder_eq_ok hd

theorem bytes_setHeader : (p.setHeader h).bytes = [h.keyType.signal, h.kind.byte] ++
    (NodeHeader.encodeParent h.parent ++
      (BigEndian.encode 8 h.page.number.toNat ++ p.bytes.drop nodeHeaderBytes)) := by
  simp [setHeader, NodeHeader.encode]

/-- What is put between two byte strings in the place of another one leaves them as they were. -/
theorem getElem?_around {as bs cs ds : Bytes} (hlen : bs.length = cs.length) {i : Nat}
    (hi : i < as.length ∨ as.length + bs.length ≤ i) :
    (as ++ (bs ++ ds))[i]? = (as ++ (cs ++ ds))[i]? := by
  rcases hi with hi | hi
  · rw [List.getElem?_append_left hi, List.getElem?_append_left hi]
  · have hle : as.length ≤ i := Nat.le_of_add_right_le hi
    rw [List.getElem?_append_right hle, List.getElem?_append_right hle,
      List.getElem?_append_right (Nat.le_sub_of_add_le' hi),
      List.getElem?_append_right (hlen ▸ Nat.le_sub_of_add_le' hi), hlen]

/-- Another parent link changes only the nine bytes of the link. -/
theorem getElem?_setHeader (hp : p.header = .ok h) (parent : Option PageId) {i : Nat}
    (hi : i < 2 ∨ 10 < i) : (p.setHeader { h with parent }).bytes[i]? = p.bytes[i]? := by
  obtain ⟨link, hbytes, hlen, -⟩ := bytes_of_header hp
  have hparent := NodeHeader.length_encodeParent parent
  conv => rhs; rw [hbytes]
  rw [bytes_setHeader]
  refine getElem?_around (hparent.trans hlen.symm) (hi.imp_right fun hi => ?_)
  rw [hparent]
  exact hi

/-- The link to a parent is written in one way only. -/
theorem setHeader_eq_self (hp : p.header = .ok h) {q : PageId} (hq : h.parent = some q) :
    p.setHeader h = p := by
  obtain ⟨link, hbytes, -, hlink⟩ := bytes_of_header hp
  refine ext_bytes ?_
  rw [bytes_setHeader, hq, ← hlink q hq]
  exact hbytes.symm

/-- Of two headers that are written, the second one stays. -/
theorem setHeader_setHeader (p : Page) (h h' : NodeHeader) :
    (p.setHeader h).setHeader h' = p.setHeader h' :=
  ext_bytes (congrArg (h'.encode ++ ·) (drop_setHeader p h))

end Page
end RecordIndex
