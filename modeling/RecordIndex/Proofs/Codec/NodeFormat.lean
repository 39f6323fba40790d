import RecordIndex.Proofs.Codec.NodePage
import RecordIndex.Proofs.Codec.PageReads

/-!
# The format of node pages

Which nodes have a page, and which pages hold a node.

* `Node.page_roundTrip`: exactly the encodable nodes have a page, and each is read back from its
  page as it was; the one fault that writing meets is a string key that is too long.
* `Page.HoldsNode` is the format, said of the bytes alone, and `Page.cleared` is the page on which
  the bytes that the format ignores are zero.
* `Node.ofPage_exact`: a page is accepted exactly if it has the format, every other page is
  corrupted, and writing what was read gives the page with its ignored bytes cleared.
-/

namespace RecordIndex

/-! ### Nodes that have a page -/

theorem Field.encode_eq_error {f : Field} {fault : Fault} (h : f.encode = .error fault) :
    fault = .overlongString ∧ ¬ f.Fits := by
  cases f with
  | int32 v => cases h
  | int64 v => cases h
  | str s =>
    simp only [encode] at h
    split at h
    · cases h
    · rename_i hlong
      cases h
      exact ⟨rfl, hlong⟩

/-- What is made of each member of a list fails only as it fails for one of them. -/
theorem exists_mem_of_mapM_eq_error {α β ε : Type} {f : α → Except ε β} {as : List α} {e : ε}
    (h : as.mapM f = .error e) : ∃ a ∈ as, f a = .error e := by
  induction as with
  | nil => cases h
  | cons a as ih =>
    rw [List.mapM_cons] at h
    cases ha : f a with
    | error e' =>
      rw [ha] at h
      cases h
      exact ⟨a, by simp, ha⟩
    | ok b =>
      cases has : as.mapM f with
      | error e' =>
        rw [ha, has] at h
        cases h
        obtain ⟨a', hmem, ha'⟩ := ih has
        exact ⟨a', List.mem_cons_of_mem a hmem, ha'⟩
      | ok bs =>
        rw [ha, has] at h
        cases h

/-- Something is made of a list exactly if it is made of each of its members. -/
theorem mapM_isOk_iff {α β ε : Type} {f : α → Except ε β} {as : List α} :
    (∃ bs, as.mapM f = .ok bs) ↔ ∀ a ∈ as, ∃ b, f a = .ok b := by
  induction as with
  | nil => exact iff_of_true ⟨[], rfl⟩ (by simp)
  | cons a as ih =>
    rw [List.forall_mem_cons, ← ih, List.mapM_cons]
    cases f a with
    | error e => simp [bind, Except.bind]
    | ok b => cases as.mapM f <;> simp [bind, Except.bind, pure, Except.pure]

/-- Writing fields in a row stops at one that does not fit its slot. -/
theorem Field.mapM_encode_eq_error {fs : List Field} {fault : Fault}
    (h : fs.mapM Field.encode = .error fault) : fault = .overlongString ∧ ∃ f ∈ fs, ¬ f.Fits := by
  obtain ⟨f, hmem, hf⟩ := exists_mem_of_mapM_eq_error h
  obtain ⟨hfault, hfits⟩ := Field.encode_eq_error hf
  exact ⟨hfault, f, hmem, hfits⟩

theorem Field.mapM_encode_isOk_iff (fs : List Field) :
    (∃ parts, fs.mapM Field.encode = .ok parts) ↔ ∀ f ∈ fs, f.Fits := by
  simp only [mapM_isOk_iff, Field.encode_isOk_iff]

namespace Node

/-- A node whose counts agree is written from its header, offsets and keys. -/
theorem toPage_of_countsAgree {n : Node} (h : n.CountsAgree) :
    n.toPage = encodeNode n.header n.offsets n.keys := by
  cases n with
  | leaf l => exact if_neg (not_not.2 h.symm)
  | internal n => exact if_neg (not_not.2 h)

theorem toPage_of_not_countsAgree {n : Node} (h : ¬ n.CountsAgree) :
    ∃ cause, n.toPage = .error (.error (.invariantViolation cause)) := by
  cases n with
  | leaf l => exact ⟨_, if_pos (Ne.symm h)⟩
  | internal n => exact ⟨_, if_pos h⟩

/-- With counts that agree, the keys alone decide whether the entries are too many. -/
theorem overfull_iff {n : Node} (h : n.CountsAgree) :
    (maxChildren < n.offsets.length ∨ fanout < n.keys.length) ↔ ¬ n.keys.length ≤ fanout := by
  cases n with
  | leaf l =>
    simp only [CountsAgree] at h
    simp only [offsets, List.length_map, keys, h, maxChildren]
    omega
  | internal n =>
    simp only [CountsAgree] at h
    simp only [offsets, List.length_map, keys, h, maxChildren]
    omega

/-- A node whose counts agree, within bounds and with keys of its type, is written if its keys are. -/
theorem toPage_of_mapM_encode {n : Node} (hcounts : n.CountsAgree) (hsize : n.keys.length ≤ fanout)
    (htype : ∀ k ∈ n.keys, k.type = n.keyType) :
    (∀ parts, n.keys.mapM Field.encode = .ok parts →
      n.toPage = .ok (.filled (n.header.encode ++ encodeOffsets n.offsets ++
        BigEndian.encode 4 n.keys.length ++ parts.flatten))) ∧
    ∀ fault, n.keys.mapM Field.encode = .error fault → n.toPage = .error (.fault fault) := by
  have hfind : (n.keys.find? fun k => k.type ≠ n.header.keyType) = none := by
    rw [List.find?_eq_none]
    intro k hk
    simpa using show k.type = n.header.keyType from htype k hk
  have hbound : ¬ (maxChildren < n.offsets.length ∨ fanout < n.keys.length) := by
    rw [overfull_iff hcounts]
    exact not_not.2 hsize
  rw [toPage_of_countsAgree hcounts, encodeNode, if_neg hbound, hfind]
  refine ⟨fun parts hparts => ?_, fun fault hfault => ?_⟩
  · rw [hparts]
  · rw [hfault]

/-- A node that breaks a rule other than the length of its strings is refused with an error. -/
theorem toPage_of_broken {n : Node}
    (h : ¬ (n.CountsAgree ∧ n.keys.length ≤ fanout ∧ ∀ k ∈ n.keys, k.type = n.keyType)) :
    ∃ e, n.toPage = .error (.error e) := by
  by_cases hcounts : n.CountsAgree
  · rw [toPage_of_countsAgree hcounts, encodeNode]
    by_cases hsize : n.keys.length ≤ fanout
    · obtain ⟨k, hk, htype⟩ : ∃ k ∈ n.keys, k.type ≠ n.keyType := by
        by_contra! hall
        exact h ⟨hcounts, hsize, hall⟩
      obtain ⟨k', hfind⟩ : ∃ k', (n.keys.find? fun k => k.type ≠ n.header.keyType) = some k' := by
        rw [← Option.isSome_iff_exists, List.find?_isSome]
        exact ⟨k, hk, decide_eq_true htype⟩
      rw [if_neg (by rw [overfull_iff hcounts]; simpa), hfind]
      exact ⟨_, rfl⟩
    · rw [if_pos ((overfull_iff hcounts).2 hsize)]
      exact ⟨_, rfl⟩
  · obtain ⟨cause, hcause⟩ := toPage_of_not_countsAgree hcounts
    exact ⟨_, hcause⟩

/-- Only a node that keeps to the rules gets a page. -/
theorem encodable_of_toPage {n : Node} {page : Page} (h : n.toPage = .ok page) : n.Encodable := by
  by_cases hrules : n.CountsAgree ∧ n.keys.length ≤ fanout ∧ ∀ k ∈ n.keys, k.type = n.keyType
  · obtain ⟨hcounts, hsize, htype⟩ := hrules
    cases hparts : n.keys.mapM Field.encode with
    | error fault =>
      rw [(toPage_of_mapM_encode hcounts hsize htype).2 fault hparts] at h
      cases h
    | ok parts =>
      have hfits := (Field.mapM_encode_isOk_iff n.keys).1 ⟨parts, hparts⟩
      exact ⟨hsize, fun k hk => ⟨htype k hk, hfits k hk⟩, hcounts⟩
  · obtain ⟨e, he⟩ := toPage_of_broken hrules
    rw [he] at h
    cases h

/-- The page of a node is read as the node. -/
theorem ofPage_of_toPage {n : Node} {page : Page} (h : n.toPage = .ok page) :
    ofPage page = .ok n := by
  obtain ⟨page', hpage', hof⟩ := exists_toPage (encodable_of_toPage h)
  rw [h] at hpage'
  cases hpage'
  exact hof

/-- Exactly the encodable nodes have a page, each is read back from its page as it was, and the one
fault that writing a node can meet is a string key that is too long in a node without any other
defect. -/
theorem page_roundTrip (n : Node) :
    ((∃ page, n.toPage = .ok page) ↔ n.Encodable) ∧
      (∀ page, n.toPage = .ok page → ofPage page = .ok n) ∧
      ∀ fault, n.toPage = .error (.fault fault) ↔
        fault = .overlongString ∧ n.CountsAgree ∧ n.keys.length ≤ fanout ∧
          (∀ k ∈ n.keys, k.type = n.keyType) ∧ ∃ k ∈ n.keys, ¬ k.Fits := by
  refine ⟨⟨fun ⟨page, hpage⟩ => encodable_of_toPage hpage, fun h => ?_⟩,
    fun page hpage => ofPage_of_toPage hpage, fun fault => ⟨fun hfault => ?_, ?_⟩⟩
  · obtain ⟨page, hpage, -⟩ := exists_toPage h
    exact ⟨page, hpage⟩
  · by_cases hrules : n.CountsAgree ∧ n.keys.length ≤ fanout ∧ ∀ k ∈ n.keys, k.type = n.keyType
    · obtain ⟨hcounts, hsize, htype⟩ := hrules
      cases hparts : n.keys.mapM Field.encode with
      | ok parts =>
        rw [(toPage_of_mapM_encode hcounts hsize htype).1 parts hparts] at hfault
        cases hfault
      | error fault' =>
        rw [(toPage_of_mapM_encode hcounts hsize htype).2 fault' hparts] at hfault
        cases hfault
        obtain ⟨hlong, hk⟩ := Field.mapM_encode_eq_error hparts
        exact ⟨hlong, hcounts, hsize, htype, hk⟩
    · obtain ⟨e, he⟩ := toPage_of_broken hrules
      rw [he] at hfault
      cases hfault
  · rintro ⟨rfl, hcounts, hsize, htype, k, hk, hlong⟩
    cases hparts : n.keys.mapM Field.encode with
    | ok parts => exact absurd ((Field.mapM_encode_isOk_iff n.keys).1 ⟨parts, hparts⟩ k hk) hlong
    | error fault =>
      rw [(toPage_of_mapM_encode hcounts hsize htype).2 fault hparts,
        (Field.mapM_encode_eq_error hparts).1]

end Node

/-! ### The format -/

namespace Page

variable {p q : Page} {i j m n : Nat}

/-- Where the offsets of a node start, behind their count. -/
def offsetRow : Nat := nodeHeaderBytes + 4

/-- Where the count of the keys stands, behind the offsets. -/
def keyCountAt : Nat := offsetRow + maxChildren * idBytes

/-- Where the keys of a node start, behind their count. -/
def keyRow : Nat := keyCountAt + 4

/-- The key type that the first byte of the page stands for. -/
def keyType? (p : Page) : Option FieldType := FieldType.ofSignal? (p.byteAt 0)

/-- The number of offsets that the page claims. -/
def offsetCount (p : Page) : Nat := p.wordAt nodeHeaderBytes

/-- The number of keys that the page claims. -/
def keyCount (p : Page) : Nat := p.wordAt keyCountAt

/-- The length of the page's keys. -/
def keySize (p : Page) : Nat := p.keyType?.elim 0 FieldType.size

/-- Where the key with a number starts. -/
def keyAt (p : Page) (k : Nat) : Nat := keyRow + p.keySize * k

/-- The page has the format of a node page. -/
structure HoldsNode (p : Page) : Prop where
  signal : p.keyType?.isSome
  kind : p.byteAt 1 = 0 ∨ p.byteAt 1 = 1
  parentFlag : p.byteAt 2 = 0 ∨ p.byteAt 2 = 1
  offsets_le : p.offsetCount ≤ maxChildren
  keys_le : p.keyCount ≤ fanout
  counts : p.offsetCount = if p.byteAt 1 = 1 then p.keyCount else p.keyCount + 1
  texts : p.keyType? = some .str → ∀ k < p.keyCount, p.HoldsString (p.keyAt k)

/-- The bytes that say nothing: the parent of a node without one, the offset slots past the count,
the padding of the strings, and all that stands behind the last key. -/
def Ignored (p : Page) (i : Nat) : Prop :=
  (p.byteAt 2 = 0 ∧ 3 ≤ i ∧ i < 11) ∨
    (offsetRow + p.offsetCount * idBytes ≤ i ∧ i < keyCountAt) ∨
    (p.keyType? = some .str ∧
      ∃ k < p.keyCount, p.keyAt k + 4 + p.wordAt (p.keyAt k) ≤ i ∧ i < p.keyAt (k + 1)) ∨
    p.keyAt p.keyCount ≤ i

instance (p : Page) : DecidablePred p.Ignored := fun _ =>
  inferInstanceAs (Decidable ((_ ∧ _ ∧ _) ∨ (_ ∧ _) ∨ (_ ∧ ∃ k < p.keyCount, _ ∧ _) ∨ _))

/-- The page with zeros for the bytes that say nothing. -/
def cleared (p : Page) : Page :=
  ⟨p.bytes.mapIdx fun i b => if p.Ignored i then 0 else b, by rw [List.length_mapIdx, p.length_eq]⟩

theorem byteAt_cleared (h : i < pageSize) :
    p.cleared.byteAt i = if p.Ignored i then 0 else p.byteAt i := by
  have hi : i < p.bytes.length := by rw [p.length_eq]; exact h
  rw [byteAt, cleared, List.getElem?_mapIdx, byteAt, List.getElem?_eq_getElem hi]
  rfl

theorem slice_cleared_of_kept (hn : i + n ≤ pageSize)
    (h : ∀ j, i ≤ j → j < i + n → ¬ p.Ignored j) : p.cleared.slice i n = p.slice i n := by
  refine slice_eq (length_slice hn) hn fun j hj => ?_
  rw [getElem?_slice hj hn, byteAt_cleared (by omega), if_neg (h _ (by omega) (by omega))]

theorem slice_cleared_of_ignored (hn : i + n ≤ pageSize)
    (h : ∀ j, i ≤ j → j < i + n → p.Ignored j) : p.cleared.slice i n = zeros n := by
  refine slice_eq (length_zeros n) hn fun j hj => ?_
  rw [byteAt_cleared (by omega), if_pos (h _ (by omega) (by omega)), zeros,
    List.getElem?_replicate, if_pos hj]

/-! ### The parts of a node page -/

theorem keySize_of_keyType {t : FieldType} (h : p.keyType? = some t) : p.keySize = t.size := by
  rw [keySize, h]
  rfl

theorem keySize_le (p : Page) : p.keySize ≤ stringFieldBytes := by
  rw [keySize]
  cases p.keyType? with
  | none => decide
  | some t => cases t <;> decide

/-- The keys of a node end on its page. -/
theorem keyAt_le (p : Page) {k : Nat} (h : k ≤ fanout) : p.keyAt k ≤ maxNodeBytes := by
  have := Nat.mul_le_mul p.keySize_le h
  exact Nat.add_le_add_left this keyRow

theorem not_ignored_of_lt_keyRow (hi : i < keyRow) (hparent : p.byteAt 2 = 0 → i < 3 ∨ 11 ≤ i)
    (hoffsets : i < offsetRow + p.offsetCount * idBytes ∨ keyCountAt ≤ i) : ¬ p.Ignored i := by
  have hkeys : ∀ k, keyRow ≤ p.keyAt k := fun k => Nat.le_add_right _ _
  rintro (⟨h0, h⟩ | h | ⟨-, k, -, h, -⟩ | h)
  · have := hparent h0
    omega
  · omega
  · have := hkeys k
    omega
  · have := hkeys p.keyCount
    omega

/-- Of the bytes in front of the offsets, only those of a missing parent are ignored. -/
theorem slice_cleared_front (hi : i + n ≤ offsetRow)
    (hparent : p.byteAt 2 = 0 → i + n ≤ 3 ∨ 11 ≤ i) : p.cleared.slice i n = p.slice i n := by
  have hrow : offsetRow ≤ keyRow ∧ offsetRow ≤ pageSize := by decide
  refine slice_cleared_of_kept (by omega) fun j hj hj' => ?_
  refine not_ignored_of_lt_keyRow (by omega) (fun h => ?_) (.inl (by omega))
  have := hparent h
  omega

theorem checks_parentDecoder :
    Checks p NodeHeader.parentDecoder 2 9 (p.byteAt 2 = 0 ∨ p.byteAt 2 = 1)
      fun parent => NodeHeader.encodeParent parent = p.cleared.slice 2 9 := by
  rw [slice_add p.cleared 2 1 8, slice_cleared_front (n := 1) (by decide) (fun _ => .inl (by decide)),
    slice_one (by decide)]
  refine (checks_byte (by decide)).bind_of_true (n := 8) fun flag hf => ?_
  subst hf
  refine (checks_word (by decide)).bind_of_true (n := 0) fun parent hp => ?_
  obtain ⟨-, hlt, henc⟩ := hp
  by_cases h0 : p.byteAt 2 = 0
  · rw [if_pos h0]
    refine .pure (.inl h0) ?_
    have hzero : p.cleared.slice (2 + 1) 8 = zeros 8 :=
      slice_cleared_of_ignored (by decide) fun j hj hj' => .inl ⟨h0, hj, hj'⟩
    rw [hzero, h0]
    rfl
  · rw [if_neg h0]
    by_cases h1 : p.byteAt 2 = 1
    · rw [if_pos h1]
      refine .pure (.inr h1) ?_
      rw [NodeHeader.encodeParent, UInt64.toNat_ofNat_of_lt' hlt, henc,
        slice_cleared_front (by decide) (absurd · h0), h1]
      rfl
    · rw [if_neg h1]
      exact .fail (not_or_intro h0 h1) fun _ _ _ => by simp

theorem checks_keyTypeDecoder : Checks p FieldType.decoder 0 1 (p.keyType?.isSome = true)
    fun t => p.keyType? = some t ∧ p.byteAt 0 = t.signal := by
  refine (checks_byte (by decide)).bind_of_true (n := 0) fun b hb => ?_
  subst hb
  rw [keyType?]
  cases ht : FieldType.ofSignal? (p.byteAt 0) with
  | none =>
    exact .fail (by simp) fun _ _ _ => by simp
  | some t =>
    exact .pure rfl ⟨rfl, FieldType.ofSignal?_eq_some_iff.1 ht⟩

theorem checks_kind {b : UInt8} : Checks p (liftM (NodeKind.ofByte b)) i 0 (b = 0 ∨ b = 1)
    fun kind => b = kind.byte := by
  rw [NodeKind.ofByte]
  by_cases h0 : b = 0
  · rw [if_pos h0]
    exact .pure (a := NodeKind.internal) (.inl h0) h0
  · rw [if_neg h0]
    by_cases h1 : b = 1
    · rw [if_pos h1]
      exact .pure (a := NodeKind.leaf) (.inr h1) h1
    · rw [if_neg h1]
      exact .fail (not_or_intro h0 h1) fun _ _ _ => by simp

/-- What is known of a header that has been read from the page. -/
structure HasHeader (p : Page) (h : NodeHeader) : Prop where
  keyType : p.keyType? = some h.keyType
  kind : p.byteAt 1 = h.kind.byte
  encode : h.encode = p.cleared.slice 0 nodeHeaderBytes

theorem checks_headerDecoder :
    Checks p NodeHeader.decoder 0 nodeHeaderBytes (p.keyType?.isSome = true ∧
      (p.byteAt 1 = 0 ∨ p.byteAt 1 = 1) ∧ (p.byteAt 2 = 0 ∨ p.byteAt 2 = 1)) p.HasHeader := by
  refine checks_keyTypeDecoder.bind (n := 18) fun t ht => ?_
  refine (checks_byte (by decide)).bind_of_true (n := 17) fun b hb => ?_
  subst hb
  refine checks_kind.bind (m := 0) (n := 17) fun kind hkind => ?_
  refine (checks_parentDecoder.bind (n := 8) fun parent hparent => ?_).of_iff
    (and_true _).symm.to_iff
  refine (checks_word (by decide)).bind_of_true (n := 0) fun page hpage => .pure trivial ?_
  obtain ⟨-, hlt, hpage⟩ := hpage
  refine ⟨ht.1, hkind, ?_⟩
  have hfront : p.cleared.slice 0 2 = [p.byteAt 0, p.byteAt 1] := by
    rw [slice_cleared_front (by decide) (fun _ => .inl (by decide)), slice_add p 0 1 1,
      slice_one (by decide), slice_one (by decide)]
    rfl
  have hback : p.cleared.slice 11 8 = p.slice 11 8 :=
    slice_cleared_front (by decide) fun _ => .inr (by decide)
  rw [show nodeHeaderBytes = 2 + (9 + 8) from rfl, slice_add, slice_add, hfront, ← hparent, hback,
    NodeHeader.encode, ht.2, hkind, UInt64.toNat_ofNat_of_lt' hlt, hpage]
  rfl

/-- The row of offsets that a page counts, each as it stands there. -/
theorem flatMap_encode_offsets {offsets : List UInt64} {js : List Nat}
    (h : List.Forall₂ (fun (o : UInt64) j => BigEndian.encode 8 o.toNat = p.slice j idBytes)
      offsets js) :
    (offsets.flatMap fun o => BigEndian.encode 8 o.toNat) = js.flatMap (p.slice · idBytes) := by
  induction h with
  | nil => rfl
  | cons ho _ ih => rw [List.flatMap_cons, List.flatMap_cons, ho, ih]

/-- Offsets that are written as they were read fill their row, with zeros for the slots past the
count. -/
theorem encodeOffsets_of_row {offsets : List UInt64} (hle : p.offsetCount ≤ 6)
    (h : List.Forall₂ (fun (o : UInt64) j => BigEndian.encode 8 o.toNat = p.slice j 8) offsets
      (List.range' 23 p.offsetCount 8)) : encodeOffsets offsets = p.cleared.slice 19 52 := by
  have hsizes : keyRow = 75 ∧ offsetRow = 23 ∧ keyCountAt = 71 ∧ idBytes = 8 ∧ pageSize = 4096 := by
    decide
  have hcount : p.cleared.slice 19 4 = BigEndian.encode 4 p.offsetCount := by
    have := BigEndian.encode_decode (p.slice 19 4)
    rw [length_slice (by decide)] at this
    rw [slice_cleared_front (by decide) fun _ => .inr (by decide)]
    exact this.symm
  have hkept : p.cleared.slice 23 (p.offsetCount * 8) = p.slice 23 (p.offsetCount * 8) := by
    refine slice_cleared_of_kept (by omega) fun j hj hj' => ?_
    refine not_ignored_of_lt_keyRow (by omega) (fun _ => by omega) (.inl ?_)
    rw [hsizes.2.1, hsizes.2.2.2.1]
    exact hj'
  have hpad : p.cleared.slice (23 + p.offsetCount * 8) (48 - p.offsetCount * 8) =
      zeros (48 - p.offsetCount * 8) := by
    refine slice_cleared_of_ignored (by omega) fun j hj hj' => .inr (.inl ⟨hj, by omega⟩)
  have hrow : (offsets.flatMap fun o => BigEndian.encode 8 o.toNat) =
      p.slice 23 (p.offsetCount * 8) := by
    rw [slice_mul]
    exact flatMap_encode_offsets h
  have hlen : offsets.length = p.offsetCount := by rw [h.length_eq, List.length_range']
  have hsplit : 52 = 4 + (p.offsetCount * 8 + (48 - p.offsetCount * 8)) := by omega
  rw [hsplit, slice_add, slice_add, hcount, hkept, hpad, encodeOffsets, padTo, hrow, hlen,
    length_slice (by omega)]
  rfl

theorem checks_offsetsDecoder (page : PageId) :
    Checks p (Node.offsetsDecoder page) nodeHeaderBytes (4 + maxChildren * idBytes)
      (p.offsetCount ≤ maxChildren) fun offsets => offsets.length = p.offsetCount ∧
        encodeOffsets offsets = p.cleared.slice nodeHeaderBytes (4 + maxChildren * idBytes) := by
  refine (checks_word (n := 4) (by decide)).bind_of_true (n := 48) fun count hcount => ?_
  obtain ⟨rfl, -, hcount⟩ := hcount
  refine (Checks.guard (P := True) (fun _ _ _ => by simp) fun hle => ?_).of_iff
    (by rw [and_true]; exact Nat.not_lt.symm)
  have hle : p.offsetCount ≤ 6 := Nat.not_lt.1 hle
  have hpage : 23 + p.offsetCount * 8 + (6 - p.offsetCount) * 8 ≤ pageSize := by rw [pageSize]; omega
  have hrow : Checks p (Decoder.times (UInt64.ofNat <$> Decoder.word 8) p.offsetCount) 23
      (p.offsetCount * 8) True fun offsets => List.Forall₂
        (fun (o : UInt64) j => BigEndian.encode 8 o.toNat = p.slice j 8) offsets
        (List.range' 23 p.offsetCount 8) := by
    refine (Checks.times (P := fun _ => True) fun j hj => ?_).of_iff (by simp)
    obtain ⟨k, hk, rfl⟩ := List.mem_range'.1 hj
    refine (checks_word (by omega)).map fun x hx => ?_
    rw [UInt64.toNat_ofNat_of_lt' hx.2.1]
    exact hx.2.2
  rw [show 48 = p.offsetCount * 8 + (6 - p.offsetCount) * 8 by omega]
  refine hrow.bind_of_true fun offsets hoffsets => ?_
  refine (checks_bytes hpage).bind_of_true (n := 0) fun _ _ => .pure trivial ⟨?_, ?_⟩
  · rw [hoffsets.length_eq, List.length_range']
  · exact encodeOffsets_of_row hle hoffsets

/-! ### Keys on a page -/

theorem keyAt_of_keyType {t : FieldType} (h : p.keyType? = some t) (k : Nat) :
    p.keyAt k = 75 + t.size * k := by
  rw [keyAt, keySize_of_keyType h]
  rfl

/-- The bytes of a key are kept, those of a string up to its padding. -/
theorem not_ignored_of_key {t : FieldType} (ht : p.keyType? = some t) {k : Nat}
    (hk : k < p.keyCount) (hlo : p.keyAt k ≤ i) (hhi : i < p.keyAt k + t.size)
    (htext : t = .str → i < p.keyAt k + 4 + p.wordAt (p.keyAt k)) : ¬ p.Ignored i := by
  have hat := keyAt_of_keyType ht
  have hbehind : t.size * (k + 1) ≤ t.size * p.keyCount := Nat.mul_le_mul_left _ hk
  rw [Nat.mul_add, Nat.mul_one] at hbehind
  have hfront : keyCountAt = 71 := rfl
  rintro (⟨-, h⟩ | h | ⟨hstr, k', -, h, h'⟩ | h)
  · have := hat k
    omega
  · have := hat k
    omega
  · -- the slots of strings do not overlap, so that the padding is that of this key
    obtain rfl : t = .str := Option.some.inj (ht.symm.trans hstr)
    have hsize : FieldType.str.size = 50 := rfl
    have hcontent := htext rfl
    simp only [hat, hsize] at hlo hhi hcontent h h'
    have hsame : k' = k := by omega
    subst hsame
    omega
  · simp only [hat] at hhi h
    omega

theorem slice_cleared_key {t : FieldType} (ht : p.keyType? = some t) (hcount : p.keyCount ≤ fanout)
    {k : Nat} (hk : k < p.keyCount) (htext : t = .str → p.HoldsString (p.keyAt k)) :
    p.cleared.slice (p.keyAt k) t.size = p.fieldAt t (p.keyAt k) := by
  have hpage : p.keyAt k + t.size ≤ pageSize := by
    have hnext : p.keyAt (k + 1) = p.keyAt k + t.size := by
      rw [keyAt_of_keyType ht, keyAt_of_keyType ht, Nat.mul_add, Nat.mul_one, Nat.add_assoc]
    rw [← hnext]
    exact Nat.le_trans (p.keyAt_le (Nat.le_trans hk hcount)) maxNodeBytes_le_pageSize
  have hkept : t ≠ .str → p.cleared.slice (p.keyAt k) t.size = p.slice (p.keyAt k) t.size :=
    fun hne => slice_cleared_of_kept hpage fun j hj hj' =>
      not_ignored_of_key ht hk hj hj' fun h => absurd h hne
  cases t with
  | int32 => exact hkept (by simp)
  | int64 => exact hkept (by simp)
  | str =>
    obtain ⟨hlen, -⟩ := htext rfl
    have hsize : FieldType.str.size = 50 ∧ maxStringBytes = 45 := ⟨rfl, rfl⟩
    generalize hw : p.wordAt (p.keyAt k) = w at hlen
    have hlength : p.cleared.slice (p.keyAt k) 4 = p.slice (p.keyAt k) 4 :=
      slice_cleared_of_kept (by omega) fun j hj hj' =>
        not_ignored_of_key ht hk hj (by omega) fun _ => by omega
    have hcontent : p.cleared.slice (p.keyAt k + 4) w = p.slice (p.keyAt k + 4) w :=
      slice_cleared_of_kept (by omega) fun j hj hj' =>
        not_ignored_of_key ht hk (by omega) (by omega) fun _ => by omega
    have hpad : p.cleared.slice (p.keyAt k + 4 + w) (46 - w) = zeros (46 - w) := by
      refine slice_cleared_of_ignored (by omega) fun j hj hj' =>
        .inr (.inr (.inl ⟨ht, k, hk, by omega, ?_⟩))
      rw [keyAt_of_keyType ht, Nat.mul_add, Nat.mul_one]
      have := keyAt_of_keyType ht k
      omega
    have hsplit : FieldType.str.size = 4 + (w + (46 - w)) := by omega
    rw [hsplit, slice_add, slice_add, hlength, hcontent, hpad, fieldAt, hw, padTo,
      length_slice (by omega)]
    rfl

/-- The keys of a page stand in a row. -/
theorem flatten_map_fieldAt {t : FieldType} (ht : p.keyType? = some t) (hcount : p.keyCount ≤ fanout)
    (htext : t = .str → ∀ k < p.keyCount, p.HoldsString (p.keyAt k)) :
    ((List.range' 75 p.keyCount t.size).map (p.fieldAt t)).flatten =
      p.cleared.slice 75 (p.keyCount * t.size) := by
  rw [slice_mul, List.flatMap_def]
  congr 1
  refine List.map_congr_left fun j hj => ?_
  obtain ⟨k, hk, rfl⟩ := List.mem_range'.1 hj
  rw [← keyAt_of_keyType ht]
  exact (slice_cleared_key ht hcount hk fun h => htext h k hk).symm

/-- Keys that are written as they were read. -/
theorem mapM_encode_keys {t : FieldType} {keys : List Field} {js : List Nat}
    (h : List.Forall₂ (fun f j => Field.encode f = .ok (p.fieldAt t j)) keys js) :
    keys.mapM Field.encode = .ok (js.map (p.fieldAt t)) := by
  induction h with
  | nil => rfl
  | cons hk _ ih =>
    rw [List.mapM_cons, hk, ih]
    rfl

theorem checks_keysDecoder {header : NodeHeader} (ht : p.keyType? = some header.keyType) :
    Checks p (Node.keysDecoder header) keyCountAt (4 + p.keyCount * p.keySize)
      (p.keyCount ≤ fanout ∧
        (p.keyType? = some .str → ∀ k < p.keyCount, p.HoldsString (p.keyAt k)))
      fun keys => keys.length = p.keyCount ∧ ∃ parts, keys.mapM Field.encode = .ok parts ∧
        BigEndian.encode 4 keys.length ++ parts.flatten =
          p.cleared.slice keyCountAt (4 + p.keyCount * p.keySize) := by
  rw [keySize_of_keyType ht]
  refine (checks_word (n := 4) (by decide)).bind_of_true fun count hcount => ?_
  obtain ⟨rfl, -, hcount⟩ := hcount
  refine (Checks.guard (fun _ _ _ => by simp) fun hle => ?_).of_iff
    (and_congr_left fun _ => Nat.not_lt.symm)
  have hle : p.keyCount ≤ fanout := Nat.not_lt.1 hle
  have htexts : (∀ j ∈ List.range' 75 p.keyCount header.keyType.size,
      header.keyType = .str → p.HoldsString j) ↔
      (p.keyType? = some .str → ∀ k < p.keyCount, p.HoldsString (p.keyAt k)) := by
    rw [ht, Option.some.injEq]
    constructor
    · intro h hstr k hk
      rw [keyAt_of_keyType ht]
      exact h _ (List.mem_range'.2 ⟨k, hk, rfl⟩) hstr
    · intro h j hj hstr
      obtain ⟨k, hk, rfl⟩ := List.mem_range'.1 hj
      rw [← keyAt_of_keyType ht]
      exact h hstr k hk
  have hrow : Checks p (Decoder.times (Field.decoder header.keyType) p.keyCount) 75
      (p.keyCount * header.keyType.size)
      (p.keyType? = some .str → ∀ k < p.keyCount, p.HoldsString (p.keyAt k))
      fun keys => List.Forall₂ (fun f j => Field.encode f = .ok (p.fieldAt header.keyType j)) keys
        (List.range' 75 p.keyCount header.keyType.size) := by
    refine (Checks.times fun j hj => checks_fieldDecoder ?_).of_iff htexts.symm
    obtain ⟨k, hk, rfl⟩ := List.mem_range'.1 hj
    have hkey := p.keyAt_le (k := k + 1) (Nat.le_trans hk hle)
    rw [keyAt_of_keyType ht, Nat.mul_add, Nat.mul_one, ← Nat.add_assoc] at hkey
    exact Nat.le_trans hkey maxNodeBytes_le_pageSize
  refine hrow.mono fun keys hstrings hkeys => ?_
  have hlen : keys.length = p.keyCount := by rw [hkeys.length_eq, List.length_range']
  refine ⟨hlen, _, mapM_encode_keys hkeys, ?_⟩
  have hword : p.cleared.slice keyCountAt 4 = p.slice keyCountAt 4 := by
    refine slice_cleared_of_kept (by decide) fun j hj hj' => ?_
    have hsizes : keyCountAt = 71 ∧ keyRow = 75 := by decide
    exact not_ignored_of_lt_keyRow (by omega) (fun _ => by omega) (.inr hj)
  rw [slice_add, hword, hlen, ← hcount,
    flatten_map_fieldAt ht hle fun h => hstrings (by rw [ht, h])]
  rfl

/-! ### Node pages -/

/-- A node is put together exactly if its counts agree. -/
theorem checks_assemble {header : NodeHeader} {offsets : List UInt64} {keys : List Field} :
    Checks p (liftM (Node.assemble header offsets keys)) i 0
      (offsets.length = if header.kind = .leaf then keys.length else keys.length + 1)
      fun n => n.header = header ∧ n.keys = keys ∧ n.offsets = offsets := by
  have hparts : ∀ n, Node.assemble header offsets keys = .ok n →
      n.header = header ∧ n.keys = keys ∧ n.offsets = offsets := fun n h => by
    obtain ⟨hheader, hkeys, hoffsets, -⟩ := Node.assemble_eq_ok h
    exact ⟨hheader, hkeys, hoffsets⟩
  by_cases hcounts : offsets.length = if header.kind = .leaf then keys.length else keys.length + 1
  · obtain ⟨n, hn⟩ : ∃ n, Node.assemble header offsets keys = .ok n := by
      unfold Node.assemble
      cases hkind : header.kind with
      | leaf => exact ⟨_, if_neg (not_not.2 (by simpa [hkind] using hcounts))⟩
      | internal => exact ⟨_, if_neg (not_not.2 (by simpa [hkind] using hcounts))⟩
    rw [hn]
    exact .pure (a := n) hcounts (hparts n hn)
  · obtain ⟨cause, herr, hshort⟩ : ∃ cause, Node.assemble header offsets keys =
        .error (.corrupted cause) ∧ cause.NotShort := by
      unfold Node.assemble
      cases hkind : header.kind with
      | leaf => exact ⟨_, if_pos (by simpa [hkind] using hcounts), fun _ _ _ => by simp⟩
      | internal => exact ⟨_, if_pos (by simpa [hkind] using hcounts), fun _ _ _ => by simp⟩
    rw [herr]
    exact .fail hcounts hshort

/-- The node is written to the front of the page as the page has it, ignored bytes cleared. -/
def HasForm (p : Page) (n : Node) : Prop :=
  ∃ parts, n.keys.mapM Field.encode = .ok parts ∧
    n.header.encode ++ encodeOffsets n.offsets ++ BigEndian.encode 4 n.keys.length ++
      parts.flatten = p.cleared.slice 0 (p.keyAt p.keyCount)

theorem checks_decoder :
    Checks p Node.decoder 0 (nodeHeaderBytes + (4 + maxChildren * idBytes +
      (4 + p.keyCount * p.keySize + 0))) p.HoldsNode p.HasForm := by
  have hchain : Checks p Node.decoder 0 (nodeHeaderBytes + (4 + maxChildren * idBytes +
      (4 + p.keyCount * p.keySize + 0))) ((p.keyType?.isSome = true ∧
        (p.byteAt 1 = 0 ∨ p.byteAt 1 = 1) ∧ (p.byteAt 2 = 0 ∨ p.byteAt 2 = 1)) ∧
      p.offsetCount ≤ maxChildren ∧
      (p.keyCount ≤ fanout ∧
        (p.keyType? = some .str → ∀ k < p.keyCount, p.HoldsString (p.keyAt k))) ∧
      p.offsetCount = if p.byteAt 1 = 1 then p.keyCount else p.keyCount + 1) p.HasForm := by
    refine checks_headerDecoder.bind fun header hh => ?_
    refine (checks_offsetsDecoder header.page).bind fun offsets ho => ?_
    refine (checks_keysDecoder hh.keyType).bind fun keys hk => (checks_assemble.mono ?_).of_iff ?_
    · rintro n - ⟨rfl, rfl, rfl⟩
      obtain ⟨-, parts, hparts, hkeys⟩ := hk
      refine ⟨parts, hparts, ?_⟩
      have hend : p.keyAt p.keyCount =
          nodeHeaderBytes + (4 + maxChildren * idBytes + (4 + p.keyCount * p.keySize)) := by
        rw [keyAt, Nat.mul_comm p.keyCount]
        show 75 + _ = 19 + (52 + (4 + _))
        omega
      have hoffs : p.cleared.slice (0 + nodeHeaderBytes) (4 + maxChildren * idBytes) =
          encodeOffsets n.offsets := ho.2.symm
      have hrow : p.cleared.slice (0 + nodeHeaderBytes + (4 + maxChildren * idBytes))
          (4 + p.keyCount * p.keySize) = BigEndian.encode 4 n.keys.length ++ parts.flatten :=
        hkeys.symm
      rw [hend, slice_add, slice_add, ← hh.encode, hoffs, hrow, List.append_assoc,
        List.append_assoc]
    · rw [ho.1, hk.1, hh.kind]
      cases header.kind <;> rfl
  refine hchain.of_iff ⟨?_, ?_⟩
  · intro h
    exact ⟨⟨h.signal, h.kind, h.parentFlag⟩, h.offsets_le, ⟨h.keys_le, h.texts⟩, h.counts⟩
  · rintro ⟨⟨hsignal, hkind, hflag⟩, hoffsets, ⟨hkeys, htexts⟩, hcounts⟩
    exact ⟨hsignal, hkind, hflag, hoffsets, hkeys, hcounts, htexts⟩

/-- A page with its ignored bytes cleared is the bytes of its node and then zeros. -/
theorem cleared_eq_filled (h : p.keyCount ≤ fanout) :
    p.cleared = filled (p.cleared.slice 0 (p.keyAt p.keyCount)) := by
  have hend : p.keyAt p.keyCount ≤ pageSize := Nat.le_trans (p.keyAt_le h) maxNodeBytes_le_pageSize
  have hlen : (p.cleared.slice 0 (p.keyAt p.keyCount)).length = p.keyAt p.keyCount :=
    length_slice (by omega)
  have hrest : p.cleared.slice (0 + p.keyAt p.keyCount) (pageSize - p.keyAt p.keyCount) =
      zeros (pageSize - p.keyAt p.keyCount) :=
    slice_cleared_of_ignored (by omega) fun j hj _ => .inr (.inr (.inr (by omega)))
  have hbytes : p.cleared.bytes = (filled (p.cleared.slice 0 (p.keyAt p.keyCount))).bytes := by
    rw [bytes_filled (by rw [hlen]; exact hend), padTo, hlen, ← hrest, ← slice_add,
      Nat.add_sub_cancel' hend, slice_pageSize]
  exact ext_bytes hbytes

end Page

namespace Node

/-- A page is accepted exactly if it has the format of a node page; from any other page the answer is
a corruption, and never that the data ends too early. Writing the node that was read gives the page
with its ignored bytes cleared, from which the same node is read. -/
theorem ofPage_exact (p : Page) :
    ((∃ n, ofPage p = .ok n) ↔ p.HoldsNode) ∧
      (∀ e, ofPage p = .error e → ∃ cause, e = .corrupted cause ∧ cause.NotShort) ∧
      ∀ n, ofPage p = .ok n → n.toPage = .ok p.cleared ∧ ofPage p.cleared = .ok n := by
  have hdecoder := Page.checks_decoder (p := p)
  have hformat : ∀ n, ofPage p = .ok n → p.HoldsNode := fun n hn => by
    by_contra hp
    obtain ⟨cause, hc, -⟩ := hdecoder.run_error hp
    rw [ofPage, hc] at hn
    cases hn
  refine ⟨⟨fun h => h.elim hformat, fun hp => ?_⟩, fun e he => hdecoder.corrupted_of_run he, ?_⟩
  · obtain ⟨n, hn, -⟩ := hdecoder.run_ok hp
    exact ⟨n, hn⟩
  · intro n hn
    have hp := hformat n hn
    obtain ⟨n', hn', parts, hparts, hform⟩ := hdecoder.run_ok hp
    obtain rfl : n = n' := Except.ok.inj (hn.symm.trans hn')
    have henc := encodable_of_ofPage hn
    have hpage : n.toPage = .ok p.cleared := by
      have htype : ∀ k ∈ n.keys, k.type = n.keyType := fun k hk => (henc.keys_ok k hk).1
      rw [(toPage_of_mapM_encode henc.counts henc.size_le htype).1 parts hparts,
        Page.cleared_eq_filled hp.keys_le, ← hform]
    obtain ⟨q, hq, hof⟩ := exists_toPage henc
    rw [hpage] at hq
    cases hq
    exact ⟨hpage, hof⟩

end Node
end RecordIndex
