import RecordIndex.Proofs.Planting
import RecordIndex.Proofs.Writes

/-!
# Files that hold nothing but nodes, records and zeros

That a change leaves no node behind is said of what a tree shows (`View.Tidy`), where a page without
a node may hold any bytes. Here it is said of the bytes.

* `SlotFile.Rows`: a property of every block of a file, which a write keeps up if what is written
  has it. `Tree.WritesIn.rows` says so of the pages of a tree and of all writes in a zone.
* `Tree.Clean`: a page holds a node or zeros, and a record slot a record or zeros. Writing slots
  keeps this up (`Tree.WritesIn.clean`).
* `Tree.Clean.zeroed_page_iff` and `Tree.Clean.zeroed_slot_iff`: what shows nothing is filled with
  zeros.
-/

namespace RecordIndex

open RecordIndex.Action

/-! ### Rows of blocks -/

namespace SlotFile

variable {f g : SlotFile} {l : SlotLayout} {head b : Bytes} {slot : UInt64}
  {P : Nat → Bytes → Prop}

/-- The file is a row of blocks behind its header, and `P` holds of the number and the bytes of each
block. -/
def Rows (f : SlotFile) (l : SlotLayout) (head : Bytes) (P : Nat → Bytes → Prop) : Prop :=
  ∃ blocks, f.Holds l head blocks ∧ ∀ i b, blocks[i]? = some b → P i b

theorem Rows.layout_eq (h : f.Rows l head P) : f.layout = some l := by
  obtain ⟨blocks, hf, -⟩ := h
  exact hf.layout_eq

theorem layoutFor_eq_ok_iff : layoutFor slot f = .ok l g ↔
    f.layout = some l ∧ slot < f.count ∧ f = g := by
  rw [layoutFor, run_bind, run_get]
  cases hl : f.layout with
  | none => simp [hl]
  | some l' =>
    by_cases hslot : slot < f.count
    · simp [hl, hslot]
    · simp [hl, hslot]

theorem checkLength_eq_ok_iff {n : Nat} {u : Unit} :
    checkLength l n f = .ok u g ↔ n = l.slotSize.toNat ∧ f = g := by
  unfold checkLength
  split_ifs with hn
  · simp [hn]
  · simp [hn]

/-- Only a block of the right size is written, and only to a slot that is there. -/
theorem lt_count_of_write {u : Unit} (h : write slot b f = .ok u g) :
    slot < f.count ∧ ∀ l, f.layout = some l → b.length = l.slotSize.toNat := by
  obtain ⟨l, f₁, hl, h⟩ := bind_eq_ok_iff.1 h
  obtain ⟨hlayout, hslot, rfl⟩ := layoutFor_eq_ok_iff.1 hl
  obtain ⟨_, f₂, hlen, -⟩ := bind_eq_ok_iff.1 h
  refine ⟨hslot, fun l' hl' => ?_⟩
  rw [hlayout] at hl'
  cases hl'
  exact (checkLength_eq_ok_iff.1 hlen).1

theorem lt_count_of_zero {u : Unit} (h : zero slot f = .ok u g) : slot < f.count := by
  obtain ⟨l, f₁, hl, -⟩ := bind_eq_ok_iff.1 h
  exact (layoutFor_eq_ok_iff.1 hl).2.1

theorem length_of_append {n : UInt64} (hl : f.layout = some l) (h : append b f = .ok n g) :
    b.length = l.slotSize.toNat := by
  rw [append, run_bind, run_get] at h
  simp only [hl] at h
  obtain ⟨_, f₁, hlen, -⟩ := bind_eq_ok_iff.1 h
  exact (checkLength_eq_ok_iff.1 hlen).1

theorem Rows.mono {Q : Nat → Bytes → Prop} (h : f.Rows l head P) (hPQ : ∀ i b, P i b → Q i b) :
    f.Rows l head Q := by
  obtain ⟨blocks, hf, hP⟩ := h
  exact ⟨blocks, hf, fun i b hb => hPQ i b (hP i b hb)⟩

theorem Rows.set (h : f.Rows l head P) {c : Bytes} (hc : P slot.toNat c)
    (hg : ∀ blocks, f.Holds l head blocks → g.Holds l head (blocks.set slot.toNat c)) :
    g.Rows l head P := by
  obtain ⟨blocks, hf, hP⟩ := h
  refine ⟨_, hg blocks hf, fun i b hi => ?_⟩
  rw [List.getElem?_set] at hi
  split_ifs at hi with heq hlt
  · rw [← heq, ← Option.some.inj hi]
    exact hc
  · exact hP i b hi

theorem Rows.write {u : Unit} (h : f.Rows l head P) (hw : SlotFile.write slot b f = .ok u g)
    (hb : P slot.toNat b) : g.Rows l head P := by
  refine h.set hb fun blocks hf => ?_
  obtain ⟨hlt, hlen⟩ := lt_count_of_write hw
  obtain ⟨g', hg', hholds, -⟩ := hf.write (hf.lt_count.1 hlt) (hlen l hf.layout_eq)
  cases hw.symm.trans hg'
  exact hholds

theorem Rows.zero {u : Unit} (h : f.Rows l head P) (hw : SlotFile.zero slot f = .ok u g)
    (hz : P slot.toNat (zeros l.slotSize.toNat)) : g.Rows l head P := by
  refine h.set hz fun blocks hf => ?_
  obtain ⟨g', hg', hholds, -⟩ := hf.zero (hf.lt_count.1 (lt_count_of_zero hw))
  cases hw.symm.trans hg'
  exact hholds

theorem Rows.append {n : UInt64} (h : f.Rows l head P) (hw : SlotFile.append b f = .ok n g)
    (hb : P f.count.toNat b) : g.Rows l head P := by
  obtain ⟨blocks, hf, hP⟩ := h
  rcases hf.append (length_of_append hf.layout_eq hw) with ⟨g', hg', hholds, -⟩ | ⟨herror, -⟩
  · cases hw.symm.trans hg'
    rw [hf.count_eq] at hb
    refine ⟨_, hholds, fun i c hi => ?_⟩
    rcases Nat.lt_trichotomy i blocks.length with hlt | rfl | hgt
    · exact hP i c (List.getElem?_append_left hlt ▸ hi)
    · rw [List.getElem?_concat_length] at hi
      exact Option.some.inj hi ▸ hb
    · obtain ⟨hlt, -⟩ := List.getElem?_eq_some_iff.1 hi
      rw [List.length_append, List.length_singleton] at hlt
      omega
  · cases hw.symm.trans herror

theorem Rows.addReads (h : f.Rows l head P) (n : UInt64) : (f.addReads n).Rows l head P := by
  obtain ⟨blocks, hf, hP⟩ := h
  exact ⟨blocks, hf.addReads n, hP⟩

/-- The slot is there, and all of its bytes are zero. -/
def Zeroed (f : SlotFile) (slot : UInt64) : Prop :=
  ∃ l, f.layout = some l ∧ f.block? slot = some (zeros l.slotSize.toNat)

end SlotFile

/-- The bytes of a page that has been made of them. -/
theorem Page.bytes_of_ofBytes {bs : Bytes} {p : Page} (h : ofBytes bs = .ok p) : p.bytes = bs := by
  unfold ofBytes at h
  split_ifs at h
  cases h
  rfl

/-! ### Clean files -/

/-- The bytes are zeros, or a node that names the page. Nothing is said of the header page. -/
def PageFile.CleanBlock (i : Nat) (b : Bytes) : Prop :=
  i = 0 ∨ b = Page.zero.bytes ∨ ∃ (page : Page) (n : Node), Page.ofBytes b = .ok page ∧
    Node.ofPage page = .ok n ∧ n.page.number.toNat = i

/-- The bytes are zeros, or a record. -/
def RecordFile.CleanBlock (n : Nat) (b : Bytes) : Prop :=
  b = zeros n ∨ ∃ r, Record.decode b = .ok r

/-- The handle of a record file knows what the file says, as `RecordFile.InStep` has it, and each slot
holds a record or zeros. -/
inductive RecordFile.Clean (f : SlotFile) : Prop where
  | unset (layout_eq : f.layout = none) (contents_eq : f.bytes.contents = [])
      (count_eq : f.count = 0)
  | set {n : Nat} (size_pos : 0 < n) (size_le : n ≤ maxRecordSize)
      (rows : f.Rows (layout (UInt64.ofNat n)) (encodeHeader n) fun _ => CleanBlock n)

theorem RecordFile.Clean.addReads {f : SlotFile} (h : Clean f) (n : UInt64) :
    Clean (f.addReads n) := by
  cases h with
  | unset hlayout hempty hcount => exact .unset hlayout hempty hcount
  | set hpos hle hrows => exact .set hpos hle (hrows.addReads n)

namespace Tree

/-- Each page but the header page holds a node or zeros, and each record slot a record or zeros. -/
structure Clean (t : Tree) : Prop where
  index : t.store.index.Rows PageFile.layout [] PageFile.CleanBlock
  records : RecordFile.Clean t.store.records

variable {t t' : Tree}

theorem Clean.inStep (h : t.Clean) : t.InStep := by
  obtain ⟨⟨blocks, hi, -⟩, hr⟩ := h
  refine ⟨⟨blocks, hi⟩, ?_⟩
  cases hr with
  | unset hlayout hempty hcount => exact .unset hlayout hempty hcount
  | set hpos hle hrows =>
    obtain ⟨blocks, hholds, -⟩ := hrows
    exact .set hpos hle hholds

theorem Clean.addReads (h : t.Clean) (i j : UInt64) : (t.addReads i j).Clean :=
  ⟨h.index.addReads i, h.records.addReads j⟩

end Tree

/-! ### Writes keep files clean -/

namespace PageFile

variable {f g : SlotFile}

theorem clean_zero (i : Nat) : CleanBlock i Page.zero.bytes := .inr (.inl rfl)

/-- The page of a node. -/
theorem clean_of_ofPage {page : Page} {n : Node} (h : Node.ofPage page = .ok n) :
    CleanBlock n.page.number.toNat page.bytes :=
  .inr (.inr ⟨page, n, Page.ofBytes_bytes page, h, rfl⟩)

theorem header_zero : ∃ e, Page.zero.header = .error e := by
  have hz : Page.zero.bytes = 0 :: zeros (pageSize - 1) := rfl
  refine ⟨.corrupted (.fieldType 0), ?_⟩
  rw [Page.header, NodeHeader.decode, if_neg (by rw [Page.length_eq]; decide), hz]
  rfl

/-- A node with another parent link is a node, and zeros get no parent link. -/
theorem clean_setHeader {i : Nat} {page : Page} {header : NodeHeader}
    (hclean : CleanBlock i page.bytes) (hheader : page.header = .ok header)
    (parent : Option PageId) : CleanBlock i (page.setHeader { header with parent }).bytes := by
  rcases hclean with hzero | hbytes | ⟨page', n, hpage', hn, hid⟩
  · exact .inl hzero
  · obtain ⟨e, he⟩ := header_zero
    rw [Page.ext_bytes hbytes, he] at hheader
    cases hheader
  · rw [Page.ofBytes_bytes] at hpage'
    cases hpage'
    obtain ⟨hheader', hset⟩ := Node.ofPage_setHeader hn parent
    cases hheader.symm.trans hheader'
    have hsame : (n.withParent parent).page.number.toNat = i := by
      rw [Tree.page_withParent, hid]
    exact hsame ▸ clean_of_ofPage hset

end PageFile

namespace RecordFile

variable {f g : SlotFile} {r : Record}

theorem clean_of_encode {bs : Bytes} (hr : r.validate = .ok ()) (h : r.encode = .ok bs) (n : Nat) :
    CleanBlock n bs := by
  obtain ⟨bs', hbs', -, hdecode⟩ := r.exists_encode hr
  cases h.symm.trans hbs'
  exact .inr ⟨r, hdecode⟩

/-- A block is added to a file with a layout, which an empty file gets first. -/
theorem append_of_appendBlock {bs : Bytes} {id : RecordId} (h : appendBlock bs f = .ok id g) :
    ∃ f₁ n, (f.layout = none ∧ fixSize bs.length f = .ok () f₁ ∨ f.layout ≠ none ∧ f₁ = f) ∧
      SlotFile.append bs f₁ = .ok n g := by
  rw [appendBlock, run_bind, run_get] at h
  cases hl : f.layout with
  | none =>
    simp only [hl, Option.isNone_none, if_true] at h
    obtain ⟨⟨⟩, f₁, hfix, h⟩ := bind_eq_ok_iff.1 h
    obtain ⟨n, hn, -⟩ := map_eq_ok_iff.1 h
    exact ⟨f₁, n, .inl ⟨rfl, hfix⟩, hn⟩
  | some l =>
    simp only [hl, Option.isNone_some, Bool.false_eq_true, if_false] at h
    obtain ⟨n, hn, -⟩ := map_eq_ok_iff.1 h
    exact ⟨f, n, .inr ⟨Option.some_ne_none l, rfl⟩, hn⟩

theorem Clean.add {id : RecordId} (h : Clean f) (hr : r.validate = .ok ())
    (hadd : add r f = .ok id g) : Clean g := by
  obtain ⟨bs, hbs, -⟩ := r.exists_encode hr
  rw [RecordFile.add, hbs, ofChecked_ok, pure_bind] at hadd
  obtain ⟨_, f₁, hsize, hblock⟩ := bind_eq_ok_iff.1 hadd
  obtain ⟨rfl, -⟩ := (whole_requireSize bs.length f).of_ok hsize
  obtain ⟨f₂, n, hfirst, happend⟩ := append_of_appendBlock hblock
  cases h with
  | unset hlayout hempty hcount =>
    obtain ⟨-, hfix⟩ := hfirst.resolve_right fun h => h.1 hlayout
    obtain ⟨hpos, hle, hholds, -⟩ := (whole_fixSize hempty bs.length).of_ok hfix
    have hrows : f₂.Rows _ _ fun _ => CleanBlock bs.length := ⟨[], hholds, fun _ _ hi => by cases hi⟩
    exact .set hpos hle (hrows.append happend (clean_of_encode hr hbs _))
  | set hpos hle hrows =>
    obtain ⟨-, rfl⟩ := hfirst.resolve_left fun h => by cases h.1.symm.trans hrows.layout_eq
    exact .set hpos hle (hrows.append happend (clean_of_encode hr hbs _))

/-- A file without a layout has no slots to write to. -/
theorem Clean.rows {slot : UInt64} (h : Clean f) (hslot : slot < f.count) : ∃ n, 0 < n ∧
    n ≤ maxRecordSize ∧ f.Rows (layout (UInt64.ofNat n)) (encodeHeader n) fun _ => CleanBlock n := by
  cases h with
  | unset _ _ hcount =>
    rw [hcount] at hslot
    exact absurd hslot UInt64.not_lt_zero
  | set hpos hle hrows => exact ⟨_, hpos, hle, hrows⟩

theorem Clean.replace {id : RecordId} (h : Clean f) (hr : r.validate = .ok ())
    (hreplace : replace id r f = .ok () g) : Clean g := by
  obtain ⟨bs, hbs, -⟩ := r.exists_encode hr
  rw [RecordFile.replace, hbs, ofChecked_ok, pure_bind] at hreplace
  obtain ⟨n, hpos, hle, hrows⟩ := h.rows (SlotFile.lt_count_of_write hreplace).1
  exact .set hpos hle (hrows.write hreplace (clean_of_encode hr hbs _))

theorem Clean.erase {id : RecordId} (h : Clean f) (herase : erase id f = .ok () g) : Clean g := by
  obtain ⟨n, hpos, hle, hrows⟩ := h.rows (SlotFile.lt_count_of_zero herase)
  refine .set hpos hle (hrows.zero herase (.inl ?_))
  rw [show (layout (UInt64.ofNat n)).slotSize.toNat = n from toNat_ofNat_size hle]

end RecordFile

namespace Tree

variable {t t' : Tree}

/-- Whatever is written to a page in the zone has the property `P`, if the page has had it. -/
structure Zone.Preserves (z : Zone) (P : Nat → Bytes → Prop) : Prop where
  node {n : Node} {page : Page} (hn : z.Holds n.page) (h : Node.ofPage page = .ok n) :
    P n.page.number.toNat page.bytes
  link {p : PageId} {page : Page} {header : NodeHeader} (parent : Option PageId) (hp : z.Links p)
    (hheader : page.header = .ok header) (h : P p.number.toNat page.bytes) :
    P p.number.toNat (page.setHeader { header with parent }).bytes
  header {keyType : FieldType} {root : PageId} (hroot : z.root root) :
    P 0 (HeaderPage.toPage ⟨keyType, root⟩).bytes
  zeros {p : PageId} (hp : z.Holds p) : P p.number.toNat Page.zero.bytes

variable {z : Zone}

/-- So it stays a property of all pages when a slot is written. -/
theorem SlotWriteIn.rows {P : Nat → Bytes → Prop} (hz : z.Preserves P)
    (hfresh : z.fresh ≤ t.pageCount.toNat) (h : t.store.index.Rows PageFile.layout [] P)
    (hw : SlotWriteIn z t t') : t'.store.index.Rows PageFile.layout [] P := by
  -- a page is written to the slot of its number
  have hput : ∀ {p : PageId} {page : Page} {u : Tree}, P p.number.toNat page.bytes →
      onIndex (PageFile.put p page) t = .ok () u → u.store.index.Rows PageFile.layout [] P := by
    intro p page u hP hput
    obtain ⟨f, hf, rfl⟩ := onIndex_eq_ok_iff.1 hput
    exact h.write hf hP
  cases hw with
  | putNode hn hpage hw => exact hput (hz.node hn (Node.ofPage_of_toPage hpage)) hw
  | relinkPage parent hp hpage hheader hw =>
    refine hput (hz.link parent hp hheader ?_) hw
    obtain ⟨blocks, hi, hP⟩ := h
    rw [page?_of_holds hi] at hpage
    obtain ⟨b, hb, hof⟩ := Option.bind_eq_some_iff.1 hpage
    rw [Page.bytes_of_ofBytes (toOption_eq_some_iff.1 hof)]
    exact hP _ b hb
  | moveRoot hp hw =>
    rw [Tree.moveRoot, run_bind, run_get] at hw
    obtain ⟨⟨⟩, u, hu, hw⟩ := bind_eq_ok_iff.1 hw
    cases hw
    have hrows := hput (p := .header) (hz.header hp) hu
    exact hrows
  | newPage hw =>
    obtain ⟨f, hf, rfl⟩ := onIndex_eq_ok_iff.1 hw
    obtain ⟨n, hn, -⟩ := map_eq_ok_iff.1 hf
    exact h.append hn (hz.zeros (p := ⟨t.pageCount⟩) (.inr hfresh))
  | releasePage hp hw =>
    obtain ⟨f, hf, rfl⟩ := onIndex_eq_ok_iff.1 hw
    exact h.zero hf (hz.zeros hp)
  | addRecord _ _ hw | replaceRecord _ _ hw | eraseRecord _ hw =>
    obtain ⟨f, hf, rfl⟩ := onRecords_eq_ok_iff.1 hw
    exact h

/-- And so it does when any slots are written. -/
theorem WritesIn.rows {P : Nat → Bytes → Prop} (hz : z.Preserves P) (ht : t.Opened)
    (hfresh : z.fresh ≤ t.pageCount.toNat) (h : t.store.index.Rows PageFile.layout [] P) {k : Nat}
    (hw : WritesIn z k t t') : t'.store.index.Rows PageFile.layout [] P := by
  induction hw with
  | refl t => exact h
  | reads i j _ ih => exact (ih ht hfresh h).addReads i
  | write hw' hw ih => exact hw.rows hz (hfresh.trans (hw'.pageCount_le ht)) (ih ht hfresh h)

/-- Wherever nodes are written, clean pages stay clean. -/
theorem Zone.preserves_clean (z : Zone) (S : Nat → Prop) :
    z.Preserves fun i b => S i → PageFile.CleanBlock i b where
  node _ h _ := PageFile.clean_of_ofPage h
  link parent _ hheader h hS := PageFile.clean_setHeader (h hS) hheader parent
  header _ _ := .inl rfl
  zeros _ _ := PageFile.clean_zero _

/-- Every write of a slot leaves the record file clean. -/
theorem SlotWriteIn.clean_records (h : RecordFile.Clean t.store.records) (hw : SlotWriteIn z t t') :
    RecordFile.Clean t'.store.records := by
  have hindex : ∀ {α : Type} {x : SlotAction α} {a : α} {u : Tree}, onIndex x t = .ok a u →
      RecordFile.Clean u.store.records := by
    intro α x a u hx
    obtain ⟨f, -, rfl⟩ := onIndex_eq_ok_iff.1 hx
    exact h
  cases hw with
  | putNode _ _ hw | relinkPage _ _ _ _ hw | newPage hw | releasePage _ hw => exact hindex hw
  | moveRoot _ hw =>
    rw [Tree.moveRoot, run_bind, run_get] at hw
    obtain ⟨⟨⟩, u, hu, hw⟩ := bind_eq_ok_iff.1 hw
    cases hw
    have hclean := hindex hu
    exact hclean
  | addRecord _ hr hw =>
    obtain ⟨f, hf, rfl⟩ := onRecords_eq_ok_iff.1 hw
    exact h.add hr hf
  | replaceRecord _ hr hw =>
    obtain ⟨f, hf, rfl⟩ := onRecords_eq_ok_iff.1 hw
    exact h.replace hr hf
  | eraseRecord _ hw =>
    obtain ⟨f, hf, rfl⟩ := onRecords_eq_ok_iff.1 hw
    exact h.erase hf

theorem WritesIn.clean_records {k : Nat} (h : RecordFile.Clean t.store.records)
    (hw : WritesIn z k t t') : RecordFile.Clean t'.store.records := by
  induction hw with
  | refl t => exact h
  | reads i j _ ih => exact RecordFile.Clean.addReads (ih h) j
  | write _ hw ih => exact hw.clean_records (ih h)

/-- Writing slots leaves the files clean. -/
theorem WritesIn.clean {k : Nat} (h : t.Clean) (hfresh : z.fresh ≤ t.pageCount.toNat)
    (hw : WritesIn z k t t') : t'.Clean where
  index := by
    have hall : t.store.index.Rows PageFile.layout [] fun i b => True → PageFile.CleanBlock i b :=
      h.index.mono fun _ _ hb _ => hb
    exact (hw.rows (z.preserves_clean fun _ => True) h.inStep.opened hfresh hall).mono
      fun _ _ hb => hb trivial
  records := hw.clean_records h.records

/-- A tree that has just been planted has one page behind the header page, with the root on it. -/
theorem clean_planted {home : Home} {keyType : FieldType}
    (h : t.Shows (View.planted home keyType)) : t.Clean := by
  obtain ⟨⟨⟨blocks, hi⟩, hr⟩, hview⟩ := h
  have hlen : blocks.length = 2 := hi.count_eq.symm.trans (congrArg View.pageCount hview)
  refine ⟨⟨blocks, hi, fun i b hb => ?_⟩, ?_⟩
  · by_cases hzero : i = 0
    · exact .inl hzero
    · obtain ⟨hlt, -⟩ := List.getElem?_eq_some_iff.1 hb
      obtain rfl : i = 1 := by omega
      have hnode : t.node? View.firstRoot = some _ := (congrFun (congrArg View.node hview) _).trans
        (View.hasShape_planted home keyType).stored.1
      unfold node? at hnode
      split_ifs at hnode
      obtain ⟨page, hpage, hnode⟩ := Option.bind_eq_some_iff.1 hnode
      obtain ⟨hof, -⟩ := Option.filter_eq_some_iff.1 hnode
      rw [page?_of_holds hi, show View.firstRoot.number.toNat = 1 from rfl, hb] at hpage
      exact .inr (.inr ⟨page, _, toOption_eq_some_iff.1 hpage, toOption_eq_some_iff.1 hof, rfl⟩)
  · have hsize : t.store.records.slotSize?.map (·.toNat) = none := congrArg View.recordSize hview
    cases hr with
    | unset hlayout hempty hcount => exact .unset hlayout hempty hcount
    | set hpos hle hholds =>
      rw [SlotFile.slotSize?, hholds.layout_eq] at hsize
      cases hsize

/-! ### What is filled with zeros -/

/-- What a page with certain bytes shows. -/
theorem node?_of_holds {blocks : List Bytes} (hi : t.store.index.Holds PageFile.layout [] blocks)
    {p : PageId} (hp : p ≠ .header) {b : Bytes} (hb : blocks[p.number.toNat]? = some b) :
    t.node? p = ((Page.ofBytes b).toOption.bind fun page => (Node.ofPage page).toOption).filter
      fun n => n.page = p := by
  have hheader : ¬ p.isHeader := fun he => hp (eq_of_beq he)
  rw [node?, if_neg hheader, page?_of_holds hi, hb, Option.bind_some]
  cases (Page.ofBytes b).toOption with
  | none => rfl
  | some page => rfl

/-- A clean page without a node is filled with zeros. -/
theorem zeroed_of_cleanBlock {blocks : List Bytes}
    (hi : t.store.index.Holds PageFile.layout [] blocks) {p : PageId} (hp : p ≠ .header) {b : Bytes}
    (hb : blocks[p.number.toNat]? = some b) (hclean : PageFile.CleanBlock p.number.toNat b)
    (hnone : t.node? p = none) : t.store.index.Zeroed p.number := by
  rcases hclean with hzero | hzero | ⟨page, n, hpage, hn, hid⟩
  · exact absurd (congrArg PageId.mk (UInt64.toNat_inj.1 hzero)) hp
  · refine ⟨_, hi.layout_eq, ?_⟩
    rw [hi.block?_eq, hb, hzero]
    rfl
  · have hpn : n.page = p := congrArg PageId.mk (UInt64.toNat_inj.1 hid)
    rw [node?_of_holds hi hp hb, toOption_eq_some_iff.2 hpage, Option.bind_some,
      toOption_eq_some_iff.2 hn] at hnone
    simp [Option.filter, hpn] at hnone

/-- A page that held a node and holds none after some writes is filled with zeros. -/
theorem WritesIn.zeroed {k : Nat} (hw : WritesIn z k t t') (h : t.InStep)
    (hfresh : z.fresh ≤ t.pageCount.toNat) {p : PageId} {n : Node} (hold : t.node? p = some n)
    (hp : t'.view.HasPage p) (hnew : t'.node? p = none) :
    t'.store.index.Zeroed p.number := by
  obtain ⟨blocks, hi⟩ := h.index
  have hclean : t.store.index.Rows PageFile.layout [] fun i b =>
      i = p.number.toNat → PageFile.CleanBlock i b := by
    refine ⟨blocks, hi, ?_⟩
    rintro i b hb rfl
    rw [node?_of_holds hi hp.1 hb] at hold
    obtain ⟨hof, hid⟩ := Option.filter_eq_some_iff.1 hold
    obtain ⟨page, hpage, hof⟩ := Option.bind_eq_some_iff.1 hof
    refine .inr (.inr ⟨page, n, toOption_eq_some_iff.1 hpage, toOption_eq_some_iff.1 hof, ?_⟩)
    rw [of_decide_eq_true hid]
  obtain ⟨blocks', hi', hclean'⟩ := hw.rows (z.preserves_clean _) h.opened hfresh hclean
  have hlt : p.number.toNat < blocks'.length := hi'.count_eq ▸ hp.2
  have hb := List.getElem?_eq_getElem hlt
  exact zeroed_of_cleanBlock hi' hp.1 hb (hclean' _ _ hb rfl) hnew

/-- A page has no node exactly if it is filled with zeros. -/
theorem Clean.zeroed_page_iff (h : t.Clean) {p : PageId} (hp : t.view.HasPage p) :
    t.store.index.Zeroed p.number ↔ t.view.node p = none := by
  obtain ⟨blocks, hi, hP⟩ := h.index
  have hlt : p.number.toNat < blocks.length := hi.count_eq ▸ hp.2
  have hb := List.getElem?_eq_getElem hlt
  refine ⟨?_, zeroed_of_cleanBlock hi hp.1 hb (hP _ _ hb)⟩
  rintro ⟨l, hl, hzero⟩
  cases hl.symm.trans hi.layout_eq
  rw [hi.block?_eq, hb] at hzero
  show t.node? p = none
  rw [node?_of_holds hi hp.1 hb, Option.some.inj hzero,
    show zeros PageFile.layout.slotSize.toNat = Page.zero.bytes from rfl, Page.ofBytes_bytes]
  show (Node.ofPage Page.zero).toOption.filter (fun n => n.page = p) = none
  rw [ofPage_zero]
  rfl

/-- A slot has no record exactly if it is filled with zeros. -/
theorem Clean.zeroed_slot_iff (h : t.Clean) {id : RecordId}
    (hid : id.number.toNat < t.view.recordCount) :
    t.store.records.Zeroed id.number ↔ t.view.record id = none := by
  obtain ⟨n, hpos, hle, blocks, hr, hP⟩ := h.records.rows (UInt64.lt_iff_toNat_lt.2 hid)
  have hlt : id.number.toNat < blocks.length := hr.count_eq ▸ hid
  have hb := List.getElem?_eq_getElem hlt
  have hsize : (RecordFile.layout (UInt64.ofNat n)).slotSize.toNat = n :=
    RecordFile.toNat_ofNat_size hle
  have hrecord : t.view.record id = RecordFile.record? t.store.records id := rfl
  rw [hrecord, RecordFile.record?_of_holds hr, hb, Option.bind_some]
  constructor
  · rintro ⟨l, hl, hzero⟩
    cases hl.symm.trans hr.layout_eq
    rw [hr.block?_eq, hb, hsize] at hzero
    rw [Option.some.inj hzero]
    exact decode_zeros hpos
  · intro hnone
    rcases hP _ _ hb with hzero | ⟨r, hdecode⟩
    · refine ⟨_, hr.layout_eq, ?_⟩
      rw [hr.block?_eq, hb, hzero, hsize]
    · rw [toOption_eq_some_iff.2 hdecode] at hnone
      cases hnone

end Tree

end RecordIndex
