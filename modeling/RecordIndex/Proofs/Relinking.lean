import RecordIndex.Proofs.Codec.ParentLink
import RecordIndex.Proofs.Damage.Requests

/-!
# Relinking a page

A node gets another parent without being decoded: its page is read, another header is put in front,
and the page is written back. What this does to the file is said here for files of any bytes, for
pages that hold no node, and for links to any page.

* `NodeHeader.exists_writeOver`: a header that is written over the front of a buffer is read back, and
  what is behind it stays.
* `PageFile.put_of_page?`: a page that can be read can be written over.
* `PageFile.getElem?_overwritten`: this changes no byte in which the two pages agree.
* `Tree.relink_in_place`: when a page is relinked, nine bytes of the store change, and the node on the
  page changes in its parent only; when it cannot be relinked, nothing is written.
-/

namespace RecordIndex

open RecordIndex.Action

/-- A header that is written over the front of a long enough buffer is read back from it, and the
buffer keeps its length and the bytes behind the header. -/
theorem NodeHeader.exists_writeOver (h : NodeHeader) {bs : Bytes}
    (hlen : nodeHeaderBytes ≤ bs.length) : ∃ bs', h.writeOver bs = .ok bs' ∧
      decode bs' = .ok h ∧ bs'.length = bs.length ∧
      bs'.drop nodeHeaderBytes = bs.drop nodeHeaderBytes := by
  have hlength : (h.encode ++ bs.drop nodeHeaderBytes).length = bs.length := by
    rw [List.length_append, length_encode, List.length_drop]
    omega
  refine ⟨_, if_neg (Nat.not_lt.2 hlen), ?_, hlength, List.drop_left' (length_encode h)⟩
  rw [decode, if_neg (by omega)]
  exact (reads_decoder h).run _

/-! ### Pages in a file of any layout -/

namespace PageFile

variable {f : SlotFile} {p : PageId} {page : Page}

/-- Where a page starts, as the handle lays the file out. -/
def start (f : SlotFile) (p : PageId) : Nat := f.layout.elim 0 fun l => (l.position p.number).toNat

/-- The file after a page has been written. -/
def overwritten (f : SlotFile) (p : PageId) (page : Page) : SlotFile :=
  { f with bytes := f.bytes.write (start f p) page.bytes, counters := f.counters.addUpdated 1 }

theorem start_of_layout {l : SlotLayout} (hl : f.layout = some l) (p : PageId) :
    start f p = (l.position p.number).toNat := by
  rw [start, hl]
  rfl

theorem start_eq (hf : Paged f) (hp : p.number < f.count) :
    start f p = p.number.toNat * pageSize := by
  rw [start_of_layout hf.layout_eq, toNat_position hf (Nat.le_of_lt (UInt64.lt_iff_toNat_lt.1 hp))]

/-- The bytes of a page that can be read. -/
theorem getElem?_of_page? (h : page? f p = some page) {i : Nat} (hi : i < pageSize) :
    f.bytes.contents[start f p + i]? = page.bytes[i]? := by
  obtain ⟨l, hl, -, -, -, hbytes⟩ := page?_eq_some_iff_layout.1 h
  rw [start_of_layout hl]
  exact hbytes i hi

/-- A page that can be read can be written over. -/
theorem put_of_page? (h : page? f p = some page) (page' : Page) :
    put p page' f = .ok () (overwritten f p page') := by
  obtain ⟨l, hl, hsize, hslot, hpos, -⟩ := page?_eq_some_iff_layout.1 h
  have hlen : page'.bytes.length = l.slotSize.toNat := page'.length_eq.trans hsize.symm
  have hroom : ¬ Disk.positionLimit ≤ l.position p.number := UInt64.not_le.2 hpos
  simp [put, SlotFile.write, SlotFile.layoutFor, SlotFile.checkLength, SlotFile.writeBytes,
    run_bind, overwritten, start_of_layout hl, hl, hslot, hlen, hroom]

/-- Writing over a page that can be read leaves a byte as it is, unless it is on the page and the two
pages differ in it. -/
theorem getElem?_overwritten (h : page? f p = some page) {page' : Page} {i : Nat}
    (hsame : ∀ j < pageSize, i = start f p + j → page'.bytes[j]? = page.bytes[j]?) :
    (overwritten f p page').bytes.contents[i]? = f.bytes.contents[i]? := by
  have hne := bytes_ne_nil page'
  have hend := le_length_of_getElem? fun j hj => getElem?_of_page? h hj
  rcases Nat.lt_or_ge i (start f p) with hbefore | hfrom
  · exact FileBytes.getElem?_write_of_lt hne hbefore (by omega)
  · obtain ⟨j, rfl⟩ := Nat.exists_eq_add_of_le hfrom
    rcases Nat.lt_or_ge j pageSize with hj | hj
    · rw [getElem?_of_page? h hj, ← hsame j hj rfl]
      exact FileBytes.getElem?_write hne (page'.length_eq ▸ hj)
    · exact FileBytes.getElem?_write_of_le hne (by rw [page'.length_eq]; omega)

/-- The page that has been written is read back. -/
theorem page?_overwritten (h : page? f p = some page) (page' : Page) :
    page? (overwritten f p page') p = some page' := by
  obtain ⟨l, hl, hsize, hslot, hpos, -⟩ := page?_eq_some_iff_layout.1 h
  refine page?_eq_some_iff_layout.2 ⟨l, hl, hsize, hslot, hpos, fun i hi => ?_⟩
  rw [← start_of_layout hl]
  exact FileBytes.getElem?_write (bytes_ne_nil page') (page'.length_eq ▸ hi)

/-- A page that cannot be read is an error, and not even counted. -/
theorem fetch_of_page?_eq_none (h : page? f p = none) : ∃ e, fetch p f = .error (.error e) f := by
  cases hread : SlotFile.readExactly p.number pageSize f with
  | error e g =>
    obtain ⟨rfl, err, rfl⟩ := (SlotFile.concludes_readExactly _ _ _).of_error hread
    exact ⟨err, by rw [fetch, run_bind, hread]⟩
  | ok bs g =>
    -- a block of the right size is a page
    obtain ⟨hb, hlen, -⟩ := SlotFile.readExactly_eq_ok_iff.1 hread
    rw [page?, hb, Option.bind_some, Page.ofBytes, dif_pos hlen] at h
    cases h

/-- A page behind the last one is out of bounds. -/
theorem fetch_of_not_lt (h : ¬ p.number < f.count) :
    fetch p f = .error (.error (.slotOutOfBounds p.number)) f := by
  rw [fetch, run_bind, SlotFile.readExactly, run_bind, SlotFile.layoutFor_of_not_lt h]

end PageFile

/-! ### Relinking -/

namespace Tree

variable {t : Tree} {p : PageId} {page : Page}

/-- The tree after a page has been read and written. Of the tree before, only the bytes of the index
file and its counters are not kept. -/
def overwritten (t : Tree) (p : PageId) (page : Page) : Tree :=
  { t with store := { t.store with
    index := PageFile.overwritten (t.store.index.addReads 1) p page } }

/-- A page with a header gets another one, with the new link. -/
theorem relink_of_header {header : NodeHeader} (hpage : PageFile.page? t.store.index p = some page)
    (hheader : page.header = .ok header) (parent : Option PageId) :
    relink p parent t = .ok () (t.overwritten p (page.setHeader { header with parent })) := by
  have hput : PageFile.page? (t.store.index.addReads 1) p = some page := hpage
  refine bind_eq_ok_iff.2 ⟨page, _, onIndex_eq_ok_iff.2 ⟨_, fetchPage_eq_ok_iff.2 ⟨hpage, rfl⟩, rfl⟩,
    bind_eq_ok_iff.2 ⟨header, _, ofExcept_eq_ok_iff.2 ⟨hheader, rfl⟩, onIndex_eq_ok_iff.2 ⟨_,
      PageFile.put_of_page? hput _, rfl⟩⟩⟩

/-- A page without a header has been read, but is not written. -/
theorem relink_of_header_eq_error {e : Error} (hpage : PageFile.page? t.store.index p = some page)
    (hheader : page.header = .error e) (parent : Option PageId) :
    relink p parent t = .error (.error e) (t.addReads 1 0) := by
  have hread : onIndex (PageFile.fetch p) t = .ok page (t.addReads 1 0) :=
    onIndex_eq_ok_iff.2 ⟨_, fetchPage_eq_ok_iff.2 ⟨hpage, rfl⟩, (addReads_index t 1).symm⟩
  rw [relink, run_bind, hread]
  dsimp only
  rw [hheader]
  rfl

/-- A failure to read the page is that of relinking it. -/
theorem relink_of_fetch_eq_error {e : Failure}
    (h : PageFile.fetch p t.store.index = .error e t.store.index) (parent : Option PageId) :
    relink p parent t = .error e t := by
  rw [relink, run_bind, onIndex, onStore, Store.onIndex, run_within, run_within, h]

/-- Around the link, the file keeps its bytes. -/
theorem getElem?_relinked {header : NodeHeader} (hpage : PageFile.page? t.store.index p = some page)
    (hheader : page.header = .ok header) (parent : Option PageId) {i : Nat}
    (hi : i < PageFile.start t.store.index p + 2 ∨ PageFile.start t.store.index p + 10 < i) :
    (t.overwritten p (page.setHeader { header with parent })).store.index.bytes.contents[i]? =
      t.store.index.bytes.contents[i]? := by
  refine PageFile.getElem?_overwritten (f := t.store.index.addReads 1) hpage fun j _ hj => ?_
  refine Page.getElem?_setHeader hheader parent ?_
  have hstart : i = PageFile.start t.store.index p + j := hj
  omega

/-- Relinking a page with a header changes in the whole store nothing but the nine bytes of the parent
link, and what is read from the page changes in the parent alone: a node stays the node that it was, a
header the header, and a defect behind the header the same defect. A page that is not there, that
cannot be read or that has no header is an error, and nothing is written. In any buffer, a header is
read back after it has been written, and the bytes behind it stay. -/
theorem relink_in_place :
    (∀ (t : Tree) (p : PageId) (parent : Option PageId),
      (∀ page header, PageFile.page? t.store.index p = some page → page.header = .ok header →
        ∃ page', relink p parent t = .ok () (t.overwritten p page') ∧
          (∀ i, i < PageFile.start t.store.index p + 2 ∨ PageFile.start t.store.index p + 10 < i →
            (t.overwritten p page').store.index.bytes.contents[i]? =
              t.store.index.bytes.contents[i]?) ∧
          PageFile.page? (t.overwritten p page').store.index p = some page' ∧
          page'.header = .ok { header with parent } ∧
          Node.ofPage page' = (Node.ofPage page).map (Node.withParent parent)) ∧
      (∀ page e, PageFile.page? t.store.index p = some page → page.header = .error e →
        relink p parent t = .error (.error e) (t.addReads 1 0)) ∧
      (PageFile.page? t.store.index p = none → ∃ e, relink p parent t = .error (.error e) t) ∧
      (¬ p.number < t.pageCount →
        relink p parent t = .error (.error (.slotOutOfBounds p.number)) t) ∧
      (t.Paged → p.number < t.pageCount →
        PageFile.start t.store.index p = p.number.toNat * pageSize)) ∧
    ∀ (h : NodeHeader) (bs : Bytes), nodeHeaderBytes ≤ bs.length →
      ∃ bs', h.writeOver bs = .ok bs' ∧ NodeHeader.decode bs' = .ok h ∧ bs'.length = bs.length ∧
        bs'.drop nodeHeaderBytes = bs.drop nodeHeaderBytes := by
  refine ⟨fun t p parent => ⟨fun page header hpage hheader => ?_, fun page e hpage hheader => ?_,
    fun hnone => ?_, fun hp => ?_, fun ht hp => PageFile.start_eq ht hp⟩,
    fun h bs hlen => h.exists_writeOver hlen⟩
  · exact ⟨_, relink_of_header hpage hheader parent,
      fun i hi => getElem?_relinked hpage hheader parent hi,
      PageFile.page?_overwritten (f := t.store.index.addReads 1) hpage _,
      Page.header_setHeader page _, Node.ofPage_setParent hheader parent⟩
  · exact relink_of_header_eq_error hpage hheader parent
  · obtain ⟨e, he⟩ := PageFile.fetch_of_page?_eq_none hnone
    exact ⟨e, relink_of_fetch_eq_error he parent⟩
  · exact relink_of_fetch_eq_error (PageFile.fetch_of_not_lt hp) parent

/-- The root of a tree gets a parent, the header page and the page behind the last one get none, and a
header is written over a buffer with one byte more. -/
theorem relink_in_place_strayTree :
    (∃ page', relink ⟨1⟩ (some ⟨9⟩) strayTree = .ok () (strayTree.overwritten ⟨1⟩ page') ∧
      Node.ofPage page' = .ok (.internal { strayRoot with parent := some ⟨9⟩ })) ∧
    (∃ e, relink .header none strayTree = .error (.error e) (strayTree.addReads 1 0)) ∧
    relink ⟨2⟩ none strayTree = .error (.error (.slotOutOfBounds 2)) strayTree ∧
    PageFile.start strayTree.store.index ⟨1⟩ = 4096 ∧
    ∃ bs, strayRoot.header.writeOver (zeros 20) = .ok bs ∧
      NodeHeader.decode bs = .ok strayRoot.header ∧ bs.length = 20 := by
  obtain ⟨hlink, -, -, -, hstart⟩ := relink_in_place.1 strayTree ⟨1⟩ (some ⟨9⟩)
  obtain ⟨page', hrelink, -, -, -, hnode⟩ :=
    hlink _ _ rootPage_strayTree (Node.ofPage_setHeader ofPage_strayPage none).1
  obtain ⟨-, hrefuse, -⟩ := relink_in_place.1 strayTree .header none
  obtain ⟨-, -, -, hbehind, -⟩ := relink_in_place.1 strayTree ⟨2⟩ none
  obtain ⟨bs, hwrite, hread, hlength, -⟩ := relink_in_place.2 strayRoot.header (zeros 20) (by decide)
  refine ⟨⟨page', hrelink, ?_⟩, ?_, hbehind (by decide), hstart paged_strayTree (by decide), bs,
    hwrite, hread, hlength⟩
  · rw [hnode, ofPage_strayPage]
    rfl
  · cases hh : (HeaderPage.toPage ⟨.int32, ⟨1⟩⟩).header with
    | error e => exact ⟨e, hrefuse _ _ headerPage_strayTree hh⟩
    | ok h =>
      exact absurd (HeaderPage.ofPage_toPage (by decide)) (HeaderPage.ofPage_ne_ok_of_header hh)

end Tree
end RecordIndex
