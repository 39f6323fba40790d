import RecordIndex.Proofs.Damage.Slots

/-!
# The pages of a damaged index file

An index file may hold any bytes, and fewer of them than its handle has pages for
(`PageFile.Paged`). What is said here is what a write of one page does to the pages that such a file
shows.

* `PageFile.page?_eq_some_iff_layout` and `PageFile.page?_eq_some_iff`: a page is shown where all its
  bytes are in the file.
* `PageFile.Rewritten` and `PageFile.Extended`: what writing a page and adding one leave. The pages
  that could be read can be read afterwards, and once a page has been added, all before it can.
* `PageFile.concludes_put`, `PageFile.concludes_erase` and `PageFile.concludes_grow`: a write does
  this, or fails with an error and changes nothing.
-/

namespace RecordIndex

open RecordIndex.Action

namespace PageFile

variable {f g : SlotFile} {p q : PageId} {page : Page}

/-- The handle knows that the file is laid out in pages, and of no more than a file can hold. Nothing
is said of the bytes. -/
structure Paged (f : SlotFile) : Prop where
  layout_eq : f.layout = some layout
  pages_le : f.count.toNat * pageSize ≤ 2 ^ 63

/-- The page can be read. -/
def Readable (f : SlotFile) (p : PageId) : Prop := ∃ page, page? f p = some page

theorem toNat_position (hf : Paged f) {n : UInt64} (hn : n.toNat ≤ f.count.toNat) :
    (layout.position n).toNat = n.toNat * pageSize := by
  have hle := hf.pages_le
  have hmul : (layout.position n).toNat = (0 + n.toNat * 4096 % 2 ^ 64) % 2 ^ 64 := by
    rw [SlotLayout.position, UInt64.toNat_add, UInt64.toNat_mul]
    rfl
  rw [hmul, pageSize] at *
  omega

theorem le_length_of_getElem? {bs : Bytes} {k : Nat}
    (h : ∀ i < pageSize, bs[k + i]? = page.bytes[i]?) : k + pageSize ≤ bs.length := by
  have hpos : 1 ≤ pageSize := by decide
  have hin : pageSize - 1 < page.bytes.length := by
    rw [page.length_eq]
    omega
  have hlast := h (pageSize - 1) (by omega)
  rw [List.getElem?_eq_getElem hin] at hlast
  have := (List.getElem?_eq_some_iff.1 hlast).1
  omega

/-- A page is shown where the handle lays it out, if all its bytes are in the file. -/
theorem page?_eq_some_iff_layout : page? f p = some page ↔ ∃ l, f.layout = some l ∧
    l.slotSize.toNat = pageSize ∧ p.number < f.count ∧ l.position p.number < Disk.positionLimit ∧
    ∀ i < pageSize, f.bytes.contents[(l.position p.number).toNat + i]? = page.bytes[i]? := by
  rw [page?, Option.bind_eq_some_iff]
  constructor
  · rintro ⟨b, hb, hof⟩
    obtain ⟨l, hl⟩ := SlotFile.exists_layout_of_block? hb
    have hsize := SlotFile.length_block? hl hb
    unfold Page.ofBytes at hof
    split_ifs at hof with hlen
    · cases hof
      simp only [SlotFile.block?, hl, FileBytes.read?_eq, ← hsize, hlen] at hb
      split_ifs at hb with hslot hzero hend
      · cases hzero
      · refine ⟨l, hl, hsize.symm.trans hlen, hslot.1, hslot.2, fun i hi => ?_⟩
        obtain rfl := Option.some.inj hb
        rw [List.getElem?_take_of_lt hi, List.getElem?_drop]
    · cases hof
  · rintro ⟨l, hl, hsize, hslot, hpos, hbytes⟩
    have hlen := le_length_of_getElem? hbytes
    have hslice : (f.bytes.contents.drop (l.position p.number).toNat).take pageSize =
        page.bytes := by
      refine List.ext_getElem? fun i => ?_
      rcases Nat.lt_or_ge i pageSize with hi | hi
      · rw [List.getElem?_take_of_lt hi, List.getElem?_drop, hbytes i hi]
      · rw [List.getElem?_eq_none (by rw [List.length_take]; omega),
          List.getElem?_eq_none (by rw [page.length_eq]; exact hi)]
    refine ⟨page.bytes, ?_, toOption_eq_some_iff.2 (Page.ofBytes_bytes page)⟩
    simp only [SlotFile.block?, hl, hsize]
    rw [if_pos ⟨hslot, hpos⟩, FileBytes.read?_eq, if_neg (by decide), if_pos hlen, hslice]

/-- A page is shown where all its bytes are in the file. -/
theorem page?_eq_some_iff (hf : Paged f) : page? f p = some page ↔
    p.number.toNat < f.count.toNat ∧
      ∀ i < pageSize, f.bytes.contents[p.number.toNat * pageSize + i]? = page.bytes[i]? := by
  rw [page?_eq_some_iff_layout]
  constructor
  · rintro ⟨l, hl, -, hp, -, hbytes⟩
    obtain rfl := Option.some.inj (hl.symm.trans hf.layout_eq)
    rw [toNat_position hf (Nat.le_of_lt hp)] at hbytes
    exact ⟨hp, hbytes⟩
  · rintro ⟨hp, hbytes⟩
    have hstart := toNat_position hf (Nat.le_of_lt hp)
    have hreach : (p.number.toNat + 1) * pageSize ≤ f.count.toNat * pageSize :=
      Nat.mul_le_mul_right _ hp
    have hlimit : (layout.position p.number).toNat < 2 ^ 63 := by
      have hpages := hf.pages_le
      rw [pageSize] at *
      omega
    exact ⟨layout, hf.layout_eq, rfl, hp, hlimit, by rwa [hstart]⟩

/-! ### Writing a page -/

/-- A page has been written, and nothing else. -/
structure Rewritten (f : SlotFile) (p : PageId) (page : Page) (g : SlotFile) : Prop where
  layout_eq : g.layout = f.layout
  count_eq : g.count = f.count
  lt_count : p.number.toNat < f.count.toNat
  bytes_eq : g.bytes = f.bytes.write (p.number.toNat * pageSize) page.bytes

theorem bytes_ne_nil (page : Page) : page.bytes ≠ [] := by
  intro h
  have := page.length_eq
  rw [h] at this
  cases this

theorem Readable.length_le (hf : Paged f) (h : Readable f p) :
    (p.number.toNat + 1) * pageSize ≤ f.bytes.contents.length := by
  obtain ⟨page, hpage⟩ := h
  rw [Nat.succ_mul]
  exact le_length_of_getElem? ((page?_eq_some_iff hf).1 hpage).2

theorem Readable.lt_count (hf : Paged f) (h : Readable f p) : p.number.toNat < f.count.toNat := by
  obtain ⟨page, hpage⟩ := h
  exact ((page?_eq_some_iff hf).1 hpage).1

namespace Rewritten

variable (h : Rewritten f p page g) (hf : Paged f)
include h hf

theorem paged : Paged g where
  layout_eq := h.layout_eq.trans hf.layout_eq
  pages_le := by
    rw [h.count_eq]
    exact hf.pages_le

/-- The page that was written is shown. -/
theorem page?_self : page? g p = some page := by
  refine (page?_eq_some_iff (h.paged hf)).2 ⟨by rw [h.count_eq]; exact h.lt_count, fun i hi => ?_⟩
  rw [h.bytes_eq]
  exact FileBytes.getElem?_write (bytes_ne_nil page) (page.length_eq ▸ hi)

/-- The bytes of another page stay, unless the page is behind the end of the file. -/
theorem page?_of_ne (hq : q ≠ p) (hlen : (q.number.toNat + 1) * pageSize ≤
    f.bytes.contents.length ∨ p.number.toNat * pageSize ≤ f.bytes.contents.length) :
    page? g q = page? f q := by
  have hnumber : q.number.toNat ≠ p.number.toNat := fun he =>
    hq (congrArg PageId.mk (UInt64.toNat_inj.1 he))
  have hbytes : ∀ i < pageSize, g.bytes.contents[q.number.toNat * pageSize + i]? =
      f.bytes.contents[q.number.toNat * pageSize + i]? := by
    intro i hi
    rw [h.bytes_eq]
    rcases Nat.lt_or_ge q.number.toNat p.number.toNat with hlt | hge
    · have hmul : (q.number.toNat + 1) * pageSize ≤ p.number.toNat * pageSize :=
        Nat.mul_le_mul_right _ hlt
      rw [Nat.succ_mul] at hmul hlen
      exact FileBytes.getElem?_write_of_lt (bytes_ne_nil page) (by omega) (by omega)
    · have hmul : (p.number.toNat + 1) * pageSize ≤ q.number.toNat * pageSize :=
        Nat.mul_le_mul_right _ (by omega)
      rw [Nat.succ_mul] at hmul
      exact FileBytes.getElem?_write_of_le (bytes_ne_nil page) (by rw [page.length_eq]; omega)
  refine Option.ext fun page' => ?_
  rw [page?_eq_some_iff hf, page?_eq_some_iff (h.paged hf), h.count_eq]
  exact and_congr_right fun _ => forall₂_congr fun i hi => by rw [hbytes i hi]

/-- If the page could be read before, all other pages are as they were. -/
theorem page?_other (hp : Readable f p) (hq : q ≠ p) : page? g q = page? f q := by
  have := hp.length_le hf
  rw [Nat.succ_mul] at this
  exact h.page?_of_ne hf hq (.inr (by omega))

theorem readable (hq : Readable f q) : Readable g q := by
  by_cases hne : q = p
  · rw [hne]
    exact ⟨page, h.page?_self hf⟩
  · obtain ⟨page', hpage'⟩ := hq
    exact ⟨page', (h.page?_of_ne hf hne (.inl (Readable.length_le hf ⟨page', hpage'⟩))).trans hpage'⟩

end Rewritten

/-! ### Adding a page -/

/-- A page of zeros has been added behind the last one. -/
structure Extended (f g : SlotFile) : Prop where
  layout_eq : g.layout = f.layout
  count_eq : g.count.toNat = f.count.toNat + 1
  pages_le : g.count.toNat * pageSize ≤ 2 ^ 63
  bytes_eq : g.bytes = f.bytes.write (f.count.toNat * pageSize) Page.zero.bytes

namespace Extended

variable (h : Extended f g) (hf : Paged f)
include h hf

theorem paged : Paged g := ⟨h.layout_eq.trans hf.layout_eq, h.pages_le⟩

/-- The new page is zero. -/
theorem page?_new (hp : p.number.toNat = f.count.toNat) : page? g p = some Page.zero := by
  refine (page?_eq_some_iff (h.paged hf)).2 ⟨by rw [h.count_eq]; omega, fun i hi => ?_⟩
  rw [h.bytes_eq, hp]
  exact FileBytes.getElem?_write (bytes_ne_nil _) (Page.zero.length_eq ▸ hi)

/-- A page that could be read before is as it was. -/
theorem page?_of_readable (hq : Readable f q) : page? g q = page? f q := by
  have hlt := hq.lt_count hf
  have hlen := hq.length_le hf
  refine Option.ext fun page => ?_
  rw [page?_eq_some_iff hf, page?_eq_some_iff (h.paged hf), h.count_eq]
  refine and_congr (by omega) (forall₂_congr fun i hi => ?_)
  have hmul : (q.number.toNat + 1) * pageSize ≤ f.count.toNat * pageSize :=
    Nat.mul_le_mul_right _ hlt
  rw [Nat.succ_mul] at hmul hlen
  rw [h.bytes_eq, FileBytes.getElem?_write_of_lt (bytes_ne_nil _) (by omega) (by omega)]

/-- Every page can be read: the file reaches up to the new one. -/
theorem readable_of_lt (hq : q.number.toNat < g.count.toNat) : Readable g q := by
  have hlen : f.count.toNat * pageSize + Page.zero.bytes.length ≤ g.bytes.contents.length := by
    rw [h.bytes_eq]
    exact FileBytes.le_length_write (bytes_ne_nil Page.zero)
  rw [Page.zero.length_eq, ← Nat.add_one_mul, ← h.count_eq] at hlen
  have hmul : (q.number.toNat + 1) * pageSize ≤ g.count.toNat * pageSize :=
    Nat.mul_le_mul_right _ hq
  rw [Nat.succ_mul] at hmul
  have hslice : ((g.bytes.contents.drop (q.number.toNat * pageSize)).take pageSize).length =
      pageSize := by
    rw [List.length_take, List.length_drop]
    omega
  refine ⟨⟨_, hslice⟩, (page?_eq_some_iff (h.paged hf)).2 ⟨hq, fun i hi => ?_⟩⟩
  rw [List.getElem?_take_of_lt hi, List.getElem?_drop]

end Extended

/-! ### How the writes conclude -/

/-- Reading a page answers the page that is shown, and changes nothing but the counters. A page that is
there counts as read also if its bytes are refused. -/
theorem concludes_fetch (p : PageId) (f : SlotFile) :
    Concludes (fetch p) f (fun page g => page? f p = some page ∧ g = f.addReads 1)
      fun e g => (g = f ∨ g = f.addReads 1 ∧ p.number.toNat < f.count.toNat) ∧ e.IsError := by
  refine Concludes.with_ok (Q := fun _ _ => True) ?_ fun page g => Tree.fetchPage_eq_ok_iff.1
  have hread := (SlotFile.concludes_readExactly p.number pageSize f).mono (fun _ _ h => h)
    fun e g he => (⟨.inl he.1, he.2⟩ :
      (g = f ∨ g = f.addReads 1 ∧ p.number.toNat < f.count.toNat) ∧ e.IsError)
  refine hread.bind ?_
  rintro bs _ ⟨rfl, hp⟩
  exact concludes_ofExcept (fun _ _ => trivial) fun e _ => ⟨.inr ⟨rfl, hp⟩, e, rfl⟩

section

variable (hf : Paged f)
include hf

theorem concludes_put (p : PageId) (page : Page) :
    Concludes (put p page) f (fun _ g => Rewritten f p page g) fun e g => g = f ∧ e.IsError := by
  refine (SlotFile.concludes_layoutFor p.number f).bind ?_
  rintro l g ⟨rfl, hl, hp⟩
  obtain rfl := Option.some.inj (hl.symm.trans hf.layout_eq)
  refine (SlotFile.concludes_checkLength _ _ g).bind ?_
  rintro - _ rfl
  refine (SlotFile.concludes_writeBytes _ _ _).bind ?_
  rintro - _ ⟨-, rfl⟩
  rw [toNat_position hf (Nat.le_of_lt hp)]
  exact ⟨rfl, rfl, hp, rfl⟩

theorem concludes_erase (p : PageId) :
    Concludes (erase p) f (fun _ g => Rewritten f p Page.zero g) fun e g => g = f ∧ e.IsError := by
  refine (SlotFile.concludes_layoutFor p.number f).bind ?_
  rintro l g ⟨rfl, hl, hp⟩
  obtain rfl := Option.some.inj (hl.symm.trans hf.layout_eq)
  refine (SlotFile.concludes_writeBytes _ _ _).bind ?_
  rintro - _ ⟨-, rfl⟩
  rw [toNat_position hf (Nat.le_of_lt hp)]
  exact ⟨rfl, rfl, hp, rfl⟩

theorem concludes_grow :
    Concludes grow f (fun p g => p.number = f.count ∧ Extended f g)
      fun e g => g = f ∧ e.IsError := by
  refine Concludes.map ((SlotFile.concludes_append Page.zero.bytes hf.layout_eq).mono ?_ fun _ _ he => he)
  rintro n g ⟨rfl, hroom, hlayout, hcount, hbytes⟩
  have hlt := count_lt_of_room hf.pages_le hroom
  have hnext : g.count.toNat = f.count.toNat + 1 := by
    rw [hcount, UInt64.toNat_add]
    exact Nat.mod_eq_of_lt (Nat.lt_of_lt_of_le (Nat.succ_lt_succ hlt) (by decide))
  refine ⟨rfl, hlayout, hnext, ?_, ?_⟩
  · calc g.count.toNat * pageSize ≤ 2 ^ 51 * pageSize :=
          Nat.mul_le_mul_right _ (by omega)
      _ = 2 ^ 63 := by decide
  · rw [hbytes, toNat_position hf (Nat.le_refl _)]

end

end PageFile
end RecordIndex
