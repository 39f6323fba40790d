import RecordIndex.Proofs.Codec.NodeFormat
import RecordIndex.Proofs.Dictionary
import RecordIndex.Proofs.RecordEffects

/-!
# Writing slots, on files of any bytes

What is said here holds of damaged files too: nothing is assumed of the bytes of a tree, only that
its handles are as opening leaves them (`Tree.Opened`).

* `Action.Whole x s R E`: the action either answers, and `R` says how, or fails with a failure that
  satisfies `E` and leaves the state as it was. Writing one slot is of this kind.
* `Tree.Zone` says where slots may be written.
* `Tree.SlotWriteIn z t t'`: one slot has been written, in the zone `z`; the constructors are the ways
  to do so.
* `Tree.WritesIn z k t t'`: any slots have been read, and `k` slots written, all in the zone. The
  counters of slots written go up by `k` then. `Tree.Writes` is the same without bounds.
-/

namespace RecordIndex

/-- The failure can come up midway through a change: it is not the refusal of a request. -/
def Failure.Midway : Failure → Prop
  | .error e => e.isRefusal = false ∧ e ≠ .needsRepair
  | .fault _ => True

namespace Action

variable {σ τ α β : Type} {s s' : σ} {R : α → σ → Prop} {Q : β → σ → Prop}
  {E E' : Failure → Prop} {P : α → Prop}

/-- The action answers, or it fails and leaves the state as it was. -/
def Whole (x : Action σ α) (s : σ) (R : α → σ → Prop) (E : Failure → Prop) : Prop :=
  match x s with
  | .ok a s' => R a s'
  | .error e s' => s' = s ∧ E e

theorem Whole.of_ok {x : Action σ α} {a : α} (h : Whole x s R E) (hx : x s = .ok a s') :
    R a s' := by
  rw [Whole, hx] at h
  exact h

theorem Whole.of_error {x : Action σ α} {e : Failure} (h : Whole x s R E)
    (hx : x s = .error e s') : s' = s ∧ E e := by
  rw [Whole, hx] at h
  exact h

theorem Whole.mono {x : Action σ α} {R' : α → σ → Prop} (h : Whole x s R E)
    (hR : ∀ a s', R a s' → R' a s') (hE : ∀ e, E e → E' e) : Whole x s R' E' := by
  cases hx : x s with
  | ok a s' =>
    rw [Whole, hx]
    exact hR a s' (h.of_ok hx)
  | error e s' =>
    rw [Whole, hx]
    exact ⟨(h.of_error hx).1, hE e (h.of_error hx).2⟩

/-- What is known of an answer from elsewhere. -/
theorem Whole.with_ok {x : Action σ α} {R' : α → σ → Prop} (h : Whole x s R E)
    (hR : ∀ a s', x s = .ok a s' → R' a s') : Whole x s R' E := by
  cases hx : x s with
  | ok a s' =>
    rw [Whole, hx]
    exact hR a s' hx
  | error e s' =>
    rw [Whole, hx]
    exact h.of_error hx

theorem whole_pure {a : α} (h : R a s) : Whole (pure a) s R E := h

theorem whole_fail {e : Error} (h : E (.error e)) : Whole (fail e) s R E := ⟨rfl, h⟩

theorem whole_ofExcept {x : Except Error α} (hok : ∀ a, x = .ok a → R a s)
    (herror : ∀ e, x = .error e → E (.error e)) : Whole (ofExcept x) s R E := by
  cases x with
  | ok a => exact hok a rfl
  | error e => exact ⟨rfl, herror e rfl⟩

theorem whole_ofChecked {x : Except Fault α} (hok : ∀ a, x = .ok a → R a s)
    (herror : ∀ f, E (.fault f)) : Whole (ofChecked x) s R E := by
  cases x with
  | ok a => exact hok a rfl
  | error f => exact ⟨rfl, herror f⟩

theorem Whole.concludes {x : Action σ α} (h : Whole x s R E) :
    Concludes x s R fun e s' => s' = s ∧ E e := h

/-- What comes first changes nothing. -/
theorem Whole.bind {x : Action σ α} {f : α → Action σ β}
    (hx : Whole x s (fun a s' => s' = s ∧ P a) E) (hf : ∀ a, P a → Whole (f a) s Q E) :
    Whole (x >>= f) s Q E := by
  unfold Whole
  rw [run_bind]
  cases h : x s with
  | ok a s' =>
    obtain ⟨rfl, ha⟩ := hx.of_ok h
    exact hf a ha
  | error e s' => exact hx.of_error h

/-- What comes after it cannot fail. -/
theorem Whole.bind_ok {x : Action σ α} {f : α → Action σ β} (hx : Whole x s R E)
    (hf : ∀ a s', R a s' → ∃ b s'', f a s' = .ok b s'' ∧ Q b s'') : Whole (x >>= f) s Q E := by
  unfold Whole
  rw [run_bind]
  cases h : x s with
  | ok a s' =>
    obtain ⟨b, s'', hb, hQ⟩ := hf a s' (hx.of_ok h)
    dsimp only
    rw [hb]
    exact hQ
  | error e s' => exact hx.of_error h

theorem Whole.map {x : Action σ α} {f : α → β} (h : Whole x s (fun a => Q (f a)) E) :
    Whole (f <$> x) s Q E := by
  unfold Whole
  rw [run_map]
  cases hx : x s with
  | ok a s' => exact h.of_ok hx
  | error e s' => exact h.of_error hx

theorem whole_get_bind {f : σ → Action σ β} (h : Whole (f s) s Q E) :
    Whole (get >>= f) s Q E := h

/-- An action on a part. -/
theorem Whole.within {part : σ → τ} {setPart : τ → σ → σ} {x : Action τ α}
    {R : α → τ → Prop} (hx : Whole x (part s) R E) (hpart : setPart (part s) s = s) :
    Whole (within part setPart x) s (fun a s' => ∃ t, R a t ∧ s' = setPart t s) E := by
  unfold Whole
  rw [run_within]
  cases h : x (part s) with
  | ok a t => exact ⟨t, hx.of_ok h, rfl⟩
  | error e t =>
    obtain ⟨rfl, he⟩ := hx.of_error h
    exact ⟨hpart, he⟩

end Action

open RecordIndex.Action

/-! ### Slots -/

namespace SlotFile

variable {f g : SlotFile} {slot : UInt64} {bs : Bytes}

/-- One more slot is counted as written, and the handle is the same otherwise. -/
structure Wrote (f g : SlotFile) : Prop where
  layout_eq : g.layout = f.layout
  count_eq : g.count = f.count
  writes_eq : g.counters.writes = f.counters.writes + 1

/-- One more slot is counted as written, behind the last one. -/
structure Grew (f g : SlotFile) : Prop where
  layout_eq : g.layout = f.layout
  count_eq : g.count = f.count + 1
  writes_eq : g.counters.writes = f.counters.writes + 1
  room : ∀ l, f.layout = some l → l.position f.count < Disk.positionLimit

theorem Grew.count_le (h : f.Grew g) : g.count.toNat ≤ f.count.toNat + 1 := by
  rw [h.count_eq, UInt64.toNat_add]
  exact Nat.mod_le _ _

theorem whole_layoutFor (slot : UInt64) (f : SlotFile) :
    Whole (layoutFor slot) f (fun l g => g = f ∧ f.layout = some l) Failure.Midway := by
  refine whole_get_bind ?_
  cases hl : f.layout with
  | none => exact whole_fail ⟨rfl, by simp⟩
  | some l =>
    dsimp only
    split_ifs
    · exact whole_pure ⟨rfl, rfl⟩
    · exact whole_fail ⟨rfl, by simp⟩

theorem whole_writeBytes (pos : UInt64) (bs : Bytes) (f : SlotFile) :
    Whole (writeBytes pos bs) f
      (fun _ g => pos < Disk.positionLimit ∧ g = { f with bytes := f.bytes.write pos.toNat bs })
      Failure.Midway := by
  unfold writeBytes
  split_ifs with hpos
  · exact whole_fail ⟨rfl, by simp⟩
  · exact ⟨UInt64.not_le.1 hpos, rfl⟩

theorem whole_readBytes (pos : UInt64) (n : Nat) (f : SlotFile) :
    Whole (readBytes pos n) f (fun _ _ => True) Failure.Midway := by
  unfold readBytes
  split_ifs
  · exact whole_fail ⟨rfl, by simp⟩
  · refine whole_get_bind ?_
    cases f.bytes.read? pos.toNat n with
    | none => exact whole_fail ⟨rfl, by simp⟩
    | some bs => exact whole_pure trivial

/-- A length that is refused is not that of a slot. -/
theorem whole_checkLength (l : SlotLayout) (n : Nat) (f : SlotFile) :
    Whole (checkLength l n) f (fun _ g => g = f ∧ True)
      fun e => n = l.slotSize.toNat → e.Midway := by
  unfold checkLength
  split_ifs with hn
  · exact whole_pure ⟨rfl, trivial⟩
  · exact whole_fail fun h => absurd h hn

theorem whole_readExactly (slot : UInt64) (n : Nat) (f : SlotFile) :
    Whole (readExactly slot n) f (fun bs g => bs.length = n ∧ g = f.addReads 1)
      fun e => (∀ l, f.layout = some l → n = l.slotSize.toNat) → e.Midway := by
  refine Whole.with_ok (R := fun _ _ => True) ?_ fun bs g h => (readExactly_eq_ok_iff.1 h).2
  refine ((whole_layoutFor slot f).mono (fun _ _ h => h) fun e he _ => he).bind fun l hl => ?_
  refine ((whole_checkLength l n f).mono (fun _ _ h => h) fun e he hn => he (hn l hl)).bind
    fun _ _ => ?_
  refine ((whole_readBytes _ n f).mono (fun _ _ h => h) fun e he _ => he).bind_ok fun bs g _ => ?_
  exact ⟨bs, _, rfl, trivial⟩

theorem whole_read (slot : UInt64) (f : SlotFile) :
    Whole (read slot) f (fun _ g => g = f.addReads 1) Failure.Midway := by
  refine (whole_layoutFor slot f).bind fun l hl => ?_
  refine (whole_readExactly slot _ f).mono (fun _ _ h => h.2) fun e he => he fun l' hl' => ?_
  rw [hl] at hl'
  cases hl'
  rfl

theorem whole_write (slot : UInt64) (bs : Bytes) (f : SlotFile) :
    Whole (write slot bs) f (fun _ g => (∃ l, f.layout = some l) ∧ f.Wrote g)
      fun e => (∀ l, f.layout = some l → bs.length = l.slotSize.toNat) → e.Midway := by
  refine ((whole_layoutFor slot f).mono (fun _ _ h => h) fun e he _ => he).bind fun l hl => ?_
  refine ((whole_checkLength l _ f).mono (fun _ _ h => h) fun e he hn => he (hn l hl)).bind
    fun _ _ => ?_
  refine ((whole_writeBytes _ bs f).mono (fun _ _ h => h) fun e he _ => he).bind_ok ?_
  rintro _ g ⟨-, rfl⟩
  refine ⟨_, _, rfl, ⟨l, hl⟩, rfl, rfl, ?_⟩
  simp only [SlotCounters.writes, SlotCounters.addUpdated]
  ac_rfl

theorem whole_zero (slot : UInt64) (f : SlotFile) :
    Whole (zero slot) f (fun _ g => (∃ l, f.layout = some l) ∧ f.Wrote g) Failure.Midway := by
  refine (whole_layoutFor slot f).bind fun l hl => ?_
  refine (whole_writeBytes _ _ f).bind_ok ?_
  rintro _ g ⟨-, rfl⟩
  refine ⟨_, _, rfl, ⟨l, hl⟩, rfl, rfl, ?_⟩
  simp only [SlotCounters.writes, SlotCounters.addDeleted]
  ac_rfl

/-- The slot that is added comes behind the last one. -/
theorem eq_count_of_append {n : UInt64} (h : append bs f = .ok n g) : n = f.count := by
  rw [append, run_bind, run_get] at h
  cases hl : f.layout with
  | none =>
    simp only [hl] at h
    cases h
  | some l =>
    simp only [hl] at h
    obtain ⟨_, _, -, h⟩ := bind_eq_ok_iff.1 h
    obtain ⟨_, _, -, h⟩ := bind_eq_ok_iff.1 h
    cases h
    rfl

theorem whole_append (bs : Bytes) (f : SlotFile) :
    Whole (append bs) f (fun _ g => (∃ l, f.layout = some l) ∧ f.Grew g)
      fun e => (∀ l, f.layout = some l → bs.length = l.slotSize.toNat) →
        (∃ l, f.layout = some l) → e.Midway := by
  refine whole_get_bind ?_
  cases hl : f.layout with
  | none => exact whole_fail fun _ ⟨l, h⟩ => by cases h
  | some l =>
    refine ((whole_checkLength l _ f).mono (fun _ _ h => h) fun e he hn _ => he (hn l rfl)).bind
      fun _ _ => ?_
    refine ((whole_writeBytes _ bs f).mono (fun _ _ h => h) fun e he _ _ => he).bind_ok ?_
    rintro _ g ⟨hroom, rfl⟩
    refine ⟨_, _, rfl, ⟨l, rfl⟩, rfl, rfl, ?_, ?_⟩
    · simp only [SlotCounters.writes, SlotCounters.addAppended]
      ac_rfl
    · intro l' hl'
      rw [hl] at hl'
      cases hl'
      exact hroom

end SlotFile

/-! ### Pages and records -/

namespace PageFile

/-- A page behind the last one starts at a position that can be reached. -/
theorem count_lt_of_room {count : UInt64} (hle : count.toNat * pageSize ≤ 2 ^ 63)
    (hroom : layout.position count < Disk.positionLimit) : count.toNat < 2 ^ 51 := by
  have hle : count.toNat * 4096 ≤ 2 ^ 63 := hle
  have hpos : (layout.position count).toNat = (0 + count.toNat * 4096 % 2 ^ 64) % 2 ^ 64 := by
    rw [SlotLayout.position, UInt64.toNat_add, UInt64.toNat_mul]
    rfl
  have hroom := UInt64.lt_iff_toNat_lt.1 hroom
  rw [hpos, show Disk.positionLimit.toNat = 2 ^ 63 from rfl] at hroom
  omega

variable {f : SlotFile} (hl : f.layout = some layout)
include hl

theorem whole_fetch (p : PageId) :
    Whole (fetch p) f (fun page g => page? f p = some page ∧ g = f.addReads 1)
      Failure.Midway := by
  have hsize : ∀ l, f.layout = some l → pageSize = l.slotSize.toNat := by
    rintro l hl'
    rw [hl] at hl'
    cases hl'
    rfl
  refine Whole.with_ok (R := fun _ _ => True) ?_ fun page g h => Tree.fetchPage_eq_ok_iff.1 h
  refine ((SlotFile.whole_readExactly p.number pageSize f).mono (fun _ _ h => h) fun e he =>
    he hsize).bind_ok ?_
  rintro bs g ⟨hlen, -⟩
  refine ⟨⟨bs, hlen⟩, g, ?_, trivial⟩
  rw [Page.ofBytes, dif_pos hlen]
  rfl

/-- A page is as long as a slot. -/
theorem length_eq_slotSize (page : Page) (l : SlotLayout) (h : f.layout = some l) :
    page.bytes.length = l.slotSize.toNat := by
  rw [hl] at h
  cases h
  exact page.length_eq

theorem whole_put (p : PageId) (page : Page) :
    Whole (put p page) f (fun _ g => f.Wrote g) Failure.Midway :=
  (SlotFile.whole_write _ _ f).mono (fun _ _ h => h.2) fun _ he => he (length_eq_slotSize hl page)

theorem whole_grow : Whole grow f (fun _ g => f.Grew g) Failure.Midway := by
  refine ((SlotFile.whole_append Page.zero.bytes f).mono (fun _ _ h => h.2) fun _ he =>
    he (length_eq_slotSize hl Page.zero) ⟨_, hl⟩).bind_ok ?_
  exact fun n g h => ⟨⟨n⟩, g, rfl, h⟩

omit hl in
theorem whole_erase (p : PageId) : Whole (erase p) f (fun _ g => f.Wrote g) Failure.Midway :=
  (SlotFile.whole_zero _ f).mono (fun _ _ h => h.2) fun _ he => he

end PageFile

namespace RecordFile

variable {f : SlotFile}

/-- One more slot of a record file is counted as written, and the size of the records is known. -/
structure Wrote (f g : SlotFile) : Prop where
  exists_layout : ∃ l, g.layout = some l
  writes_eq : g.counters.writes = f.counters.writes + 1
  count_le : g.count.toNat ≤ f.count.toNat + 1

theorem wrote_of_wrote {f g : SlotFile} (h : (∃ l, f.layout = some l) ∧ f.Wrote g) : Wrote f g :=
  ⟨by rw [h.2.layout_eq]; exact h.1, h.2.writes_eq, by rw [h.2.count_eq]; exact Nat.le_succ _⟩

theorem whole_requireSize (n : Nat) (f : SlotFile) :
    Whole (requireSize n) f (fun _ g => g = f ∧ True) fun _ => True := by
  refine whole_get_bind ?_
  cases f.slotSize? with
  | none => exact whole_pure ⟨rfl, trivial⟩
  | some size =>
    dsimp only
    split_ifs
    · exact whole_pure ⟨rfl, trivial⟩
    · exact whole_fail trivial

theorem whole_fixSize (hempty : f.bytes.contents = []) (n : Nat) :
    Whole (fixSize n) f (fun _ g => 0 < n ∧ n ≤ maxRecordSize ∧
      g.Holds (layout (UInt64.ofNat n)) (encodeHeader n) [] ∧ g.counters = f.counters)
      fun _ => True := by
  by_cases hlarge : maxRecordSize < n
  · rw [fixSize, if_pos hlarge]
    exact whole_fail trivial
  · by_cases hzero : n = 0
    · rw [fixSize, if_neg hlarge, if_pos hzero]
      exact whole_fail trivial
    · have hpos : 0 < n := Nat.pos_of_ne_zero hzero
      obtain ⟨g, hfix, hg, -, -, hcounters⟩ := exists_fixSize hempty hpos (Nat.not_lt.1 hlarge)
      rw [Whole, hfix]
      exact ⟨hpos, Nat.not_lt.1 hlarge, hg, hcounters⟩

/-- Adding a record changes nothing if it fails: once the header of an empty file is written, the
first record follows. -/
theorem whole_appendBlock (hempty : f.layout = none → f.bytes.contents = []) (bs : Bytes) :
    Whole (appendBlock bs) f (fun _ g => Wrote f g) fun _ => True := by
  have happend : ∀ {f g : SlotFile} {n : UInt64}, SlotFile.append bs f = .ok n g → Wrote f g := by
    intro f g n h
    obtain ⟨⟨l, hl⟩, hg⟩ := (SlotFile.whole_append bs f).of_ok h
    exact ⟨⟨l, hg.layout_eq.trans hl⟩, hg.writes_eq, hg.count_le⟩
  refine whole_get_bind ?_
  cases hl : f.layout with
  | some l =>
    refine (((SlotFile.whole_append bs f).mono (fun _ _ h => h) fun _ _ => trivial).with_ok
      fun _ _ => happend).bind_ok ?_
    exact fun n g hg => ⟨⟨n⟩, g, rfl, hg⟩
  | none =>
    refine (whole_fixSize (hempty hl) bs.length).bind_ok ?_
    rintro - f₁ ⟨hpos, hle, hf₁, hcounters⟩
    rcases append_cases hpos hle hf₁ rfl with ⟨g, hx, -⟩ | ⟨-, hlong⟩
    · have hg := happend hx
      -- there are no slots behind the header that has just been written
      have hnone : f₁.count.toNat ≤ f.count.toNat := hf₁.count_eq.trans_le (Nat.zero_le _)
      refine ⟨⟨f₁.count⟩, g, ?_, hg.exists_layout, hcounters ▸ hg.writes_eq,
        hg.count_le.trans (Nat.succ_le_succ hnone)⟩
      show (RecordId.mk <$> SlotFile.append bs) f₁ = _
      rw [run_map, hx]
    · rw [List.length_nil, Nat.zero_mul, recordHeaderBytes] at hlong
      omega

theorem whole_add (hempty : f.layout = none → f.bytes.contents = []) (r : Record) :
    Whole (add r) f (fun _ g => Wrote f g) fun _ => True := by
  refine Whole.bind (P := fun _ => True) ?_ fun bs _ => ?_
  · exact whole_ofChecked (fun _ _ => ⟨rfl, trivial⟩) fun _ => trivial
  · exact (whole_requireSize _ f).bind fun _ _ => whole_appendBlock hempty bs

theorem whole_replace (id : RecordId) (r : Record) (f : SlotFile) :
    Whole (replace id r) f (fun _ g => Wrote f g) fun _ => True := by
  refine Whole.bind (P := fun _ => True) ?_ fun bs _ => ?_
  · exact whole_ofChecked (fun _ _ => ⟨rfl, trivial⟩) fun _ => trivial
  · exact (SlotFile.whole_write _ _ f).mono (fun _ _ => wrote_of_wrote) fun _ _ => trivial

theorem whole_erase (id : RecordId) (f : SlotFile) :
    Whole (erase id) f (fun _ g => Wrote f g) Failure.Midway :=
  (SlotFile.whole_zero _ f).mono (fun _ _ => wrote_of_wrote) fun _ h => h

end RecordFile

/-! ### Trees -/

namespace Tree

/-- The handles are as opening and clearing leave them: the index file is laid out in pages, of which
there are no more than a file can hold, and the size of the records is known unless there are none.
Nothing is said of the bytes, so that every tree is like this when it is opened (`opened_of_load`). -/
structure Opened (t : Tree) : Prop where
  layout_eq : t.store.index.layout = some PageFile.layout
  pages_le : t.pageCount.toNat * pageSize ≤ 2 ^ 63
  unsized : t.store.records.layout = none → t.store.records.bytes.contents = []

/-- Handles that know what the files say are as opening leaves them. -/
theorem InStep.opened {t : Tree} (h : t.InStep) : t.Opened := by
  obtain ⟨⟨blocks, hi⟩, hr⟩ := h
  refine ⟨hi.layout_eq, ?_, fun hl => ?_⟩
  · have hreach : 0 + blocks.length * 4096 < 2 ^ 63 + 4096 := hi.reach
    rw [pageCount, hi.count_eq, pageSize]
    omega
  · cases hr with
    | unset _ hempty _ => exact hempty
    | set _ _ hr => exact absurd (hl.symm.trans hr.layout_eq) (by simp)

/-- Where slots may be written: pages that may be written over, all pages from a certain number on
among them, pages that may get another parent link, pages that may become the root, and the record
file as a whole. -/
structure Zone where
  node : PageId → Prop
  fresh : Nat
  link : PageId → Prop
  root : PageId → Prop
  records : Prop

namespace Zone

/-- The page may be written over. -/
def Holds (z : Zone) (p : PageId) : Prop := z.node p ∨ z.fresh ≤ p.number.toNat

/-- The page may get another parent link at least. -/
def Links (z : Zone) (p : PageId) : Prop := z.Holds p ∨ z.link p

/-- Every page may be written over. -/
structure Unbounded (z : Zone) : Prop where
  holds : ∀ p, z.Holds p
  root : ∀ p, z.root p

theorem Unbounded.links {z : Zone} (h : z.Unbounded) (p : PageId) : z.Links p := .inl (h.holds p)

/-- All of the index file. -/
def index : Zone := ⟨fun _ => True, 0, fun _ => True, fun _ => True, False⟩

/-- Both files. -/
def all : Zone := { index with records := True }

theorem unbounded_all : all.Unbounded := ⟨fun _ => .inl trivial, fun _ => trivial⟩

end Zone

/-- One slot has been written, in the zone. -/
inductive SlotWriteIn (z : Zone) (t t' : Tree) : Prop where
  /-- A node has been written to its page. -/
  | putNode {n : Node} {page : Page} (hz : z.Holds n.page) (hpage : n.toPage = .ok page)
      (h : onIndex (PageFile.put n.page page) t = .ok () t')
  /-- A page has got another parent link. -/
  | relinkPage {p : PageId} {page : Page} {header : NodeHeader} (parent : Option PageId)
      (hz : z.Links p) (hpage : PageFile.page? t.store.index p = some page)
      (hheader : page.header = .ok header)
      (h : onIndex (PageFile.put p (page.setHeader { header with parent })) t = .ok () t')
  /-- The header page names another root. -/
  | moveRoot {p : PageId} (hz : z.root p) (h : Tree.moveRoot p t = .ok () t')
  /-- There is one more page. -/
  | newPage {p : PageId} (h : Tree.newPage t = .ok p t')
  /-- A page has been given up. -/
  | releasePage {p : PageId} (hz : z.Holds p) (h : Tree.releasePage p t = .ok () t')
  /-- There is one more record. -/
  | addRecord {r : Record} {id : RecordId} (hz : z.records) (hr : r.validate = .ok ())
      (h : onRecords (RecordFile.add r) t = .ok id t')
  /-- A record has been replaced. -/
  | replaceRecord {id : RecordId} {r : Record} (hz : z.records) (hr : r.validate = .ok ())
      (h : onRecords (RecordFile.replace id r) t = .ok () t')
  /-- A record has been erased. -/
  | eraseRecord {id : RecordId} (hz : z.records) (h : onRecords (RecordFile.erase id) t = .ok () t')

/-- Any slots have been read, and `k` slots have been written, all in the zone. -/
inductive WritesIn (z : Zone) : Nat → Tree → Tree → Prop where
  | refl (t : Tree) : WritesIn z 0 t t
  | reads {k : Nat} {t t' : Tree} (i j : UInt64) (h : WritesIn z k t t') :
      WritesIn z k t (t'.addReads i j)
  | write {k : Nat} {t t' t'' : Tree} (h : WritesIn z k t t') (hw : SlotWriteIn z t' t'') :
      WritesIn z (k + 1) t t''

/-- Any slots have been read, and `k` slots have been written. -/
abbrev Writes (k : Nat) (t t' : Tree) : Prop := WritesIn .all k t t'

theorem WritesIn.trans {z : Zone} {k m : Nat} {t t' t'' : Tree} (h : WritesIn z k t t')
    (h' : WritesIn z m t' t'') : WritesIn z (k + m) t t'' := by
  induction h' with
  | refl => exact h
  | reads i j _ ih => exact (ih h).reads i j
  | write _ hw ih => exact (ih h).write hw

theorem SlotWriteIn.writes {z : Zone} {t t' : Tree} (h : SlotWriteIn z t t') : WritesIn z 1 t t' :=
  (WritesIn.refl t).write h

/-- Where no slot has been written, some have been read at most. -/
theorem WritesIn.exists_addReads {z : Zone} {t t' : Tree} (h : WritesIn z 0 t t') :
    ∃ i j, t' = t.addReads i j := by
  generalize hk : 0 = k at h
  induction h with
  | refl t => exact ⟨0, 0, (addReads_zero t).symm⟩
  | reads i j _ ih =>
    obtain ⟨i', j', rfl⟩ := ih hk
    exact ⟨i' + i, j' + j, addReads_addReads ..⟩
  | write => cases hk

/-- What a write of one slot leaves of a tree. -/
structure Wrote (t t' : Tree) : Prop where
  opened : t'.Opened
  pageCount_le : t.pageCount.toNat ≤ t'.pageCount.toNat
  pageCount_le_succ : t'.pageCount.toNat ≤ t.pageCount.toNat + 1
  recordCount_le_succ : t'.recordCount.toNat ≤ t.recordCount.toNat + 1
  writes_eq : t'.store.counters.writes = t.store.counters.writes + 1
  needsRepair_eq : t'.needsRepair = t.needsRepair
  keyType_eq : t'.keyType = t.keyType

section

variable {t t' : Tree}

theorem Opened.wrote_index (ht : t.Opened) {f : SlotFile} (h : t.store.index.Wrote f) :
    t.Wrote { t with store := { t.store with index := f } } where
  opened := by
    refine ⟨h.layout_eq.trans ht.layout_eq, ?_, ht.unsized⟩
    show f.count.toNat * pageSize ≤ 2 ^ 63
    rw [h.count_eq]
    exact ht.pages_le
  pageCount_le := (congrArg UInt64.toNat h.count_eq).ge
  pageCount_le_succ := Nat.le_succ_of_le (congrArg UInt64.toNat h.count_eq).le
  recordCount_le_succ := Nat.le_succ _
  writes_eq := by
    simp only [Store.counters, StoreCounters.writes, h.writes_eq]
    ac_rfl
  needsRepair_eq := rfl
  keyType_eq := rfl

theorem Opened.wrote_grown (ht : t.Opened) {f : SlotFile} (h : t.store.index.Grew f) :
    t.Wrote { t with store := { t.store with index := f } } := by
  have hlt := PageFile.count_lt_of_room ht.pages_le (h.room _ ht.layout_eq)
  have hnext : f.count.toNat = t.store.index.count.toNat + 1 := by
    rw [h.count_eq, UInt64.toNat_add]
    exact Nat.mod_eq_of_lt (Nat.lt_of_lt_of_le (Nat.succ_lt_succ hlt) (by decide))
  refine ⟨⟨h.layout_eq.trans ht.layout_eq, ?_, ht.unsized⟩, Nat.le_of_succ_le hnext.ge, h.count_le,
    Nat.le_succ _, ?_, rfl, rfl⟩
  · calc f.count.toNat * pageSize = (t.store.index.count.toNat + 1) * pageSize := by rw [hnext]
      _ ≤ 2 ^ 51 * pageSize := Nat.mul_le_mul_right _ hlt
      _ = 2 ^ 63 := by decide
  · simp only [Store.counters, StoreCounters.writes, h.writes_eq]
    ac_rfl

theorem Opened.wrote_records (ht : t.Opened) {f : SlotFile}
    (h : RecordFile.Wrote t.store.records f) :
    t.Wrote { t with store := { t.store with records := f } } where
  opened := by
    obtain ⟨l, hl⟩ := h.exists_layout
    exact ⟨ht.layout_eq, ht.pages_le, fun hnone => by rw [hl] at hnone; cases hnone⟩
  pageCount_le := Nat.le_refl _
  pageCount_le_succ := Nat.le_succ _
  recordCount_le_succ := h.count_le
  writes_eq := by
    simp only [Store.counters, StoreCounters.writes, h.writes_eq]
    ac_rfl
  needsRepair_eq := rfl
  keyType_eq := rfl

/-- An action on the index file. -/
theorem whole_onIndex {α : Type} {x : SlotAction α} {R : α → SlotFile → Prop}
    {E : Failure → Prop} (h : Whole x t.store.index R E) :
    Whole (onIndex x) t (fun a t' => ∃ f, R a f ∧
      t' = { t with store := { t.store with index := f } }) E := by
  refine (Whole.within (h.within rfl) rfl).mono ?_ fun _ h => h
  rintro a t' ⟨s, ⟨f, hf, rfl⟩, rfl⟩
  exact ⟨f, hf, rfl⟩

/-- An action on the record file. -/
theorem whole_onRecords {α : Type} {x : SlotAction α} {R : α → SlotFile → Prop}
    {E : Failure → Prop} (h : Whole x t.store.records R E) :
    Whole (onRecords x) t (fun a t' => ∃ f, R a f ∧
      t' = { t with store := { t.store with records := f } }) E := by
  refine (Whole.within (h.within rfl) rfl).mono ?_ fun _ h => h
  rintro a t' ⟨s, ⟨f, hf, rfl⟩, rfl⟩
  exact ⟨f, hf, rfl⟩

section

variable (ht : t.Opened)
include ht

theorem whole_putPage (p : PageId) (page : Page) :
    Whole (onIndex (PageFile.put p page)) t (fun _ t' => t.Wrote t') Failure.Midway := by
  refine (whole_onIndex (PageFile.whole_put ht.layout_eq p page)).mono ?_ fun _ h => h
  rintro - t' ⟨f, hf, rfl⟩
  exact ht.wrote_index hf

theorem whole_moveRoot (p : PageId) :
    Whole (moveRoot p) t (fun _ t' => t.Wrote t') Failure.Midway := by
  refine whole_get_bind ((whole_putPage ht _ _).bind_ok fun _ t' h => ⟨⟨⟩, _, rfl, ?_⟩)
  exact ⟨⟨h.opened.layout_eq, h.opened.pages_le, h.opened.unsized⟩, h.pageCount_le,
    h.pageCount_le_succ, h.recordCount_le_succ, h.writes_eq, h.needsRepair_eq, h.keyType_eq⟩

theorem whole_newPage : Whole newPage t (fun _ t' => t.Wrote t') Failure.Midway := by
  refine (whole_onIndex (PageFile.whole_grow ht.layout_eq)).mono ?_ fun _ h => h
  rintro p t' ⟨f, hf, rfl⟩
  exact ht.wrote_grown hf

theorem whole_releasePage (p : PageId) :
    Whole (releasePage p) t (fun _ t' => t.Wrote t') Failure.Midway := by
  refine (whole_onIndex (PageFile.whole_erase p)).mono ?_ fun _ h => h
  rintro - t' ⟨f, hf, rfl⟩
  exact ht.wrote_index hf

theorem whole_addRecord (r : Record) :
    Whole (onRecords (RecordFile.add r)) t (fun _ t' => t.Wrote t') fun _ => True := by
  refine (whole_onRecords (RecordFile.whole_add ht.unsized r)).mono ?_ fun _ h => h
  rintro id t' ⟨f, hf, rfl⟩
  exact ht.wrote_records hf

theorem whole_replaceRecord (id : RecordId) (r : Record) :
    Whole (onRecords (RecordFile.replace id r)) t (fun _ t' => t.Wrote t') fun _ => True := by
  refine (whole_onRecords (RecordFile.whole_replace id r _)).mono ?_ fun _ h => h
  rintro - t' ⟨f, hf, rfl⟩
  exact ht.wrote_records hf

theorem whole_eraseRecord (id : RecordId) :
    Whole (onRecords (RecordFile.erase id)) t (fun _ t' => t.Wrote t') Failure.Midway := by
  refine (whole_onRecords (RecordFile.whole_erase id _)).mono ?_ fun _ h => h
  rintro - t' ⟨f, hf, rfl⟩
  exact ht.wrote_records hf

variable {z : Zone}

/-- Every write of a slot is counted, and leaves the handles in order. -/
theorem SlotWriteIn.wrote (h : SlotWriteIn z t t') : t.Wrote t' := by
  cases h with
  | putNode _ _ h => exact (whole_putPage ht _ _).of_ok h
  | relinkPage _ _ _ _ h => exact (whole_putPage ht _ _).of_ok h
  | moveRoot _ h => exact (whole_moveRoot ht _).of_ok h
  | newPage h => exact (whole_newPage ht).of_ok h
  | releasePage _ h => exact (whole_releasePage ht _).of_ok h
  | addRecord _ _ h => exact (whole_addRecord ht _).of_ok h
  | replaceRecord _ _ h => exact (whole_replaceRecord ht _ _).of_ok h
  | eraseRecord _ h => exact (whole_eraseRecord ht _).of_ok h

/-- All writes are counted. -/
theorem WritesIn.wrote {k : Nat} (h : WritesIn z k t t') : t'.Opened ∧
    t'.store.counters.writes = t.store.counters.writes + UInt64.ofNat k ∧
    t'.needsRepair = t.needsRepair ∧ t'.keyType = t.keyType := by
  induction h with
  | refl t => exact ⟨ht, (UInt64.add_zero _).symm, rfl, rfl⟩
  | reads i j _ ih =>
    obtain ⟨hopened, hwrites, hrepair, htype⟩ := ih ht
    exact ⟨⟨hopened.layout_eq, hopened.pages_le, hopened.unsized⟩, hwrites, hrepair, htype⟩
  | write _ hw ih =>
    obtain ⟨hopened, hwrites, hrepair, htype⟩ := ih ht
    have hw := hw.wrote hopened
    refine ⟨hw.opened, ?_, hw.needsRepair_eq.trans hrepair, hw.keyType_eq.trans htype⟩
    rw [hw.writes_eq, hwrites, UInt64.add_assoc, UInt64.ofNat_add]
    rfl

/-- No page is taken away. -/
theorem WritesIn.pageCount_le {k : Nat} (h : WritesIn z k t t') :
    t.pageCount.toNat ≤ t'.pageCount.toNat := by
  induction h with
  | refl t => exact Nat.le_refl _
  | reads i j _ ih => exact ih ht
  | write h hw ih => exact (ih ht).trans (hw.wrote (h.wrote ht).1).pageCount_le

/-- No more pages and no more record slots come to the files than slots have been written. -/
theorem WritesIn.counts_le {k : Nat} (h : WritesIn z k t t') :
    t'.pageCount.toNat ≤ t.pageCount.toNat + k ∧
      t'.recordCount.toNat ≤ t.recordCount.toNat + k := by
  induction h with
  | refl t => exact ⟨Nat.le_refl _, Nat.le_refl _⟩
  | reads i j _ ih => exact ih ht
  | write h hw ih =>
    have hw := hw.wrote (h.wrote ht).1
    exact ⟨hw.pageCount_le_succ.trans (Nat.succ_le_succ (ih ht).1),
      hw.recordCount_le_succ.trans (Nat.succ_le_succ (ih ht).2)⟩

/-- The counters of slots written tell whether any has been, unless there are more than they can
count. -/
theorem WritesIn.writes_eq_iff {k : Nat} (h : WritesIn z k t t') (hk : k < 2 ^ 64) :
    t'.store.counters.writes = t.store.counters.writes ↔ k = 0 := by
  obtain ⟨-, hwrites, -⟩ := h.wrote ht
  rw [hwrites]
  constructor
  · intro heq
    have hzero : UInt64.ofNat k = 0 := UInt64.add_eq_left.1 heq
    have := congrArg UInt64.toNat hzero
    rwa [UInt64.toNat_ofNat_of_lt' hk] at this
  · rintro rfl
    exact UInt64.add_zero _

end

end

end Tree
end RecordIndex
