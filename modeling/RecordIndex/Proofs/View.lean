import Mathlib.Logic.Function.Basic
import Mathlib.Tactic.SplitIfs
import RecordIndex.Proofs.Blocks
import RecordIndex.Proofs.Codec.NodePage
import RecordIndex.Proofs.Runs
import RecordIndex.Tree

/-!
# What a tree shows

`Tree.view` is what can be read of a tree through its two files: the node on each page, the record
in each slot, the header page, and what the handle itself knows. Reading depends on nothing else,
and changes only the counters of slots read (`Tree.addReads`).

* `Tree.fetchNode_eq_ok_iff` and `Tree.fetchRecord_eq_ok_iff`: a read answers what the view has
  there.
* `Tree.Answers x v o`: on every tree that shows `v` the action `x` ends with `o`, and only reads.
  `Tree.AnswersIn x v a i j` says besides how many slots of each file it reads.
* `Tree.valid_view`: a node can be written again to the page that it is read from.
-/

namespace RecordIndex

/-- The configuration of a store, and which two files it has open. -/
structure Home where
  config : StoreConfig
  index : String × FileId
  records : String × FileId

/-- What a tree shows: what its handle knows, what the header page says, and the node on each page
and the record in each slot that can be read as one. -/
structure View where
  home : Home
  needsRepair : Bool
  keyType : FieldType
  root : PageId
  header : Option HeaderPage
  pageCount : Nat
  node : PageId → Option Node
  recordSize : Option Nat
  recordCount : Nat
  record : RecordId → Option Record

/-- The page in a slot of the index file. -/
def PageFile.page? (f : SlotFile) (p : PageId) : Option Page :=
  (f.block? p.number).bind fun b => (Page.ofBytes b).toOption

/-- The record in a slot of the record file. -/
def RecordFile.record? (f : SlotFile) (id : RecordId) : Option Record :=
  (f.block? id.number).bind fun b => (Record.decode b).toOption

theorem toOption_eq_some_iff {ε α : Type} {x : Except ε α} {a : α} :
    x.toOption = some a ↔ x = .ok a := by
  cases x <;> simp [Except.toOption]

namespace Tree

/-- The node on a page. The header page has none, nor has a page that names another one. -/
def node? (t : Tree) (p : PageId) : Option Node :=
  if p.isHeader then none
  else (PageFile.page? t.store.index p).bind fun page =>
    (Node.ofPage page).toOption.filter fun n => n.page = p

/-- What a tree shows. -/
def view (t : Tree) : View where
  home := ⟨t.store.config, t.store.index.home, t.store.records.home⟩
  needsRepair := t.needsRepair
  keyType := t.keyType
  root := t.root
  header := (PageFile.page? t.store.index .header).bind fun page =>
    (HeaderPage.ofPage page).toOption
  pageCount := t.pageCount.toNat
  node := t.node?
  recordSize := t.store.records.slotSize?.map (·.toNat)
  recordCount := t.recordCount.toNat
  record := RecordFile.record? t.store.records

/-- The tree with more pages and more records counted as read. -/
def addReads (t : Tree) (pages records : UInt64) : Tree :=
  { t with store := { t.store with
    index := t.store.index.addReads pages
    records := t.store.records.addReads records } }

@[simp] theorem view_addReads (t : Tree) (pages records : UInt64) :
    (t.addReads pages records).view = t.view := rfl

theorem addReads_addReads (t : Tree) (i j i' j' : UInt64) :
    (t.addReads i j).addReads i' j' = t.addReads (i + i') (j + j') := by
  simp [addReads, SlotFile.addReads, SlotCounters.addReads, UInt64.add_assoc]

@[simp] theorem addReads_zero (t : Tree) : t.addReads 0 0 = t := by
  simp [addReads, SlotFile.addReads, SlotCounters.addReads]

/-! ### Reading a page and reading a record -/

section Reads

variable {t t' : Tree}

theorem fetchPage_eq_ok_iff {f f' : SlotFile} {p : PageId} {page : Page} :
    PageFile.fetch p f = .ok page f' ↔ PageFile.page? f p = some page ∧ f' = f.addReads 1 := by
  rw [PageFile.fetch, Action.bind_eq_ok_iff, PageFile.page?]
  simp only [SlotFile.readExactly_eq_ok_iff, Action.ofExcept_eq_ok_iff, Option.bind_eq_some_iff,
    toOption_eq_some_iff]
  constructor
  · rintro ⟨b, g, ⟨hb, hlen, rfl⟩, hpage, rfl⟩
    exact ⟨⟨b, hb, hpage⟩, rfl⟩
  · rintro ⟨⟨b, hb, hpage⟩, rfl⟩
    refine ⟨b, _, ⟨hb, ?_, rfl⟩, hpage, rfl⟩
    unfold Page.ofBytes at hpage
    split_ifs at hpage with hlen
    exact hlen

theorem onIndex_eq_ok_iff {α : Type} {x : SlotAction α} {a : α} :
    onIndex x t = .ok a t' ↔
      ∃ f, x t.store.index = .ok a f ∧ t' = { t with store := { t.store with index := f } } := by
  simp only [onIndex, onStore, Store.onIndex, Action.within_eq_ok_iff]
  constructor
  · rintro ⟨s, ⟨f, hf, rfl⟩, rfl⟩
    exact ⟨f, hf, rfl⟩
  · rintro ⟨f, hf, rfl⟩
    exact ⟨_, ⟨f, hf, rfl⟩, rfl⟩

theorem onRecords_eq_ok_iff {α : Type} {x : SlotAction α} {a : α} :
    onRecords x t = .ok a t' ↔
      ∃ f, x t.store.records = .ok a f ∧
        t' = { t with store := { t.store with records := f } } := by
  simp only [onRecords, onStore, Store.onRecords, Action.within_eq_ok_iff]
  constructor
  · rintro ⟨s, ⟨f, hf, rfl⟩, rfl⟩
    exact ⟨f, hf, rfl⟩
  · rintro ⟨f, hf, rfl⟩
    exact ⟨_, ⟨f, hf, rfl⟩, rfl⟩

theorem addReads_index (t : Tree) (n : UInt64) :
    { t with store := { t.store with index := t.store.index.addReads n } } = t.addReads n 0 := by
  simp [addReads, SlotFile.addReads, SlotCounters.addReads]

theorem addReads_records (t : Tree) (n : UInt64) :
    { t with store := { t.store with records := t.store.records.addReads n } } =
    t.addReads 0 n := by
  simp [addReads, SlotFile.addReads, SlotCounters.addReads]

/-- A node is read from a page exactly if the view has it there. -/
theorem fetchNode_eq_ok_iff {p : PageId} {n : Node} :
    fetchNode p t = .ok n t' ↔ t.node? p = some n ∧ t' = t.addReads 1 0 := by
  unfold fetchNode node?
  by_cases hp : p.isHeader
  · simp [hp]
  · rw [if_neg hp, if_neg hp, Action.bind_eq_ok_iff]
    simp only [Action.bind_eq_ok_iff, onIndex_eq_ok_iff, fetchPage_eq_ok_iff,
      Action.ofExcept_eq_ok_iff, Option.bind_eq_some_iff, Option.filter_eq_some_iff,
      toOption_eq_some_iff, decide_eq_true_eq]
    constructor
    · rintro ⟨page, s, ⟨f, ⟨hpage, rfl⟩, rfl⟩, m, s, ⟨hm, rfl⟩, h⟩
      split_ifs at h with hid
      · cases h
        exact ⟨⟨page, hpage, hm, hid⟩, addReads_index t 1⟩
      · cases h
    · rintro ⟨⟨page, hpage, hn, hid⟩, rfl⟩
      refine ⟨page, _, ⟨_, ⟨hpage, rfl⟩, rfl⟩, n, _, ⟨hn, rfl⟩, ?_⟩
      rw [if_pos hid, addReads_index, Action.run_pure]

/-- A record is read from a slot exactly if the view has it there. -/
theorem fetchRecord_eq_ok_iff {id : RecordId} {r : Record} :
    onRecords (RecordFile.fetch id) t = .ok r t' ↔
      RecordFile.record? t.store.records id = some r ∧ t' = t.addReads 0 1 := by
  simp only [onRecords_eq_ok_iff, RecordFile.fetch, RecordFile.record?, Action.bind_eq_ok_iff,
    SlotFile.read_eq_ok_iff, Action.ofExcept_eq_ok_iff, Option.bind_eq_some_iff,
    toOption_eq_some_iff]
  constructor
  · rintro ⟨f, ⟨b, g, ⟨hb, rfl⟩, hr, rfl⟩, rfl⟩
    exact ⟨⟨b, hb, hr⟩, addReads_records t 1⟩
  · rintro ⟨⟨b, hb, hr⟩, rfl⟩
    exact ⟨_, ⟨b, _, ⟨hb, rfl⟩, hr, rfl⟩, (addReads_records t 1).symm⟩

end Reads

/-! ### Actions that only read -/

section Answers

variable {α β : Type} {v : View}

/-- On every tree that shows `v`, the action ends with `o` and changes nothing but the counters of
slots read. -/
def Answers (x : TreeAction α) (v : View) (o : Except Failure α) : Prop :=
  ∀ t : Tree, t.view = v → ∃ i j, Action.answer (x t) = o ∧ Action.finalState (x t) = t.addReads i j

theorem Answers.of_ok {x : TreeAction α} {a : α}
    (h : ∀ t : Tree, t.view = v → ∃ i j, x t = .ok a (t.addReads i j)) : Answers x v (.ok a) := by
  intro t ht
  obtain ⟨i, j, hx⟩ := h t ht
  exact ⟨i, j, by rw [hx]; rfl, by rw [hx]; rfl⟩

theorem Answers.run_ok {x : TreeAction α} {a : α} (h : Answers x v (.ok a)) {t : Tree}
    (ht : t.view = v) : ∃ i j, x t = .ok a (t.addReads i j) := by
  obtain ⟨i, j, ha, hs⟩ := h t ht
  cases hx : x t with
  | error e s => rw [hx] at ha; cases ha
  | ok b s =>
    rw [hx] at ha hs
    cases ha
    exact ⟨i, j, congrArg _ hs⟩

theorem Answers.run_error {x : TreeAction α} {e : Failure} (h : Answers x v (.error e)) {t : Tree}
    (ht : t.view = v) : ∃ i j, x t = .error e (t.addReads i j) := by
  obtain ⟨i, j, ha, hs⟩ := h t ht
  cases hx : x t with
  | ok b s => rw [hx] at ha; cases ha
  | error e s =>
    rw [hx] at ha hs
    cases ha
    exact ⟨i, j, congrArg _ hs⟩

theorem Answers.answer_eq {x : TreeAction α} {o : Except Failure α} (h : Answers x v o) {t : Tree}
    (ht : t.view = v) : Action.answer (x t) = o := by
  obtain ⟨i, j, ha, -⟩ := h t ht
  exact ha

theorem answers_pure (a : α) : Answers (pure a) v (.ok a) := fun t _ =>
  ⟨0, 0, rfl, (addReads_zero t).symm⟩

theorem answers_fail (e : Error) : Answers (Action.fail e : TreeAction α) v (.error (.error e)) :=
  fun t _ => ⟨0, 0, rfl, (addReads_zero t).symm⟩

theorem answers_ofExcept {x : Except Error α} {a : α} (h : x = .ok a) :
    Answers (Action.ofExcept x) v (.ok a) := by
  rw [h]
  exact answers_pure a

theorem answers_ofExcept_error (e : Error) :
    Answers (Action.ofExcept (.error e) : TreeAction α) v (.error (.error e)) :=
  answers_fail e

theorem Answers.bind {x : TreeAction α} {f : α → TreeAction β} {a : α} {o : Except Failure β}
    (hx : Answers x v (.ok a)) (hf : Answers (f a) v o) : Answers (x >>= f) v o := by
  intro t ht
  obtain ⟨i, j, hx⟩ := hx.run_ok ht
  obtain ⟨i', j', ho, hs⟩ := hf (t.addReads i j) ht
  refine ⟨i + i', j + j', ?_, ?_⟩
  · rw [Action.run_bind, hx]
    exact ho
  · rw [Action.run_bind, hx, ← addReads_addReads]
    exact hs

theorem Answers.bind_error {x : TreeAction α} {f : α → TreeAction β} {e : Failure}
    (hx : Answers x v (.error e)) : Answers (x >>= f) v (.error e) := by
  intro t ht
  obtain ⟨i, j, hx⟩ := hx.run_error ht
  refine ⟨i, j, ?_, ?_⟩ <;> rw [Action.run_bind, hx] <;> rfl

/-- What is done with the tree itself. -/
theorem answers_get_bind {f : Tree → TreeAction β} {o : Except Failure β}
    (h : ∀ t : Tree, t.view = v → Answers (f t) v o) : Answers (get >>= f) v o := fun t ht =>
  h t ht t ht

/-- On every tree that shows `v`, the action answers `a` after reading `i` pages and `j` records, and
changes nothing but their counters. -/
def AnswersIn (x : TreeAction α) (v : View) (a : α) (i j : UInt64) : Prop :=
  ∀ t : Tree, t.view = v → x t = .ok a (t.addReads i j)

section AnswersIn

variable {x : TreeAction α} {f : α → TreeAction β} {a : α} {b : β} {i j i' j' : UInt64}

theorem AnswersIn.answers (h : AnswersIn x v a i j) : Answers x v (.ok a) :=
  .of_ok fun t ht => ⟨i, j, h t ht⟩

theorem answersIn_pure (a : α) : AnswersIn (pure a) v a 0 0 := fun t _ => by
  rw [addReads_zero, Action.run_pure]

theorem answersIn_get_bind {f : Tree → TreeAction β}
    (h : ∀ t : Tree, t.view = v → AnswersIn (f t) v b i j) : AnswersIn (get >>= f) v b i j :=
  fun t ht => h t ht t ht

/-- One action after another reads what both of them read. -/
theorem AnswersIn.bind (hx : AnswersIn x v a i j) (hf : AnswersIn (f a) v b i' j') :
    AnswersIn (x >>= f) v b (i + i') (j + j') := by
  intro t ht
  rw [Action.run_bind, hx t ht, ← addReads_addReads]
  exact hf (t.addReads i j) ht

theorem AnswersIn.bind_free (hx : AnswersIn x v a i j) (hf : AnswersIn (f a) v b 0 0) :
    AnswersIn (x >>= f) v b i j := by
  simpa only [UInt64.add_zero] using hx.bind hf

theorem AnswersIn.free_bind (hx : AnswersIn x v a 0 0) (hf : AnswersIn (f a) v b i j) :
    AnswersIn (x >>= f) v b i j := by
  simpa only [UInt64.zero_add] using hx.bind hf

/-- The pages are read first. -/
theorem AnswersIn.bind_pages (hx : AnswersIn x v a i 0) (hf : AnswersIn (f a) v b i' j) :
    AnswersIn (x >>= f) v b (i + i') j := by
  simpa only [UInt64.zero_add] using hx.bind hf

theorem AnswersIn.map (hx : AnswersIn x v a i j) (f : α → β) :
    AnswersIn (f <$> x) v (f a) i j := by
  rw [map_eq_pure_bind]
  exact hx.bind_free (answersIn_pure (f a))

theorem answersIn_fetchNode {p : PageId} {n : Node} (h : v.node p = some n) :
    AnswersIn (fetchNode p) v n 1 0 := by
  intro t ht
  rw [← ht] at h
  exact fetchNode_eq_ok_iff.2 ⟨h, rfl⟩

theorem answersIn_fetchRecord {id : RecordId} {r : Record} (h : v.record id = some r) :
    AnswersIn (onRecords (RecordFile.fetch id)) v r 0 1 := by
  intro t ht
  rw [← ht] at h
  exact fetchRecord_eq_ok_iff.2 ⟨h, rfl⟩

end AnswersIn

theorem answers_fetchNode {p : PageId} {n : Node} (h : v.node p = some n) :
    Answers (fetchNode p) v (.ok n) :=
  (answersIn_fetchNode h).answers

theorem answers_fetchLeaf {p : PageId} {l : Leaf} (h : v.node p = some (.leaf l)) :
    Answers (fetchLeaf p) v (.ok l) :=
  (answers_fetchNode h).bind (answers_pure l)

theorem answers_fetchInternal {p : PageId} {n : Internal} (h : v.node p = some (.internal n)) :
    Answers (fetchInternal p) v (.ok n) :=
  (answers_fetchNode h).bind (answers_pure n)

theorem answers_fetchRecord {id : RecordId} {r : Record} (h : v.record id = some r) :
    Answers (onRecords (RecordFile.fetch id)) v (.ok r) :=
  (answersIn_fetchRecord h).answers

end Answers

/-! ### What every view shows -/

end Tree

namespace View

/-- The page is there for a node. -/
def HasPage (v : View) (p : PageId) : Prop := p ≠ .header ∧ p.number.toNat < v.pageCount

/-- What every view shows (`Tree.valid_view`): a node can be written again to the page that it is
read from, and a record is in a slot of the file. -/
structure Valid (v : View) : Prop where
  page_eq : ∀ {p n}, v.node p = some n → n.page = p
  hasPage : ∀ {p n}, v.node p = some n → v.HasPage p
  encodable : ∀ {p n}, v.node p = some n → n.Encodable
  record_lt : ∀ {id r}, v.record id = some r → id.number.toNat < v.recordCount
  exists_recordSize : ∀ {id r}, v.record id = some r → ∃ n, v.recordSize = some n

end View

theorem SlotFile.lt_count_of_block? {f : SlotFile} {slot : UInt64} {b : Bytes}
    (h : f.block? slot = some b) : slot < f.count := by
  unfold block? at h
  split at h
  · split_ifs at h with hs
    exact hs.1
  · cases h

theorem Tree.valid_view (t : Tree) : t.view.Valid := by
  have hnode : ∀ {p n}, t.node? p = some n → n.page = p ∧ t.view.HasPage p ∧ n.Encodable := by
    intro p n h
    unfold Tree.node? PageFile.page? at h
    split_ifs at h with hp
    obtain ⟨page, hpage, h⟩ := Option.bind_eq_some_iff.1 h
    obtain ⟨b, hb, -⟩ := Option.bind_eq_some_iff.1 hpage
    obtain ⟨hn, hid⟩ := Option.filter_eq_some_iff.1 h
    refine ⟨of_decide_eq_true hid, ⟨fun he => hp (by rw [he]; rfl), ?_⟩,
      Node.encodable_of_ofPage (toOption_eq_some_iff.1 hn)⟩
    exact UInt64.lt_iff_toNat_lt.1 (SlotFile.lt_count_of_block? hb)
  have hrecord : ∀ {id r}, t.view.record id = some r →
      ∃ b, t.store.records.block? id.number = some b := by
    intro id r h
    obtain ⟨b, hb, -⟩ := Option.bind_eq_some_iff.1 (show RecordFile.record? _ id = some r from h)
    exact ⟨b, hb⟩
  refine ⟨fun h => (hnode h).1, fun h => (hnode h).2.1, fun h => (hnode h).2.2, fun h => ?_,
    fun h => ?_⟩
  · obtain ⟨b, hb⟩ := hrecord h
    exact UInt64.lt_iff_toNat_lt.1 (SlotFile.lt_count_of_block? hb)
  · obtain ⟨b, hb⟩ := hrecord h
    obtain ⟨l, hl⟩ := SlotFile.exists_layout_of_block? hb
    refine ⟨l.slotSize.toNat, ?_⟩
    show (t.store.records.layout.map _).map _ = _
    rw [hl]
    rfl

end RecordIndex
