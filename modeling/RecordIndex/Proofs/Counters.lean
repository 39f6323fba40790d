import RecordIndex.Proofs.Runs
import RecordIndex.Proofs.Dictionary
import RecordIndex.Tree.Audit

/-!
# Nothing depends on the counters

The counters of slots are only ever added to, and nobody looks at them but to see whether they have
changed. So a tree whose counters differ by some amount does the same, and its counters differ by
that amount afterwards.

* `Action.Commutes f x`: making the change `f` before the action is the same as making it
  afterwards.
* `Tree.tally n t` is the tree with more slots counted, and `Call.commutes_run` what it does.
-/

namespace RecordIndex

namespace Action

variable {σ τ α β : Type} {f : σ → σ}

/-- The outcome with a change of the state that is left. -/
def mapState (f : σ → σ) : Outcome σ α → Outcome σ α
  | .ok a s => .ok a (f s)
  | .error e s => .error e (f s)

/-- The action does not look at what `f` changes, and changes it in no other way. -/
def Commutes (f : σ → σ) (x : Action σ α) : Prop := ∀ s, x (f s) = mapState f (x s)

theorem Commutes.answer_eq {x : Action σ α} (h : Commutes f x) (s : σ) :
    answer (x (f s)) = answer (x s) := by
  rw [h s]
  cases x s <;> rfl

theorem Commutes.finalState_eq {x : Action σ α} (h : Commutes f x) (s : σ) :
    finalState (x (f s)) = f (finalState (x s)) := by
  rw [h s]
  cases x s <;> rfl

theorem commutes_pure (a : α) : Commutes f (pure a) := fun _ => rfl

theorem commutes_fail (e : Error) : Commutes f (fail e : Action σ α) := fun _ => rfl

theorem commutes_fault (e : Fault) : Commutes f (fault e : Action σ α) := fun _ => rfl

theorem commutes_ofExcept (x : Except Error α) : Commutes f (ofExcept x) := by
  cases x <;> exact fun _ => rfl

theorem commutes_ofResult (x : Except Failure α) : Commutes f (ofResult x) := by
  cases x <;> exact fun _ => rfl

theorem commutes_ofChecked (x : Except Fault α) : Commutes f (ofChecked x) := by
  cases x <;> exact fun _ => rfl

theorem commutes_modify {u : σ → σ} (h : ∀ s, u (f s) = f (u s)) : Commutes f (modify u) := by
  intro s
  rw [run_modify, run_modify, h]
  rfl

theorem Commutes.bind {x : Action σ α} {g : α → Action σ β} (hx : Commutes f x)
    (hg : ∀ a, Commutes f (g a)) : Commutes f (x >>= g) := by
  intro s
  rw [run_bind, run_bind, hx s]
  cases x s with
  | ok a s => exact hg a s
  | error e s => rfl

theorem Commutes.map {x : Action σ α} (hx : Commutes f x) (g : α → β) : Commutes f (g <$> x) := by
  rw [map_eq_pure_bind]
  exact hx.bind fun a => commutes_pure (g a)

/-- What is done with the state itself must not look at what is changed. -/
theorem commutes_get_bind {g : σ → Action σ β} (h : ∀ s, g (f s) = g s)
    (hg : ∀ s, Commutes f (g s)) : Commutes f (get >>= g) := by
  intro s
  rw [run_bind, run_bind, run_get, run_get]
  dsimp only
  rw [h s]
  exact hg s s

theorem commutes_forM {g : β → Action σ Unit} (bs : List β) (h : ∀ b, Commutes f (g b)) :
    Commutes f (bs.forM g) := by
  rw [List.forM_eq_forM]
  induction bs with
  | nil => exact commutes_pure _
  | cons b bs ih =>
    rw [List.forM_cons]
    exact (h b).bind fun _ => ih

theorem commutes_mapM {g : α → Action σ β} (a? : Option α) (h : ∀ a, Commutes f (g a)) :
    Commutes f (a?.mapM g) := by
  cases a? with
  | none => exact commutes_pure _
  | some a => exact (h a).map some

/-- An action on a part. -/
theorem Commutes.within {part : σ → τ} {setPart : τ → σ → σ} {g : τ → τ} {x : Action τ α}
    (hx : Commutes g x) (hpart : ∀ s, part (f s) = g (part s))
    (hset : ∀ t s, setPart (g t) (f s) = f (setPart t s)) :
    Commutes f (within part setPart x) := by
  intro s
  rw [run_within, run_within, hpart, hx]
  cases x (part s) with
  | ok a t => exact congrArg _ (hset t s)
  | error e t => exact congrArg _ (hset t s)

end Action

open RecordIndex.Action

/-- The counters with others added. -/
def SlotCounters.add (s n : SlotCounters) : SlotCounters :=
  ⟨s.reads + n.reads, s.appended + n.appended, s.updated + n.updated, s.deleted + n.deleted⟩

namespace SlotCounters

theorem add_right_comm (a b c : UInt64) : a + b + c = a + c + b := by
  ac_rfl

theorem add_addReads (s n : SlotCounters) (k : UInt64) :
    (s.add n).addReads k = (s.addReads k).add n := by
  rw [add, add, addReads, addReads, add_right_comm]

theorem add_addAppended (s n : SlotCounters) (k : UInt64) :
    (s.add n).addAppended k = (s.addAppended k).add n := by
  rw [add, add, addAppended, addAppended, add_right_comm]

theorem add_addUpdated (s n : SlotCounters) (k : UInt64) :
    (s.add n).addUpdated k = (s.addUpdated k).add n := by
  rw [add, add, addUpdated, addUpdated, add_right_comm]

theorem add_addDeleted (s n : SlotCounters) (k : UInt64) :
    (s.add n).addDeleted k = (s.addDeleted k).add n := by
  rw [add, add, addDeleted, addDeleted, add_right_comm]

theorem writes_add (s n : SlotCounters) : (s.add n).writes = s.writes + n.writes := by
  simp only [writes, add]
  ac_rfl

/-- Some slots lie between any two counters, since they count round. -/
theorem exists_add (s s' : SlotCounters) : ∃ n, s.add n = s' := by
  refine ⟨⟨s'.reads - s.reads, s'.appended - s.appended, s'.updated - s.updated,
    s'.deleted - s.deleted⟩, ?_⟩
  have hadd : ∀ a b : UInt64, a + (b - a) = b := fun a b => by
    rw [UInt64.add_comm, UInt64.sub_add_cancel]
  simp only [add, hadd]

end SlotCounters

namespace SlotFile

variable {n : SlotCounters}

/-- The file with more slots counted. -/
def tally (n : SlotCounters) (f : SlotFile) : SlotFile := { f with counters := f.counters.add n }

theorem commutes_readBytes (pos : UInt64) (k : Nat) : Commutes (tally n) (readBytes pos k) := by
  unfold readBytes
  split_ifs
  · exact commutes_fail _
  · refine commutes_get_bind (fun _ => rfl) fun f => ?_
    cases f.bytes.read? pos.toNat k with
    | none => exact commutes_fail _
    | some bs => exact commutes_pure bs

theorem commutes_writeBytes (pos : UInt64) (bs : Bytes) :
    Commutes (tally n) (writeBytes pos bs) := by
  unfold writeBytes
  split_ifs
  · exact commutes_fail _
  · exact commutes_modify fun _ => rfl

theorem commutes_layoutFor (slot : UInt64) : Commutes (tally n) (layoutFor slot) := by
  refine commutes_get_bind (fun _ => rfl) fun f => ?_
  cases f.layout with
  | none => exact commutes_fail _
  | some l =>
    dsimp only
    split_ifs
    · exact commutes_pure l
    · exact commutes_fail _

theorem commutes_checkLength (l : SlotLayout) (k : Nat) :
    Commutes (tally n) (checkLength l k) := by
  unfold checkLength
  split_ifs
  · exact commutes_pure ()
  · exact commutes_fail _

theorem commutes_layOut (l : SlotLayout) : Commutes (tally n) (layOut l) := by
  intro f
  unfold layOut
  split_ifs
  · rfl
  · rw [run_bind, run_bind, run_get, run_get]
    dsimp only
    by_cases h : (f.bytes.length - l.dataStart.toNat) % l.slotSize.toNat ≠ 0
    · have h' : ((tally n f).bytes.length - l.dataStart.toNat) % l.slotSize.toNat ≠ 0 := h
      rw [if_pos h, if_pos h']
      rfl
    · have h' : ¬ ((tally n f).bytes.length - l.dataStart.toNat) % l.slotSize.toNat ≠ 0 := h
      rw [if_neg h, if_neg h']
      rfl

theorem commutes_readExactly (slot : UInt64) (k : Nat) :
    Commutes (tally n) (readExactly slot k) := by
  refine (commutes_layoutFor slot).bind fun l => ?_
  refine (commutes_checkLength l k).bind fun _ => ?_
  refine (commutes_readBytes _ k).bind fun bs => ?_
  refine (commutes_modify fun f => ?_).bind fun _ => commutes_pure bs
  rw [tally, tally, SlotCounters.add_addReads]

theorem commutes_read (slot : UInt64) : Commutes (tally n) (read slot) :=
  (commutes_layoutFor slot).bind fun _ => commutes_readExactly slot _

theorem commutes_write (slot : UInt64) (bs : Bytes) : Commutes (tally n) (write slot bs) := by
  refine (commutes_layoutFor slot).bind fun l => ?_
  refine (commutes_checkLength l _).bind fun _ => ?_
  refine (commutes_writeBytes _ bs).bind fun _ => commutes_modify fun f => ?_
  rw [tally, tally, SlotCounters.add_addUpdated]

theorem commutes_append (bs : Bytes) : Commutes (tally n) (append bs) := by
  refine commutes_get_bind (fun _ => rfl) fun f => ?_
  cases f.layout with
  | none => exact commutes_fail _
  | some l =>
    refine (commutes_checkLength l _).bind fun _ => ?_
    refine (commutes_writeBytes _ bs).bind fun _ => ?_
    refine (commutes_modify fun f => ?_).bind fun _ => commutes_pure _
    rw [tally, tally, SlotCounters.add_addAppended]

theorem commutes_zero (slot : UInt64) : Commutes (tally n) (zero slot) := by
  refine (commutes_layoutFor slot).bind fun l => ?_
  refine (commutes_writeBytes _ _).bind fun _ => commutes_modify fun f => ?_
  rw [tally, tally, SlotCounters.add_addDeleted]

theorem commutes_clear : Commutes (tally n) clear := commutes_modify fun _ => rfl

end SlotFile

namespace PageFile

variable {n : SlotCounters}

theorem commutes_grow : Commutes (SlotFile.tally n) grow := (SlotFile.commutes_append _).map _

theorem commutes_fetch (p : PageId) : Commutes (SlotFile.tally n) (fetch p) :=
  (SlotFile.commutes_readExactly _ _).bind fun _ => commutes_ofExcept _

theorem commutes_put (p : PageId) (page : Page) : Commutes (SlotFile.tally n) (put p page) :=
  SlotFile.commutes_write _ _

theorem commutes_erase (p : PageId) : Commutes (SlotFile.tally n) (erase p) :=
  SlotFile.commutes_zero _

end PageFile

namespace RecordFile

variable {n : SlotCounters}

theorem commutes_requireSize (k : Nat) : Commutes (SlotFile.tally n) (requireSize k) := by
  refine commutes_get_bind (fun _ => rfl) fun f => ?_
  cases f.slotSize? with
  | none => exact commutes_pure ()
  | some size =>
    dsimp only
    split_ifs
    · exact commutes_pure ()
    · exact commutes_fail _

theorem commutes_fixSize (k : Nat) : Commutes (SlotFile.tally n) (fixSize k) := by
  unfold fixSize
  split_ifs
  · exact commutes_fail _
  · exact commutes_fail _
  · exact (SlotFile.commutes_writeBytes _ _).bind fun _ => SlotFile.commutes_layOut _

theorem commutes_appendBlock (bs : Bytes) : Commutes (SlotFile.tally n) (appendBlock bs) := by
  refine commutes_get_bind (fun _ => rfl) fun f => ?_
  have happend : Commutes (SlotFile.tally n) (RecordId.mk <$> SlotFile.append bs) :=
    (SlotFile.commutes_append bs).map _
  split_ifs
  · exact (commutes_fixSize _).bind fun _ => happend
  · exact happend

theorem commutes_add (r : Record) : Commutes (SlotFile.tally n) (add r) := by
  refine (commutes_ofChecked _).bind fun bs => ?_
  exact (commutes_requireSize _).bind fun _ => commutes_appendBlock bs

theorem commutes_fetch (id : RecordId) : Commutes (SlotFile.tally n) (fetch id) :=
  (SlotFile.commutes_read _).bind fun _ => commutes_ofExcept _

theorem commutes_replace (id : RecordId) (r : Record) :
    Commutes (SlotFile.tally n) (replace id r) :=
  (commutes_ofChecked _).bind fun _ => SlotFile.commutes_write _ _

theorem commutes_erase (id : RecordId) : Commutes (SlotFile.tally n) (erase id) :=
  SlotFile.commutes_zero _

theorem commutes_clear : Commutes (SlotFile.tally n) clear :=
  SlotFile.commutes_clear.bind fun _ => commutes_modify fun _ => rfl

end RecordFile

/-- The store with more slots counted. -/
def Store.tally (n : StoreCounters) (s : Store) : Store :=
  { s with index := s.index.tally n.index, records := s.records.tally n.records }

namespace Tree

variable {n : StoreCounters}

/-- The tree with more slots counted. -/
def tally (n : StoreCounters) (t : Tree) : Tree := { t with store := t.store.tally n }

theorem tally_zero (t : Tree) : t.tally ⟨.zero, .zero⟩ = t := by
  simp [tally, Store.tally, SlotFile.tally, SlotCounters.add, SlotCounters.zero]

/-! ### Pages and nodes -/

theorem commutes_onIndex {α : Type} {x : SlotAction α} (hx : Commutes (SlotFile.tally n.index) x) :
    Commutes (tally n) (onIndex x) := by
  have hstore : Commutes (Store.tally n) (Store.onIndex x) :=
    hx.within (fun _ => rfl) fun _ _ => rfl
  exact hstore.within (fun _ => rfl) fun _ _ => rfl

theorem commutes_onRecords {α : Type} {x : SlotAction α}
    (hx : Commutes (SlotFile.tally n.records) x) : Commutes (tally n) (onRecords x) := by
  have hstore : Commutes (Store.tally n) (Store.onRecords x) :=
    hx.within (fun _ => rfl) fun _ _ => rfl
  exact hstore.within (fun _ => rfl) fun _ _ => rfl

theorem commutes_fetchNode (p : PageId) : Commutes (tally n) (fetchNode p) := by
  unfold fetchNode
  split_ifs
  · exact commutes_fail _
  · refine (commutes_onIndex (PageFile.commutes_fetch p)).bind fun page => ?_
    refine (commutes_ofExcept _).bind fun node => ?_
    split_ifs
    · exact commutes_pure node
    · exact commutes_fail _

theorem commutes_fetchLeaf (p : PageId) : Commutes (tally n) (fetchLeaf p) :=
  (commutes_fetchNode p).bind fun _ => commutes_ofExcept _

theorem commutes_fetchInternal (p : PageId) : Commutes (tally n) (fetchInternal p) :=
  (commutes_fetchNode p).bind fun _ => commutes_ofExcept _

theorem commutes_putLeaf (l : Leaf) : Commutes (tally n) (putLeaf l) :=
  (commutes_ofResult _).bind fun _ => commutes_onIndex (PageFile.commutes_put _ _)

theorem commutes_putInternal (m : Internal) : Commutes (tally n) (putInternal m) :=
  (commutes_ofResult _).bind fun _ => commutes_onIndex (PageFile.commutes_put _ _)

theorem commutes_newPage : Commutes (tally n) newPage := commutes_onIndex PageFile.commutes_grow

theorem commutes_releasePage (p : PageId) : Commutes (tally n) (releasePage p) :=
  commutes_onIndex (PageFile.commutes_erase p)

theorem commutes_relink (p : PageId) (parent : Option PageId) :
    Commutes (tally n) (relink p parent) := by
  refine (commutes_onIndex (PageFile.commutes_fetch p)).bind fun page => ?_
  exact (commutes_ofExcept _).bind fun _ => commutes_onIndex (PageFile.commutes_put _ _)

theorem commutes_relinkAll (ps : List PageId) (parent : Option PageId) :
    Commutes (tally n) (relinkAll ps parent) :=
  commutes_forM ps fun p => commutes_relink p parent

theorem commutes_moveRoot (p : PageId) : Commutes (tally n) (moveRoot p) := by
  refine commutes_get_bind (fun _ => rfl) fun t => ?_
  exact (commutes_onIndex (PageFile.commutes_put _ _)).bind fun _ => commutes_modify fun _ => rfl

theorem commutes_plantRoot : Commutes (tally n) plantRoot := by
  refine commutes_newPage.bind fun _ => commutes_newPage.bind fun root => ?_
  refine commutes_get_bind (fun _ => rfl) fun t => ?_
  exact (commutes_putLeaf _).bind fun _ => commutes_moveRoot root

/-! ### Lookups -/

theorem commutes_descend (next : Internal → Nat) (steps : Nat) (p : PageId) :
    Commutes (tally n) (descend next steps p) := by
  induction steps generalizing p with
  | zero => exact commutes_fault _
  | succ steps ih =>
    refine (commutes_fetchNode p).bind fun node => ?_
    cases node with
    | leaf l => exact commutes_pure (l, 0)
    | internal m =>
      exact (commutes_ofChecked _).bind fun child => (ih child).bind fun _ => commutes_pure _

theorem commutes_descendFromRoot (next : Internal → Nat) :
    Commutes (tally n) (descendFromRoot next) :=
  commutes_get_bind (fun _ => rfl) fun _ => commutes_descend _ _ _

theorem commutes_findLeaf (key : Field) : Commutes (tally n) (findLeaf key) :=
  (commutes_descendFromRoot _).map _

theorem commutes_height : Commutes (tally n) height :=
  (commutes_descendFromRoot _).bind fun _ => commutes_pure _

theorem commutes_isEmpty : Commutes (tally n) isEmpty := by
  refine commutes_get_bind (fun _ => rfl) fun t => (commutes_fetchNode _).bind fun node => ?_
  cases node <;> exact commutes_pure _

theorem commutes_requireKeyType (key : Field) : Commutes (tally n) (requireKeyType key) := by
  refine commutes_get_bind (fun _ => rfl) fun t => ?_
  dsimp only
  split_ifs
  · exact commutes_pure ()
  · exact commutes_fail _

theorem commutes_contains (key : Field) : Commutes (tally n) (contains key) :=
  (commutes_requireKeyType key).bind fun _ => (commutes_findLeaf key).bind fun _ => commutes_pure _

theorem commutes_lookup (key : Field) : Commutes (tally n) (lookup key) := by
  refine (commutes_requireKeyType key).bind fun _ => (commutes_findLeaf key).bind fun leaf => ?_
  cases Keys.indexOf? key leaf.keys with
  | none => exact commutes_pure none
  | some i =>
    refine (commutes_ofChecked _).bind fun id => ?_
    refine (commutes_onRecords (RecordFile.commutes_fetch id)).bind fun record => ?_
    split_ifs
    · exact commutes_pure _
    · exact commutes_fail _

/-! ### Checks -/

theorem commutes_auditEntries (l : Leaf) : Commutes (tally n) (auditEntries l) := by
  refine commutes_forM _ fun e => ?_
  refine (commutes_onRecords (RecordFile.commutes_fetch e.2)).bind fun record => ?_
  split_ifs
  · exact commutes_pure ()
  · exact commutes_fail _

theorem commutes_auditPlace (place : Place) (sum : TreeMeasures) :
    Commutes (tally n) (auditPlace place sum) := by
  refine (commutes_fetchNode _).bind fun node => commutes_get_bind (fun _ => rfl) fun t => ?_
  refine (commutes_ofExcept _).bind fun _ => ?_
  cases node with
  | leaf l =>
    exact (commutes_ofExcept _).bind fun _ => (commutes_auditEntries l).bind fun _ =>
      commutes_pure _
  | internal m => exact commutes_pure _

theorem commutes_auditPlaces (steps : Nat) (queue : List Place) (sum : TreeMeasures) :
    Commutes (tally n) (auditPlaces steps queue sum) := by
  induction steps generalizing queue sum with
  | zero =>
    cases queue with
    | nil => exact commutes_pure sum
    | cons place queue => exact commutes_fault _
  | succ steps ih =>
    cases queue with
    | nil => exact commutes_pure sum
    | cons place queue => exact (commutes_auditPlace place sum).bind fun _ => ih _ _

theorem commutes_audit : Commutes (tally n) audit :=
  commutes_get_bind (fun _ => rfl) fun _ => commutes_auditPlaces _ _ _

/-! ### Insertion -/

theorem commutes_splitLeafPage (l : Leaf) : Commutes (tally n) (splitLeafPage l) := by
  refine commutes_newPage.bind fun q => (commutes_ofChecked _).bind fun parts => ?_
  exact (commutes_putLeaf _).bind fun _ => (commutes_putLeaf _).bind fun _ => commutes_pure _

theorem commutes_splitInternalPage (m : Internal) : Commutes (tally n) (splitInternalPage m) := by
  refine commutes_newPage.bind fun q => (commutes_ofResult _).bind fun parts => ?_
  refine (commutes_putInternal _).bind fun _ => (commutes_putInternal _).bind fun _ => ?_
  exact (commutes_relinkAll _ _).bind fun _ => commutes_pure _

theorem commutes_addRoot (s : Split) : Commutes (tally n) (addRoot s) := by
  refine commutes_newPage.bind fun root => commutes_get_bind (fun _ => rfl) fun t => ?_
  refine (commutes_putInternal _).bind fun _ => (commutes_relink _ _).bind fun _ => ?_
  exact (commutes_relink _ _).bind fun _ => commutes_moveRoot root

theorem commutes_addRightHalf (parent : Internal) (s : Split) :
    Commutes (tally n) (addRightHalf parent s) := by
  unfold addRightHalf
  dsimp only
  split_ifs
  · exact commutes_ofChecked _
  · exact commutes_fail _

theorem commutes_attachSplit (steps : Nat) (s : Split) :
    Commutes (tally n) (attachSplit steps s) := by
  induction steps generalizing s with
  | zero => exact commutes_fault _
  | succ steps ih =>
    rw [attachSplit]
    cases s.parent with
    | none => exact commutes_addRoot s
    | some p =>
      refine (commutes_fetchInternal p).bind fun m =>
        (commutes_addRightHalf m s).bind fun parent => ?_
      split_ifs
      · exact commutes_putInternal parent
      · exact (commutes_splitInternalPage parent).bind ih

theorem commutes_addRecord (r : Record) : Commutes (tally n) (addRecord r) := by
  refine (commutes_findLeaf r.key).bind fun leaf => ?_
  split_ifs
  · exact commutes_fail _
  · refine (commutes_onRecords (RecordFile.commutes_add r)).bind fun id => ?_
    refine (commutes_ofChecked _).bind fun leaf => ?_
    split_ifs
    · exact commutes_putLeaf leaf
    · refine commutes_get_bind (fun _ => rfl) fun t => ?_
      exact (commutes_splitLeafPage leaf).bind fun s => commutes_attachSplit _ s

/-! ### Deletion -/

theorem commutes_siblings {α : Type} {readSibling : PageId → TreeAction α}
    (h : ∀ p, Commutes (tally n) (readSibling p)) (parent : Internal) (slot : Nat) :
    Commutes (tally n) (siblings readSibling parent slot) := by
  refine (commutes_mapM _ h).bind fun right => (commutes_mapM _ h).bind fun left => ?_
  exact commutes_pure (left, right)

theorem commutes_mergeLeafPages (parent : Internal) (left right : Leaf) :
    Commutes (tally n) (mergeLeafPages parent left right) := by
  refine (commutes_ofExcept _).bind fun slot => (commutes_ofChecked _).bind fun parts => ?_
  exact (commutes_putLeaf _).bind fun _ => (commutes_releasePage _).bind fun _ => commutes_pure _

theorem commutes_takeFromRightLeaf (parent : Internal) (leaf right : Leaf) :
    Commutes (tally n) (takeFromRightLeaf parent leaf right) := by
  refine (commutes_ofExcept _).bind fun slot => (commutes_ofChecked _).bind fun parts => ?_
  refine (commutes_ofChecked _).bind fun parent => (commutes_putLeaf _).bind fun _ => ?_
  exact (commutes_putLeaf _).bind fun _ => commutes_putInternal parent

theorem commutes_takeFromLeftLeaf (parent : Internal) (left leaf : Leaf) :
    Commutes (tally n) (takeFromLeftLeaf parent left leaf) := by
  refine (commutes_ofExcept _).bind fun slot => (commutes_ofExcept _).bind fun parts => ?_
  refine (commutes_ofChecked _).bind fun parent => (commutes_putLeaf _).bind fun _ => ?_
  exact (commutes_putLeaf _).bind fun _ => commutes_putInternal parent

theorem commutes_mergeInternalPages (parent left right : Internal) :
    Commutes (tally n) (mergeInternalPages parent left right) := by
  refine (commutes_ofExcept _).bind fun slot => (commutes_ofChecked _).bind fun parts => ?_
  refine (commutes_relinkAll _ _).bind fun _ => (commutes_putInternal _).bind fun _ => ?_
  exact (commutes_releasePage _).bind fun _ => commutes_pure _

theorem commutes_takeFromRightInternal (parent node right : Internal) :
    Commutes (tally n) (takeFromRightInternal parent node right) := by
  refine (commutes_ofExcept _).bind fun slot => (commutes_ofChecked _).bind fun separator => ?_
  refine (commutes_ofChecked _).bind fun parts => (commutes_ofChecked _).bind fun parent => ?_
  refine (commutes_relink _ _).bind fun _ => (commutes_putInternal _).bind fun _ => ?_
  exact (commutes_putInternal _).bind fun _ => commutes_putInternal parent

theorem commutes_takeFromLeftInternal (parent left node : Internal) :
    Commutes (tally n) (takeFromLeftInternal parent left node) := by
  refine (commutes_ofExcept _).bind fun slot => (commutes_ofChecked _).bind fun separator => ?_
  refine (commutes_ofExcept _).bind fun parts => (commutes_ofChecked _).bind fun parent => ?_
  refine (commutes_relink _ _).bind fun _ => (commutes_putInternal _).bind fun _ => ?_
  exact (commutes_putInternal _).bind fun _ => commutes_putInternal parent

theorem commutes_lowerRoot (root : Internal) : Commutes (tally n) (lowerRoot root) := by
  unfold lowerRoot
  split_ifs
  · exact commutes_putInternal root
  · refine (commutes_ofChecked _).bind fun child => (commutes_relink child none).bind fun _ => ?_
    exact (commutes_moveRoot child).bind fun _ => commutes_releasePage _

theorem commutes_mendInternal (steps : Nat) (node : Internal) :
    Commutes (tally n) (mendInternal steps node) := by
  induction steps generalizing node with
  | zero => exact commutes_fault _
  | succ steps ih =>
    rw [mendInternal]
    cases node.parent with
    | none => exact commutes_lowerRoot node
    | some p =>
      dsimp only
      split_ifs
      · exact commutes_putInternal node
      · refine (commutes_fetchInternal p).bind fun parent =>
          (commutes_ofExcept _).bind fun slot => ?_
        refine (commutes_siblings commutes_fetchInternal parent slot).bind ?_
        rintro ⟨left, right⟩
        dsimp only
        cases Remedy.choose Internal.size minChildren maxChildren node left right with
        | none => exact commutes_fail _
        | some remedy =>
          cases remedy with
          | mergeRight right => exact (commutes_mergeInternalPages _ _ _).bind ih
          | mergeLeft left => exact (commutes_mergeInternalPages _ _ _).bind ih
          | borrowRight right => exact commutes_takeFromRightInternal _ _ _
          | borrowLeft left => exact commutes_takeFromLeftInternal _ _ _

theorem commutes_mendLeaf (steps : Nat) (p : PageId) (leaf : Leaf) :
    Commutes (tally n) (mendLeaf steps p leaf) := by
  refine (commutes_fetchInternal p).bind fun parent => (commutes_ofExcept _).bind fun slot => ?_
  refine (commutes_siblings commutes_fetchLeaf parent slot).bind ?_
  rintro ⟨left, right⟩
  dsimp only
  cases Remedy.choose Leaf.size minLeafKeys maxLeafKeys leaf left right with
  | none => exact commutes_fail _
  | some remedy =>
    cases remedy with
    | mergeRight right =>
      exact (commutes_mergeLeafPages _ _ _).bind fun m => commutes_mendInternal steps m
    | mergeLeft left =>
      exact (commutes_mergeLeafPages _ _ _).bind fun m => commutes_mendInternal steps m
    | borrowRight right => exact commutes_takeFromRightLeaf _ _ _
    | borrowLeft left => exact commutes_takeFromLeftLeaf _ _ _

theorem commutes_removeKey (key : Field) : Commutes (tally n) (removeKey key) := by
  refine (commutes_findLeaf key).bind fun leaf => ?_
  cases Keys.indexOf? key leaf.keys with
  | none => exact commutes_fail _
  | some i =>
    refine (commutes_ofChecked _).bind ?_
    rintro ⟨id, leaf⟩
    refine (commutes_onRecords (RecordFile.commutes_erase id)).bind fun _ => ?_
    cases leaf.parent with
    | none => exact commutes_putLeaf leaf
    | some p =>
      dsimp only
      split_ifs
      · exact commutes_putLeaf _
      · exact commutes_get_bind (fun _ => rfl) fun t => commutes_mendLeaf _ p _

/-! ### Changes -/

theorem leftHalfChanged_tally (before after : Tree) (e : Error) :
    leftHalfChanged (before.tally n) (after.tally n) e = leftHalfChanged before after e := by
  have hwrites : ∀ t : Tree,
      (t.tally n).store.counters.writes = t.store.counters.writes + n.writes := by
    intro t
    show (t.store.index.counters.add n.index).writes +
      (t.store.records.counters.add n.records).writes = _
    rw [SlotCounters.writes_add, SlotCounters.writes_add, StoreCounters.writes,
      StoreCounters.writes]
    show _ = t.store.index.counters.writes + t.store.records.counters.writes + _
    ac_rfl
  have hne : ∀ a b c : UInt64, (a + c != b + c) = (a != b) := by
    intro a b c
    rw [Bool.eq_iff_iff, bne_iff_ne, bne_iff_ne, ne_eq, ne_eq, UInt64.add_left_inj]
  rw [leftHalfChanged, leftHalfChanged, hwrites, hwrites, hne]

theorem commutes_guarded {change : TreeAction Unit} (h : Commutes (tally n) change) :
    Commutes (tally n) (guarded change) := by
  intro t
  unfold guarded
  rw [h t]
  cases change t with
  | ok u s => rfl
  | error e s =>
    cases e with
    | fault f => rfl
    | error e =>
      simp only [mapState, leftHalfChanged_tally]
      rfl

theorem commutes_requireIntact : Commutes (tally n) requireIntact := by
  refine commutes_get_bind (fun _ => rfl) fun t => ?_
  split_ifs
  · exact commutes_fail _
  · exact commutes_pure _

theorem commutes_requireStorable (r : Record) : Commutes (tally n) (requireStorable r) := by
  refine (commutes_requireKeyType _).bind fun _ => (commutes_ofExcept _).bind fun _ => ?_
  exact commutes_onRecords (RecordFile.commutes_requireSize _)

theorem commutes_replaceRecord (r : Record) : Commutes (tally n) (replaceRecord r) := by
  refine (commutes_findLeaf r.key).bind fun leaf => ?_
  cases Keys.indexOf? r.key leaf.keys with
  | none => exact commutes_fail _
  | some i =>
    exact (commutes_ofChecked _).bind fun id =>
      commutes_onRecords (RecordFile.commutes_replace id r)

theorem commutes_insert (r : Record) : Commutes (tally n) (insert r) := by
  refine commutes_requireIntact.bind fun _ => (commutes_requireStorable r).bind fun _ => ?_
  exact commutes_guarded (commutes_addRecord r)

theorem commutes_update (r : Record) : Commutes (tally n) (update r) := by
  refine commutes_requireIntact.bind fun _ => (commutes_requireStorable r).bind fun _ => ?_
  exact commutes_guarded (commutes_replaceRecord r)

theorem commutes_delete (key : Field) : Commutes (tally n) (delete key) := by
  refine commutes_requireIntact.bind fun _ => (commutes_requireKeyType key).bind fun _ => ?_
  exact commutes_guarded (commutes_removeKey key)

theorem commutes_clear : Commutes (tally n) clear := by
  have hindex : Commutes (Store.tally n) (Store.onIndex SlotFile.clear) :=
    SlotFile.commutes_clear.within (fun _ => rfl) fun _ _ => rfl
  have hrecords : Commutes (Store.tally n) (Store.onRecords RecordFile.clear) :=
    RecordFile.commutes_clear.within (fun _ => rfl) fun _ _ => rfl
  have hstore : Commutes (Store.tally n) Store.clear := hindex.bind fun _ => hrecords
  have hrepair : Commutes (tally n) (modify fun t => { t with needsRepair := false }) :=
    commutes_modify fun _ => rfl
  refine Commutes.bind (hstore.within (fun _ => rfl) fun _ _ => rfl) fun _ => ?_
  exact hrepair.bind fun _ => commutes_plantRoot

end Tree

/-- A call answers the same whatever has been counted before. -/
theorem Call.commutes_run {n : StoreCounters} : ∀ c : Call, Commutes (Tree.tally n) c.run
  | .insert r => (Tree.commutes_insert r).map _
  | .update r => (Tree.commutes_update r).map _
  | .delete key => (Tree.commutes_delete key).map _
  | .find key => (Tree.commutes_lookup key).map _
  | .contains key => (Tree.commutes_contains key).map _
  | .isEmpty => Tree.commutes_isEmpty.map _
  | .clear => Tree.commutes_clear.map _

end RecordIndex
