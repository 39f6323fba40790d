import RecordIndex.Proofs.Costs
import RecordIndex.Proofs.Refinement
import RecordIndex.Tree.Audit

/-!
# Requests and their failures

What is asked of a tree, and what is left when that fails, whatever the files hold.

* `Change` is a change that is asked of a tree, and `Request` a change or a question.
* `Change.run_cases`: a change is refused, or it is made under guard.
* `Tree.Tries.guarded`: what a guarded change leaves if it fails.
* `Request.exists_addReads`: a tree that waits to be repaired keeps its bytes.
-/

namespace RecordIndex

open RecordIndex.Action

/-! ### Requests -/

/-- A change that is asked of a tree. -/
inductive Change where
  | insert (r : Record)
  | update (r : Record)
  | delete (key : Field)

namespace Change

/-- Makes the change. -/
def run : Change → TreeAction Unit
  | insert r => Tree.insert r
  | update r => Tree.update r
  | delete key => Tree.delete key

/-- The change cannot be asked of the tree: the key is of another type, or the record has no encoded
form or another size than the records of the tree. -/
def Refused (t : Tree) : Change → Prop
  | insert r | update r => r.key.type ≠ t.keyType ∨ r.validate ≠ .ok () ∨
      ∃ size, t.store.records.slotSize? = some size ∧ size.toNat ≠ r.size
  | delete key => key.type ≠ t.keyType

/-- Looks whether the change can be asked of the tree. -/
def check : Change → TreeAction Unit
  | insert r | update r => Tree.requireStorable r
  | delete key => Tree.requireKeyType key

/-- Makes a change that can be asked of the tree. -/
def make : Change → TreeAction Unit
  | insert r => Tree.addRecord r
  | update r => Tree.replaceRecord r
  | delete key => Tree.removeKey key

theorem run_eq (c : Change) :
    c.run = Tree.requireIntact >>= fun _ => c.check >>= fun _ => Tree.guarded c.make := by
  cases c <;> rfl

/-- The record of a change that can be asked has an encoded form. -/
theorem tries_make {c : Change} {t : Tree} (h : ¬ c.Refused t) : Tree.Tries c.make := by
  cases c with
  | insert r => exact Tree.tries_addRecord (by_contra fun hr => h (.inr (.inl hr)))
  | update r => exact Tree.tries_replaceRecord (by_contra fun hr => h (.inr (.inl hr)))
  | delete key => exact Tree.tries_removeKey key

end Change

namespace Tree

/-- The failure is the refusal of a request. -/
def Refusal : Failure → Prop
  | .error e => e.isRefusal = true
  | .fault _ => False

theorem whole_requireKeyType (key : Field) (t : Tree) :
    Whole (requireKeyType key) t (fun _ t' => t' = t ∧ key.type = t.keyType) Refusal := by
  refine whole_get_bind ?_
  dsimp only
  split_ifs with h
  · exact whole_pure ⟨rfl, h⟩
  · exact whole_fail rfl

theorem whole_requireSize (n : Nat) (t : Tree) :
    Whole (onRecords (RecordFile.requireSize n)) t
      (fun _ t' => t' = t ∧ ∀ size, t.store.records.slotSize? = some size → size.toNat = n)
      Refusal := by
  refine (whole_onRecords (R := fun _ f => f = t.store.records ∧
    ∀ size, t.store.records.slotSize? = some size → size.toNat = n) ?_).mono ?_ fun _ h => h
  · refine whole_get_bind ?_
    cases t.store.records.slotSize? with
    | none => exact whole_pure ⟨rfl, nofun⟩
    | some size =>
      dsimp only
      split_ifs with h
      · exact whole_pure ⟨rfl, fun size' hsize => Option.some.inj hsize ▸ h⟩
      · exact whole_fail rfl
  · rintro - t' ⟨f, ⟨rfl, h⟩, rfl⟩
    exact ⟨rfl, h⟩

theorem whole_requireStorable (r : Record) (t : Tree) :
    Whole (requireStorable r) t (fun _ t' => t' = t ∧ ¬ (Change.insert r).Refused t) Refusal := by
  refine (whole_requireKeyType r.key t).bind fun _ hkey => ?_
  refine Whole.bind (P := fun _ => r.validate = .ok ()) ?_ fun _ hvalid => ?_
  · refine whole_ofExcept (fun _ h => ⟨rfl, h⟩) fun e h => ?_
    obtain ⟨cause, rfl⟩ := Record.exists_unencodable h
    rfl
  · refine (whole_requireSize r.size t).mono ?_ fun _ h => h
    rintro - t' ⟨rfl, hsize⟩
    refine ⟨rfl, ?_⟩
    rintro (h | h | ⟨size, h, hne⟩)
    · exact h hkey
    · exact h hvalid
    · exact hne (hsize size h)

end Tree

namespace Change

variable {c : Change} {t t' : Tree}

theorem whole_check (c : Change) (t : Tree) :
    Whole c.check t (fun _ t' => t' = t ∧ ¬ c.Refused t) Tree.Refusal := by
  cases c with
  | insert r => exact Tree.whole_requireStorable r t
  | update r => exact Tree.whole_requireStorable r t
  | delete key =>
    exact (Tree.whole_requireKeyType key t).mono (fun _ _ h => ⟨h.1, not_not.2 h.2⟩) fun _ h => h

/-- A tree that waits to be repaired lets no change in. -/
theorem run_of_needsRepair (h : t.needsRepair = true) :
    c.run t = .error (.error .needsRepair) t := by
  have hintact : Tree.requireIntact t = .error (.error .needsRepair) t := by
    rw [Tree.requireIntact, run_bind, run_get]
    simp only [h, if_true]
    rfl
  rw [run_eq, run_bind, hintact]

/-- An intact tree looks whether the change can be asked of it, and makes it under guard. -/
theorem run_of_intact (c : Change) (h : t.needsRepair = false) :
    c.run t = (c.check >>= fun _ => Tree.guarded c.make) t := by
  have hintact : Tree.requireIntact t = .ok () t := by
    rw [Tree.requireIntact, run_bind, run_get]
    simp only [h, Bool.false_eq_true, if_false]
    rfl
  rw [run_eq, run_bind, hintact]

/-- A change that cannot be asked of the tree is refused, and any other is made under guard. -/
theorem run_cases (c : Change) (h : t.needsRepair = false) :
    (∃ e, e.isRefusal = true ∧ c.run t = .error (.error e) t) ∨
      ¬ c.Refused t ∧ c.run t = Tree.guarded c.make t := by
  rw [c.run_of_intact h, run_bind]
  cases hcheck : c.check t with
  | ok a t' =>
    obtain ⟨rfl, hnot⟩ := (whole_check c t).of_ok hcheck
    exact .inr ⟨hnot, rfl⟩
  | error e t' =>
    obtain ⟨rfl, he⟩ := (whole_check c t).of_error hcheck
    cases e with
    | error e => exact .inl ⟨e, he, rfl⟩
    | fault f => exact he.elim

end Change

/-- The guard marks the tree at most. -/
theorem Tree.finalState_guarded (x : TreeAction Unit) (t : Tree) :
    ∃ needsRepair, finalState (guarded x t) = { finalState (x t) with needsRepair } := by
  unfold guarded
  cases x t with
  | ok a u => exact ⟨u.needsRepair, rfl⟩
  | error e u =>
    cases e with
    | error e => exact ⟨u.needsRepair || leftHalfChanged t u e, rfl⟩
    | fault f => exact ⟨u.needsRepair, rfl⟩

/-- What a change leaves: the tree as it was, or what making the change leaves, perhaps marked. -/
theorem Change.finalState_run_cases (c : Change) (t : Tree) : finalState (c.run t) = t ∨
    ¬ c.Refused t ∧ ∃ needsRepair,
      finalState (c.run t) = { finalState (c.make t) with needsRepair } := by
  cases hrepair : t.needsRepair with
  | true => exact .inl (by rw [c.run_of_needsRepair hrepair]; rfl)
  | false =>
    rcases c.run_cases hrepair with ⟨e, -, hrun⟩ | ⟨hnot, hrun⟩
    · exact .inl (by rw [hrun]; rfl)
    · exact .inr ⟨hnot, hrun ▸ Tree.finalState_guarded c.make t⟩

namespace Tree

/-- What a guarded change leaves if it fails: some slots have been written, and the tree is marked
if there are any or if the file system has failed. -/
theorem Tries.guarded {x : TreeAction Unit} {t t' : Tree} {e : Error} (hx : Tries x)
    (ht : t.Opened) (h : guarded x t = .error (.error e) t') :
    ∃ k < 2 ^ 64, ∃ u, Writes k t u ∧ (0 < k → Failure.Midway (.error e)) ∧
      t' = { u with needsRepair := t.needsRepair || decide (0 < k) || e.isIo } := by
  obtain ⟨k, hk, hw, he⟩ := hx t ht
  cases hrun : x t with
  | ok a u =>
    simp only [Tree.guarded, hrun] at h
    cases h
  | error e' u =>
    rw [hrun] at hw he
    cases e' with
    | fault f =>
      simp only [Tree.guarded, hrun] at h
      cases h
    | error e' =>
      simp only [Tree.guarded, hrun] at h
      cases h
      have hrepair : u.needsRepair = t.needsRepair := (hw.wrote ht).2.2.1
      have hiff : u.store.counters.writes = t.store.counters.writes ↔ k = 0 :=
        hw.writes_eq_iff ht hk
      have hchanged : leftHalfChanged t u e = (e.isIo || decide (0 < k)) := by
        rw [leftHalfChanged, bne, Bool.eq_iff_iff]
        simp [hiff, Nat.pos_iff_ne_zero]
      refine ⟨k, hk, u, hw, he _ rfl, ?_⟩
      rw [hchanged, hrepair, Bool.or_assoc, Bool.or_comm e.isIo]

/-! ### Questions -/

section Questions

variable {z : Zone}

theorem costs_requireKeyType (key : Field) :
    Costs z (requireKeyType key) 0 (fun _ => True) fun _ => True := by
  refine costs_get_bind fun t _ => ?_
  dsimp only
  split_ifs
  · exact costs_pure trivial
  · exact costs_fail trivial

/-- Reading a record changes only the counters. It counts as read also if it cannot be decoded. -/
theorem finalState_fetchRecord (id : RecordId) (t : Tree) :
    ∃ j, finalState (onRecords (RecordFile.fetch id) t) = t.addReads 0 j := by
  have hread : ∃ j, finalState (RecordFile.fetch id t.store.records) =
      t.store.records.addReads j := by
    rw [RecordFile.fetch, run_bind]
    cases hx : SlotFile.read id.number t.store.records with
    | error e g =>
      obtain ⟨rfl, -⟩ := (SlotFile.whole_read id.number t.store.records).of_error hx
      exact ⟨0, (SlotFile.addReads_zero _).symm⟩
    | ok bs g =>
      obtain rfl := (SlotFile.whole_read id.number t.store.records).of_ok hx
      refine ⟨1, ?_⟩
      dsimp only
      cases Record.decode bs <;> rfl
  obtain ⟨j, hj⟩ := hread
  refine ⟨j, ?_⟩
  rw [onRecords, onStore, Store.onRecords, finalState_within, finalState_within, hj]
  exact addReads_records t j

theorem costs_fetchRecord (id : RecordId) :
    Costs z (onRecords (RecordFile.fetch id)) 0 (fun _ => True) fun _ => True := by
  intro t _ _
  obtain ⟨j, hj⟩ := finalState_fetchRecord id t
  have hwrites : WritesIn z 0 t (finalState (onRecords (RecordFile.fetch id) t)) :=
    hj ▸ (WritesIn.refl t).reads 0 j
  exact ⟨0, Nat.le_refl 0, hwrites, fun _ _ => trivial, fun _ _ => trivial⟩

/-- What is looked up, and what follows from the leaf that is found. -/
theorem costs_findLeaf_bind {α : Type} (key : Field) {f : Leaf → TreeAction α}
    (h : ∀ l, Costs z (f l) 0 (fun _ => True) fun _ => True) :
    Costs z (requireKeyType key >>= fun _ => findLeaf key >>= f) 0 (fun _ => True) fun _ => True := by
  refine (costs_requireKeyType key).read fun _ _ => ?_
  exact ((costs_findLeaf key).mono (Nat.le_refl 0) (fun _ h => h) fun _ _ => trivial).read
    fun l _ => h l

theorem costs_lookup (key : Field) : Costs z (lookup key) 0 (fun _ => True) fun _ => True := by
  refine costs_findLeaf_bind key fun leaf => ?_
  cases Keys.indexOf? key leaf.keys with
  | none => exact costs_pure trivial
  | some i =>
    refine (costs_ofChecked (fun _ _ => trivial) fun _ => trivial).read fun id (_ : True) => ?_
    refine (costs_fetchRecord id).read fun r _ => ?_
    split_ifs
    · exact costs_pure trivial
    · exact costs_fail trivial

theorem costs_contains (key : Field) : Costs z (contains key) 0 (fun _ => True) fun _ => True :=
  costs_findLeaf_bind key fun _ => costs_pure trivial

theorem costs_isEmpty : Costs z isEmpty 0 (fun _ => True) Failure.Midway := by
  refine costs_get_bind fun t _ => (costs_fetchNode t.root).read fun n _ => ?_
  cases n with
  | leaf l => exact costs_pure trivial
  | internal n => exact costs_pure trivial

theorem costs_height : Costs z height 0 (fun _ => True) Failure.Midway :=
  Costs.read (costs_get_bind fun _ _ => costs_descend _ _ _) fun _ _ => costs_pure trivial

theorem costs_auditEntries (l : Leaf) :
    Costs z (auditEntries l) 0 (fun _ => True) fun _ => True := by
  refine (costs_forM (n := 0) _ fun e _ => ?_).of_le (Nat.le_of_eq (Nat.mul_zero _))
  refine (costs_fetchRecord e.2).read fun r _ => ?_
  split_ifs
  · exact costs_pure trivial
  · exact costs_fail trivial

theorem costs_auditPlace (place : Place) (sum : TreeMeasures) :
    Costs z (auditPlace place sum) 0 (fun _ => True) fun _ => True := by
  have hcheck : ∀ x : Except Error Unit, Costs z (ofExcept x) 0 (fun _ => True) fun _ => True :=
    fun x => costs_ofExcept (fun _ _ => trivial) fun _ _ => trivial
  refine ((costs_fetchNode place.page).mono (Nat.le_refl 0) (fun _ h => h) fun _ _ => trivial).read
    fun n _ => costs_get_bind fun t _ => (hcheck _).read fun _ _ => ?_
  cases n with
  | leaf l =>
    exact (hcheck _).read fun _ _ => (costs_auditEntries l).read fun _ _ => costs_pure trivial
  | internal n => exact costs_pure trivial

theorem costs_auditPlaces (steps : Nat) (queue : List Place) (sum : TreeMeasures) :
    Costs z (auditPlaces steps queue sum) 0 (fun _ => True) fun _ => True := by
  induction steps generalizing queue sum with
  | zero =>
    cases queue with
    | nil => exact costs_pure trivial
    | cons place queue => exact costs_fault trivial
  | succ steps ih =>
    cases queue with
    | nil => exact costs_pure trivial
    | cons place queue => exact (costs_auditPlace place sum).read fun _ _ => ih _ _

theorem costs_audit : Costs z audit 0 (fun _ => True) fun _ => True :=
  costs_get_bind fun _ _ => costs_auditPlaces _ _ _

end Questions

end Tree

/-- A question that is asked of a tree. -/
inductive Question where
  | find (key : Field)
  | contains (key : Field)
  | isEmpty
  | leaf (key : Field)
  | height
  | node (p : PageId)
  | audit

/-- Asks the question, and drops the answer. -/
def Question.run : Question → TreeAction Unit
  | find key => (fun _ => ()) <$> Tree.lookup key
  | contains key => (fun _ => ()) <$> Tree.contains key
  | isEmpty => (fun _ => ()) <$> Tree.isEmpty
  | leaf key => (fun _ => ()) <$> Tree.findLeaf key
  | height => (fun _ => ()) <$> Tree.height
  | node p => (fun _ => ()) <$> Tree.fetchNode p
  | audit => (fun _ => ()) <$> Tree.audit

theorem Question.costs_run {z : Tree.Zone} (q : Question) :
    Tree.Costs z q.run 0 (fun _ => True) fun _ => True := by
  cases q with
  | find key => exact (Tree.costs_lookup key).map fun _ _ => trivial
  | contains key => exact (Tree.costs_contains key).map fun _ _ => trivial
  | isEmpty =>
    exact (Tree.costs_isEmpty.map fun _ _ => trivial).mono (Nat.le_refl 0) (fun _ h => h)
      fun _ _ => trivial
  | leaf key =>
    exact ((Tree.costs_findLeaf key).map fun _ _ => trivial).mono (Nat.le_refl 0) (fun _ h => h)
      fun _ _ => trivial
  | height =>
    exact (Tree.costs_height.map fun _ _ => trivial).mono (Nat.le_refl 0) (fun _ h => h)
      fun _ _ => trivial
  | node p =>
    exact ((Tree.costs_fetchNode p).map fun _ _ => trivial).mono (Nat.le_refl 0) (fun _ h => h)
      fun _ _ => trivial
  | audit => exact Tree.costs_audit.map fun _ _ => trivial

/-- Anything that is asked of a tree but to be cleared. -/
inductive Request where
  | change (c : Change)
  | question (q : Question)

namespace Request

/-- Does what is asked. -/
def run : Request → TreeAction Unit
  | change c => c.run
  | question q => q.run

/-- The tree that is left when one request after the other has been made, whether they fail or
not. -/
def leave (requests : List Request) (t : Tree) : Tree :=
  requests.foldl (fun t r => finalState (r.run t)) t

/-- A tree that waits to be repaired is only read, whatever is asked of it. -/
theorem exists_addReads (requests : List Request) {t : Tree} (ht : t.Opened)
    (h : t.needsRepair = true) : ∃ i j, leave requests t = t.addReads i j := by
  induction requests generalizing t with
  | nil => exact ⟨0, 0, (Tree.addReads_zero t).symm⟩
  | cons r requests ih =>
    have hstep : Tree.Writes 0 t (finalState (r.run t)) := by
      cases r with
      | change c =>
        have hrun : (change c).run t = .error (.error .needsRepair) t := c.run_of_needsRepair h
        rw [hrun]
        exact .refl t
      | question q =>
        obtain ⟨k, hk, hw, -⟩ := q.costs_run (z := .all) t ht (Nat.zero_le _)
        exact Nat.le_zero.1 hk ▸ hw
    obtain ⟨hopened, -, hrepair, -⟩ := hstep.wrote ht
    obtain ⟨i, j, hi⟩ := hstep.exists_addReads
    obtain ⟨i', j', hi'⟩ := ih hopened (hrepair.trans h)
    exact ⟨i + i', j + j', hi'.trans (hi ▸ Tree.addReads_addReads ..)⟩

end Request

end RecordIndex
