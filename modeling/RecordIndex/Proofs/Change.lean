import RecordIndex.Proofs.Deletion
import RecordIndex.Proofs.Dictionary
import RecordIndex.Proofs.Insertion
import RecordIndex.Proofs.Planting

/-!
# Changes to a well-formed tree

A request that makes no sense is refused, and then nothing has been written, so that the tree need
not be repaired. Any other change is made.

* `Tree.Ends x v Q`: so that `Q` holds of the answer or error and of what is shown then.
* `Tree.guarded`: a change at which the file system fails leaves the tree in need of repair.
* `Tree.answers_requireStorable`: which records are let in.
-/

namespace RecordIndex

namespace Tree

variable {α β : Type} {v : View}

/-- The tree is left as it was, but for the counters of slots read, unless the file system has
failed. -/
def Spares (t t' : Tree) (o : Except Error α) : Prop :=
  ∀ e, o = .error e → e.isIo = false → ∃ i j, t' = t.addReads i j

/-- Every tree that is in step and shows `v` is in step after the action, and `Q` holds of the
answer or error and of what the tree shows then. It never comes to a fault, and what is refused is
refused before anything has been written. -/
def Ends (x : TreeAction α) (v : View) (Q : Except Error α → View → Prop) : Prop :=
  ∀ t : Tree, t.Shows v → ∃ o v', Action.answer (x t) = o.mapError Failure.error ∧
    (Action.finalState (x t)).Shows v' ∧ Spares t (Action.finalState (x t)) o ∧ Q o v'

section Ends

variable {x : TreeAction α} {Q : Except Error α → View → Prop}

theorem Turns.ends {a : α} {v' : View} (h : Turns x v a v') (hQ : Q (.ok a) v') : Ends x v Q := by
  intro t ht
  obtain ⟨t', hx, ht'⟩ := h t ht
  rw [hx]
  exact ⟨.ok a, v', rfl, ht', fun e he => by (cases he), hQ⟩

theorem Answers.ends {e : Error} (h : Answers x v (.error (.error e))) (hQ : Q (.error e) v) :
    Ends x v Q := by
  intro t ht
  obtain ⟨i, j, ha, hs⟩ := h t ht.2
  exact ⟨.error e, v, ha, hs ▸ ⟨ht.1.addReads i j, ht.2⟩, fun _ _ _ => ⟨i, j, hs⟩, hQ⟩

theorem Yields.ends {P : α → View → Prop} {E : View → Prop} (h : Yields x v P E)
    (hP : ∀ a v', P a v' → Q (.ok a) v') (hE : ∀ e v', E v' → Q (.error (.io e)) v') :
    Ends x v Q := by
  intro t ht
  rcases h t ht with ⟨a, t', v', hx, ht', hp⟩ | ⟨cause, t', v', hx, ht', he⟩ <;> rw [hx]
  · exact ⟨.ok a, v', rfl, ht', fun e he => by (cases he), hP a v' hp⟩
  · refine ⟨.error (.io cause), v', rfl, ht', fun e he hio => ?_, hE cause v' he⟩
    cases he
    cases hio

theorem Ends.mono {Q' : Except Error α → View → Prop} (h : Ends x v Q)
    (hQ : ∀ o v', Q o v' → Q' o v') : Ends x v Q' := by
  intro t ht
  obtain ⟨o, v', ho, hs, hspares, hq⟩ := h t ht
  exact ⟨o, v', ho, hs, hspares, hQ o v' hq⟩

theorem ends_of_valid (h : v.Valid → Ends x v Q) : Ends x v Q := fun t ht => h ht.valid t ht

/-- The size of the records is never too large. -/
theorem InStep.recordSize_le {t : Tree} (h : t.InStep) {n : Nat} (hn : t.view.recordSize = some n) :
    n ≤ RecordFile.maxRecordSize := by
  have hsize : t.store.records.slotSize?.map (·.toNat) = some n := hn
  cases h.records with
  | unset hlayout hempty hcount =>
    rw [SlotFile.slotSize?, hlayout] at hsize
    cases hsize
  | set hpos hle hholds =>
    rw [SlotFile.slotSize?, hholds.layout_eq, Option.map_some, Option.map_some,
      Option.some.injEq] at hsize
    rw [← hsize]
    exact Nat.le_trans (Nat.mod_le _ _) hle

theorem ends_of_recordSize_le
    (h : (∀ n, v.recordSize = some n → n ≤ RecordFile.maxRecordSize) → Ends x v Q) :
    Ends x v Q := fun t ht =>
  h (fun _ hn => ht.1.recordSize_le (ht.2 ▸ hn)) t ht

/-- What is done after reading only. -/
theorem Answers.bind_ends {f : α → TreeAction β} {a : α} {Q : Except Error β → View → Prop}
    (hx : Answers x v (.ok a)) (hf : Ends (f a) v Q) : Ends (x >>= f) v Q := by
  intro t ht
  obtain ⟨i, j, hx⟩ := hx.run_ok ht.2
  obtain ⟨o, v', ho, hs, hspares, hq⟩ := hf (t.addReads i j) ⟨ht.1.addReads i j, ht.2⟩
  rw [Action.run_bind, hx]
  refine ⟨o, v', ho, hs, fun e he hio => ?_, hq⟩
  obtain ⟨i', j', heq⟩ := hspares e he hio
  exact ⟨i + i', j + j', heq.trans (addReads_addReads ..)⟩

/-- An answer that is put in another form. -/
theorem Ends.map {f : α → β} {Q : Except Error β → View → Prop}
    (h : Ends x v fun o v' => Q (o.map f) v') : Ends (f <$> x) v Q := by
  intro t ht
  obtain ⟨o, v', ho, hs, hspares, hq⟩ := h t ht
  rw [Action.run_map]
  refine ⟨o.map f, v', ?_, ?_, fun e he hio => ?_, hq⟩
  · cases hx : x t <;> rw [hx] at ho <;> cases o <;> cases ho <;> rfl
  · cases hx : x t <;> rw [hx] at hs <;> exact hs
  · cases o with
    | ok a => cases he
    | error e' =>
      obtain ⟨i, j, heq⟩ := hspares e' rfl (by cases he; exact hio)
      refine ⟨i, j, ?_⟩
      cases hx : x t <;> rw [hx] at heq <;> exact heq

end Ends

/-! ### Changes that fail half-way -/

section Guarded

variable {x : TreeAction Unit}

/-- A change that is refused without having written leaves no need of repair. -/
theorem Answers.guarded {e : Error} (h : Answers x v (.error (.error e))) (he : e.isIo = false) :
    Answers (guarded x) v (.error (.error e)) := by
  intro t ht
  obtain ⟨i, j, hx⟩ := h.run_error ht
  have hhalf : leftHalfChanged t (t.addReads i j) e = false := by
    rw [leftHalfChanged, he, Bool.false_or, bne_eq_false_iff_eq]
    rfl
  refine ⟨i, j, ?_, ?_⟩ <;> simp only [Tree.guarded, hx, hhalf, Bool.or_false] <;> rfl

/-- A change at which the file system fails leaves the tree in need of repair. -/
theorem Yields.guarded {Q : Unit → View → Prop} {E : View → Prop} (h : Yields x v Q E) :
    Yields (guarded x) v Q (fun v' => ∃ v₁, E v₁ ∧ v' = { v₁ with needsRepair := true }) := by
  intro t ht
  rcases h t ht with ⟨a, t', v', hx, ht', hq⟩ | ⟨e, t', v', hx, ht', he⟩
  · refine .inl ⟨a, t', v', ?_, ht', hq⟩
    simp only [Tree.guarded, hx]
  · refine .inr ⟨e, { t' with needsRepair := true }, { v' with needsRepair := true }, ?_,
      ⟨⟨ht'.1.index, ht'.1.records⟩, ?_⟩, v', he, rfl⟩
    · simp only [Tree.guarded, hx, leftHalfChanged, Error.isIo, Bool.true_or, Bool.or_true]
    · rw [← ht'.2]
      rfl

end Guarded

/-! ### Refusals -/

theorem answers_requireIntact (h : v.needsRepair = false) : Answers requireIntact v (.ok ()) := by
  refine answers_get_bind fun t ht => ?_
  have hrepair : t.needsRepair = false := by rw [← h, ← ht]; rfl
  rw [hrepair]
  exact answers_pure _

theorem answers_requireSize {n : Nat} (h : ∀ size, v.recordSize = some size → size = n) :
    Answers (onRecords (RecordFile.requireSize n)) v (.ok ()) := by
  refine .of_ok fun t ht => ⟨0, 0, onRecords_eq_ok_iff.2 ⟨t.store.records, ?_, ?_⟩⟩
  · have hsize : ∀ size, t.store.records.slotSize?.map (·.toNat) = some size → size = n := by
      rw [← ht] at h
      exact h
    rw [RecordFile.requireSize, Action.run_bind, Action.run_get]
    cases hl : t.store.records.slotSize? with
    | none =>
      simp only [hl]
      rfl
    | some size =>
      have hn : size.toNat = n := hsize _ (by rw [hl]; rfl)
      simp only [hl, if_pos hn]
      rfl
  · exact addReads_zero t

theorem refuses_requireSize {n size : Nat} (h : v.recordSize = some size) (hne : size ≠ n) :
    Answers (onRecords (RecordFile.requireSize n)) v
      (.error (.error (.slotSizeMismatch size n))) := by
  rintro t rfl
  have hsize : t.store.records.slotSize?.map (·.toNat) = some size := h
  obtain ⟨s, hs, rfl⟩ := Option.map_eq_some_iff.1 hsize
  have hx : RecordFile.requireSize n t.store.records =
      .error (.error (.slotSizeMismatch s.toNat n)) t.store.records := by
    rw [RecordFile.requireSize, Action.run_bind, Action.run_get]
    simp only [hs, if_neg hne]
    rfl
  refine ⟨0, 0, ?_, ?_⟩ <;> unfold onRecords onStore Store.onRecords <;>
    simp [Action.run_within, hx, Action.answer, Action.finalState]

/-- A record is let in exactly if the dictionary does not refuse it. -/
theorem answers_requireStorable {d : Dictionary} (htype : d.keyType = v.keyType)
    (hsize : d.recordSize = v.recordSize) (r : Record) :
    Answers (requireStorable r) v
      (match d.refusal r with | some e => .error (.error e) | none => .ok ()) := by
  unfold Dictionary.refusal
  rw [htype, hsize]
  split_ifs with hkey
  · exact (refuses_requireKeyType hkey).bind_error
  · refine (answers_requireKeyType (not_not.1 hkey)).bind ?_
    cases r.validate with
    | error e => exact (answers_ofExcept_error e).bind_error
    | ok u =>
      refine (answers_pure u).bind ?_
      cases hs : v.recordSize with
      | none => exact answers_requireSize fun n hn => by rw [hs] at hn; cases hn
      | some n =>
        dsimp only
        split_ifs with hn
        · exact answers_requireSize fun n' hn' => by rw [hs] at hn'; cases hn'; exact hn
        · exact refuses_requireSize hs hn

/-! ### Replacing a record -/

section Replace

variable {h : Nat} {s : Shape h} {r : Record}

theorem refuses_replaceRecord (hs : v.Shaped s) (hv : v.Valid)
    (hkey : r.key ∉ s.entries.map Prod.fst) :
    Answers (replaceRecord r) v (.error (.error (.notFound r.key))) := by
  obtain ⟨way, w, hplug, hway, hleaf⟩ := answers_findLeaf hs hv r.key
  subst hplug
  have hindex : Keys.indexOf? r.key (w.leaf v.keyType way.parent).keys = none :=
    (hway.indexOf?_eq_none_iff hs.ascending).2 hkey
  refine hleaf.bind ?_
  simp only [hindex]
  exact answers_fail _

theorem turns_replaceRecord (hs : v.HasShape s) (hv : v.Valid) {id : RecordId}
    (he : (r.key, id) ∈ s.entries) (hr : r.validate = .ok ()) (hsize : v.recordSize = some r.size) :
    Turns (replaceRecord r) v () (v.setRecord id (some r)) := by
  have hshaped := hs.shaped hv
  obtain ⟨way, w, hplug, hway, hleaf⟩ := answers_findLeaf hshaped hv r.key
  subst hplug
  obtain ⟨xs, ys, hw, hindex⟩ := hway.exists_indexOf? hshaped.ascending he way.parent
  have hget : Positions.get (w.leaf v.keyType way.parent).records xs.length = .ok id := by
    rw [hw]
    exact Shape.getRecord_twig rfl
  obtain ⟨old, hold, -⟩ := hs.resolved _ he
  refine hleaf.turns.bind ?_
  simp only [hindex, hget, Action.ofChecked_ok, pure_bind]
  exact turns_rewriteRecord (hv.record_lt hold) hr hsize

/-- Replacing the record of a key keeps the shape. -/
theorem hasShape_setRecord (hs : v.HasShape s) {id : RecordId} (he : (r.key, id) ∈ s.entries) :
    (v.setRecord id (some r)).HasShape s := by
  refine ⟨hs.root_eq, hs.stored, hs.nodup, hs.ranged, hs.occupied, fun e he' => ?_⟩
  by_cases hid : e.2 = id
  · obtain rfl : e = (r.key, id) := eq_of_record_eq hs he' he hid
    exact ⟨r, Function.update_self .., rfl⟩
  · obtain ⟨r', hr', hk⟩ := hs.resolved e he'
    exact ⟨r', (Function.update_of_ne hid ..).trans hr', hk⟩

end Replace

end Tree
end RecordIndex
