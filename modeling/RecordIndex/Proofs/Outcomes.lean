import RecordIndex.Proofs.Failures

/-!
# What a change comes to

A change of a well-formed tree is refused, or it is made, or the file system fails while a record is
added. `Change.Comes` says of each what the tree is then, shape by shape, and `Change.comes_run` that
there is nothing else.
-/

namespace RecordIndex

open RecordIndex.Action

/-- What a change comes to on a tree that shows `v` and has the shape `s`: its answer or error, and
what the tree shows then. -/
inductive Change.Comes (v : View) {H : Nat} (s : Shape H) : Change → Except Error Unit → View → Prop
  /-- The change has been refused. -/
  | refused {c : Change} (e : Error) : Comes v s c (.error e) v
  /-- A record has been added. -/
  | inserted {r : Record} {v' : View} {H' : Nat} (s' : Shape H')
      (hkey : r.key ∉ s.entries.map Prod.fst) (hkeep : (v.addRecord r).Keeps v')
      (hs' : v'.HasShape s') (hraises : v.Raises v' H H')
      (hentries : ∀ e, e ∈ s'.entries ↔ e = (r.key, v.nextRecord) ∨ e ∈ s.entries) :
      Comes v s (.insert r) (.ok ()) v'
  /-- The file system has failed while a record was added. -/
  | brokenOff {r : Record} {v' : View} (cause : IoError) (s' : Shape H) (hs' : v'.HasShape s')
      (hroot : v'.root = v.root) : Comes v s (.insert r) (.error (.io cause)) v'
  /-- A record has been replaced. -/
  | updated {r : Record} {id : RecordId} (he : (r.key, id) ∈ s.entries) :
      Comes v s (.update r) (.ok ()) (v.setRecord id (some r))
  /-- A record has been deleted. -/
  | deleted {key : Field} {id : RecordId} {v' : View} {H' : Nat} (s' : Shape H')
      (he : (key, id) ∈ s.entries) (hkeep : (v.setRecord id none).Keeps v') (hs' : v'.HasShape s')
      (hlowers : v.Lowers v' s H') (hentries : ∀ e, e ∈ s'.entries ↔ e ∈ s.entries ∧ e.1 ≠ key) :
      Comes v s (.delete key) (.ok ()) v'

namespace Change

variable {v : View} {t : Tree} {H : Nat} {s : Shape H}

theorem ends_addRecord (hs : v.HasShape s) (hle : ∀ n, v.recordSize = some n →
      n ≤ RecordFile.maxRecordSize) {r : Record} (htype : r.key.type = v.keyType)
    (hr : r.validate = .ok ()) (hsize : ∀ n, v.recordSize = some n → n = r.size) :
    Tree.Ends (Tree.guarded (Tree.addRecord r)) v ((insert r).Comes v s) := by
  refine Tree.ends_of_valid fun hv => ?_
  by_cases hkey : r.key ∈ s.entries.map Prod.fst
  · exact ((Tree.refuses_addRecord (hs.shaped hv) hv hkey).guarded rfl).ends (.refused _)
  · by_cases hlarge : v.recordSize = none ∧ RecordFile.maxRecordSize < r.size
    · exact ((Tree.refuses_addLarge (hs.shaped hv) hv hkey hr hlarge.1 hlarge.2).guarded rfl).ends
        (.refused _)
    · have hfits : r.size ≤ RecordFile.maxRecordSize := by
        cases hn : v.recordSize with
        | none => exact Nat.le_of_not_lt fun hlt => hlarge ⟨hn, hlt⟩
        | some n => exact hsize n hn ▸ hle n hn
      refine (Tree.yields_addRecord hs hkey htype hr hsize hfits).guarded.ends ?_ ?_
      · rintro ⟨⟩ v' ⟨hkeep, H', s', hs', hraises, hentries, -⟩
        exact .inserted s' hkey hkeep hs' hraises hentries
      · rintro cause v' ⟨v₁, ⟨⟨s', hs'⟩, hroot, -⟩, rfl⟩
        exact .brokenOff cause s' ⟨hs'.root_eq, hs'.stored, hs'.nodup, hs'.ranged, hs'.occupied,
          hs'.resolved⟩ hroot

theorem ends_replaceRecord (hs : v.HasShape s) {r : Record} (hr : r.validate = .ok ())
    (hsize : ∀ n, v.recordSize = some n → n = r.size) :
    Tree.Ends (Tree.guarded (Tree.replaceRecord r)) v ((update r).Comes v s) := by
  refine Tree.ends_of_valid fun hv => ?_
  by_cases hkey : r.key ∈ s.entries.map Prod.fst
  · obtain ⟨⟨k, id⟩, he, hk⟩ := List.mem_map.1 hkey
    obtain rfl : k = r.key := hk
    obtain ⟨old, hold, -⟩ := hs.resolved _ he
    obtain ⟨n, hn⟩ := hv.exists_recordSize hold
    have hturns := Tree.turns_replaceRecord hs hv he hr (hsize n hn ▸ hn)
    refine (hturns.yields (Q := fun _ v' => v' = v.setRecord id (some r)) (E := fun _ => False)
      rfl).guarded.ends ?_ ?_
    · rintro ⟨⟩ v' rfl
      exact .updated he
    · rintro cause v' ⟨v₁, hfalse, -⟩
      exact hfalse.elim
  · exact ((Tree.refuses_replaceRecord (hs.shaped hv) hv hkey).guarded rfl).ends (.refused _)

theorem ends_removeKey (hs : v.HasShape s) (key : Field) :
    Tree.Ends (Tree.guarded (Tree.removeKey key)) v ((delete key).Comes v s) := by
  refine Tree.ends_of_valid fun hv => ?_
  by_cases hkey : key ∈ s.entries.map Prod.fst
  · obtain ⟨⟨k, id⟩, he, hk⟩ := List.mem_map.1 hkey
    obtain rfl : k = key := hk
    refine (Tree.yields_removeKey hs he).guarded.ends ?_ ?_
    · rintro ⟨⟩ v' ⟨hkeep, H', s', hs', hlowers, hentries, -⟩
      exact .deleted s' he hkeep hs' hlowers hentries
    · rintro cause v' ⟨v₁, hfalse, -⟩
      exact hfalse.elim
  · exact ((Tree.refuses_removeKey (hs.shaped hv) hv hkey).guarded rfl).ends (.refused _)

/-- A record that can be asked of a tree has the size of the others. -/
theorem size_eq_of_not_refused {r : Record} (h : ¬ (insert r).Refused t) {n : Nat}
    (hn : t.view.recordSize = some n) : n = r.size := by
  obtain ⟨size, hsize, rfl⟩ := Option.map_eq_some_iff.1 hn
  exact by_contra fun hne => h (.inr (.inr ⟨size, hsize, hne⟩))

/-- A change that can be asked of a tree, whether or not it fails. -/
theorem ends_make (hstep : t.InStep) (hs : t.view.HasShape s) {c : Change} (hc : ¬ c.Refused t) :
    Tree.Ends (Tree.guarded c.make) t.view (c.Comes t.view s) := by
  cases c with
  | insert r =>
    exact ends_addRecord hs (fun _ hn => hstep.recordSize_le hn)
      (by_contra fun htype => hc (.inl htype)) (by_contra fun hr => hc (.inr (.inl hr)))
      fun _ hn => size_eq_of_not_refused hc hn
  | update r =>
    exact ends_replaceRecord hs (by_contra fun hr => hc (.inr (.inl hr)))
      fun _ hn => size_eq_of_not_refused hc hn
  | delete key => exact ends_removeKey hs key

/-- What any change of a well-formed tree comes to. -/
theorem comes_run (hstep : t.InStep) (hs : t.view.HasShape s) (c : Change) :
    ∃ o : Except Error Unit, answer (c.run t) = o.mapError Failure.error ∧
      (finalState (c.run t)).InStep ∧ c.Comes t.view s o (finalState (c.run t)).view := by
  have hrefused : ∀ e, c.run t = .error (.error e) t → ∃ o : Except Error Unit,
      answer (c.run t) = o.mapError Failure.error ∧ (finalState (c.run t)).InStep ∧
        c.Comes t.view s o (finalState (c.run t)).view := by
    intro e hrun
    rw [hrun]
    exact ⟨.error e, rfl, hstep, .refused e⟩
  cases hrepair : t.needsRepair with
  | true => exact hrefused _ (c.run_of_needsRepair hrepair)
  | false =>
    rcases c.run_cases hrepair with ⟨e, -, hrun⟩ | ⟨hnot, hrun⟩
    · exact hrefused e hrun
    · obtain ⟨o, v', ho, ⟨hstep', rfl⟩, -, hcomes⟩ := ends_make hstep hs hnot t ⟨hstep, rfl⟩
      rw [hrun]
      exact ⟨o, ho, hstep', hcomes⟩

end Change
end RecordIndex
