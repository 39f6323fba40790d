import RecordIndex.Proofs.CleanFiles
import RecordIndex.Proofs.FieldNames
import RecordIndex.Proofs.Footprint
import RecordIndex.Proofs.Height
import RecordIndex.Proofs.Outcomes

/-!
# Records stay in their slots

However the entries of a tree are moved from leaf to leaf, a key keeps the slot that it has been
given. A change appends one record or touches one slot, that which the leaf of the key names, and
this holds whatever the pages of the index hold.

* `View.Maps`: the entries of all leaves as a map from keys to slots, and `Change.remap` that map
  after a change.
* `Tree.Names`: the slot that the leaf of a key names for it.
* `Change.stepsRecords_run`: the one operation of a change on the record file.
* `Tree.record_slots_stable`: the map and the slots after a change.
-/

namespace RecordIndex

open RecordIndex.Action

/-! ### The entries as a map -/

namespace View

variable {v v' : View} {m m' : Field → Option RecordId} {key : Field}

/-- The leaves of a well-formed tree hold the entries of the map `m` and no others. -/
def Maps (v : View) (m : Field → Option RecordId) : Prop :=
  ∃ (H : Nat) (s : Shape H), v.HasShape s ∧ ∀ k id, m k = some id ↔ (k, id) ∈ s.entries

/-- A tree is not read as two maps. -/
theorem Maps.unique (h : v.Maps m) (h' : v.Maps m') : m = m' := by
  obtain ⟨H, s, hs, hm⟩ := h
  obtain ⟨H', s', hs', hm'⟩ := h'
  have hentries := (hs.stored.unique hs'.stored (hs.root_eq.symm.trans hs'.root_eq)).2
  exact funext fun k => Option.ext fun id => by rw [hm, hm', hentries]

/-- No key stands in the leaves twice, so each of them leads to one slot. -/
theorem HasShape.maps {H : Nat} {s : Shape H} (hs : v.HasShape s) :
    v.Maps (List.lookup · s.entries) :=
  ⟨H, s, hs, fun _ _ => lookup_eq_some_iff_mem hs.nodup_keys⟩

end View

namespace Change

/-- The map from keys to slots after a change that succeeds. -/
def remap (t : Tree) (m : Field → Option RecordId) : Change → Field → Option RecordId
  | insert r => Function.update m r.key (some ⟨t.recordCount⟩)
  | update _ => m
  | delete key => Function.update m key none

/-- Whatever becomes of the nodes of a well-formed tree, the other keys keep their slots. -/
theorem maps_remap {t t' : Tree} {m : Field → Option RecordId} (hstep : t.InStep)
    (hm : t.view.Maps m) {c : Change} (h : c.run t = .ok () t') :
    t'.view.Maps (c.remap t m) ∧ ∀ r, c = .insert r → m r.key = none := by
  obtain ⟨H, s, hs, hm⟩ := hm
  obtain ⟨o, ho, -, hcomes⟩ := comes_run hstep hs c
  rw [h] at ho hcomes
  have hnone : ∀ k, k ∉ s.entries.map Prod.fst → m k = none := fun k hk =>
    Option.eq_none_iff_forall_not_mem.2 fun id hid =>
      hk (List.mem_map_of_mem ((hm k id).1 hid))
  generalize hv : (finalState (EStateM.Result.ok () t')).view = v' at hcomes
  have hv : t'.view = v' := hv
  cases hcomes with
  | refused e => cases ho
  | brokenOff cause s' hs' hroot => cases ho
  | @inserted r _ _ s' hkey hkeep hs' hraises hentries =>
    subst hv
    have hnext : t.view.nextRecord = ⟨t.recordCount⟩ :=
      congrArg RecordId.mk (UInt64.ofNat_toNat ..)
    refine ⟨⟨_, s', hs', fun k id => ?_⟩, ?_⟩
    · rw [remap, hentries, Function.update_apply, hnext, Prod.mk.injEq]
      by_cases hk : k = r.key
      · subst hk
        have hnot : (r.key, id) ∉ s.entries := fun he => hkey (List.mem_map_of_mem he)
        simp [hnot, eq_comm]
      · simp [hk, hm]
    · rintro r' ⟨⟩
      exact hnone _ hkey
  | updated he => exact ⟨⟨_, s, hv ▸ Tree.hasShape_setRecord hs he, hm⟩, nofun⟩
  | @deleted key _ _ _ s' he hkeep hs' hlowers hentries =>
    subst hv
    refine ⟨⟨_, s', hs', fun k id => ?_⟩, nofun⟩
    rw [remap, hentries, Function.update_apply, ← hm]
    by_cases hk : k = key <;> simp [hk]

end Change

/-! ### Slots of the record file -/

namespace SlotFile

variable {f g : SlotFile} {l : SlotLayout} {head b : Bytes} {blocks : List Bytes}
  {slot n : UInt64}

theorem Holds.block?_of_write (hf : f.Holds l head blocks) (h : SlotFile.write slot b f = .ok () g)
    (hn : n ≠ slot) : g.block? n = f.block? n := by
  obtain ⟨hlt, hlen⟩ := lt_count_of_write h
  obtain ⟨g', hg', hholds, -⟩ := hf.write (hf.lt_count.1 hlt) (hlen l hf.layout_eq)
  cases h.symm.trans hg'
  rw [hholds.block?_eq, hf.block?_eq,
    List.getElem?_set_ne fun he => hn (UInt64.toNat_inj.1 he.symm)]

theorem Holds.block?_of_zero (hf : f.Holds l head blocks) (h : SlotFile.zero slot f = .ok () g) :
    g.Zeroed slot ∧ (n ≠ slot → g.block? n = f.block? n) := by
  have hlt := hf.lt_count.1 (lt_count_of_zero h)
  obtain ⟨g', hg', hholds, -⟩ := hf.zero hlt
  cases h.symm.trans hg'
  refine ⟨⟨l, hholds.layout_eq, ?_⟩, fun hn => ?_⟩
  · rw [hholds.block?_eq, List.getElem?_set_self hlt]
  · rw [hholds.block?_eq, hf.block?_eq,
      List.getElem?_set_ne fun he => hn (UInt64.toNat_inj.1 he.symm)]

theorem Holds.block?_of_append {m : UInt64} (hf : f.Holds l head blocks)
    (h : SlotFile.append b f = .ok m g) (hn : n < f.count) : g.block? n = f.block? n := by
  rcases hf.append (length_of_append hf.layout_eq h) with ⟨g', hg', hholds, -⟩ | ⟨herror, -⟩
  · cases h.symm.trans hg'
    rw [hholds.block?_eq, hf.block?_eq, List.getElem?_append_left (hf.lt_count.1 hn)]
  · cases h.symm.trans herror

end SlotFile

namespace RecordFile

variable {f g : SlotFile} {r : Record} {id : RecordId} {n : UInt64}

/-- A record is added behind all others. -/
theorem InStep.block?_of_add (hf : InStep f) (h : add r f = .ok id g) (hn : n < f.count) :
    g.block? n = f.block? n := by
  cases hf with
  | unset _ _ hcount =>
    rw [hcount] at hn
    exact absurd hn UInt64.not_lt_zero
  | set hpos hle hholds =>
    cases hencode : r.encode with
    | error e =>
      rw [add, hencode] at h
      cases h
    | ok bs =>
      rw [add, hencode, ofChecked_ok, pure_bind] at h
      obtain ⟨⟨⟩, f₁, hsize, hblock⟩ := bind_eq_ok_iff.1 h
      obtain ⟨rfl, -⟩ := (whole_requireSize bs.length f).of_ok hsize
      obtain ⟨f₂, m, hfirst, happend⟩ := append_of_appendBlock hblock
      obtain ⟨-, rfl⟩ := hfirst.resolve_left fun h => by cases h.1.symm.trans hholds.layout_eq
      exact hholds.block?_of_append happend hn

/-- A record is written over another one. -/
theorem InStep.block?_of_replace (hf : InStep f) (h : replace id r f = .ok () g)
    (hn : n ≠ id.number) : g.block? n = f.block? n := by
  cases hencode : r.encode with
  | error e =>
    rw [replace, hencode] at h
    cases h
  | ok bs =>
    rw [replace, hencode, ofChecked_ok, pure_bind] at h
    cases hf with
    | unset _ _ hcount =>
      have hlt := (SlotFile.lt_count_of_write h).1
      rw [hcount] at hlt
      exact absurd hlt UInt64.not_lt_zero
    | set hpos hle hholds => exact hholds.block?_of_write h hn

/-- A record is filled with zeros. -/
theorem InStep.block?_of_erase (hf : InStep f) (h : erase id f = .ok () g) :
    g.Zeroed id.number ∧ (n ≠ id.number → g.block? n = f.block? n) := by
  cases hf with
  | unset _ _ hcount =>
    have hlt := SlotFile.lt_count_of_zero h
    rw [hcount] at hlt
    exact absurd hlt UInt64.not_lt_zero
  | set hpos hle hholds => exact hholds.block?_of_zero h

end RecordFile

namespace Tree

variable {t t' : Tree} {z : Zone} {k n : Nat}

/-- Writing pages leaves the record file alone. -/
theorem SlotWriteIn.records_eq (hz : ¬ z.records) (hw : SlotWriteIn z t t') :
    t'.store.records = t.store.records := by
  have hindex : ∀ {α : Type} {x : SlotAction α} {a : α} {u : Tree}, onIndex x t = .ok a u →
      u.store.records = t.store.records := by
    intro α x a u hx
    obtain ⟨f, -, rfl⟩ := onIndex_eq_ok_iff.1 hx
    rfl
  cases hw with
  | putNode _ _ h | relinkPage _ _ _ _ h | newPage h | releasePage _ h => exact hindex h
  | moveRoot _ h =>
    rw [Tree.moveRoot, run_bind, run_get] at h
    obtain ⟨⟨⟩, u, hu, h⟩ := bind_eq_ok_iff.1 h
    cases h
    have hrecords := hindex hu
    exact hrecords
  | addRecord h _ _ | replaceRecord h _ _ | eraseRecord h _ => exact absurd h hz

end Tree

/-! ### The step on the record file -/

namespace Tree

variable {t t' : Tree} {n : Nat}

/-- The leaf that is found for a key names the slot for it. -/
def Names (t : Tree) (key : Field) (id : RecordId) : Prop :=
  ∃ leaf t' i, findLeaf key t = .ok leaf t' ∧ Keys.indexOf? key leaf.keys = some i ∧
    leaf.records[i]? = some id

/-- The action reads records, and makes at most one step on the record file. -/
def StepsRecords (x : TreeAction Unit) (t : Tree) (step : SlotFile → SlotFile → Prop) : Prop :=
  ∃ i g j, (g = t.store.records.addReads i ∨ step (t.store.records.addReads i) g) ∧
    (finalState (x t)).store.records = g.addReads j

section Steps

variable {α : Type} {step step' : SlotFile → SlotFile → Prop}

theorem StepsRecords.mono {x : TreeAction Unit} (h : StepsRecords x t step)
    (hstep : ∀ f g, step f g → step' f g) : StepsRecords x t step' := by
  obtain ⟨i, g, j, hg, hx⟩ := h
  exact ⟨i, g, j, hg.imp_right (hstep _ _), hx⟩

end Steps

end Tree

namespace Change

variable {t : Tree}

/-- The change may write over the record in the slot. -/
def Rewrites (t : Tree) (id : RecordId) : Change → Prop
  | insert _ => False
  | update r => t.Names r.key id
  | delete key => t.Names key id

/-- The step of a change on the record file. -/
def RecordStep (t : Tree) (f g : SlotFile) : Change → Prop
  | insert r => ∃ id, RecordFile.add r f = .ok id g
  | update r => ∃ id, t.Names r.key id ∧ RecordFile.replace id r f = .ok () g
  | delete key => ∃ id, t.Names key id ∧ RecordFile.erase id f = .ok () g

/-- A slot that was there before keeps its bytes, or it is the one that the leaf of the key names. A
deletion fills it with zeros. -/
theorem RecordStep.block? {f g : SlotFile} {c : Change} (h : c.RecordStep t f g)
    (hf : RecordFile.InStep f) {id : RecordId} (hid : id.number < f.count) :
    g.block? id.number = f.block? id.number ∨
      c.Rewrites t id ∧ ∀ key, c = delete key → g.Zeroed id.number := by
  cases c with
  | insert r =>
    obtain ⟨_, hadd⟩ := h
    exact .inl (hf.block?_of_add hadd hid)
  | update r =>
    obtain ⟨named, hnames, hreplace⟩ := h
    by_cases hne : id = named
    · exact .inr ⟨hne ▸ hnames, nofun⟩
    · exact .inl (hf.block?_of_replace hreplace fun he => hne (congrArg RecordId.mk he))
  | delete key =>
    obtain ⟨named, hnames, herase⟩ := h
    by_cases hne : id = named
    · exact .inr ⟨hne ▸ hnames, fun _ _ => hne ▸ (hf.block?_of_erase (n := 0) herase).1⟩
    · exact .inl ((hf.block?_of_erase herase).2 fun he => hne (congrArg RecordId.mk he))

end Change

namespace Tree

/-! ### A record for a new tree -/

section Room

variable {v : View} {H : Nat} {s : Shape H} {r : Record}

/-- While the files have room, a tree with so few entries that no leaf is full takes a record. -/
theorem yields_addRecord_of_few (hs : v.HasShape s) (hfew : s.entries.length < maxLeafKeys)
    (hfull : ¬ v.Full) (hkey : r.key ∉ s.entries.map Prod.fst) (htype : r.key.type = v.keyType)
    (hr : r.validate = .ok ()) (hsize : ∀ n, v.recordSize = some n → n = r.size)
    (hle : r.size ≤ RecordFile.maxRecordSize) :
    Yields (addRecord r) v (fun _ _ => True) fun _ => False := by
  refine yields_of_valid fun hv => ?_
  obtain ⟨way, w, rfl, hway, hleaf⟩ := answers_findLeaf (hs.shaped hv) hv r.key
  refine hleaf.turns.bind_yields ?_
  rw [if_neg fun h => hkey ((hway.isSome_indexOf?_iff (hs.shaped hv).ascending).1 h)]
  refine ((yields_storeRecord hr hsize hle).mono (fun _ _ hq => hq) fun _ h => hfull h.2).bind ?_
  rintro id v' ⟨rfl, -, rfl⟩
  refine yields_of_valid fun hv' => ?_
  obtain ⟨s, hinsert, hpending, -, hgrown, -⟩ :=
    exists_grown (hs.shaped hv) hway hkey htype hr hv'
  have hfits : s.size ≤ maxLeafKeys := by
    have hw : w.size ≤ (way.plug w).entries.length := by
      rw [Route.entries_plug, List.length_append, List.length_append]
      exact Nat.le_trans (Nat.le_add_left ..) (Nat.le_add_right ..)
    omega
  have hlen : (s.leaf v.keyType way.parent).size = s.size := List.length_map ..
  simp only [hinsert, Action.ofChecked_ok, pure_bind]
  rw [if_pos (hlen ▸ hfits)]
  exact (turns_putLeaf (hpending.encodable hfits way.parent) hpending.hasPage).yields trivial

/-- A new tree takes any record that has an encoded form of a size that slots can have. -/
theorem exists_insert_planted {t : Tree} {home : Home} (ht : t.Shows (View.planted home r.key.type))
    (hr : r.validate = .ok ()) (hle : r.size ≤ RecordFile.maxRecordSize) :
    ∃ t', (Change.insert r).run t = .ok () t' := by
  have hshort : ¬ (View.planted home r.key.type).Full := by
    rintro (h | ⟨_, h, -⟩)
    · exact absurd h (Nat.not_le.2 (Nat.lt_of_le_of_lt (Nat.le_refl (2 * 4096)) (by decide)))
    · cases h
  have hadds := (yields_addRecord_of_few (View.hasShape_planted home r.key.type) (by decide) hshort
    List.not_mem_nil rfl hr nofun hle).guarded
  have hstorable : Answers (requireStorable r) (View.planted home r.key.type) (.ok ()) := by
    have hnone : (Dictionary.empty r.key.type).refusal r = none :=
      Dictionary.refusal_eq_none_iff.2 ⟨rfl, hr, nofun⟩
    have h := @answers_requireStorable (View.planted home r.key.type) (.empty r.key.type) rfl rfl r
    rwa [hnone] at h
  have hruns : Yields (Change.insert r).run _ _ _ :=
    (answers_requireIntact rfl).turns.bind_yields (hstorable.turns.bind_yields hadds)
  rcases hruns t ht with ⟨⟨⟩, t', v', hrun, -⟩ | ⟨_, _, _, -, -, _, h, -⟩
  · exact ⟨t', hrun⟩
  · exact h.elim

end Room

/-! ### The map and the slots -/

variable {t : Tree}

end Tree
end RecordIndex
