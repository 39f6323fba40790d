import RecordIndex.Proofs.RecordSlots

/-!
# What look-ups read

A look-up goes down one way from the root, so it reads one page on each level, and the record only
if the key is there. It never fails on a well-formed tree, and changes nothing but the counters of
slots read.

* `View.HasShape.exists_record`: the record that the map of a tree leads to.
* `Tree.lookups_read_levels`: what the height, the presence of a key and its record cost.
-/

namespace RecordIndex

open RecordIndex.Action

/-- The slot of a key holds a record of this key. -/
theorem View.HasShape.exists_record {v : View} {H : Nat} {s : Shape H} (hs : v.HasShape s)
    {key : Field} {id : RecordId} (h : s.entries.lookup key = some id) :
    (key, id) ∈ s.entries ∧ ∃ r, v.record id = some r ∧ r.key = key := by
  have he : (key, id) ∈ s.entries := (lookup_eq_some_iff_mem hs.nodup_keys).1 h
  exact ⟨he, hs.resolved _ he⟩

namespace Tree

/-- On a well-formed tree, whether a key is there and what its record is are told by the entries of
the leaves. Both look-ups read one page for each level that the tree has, the latter also the record
if there is one, and nothing else changes. -/
theorem lookups_read_levels {t : Tree} (hwell : t.WellFormed) {key : Field}
    (hkey : key.type = t.keyType) :
    ∃ (levels : Nat) (m : Field → Option RecordId) (found : Option Record),
      levels < t.pageCount.toNat ∧
      height t = .ok levels (t.addReads (UInt64.ofNat levels) 0) ∧
      t.view.Maps m ∧ found = (m key).bind t.view.record ∧ found.isSome = (m key).isSome ∧
      (∀ r, found = some r → r.key = key) ∧
      contains key t = .ok found.isSome (t.addReads (UInt64.ofNat levels) 0) ∧
      lookup key t =
        .ok found (t.addReads (UInt64.ofNat levels) (if found.isSome then 1 else 0)) := by
  obtain ⟨H, s, hs⟩ := hwell
  have hv := t.valid_view
  have hshaped := hs.shaped hv
  have hlt : H + 1 < t.pageCount.toNat :=
    Nat.lt_of_le_of_lt s.height_lt_length_pages (hshaped.stored.length_pages_lt hv hshaped.nodup)
  have hcontains := answersIn_contains hshaped hv hkey t rfl
  refine ⟨H + 1, (s.entries.lookup ·), (s.entries.lookup key).bind t.view.record, hlt,
    answersIn_height hshaped hv t rfl, hs.maps, rfl, ?_⟩
  beta_reduce
  cases hfound : s.entries.lookup key with
  | none =>
    have hmem : key ∉ s.entries.map Prod.fst := lookup_eq_none_iff_notMem.1 hfound
    rw [decide_eq_false hmem] at hcontains
    exact ⟨rfl, nofun, hcontains, answersIn_lookup_none hshaped hv hkey hmem t rfl⟩
  | some id =>
    obtain ⟨he, r, hr, hrkey⟩ := hs.exists_record hfound
    rw [decide_eq_true (List.mem_map_of_mem he)] at hcontains
    rw [Option.bind_some, hr]
    refine ⟨rfl, fun r' h => ?_, hcontains, answersIn_lookup hshaped hv hkey he hr hrkey t rfl⟩
    cases h
    exact hrkey

/-- The record of the only key of a tree is found. -/
theorem lookups_read_levels_newStore : ∃ t t' : Tree, make .int32 newStore = .ok t t.store ∧
    (Change.insert ⟨.int32 7, .empty⟩).run t = .ok () t' ∧ t'.WellFormed ∧
    ∃ levels, height t' = .ok levels (t'.addReads (UInt64.ofNat levels) 0) ∧
      contains (.int32 7) t' = .ok true (t'.addReads (UInt64.ofNat levels) 0) ∧
      ∃ r, lookup (.int32 7) t' = .ok (some r) (t'.addReads (UInt64.ofNat levels) 1) := by
  obtain ⟨t, hmake, ht⟩ := exists_make blank_newStore .int32
  have hshape := ht.2 ▸ View.hasShape_planted newHome .int32
  obtain ⟨t', hrun⟩ := exists_insert_planted (r := ⟨.int32 7, .empty⟩) ht rfl (by decide)
  obtain ⟨m, hm⟩ : ∃ m, t.view.Maps m := ⟨_, hshape.maps⟩
  obtain ⟨hmaps, -⟩ := Change.maps_remap ht.1 hm hrun
  -- the key has been given a slot, so it is in a leaf, and has the type of the keys there
  have hslot : (Change.insert ⟨.int32 7, .empty⟩).remap t m (.int32 7) = some ⟨t.recordCount⟩ := by
    rw [Change.remap, Function.update_self]
  obtain ⟨H, s, hs, hentries⟩ := id hmaps
  have he := (hentries _ _).1 hslot
  have htype : (Field.int32 7).type = t'.keyType :=
    ((hs.shaped t'.valid_view).keys_ok _ (Shape.mem_entries_iff.1 he)).1
  obtain ⟨levels, m', found, -, hheight, hm', -, hsome, -, hcontains, hlookup⟩ :=
    lookups_read_levels ⟨H, s, hs⟩ htype
  rw [hm'.unique hmaps, hslot] at hsome
  obtain ⟨r, rfl⟩ := Option.isSome_iff_exists.1 hsome
  exact ⟨t, t', hmake, hrun, ⟨H, s, hs⟩, levels, hheight, hcontains, r, hlookup⟩

end Tree
end RecordIndex
