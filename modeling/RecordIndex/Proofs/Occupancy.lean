import Mathlib.Algebra.Order.BigOperators.Group.List
import RecordIndex.Proofs.Refinement

/-!
# How many entries a tree has

No node is too full, and none but the root is too empty. So the entries of a tree lie between two
powers of its height. Each of them leads to a record slot of its own.

* `Shape.length_entries_le`, `Shape.le_length_entries`: the bounds below one node, by induction on
  the levels.
* `View.HasShape.length_entries_bounds`: the bounds for a whole tree.
* `View.HasShape.length_entries_le_recordCount`: there are no more entries than record slots.
-/

namespace RecordIndex

namespace Shape

variable {h : Nat}

theorem length_entries_succ (s : Shape (h + 1)) :
    s.entries.length = ((Fork.kids s).map fun c => c.entries.length).sum :=
  List.length_flatMap

/-- A node that is not too full, and above no such node, has few entries below it. -/
theorem length_entries_le {isRoot : Bool} {s : Shape h} (hs : s.Occupied isRoot) :
    s.entries.length ≤ maxLeafKeys * maxChildren ^ h := by
  induction h generalizing isRoot with
  | zero => exact hs.1.2.trans (Nat.mul_one _).ge
  | succ h ih =>
    have hkids : ∀ n ∈ (Fork.kids s).map fun c => c.entries.length,
        n ≤ maxLeafKeys * maxChildren ^ h := by
      rintro n hn
      obtain ⟨c, hc, rfl⟩ := List.mem_map.1 hn
      exact ih (hs.2 c hc)
    have hsum := List.sum_le_card_nsmul _ _ hkids
    have hsize : (Fork.kids s).length ≤ maxChildren := hs.1.2
    rw [List.length_map, smul_eq_mul] at hsum
    calc s.entries.length ≤ (Fork.kids s).length * (maxLeafKeys * maxChildren ^ h) := by
          rw [length_entries_succ]
          exact hsum
      _ ≤ maxChildren * (maxLeafKeys * maxChildren ^ h) := Nat.mul_le_mul_right _ hsize
      _ = maxLeafKeys * maxChildren ^ (h + 1) := by rw [pow_succ]; ring

/-- If the nodes below a node are not too empty, each child brings many entries. -/
theorem size_mul_le_length_entries {n : Nat} {s : Shape (h + 1)}
    (hs : ∀ c ∈ Fork.kids s, n ≤ c.entries.length) : s.size * n ≤ s.entries.length := by
  have hkids : ∀ m ∈ (Fork.kids s).map fun c => c.entries.length, n ≤ m := by
    rintro m hm
    obtain ⟨c, hc, rfl⟩ := List.mem_map.1 hm
    exact hs c hc
  have hsum := List.card_nsmul_le_sum _ _ hkids
  rw [List.length_map, smul_eq_mul, ← length_entries_succ] at hsum
  exact hsum

/-- A node other than the root has many entries below it. -/
theorem le_length_entries {s : Shape h} (hs : s.Occupied false) :
    minLeafKeys * minChildren ^ h ≤ s.entries.length := by
  induction h with
  | zero => exact (Nat.mul_one _).le.trans hs.1.1
  | succ h ih =>
    calc minLeafKeys * minChildren ^ (h + 1)
        = minChildren * (minLeafKeys * minChildren ^ h) := by rw [pow_succ]; ring
      _ ≤ s.size * (minLeafKeys * minChildren ^ h) := Nat.mul_le_mul_right _ hs.1.1
      _ ≤ s.entries.length := size_mul_le_length_entries fun c hc => ih (hs.2 c hc)

/-- The root has two children at least. -/
theorem le_length_entries_root {s : Shape (h + 1)} (hs : s.Occupied true) :
    minRootChildren * (minLeafKeys * minChildren ^ h) ≤ s.entries.length :=
  (Nat.mul_le_mul_right _ hs.1.1).trans
    (size_mul_le_length_entries fun c hc => le_length_entries (hs.2 c hc))

end Shape

namespace View

variable {v : View} {H : Nat} {s : Shape H}

/-- The number of the entries lies between two powers of the height. -/
theorem HasShape.length_entries_bounds (hs : v.HasShape s) :
    s.entries.length ≤ 5 * 6 ^ H ∧ (0 < H → 2 * 3 ^ H ≤ s.entries.length) := by
  refine ⟨Shape.length_entries_le hs.occupied, fun hpos => ?_⟩
  obtain ⟨H, rfl⟩ := Nat.exists_eq_succ_of_ne_zero (Nat.ne_of_gt hpos)
  exact (congrArg (2 * ·) (pow_succ' 3 H)).le.trans (Shape.le_length_entries_root hs.occupied)

/-- No two entries lead to one record slot. -/
theorem HasShape.nodup_records (hs : v.HasShape s) : (s.entries.map Prod.snd).Nodup :=
  (hs.nodup_keys.of_map _).map_on fun _ he _ he' => Tree.eq_of_record_eq hs he he'

theorem HasShape.length_entries_le_recordCount (hs : v.HasShape s) (hv : v.Valid) :
    s.entries.length ≤ v.recordCount := by
  have hinj : (s.entries.map fun e => e.2.number.toNat).Nodup := by
    have hnumber : Function.Injective fun id : RecordId => id.number.toNat := fun id id' he =>
      congrArg RecordId.mk (UInt64.toNat_inj.1 he)
    have hmap := hs.nodup_records.map hnumber
    rwa [List.map_map] at hmap
  have hsub : (s.entries.map fun e => e.2.number.toNat) ⊆ List.range v.recordCount := by
    intro i hi
    obtain ⟨e, he, rfl⟩ := List.mem_map.1 hi
    obtain ⟨r, hr, -⟩ := hs.resolved e he
    exact List.mem_range.2 (hv.record_lt hr)
  have hle := (List.subperm_of_subset hinj hsub).length_le
  rw [List.length_map, List.length_range] at hle
  exact hle

end View

/-- The height of a tree that has a shape. -/
theorem Tree.answer_height {t : Tree} {H : Nat} {s : Shape H} (hs : t.view.HasShape s) :
    Action.answer (height t) = .ok (H + 1) :=
  (answers_height (hs.shaped t.valid_view) t.valid_view).answer_eq rfl

end RecordIndex
