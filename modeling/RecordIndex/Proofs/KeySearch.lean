import Mathlib.Tactic.SplitIfs
import Mathlib.Tactic.Set
import RecordIndex.Keys
import RecordIndex.Positions
import RecordIndex.Proofs.FieldOrder

/-!
# Searching ascending keys

A search by halving looks at a list of keys in two parts: those that are not larger than what is
sought, and those that are. `Keys.narrow_eq` says where the halving ends, and `Keys.search_append`
what the search answers.

* `Keys.firstLarger_append`: the answer is the length of the first part.
* `Keys.indexOf?_eq_some_iff` and `Keys.indexOf?_eq_none_iff`: in ascending keys a key is found at
  its one place, and it is not found exactly if it is not there.
* `Keys.firstLarger_eq_countP` and `Keys.firstLarger_of_indexOf?`: the place for a key counts the keys
  that are not larger, and is right behind the key if it is there.
* `Keys.exists_insertAt_firstLarger`: a new key that is put into its place leaves the keys ascending.
* `Keys.disorder?_eq_none_iff`: no two neighbours are out of order exactly if the keys ascend.
* `Keys.search_in_order`: the order of fields, and what the two searches answer in ascending keys.
-/

namespace RecordIndex.Keys

/-- Where the halving ends, if `keep` holds of the positions below `n` only: at the last of them
among those looked at, or at the first position of all. -/
theorem narrow_eq {keep : Nat → Bool} {n base size : Nat} (hsize : 0 < size)
    (h : ∀ i, base ≤ i → i < base + size → (keep i = true ↔ i < n)) :
    narrow keep base size = max base (min n (base + size) - 1) := by
  induction size using Nat.strongRecOn generalizing base with
  | ind size ih =>
    unfold narrow
    split_ifs with hone hkeep
    · omega
    · have hn := (h _ (by omega) (by omega)).1 hkeep
      rw [ih _ (by omega) (by omega) fun i hi hlt => h i (by omega) (by omega)]
      omega
    · have hn := mt (h (base + size / 2) (by omega) (by omega)).2 hkeep
      rw [ih _ (by omega) (by omega) fun i hi hlt => h i (by omega) (by omega)]
      omega

section Search

variable {order : Field → Ordering} {xs ys : List Field}

/-- The search in keys of which the first part is not larger than what is sought and the rest is. -/
theorem search_append (hxs : ∀ k ∈ xs, order k ≠ .gt) (hys : ∀ k ∈ ys, order k = .gt) :
    search order (xs ++ ys) =
      match xs.getLast? with
      | none => (none, 0)
      | some k =>
        if order k = .eq then (some (xs.length - 1), xs.length - 1) else (none, xs.length) := by
  unfold search
  set at' : Nat → Ordering := fun i => ((xs ++ ys)[i]?.map order).getD .gt with hat
  -- the search halves the keys, and looks for the end of the first part
  have hkeep : ∀ i, (at' i != .gt) = true ↔ i < xs.length := by
    intro i
    by_cases hi : i < xs.length
    · have hx := hxs xs[i] (List.getElem_mem hi)
      simp [hat, List.getElem?_append_left hi, hi, hx]
    · have hgt : at' i = .gt := by
        simp only [hat]
        cases hy : (xs ++ ys)[i]? with
        | none => rfl
        | some y =>
          rw [List.getElem?_append_right (Nat.le_of_not_lt hi)] at hy
          exact hys y (List.mem_of_getElem? hy)
      simp [hgt, hi]
  by_cases hnil : xs ++ ys = []
  · obtain ⟨rfl, rfl⟩ := List.append_eq_nil_iff.1 hnil
    rfl
  · have hpos : 0 < (xs ++ ys).length := List.length_pos_iff.2 hnil
    have hnar : narrow (fun i => at' i != .gt) 0 (xs ++ ys).length = xs.length - 1 := by
      rw [narrow_eq hpos fun i _ _ => hkeep i, List.length_append]
      omega
    have hempty : (xs ++ ys).isEmpty = false := by simpa using hnil
    simp only [hempty, Bool.false_eq_true, if_false]
    rw [hnar]
    rcases List.eq_nil_or_concat xs with rfl | ⟨init, k, rfl⟩
    · have hgt : at' 0 = .gt := by
        simpa using mt (hkeep 0).1 (Nat.lt_irrefl 0)
      simp [hgt]
    · rw [List.concat_eq_append] at hxs hkeep ⊢
      have hlast : at' init.length = order k := by simp [hat]
      have hk : order k ≠ .gt := hxs k (by simp)
      simp only [List.length_append, List.length_singleton, Nat.add_sub_cancel, hlast,
        List.getLast?_append, List.getLast?_singleton, Option.some_or]
      cases ho : order k with
      | lt => simp
      | eq => simp
      | gt => exact absurd ho hk

/-- The keys not larger than `key` are those before the place that the search answers. -/
theorem firstLarger_append {key : Field} (hxs : ∀ k ∈ xs, k ≤ key) (hys : ∀ k ∈ ys, key < k) :
    firstLarger key (xs ++ ys) = xs.length := by
  have hx : ∀ k ∈ xs, (if (compare k key).isLE then Ordering.lt else .gt) = .lt := fun k hk =>
    if_pos (hxs k hk)
  have hy : ∀ k ∈ ys, (if (compare k key).isLE then Ordering.lt else .gt) = .gt := fun k hk =>
    if_neg (not_le_of_gt (hys k hk))
  unfold firstLarger
  rw [search_append (fun k hk => by rw [hx k hk]; decide) hy]
  cases hl : xs.getLast? with
  | none => simp [List.getLast?_eq_none_iff.1 hl]
  | some k => simp [hx k (List.mem_of_getLast? hl)]

/-- In ascending keys, only the last of those that are not larger than a key can be that key. -/
theorem succ_eq_length_of_getElem? {key : Field} {j : Nat} (h : (xs ++ ys).Pairwise (· < ·))
    (hxs : ∀ k ∈ xs, k ≤ key) (hys : ∀ k ∈ ys, key < k) (hj : (xs ++ ys)[j]? = some key) :
    j + 1 = xs.length := by
  rcases Nat.lt_trichotomy (j + 1) xs.length with hlt | heq | hgt
  · -- a key further on in the first part would be larger
    obtain ⟨hj', hje⟩ := List.getElem?_eq_some_iff.1 hj
    have hpair := List.pairwise_iff_getElem.1 h j (j + 1) hj' (by simp; omega) (by omega)
    rw [hje, List.getElem_append_left hlt] at hpair
    exact absurd (hxs _ (List.getElem_mem hlt)) (not_le_of_gt hpair)
  · exact heq
  · rw [List.getElem?_append_right (by omega)] at hj
    exact absurd (hys _ (List.mem_of_getElem? hj)) (lt_irrefl key)

end Search

/-- Ascending keys fall into those that are not larger than a key and those that are. -/
theorem exists_split {keys : List Field} (h : keys.Pairwise (· < ·)) (key : Field) :
    ∃ xs ys, keys = xs ++ ys ∧ (∀ k ∈ xs, k ≤ key) ∧ ∀ k ∈ ys, key < k := by
  induction keys with
  | nil => exact ⟨[], [], rfl, by simp, by simp⟩
  | cons a keys ih =>
    obtain ⟨ha, hkeys⟩ := List.pairwise_cons.1 h
    rcases le_or_gt a key with hle | hlt
    · obtain ⟨xs, ys, rfl, hxs, hys⟩ := ih hkeys
      exact ⟨a :: xs, ys, rfl, by simpa using ⟨hle, hxs⟩, hys⟩
    · refine ⟨[], a :: keys, rfl, by simp, ?_⟩
      simpa using ⟨hlt, fun k hk => lt_trans hlt (ha k hk)⟩

theorem narrow_le (keep : Nat → Bool) (base size : Nat) :
    narrow keep base size ≤ base + (size - 1) := by
  induction size using Nat.strongRecOn generalizing base with
  | ind size ih =>
    unfold narrow
    split_ifs with hone hkeep
    · exact Nat.le_add_right _ _
    · have := ih (size - size / 2) (by omega) (base + size / 2)
      omega
    · have := ih (size - size / 2) (by omega) base
      omega

/-- In whatever order the keys are, one that is found is at one of the positions, and the search ends
at one of them or behind the last. -/
theorem search_bounds (order : Field → Ordering) (keys : List Field) :
    (∀ i, (search order keys).1 = some i → i < keys.length) ∧
      (search order keys).2 ≤ keys.length := by
  cases keys with
  | nil => exact ⟨nofun, Nat.le_refl _⟩
  | cons k keys =>
    unfold search
    simp only [List.isEmpty_cons, Bool.false_eq_true, if_false]
    generalize hi : narrow _ 0 (k :: keys).length = i
    have hlt : i < (k :: keys).length := by
      rw [← hi, List.length_cons]
      exact Nat.lt_succ_of_le (Nat.le_trans (narrow_le _ _ _) (by simp))
    split
    · exact ⟨fun j hj => Option.some.inj hj ▸ hlt, Nat.le_of_lt hlt⟩
    · exact ⟨nofun, hlt⟩
    · exact ⟨nofun, Nat.le_of_lt hlt⟩

/-- The answer is a position of a child. -/
theorem firstLarger_le_length (key : Field) (keys : List Field) :
    firstLarger key keys ≤ keys.length :=
  (search_bounds _ keys).2

theorem lt_length_of_indexOf? {key : Field} {keys : List Field} {i : Nat}
    (h : indexOf? key keys = some i) : i < keys.length :=
  (search_bounds _ keys).1 i h

/-- In ascending keys a key is found at its place. -/
theorem indexOf?_eq_some_iff {keys : List Field} (h : keys.Pairwise (· < ·)) {key : Field}
    {i : Nat} : indexOf? key keys = some i ↔ keys[i]? = some key := by
  obtain ⟨xs, ys, rfl, hxs, hys⟩ := exists_split h key
  have hxs' : ∀ k ∈ xs, compare k key ≠ .gt := fun k hk => Ordering.isLE_iff_ne_gt.1 (hxs k hk)
  have hys' : ∀ k ∈ ys, compare k key = .gt := fun k hk => Std.OrientedCmp.gt_iff_lt.2 (hys k hk)
  have hmem : ∀ j, (xs ++ ys)[j]? = some key → j + 1 = xs.length := fun j hj =>
    succ_eq_length_of_getElem? h hxs hys hj
  unfold indexOf?
  rw [search_append hxs' hys']
  rcases List.eq_nil_or_concat xs with rfl | ⟨init, k, rfl⟩
  · refine iff_of_false (by simp) ?_
    intro hi
    exact absurd (hmem i hi) (by simp)
  · simp only [List.concat_eq_append, List.getLast?_append, List.getLast?_singleton,
      Option.some_or, List.length_append, List.length_singleton, Nat.add_sub_cancel] at hmem ⊢
    have hlast : (init ++ [k] ++ ys)[init.length]? = some k := by simp
    split_ifs with heq
    · have hk : k = key := Std.LawfulEqCmp.eq_of_compare heq
      constructor
      · rintro hi
        cases hi
        rw [hlast, hk]
      · intro hi
        have := hmem i hi
        simp only [Option.some.injEq]
        omega
    · refine iff_of_false (by simp) ?_
      intro hi
      have hil : i = init.length := by have := hmem i hi; omega
      rw [hil, hlast, Option.some.injEq] at hi
      exact heq (by rw [hi]; exact Field.compare_self_eq key)

theorem indexOf?_eq_none_iff {keys : List Field} (h : keys.Pairwise (· < ·)) {key : Field} :
    indexOf? key keys = none ↔ key ∉ keys := by
  rw [Option.eq_none_iff_forall_ne_some]
  simp only [ne_eq, indexOf?_eq_some_iff h]
  rw [List.mem_iff_getElem?, not_exists]

/-- In ascending keys, the place for a key is the number of keys that are not larger. -/
theorem firstLarger_eq_countP {keys : List Field} (h : keys.Pairwise (· < ·)) (key : Field) :
    firstLarger key keys = keys.countP (· ≤ key) := by
  obtain ⟨xs, ys, rfl, hxs, hys⟩ := exists_split h key
  have hall : xs.countP (· ≤ key) = xs.length :=
    List.countP_eq_length.2 fun k hk => decide_eq_true (hxs k hk)
  have hnone : ys.countP (· ≤ key) = 0 :=
    List.countP_eq_zero.2 fun k hk => mt of_decide_eq_true (not_le_of_gt (hys k hk))
  rw [firstLarger_append hxs hys, List.countP_append, hall, hnone, Nat.add_zero]

/-- In ascending keys, the place for a key that is there is right behind it. -/
theorem firstLarger_of_indexOf? {keys : List Field} (h : keys.Pairwise (· < ·)) {key : Field}
    {i : Nat} (hi : indexOf? key keys = some i) : firstLarger key keys = i + 1 := by
  have hkey := (indexOf?_eq_some_iff h).1 hi
  obtain ⟨xs, ys, rfl, hxs, hys⟩ := exists_split h key
  rw [firstLarger_append hxs hys, succ_eq_length_of_getElem? h hxs hys hkey]

/-- A new key that is put into its place among ascending keys leaves them ascending. -/
theorem exists_insertAt_firstLarger {keys : List Field} (h : keys.Pairwise (· < ·)) {key : Field}
    (hkey : key ∉ keys) : ∃ keys', Positions.insertAt keys (firstLarger key keys) key = .ok keys' ∧
      keys'.Pairwise (· < ·) := by
  obtain ⟨xs, ys, rfl, hxs, hys⟩ := exists_split h key
  have hlt : ∀ k ∈ xs, k < key := fun k hk =>
    lt_of_le_of_ne (hxs k hk) fun heq => hkey (heq ▸ List.mem_append_left ys hk)
  obtain ⟨hxx, hyy, hxy⟩ := List.pairwise_append.1 h
  refine ⟨_, Positions.insertAt_append (firstLarger_append hxs hys), List.pairwise_append.2
    ⟨hxx, List.pairwise_cons.2 ⟨hys, hyy⟩, fun x hx y hy => ?_⟩⟩
  rcases List.mem_cons.1 hy with rfl | hy
  · exact hlt x hx
  · exact hxy x hx y hy

/-- No two neighbours are out of order exactly if all keys are in strictly ascending order. -/
theorem disorder?_eq_none_iff {keys : List Field} :
    disorder? keys = none ↔ keys.Pairwise (· < ·) := by
  induction keys with
  | nil => simp
  | cons a keys ih =>
    cases keys with
    | nil => simp
    | cons b rest =>
      rw [disorder?_cons_cons]
      split_ifs with hab
      · rw [ih]
        refine ⟨fun h => List.pairwise_cons.2 ⟨?_, h⟩, fun h => (List.pairwise_cons.1 h).2⟩
        intro k hk
        rcases List.mem_cons.1 hk with rfl | hk
        · exact hab
        · exact lt_trans hab ((List.pairwise_cons.1 h).1 k hk)
      · refine iff_of_false (by simp) ?_
        intro h
        exact hab ((List.pairwise_cons.1 h).1 b (by simp))

/-! ### The order of fields and the places of keys -/

/-- Fields of all types are totally ordered, and fields of different types by the signals of their
types. In ascending keys a key is found at its one place and nowhere else, the place for a key is the
number of keys that are not larger, a key that is found has its place right behind it, and one that is
not there can be put into its place. -/
theorem search_in_order :
    ((∀ a b, Field.cmp a b = .eq ↔ a = b) ∧
      (∀ a b, Field.cmp a b = (Field.cmp b a).swap) ∧
      (∀ a b, (Field.cmp a b).isLE → (Field.cmp b a).isLE → a = b) ∧
      (∀ a b c, (Field.cmp a b).isLE → (Field.cmp b c).isLE → (Field.cmp a c).isLE) ∧
      (∀ a b, (Field.cmp a b).isLE ∨ (Field.cmp b a).isLE) ∧
      ∀ a b, a.type ≠ b.type → Field.cmp a b = compare a.type.signal b.type.signal) ∧
    ∀ keys : List Field, keys.Pairwise (· < ·) → ∀ key : Field,
      (∀ i, indexOf? key keys = some i ↔ keys[i]? = some key) ∧
      (indexOf? key keys = none ↔ key ∉ keys) ∧
      firstLarger key keys = keys.countP (· ≤ key) ∧
      (∀ i, indexOf? key keys = some i → firstLarger key keys = i + 1) ∧
      (key ∉ keys → ∃ keys', Positions.insertAt keys (firstLarger key keys) key = .ok keys' ∧
        keys'.Pairwise (· < ·)) := by
  refine ⟨⟨fun a b => ?_, Field.cmp_swap, fun a b hab hba => ?_, fun a b c => Field.cmp_isLE_trans,
    le_total, fun a b => Field.cmp_of_type_ne⟩, fun keys h key => ⟨fun i => indexOf?_eq_some_iff h,
    indexOf?_eq_none_iff h, firstLarger_eq_countP h key, fun i => firstLarger_of_indexOf? h,
    exists_insertAt_firstLarger h⟩⟩
  · exact ⟨Field.eq_of_cmp_eq, fun h => h ▸ Field.compare_self_eq a⟩
  · exact le_antisymm hab hba

/-- Keys of all types. -/
def mixedKeys : List Field := [.int32 5, .str "kiwi", .int64 (-1)]

/-- A string stands behind a 32-bit integer and before a 64-bit one. -/
theorem search_in_order_mixedKeys :
    mixedKeys.Pairwise (· < ·) ∧ indexOf? (.str "kiwi") mixedKeys = some 1 ∧
      firstLarger (.str "kiwi") mixedKeys = 2 ∧ .str "lime" ∉ mixedKeys ∧
      ∃ keys, Positions.insertAt mixedKeys (firstLarger (.str "lime") mixedKeys) (.str "lime") =
        .ok keys ∧ keys.Pairwise (· < ·) := by
  have hkeys : mixedKeys.Pairwise (· < ·) := by decide
  have hnew : .str "lime" ∉ mixedKeys := by decide
  obtain ⟨hfound, -, -, hbehind, -⟩ := search_in_order.2 mixedKeys hkeys (.str "kiwi")
  obtain ⟨-, -, -, -, hinsert⟩ := search_in_order.2 mixedKeys hkeys (.str "lime")
  have hkiwi := (hfound 1).2 rfl
  exact ⟨hkeys, hkiwi, hbehind 1 hkiwi, hnew, hinsert hnew⟩

end RecordIndex.Keys
