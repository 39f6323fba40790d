import RecordIndex.Proofs.Accounting
import RecordIndex.Proofs.Audit
import RecordIndex.Proofs.Occupancy

/-!
# The height of a tree

A tree of `h` levels has at most `5 * 6 ^ (h - 1)` keys, and at least `2 * 3 ^ (h - 1)` if it has more
than one level.

* `Tree.Sound.leave`: what is needed for the bounds holds after every run of calls.
* `Tree.logarithmic_height`: the bounds in the words of the operations.
-/

namespace RecordIndex

open RecordIndex.Action

/-! ### Runs -/

namespace Tree

variable {t : Tree}

/-- The handles know what the files say, and the tree is well-formed. -/
structure Sound (t : Tree) : Prop where
  inStep : t.InStep
  wellFormed : t.WellFormed

/-- A tree that has just been made. -/
theorem sound_of_shows_rooted {v : View} (h : t.Shows v.rooted) : t.Sound where
  inStep := h.1
  wellFormed := by
    rw [WellFormed, h.2]
    exact ⟨_, _, View.hasShape_rooted v⟩

/-- One call, whether or not it fails and whether or not the tree waits to be repaired. -/
theorem Sound.call (h : t.Sound) (c : Call) : (finalState (c.run t)).Sound := by
  cases hrepair : t.needsRepair with
  | false =>
    obtain ⟨d, hd⟩ := h.wellFormed.exists_represents hrepair
    obtain ⟨o, v', -, ⟨hstep, rfl⟩, -, houtcome⟩ := Call.ends_run hd c t ⟨h.inStep, rfl⟩
    refine ⟨hstep, ?_⟩
    rcases houtcome with ⟨-, hd', -⟩ | ⟨-, -, hwell⟩
    · exact hd'.wellFormed
    · exact hwell
  | true =>
    cases hr : c.request? with
    | some r =>
      -- only what is read is counted, until the tree is cleared
      obtain ⟨i, j, heq⟩ := Request.exists_addReads [r] h.inStep.opened hrepair
      have hstate : finalState (c.run t) = t.addReads i j := (Call.finalState_run hr t).trans heq
      rw [hstate]
      exact ⟨h.inStep.addReads i j, h.wellFormed⟩
    | none =>
      cases c with
      | clear =>
        obtain ⟨hstep, hview⟩ := Call.shows_clear h.inStep
        refine ⟨hstep, ?_⟩
        rw [WellFormed, hview]
        exact ⟨_, _, View.hasShape_planted ..⟩
      | _ => cases hr

/-- Any calls, one after the other. -/
theorem Sound.leave (h : t.Sound) (calls : List Call) : (Call.leave calls t).Sound := by
  induction calls generalizing t with
  | nil => exact h
  | cons c calls ih => exact ih (h.call c)

/-- The number of the keys in a tree, and its height. -/
theorem Sound.exists_keys (h : t.Sound) : ∃ (height : Nat) (keys : Finset Field),
    answer (Tree.height t) = .ok height ∧ 0 < height ∧
    (∀ key, answer (contains key t) = .ok true ↔ key ∈ keys) ∧
    keys.card ≤ 5 * 6 ^ (height - 1) ∧ (2 ≤ height → 2 * 3 ^ (height - 1) ≤ keys.card) := by
  obtain ⟨H, s, hs⟩ := h.wellFormed
  refine ⟨H + 1, (s.entries.map Prod.fst).toFinset,
    (answers_height (hs.shaped t.valid_view) t.valid_view).answer_eq rfl, Nat.succ_pos H,
    fun key => ?_, ?_, ?_⟩
  · rw [List.mem_toFinset]
    exact (found_iff hs key).2
  · rw [List.toFinset_card_of_nodup hs.nodup_keys, List.length_map]
    exact hs.length_entries_bounds.1
  · intro hheight
    rw [List.toFinset_card_of_nodup hs.nodup_keys, List.length_map]
    exact hs.length_entries_bounds.2 (Nat.lt_of_succ_lt_succ hheight)

/-- The keys that are found are those of the dictionary. -/
theorem Represents.card_of_contains {d : Dictionary} (h : t.Represents d) {keys : Finset Field}
    (hkeys : ∀ key, answer (contains key t) = .ok true ↔ key ∈ keys) :
    keys.card = d.records.keys.card := by
  obtain ⟨H, s, hs, -⟩ := h.view.exists_shape
  have heq : keys = (s.entries.map Prod.fst).toFinset := by
    ext key
    rw [← hkeys, (found_iff hs key).2, List.mem_toFinset]
  rw [heq, List.toFinset_card_of_nodup hs.nodup_keys, List.length_map, h.card_keys hs]

/-- In every store without pages whose handles know what the files say, a tree can be made. Whatever
calls are made of it then, whether or not they fail, the number of its keys lies between two powers of
its height, and a tree without keys has one level. -/
theorem logarithmic_height {s : Store} {keyType : FieldType}
    (hstep : (⟨s, keyType, .header, false⟩ : Tree).InStep) (hempty : s.isEmpty = true) :
    ∃ t : Tree, make keyType s = .ok t t.store ∧ ∀ calls : List Call,
      ∃ (height : Nat) (keys : Finset Field),
        answer (Tree.height (Call.leave calls t)) = .ok height ∧
        (∀ key, answer (contains key (Call.leave calls t)) = .ok true ↔ key ∈ keys) ∧
        keys.card ≤ 5 * 6 ^ (height - 1) ∧
        (2 ≤ height → 2 * 3 ^ (height - 1) ≤ keys.card) ∧ (keys = ∅ → height = 1) := by
  obtain ⟨t, hmake, ht⟩ := exists_make_rooted hstep hempty
  have hsound := sound_of_shows_rooted ht
  refine ⟨t, hmake, fun calls => ?_⟩
  obtain ⟨height, keys, hheight, hpos, hkeys, hle, hge⟩ := (hsound.leave calls).exists_keys
  refine ⟨height, keys, hheight, hkeys, hle, hge, ?_⟩
  rintro rfl
  by_contra hne
  have hmany : 2 * 3 ^ (height - 1) ≤ 0 := hge (by omega)
  exact absurd hmany (Nat.not_le.2 (Nat.mul_pos Nat.two_pos (Nat.pow_pos (by decide))))

/-- With six records a new tree has two levels, and one level when one of them has been deleted. -/
theorem logarithmic_height_newStore : ∃ t : Tree, make .int32 newStore = .ok t t.store ∧
    (∃ keys : Finset Field, answer (height (Call.leave (Call.insertions [1, 2, 3, 4, 5, 6]) t)) =
        .ok 2 ∧
      (∀ key, answer (contains key (Call.leave (Call.insertions [1, 2, 3, 4, 5, 6]) t)) = .ok true ↔
        key ∈ keys) ∧ keys.card = 6) ∧
    ∃ keys : Finset Field, answer (height (Call.leave
        (Call.insertions [1, 2, 3, 4, 5, 6] ++ [.delete (.int32 1)]) t)) = .ok 1 ∧
      (∀ key, answer (contains key (Call.leave
        (Call.insertions [1, 2, 3, 4, 5, 6] ++ [.delete (.int32 1)]) t)) = .ok true ↔ key ∈ keys) ∧
      keys.card = 5 := by
  obtain ⟨t, hmake, hleave⟩ := exists_make_newStore
  have hstep := (shows_blank (t := ⟨newStore, .int32, .header, false⟩) blank_newStore rfl).1
  obtain ⟨t', hmake', hruns⟩ := logarithmic_height hstep rfl
  cases hmake.symm.trans hmake'
  obtain ⟨-, hsix, -⟩ := hleave (Call.insertions [1, 2, 3, 4, 5, 6]) (by decide)
  obtain ⟨-, hfive, -⟩ := hleave (Call.insertions [1, 2, 3, 4, 5, 6] ++ [.delete (.int32 1)]) (by decide)
  obtain ⟨height₆, keys₆, hheight₆, hkeys₆, -⟩ := hruns (Call.insertions [1, 2, 3, 4, 5, 6])
  obtain ⟨height₅, keys₅, hheight₅, hkeys₅, -⟩ :=
    hruns (Call.insertions [1, 2, 3, 4, 5, 6] ++ [.delete (.int32 1)])
  exact ⟨t, hmake, ⟨keys₆, hsix.height_eq_two (by decide), hkeys₆,
      (hsix.card_of_contains hkeys₆).trans (by decide)⟩,
    ⟨keys₅, hfive.height_eq_one (by decide), hkeys₅,
      (hfive.card_of_contains hkeys₅).trans (by decide)⟩⟩

end Tree
end RecordIndex
