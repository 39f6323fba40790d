import RecordIndex.Proofs.Footprint
import RecordIndex.Proofs.Loading
import RecordIndex.Proofs.Occupancy

/-!
# Histories of calls

Calls that are made of a tree one after the other do to it what they do to the dictionary that it
represents, for as long as there is room in its files.

* `Call.leave` and `Dictionary.leave` are what calls leave behind.
* `Tree.HasRoomFor t calls`: all along the calls, no file is longer than files can be.
* `Tree.Represents.call` is one call, and `Tree.Represents.leave` are many.
* `Tree.hasRoomFor_of_length_le`: there is room for many calls in the files of a new tree, whatever
  they ask for.
* `Call.sample` and `Tree.exists_split_newStore`: calls of a new tree at which a root is split and gives
  way.
* `Call.replies_make`: a new tree answers as a dictionary without records.
* `Tree.wellFormed_run`: a call leaves every well-formed tree well-formed, new or not.
-/

namespace RecordIndex

open RecordIndex.Action

namespace Call

/-- What is asked of a tree by a call, unless the tree is cleared. -/
def request? : Call → Option Request
  | insert r => some (.change (.insert r))
  | update r => some (.change (.update r))
  | delete key => some (.change (.delete key))
  | find key => some (.question (.find key))
  | contains key => some (.question (.contains key))
  | isEmpty => some (.question .isEmpty)
  | clear => none

theorem finalState_run {c : Call} {r : Request} (h : c.request? = some r) (t : Tree) :
    finalState (c.run t) = finalState (r.run t) := by
  cases c with
  | clear => cases h
  | insert r | update r | delete key =>
    cases h
    exact finalState_map ..
  | find key | contains key | isEmpty =>
    cases h
    exact (finalState_map ..).trans (finalState_map ..).symm

/-- Clearing plants the tree anew. -/
theorem shows_clear {t : Tree} (h : t.InStep) :
    (finalState (clear.run t)).Shows (View.planted t.view.home t.keyType) := by
  obtain ⟨t', hx, ht'⟩ := Tree.turns_clear t.view t ⟨h, rfl⟩
  have hstate : finalState (clear.run t) = t' := (finalState_map _ Tree.clear t).trans (by rw [hx]; rfl)
  rw [hstate]
  exact ht'

/-- The tree that is left when one call after the other has been made, whether they fail or not. -/
def leave (calls : List Call) (t : Tree) : Tree :=
  calls.foldl (fun t c => finalState (c.run t)) t

theorem leave_append (calls later : List Call) (t : Tree) :
    leave (calls ++ later) t = leave later (leave calls t) := List.foldl_append

end Call

/-- A change as a call. -/
def Change.call : Change → Call
  | insert r => .insert r
  | update r => .update r
  | delete key => .delete key

theorem Change.run_call (c : Change) : c.call.run = (fun _ => .done) <$> c.run := by
  cases c <;> rfl

/-- What a change leaves after other calls. -/
theorem Change.leave_concat (c : Change) (calls : List Call) (t : Tree) :
    Call.leave (calls ++ [c.call]) t = finalState (c.run (Call.leave calls t)) := by
  rw [Call.leave_append]
  show finalState (c.call.run _) = _
  rw [run_call, finalState_map]

/-- The dictionary that is left when one call after the other has been made. -/
def Dictionary.leave (calls : List Call) (d : Dictionary) : Dictionary :=
  calls.foldl (fun d c => (d.apply c).2) d

namespace Tree

variable {t : Tree} {d : Dictionary} {c : Call} {calls : List Call}

/-! ### Histories that fit in the files -/

/-- All along the calls, no file is longer than files can be. -/
def HasRoomFor (t : Tree) (calls : List Call) : Prop :=
  ∀ before, before <+: calls → (Call.leave before t).store.Short

theorem hasRoomFor_nil : t.HasRoomFor [] ↔ t.store.Short := by
  simp only [HasRoomFor, List.prefix_nil, forall_eq, Call.leave, List.foldl_nil]

theorem hasRoomFor_cons : t.HasRoomFor (c :: calls) ↔
    t.store.Short ∧ (finalState (c.run t)).HasRoomFor calls := by
  constructor
  · intro h
    exact ⟨h [] List.nil_prefix, fun before hbefore =>
      h (c :: before) ((List.prefix_cons_inj c).2 hbefore)⟩
  · rintro ⟨ht, h⟩ before hbefore
    rcases List.prefix_cons_iff.1 hbefore with rfl | ⟨rest, rfl, hrest⟩
    · exact ht
    · exact h rest hrest

theorem hasRoomFor_concat : t.HasRoomFor (calls ++ [c]) ↔
    t.HasRoomFor calls ∧ (Call.leave (calls ++ [c]) t).store.Short := by
  constructor
  · intro h
    exact ⟨fun before hbefore => h before (hbefore.trans (List.prefix_append ..)),
      h _ (List.prefix_refl _)⟩
  · rintro ⟨h, hlast⟩ before hbefore
    rcases List.prefix_concat_iff.1 hbefore with rfl | hbefore
    · exact hlast
    · exact h before hbefore

/-- There is room before the first call and after it. -/
theorem HasRoomFor.short (h : t.HasRoomFor calls) : t.store.Short := h [] List.nil_prefix

theorem HasRoomFor.short_leave (h : t.HasRoomFor calls) : (Call.leave calls t).store.Short :=
  h calls (List.prefix_refl _)

/-! ### Trees and dictionaries -/

/-- The handles know what the files say, and these hold the records of the dictionary. -/
structure Represents (t : Tree) (d : Dictionary) : Prop where
  inStep : t.InStep
  view : t.view.Represents d

theorem represents_of_shows_planted {home : Home} {keyType : FieldType}
    (h : t.Shows (View.planted home keyType)) : t.Represents (.empty keyType) :=
  ⟨h.1, h.2 ▸ Call.represents_planted home keyType⟩

/-- One call that leaves room in the files. -/
theorem Represents.call (h : t.Represents d) (c : Call)
    (hshort : (finalState (c.run t)).store.Short) :
    answer (c.run t) = (d.apply c).1.mapError Failure.error ∧
      (finalState (c.run t)).Represents (d.apply c).2 ∧
      t.view.Continues (finalState (c.run t)).view := by
  obtain ⟨o, v', ho, ⟨hstep, rfl⟩, -, houtcome, hleaves⟩ :=
    Call.ends_effect h.view c t ⟨h.inStep, rfl⟩
  rcases houtcome with ⟨rfl, hd', hcontinues⟩ | ⟨-, hmarked, -⟩
  · exact ⟨ho, ⟨hstep, hd'⟩, hcontinues⟩
  · -- the tree is marked only if a file is full
    exact absurd (hleaves.full hmarked) (hstep.short_iff.1 hshort)

/-- One change that leaves room in the files. -/
theorem Represents.change (h : t.Represents d) {c : Change}
    (hshort : (finalState (c.run t)).store.Short) :
    (answer (c.run t)).map (fun _ => Reply.done) = (d.apply c.call).1.mapError Failure.error := by
  have hfinal : finalState (c.call.run t) = finalState (c.run t) := by
    rw [c.run_call, finalState_map]
  have hanswer := (h.call c.call (hfinal ▸ hshort)).1
  rw [c.run_call, run_map] at hanswer
  rw [← hanswer]
  cases c.run t <;> rfl

theorem Represents.change_ok (h : t.Represents d) {c : Change}
    (hshort : (finalState (c.run t)).store.Short) (hok : (d.apply c.call).1 = .ok .done) :
    ∃ u, c.run t = .ok () u := by
  have hanswer := h.change hshort
  rw [hok] at hanswer
  cases hrun : c.run t with
  | ok a u => exact ⟨u, rfl⟩
  | error e u =>
    rw [hrun] at hanswer
    cases hanswer

theorem Represents.change_error (h : t.Represents d) {c : Change}
    (hshort : (finalState (c.run t)).store.Short) {e : Error}
    (herror : (d.apply c.call).1 = .error e) : ∃ u, c.run t = .error (.error e) u := by
  have hanswer := h.change hshort
  rw [herror] at hanswer
  cases hrun : c.run t with
  | ok a u =>
    rw [hrun] at hanswer
    cases hanswer
  | error e' u =>
    rw [hrun] at hanswer
    cases hanswer
    exact ⟨u, rfl⟩

/-- Calls that leave room in the files. -/
theorem Represents.leave (h : t.Represents d) (hroom : t.HasRoomFor calls) :
    Call.replies calls t = (Dictionary.replies calls d).map (·.mapError Failure.error) ∧
      (Call.leave calls t).Represents (d.leave calls) ∧
      t.view.Continues (Call.leave calls t).view := by
  induction calls generalizing t d with
  | nil => exact ⟨rfl, h, rfl, id⟩
  | cons c calls ih =>
    obtain ⟨-, hroom⟩ := hasRoomFor_cons.1 hroom
    obtain ⟨hanswer, h', hcontinues⟩ := h.call c hroom.short
    obtain ⟨hreplies, hleave, hcontinues'⟩ := ih h' hroom
    refine ⟨?_, hleave, hcontinues'.home.trans hcontinues.home,
      fun hheader => hcontinues'.header (hcontinues.header hheader)⟩
    rw [Call.replies, hanswer, hreplies]
    rfl

/-- The dictionary has as many keys as the tree has entries. -/
theorem Represents.card_keys (h : t.Represents d) {H : Nat} {s : Shape H} (hs : t.view.HasShape s) :
    d.records.keys.card = s.entries.length := by
  obtain ⟨H', s', hs', hm⟩ := h.view.exists_shape
  have hentries := (hs.stored.unique hs'.stored (hs.root_eq.symm.trans hs'.root_eq)).2
  have hkeys : d.records.keys = (s.entries.map Prod.fst).toFinset := by
    ext key
    rw [Finmap.mem_keys, List.mem_toFinset, hs'.mem_iff hm, hentries]
  rw [hkeys, List.toFinset_card_of_nodup hs.nodup_keys, List.length_map]

/-- The height of a tree and the number of keys in its dictionary. -/
theorem Represents.exists_height (h : t.Represents d) : ∃ H, answer (height t) = .ok (H + 1) ∧
    d.records.keys.card ≤ 5 * 6 ^ H ∧ (0 < H → 2 * 3 ^ H ≤ d.records.keys.card) := by
  obtain ⟨H, s, hs, -⟩ := h.view.exists_shape
  rw [h.card_keys hs]
  exact ⟨H, answer_height hs, hs.length_entries_bounds⟩

theorem Represents.height_eq_one (h : t.Represents d) (hcard : d.records.keys.card < 6) :
    answer (height t) = .ok 1 := by
  obtain ⟨H, hheight, -, hlow⟩ := h.exists_height
  cases H with
  | zero => exact hheight
  | succ H =>
    have hpow : 3 ^ 1 ≤ 3 ^ (H + 1) := Nat.pow_le_pow_right (by decide) (Nat.le_add_left 1 H)
    have hlow := hlow (Nat.succ_pos H)
    omega

theorem Represents.height_eq_two (h : t.Represents d)
    (hcard : 5 < d.records.keys.card ∧ d.records.keys.card < 18) : answer (height t) = .ok 2 := by
  obtain ⟨H, hheight, hhigh, hlow⟩ := h.exists_height
  match H with
  | 0 => exact absurd hhigh (Nat.not_le.2 hcard.1)
  | 1 => exact hheight
  | H + 2 =>
    have hpow : 3 ^ 2 ≤ 3 ^ (H + 2) := Nat.pow_le_pow_right (by decide) (Nat.le_add_left 2 H)
    have hlow := hlow (Nat.succ_pos _)
    omega

/-! ### How much room there is -/

/-- What is asked of a well-formed tree writes few slots for each of its levels. -/
theorem exists_writes_of_request (hstep : t.InStep) {H : Nat} {s : Shape H}
    (hs : t.view.HasShape s) (r : Request) : ∃ k ≤ 7 * H + 9, ∃ u needsRepair,
      Writes k t u ∧ finalState (r.run t) = { u with needsRepair } := by
  cases r with
  | change c =>
    obtain ⟨k, hk, hw⟩ := c.exists_writes_le hstep hs
    refine ⟨k, hk.trans ?_, hw⟩
    cases c <;> simp only [Change.cost] <;> omega
  | question q =>
    obtain ⟨k, hk, hw, -⟩ := q.costs_run (z := .all) t hstep.opened (Nat.zero_le _)
    exact ⟨k, hk.trans (Nat.zero_le _), _, _, hw, rfl⟩

/-- A call of a well-formed tree adds few pages and few record slots for each of its levels. -/
theorem counts_le_of_call (hstep : t.InStep) {H : Nat} {s : Shape H} (hs : t.view.HasShape s)
    (c : Call) : (finalState (c.run t)).pageCount.toNat ≤ t.pageCount.toNat + (7 * H + 9) ∧
      (finalState (c.run t)).recordCount.toNat ≤ t.recordCount.toNat + (7 * H + 9) := by
  cases hr : c.request? with
  | some r =>
    obtain ⟨k, hk, u, b, hw, hfinal⟩ := exists_writes_of_request hstep hs r
    obtain ⟨hpages, hrecords⟩ := hw.counts_le hstep.opened
    rw [Call.finalState_run hr, hfinal]
    exact ⟨hpages.trans (Nat.add_le_add_left hk _), hrecords.trans (Nat.add_le_add_left hk _)⟩
  | none =>
    cases c with
    | clear =>
      obtain ⟨-, hview⟩ := Call.shows_clear hstep
      have hpages : (finalState (Call.clear.run t)).pageCount.toNat = 2 :=
        congrArg View.pageCount hview
      have hrecords : (finalState (Call.clear.run t)).recordCount.toNat = 0 :=
        congrArg View.recordCount hview
      omega
    | _ => cases hr

/-- The pages and record slots of a new tree after so many calls. -/
structure Within (t : Tree) (n : Nat) : Prop where
  pages : t.pageCount.toNat ≤ 142 * n + 2
  records : t.recordCount.toNat ≤ 142 * n

theorem Within.short {n : Nat} (h : t.Within n) (hn : n ≤ 2 ^ 24) (hstep : t.InStep) :
    t.store.Short := by
  obtain ⟨hpages, hrecords⟩ := h
  refine hstep.short ?_ ?_
  · rw [pageSize]
    omega
  · rw [recordHeaderBytes, RecordFile.maxRecordSize]
    omega

/-- So many records have a tree of so many levels only. -/
theorem Within.height_le {n : Nat} (h : t.Within n) (hn : n ≤ 2 ^ 24) {H : Nat} {s : Shape H}
    (hs : t.view.HasShape s) : H ≤ 19 := by
  by_contra hH
  have hmany : 2 * 3 ^ H ≤ t.view.recordCount :=
    (hs.length_entries_bounds.2 (by omega)).trans (hs.length_entries_le_recordCount t.valid_view)
  have hpow : 3 ^ 20 ≤ 3 ^ H := Nat.pow_le_pow_right (by decide) (by omega)
  have hfew : t.view.recordCount ≤ 142 * n := h.records
  omega

/-- There is room for many calls in the files of a new tree. -/
theorem hasRoomFor_of_length_le {home : Home} {keyType : FieldType}
    (ht : t.Shows (View.planted home keyType)) (hcalls : calls.length ≤ 2 ^ 24) :
    t.HasRoomFor calls := by
  have hd := represents_of_shows_planted ht
  suffices h : t.HasRoomFor calls ∧ (Call.leave calls t).Within calls.length from h.1
  induction calls using List.reverseRecOn with
  | nil =>
    have hwithin : t.Within 0 :=
      ⟨(congrArg View.pageCount ht.2).le, (congrArg View.recordCount ht.2).le⟩
    exact ⟨hasRoomFor_nil.2 (hwithin.short (Nat.zero_le _) ht.1), hwithin⟩
  | append_singleton calls c ih =>
    rw [List.length_append, List.length_singleton] at hcalls ⊢
    obtain ⟨hroom, hwithin⟩ := ih (Nat.le_of_succ_le hcalls)
    obtain ⟨-, ⟨hstep, hview⟩, -⟩ := hd.leave hroom
    -- the tree is not high yet, so that the last call adds little
    obtain ⟨H, s, hs⟩ := hview.wellFormed
    have hH := hwithin.height_le (Nat.le_of_succ_le hcalls) hs
    obtain ⟨hpages, hrecords⟩ := counts_le_of_call hstep hs c
    have hlast : (Call.leave (calls ++ [c]) t).Within (calls.length + 1) := by
      rw [Call.leave_append]
      have hp := hwithin.pages
      have hr := hwithin.records
      constructor
      · show (finalState (c.run (Call.leave calls t))).pageCount.toNat ≤ _
        omega
      · show (finalState (c.run (Call.leave calls t))).recordCount.toNat ≤ _
        omega
    obtain ⟨o, v', -, ⟨hstep', -⟩, -⟩ := Call.ends_run hview c _ ⟨hstep, rfl⟩
    refine ⟨hasRoomFor_concat.2 ⟨hroom, ?_⟩, hlast⟩
    refine hlast.short hcalls ?_
    rw [Call.leave_append]
    exact hstep'

end Tree

/-! ### New trees -/

/-- A record with a number besides its key. -/
def scored (key score : Int32) : Record := ⟨.int32 key, .ofList [("score", .int32 score)]⟩

namespace Call

/-- The insertions of records with these keys. -/
def insertions (keys : List Int32) : List Call := keys.map fun key => insert (scored key 0)

/-- Six records are inserted, so that the root is split, and one of them is replaced. When another
one is deleted, the root gives way, and clearing the tree makes room for smaller records. -/
def sample : List Call :=
  insertions [1, 2, 3, 4, 5, 6] ++ [insert (scored 3 7), update (scored 3 7), find (.int32 3),
    delete (.int32 1), find (.int32 1), delete (.int32 1), update ⟨.int32 2, .empty⟩,
    contains (.str "3"), clear, isEmpty, insert ⟨.int32 2, .empty⟩, isEmpty]

/-- What is answered then. -/
def sampleReplies : List (Except Error Reply) :=
  [.ok .done, .ok .done, .ok .done, .ok .done, .ok .done, .ok .done,
    .error (.alreadyExists (.int32 3)), .ok .done, .ok (.found (some (scored 3 7))), .ok .done,
    .ok (.found none), .error (.notFound (.int32 1)), .error (.slotSizeMismatch 19 5),
    .error (.invalidOperation (.treeKeyType (.str "3") .int32)), .ok .done, .ok (.flag true),
    .ok .done, .ok (.flag false)]

theorem replies_sample : Dictionary.replies sample (.empty .int32) = sampleReplies := by decide

end Call

namespace Tree

/-- What many calls leave of a tree that has been made in the new store. -/
theorem exists_make_newStore : ∃ t : Tree, make .int32 newStore = .ok t t.store ∧
    ∀ calls : List Call, calls.length ≤ 2 ^ 24 → (Call.leave calls t).store.Short ∧
      (Call.leave calls t).Represents (Dictionary.leave calls (.empty .int32)) ∧
      (View.planted newHome .int32).Continues (Call.leave calls t).view := by
  obtain ⟨t, hmake, ht⟩ := exists_make blank_newStore .int32
  refine ⟨t, hmake, fun calls hcalls => ?_⟩
  have hroom := hasRoomFor_of_length_le ht hcalls
  obtain ⟨-, hleave, hcontinues⟩ := (represents_of_shows_planted ht).leave hroom
  exact ⟨hroom.short_leave, hleave, ht.2 ▸ hcontinues⟩

/-- Five records in a new tree. A sixth one splits the root, and when one of the six is deleted, the root
gives way. After the sixth one there is room for any change. -/
theorem exists_split_newStore : ∃ t t' t'' : Tree,
    finalState ((Change.insert (scored 6 0)).run t) = t' ∧
    finalState ((Change.delete (.int32 1)).run t') = t'' ∧
    (t.Represents (Dictionary.leave (Call.insertions [1, 2, 3, 4, 5]) (.empty .int32)) ∧
      answer (height t) = .ok 1) ∧
    (t'.Represents (Dictionary.leave (Call.insertions [1, 2, 3, 4, 5, 6]) (.empty .int32)) ∧
      answer (height t') = .ok 2 ∧ ∀ c : Change, (finalState (c.run t')).store.Short) ∧
    answer (height t'') = .ok 1 := by
  obtain ⟨u, -, hleave⟩ := exists_make_newStore
  obtain ⟨-, hfive, -⟩ := hleave (Call.insertions [1, 2, 3, 4, 5]) (by decide)
  obtain ⟨-, hsix, -⟩ := hleave (Call.insertions [1, 2, 3, 4, 5] ++
    [(Change.insert (scored 6 0)).call]) (by decide)
  have hnext := fun c : Change => hleave ((Call.insertions [1, 2, 3, 4, 5] ++
    [(Change.insert (scored 6 0)).call]) ++ [c.call]) (by decide : 7 ≤ 2 ^ 24)
  rw [Change.leave_concat] at hsix
  simp only [Change.leave_concat] at hnext
  exact ⟨_, _, _, rfl, rfl, ⟨hfive, hfive.height_eq_one (by decide)⟩,
    ⟨hsix, hsix.height_eq_two (by decide), fun c => (hnext c).1⟩,
    (hnext (.delete (.int32 1))).2.1.height_eq_one (by decide)⟩

end Tree

namespace Call

/-- A tree can be made in every store whose files are empty when it is opened, and then it answers
all calls as a dictionary does that is empty at first, as long as there is room in its files. There is
room for a great many calls. Whatever is wrong with a record, it is reported as having no encoded
form. -/
theorem replies_make {config : StoreConfig} {disk disk' : Disk} {s : Store}
    (h : Store.openAt config disk = .ok s disk') (hindex : s.index.bytes.contents = [])
    (hrecords : s.records.bytes.contents = []) (keyType : FieldType) :
    (∃ t : Tree, Tree.make keyType s = .ok t t.store ∧ ∀ calls : List Call,
      (t.HasRoomFor calls → replies calls t =
        (Dictionary.replies calls (.empty keyType)).map (·.mapError Failure.error)) ∧
      (calls.length ≤ 2 ^ 24 → t.HasRoomFor calls)) ∧
    ∀ (r : Record) (e : Error), r.validate = .error e → ∃ cause, e = .encoding cause := by
  obtain ⟨t, hmake, ht⟩ := Tree.exists_make (Store.blank_of_openAt h hindex hrecords) keyType
  have hd := Tree.represents_of_shows_planted ht
  exact ⟨⟨t, hmake, fun calls => ⟨fun hroom => (hd.leave hroom).1,
    Tree.hasRoomFor_of_length_le ht⟩⟩, fun r e he => Record.exists_unencodable he⟩

/-- A new tree that grows by a level, shrinks again and is cleared. -/
theorem replies_make_newStore : ∃ t : Tree, Tree.make .int32 newStore = .ok t t.store ∧
    replies sample t = sampleReplies.map (·.mapError Failure.error) := by
  obtain ⟨disk, hopen⟩ := exists_openAt_newStore
  obtain ⟨⟨t, hmake, hcalls⟩, -⟩ := replies_make hopen rfl rfl .int32
  obtain ⟨hreplies, hroom⟩ := hcalls sample
  refine ⟨t, hmake, ?_⟩
  rw [hreplies (hroom (by decide)), replies_sample]

end Call

/-! ### Well-formed trees -/

namespace Tree

/-- A call leaves every well-formed tree that need not be repaired well-formed, whatever it asks for
and whether or not it succeeds. It never comes to a fault. If it fails, then either the request is
refused, and the tree is as it was but for the counters of slots read; or the file system has
failed, and then the tree is in need of repair. That happens only if a file cannot become longer. -/
theorem wellFormed_run {t : Tree} (hstep : t.InStep) (hwell : t.WellFormed)
    (hintact : t.needsRepair = false) (c : Call) : ∃ (o : Except Error Reply) (t' : Tree),
      answer (c.run t) = o.mapError Failure.error ∧ finalState (c.run t) = t' ∧
      t'.InStep ∧ t'.WellFormed ∧
      (t'.needsRepair = true ↔ ∃ cause, o = .error (.io cause)) ∧
      (t'.needsRepair = true → t'.view.Full) ∧
      ∀ e, o = .error e → (∃ cause, e = .io cause) ∨
        e.isRefusal = true ∧ ∃ i j, t' = t.addReads i j := by
  obtain ⟨d, hd⟩ := hwell.exists_represents hintact
  obtain ⟨o, v', ho, ht', hspares, hc, hleaves⟩ := Call.ends_effect hd c t ⟨hstep, rfl⟩
  generalize finalState (c.run t) = t' at ht' hspares
  obtain ⟨hstep', rfl⟩ := ht'
  refine ⟨o, t', ho, rfl, hstep', ?_⟩
  rcases hc with ⟨hanswer, hd', -⟩ | ⟨⟨cause, rfl⟩, hneeds, hwell'⟩
  · have hrefusal : ∀ e, o = .error e → e.isRefusal = true := fun e he =>
      Dictionary.isRefusal_of_apply (hanswer.symm.trans he)
    have hsound : t'.needsRepair = false := hd'.intact
    refine ⟨hd'.wellFormed, ?_, hleaves.full,
      fun e he => .inr ⟨hrefusal e he, hspares e he (Error.isIo_of_isRefusal (hrefusal e he))⟩⟩
    rw [hsound]
    refine ⟨nofun, ?_⟩
    rintro ⟨cause, he⟩
    exact absurd (hrefusal _ he) Bool.false_ne_true
  · refine ⟨hwell', ⟨fun _ => ⟨cause, rfl⟩, fun _ => hneeds⟩, hleaves.full, fun e he =>
      .inl ⟨cause, ?_⟩⟩
    cases he
    rfl

/-- A tree with five records is saved and opened again. A sixth record splits its root. -/
theorem wellFormed_run_newStore : ∃ (disk : Disk) (s s' : Store) (t t' : Tree),
    Store.openAt newStore.config disk = .ok s disk ∧ load s = .ok t s' ∧
      answer (height t) = .ok 1 ∧ finalState ((Call.insert (scored 6 0)).run t) = t' ∧
      t'.WellFormed ∧ t'.needsRepair = false ∧ answer (height t') = .ok 2 := by
  obtain ⟨u, -, hleave⟩ := exists_make_newStore
  obtain ⟨hshort, hfive, hcontinues⟩ := hleave (Call.insertions [1, 2, 3, 4, 5]) (by decide)
  obtain ⟨hlast, -⟩ := hleave (Call.insertions [1, 2, 3, 4, 5] ++ [.insert (scored 6 0)]) (by decide)
  rw [Call.leave_append] at hlast
  generalize Call.leave (Call.insertions [1, 2, 3, 4, 5]) u = t at hshort hfive hcontinues hlast
  obtain ⟨disk, s, s', n, hopen, hload, hstep, -⟩ := exists_load_saved hfive.inStep hshort
    hcontinues.home (hcontinues.header rfl) hfive.view.intact
  have ht : (t.tally n).Represents _ := ⟨hstep, hfive.view⟩
  -- the counters make no difference to the sixth insertion
  have hshort' : (finalState ((Call.insert (scored 6 0)).run (t.tally n))).store.Short := by
    rw [(Call.commutes_run _).finalState_eq]
    exact ⟨hlast.index, hlast.records⟩
  obtain ⟨-, ht', -⟩ := ht.call _ hshort'
  obtain ⟨o, t', -, hfinal, -, hwell, -⟩ :=
    wellFormed_run ht.inStep ht.view.wellFormed ht.view.intact (.insert (scored 6 0))
  rw [hfinal] at ht'
  exact ⟨disk, s, s', t.tally n, t', hopen, hload, ht.height_eq_one (by decide), hfinal, hwell,
    ht'.view.intact, ht'.height_eq_two (by decide)⟩

end Tree
end RecordIndex
