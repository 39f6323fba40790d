import Mathlib
import RecordIndex.Proofs.Change
import RecordIndex.Proofs.Opening

/-!
# Trees are dictionaries

Every call does to a tree what it does to the dictionary that the tree represents.

* `View.Represents`: what is shown is a well-formed tree with the records of a dictionary.
* `Call.ends_run`: one call, in any well-formed tree that need not be repaired. If the file system
  fails, the tree is well-formed still and waits to be repaired.
* `View.WellFormed.exists_represents`: there is a dictionary for every well-formed tree, so whatever
  is asked for, a well-formed tree stays one.
-/

namespace RecordIndex

namespace View

/-- What is shown is a well-formed tree that need not be repaired, and its entries lead to the
records of the dictionary. -/
structure Represents (v : View) (d : Dictionary) : Prop where
  intact : v.needsRepair = false
  keyType_eq : d.keyType = v.keyType
  recordSize_eq : d.recordSize = v.recordSize
  exists_shape : ∃ (h : Nat) (s : Shape h), v.HasShape s ∧
    ∀ k r, d.records.lookup k = some r ↔ ∃ id, (k, id) ∈ s.entries ∧ v.record id = some r

/-- Another view of the same files, whose header page names the root if it has done so before. -/
structure Continues (v v' : View) : Prop where
  home : v'.home = v.home
  header : v.header = some ⟨v.keyType, v.root⟩ → v'.header = some ⟨v'.keyType, v'.root⟩

variable {v v' : View} {d : Dictionary} {h : Nat} {s : Shape h}

theorem HasShape.nodup_keys (hs : v.HasShape s) : (s.entries.map Prod.fst).Nodup :=
  ((Shape.ranged_iff hs.occupied.2).1 hs.ranged).1.entries.imp ne_of_lt

/-- A key has one entry. -/
theorem HasShape.eq_of_key_eq (hs : v.HasShape s) {k : Field} {id id' : RecordId}
    (he : (k, id) ∈ s.entries) (he' : (k, id') ∈ s.entries) : id = id' :=
  congrArg Prod.snd (List.inj_on_of_nodup_map hs.nodup_keys he he' rfl)

theorem HasShape.mem_iff (hs : v.HasShape s) {m : Finmap fun _ : Field => Record}
    (hm : ∀ k r, m.lookup k = some r ↔ ∃ id, (k, id) ∈ s.entries ∧ v.record id = some r)
    {k : Field} : k ∈ m ↔ k ∈ s.entries.map Prod.fst := by
  rw [Finmap.mem_iff, List.mem_map]
  constructor
  · rintro ⟨r, hr⟩
    obtain ⟨id, he, -⟩ := (hm k r).1 hr
    exact ⟨_, he, rfl⟩
  · rintro ⟨⟨k', id⟩, he, rfl⟩
    obtain ⟨r, hr, -⟩ := hs.resolved _ he
    exact ⟨r, (hm k' r).2 ⟨id, he, hr⟩⟩

end View

/-- What a call does: to the tree what it does to the dictionary; or the file system has failed, and
the tree waits to be repaired but is well-formed. -/
def Call.Outcome (v : View) (d : Dictionary) (c : Call) (o : Except Error Reply) (v' : View) :
    Prop :=
  (o = (d.apply c).1 ∧ v'.Represents (d.apply c).2 ∧ v.Continues v') ∨
    (∃ cause, o = .error (.io cause)) ∧ v'.needsRepair = true ∧ v'.WellFormed

namespace Call

variable {v v' : View} {d : Dictionary} {c : Call}

/-- What a call leaves behind: it does not use again what is no longer in use, and a tidy tree is tidy
then, or it has to be repaired because a file cannot become longer. -/
structure Leaves (c : Call) (v v' : View) : Prop where
  retires : c ≠ .clear → v.Retires v'
  tidy : ∀ {h : Nat} {s : Shape h}, v.HasShape s → v.Tidy s → v'.needsRepair = false →
    ∃ (h' : Nat) (s' : Shape h'), v'.HasShape s' ∧ v'.Tidy s'
  full : v'.needsRepair = true → v'.Full

/-- Reading leaves everything as it is. -/
theorem leaves_refl (hd : v.Represents d) : c.Leaves v v :=
  ⟨fun _ => .refl v, fun hs ht _ => ⟨_, _, hs, ht⟩, fun hmarked => by cases hd.intact.symm.trans hmarked⟩

/-- A call that leaves a tidy tree of a shape that is known. -/
theorem leaves_of_tidy {h h' : Nat} {s : Shape h} {s' : Shape h'} {d' : Dictionary}
    (hd' : v'.Represents d') (hs : v.HasShape s) (hs' : v'.HasShape s') (hretires : v.Retires v')
    (htidy : v.Tidy s → v'.Tidy s') : c.Leaves v v' :=
  ⟨fun _ => hretires, fun hs₀ ht _ => ⟨_, _, hs', htidy (ht.congr hs₀ hs)⟩,
    fun hmarked => by cases hd'.intact.symm.trans hmarked⟩

/-- A call at which the file system has failed. -/
theorem leaves_broken {v₁ : View} (h : v.Retires v₁) (hfull : v₁.Full) :
    c.Leaves v { v₁ with needsRepair := true } :=
  ⟨fun _ => ⟨h.pageCount_le, h.recordCount_le, h.node, h.record⟩,
    fun _ _ hintact => absurd hintact nofun, fun _ => hfull⟩

/-- A call that is refused changes nothing. -/
theorem outcome_refused (hd : v.Represents d) {e : Error} (hc : d.apply c = (.error e, d)) :
    c.Outcome v d (.error e) v :=
  .inl ⟨by rw [hc], by rw [hc]; exact hd, ⟨rfl, id⟩⟩

/-- A call that is answered. -/
theorem outcome_answered {a : Reply} {d' : Dictionary} (hd : v'.Represents d')
    (hv : v.Continues v') (hc : d.apply c = (.ok a, d')) : c.Outcome v d (.ok a) v' :=
  .inl ⟨by rw [hc], by rw [hc]; exact hd, hv⟩

/-- A change at which the file system fails. -/
theorem outcome_broken {cause : IoError} {v₁ : View} (hv : v₁.WellFormed) :
    c.Outcome v d (.error (.io cause)) { v₁ with needsRepair := true } := by
  obtain ⟨h, s, hs⟩ := hv
  exact .inr ⟨⟨cause, rfl⟩, rfl, h, s, hs.root_eq, hs.stored, hs.nodup, hs.ranged, hs.occupied,
    hs.resolved⟩

/-- What a call does, and what it leaves behind. -/
def Effect (v : View) (d : Dictionary) (c : Call) (o : Except Error Reply) (v' : View) : Prop :=
  c.Outcome v d o v' ∧ c.Leaves v v'

theorem effect_refused (hd : v.Represents d) {e : Error} (hc : d.apply c = (.error e, d)) :
    c.Effect v d (.error e) v :=
  ⟨outcome_refused hd hc, leaves_refl hd⟩

/-- A call that reads only. -/
theorem effect_read {a : Reply} (hd : v.Represents d) (hc : d.apply c = (.ok a, d)) :
    c.Effect v d (.ok a) v :=
  ⟨outcome_answered hd ⟨rfl, id⟩ hc, leaves_refl hd⟩

/-- A record whose key has not been there. -/
theorem represents_insert (hd : v.Represents d) {h : Nat} {s : Shape h}
    (hm : ∀ k r, d.records.lookup k = some r ↔ ∃ id, (k, id) ∈ s.entries ∧ v.record id = some r)
    {r : Record} (hkey : r.key ∉ s.entries.map Prod.fst) (hkeep : (v.addRecord r).Keeps v')
    {h' : Nat} {s' : Shape h'} (hs' : v'.HasShape s')
    (hentries : ∀ e, e ∈ s'.entries ↔ e = (r.key, v.nextRecord) ∨ e ∈ s.entries)
    (hrecord : ∀ e ∈ s.entries, v'.record e.2 = v.record e.2) :
    v'.Represents { d with recordSize := some r.size, records := d.records.insert r.key r } where
  intact := hkeep.needsRepair.trans hd.intact
  keyType_eq := hd.keyType_eq.trans hkeep.keyType.symm
  recordSize_eq := hkeep.recordSize.symm
  exists_shape := by
    refine ⟨h', s', hs', fun k r' => ?_⟩
    -- the new key has the new record, and every other key what it had
    have hnew : v'.record v.nextRecord = some r := by
      rw [hkeep.record]
      exact Function.update_self ..
    by_cases hk : k = r.key
    · subst hk
      rw [Finmap.lookup_insert]
      constructor
      · intro hr
        exact ⟨v.nextRecord, (hentries _).2 (.inl rfl), hnew.trans hr⟩
      · rintro ⟨id, he, hr⟩
        rcases (hentries _).1 he with heq | he
        · cases heq
          exact hnew.symm.trans hr
        · exact absurd (List.mem_map.2 ⟨_, he, rfl⟩) hkey
    · rw [Finmap.lookup_insert_of_ne _ hk, hm]
      constructor
      · rintro ⟨id, he, hr⟩
        exact ⟨id, (hentries _).2 (.inr he), (hrecord _ he).trans hr⟩
      · rintro ⟨id, he, hr⟩
        rcases (hentries _).1 he with heq | he
        · exact absurd (congrArg Prod.fst heq) hk
        · exact ⟨id, he, (hrecord _ he).symm.trans hr⟩

/-- Another record for a key. -/
theorem represents_update (hd : v.Represents d) {h : Nat} {s : Shape h} (hs : v.HasShape s)
    (hm : ∀ k r, d.records.lookup k = some r ↔ ∃ id, (k, id) ∈ s.entries ∧ v.record id = some r)
    {r : Record} {id : RecordId} (he : (r.key, id) ∈ s.entries) :
    (v.setRecord id (some r)).Represents { d with records := d.records.insert r.key r } where
  intact := hd.intact
  keyType_eq := hd.keyType_eq
  recordSize_eq := hd.recordSize_eq
  exists_shape := by
    refine ⟨h, s, Tree.hasShape_setRecord hs he, fun k r' => ?_⟩
    have hself : (v.setRecord id (some r)).record id = some r := Function.update_self ..
    -- no other entry leads to the slot that is written
    have hother : ∀ {k' id'}, (k', id') ∈ s.entries → k' ≠ r.key →
        (v.setRecord id (some r)).record id' = v.record id' := by
      intro k' id' he' hk
      refine Function.update_of_ne (fun hid => hk ?_) ..
      exact congrArg Prod.fst (Tree.eq_of_record_eq hs he' he hid)
    by_cases hk : k = r.key
    · subst hk
      rw [Finmap.lookup_insert]
      constructor
      · intro hr
        exact ⟨id, he, hself.trans hr⟩
      · rintro ⟨id', he', hr⟩
        obtain rfl : id' = id := hs.eq_of_key_eq he' he
        exact hself.symm.trans hr
    · rw [Finmap.lookup_insert_of_ne _ hk, hm]
      refine exists_congr fun id' => and_congr_right fun he' => ?_
      rw [hother he' hk]

/-- A key that is no longer there. -/
theorem represents_delete (hd : v.Represents d) {h : Nat} {s : Shape h} (hs : v.HasShape s)
    (hm : ∀ k r, d.records.lookup k = some r ↔ ∃ id, (k, id) ∈ s.entries ∧ v.record id = some r)
    {key : Field} {id : RecordId} (he : (key, id) ∈ s.entries)
    (hkeep : (v.setRecord id none).Keeps v') {h' : Nat} {s' : Shape h'} (hs' : v'.HasShape s')
    (hentries : ∀ e, e ∈ s'.entries ↔ e ∈ s.entries ∧ e.1 ≠ key) :
    v'.Represents { d with records := d.records.erase key } where
  intact := hkeep.needsRepair.trans hd.intact
  keyType_eq := hd.keyType_eq.trans hkeep.keyType.symm
  recordSize_eq := hd.recordSize_eq.trans hkeep.recordSize.symm
  exists_shape := by
    refine ⟨h', s', hs', fun k r => ?_⟩
    by_cases hk : k = key
    · subst hk
      rw [Finmap.lookup_erase]
      constructor
      · intro hr
        cases hr
      · rintro ⟨id', he', -⟩
        exact absurd rfl ((hentries _).1 he').2
    · rw [Finmap.lookup_erase_ne hk, hm]
      refine exists_congr fun id' => ?_
      rw [hentries, and_iff_left hk]
      refine and_congr_right fun he' => ?_
      have hid : id' ≠ id := fun hid => hk (congrArg Prod.fst (Tree.eq_of_record_eq hs he' he hid))
      rw [hkeep.record]
      exact Eq.congr (Function.update_of_ne hid ..).symm rfl

theorem ends_insert (hd : v.Represents d) (r : Record) :
    Tree.Ends (run (insert r)) v ((insert r).Effect v d) := by
  obtain ⟨h, s, hs, hm⟩ := hd.exists_shape
  refine Tree.ends_of_valid fun hv => Tree.ends_of_recordSize_le fun hmax => .map ?_
  have hstorable := Tree.answers_requireStorable hd.keyType_eq hd.recordSize_eq r
  refine (Tree.answers_requireIntact hd.intact).bind_ends ?_
  cases hr : d.refusal r with
  | some e =>
    rw [hr] at hstorable
    refine hstorable.bind_error.ends (effect_refused hd ?_)
    simp only [Dictionary.apply, Dictionary.withRecord, hr]
  | none =>
    rw [hr] at hstorable
    obtain ⟨htype, hvalid, hsize⟩ := Dictionary.refusal_eq_none_iff.1 hr
    rw [hd.keyType_eq] at htype
    refine hstorable.bind_ends ?_
    by_cases hkey : r.key ∈ d.records
    · have hentry := (hs.mem_iff hm).1 hkey
      refine ((Tree.refuses_addRecord (hs.shaped hv) hv hentry).guarded rfl).ends
        (effect_refused hd ?_)
      simp only [Dictionary.apply, Dictionary.withRecord, hr, if_pos hkey]
    · have hentry : r.key ∉ s.entries.map Prod.fst := fun hmem => hkey ((hs.mem_iff hm).2 hmem)
      by_cases hlarge : d.recordSize = none ∧ RecordFile.maxRecordSize < r.size
      · have hnone := hlarge.1
        rw [hd.recordSize_eq] at hnone
        refine ((Tree.refuses_addLarge (hs.shaped hv) hv hentry hvalid hnone
          hlarge.2).guarded rfl).ends (effect_refused hd ?_)
        simp only [Dictionary.apply, Dictionary.withRecord, hr, if_neg hkey, if_pos hlarge]
      · have hle : r.size ≤ RecordFile.maxRecordSize := by
          cases hs : d.recordSize with
          | none => exact Nat.le_of_not_lt fun hlt => hlarge ⟨hs, hlt⟩
          | some n =>
            rw [← hsize n hs]
            exact hmax n (by rw [← hd.recordSize_eq, hs])
        rw [hd.recordSize_eq] at hsize
        refine (Tree.yields_addRecord hs hentry htype hvalid hsize hle).guarded.ends ?_ ?_
        · rintro _ v' ⟨hkeep, h', s', hs', -, hentries, hrecord, hset, hretires⟩
          have hd' := represents_insert hd hm hentry hkeep hs' hentries hrecord
          refine ⟨outcome_answered hd' ⟨hkeep.home, hkeep.header⟩ ?_,
            leaves_of_tidy hd' hs hs' hretires fun ht => ht.addRecord hkeep hset hentries⟩
          simp only [Dictionary.apply, Dictionary.withRecord, hr, if_neg hkey, if_neg hlarge]
        · rintro e v' ⟨v₁, ⟨⟨_, hv₁⟩, -, hretires, hfull⟩, rfl⟩
          exact ⟨outcome_broken ⟨h, _, hv₁⟩, leaves_broken hretires hfull⟩

theorem ends_update (hd : v.Represents d) (r : Record) :
    Tree.Ends (run (update r)) v ((update r).Effect v d) := by
  obtain ⟨h, s, hs, hm⟩ := hd.exists_shape
  refine Tree.ends_of_valid fun hv => .map ?_
  have hstorable := Tree.answers_requireStorable hd.keyType_eq hd.recordSize_eq r
  refine (Tree.answers_requireIntact hd.intact).bind_ends ?_
  cases hr : d.refusal r with
  | some e =>
    rw [hr] at hstorable
    refine hstorable.bind_error.ends (effect_refused hd ?_)
    simp only [Dictionary.apply, Dictionary.withRecord, hr]
  | none =>
    rw [hr] at hstorable
    obtain ⟨-, hvalid, hsize⟩ := Dictionary.refusal_eq_none_iff.1 hr
    refine hstorable.bind_ends ?_
    by_cases hkey : r.key ∈ d.records
    · obtain ⟨⟨k, id⟩, he, hk⟩ := List.mem_map.1 ((hs.mem_iff hm).1 hkey)
      obtain rfl : k = r.key := hk
      obtain ⟨old, hold, -⟩ := hs.resolved _ he
      obtain ⟨n, hn⟩ := hv.exists_recordSize hold
      have hn' := hsize n (hd.recordSize_eq.trans hn)
      subst hn'
      have hturns := Tree.turns_replaceRecord hs hv he hvalid hn
      refine (hturns.yields (Q := fun _ v' => v' = v.setRecord id (some r)) (E := fun _ => False)
        rfl).guarded.ends ?_ ?_
      · rintro _ v' rfl
        have hused : v.record id ≠ none := fun hnone => by cases hold.symm.trans hnone
        have hd' := represents_update hd hs hm he
        have hs' := Tree.hasShape_setRecord hs he
        refine ⟨outcome_answered hd' ⟨rfl, fun hv => hv⟩ ?_, leaves_of_tidy hd' hs hs'
          (View.retires_setRecord hused (.refl _) (View.leavesVacant_refl v)) fun ht =>
            ht.replaceRecord he⟩
        simp only [Dictionary.apply, Dictionary.withRecord, hr, if_pos hkey]
      · rintro e v' ⟨v₁, hv₁, -⟩
        exact absurd hv₁ not_false
    · have hentry : r.key ∉ s.entries.map Prod.fst := fun hmem => hkey ((hs.mem_iff hm).2 hmem)
      refine ((Tree.refuses_replaceRecord (hs.shaped hv) hv hentry).guarded rfl).ends
        (effect_refused hd ?_)
      simp only [Dictionary.apply, Dictionary.withRecord, hr, if_neg hkey]

/-- A call that is refused for its key. -/
theorem withKey_of_ne {key : Field} (hkey : key.type ≠ v.keyType) (hd : v.Represents d)
    {x : Except Error Reply × Dictionary} : d.withKey key x =
      (.error (.invalidOperation (.treeKeyType key v.keyType)), d) := by
  rw [Dictionary.withKey, hd.keyType_eq, if_neg hkey]

theorem withKey_of_eq {key : Field} (hkey : key.type = v.keyType) (hd : v.Represents d)
    {x : Except Error Reply × Dictionary} : d.withKey key x = x := by
  rw [Dictionary.withKey, hd.keyType_eq, if_pos hkey]

theorem ends_delete (hd : v.Represents d) (key : Field) :
    Tree.Ends (run (delete key)) v ((delete key).Effect v d) := by
  obtain ⟨h, s, hs, hm⟩ := hd.exists_shape
  refine Tree.ends_of_valid fun hv => .map ?_
  refine (Tree.answers_requireIntact hd.intact).bind_ends ?_
  by_cases htype : key.type = v.keyType
  · refine (Tree.answers_requireKeyType htype).bind_ends ?_
    by_cases hkey : key ∈ d.records
    · obtain ⟨⟨k, id⟩, he, hk⟩ := List.mem_map.1 ((hs.mem_iff hm).1 hkey)
      obtain rfl : k = key := hk
      refine (Tree.yields_removeKey hs he).guarded.ends ?_ ?_
      · rintro _ v' ⟨hkeep, h', s', hs', -, hentries, hset, hretires⟩
        have hd' := represents_delete hd hs hm he hkeep hs' hentries
        refine ⟨outcome_answered hd' ⟨hkeep.home, hkeep.header⟩ ?_,
          leaves_of_tidy hd' hs hs' hretires fun ht =>
            ht.eraseRecord (fun id' he' => hs.eq_of_key_eq he' he) hkeep hset hentries⟩
        simp only [Dictionary.apply, withKey_of_eq htype hd, if_pos hkey]
      · rintro e v' ⟨v₁, hv₁, -⟩
        exact absurd hv₁ not_false
    · have hentry : key ∉ s.entries.map Prod.fst := fun hmem => hkey ((hs.mem_iff hm).2 hmem)
      refine ((Tree.refuses_removeKey (hs.shaped hv) hv hentry).guarded rfl).ends
        (effect_refused hd ?_)
      simp only [Dictionary.apply, withKey_of_eq htype hd, if_neg hkey]
  · exact (Tree.refuses_requireKeyType htype).bind_error.ends
      (effect_refused hd (withKey_of_ne htype hd))

theorem ends_find (hd : v.Represents d) (key : Field) :
    Tree.Ends (run (find key)) v ((find key).Effect v d) := by
  obtain ⟨h, s, hs, hm⟩ := hd.exists_shape
  refine Tree.ends_of_valid fun hv => .map ?_
  by_cases htype : key.type = v.keyType
  · have hfound : Tree.Answers (Tree.lookup key) v (.ok (d.records.lookup key)) := by
      cases hr : d.records.lookup key with
      | none =>
        refine Tree.answers_lookup_none (hs.shaped hv) hv htype fun hmem => ?_
        exact Finmap.lookup_eq_none.1 hr ((hs.mem_iff hm).2 hmem)
      | some r =>
        obtain ⟨id, he, hrecord⟩ := (hm key r).1 hr
        obtain ⟨r', hr', hk⟩ := hs.resolved _ he
        obtain rfl : r' = r := Option.some.inj (hr'.symm.trans hrecord)
        exact Tree.answers_lookup (hs.shaped hv) hv htype he hrecord hk
    refine hfound.turns.ends (effect_read hd ?_)
    simp only [Dictionary.apply, withKey_of_eq htype hd]
  · exact (Tree.refuses_requireKeyType htype).bind_error.ends
      (effect_refused hd (withKey_of_ne htype hd))

theorem ends_contains (hd : v.Represents d) (key : Field) :
    Tree.Ends (run (contains key)) v ((contains key).Effect v d) := by
  obtain ⟨h, s, hs, hm⟩ := hd.exists_shape
  refine Tree.ends_of_valid fun hv => .map ?_
  by_cases htype : key.type = v.keyType
  · refine (Tree.answers_contains (hs.shaped hv) hv htype).turns.ends (effect_read hd ?_)
    simp only [Dictionary.apply, withKey_of_eq htype hd, hs.mem_iff hm]
  · exact (Tree.refuses_requireKeyType htype).bind_error.ends
      (effect_refused hd (withKey_of_ne htype hd))

theorem ends_isEmpty (hd : v.Represents d) :
    Tree.Ends (run isEmpty) v (isEmpty.Effect v d) := by
  obtain ⟨h, s, hs, hm⟩ := hd.exists_shape
  refine Tree.ends_of_valid fun hv => .map ?_
  have hempty : s.entries.isEmpty = decide (d.records = ∅) := by
    rw [Bool.eq_iff_iff, List.isEmpty_iff, decide_eq_true_iff]
    constructor
    · intro hnil
      refine Finmap.ext_lookup fun k => ?_
      rw [Finmap.lookup_empty, Finmap.lookup_eq_none, hs.mem_iff hm, hnil]
      exact List.not_mem_nil
    · intro hnil
      refine List.eq_nil_iff_forall_not_mem.2 fun e he => ?_
      have hmem := (hs.mem_iff hm).2 (List.mem_map_of_mem he)
      rw [hnil] at hmem
      exact Finmap.notMem_empty hmem
  refine (Tree.answers_isEmpty (hs.shaped hv)).turns.ends (effect_read hd ?_)
  rw [Dictionary.apply, hempty]

/-- Nothing is in a tree that has just been planted. -/
theorem represents_planted (home : Home) (keyType : FieldType) :
    (View.planted home keyType).Represents (.empty keyType) where
  intact := rfl
  keyType_eq := rfl
  recordSize_eq := rfl
  exists_shape := by
    refine ⟨0, _, View.hasShape_planted home keyType, fun k r => ?_⟩
    constructor
    · intro hr
      cases hr
    · rintro ⟨id, he, -⟩
      exact absurd he List.not_mem_nil

theorem ends_clear (hd : v.Represents d) : Tree.Ends (run clear) v (clear.Effect v d) := by
  refine .map ((Tree.turns_clear v).ends ⟨outcome_answered (represents_planted _ _)
    ⟨rfl, fun _ => rfl⟩ ?_, fun hc => absurd rfl hc, fun _ _ _ =>
      ⟨_, _, View.hasShape_planted _ _, View.tidy_planted _ _⟩, fun hmarked => by cases hmarked⟩)
  rw [Dictionary.apply, hd.keyType_eq]

/-- One call, and what it leaves behind. -/
theorem ends_effect (hd : v.Represents d) : ∀ c : Call, Tree.Ends c.run v (c.Effect v d)
  | insert r => ends_insert hd r
  | update r => ends_update hd r
  | delete key => ends_delete hd key
  | find key => ends_find hd key
  | contains key => ends_contains hd key
  | isEmpty => ends_isEmpty hd
  | clear => ends_clear hd

/-- One call. -/
theorem ends_run (hd : v.Represents d) (c : Call) : Tree.Ends c.run v (c.Outcome v d) :=
  (ends_effect hd c).mono fun _ _ h => h.1

end Call

/-! ### Every well-formed tree represents a dictionary -/

/-- The records that entries with distinct keys lead to. -/
theorem exists_records {record : RecordId → Option Record} {es : List (Field × RecordId)}
    (hn : (es.map Prod.fst).Nodup) (hrecord : ∀ e ∈ es, ∃ r, record e.2 = some r) :
    ∃ m : Finmap fun _ : Field => Record,
      ∀ k r, m.lookup k = some r ↔ ∃ id, (k, id) ∈ es ∧ record id = some r := by
  induction es with
  | nil =>
    refine ⟨∅, fun k r => ⟨fun h => by (cases h), ?_⟩⟩
    rintro ⟨id, he, -⟩
    exact absurd he List.not_mem_nil
  | cons e es ih =>
    rw [List.map_cons, List.nodup_cons] at hn
    obtain ⟨m, hm⟩ := ih hn.2 fun e' he' => hrecord e' (List.mem_cons_of_mem _ he')
    obtain ⟨k₀, id₀⟩ := e
    obtain ⟨r₀, hr₀⟩ := hrecord _ List.mem_cons_self
    refine ⟨m.insert k₀ r₀, fun k r => ?_⟩
    by_cases hk : k = k₀
    · subst hk
      rw [Finmap.lookup_insert]
      constructor
      · intro hr
        exact ⟨id₀, List.mem_cons_self, hr₀.trans hr⟩
      · rintro ⟨id, he, hr⟩
        rcases List.mem_cons.1 he with heq | he
        · cases heq
          exact hr₀.symm.trans hr
        · exact absurd (List.mem_map.2 ⟨_, he, rfl⟩) hn.1
    · rw [Finmap.lookup_insert_of_ne _ hk, hm]
      refine exists_congr fun id => and_congr_left fun _ => ?_
      rw [List.mem_cons, or_iff_right fun heq => hk (congrArg Prod.fst heq)]

theorem View.WellFormed.exists_represents {v : View} (hv : v.WellFormed)
    (hintact : v.needsRepair = false) : ∃ d, v.Represents d := by
  obtain ⟨h, s, hs⟩ := hv
  have hrecord : ∀ e ∈ s.entries, ∃ r, v.record e.2 = some r := fun e he =>
    (hs.resolved e he).imp fun r hr => hr.1
  obtain ⟨m, hm⟩ := exists_records hs.nodup_keys hrecord
  exact ⟨⟨v.keyType, v.recordSize, m⟩, hintact, rfl, rfl, h, s, hs, hm⟩

theorem View.Represents.wellFormed {v : View} {d : Dictionary} (hd : v.Represents d) :
    v.WellFormed := by
  obtain ⟨h, s, hs, -⟩ := hd.exists_shape
  exact ⟨h, s, hs⟩

end RecordIndex
