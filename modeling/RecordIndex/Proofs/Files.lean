import Mathlib.Tactic.SplitIfs
import RecordIndex.Disk
import RecordIndex.Proofs.Runs

/-!
# Opening files again

A path leads to the same file for as long as nothing is removed, whatever is written and whatever
else is made.

* `Disk.Extends d d'`: all that stands on `d` stands on `d'`.
* `Disk.Sound d`: all files that have a name have bytes.
* `Disk.openFile_again`: a file that has been opened once is found again.
-/

namespace RecordIndex.Disk

variable {d d' d'' : Disk} {path : String} {file : FileId}

/-- Whatever stands somewhere on `d` stands there on `d'`. -/
def Extends (d d' : Disk) : Prop := ∀ place e, d.entry? place = some e → d'.entry? place = some e

/-- Every file that has a name has bytes. -/
def Sound (d : Disk) : Prop :=
  ∀ place id, d.entry? place = some (.file id) → id.number < d.files.length

theorem Extends.refl (d : Disk) : d.Extends d := fun _ _ h => h

theorem Extends.trans (h : d.Extends d') (h' : d'.Extends d'') : d.Extends d'' :=
  fun place e he => h' place e (h place e he)

theorem extends_setBytes (d : Disk) (id : FileId) (bytes : FileBytes) :
    d.Extends (d.setBytes id bytes) := fun _ _ h => h

theorem sound_empty : Sound .empty := by
  intro place id h
  unfold entry? at h
  split_ifs at h
  · cases Option.some.inj h
  · have hnone : (none : Option Entry) = some (.file id) := h
    cases hnone

theorem Extends.lookUp_eq (h : d.Extends d') {directory : Location} {name : String} {e : Entry}
    (he : d.lookUp directory name = .ok (some e)) : d'.lookUp directory name = .ok (some e) := by
  unfold lookUp at he ⊢
  split_ifs at he ⊢
  rw [h _ e (Except.ok.inj he)]

theorem Extends.enter_eq (h : d.Extends d') {directory place : Location} {name : String}
    (he : d.enter directory name = .ok place) : d'.enter directory name = .ok place := by
  unfold enter at he ⊢
  split_ifs at he ⊢
  · exact he
  · exact he
  · cases hlook : d.lookUp directory name with
    | error e =>
      rw [hlook] at he
      cases he
    | ok e? =>
      rw [hlook] at he
      cases e? with
      | none => cases he
      | some e =>
        rw [h.lookUp_eq hlook]
        exact he

theorem Extends.foldlM_enter_eq (h : d.Extends d') {names : List String} {start place : Location}
    (he : names.foldlM d.enter start = .ok place) : names.foldlM d'.enter start = .ok place := by
  induction names generalizing start with
  | nil => exact he
  | cons name names ih =>
    rw [List.foldlM_cons] at he ⊢
    cases henter : d.enter start name with
    | error e =>
      rw [henter] at he
      cases he
    | ok next =>
      rw [henter] at he
      rw [h.enter_eq henter]
      exact ih he

theorem Extends.resolve_eq (h : d.Extends d') {target : Target}
    (he : d.resolve path = .ok target) : d'.resolve path = .ok target := by
  unfold resolve at he ⊢
  split_ifs at he ⊢
  dsimp only at he ⊢
  cases hlast : (Path.ofString path).names.getLast? with
  | none =>
    rw [hlast] at he
    exact he
  | some last =>
    rw [hlast] at he
    dsimp only at he ⊢
    cases hfold : (Path.ofString path).names.dropLast.foldlM d.enter (Path.ofString path).start with
    | error e =>
      rw [hfold] at he
      cases he
    | ok place =>
      rw [hfold] at he
      rw [h.foldlM_enter_eq hfold]
      exact he

theorem ask_eq_ok_iff {α : Type} {question : Disk → Except IoError α} {a : α} :
    ask question d = .ok a d' ↔ question d = .ok a ∧ d' = d := by
  rw [ask, Action.run_bind, Action.run_get]
  dsimp only
  rw [Action.ofExcept_eq_ok_iff]
  cases question d with
  | error e => simp [Except.mapError]
  | ok b => simp [Except.mapError, eq_comm]

/-- The file at a path is there, or it is made. -/
theorem openFile_eq_ok_iff : openFile path d = .ok file d' ↔ ∃ directory name,
    d.resolve path = .ok (.name directory name false) ∧
      (d.lookUp directory name = .ok (some (.file file)) ∧ d' = d ∨
        d.lookUp directory name = .ok none ∧ file = d.nextFile ∧
          d' = d.addFile (directory.child name)) := by
  rw [openFile, Action.bind_eq_ok_iff]
  simp only [ask_eq_ok_iff]
  constructor
  · rintro ⟨target, d₁, ⟨hresolve, rfl⟩, h⟩
    rcases target with _ | ⟨directory, name, _ | _⟩
    · cases h
    · obtain ⟨e?, d₂, hlook, h⟩ := Action.bind_eq_ok_iff.1 h
      obtain ⟨hlook, rfl⟩ := ask_eq_ok_iff.1 hlook
      refine ⟨directory, name, hresolve, ?_⟩
      rcases e? with _ | _ | _
      · cases h
        exact .inr ⟨hlook, rfl, rfl⟩
      · cases h
        exact .inl ⟨hlook, rfl⟩
      · cases h
    · cases h
  · rintro ⟨directory, name, hresolve, h⟩
    refine ⟨_, d, ⟨hresolve, rfl⟩, Action.bind_eq_ok_iff.2 ?_⟩
    rcases h with ⟨hlook, rfl⟩ | ⟨hlook, rfl, rfl⟩
    · exact ⟨_, _, ask_eq_ok_iff.2 ⟨hlook, rfl⟩, rfl⟩
    · exact ⟨_, _, ask_eq_ok_iff.2 ⟨hlook, rfl⟩, rfl⟩

theorem lookUp_eq_ok_iff {directory : Location} {name : String} {e? : Option Entry} :
    d.lookUp directory name = .ok e? ↔
      name.utf8ByteSize ≤ maxNameBytes ∧ d.entry? (directory.child name) = e? := by
  unfold lookUp
  split_ifs with h
  · simp [Nat.not_le.2 h]
  · simp [Nat.not_lt.1 h]

theorem entry?_addFile {directory : Location} {name : String} (place : Location) :
    entry? (d.addFile (directory.child name)) place =
      if place = directory.child name then some (.file d.nextFile) else d.entry? place := by
  unfold entry?
  by_cases hplace : place = directory.child name
  · subst hplace
    have hnames : (directory.child name).names.isEmpty = false := by simp [Location.child]
    simp [hnames, addFile, insert]
  · rw [if_neg hplace]
    have hbeq : (place == directory.child name) = false := beq_eq_false_iff_ne.2 hplace
    simp [addFile, insert, List.lookup_cons, hbeq]

/-- Making a file takes nothing away. -/
theorem extends_openFile (h : openFile path d = .ok file d') : d.Extends d' := by
  obtain ⟨directory, name, -, ⟨-, rfl⟩ | ⟨hlook, -, rfl⟩⟩ := openFile_eq_ok_iff.1 h
  · exact .refl _
  · intro place e he
    rw [entry?_addFile, if_neg]
    · exact he
    · rintro rfl
      rw [(lookUp_eq_ok_iff.1 hlook).2] at he
      cases he

/-- A file that has been opened has bytes. -/
theorem Sound.openFile (h : d.Sound) (hfile : openFile path d = .ok file d') :
    d'.Sound ∧ file.number < d'.files.length := by
  obtain ⟨directory, name, -, ⟨hlook, rfl⟩ | ⟨hlook, rfl, rfl⟩⟩ := openFile_eq_ok_iff.1 hfile
  · exact ⟨h, h _ _ (lookUp_eq_ok_iff.1 hlook).2⟩
  · have hlen : (d.addFile (directory.child name)).files.length = d.files.length + 1 := by
      simp [addFile]
    have hnext : d.nextFile.number < d.files.length + 1 := Nat.lt_succ_self _
    rw [hlen]
    refine ⟨fun place id hid => ?_, hnext⟩
    rw [hlen]
    rw [entry?_addFile] at hid
    split_ifs at hid
    · cases hid
      exact hnext
    · exact Nat.lt_succ_of_lt (h place id hid)

theorem length_files_le_of_openFile (h : openFile path d = .ok file d') :
    d.files.length ≤ d'.files.length := by
  obtain ⟨directory, name, -, ⟨-, rfl⟩ | ⟨-, -, rfl⟩⟩ := openFile_eq_ok_iff.1 h
  · exact Nat.le_refl _
  · simp [addFile]

/-- A file that has been opened is found again, whatever is made and written in the meantime. -/
theorem openFile_again (h : openFile path d = .ok file d') (hd : d'.Extends d'') :
    openFile path d'' = .ok file d'' := by
  have hd' := (extends_openFile h).trans hd
  obtain ⟨directory, name, hresolve, ⟨hlook, rfl⟩ | ⟨hlook, rfl, rfl⟩⟩ := openFile_eq_ok_iff.1 h
  · exact openFile_eq_ok_iff.2 ⟨directory, name, hd'.resolve_eq hresolve,
      .inl ⟨hd.lookUp_eq hlook, rfl⟩⟩
  · refine openFile_eq_ok_iff.2 ⟨directory, name, hd'.resolve_eq hresolve,
      .inl ⟨hd.lookUp_eq (lookUp_eq_ok_iff.2 ⟨(lookUp_eq_ok_iff.1 hlook).1, ?_⟩), rfl⟩⟩
    rw [entry?_addFile, if_pos rfl]

end RecordIndex.Disk
