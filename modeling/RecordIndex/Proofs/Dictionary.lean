import Mathlib.Data.Finmap
import RecordIndex.Proofs.Codec.RecordSlot
import RecordIndex.Tree.Change

/-!
# Dictionaries

What a tree is for: a finite map from keys to records, all keys of one type and all records of one
size, which the first of them fixes.

* `Call` is a call of one of the operations on a tree, and `Call.run` makes it.
* `Dictionary.apply` says what a call answers, and which dictionary is left, without a word about
  pages and slots.
* `Call.replies` and `Dictionary.replies` are the answers to a list of calls.
-/

namespace RecordIndex

/-- A call of an operation on a tree. -/
inductive Call where
  | insert (r : Record)
  | update (r : Record)
  | delete (key : Field)
  | find (key : Field)
  | contains (key : Field)
  | isEmpty
  | clear

/-- What a call answers if it does not fail. -/
inductive Reply where
  | done
  | found (r : Option Record)
  | flag (b : Bool)
deriving DecidableEq

namespace Call

/-- Makes a call. -/
def run : Call → TreeAction Reply
  | insert r => (fun _ => .done) <$> Tree.insert r
  | update r => (fun _ => .done) <$> Tree.update r
  | delete key => (fun _ => .done) <$> Tree.delete key
  | find key => .found <$> Tree.lookup key
  | contains key => .flag <$> Tree.contains key
  | isEmpty => .flag <$> Tree.isEmpty
  | clear => (fun _ => .done) <$> Tree.clear

/-- Makes one call after the other, and lists the answers. A call that fails is not the last. -/
def replies : List Call → Tree → List (Except Failure Reply)
  | [], _ => []
  | c :: calls, t => Action.answer (c.run t) :: replies calls (Action.finalState (c.run t))

end Call

/-- Whether an error says that a request cannot be met as it is: nothing is wrong with the tree. -/
def Error.isRefusal : Error → Bool
  | notFound _ | alreadyExists _ | encoding _ | slotSizeMismatch _ _ => true
  | invalidOperation (.treeKeyType _ _) => true
  | _ => false

theorem Error.isIo_of_isRefusal {e : Error} (h : e.isRefusal = true) : e.isIo = false := by
  cases e with
  | io cause => cases h
  | _ => rfl

/-- Records by their keys, and the size that they have, once it is fixed. -/
structure Dictionary where
  keyType : FieldType
  recordSize : Option Nat
  records : Finmap fun _ : Field => Record

namespace Dictionary

/-- The dictionary without records. -/
def empty (keyType : FieldType) : Dictionary := ⟨keyType, none, ∅⟩

/-- Why a record can be neither inserted nor replace another one. -/
def refusal (d : Dictionary) (r : Record) : Option Error :=
  if r.key.type ≠ d.keyType then some (.invalidOperation (.treeKeyType r.key d.keyType))
  else
    match r.validate, d.recordSize with
    | .error e, _ => some e
    | .ok _, none => none
    | .ok _, some n => if n = r.size then none else some (.slotSizeMismatch n r.size)

/-- What is done with a key, unless it is of another type than the dictionary's. -/
def withKey (d : Dictionary) (key : Field) (x : Except Error Reply × Dictionary) :
    Except Error Reply × Dictionary :=
  if key.type = d.keyType then x
  else (.error (.invalidOperation (.treeKeyType key d.keyType)), d)

/-- What is done with a record, unless it is refused. -/
def withRecord (d : Dictionary) (r : Record) (x : Except Error Reply × Dictionary) :
    Except Error Reply × Dictionary :=
  match d.refusal r with
  | some e => (.error e, d)
  | none => x

/-- What a call answers, and what it leaves. The first record must not be too large. -/
def apply (d : Dictionary) : Call → Except Error Reply × Dictionary
  | .insert r => d.withRecord r <|
    if r.key ∈ d.records then (.error (.alreadyExists r.key), d)
    else if d.recordSize = none ∧ RecordFile.maxRecordSize < r.size then
      (.error (.encoding (.largeRecord r.size)), d)
    else (.ok .done, { d with recordSize := some r.size, records := d.records.insert r.key r })
  | .update r => d.withRecord r <|
    if r.key ∈ d.records then (.ok .done, { d with records := d.records.insert r.key r })
    else (.error (.notFound r.key), d)
  | .delete key => d.withKey key <|
    if key ∈ d.records then (.ok .done, { d with records := d.records.erase key })
    else (.error (.notFound key), d)
  | .find key => d.withKey key (.ok (.found (d.records.lookup key)), d)
  | .contains key => d.withKey key (.ok (.flag (decide (key ∈ d.records))), d)
  | .isEmpty => (.ok (.flag (decide (d.records = ∅))), d)
  | .clear => (.ok .done, empty d.keyType)

/-- What calls answer, one after the other. -/
def replies : List Call → Dictionary → List (Except Error Reply)
  | [], _ => []
  | c :: calls, d => (d.apply c).1 :: replies calls (d.apply c).2

theorem refusal_eq_none_iff {d : Dictionary} {r : Record} : d.refusal r = none ↔
    r.key.type = d.keyType ∧ r.validate = .ok () ∧ ∀ n, d.recordSize = some n → n = r.size := by
  unfold refusal
  split_ifs with htype
  · simp [htype]
  · rw [ne_eq, not_not] at htype
    rcases r.validate with e | u <;> rcases d.recordSize with _ | n <;> simp [htype]

theorem isRefusal_of_refusal {d : Dictionary} {r : Record} {e : Error} (h : d.refusal r = some e) :
    e.isRefusal = true := by
  unfold refusal at h
  split_ifs at h with htype
  · cases h
    rfl
  · cases hv : r.validate with
    | error e' =>
      rw [hv] at h
      obtain ⟨cause, rfl⟩ := Record.exists_unencodable hv
      cases h
      rfl
    | ok u =>
      rw [hv] at h
      cases hs : d.recordSize with
      | none =>
        rw [hs] at h
        cases h
      | some n =>
        rw [hs] at h
        dsimp only at h
        split_ifs at h
        cases h
        rfl

section Cases

variable {d : Dictionary} {P : Except Error Reply × Dictionary → Prop}
  {x : Except Error Reply × Dictionary}

theorem withKey_cases {key : Field} (hx : P x)
    (hrefused : P (.error (.invalidOperation (.treeKeyType key d.keyType)), d)) :
    P (d.withKey key x) := by
  unfold withKey
  split_ifs
  · exact hx
  · exact hrefused

theorem withRecord_cases {r : Record} (hx : P x)
    (hrefused : ∀ e, d.refusal r = some e → P (.error e, d)) : P (d.withRecord r x) := by
  unfold withRecord
  cases hr : d.refusal r with
  | some e => exact hrefused e hr
  | none => exact hx

end Cases

/-- Every error of a dictionary is a refusal. -/
theorem isRefusal_of_apply {d : Dictionary} {c : Call} {e : Error} (h : (d.apply c).1 = .error e) :
    e.isRefusal = true := by
  let P : Except Error Reply × Dictionary → Prop := fun x =>
    ∀ e, x.1 = .error e → e.isRefusal = true
  have hok : ∀ a d', P (.ok a, d') := fun a d' e he => by cases he
  have herror : ∀ e d', e.isRefusal = true → P (.error e, d') := fun e d' he e' he' => by
    cases he'
    exact he
  have hrefusal : ∀ r e, d.refusal r = some e → P (.error e, d) := fun r e he =>
    herror e d (isRefusal_of_refusal he)
  suffices hall : P (d.apply c) from hall e h
  cases c with
  | insert r =>
    refine withRecord_cases (P := P) ?_ (hrefusal r)
    split_ifs
    · exact herror _ _ rfl
    · exact herror _ _ rfl
    · exact hok _ _
  | update r =>
    refine withRecord_cases (P := P) ?_ (hrefusal r)
    split_ifs
    · exact hok _ _
    · exact herror _ _ rfl
  | delete key =>
    refine withKey_cases (P := P) ?_ (herror _ _ rfl)
    split_ifs
    · exact hok _ _
    · exact herror _ _ rfl
  | find key => exact withKey_cases (P := P) (hok _ _) (herror _ _ rfl)
  | contains key => exact withKey_cases (P := P) (hok _ _) (herror _ _ rfl)
  | isEmpty => exact hok _ _
  | clear => exact hok _ _

/-- No call changes the type of the keys. -/
theorem keyType_apply (d : Dictionary) (c : Call) : (d.apply c).2.keyType = d.keyType := by
  let P : Except Error Reply × Dictionary → Prop := fun x => x.2.keyType = d.keyType
  have hrefused : ∀ e, P (.error e, d) := fun _ => rfl
  cases c with
  | insert r =>
    refine withRecord_cases (P := P) ?_ fun e _ => hrefused e
    split_ifs <;> rfl
  | update r =>
    refine withRecord_cases (P := P) ?_ fun e _ => hrefused e
    split_ifs <;> rfl
  | delete key =>
    refine withKey_cases (P := P) ?_ (hrefused _)
    split_ifs <;> rfl
  | find key => exact withKey_cases (P := P) rfl (hrefused _)
  | contains key => exact withKey_cases (P := P) rfl (hrefused _)
  | isEmpty => rfl
  | clear => rfl

end Dictionary
end RecordIndex
