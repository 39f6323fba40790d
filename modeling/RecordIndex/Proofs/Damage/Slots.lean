import RecordIndex.Proofs.Codec.RecordSlot
import RecordIndex.Proofs.Writes

/-!
# Slots of damaged files

Whatever a file holds and however it is laid out, an operation on its slots answers or fails with an
error. The only fault that it can meet is a record without an encoded form.

* `Failure.IsError`: the failure is no fault.
* `Action.Faultless x`: from every state, the action answers or fails with an error.
* `SlotFile.concludes_readExactly` and so on: what the single steps leave.
* `RecordFile.faultless_add` and so on: the operations on records.
-/

namespace RecordIndex

open RecordIndex.Action

/-- The failure is an error and no fault. -/
def Failure.IsError (e : Failure) : Prop := ∃ err, e = .error err

/-! ### Actions without faults -/

namespace Action

variable {σ α β : Type}

/-- From every state, the action answers or fails with an error. -/
def Faultless (x : Action σ α) : Prop := ∀ s, Concludes x s (fun _ _ => True) fun e _ => e.IsError

theorem Concludes.faultless {x : Action σ α} {Q : σ → α → σ → Prop}
    (h : ∀ s, Concludes x s (Q s) fun e s' => s' = s ∧ e.IsError) : Faultless x :=
  fun s => (h s).mono (fun _ _ _ => trivial) fun _ _ he => he.2

theorem faultless_pure (a : α) : Faultless (pure a : Action σ α) := fun _ => concludes_pure trivial

theorem faultless_fail (e : Error) : Faultless (fail e : Action σ α) :=
  fun _ => concludes_fail ⟨e, rfl⟩

theorem faultless_ofExcept (x : Except Error α) : Faultless (ofExcept x : Action σ α) :=
  fun _ => concludes_ofExcept (fun _ _ => trivial) fun e _ => ⟨e, rfl⟩

theorem faultless_modify (f : σ → σ) : Faultless (modify f : Action σ PUnit) := fun _ => trivial

theorem Faultless.bind {x : Action σ α} {f : α → Action σ β} (hx : Faultless x)
    (hf : ∀ a, Faultless (f a)) : Faultless (x >>= f) :=
  fun s => (hx s).bind fun a s' _ => hf a s'

theorem faultless_get_bind {f : σ → Action σ β} (h : ∀ s, Faultless (f s)) :
    Faultless (get >>= f) := fun s => h s s

end Action

/-! ### Slots -/

namespace SlotFile

variable {f : SlotFile}

theorem concludes_layoutFor (n : UInt64) (f : SlotFile) :
    Concludes (layoutFor n) f
      (fun l g => g = f ∧ f.layout = some l ∧ n.toNat < f.count.toNat)
      fun e g => g = f ∧ e.IsError := by
  refine concludes_get_bind ?_
  cases hl : f.layout with
  | none => exact concludes_fail ⟨rfl, _, rfl⟩
  | some l =>
    dsimp only
    split_ifs with hn
    · exact concludes_pure ⟨rfl, rfl, UInt64.lt_iff_toNat_lt.1 hn⟩
    · exact concludes_fail ⟨rfl, _, rfl⟩

theorem concludes_writeBytes (pos : UInt64) (bs : Bytes) (f : SlotFile) :
    Concludes (writeBytes pos bs) f
      (fun _ g => pos < Disk.positionLimit ∧ g = { f with bytes := f.bytes.write pos.toNat bs })
      fun e g => g = f ∧ e.IsError := by
  unfold writeBytes
  split_ifs with hpos
  · exact concludes_fail ⟨rfl, _, rfl⟩
  · exact ⟨UInt64.not_le.1 hpos, rfl⟩

theorem concludes_checkLength (l : SlotLayout) (n : Nat) (f : SlotFile) :
    Concludes (checkLength l n) f (fun _ g => g = f) fun e g => g = f ∧ e.IsError := by
  unfold checkLength
  split_ifs
  · exact concludes_pure rfl
  · exact concludes_fail ⟨rfl, _, rfl⟩

theorem concludes_readBytes (pos : UInt64) (n : Nat) (f : SlotFile) :
    Concludes (readBytes pos n) f (fun _ g => g = f) fun e g => g = f ∧ e.IsError := by
  unfold readBytes
  split_ifs
  · exact concludes_fail ⟨rfl, _, rfl⟩
  · refine concludes_get_bind ?_
    cases f.bytes.read? pos.toNat n with
    | none => exact concludes_fail ⟨rfl, _, rfl⟩
    | some bs => exact concludes_pure rfl

theorem concludes_readExactly (slot : UInt64) (n : Nat) (f : SlotFile) :
    Concludes (readExactly slot n) f
      (fun _ g => g = f.addReads 1 ∧ slot.toNat < f.count.toNat)
      fun e g => g = f ∧ e.IsError := by
  refine (concludes_layoutFor slot f).bind ?_
  rintro l _ ⟨rfl, -, hslot⟩
  refine (concludes_checkLength l n _).bind ?_
  rintro - _ rfl
  refine (concludes_readBytes _ n _).bind ?_
  rintro bs _ rfl
  exact ⟨rfl, hslot⟩

theorem concludes_append (bs : Bytes) {l : SlotLayout} (hl : f.layout = some l) :
    Concludes (append bs) f
      (fun n g => n = f.count ∧ l.position f.count < Disk.positionLimit ∧ g.layout = f.layout ∧
        g.count = f.count + 1 ∧ g.bytes = f.bytes.write (l.position f.count).toNat bs)
      fun e g => g = f ∧ e.IsError := by
  refine concludes_get_bind ?_
  simp only [hl]
  refine (concludes_checkLength l bs.length f).bind ?_
  rintro - _ rfl
  refine (concludes_writeBytes _ bs _).bind ?_
  rintro - _ ⟨hroom, rfl⟩
  exact ⟨rfl, hroom, hl, rfl, rfl⟩

theorem faultless_layOut (l : SlotLayout) : Faultless (layOut l) := by
  unfold layOut
  split_ifs
  · exact faultless_fail _
  · refine faultless_get_bind fun f => ?_
    dsimp only
    split_ifs
    · exact faultless_fail _
    · exact fun _ => trivial

theorem faultless_append (bs : Bytes) : Faultless (append bs) := by
  intro f
  cases hl : f.layout with
  | none =>
    refine concludes_get_bind ?_
    simp only [hl]
    exact concludes_fail ⟨_, rfl⟩
  | some l => exact (concludes_append bs hl).mono (fun _ _ _ => trivial) fun _ _ he => he.2

variable (slot : UInt64)

theorem faultless_read : Faultless (read slot) :=
  (Concludes.faultless (concludes_layoutFor slot)).bind fun l => fun f =>
    (concludes_readExactly slot l.slotSize.toNat f).mono (fun _ _ _ => trivial) fun _ _ he => he.2

theorem faultless_write (bs : Bytes) : Faultless (write slot bs) :=
  (Concludes.faultless (concludes_layoutFor slot)).bind fun l =>
    (Concludes.faultless (concludes_checkLength l bs.length)).bind fun _ =>
      (Concludes.faultless (concludes_writeBytes (l.position slot) bs)).bind fun _ =>
        faultless_modify _

theorem faultless_zero : Faultless (zero slot) :=
  (Concludes.faultless (concludes_layoutFor slot)).bind fun l =>
    (Concludes.faultless (concludes_writeBytes (l.position slot) _)).bind fun _ =>
      faultless_modify _

end SlotFile

/-! ### Records -/

namespace RecordFile

theorem faultless_requireSize (n : Nat) : Faultless (requireSize n) := by
  refine faultless_get_bind fun f => ?_
  cases f.slotSize? with
  | none => exact faultless_pure _
  | some size =>
    dsimp only
    split_ifs
    · exact faultless_pure _
    · exact faultless_fail _

theorem faultless_fixSize (n : Nat) : Faultless (fixSize n) := by
  unfold fixSize
  split_ifs
  · exact faultless_fail _
  · exact faultless_fail _
  · exact (Concludes.faultless (SlotFile.concludes_writeBytes 0 _)).bind fun _ =>
      SlotFile.faultless_layOut _

theorem faultless_appendBlock (bs : Bytes) : Faultless (appendBlock bs) := by
  refine faultless_get_bind fun f => ?_
  have happend : Faultless (RecordId.mk <$> SlotFile.append bs) := by
    rw [map_eq_pure_bind]
    exact (SlotFile.faultless_append bs).bind fun n => faultless_pure _
  split_ifs
  · exact (faultless_fixSize bs.length).bind fun _ => happend
  · exact happend

section

variable {r : Record} (hr : r.validate = .ok ())
include hr

theorem faultless_add : Faultless (add r) := by
  obtain ⟨bs, hbs, -⟩ := Record.exists_encode hr
  unfold add
  rw [hbs, ofChecked_ok, pure_bind]
  exact (faultless_requireSize bs.length).bind fun _ => faultless_appendBlock bs

theorem faultless_replace (id : RecordId) : Faultless (replace id r) := by
  obtain ⟨bs, hbs, -⟩ := Record.exists_encode hr
  unfold replace
  rw [hbs, ofChecked_ok, pure_bind]
  exact SlotFile.faultless_write id.number bs

end

theorem faultless_fetch (id : RecordId) : Faultless (fetch id) :=
  (SlotFile.faultless_read id.number).bind fun bs => faultless_ofExcept (Record.decode bs)

theorem faultless_erase (id : RecordId) : Faultless (erase id) :=
  SlotFile.faultless_zero id.number

end RecordFile
end RecordIndex
