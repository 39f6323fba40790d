import Mathlib.Order.Defs.LinearOrder
import RecordIndex.Field

/-!
# The order of fields

Fields are linearly ordered: within a type by value, and across types by the signals of the types.
Fields that compare as equal are equal.

* `Field.cmp_swap`, `Field.eq_of_cmp_eq` and `Field.cmp_isLE_trans` are the laws of the comparison.
* The `LinearOrder` on fields has the comparison `Field.cmp` and the relations that it defines.
-/

namespace RecordIndex.Field

theorem cmp_swap (a b : Field) : cmp a b = (cmp b a).swap := by
  cases a <;> cases b <;> simp only [cmp] <;> exact Std.OrientedCmp.eq_swap

theorem eq_of_cmp_eq {a b : Field} (h : cmp a b = .eq) : a = b := by
  cases a with
  | int32 v =>
    cases b with
    | int32 w => rw [Std.LawfulEqCmp.eq_of_compare (show compare v w = .eq from h)]
    | str s => cases h
    | int64 w => cases h
  | str s =>
    cases b with
    | int32 w => cases h
    | str t => rw [Std.LawfulEqCmp.eq_of_compare (show compare s t = .eq from h)]
    | int64 w => cases h
  | int64 v =>
    cases b with
    | int32 w => cases h
    | str s => cases h
    | int64 w => rw [Std.LawfulEqCmp.eq_of_compare (show compare v w = .eq from h)]

/-- Fields of different types are ordered by the signals of their types. -/
theorem cmp_of_type_ne {a b : Field} (h : a.type ≠ b.type) :
    cmp a b = compare a.type.signal b.type.signal := by
  cases a <;> cases b <;> first | rfl | exact absurd rfl h

theorem signal_le_of_cmp {a b : Field} (h : (cmp a b).isLE) : a.type.signal ≤ b.type.signal := by
  by_cases ht : a.type = b.type
  · rw [ht]
    exact UInt8.le_refl _
  · rw [cmp_of_type_ne ht] at h
    exact Std.isLE_compare.1 h

theorem cmp_isLE_trans {a b c : Field} (hab : (cmp a b).isLE) (hbc : (cmp b c).isLE) :
    (cmp a c).isLE := by
  have hab' := signal_le_of_cmp hab
  have hbc' := signal_le_of_cmp hbc
  by_cases hac : a.type = c.type
  · -- between two fields of one type there is no field of another
    have hb : b.type = a.type := by
      rw [← hac] at hbc'
      revert hab' hbc'
      cases a.type <;> cases b.type <;> decide
    cases a <;> cases b <;> cases hb <;> cases c <;> cases hac <;>
      exact @Std.TransCmp.isLE_trans _ compare _ _ _ _ hab hbc
  · rw [cmp_of_type_ne hac]
    exact Std.isLE_compare.2 (UInt8.le_trans hab' hbc')

instance : Std.TransCmp Field.cmp where
  eq_swap := cmp_swap _ _
  isLE_trans := cmp_isLE_trans

instance : Std.LawfulEqCmp Field.cmp where
  eq_of_compare := eq_of_cmp_eq

instance : Std.TransOrd Field := inferInstanceAs (Std.TransCmp Field.cmp)

instance : Std.LawfulEqOrd Field := inferInstanceAs (Std.LawfulEqCmp Field.cmp)

theorem le_iff_isLE {a b : Field} : a ≤ b ↔ (compare a b).isLE := Iff.rfl

theorem lt_iff_compare {a b : Field} : a < b ↔ compare a b = .lt := Iff.rfl

@[simp] theorem compare_self_eq (a : Field) : compare a a = .eq :=
  @Std.ReflCmp.compare_self _ Field.cmp _ _

theorem lt_iff_not_ge' {a b : Field} : a < b ↔ ¬ b ≤ a := by
  rw [le_iff_isLE, lt_iff_compare, show compare a b = (compare b a).swap from cmp_swap a b]
  cases compare b a <;> decide

instance : LinearOrder Field where
  le_refl a := by rw [le_iff_isLE, compare_self_eq]; rfl
  le_trans _ _ _ := cmp_isLE_trans
  lt_iff_le_not_ge a b := by
    rw [← lt_iff_not_ge', le_iff_isLE, lt_iff_compare]
    cases compare a b <;> simp
  le_antisymm a b hab hba := by
    refine eq_of_cmp_eq ?_
    exact @Std.OrientedCmp.isLE_antisymm _ Field.cmp _ _ _ hab hba
  le_total a b := by
    by_cases h : a ≤ b
    · exact .inl h
    · have hlt : compare b a = .lt := lt_iff_not_ge'.2 h
      exact .inr (by rw [le_iff_isLE, hlt]; rfl)
  toDecidableLE := inferInstance
  toDecidableLT := inferInstance
  toDecidableEq := inferInstance
  compare := compare
  compare_eq_compareOfLessAndEq a b := by
    unfold compareOfLessAndEq
    split_ifs with hlt heq
    · exact hlt
    · rw [heq, compare_self_eq]
    · rw [lt_iff_compare] at hlt
      cases hc : compare a b with
      | lt => exact absurd hc hlt
      | eq => exact absurd (eq_of_cmp_eq hc) heq
      | gt => rfl

end RecordIndex.Field
