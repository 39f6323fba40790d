import RecordIndex.Limits

/-!
# What is done about a small node

A node with too few entries is merged with a sibling if both fit into one node: with the right one
if it can be, else with the left one. If neither can absorb it, a sibling that has entries to spare
gives one up, again the right one first.

* `Remedy` is the choice, with the sibling that it is about.
* `Remedy.choose` makes it. Siblings of an admissible size always leave one
  (`Remedy.isSome_choose_of_right`, `Remedy.isSome_choose_of_left`).
* `Remedy.Suits` is what the choice rests on (`Remedy.suits_of_choose`).
-/

namespace RecordIndex

/-- What is done about a node with too few entries. -/
inductive Remedy (α : Type) where
  | mergeRight (right : α)
  | mergeLeft (left : α)
  | borrowRight (right : α)
  | borrowLeft (left : α)
deriving DecidableEq, Repr

namespace Remedy

variable {α : Type}

/-- Merges with a sibling. -/
def merge? (size : α → Nat) (most : Nat) (node : α) (left right : Option α) : Option (Remedy α) :=
  ((right.filter fun r => size node + size r ≤ most).map mergeRight).or
    ((left.filter fun l => size l + size node ≤ most).map mergeLeft)

/-- Borrows from a sibling. -/
def borrow? (size : α → Nat) (least : Nat) (left right : Option α) : Option (Remedy α) :=
  ((right.filter fun r => least < size r).map borrowRight).or
    ((left.filter fun l => least < size l).map borrowLeft)

/-- The remedy for a node between its siblings, where nodes have from `least` to `most` entries. -/
def choose (size : α → Nat) (least most : Nat) (node : α) (left right : Option α) :
    Option (Remedy α) :=
  (merge? size most node left right).or (borrow? size least left right)

theorem isSome_choose_of_right {size : α → Nat} {least most : Nat} {node right : α}
    {left : Option α} (h : size node + least ≤ most) :
    (choose size least most node left (some right)).isSome := by
  by_cases hr : least < size right
  · simp [choose, borrow?, Option.filter, hr]
  · have : size node + size right ≤ most := by omega
    simp [choose, merge?, Option.filter, this]

theorem isSome_choose_of_left {size : α → Nat} {least most : Nat} {node left : α}
    {right : Option α} (h : size node + least ≤ most) :
    (choose size least most node (some left) right).isSome := by
  by_cases hl : least < size left
  · simp [choose, borrow?, Option.filter, hl]
  · have : size left + size node ≤ most := by omega
    simp [choose, merge?, Option.filter, this]

/-- The sibling that the remedy is about is there, and of the right size for it. -/
def Suits (size : α → Nat) (least most : Nat) (node : α) (left right : Option α) :
    Remedy α → Prop
  | mergeRight b => right = some b ∧ size node + size b ≤ most
  | mergeLeft a => left = some a ∧ size a + size node ≤ most
  | borrowRight b => right = some b ∧ least < size b
  | borrowLeft a => left = some a ∧ least < size a

theorem suits_of_choose {size : α → Nat} {least most : Nat} {node : α} {left right : Option α}
    {remedy : Remedy α} (h : choose size least most node left right = some remedy) :
    remedy.Suits size least most node left right := by
  rw [choose, Option.or_eq_some_iff, merge?, borrow?, Option.or_eq_some_iff,
    Option.or_eq_some_iff] at h
  simp only [Option.map_eq_some_iff, Option.filter_eq_some_iff, decide_eq_true_eq] at h
  rcases h with (⟨b, hb, rfl⟩ | ⟨-, a, ha, rfl⟩) | ⟨-, ⟨b, hb, rfl⟩ | ⟨-, a, ha, rfl⟩⟩
  · exact hb
  · exact ha
  · exact hb
  · exact ha

end Remedy
end RecordIndex
