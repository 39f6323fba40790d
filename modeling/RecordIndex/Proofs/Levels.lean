import RecordIndex.Proofs.Edits

/-!
# Levels that come and go

A tree gains its levels at the top and loses them there. `View.Raises` and `View.Lowers` say what
happens to the root meanwhile: it stays if the height does, a new root is a page that was not there
before, and where the root gives way it is one of its children that takes its place.
-/

namespace RecordIndex

/-- The pages of the children. -/
def Shape.kidPages : {h : Nat} → Shape h → List PageId
  | 0, _ => []
  | _ + 1, s => (Fork.kids s).map Shape.page

namespace Route

variable {H h : Nat}

theorem kidPages_fork {page : PageId} {left : List (Shape h × Field)} {s : Shape h}
    {right : List (Field × Shape h)} : (fork page left s right).kidPages =
      (left.map fun e => e.1.page).reverse ++ s.page :: right.map fun e => e.2.page := by
  show (Fork.kids (fork page left s right)).map Shape.page = _
  rw [kids_fork]
  simp [Function.comp_def]

/-- The children of the root stay if those in a place do. -/
theorem kidPages_plug_subset {r : Route H h} {s s' : Shape h} (hpage : s'.page = s.page)
    (hkids : s'.kidPages ⊆ s.kidPages) : (r.plug s').kidPages ⊆ (r.plug s).kidPages := by
  induction r with
  | top => exact hkids
  | down page left right above ih =>
    refine ih (by rw [page_fork, page_fork]) ?_
    rw [kidPages_fork, kidPages_fork, hpage]
    exact List.Subset.refl _

end Route

namespace View

/-- Either no level has come and the root is the same, or there is a new root with the old one as
its first child, on a page that was not there before. -/
def Raises (v v' : View) (H H' : Nat) : Prop :=
  H' = H ∧ v'.root = v.root ∨
    H' = H + 1 ∧ v.pageCount ≤ v'.root.number.toNat ∧ ∃ k q,
      v'.node v'.root = some (.internal ⟨v'.root, none, v'.keyType, [k], [v.root, q]⟩)

/-- Either no level has gone and the root is the same, or the root has given its page up and one of
its children has taken its place. -/
def Lowers (v v' : View) {H : Nat} (s : Shape H) (H' : Nat) : Prop :=
  H' = H ∧ v'.root = v.root ∨ H = H' + 1 ∧ v'.root ∈ s.kidPages ∧ v'.node v.root = none

variable {v v' v'' : View} {H H' : Nat}

/-- Before the level comes the root stays where it is. -/
theorem Raises.of_same (h : v'.Raises v'' H H') (hroot : v'.root = v.root)
    (hcount : v.pageCount ≤ v'.pageCount) : v.Raises v'' H H' := by
  rcases h with ⟨hH, hroot'⟩ | ⟨hH, hnew, htop⟩
  · exact .inl ⟨hH, hroot'.trans hroot⟩
  · exact .inr ⟨hH, hcount.trans hnew, hroot ▸ htop⟩

/-- Before the level goes the root may lose children. -/
theorem Lowers.of_same {s' : Shape H} (h : v'.Lowers v'' s' H') (hroot : v'.root = v.root)
    {s : Shape H} (hkids : s'.kidPages ⊆ s.kidPages) : v.Lowers v'' s H' := by
  rcases h with ⟨hH, hroot'⟩ | ⟨hH, hmem, hnone⟩
  · exact .inl ⟨hH, hroot'.trans hroot⟩
  · exact .inr ⟨hH, hkids hmem, hroot ▸ hnone⟩

end View
end RecordIndex
