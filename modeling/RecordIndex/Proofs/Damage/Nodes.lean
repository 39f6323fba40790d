import RecordIndex.Node.Growth
import RecordIndex.Node.Shrinkage
import RecordIndex.Proofs.Codec.NodePage
import RecordIndex.Proofs.KeySearch

/-!
# Edits of sound nodes

The nodes of a damaged file have counts that agree and keys that fit their slots, and nothing else
is known of them: keys may be in any order, and a child may be listed twice. This is enough for every
edit at a position in range to answer, with nodes of the same kind.

* `Positions.exists_insertAt` and so on: what an edit of a list at a position in range answers.
* `Leaf.Sound`, `Internal.Sound`: what is known of a node. `Leaf.Revises`, `Internal.Revises`: what is
  known of a node that has been edited.
* `Leaf.Sound.split`, `Internal.Sound.removeChild` and so on: each edit of a node.
-/

namespace RecordIndex

namespace Positions

variable {α : Type} {i : Nat} (xs : List α)

theorem exists_get (hi : i < xs.length) : ∃ a, get xs i = .ok a ∧ a ∈ xs :=
  ⟨xs[i], get_eq_ok_iff.2 (List.getElem?_eq_getElem hi), List.getElem_mem hi⟩

theorem exists_insertAt (a : α) (hi : i ≤ xs.length) :
    ∃ ys, insertAt xs i a = .ok ys ∧ ys.length = xs.length + 1 ∧ ys ⊆ a :: xs := by
  have hok : insertAt xs i a = .ok (xs.take i ++ a :: xs.drop i) := if_pos hi
  refine ⟨_, hok, length_of_insertAt hok, fun y hy => ?_⟩
  rcases List.mem_append.1 hy with hy | hy
  · exact List.mem_cons_of_mem a (List.mem_of_mem_take hy)
  · exact List.cons_subset_cons a (List.drop_subset i xs) hy

theorem exists_removeAt (hi : i < xs.length) :
    ∃ a ys, removeAt xs i = .ok (a, ys) ∧ ys.length + 1 = xs.length ∧ a ∈ xs ∧ ys ⊆ xs := by
  have hok : removeAt xs i = .ok (xs[i], xs.take i ++ xs.drop (i + 1)) := by
    rw [removeAt, List.getElem?_eq_getElem hi]
  exact ⟨_, _, hok, length_of_removeAt hok, List.getElem_mem hi,
    List.append_subset.2 ⟨List.take_subset i xs, List.drop_subset (i + 1) xs⟩⟩

theorem exists_replaceAt (a : α) (hi : i < xs.length) :
    ∃ ys, replaceAt xs i a = .ok ys ∧ ys.length = xs.length ∧ ys ⊆ a :: xs := by
  refine ⟨xs.take i ++ a :: xs.drop (i + 1), if_pos hi, ?_, fun y hy => ?_⟩
  · rw [List.length_append, List.length_cons, List.length_take, List.length_drop]
    omega
  · rcases List.mem_append.1 hy with hy | hy
    · exact List.mem_cons_of_mem a (List.mem_of_mem_take hy)
    · exact List.cons_subset_cons a (List.drop_subset (i + 1) xs) hy

theorem exists_splitAt (hi : i ≤ xs.length) :
    ∃ ys zs, splitAt xs i = .ok (ys, zs) ∧ ys.length = i ∧ ys.length + zs.length = xs.length ∧
      ys ⊆ xs ∧ zs ⊆ xs := by
  refine ⟨xs.take i, xs.drop i, if_pos hi, List.length_take_of_le hi, ?_, List.take_subset i xs,
    List.drop_subset i xs⟩
  rw [List.length_take_of_le hi, List.length_drop]
  omega

end Positions

/-! ### Leaves -/

/-- The counts of the leaf agree, and its keys fit their slots. -/
structure Leaf.Sound (l : Leaf) : Prop where
  counts : l.records.length = l.keys.length
  fits : ∀ k ∈ l.keys, k.Fits

/-- The counts of the node agree, and its keys fit their slots. -/
structure Internal.Sound (n : Internal) : Prop where
  counts : n.children.length = n.keys.length + 1
  fits : ∀ k ∈ n.keys, k.Fits

/-- A leaf that has been edited: it is sound, and on the page that it was on. -/
structure Leaf.Revises (l' l : Leaf) : Prop where
  sound : l'.Sound
  page_eq : l'.page = l.page

/-- A node that has been edited: it is sound, and on the page that it was on. -/
structure Internal.Revises (n' n : Internal) : Prop where
  sound : n'.Sound
  page_eq : n'.page = n.page

theorem Node.Encodable.leaf_sound {l : Leaf} (h : (Node.leaf l).Encodable) : l.Sound :=
  ⟨h.counts, fun k hk => (h.keys_ok k hk).2⟩

theorem Node.Encodable.internal_sound {n : Internal} (h : (Node.internal n).Encodable) : n.Sound :=
  ⟨h.counts, fun k hk => (h.keys_ok k hk).2⟩

namespace Leaf.Sound

variable {l left right : Leaf} {key : Field} {i : Nat}

/-- A key that is found has a record, in whatever order the keys are. -/
theorem exists_record (h : l.Sound) (hi : Keys.indexOf? key l.keys = some i) :
    ∃ id, Positions.get l.records i = .ok id ∧ id ∈ l.records :=
  Positions.exists_get l.records (h.counts ▸ Keys.lt_length_of_indexOf? hi)

theorem insertEntry (h : l.Sound) (hi : i ≤ l.keys.length) (hkey : key.Fits) (id : RecordId) :
    ∃ m, l.insertEntry i key id = .ok m ∧ m.Revises l := by
  obtain ⟨keys, hkeys, hlen, hmem⟩ := Positions.exists_insertAt l.keys key hi
  obtain ⟨records, hrecords, hlen', -⟩ := Positions.exists_insertAt l.records id (h.counts ▸ hi)
  refine ⟨{ l with keys, records }, ?_, ⟨?_, fun k hk => ?_⟩, rfl⟩
  · rw [Leaf.insertEntry, hkeys, hrecords]
    rfl
  · rw [hlen, hlen', h.counts]
  · exact List.forall_mem_cons.2 ⟨hkey, h.fits⟩ k (hmem hk)

theorem removeEntry (h : l.Sound) (hi : i < l.keys.length) :
    ∃ a, l.removeEntry i = .ok a ∧ a.2.Revises l := by
  obtain ⟨key, keys, hkeys, hlen, -, hmem⟩ := Positions.exists_removeAt l.keys hi
  obtain ⟨id, records, hrecords, hlen', -, -⟩ := Positions.exists_removeAt l.records (h.counts ▸ hi)
  refine ⟨(id, { l with keys, records }), ?_, ⟨?_, fun k hk => h.fits k (hmem hk)⟩, rfl⟩
  · rw [Leaf.removeEntry, hkeys]
    show (Positions.removeAt l.records i >>= _) = _
    rw [hrecords]
    rfl
  · have := h.counts
    show records.length = keys.length
    omega

/-- A leaf with a key for the right half. -/
theorem split (h : l.Sound) (hsize : splitPosition < l.keys.length) (p : PageId) :
    ∃ a, l.split p = .ok a ∧ a.1.Revises l ∧ (a.2.2.Sound ∧ a.2.2.page = p) ∧ a.2.1.Fits := by
  have hcounts := h.counts
  obtain ⟨keys, keys', hkeys, hlen, hsum, hmem, hmem'⟩ :=
    Positions.exists_splitAt l.keys (Nat.le_of_lt hsize)
  obtain ⟨records, records', hrecords, hlen', hsum', -, -⟩ :=
    Positions.exists_splitAt l.records (i := splitPosition) (by omega)
  obtain ⟨separator, hseparator, hin⟩ := Positions.exists_get keys' (i := 0) (by omega)
  refine ⟨({ l with keys := keys, records := records }, separator,
    { l with page := p, keys := keys', records := records' }), ?_,
    ⟨⟨?_, fun k hk => h.fits k (hmem hk)⟩, rfl⟩, ⟨⟨?_, fun k hk => h.fits k (hmem' hk)⟩, rfl⟩,
    h.fits _ (hmem' hin)⟩
  · rw [Leaf.split, hkeys, hrecords]
    show (Positions.get keys' 0 >>= _) = _
    rw [hseparator]
    rfl
  · show records.length = keys.length
    omega
  · show records'.length = keys'.length
    omega

theorem join (hl : left.Sound) (hr : right.Sound) : (left.join right).Revises left := by
  refine ⟨⟨?_, List.forall_mem_append.2 ⟨hl.fits, hr.fits⟩⟩, rfl⟩
  show (left.records ++ right.records).length = (left.keys ++ right.keys).length
  rw [List.length_append, List.length_append, hl.counts, hr.counts]

theorem shiftLeft (hl : left.Sound) (hr : right.Sound) (hsize : 1 < right.keys.length) :
    ∃ a, left.shiftLeft right = .ok a ∧ a.1.Revises left ∧ a.2.1.Revises right ∧ a.2.2.Fits := by
  have hcounts := hr.counts
  obtain ⟨key, keys, hkeys, hlen, hkey, hmem⟩ :=
    Positions.exists_removeAt right.keys (i := 0) (by omega)
  obtain ⟨id, records, hrecords, hlen', -, -⟩ :=
    Positions.exists_removeAt right.records (i := 0) (by omega)
  obtain ⟨separator, hseparator, hin⟩ := Positions.exists_get keys (i := 0) (by omega)
  refine ⟨({ left with keys := left.keys ++ [key], records := left.records ++ [id] },
    { right with keys, records }, separator), ?_, ⟨⟨?_, ?_⟩, rfl⟩,
    ⟨⟨?_, fun k hk => hr.fits k (hmem hk)⟩, rfl⟩, hr.fits _ (hmem hin)⟩
  · rw [Leaf.shiftLeft, hkeys]
    show (Positions.removeAt right.records 0 >>= _) = _
    rw [hrecords]
    show (Positions.get keys 0 >>= _) = _
    rw [hseparator]
    rfl
  · simpa using hl.counts
  · exact List.forall_mem_append.2 ⟨hl.fits, by simpa using hr.fits key hkey⟩
  · show records.length = keys.length
    omega

theorem shiftRight (hl : left.Sound) (hr : right.Sound) {a : Leaf × Leaf × Field}
    (h : left.shiftRight right = .ok a) :
    a.1.Revises left ∧ a.2.1.Revises right ∧ a.2.2.Fits := by
  unfold Leaf.shiftRight at h
  split at h
  next key id hkey hid =>
    cases h
    have hfits := hl.fits key (List.mem_of_getLast? hkey)
    refine ⟨⟨⟨?_, fun k hk => hl.fits k (List.dropLast_subset _ hk)⟩, rfl⟩, ⟨⟨?_, ?_⟩, rfl⟩, hfits⟩
    · simp [hl.counts]
    · simp [hr.counts]
    · exact List.forall_mem_cons.2 ⟨hfits, hr.fits⟩
  next => cases h

end Leaf.Sound

/-! ### Internal nodes -/

/-- Children that stand side by side are two, and the key between them is there. -/
theorem Internal.separatorIndex_eq_ok {n : Internal} {left right : PageId} {slot : Nat}
    (h : n.separatorIndex left right = .ok slot) :
    left ≠ right ∧ left ∈ n.children ∧ right ∈ n.children ∧ slot + 1 < n.children.length := by
  have hindex : ∀ {p i}, n.indexOfChild p = .ok i → p ∈ n.children ∧ i < n.children.length := by
    intro p i hi
    unfold indexOfChild at hi
    split at hi
    next j hj =>
      cases hi
      obtain ⟨hlt, hp, -⟩ := List.idxOf?_eq_some_iff.1 hj
      exact ⟨hp ▸ List.getElem_mem hlt, hlt⟩
    next => cases hi
  unfold separatorIndex at h
  cases hl : n.indexOfChild left with
  | error e =>
    rw [hl] at h
    cases h
  | ok i =>
    cases hr : n.indexOfChild right with
    | error e =>
      rw [hl, hr] at h
      cases h
    | ok j =>
      rw [hl, hr] at h
      change (if j = i + 1 then _ else _) = _ at h
      split_ifs at h with hij
      cases h
      refine ⟨?_, (hindex hl).1, (hindex hr).1, hij ▸ (hindex hr).2⟩
      rintro rfl
      rw [hl] at hr
      cases hr
      omega

namespace Internal.Sound

variable {n left right : Internal} {key : Field} {i : Nat}

theorem insertChild (h : n.Sound) (hi : i < n.children.length) (hkey : key.Fits) (p : PageId) :
    ∃ m, n.insertChild i key p = .ok m ∧ m.Revises n ∧
      m.children.length = n.children.length + 1 := by
  have hcounts := h.counts
  obtain ⟨keys, hkeys, hlen, hmem⟩ :=
    Positions.exists_insertAt n.keys key (i := i) (by omega)
  obtain ⟨children, hchildren, hlen', -⟩ := Positions.exists_insertAt n.children p (Nat.succ_le_of_lt hi)
  refine ⟨{ n with keys, children }, ?_, ⟨⟨?_, fun k hk => ?_⟩, rfl⟩, hlen'⟩
  · rw [Internal.insertChild, hkeys]
    show (Positions.insertAt n.children (i + 1) p >>= _) = _
    rw [hchildren]
    rfl
  · rw [hlen, hlen', hcounts]
  · exact List.forall_mem_cons.2 ⟨hkey, h.fits⟩ k (hmem hk)

/-- A node with a key to move up. -/
theorem split (h : n.Sound) (hsize : splitPosition ≤ n.keys.length) (p : PageId) :
    ∃ a, n.split p = .ok a ∧
      (a.1.Revises n ∧ a.1.children.length = splitPosition) ∧
      (a.2.2.Sound ∧ a.2.2.page = p ∧
        splitPosition + a.2.2.children.length = n.children.length) ∧ a.2.1.Fits := by
  have hcounts := h.counts
  obtain ⟨keys, keys', hkeys, hlen, hsum, hmem, hmem'⟩ := Positions.exists_splitAt n.keys hsize
  obtain ⟨children, children', hchildren, hlen', hsum', -, -⟩ :=
    Positions.exists_splitAt n.children (i := splitPosition) (by omega)
  have hpos : keys ≠ [] := by
    rintro rfl
    cases hlen
  refine ⟨({ n with keys := keys.dropLast, children := children }, keys.getLast hpos,
    { n with page := p, keys := keys', children := children' }), ?_,
    ⟨⟨⟨?_, fun k hk => h.fits k (hmem (List.dropLast_subset _ hk))⟩, rfl⟩, hlen'⟩,
    ⟨⟨?_, fun k hk => h.fits k (hmem' hk)⟩, rfl, hlen' ▸ hsum'⟩,
    h.fits _ (hmem (List.getLast_mem hpos))⟩
  · rw [Internal.split, hkeys, hchildren]
    dsimp only
    rw [List.getLast?_eq_getLast_of_ne_nil hpos]
  · show children.length = keys.dropLast.length + 1
    rw [List.length_dropLast, hlen, hlen']
    rfl
  · show children'.length = keys'.length + 1
    omega

theorem rootAbove (p : PageId) (keyType : FieldType) (left right : PageId) (hkey : key.Fits) :
    (rootAbove p keyType left key right).Sound :=
  ⟨rfl, by simpa [Internal.rootAbove] using hkey⟩

theorem removeChild (h : n.Sound) (hi : i + 1 < n.children.length) :
    ∃ a, n.removeChild i = .ok a ∧ a.1.Fits ∧ a.2.Revises n ∧ a.2.children ⊆ n.children := by
  have hcounts := h.counts
  obtain ⟨key, keys, hkeys, hlen, hin, hmem⟩ :=
    Positions.exists_removeAt n.keys (i := i) (by omega)
  obtain ⟨p, children, hchildren, hlen', -, hsub⟩ := Positions.exists_removeAt n.children hi
  refine ⟨(key, { n with keys, children }), ?_, h.fits key hin,
    ⟨⟨?_, fun k hk => h.fits k (hmem hk)⟩, rfl⟩, hsub⟩
  · rw [Internal.removeChild, hkeys]
    show (Positions.removeAt n.children (i + 1) >>= _) = _
    rw [hchildren]
    rfl
  · show children.length = keys.length + 1
    omega

theorem setKey (h : n.Sound) (hi : i < n.keys.length) (hkey : key.Fits) :
    ∃ m, n.setKey i key = .ok m ∧ m.Revises n := by
  obtain ⟨keys, hkeys, hlen, hmem⟩ := Positions.exists_replaceAt n.keys key hi
  refine ⟨{ n with keys }, ?_, ⟨?_, fun k hk => ?_⟩, rfl⟩
  · rw [Internal.setKey, hkeys]
    rfl
  · rw [hlen, h.counts]
  · exact List.forall_mem_cons.2 ⟨hkey, h.fits⟩ k (hmem hk)

theorem join (hl : left.Sound) (hr : right.Sound) (hkey : key.Fits) :
    (left.join key right).Revises left := by
  refine ⟨⟨?_, List.forall_mem_append.2 ⟨hl.fits, List.forall_mem_cons.2 ⟨hkey, hr.fits⟩⟩⟩, rfl⟩
  show (left.children ++ right.children).length = (left.keys ++ key :: right.keys).length + 1
  rw [List.length_append, List.length_append, List.length_cons, hl.counts, hr.counts]
  omega

theorem shiftLeft (hl : left.Sound) (hr : right.Sound) (hkey : key.Fits)
    (hsize : 1 < right.children.length) :
    ∃ a, left.shiftLeft key right = .ok a ∧ a.2.1.Revises left ∧ a.2.2.1.Revises right ∧
      a.2.2.2.Fits := by
  have hcounts := hr.counts
  obtain ⟨key', keys, hkeys, hlen, hin, hmem⟩ :=
    Positions.exists_removeAt right.keys (i := 0) (by omega)
  obtain ⟨p, children, hchildren, hlen', -, -⟩ :=
    Positions.exists_removeAt right.children (i := 0) (by omega)
  refine ⟨(p, { left with keys := left.keys ++ [key], children := left.children ++ [p] },
    { right with keys, children }, key'), ?_, ⟨⟨?_, ?_⟩, rfl⟩,
    ⟨⟨?_, fun k hk => hr.fits k (hmem hk)⟩, rfl⟩, hr.fits _ hin⟩
  · rw [Internal.shiftLeft, hkeys]
    show (Positions.removeAt right.children 0 >>= _) = _
    rw [hchildren]
    rfl
  · simpa using hl.counts
  · exact List.forall_mem_append.2 ⟨hl.fits, by simpa using hkey⟩
  · show children.length = keys.length + 1
    omega

theorem shiftRight (hl : left.Sound) (hr : right.Sound) (hkey : key.Fits)
    {a : PageId × Internal × Internal × Field} (h : left.shiftRight key right = .ok a) :
    a.2.1.Revises left ∧ a.2.2.1.Revises right ∧ a.2.2.2.Fits := by
  unfold Internal.shiftRight at h
  split at h
  next key' p hkey' hp =>
    cases h
    have hpos := List.length_pos_of_mem (List.mem_of_getLast? hkey')
    refine ⟨⟨⟨?_, fun k hk => hl.fits k (List.dropLast_subset _ hk)⟩, rfl⟩, ⟨⟨?_, ?_⟩, rfl⟩,
      hl.fits _ (List.mem_of_getLast? hkey')⟩
    · have := hl.counts
      simp only [List.length_dropLast]
      omega
    · simp [hr.counts]
    · exact List.forall_mem_cons.2 ⟨hkey, hr.fits⟩
  next => cases h

end Internal.Sound
end RecordIndex
