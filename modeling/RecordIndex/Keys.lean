import RecordIndex.Field

/-!
# Searching a list of keys

The keys of a node are in ascending order, and a node is searched by halving.

* `Keys.indexOf? key keys` is the place of `key`, if it is there.
* `Keys.firstLarger key keys` is the number of keys that are not larger than `key`: the child to
  descend to, and the place where `key` is inserted.
* `Keys.disorder? keys` is the first pair of neighbours that breaks the order.

A damaged page may hold keys in any order. What the search then answers is fixed by the positions it
looks at, which depend only on the number of keys and on the outcomes of the comparisons.
-/

namespace RecordIndex.Keys

/-- Narrows the `size` positions from `base` on to a single one. Each step looks at the position in
the middle and keeps what starts there if `keep` holds of it, and what lies before it if not. -/
def narrow (keep : Nat → Bool) (base size : Nat) : Nat :=
  if size ≤ 1 then base
  else narrow keep (if keep (base + size / 2) then base + size / 2 else base) (size - size / 2)
termination_by size

/-- Halves `keys` by a comparison with what is sought: the position where it is (`some`), and the
position where the search ended or the one behind it. -/
def search (order : Field → Ordering) (keys : List Field) : Option Nat × Nat :=
  let at' (i : Nat) : Ordering := (keys[i]?.map order).getD .gt
  if keys.isEmpty then (none, 0)
  else
    let i := narrow (fun i => at' i != .gt) 0 keys.length
    match at' i with
    | .eq => (some i, i)
    | .lt => (none, i + 1)
    | .gt => (none, i)

/-- The place of a key. -/
def indexOf? (key : Field) (keys : List Field) : Option Nat :=
  (search (fun k => compare k key) keys).1

/-- The number of keys that are not larger than `key`. -/
def firstLarger (key : Field) (keys : List Field) : Nat :=
  (search (fun k => if (compare k key).isLE then .lt else .gt) keys).2

/-- The first two neighbours that are not in strictly ascending order. -/
def disorder? : List Field → Option (Field × Field)
  | a :: b :: rest => if a < b then disorder? (b :: rest) else some (a, b)
  | _ => none

@[simp] theorem disorder?_nil : disorder? [] = none := rfl

@[simp] theorem disorder?_singleton (a : Field) : disorder? [a] = none := rfl

theorem disorder?_cons_cons (a b : Field) (rest : List Field) :
    disorder? (a :: b :: rest) = if a < b then disorder? (b :: rest) else some (a, b) := rfl

end RecordIndex.Keys
