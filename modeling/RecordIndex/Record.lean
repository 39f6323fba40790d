import RecordIndex.Field.Codec

/-!
# Records

A record is a key with a value, and the value is a list of named fields in the order in which the
names came first.

* `Fields.insert` sets a field: a name that is present keeps its place, a new one goes to the end.
  `Fields.exchange` gives the field that was there besides.
* `Fields.get?` finds a field by name.

Values read from disk may repeat a name; all of them then see its first occurrence only.
-/

namespace RecordIndex

/-- Named fields in order. -/
structure Fields where
  entries : List (String × Field)
deriving DecidableEq, Repr, Inhabited

/-- A key and its value. -/
structure Record where
  key : Field
  value : Fields
deriving DecidableEq, Repr, Inhabited

namespace Fields

/-- No fields. -/
def empty : Fields := ⟨[]⟩

/-- The field under a name. -/
def get? (v : Fields) (name : String) : Option Field := v.entries.lookup name

/-- Replaces the first field under `name` and gives what it was, or adds one at the end. -/
def exchangeIn (name : String) (field : Field) :
    List (String × Field) → Option Field × List (String × Field)
  | [] => (none, [(name, field)])
  | (n, f) :: rest =>
    if n = name then (some f, (n, field) :: rest)
    else Prod.map id ((n, f) :: ·) (exchangeIn name field rest)

/-- Sets the field under a name and gives the one that was there. -/
def exchange (v : Fields) (name : String) (field : Field) : Option Field × Fields :=
  Prod.map id Fields.mk (exchangeIn name field v.entries)

/-- Sets the field under a name. -/
def insert (v : Fields) (name : String) (field : Field) : Fields := (v.exchange name field).2

/-- The fields of a list of pairs, each name with the last field given for it. -/
def ofList (pairs : List (String × Field)) : Fields :=
  pairs.foldl (fun v p => v.insert p.1 p.2) empty

/-- Encoded bytes of one named field: the length of the name, the name, the signal, the field. -/
def entrySize (e : String × Field) : Nat := 4 + e.1.utf8ByteSize + 1 + e.2.size

/-- Encoded bytes of all fields. -/
def size (v : Fields) : Nat := v.entries.foldr (fun e n => entrySize e + n) 0

/-- Refuses a name whose length is no four-byte word, and a field that does not fit its slot. -/
def validateEntry (e : String × Field) : Except Error Unit :=
  if UInt32.size ≤ e.1.utf8ByteSize then .error (.encoding (.longName e.1.utf8ByteSize))
  else e.2.validate

/-- Refuses the first field that has no encoded form. -/
def validate (v : Fields) : Except Error Unit := v.entries.forM validateEntry

@[simp] theorem get?_empty (name : String) : empty.get? name = none := rfl

theorem fst_exchangeIn (name : String) (field : Field) (es : List (String × Field)) :
    (exchangeIn name field es).1 = es.lookup name := by
  induction es with
  | nil => rfl
  | cons e es ih =>
    obtain ⟨n, f⟩ := e
    by_cases hn : n = name
    · simp [exchangeIn, hn]
    · simp [exchangeIn, List.lookup_cons, hn, beq_eq_false_iff_ne.2 (Ne.symm hn), ih]

theorem lookup_exchangeIn (name name' : String) (field : Field) (es : List (String × Field)) :
    (exchangeIn name field es).2.lookup name' =
      if name' = name then some field else es.lookup name' := by
  induction es with
  | nil =>
    by_cases h : name' = name
    · simp [exchangeIn, h]
    · simp [exchangeIn, List.lookup_cons, h, beq_eq_false_iff_ne.2 h]
  | cons e es ih =>
    obtain ⟨n, f⟩ := e
    by_cases hn : n = name
    · subst hn
      by_cases h : name' = n
      · simp [exchangeIn, h]
      · simp [exchangeIn, List.lookup_cons, h, beq_eq_false_iff_ne.2 h]
    · by_cases h : name' = n
      · subst h; simp [exchangeIn, hn]
      · simp [exchangeIn, List.lookup_cons, hn, beq_eq_false_iff_ne.2 h, ih]

/-- An exchange gives what a search for the name has found just before. -/
@[simp] theorem fst_exchange (v : Fields) (name : String) (field : Field) :
    (v.exchange name field).1 = v.get? name :=
  fst_exchangeIn name field v.entries

/-- After setting a name, that name has the new field and every other one what it had. -/
theorem get?_insert (v : Fields) (name name' : String) (field : Field) :
    (v.insert name field).get? name' = if name' = name then some field else v.get? name' :=
  lookup_exchangeIn name name' field v.entries

end Fields

namespace Record

/-- Encoded bytes of a record. -/
def size (r : Record) : Nat := 1 + r.key.size + r.value.size

/-- Refuses a record that has no encoded form; the key is looked at first. -/
def validate (r : Record) : Except Error Unit := do
  r.key.validate
  r.value.validate

/-- Orders records by their keys. -/
def compareKeys (a b : Record) : Ordering := compare a.key b.key

end Record
end RecordIndex
