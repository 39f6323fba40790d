import Mathlib.Algebra.GroupWithZero.Nat
import Mathlib.Data.Finset.Card
import RecordIndex.Record.Codec

/-!
# Fields in the order of their names

A value that is made by setting fields is a map that keeps the order in which its names came first.
The entries are a plain list, so that no name stands in it twice is a fact about the way it was made
and not about the type.

* `Fields.exchange_eq_append` and `Fields.exchange_eq_replace`: what setting a field does to any
  value, with repeated names or not.
* `Fields.names_ofList` and `Fields.get?_ofList`: the names and the fields after a row of settings.
* `Fields.insertion_ordered`: the value as a map in the order of insertion.
-/

namespace RecordIndex

/-! ### Lists of pairs -/

/-- Where no name stands twice, a search finds a pair exactly if it is there. -/
theorem lookup_eq_some_iff_mem {α β : Type} [BEq α] [LawfulBEq α] {es : List (α × β)}
    (hn : (es.map Prod.fst).Nodup) {a : α} {b : β} : es.lookup a = some b ↔ (a, b) ∈ es := by
  rw [List.lookup_eq_some_iff]
  constructor
  · rintro ⟨before, after, rfl, -⟩
    exact List.mem_append_right _ List.mem_cons_self
  · intro he
    obtain ⟨before, after, rfl⟩ := List.append_of_mem he
    rw [List.map_append, List.map_cons, List.nodup_middle, List.nodup_cons] at hn
    refine ⟨before, after, rfl, fun e he => bne_iff_ne.2 fun ha => hn.1 ?_⟩
    exact List.mem_append_left _ (List.mem_map.2 ⟨e, he, ha.symm⟩)

/-- A search finds nothing exactly if the name is missing. -/
theorem lookup_eq_none_iff_notMem {α β : Type} [BEq α] [LawfulBEq α] {es : List (α × β)} {a : α} :
    es.lookup a = none ↔ a ∉ es.map Prod.fst := by
  simp only [List.lookup_eq_none_iff, bne_iff_ne, List.mem_map, not_exists, not_and]
  exact forall₂_congr fun _ _ => ne_comm

theorem eraseDups_concat {α : Type} [BEq α] [LawfulBEq α] [DecidableEq α] (as : List α) (a : α) :
    (as ++ [a]).eraseDups = if a ∈ as then as.eraseDups else as.eraseDups ++ [a] := by
  rw [List.eraseDups_append]
  split <;> simp [List.removeAll, List.eraseDups_cons, *]

namespace Fields

variable {v : Fields} {name : String}

/-- The names in order. -/
def names (v : Fields) : List String := v.entries.map Prod.fst

/-! ### One setting -/

theorem exchangeIn_of_notMem {es : List (String × Field)} (h : name ∉ es.map Prod.fst)
    (field : Field) : exchangeIn name field es = (none, es ++ [(name, field)]) := by
  induction es with
  | nil => rfl
  | cons e es ih =>
    rw [List.map_cons, List.mem_cons, not_or] at h
    rw [exchangeIn, if_neg (Ne.symm h.1), ih h.2]
    rfl

theorem exchangeIn_append_cons {before : List (String × Field)} (h : name ∉ before.map Prod.fst)
    (old field : Field) (after : List (String × Field)) :
    exchangeIn name field (before ++ (name, old) :: after) =
      (some old, before ++ (name, field) :: after) := by
  induction before with
  | nil => rw [List.nil_append, exchangeIn, if_pos rfl, List.nil_append]
  | cons e before ih =>
    rw [List.map_cons, List.mem_cons, not_or] at h
    rw [List.cons_append, exchangeIn, if_neg (Ne.symm h.1), ih h.2]
    rfl

/-- A new name goes to the end. -/
theorem exchange_eq_append (h : name ∉ v.names) (field : Field) :
    v.exchange name field = (none, ⟨v.entries ++ [(name, field)]⟩) := by
  rw [exchange, exchangeIn_of_notMem h]
  rfl

/-- A name that is there has its first field replaced, and nothing else changes. -/
theorem exchange_eq_replace {before after : List (String × Field)} {old : Field}
    (hv : v.entries = before ++ (name, old) :: after) (h : name ∉ before.map Prod.fst)
    (field : Field) :
    v.exchange name field = (some old, ⟨before ++ (name, field) :: after⟩) := by
  rw [exchange, hv, exchangeIn_append_cons h]
  rfl

/-- A name that is there stands in a first place. -/
theorem exists_first (h : name ∈ v.names) :
    ∃ before old after, v.entries = before ++ (name, old) :: after ∧
      name ∉ before.map Prod.fst := by
  obtain ⟨old, hold⟩ := Option.ne_none_iff_exists'.1 (mt lookup_eq_none_iff_notMem.1 (not_not.2 h))
  obtain ⟨before, after, hv, hbefore⟩ := List.lookup_eq_some_iff.1 hold
  refine ⟨before, old, after, hv, fun hname => ?_⟩
  obtain ⟨e, he, rfl⟩ := List.mem_map.1 hname
  exact bne_iff_ne.1 (hbefore e he) rfl

/-- Setting a field keeps the names and their order, but for a new name at the end. -/
theorem names_insert (v : Fields) (name : String) (field : Field) :
    (v.insert name field).names = if name ∈ v.names then v.names else v.names ++ [name] := by
  split_ifs with h
  · obtain ⟨before, old, after, hv, hbefore⟩ := exists_first h
    rw [insert, exchange_eq_replace hv hbefore, names, names, hv]
    simp only [List.map_append, List.map_cons]
  · rw [insert, exchange_eq_append h, names, names, List.map_append]
    rfl

/-! ### A row of settings -/

theorem ofList_concat (pairs : List (String × Field)) (name : String) (field : Field) :
    ofList (pairs ++ [(name, field)]) = (ofList pairs).insert name field :=
  List.foldl_concat ..

/-- The names stand in the order in which they came first. -/
theorem names_ofList (pairs : List (String × Field)) :
    (ofList pairs).names = (pairs.map Prod.fst).eraseDups := by
  induction pairs using List.reverseRecOn with
  | nil => rfl
  | append_singleton pairs p ih =>
    rw [ofList_concat, names_insert, ih, List.map_append, List.map_singleton, eraseDups_concat]
    simp only [List.mem_eraseDups]

theorem nodup_names_ofList (pairs : List (String × Field)) : (ofList pairs).names.Nodup := by
  induction pairs using List.reverseRecOn with
  | nil => exact List.nodup_nil
  | append_singleton pairs p ih =>
    rw [ofList_concat, names_insert]
    split_ifs with h
    · exact ih
    · exact List.concat_eq_append ▸ ih.concat h

/-- Each name has the last field that was given for it. -/
theorem get?_ofList (pairs : List (String × Field)) (name : String) :
    (ofList pairs).get? name = pairs.reverse.lookup name := by
  induction pairs using List.reverseRecOn with
  | nil => rfl
  | append_singleton pairs p ih =>
    obtain ⟨n, f⟩ := p
    rw [ofList_concat, get?_insert, ih, List.reverse_append, List.reverse_singleton,
      List.singleton_append]
    by_cases h : name = n
    · simp [h]
    · simp [List.lookup_cons, h, beq_eq_false_iff_ne.2 h]

theorem size_eq_sum (v : Fields) : v.size = (v.entries.map entrySize).sum := by
  rw [size, List.sum_eq_foldr, List.foldr_map]

end Fields

/-- A value made by a row of settings has each name once, in the order in which the names came
first, with the last field that was given for it; every setting gives what a search has found just
before, and the size is that of the entries. Of a value that repeats a name, a search and a setting
see the first place only. -/
theorem Fields.insertion_ordered :
    (∀ pairs : List (String × Field),
      (ofList pairs).names = (pairs.map Prod.fst).eraseDups ∧ (ofList pairs).names.Nodup ∧
      (∀ name field, (name, field) ∈ (ofList pairs).entries ↔
        pairs.reverse.lookup name = some field) ∧
      (ofList pairs).entries.length = (pairs.map Prod.fst).toFinset.card ∧
      (∀ name field, (ofList pairs).exchange name field =
        ((ofList pairs).get? name, ofList (pairs ++ [(name, field)]))) ∧
      (∀ name, (ofList pairs).get? name = none ↔ name ∉ pairs.map Prod.fst) ∧
      (ofList pairs).size =
        ((ofList pairs).entries.map fun e => 4 + e.1.utf8ByteSize + 1 + e.2.size).sum) ∧
    ∀ (v : Fields) (name : String) (field : Field),
      (name ∉ v.names → v.get? name = none ∧
        v.exchange name field = (none, ⟨v.entries ++ [(name, field)]⟩)) ∧
      ∀ before old after, v.entries = before ++ (name, old) :: after →
        name ∉ before.map Prod.fst → v.get? name = some old ∧
          v.exchange name field = (some old, ⟨before ++ (name, field) :: after⟩) := by
  refine ⟨fun pairs => ⟨names_ofList pairs, nodup_names_ofList pairs, fun name field => ?_, ?_,
    fun name field => ?_, fun name => ?_, size_eq_sum _⟩, fun v name field => ⟨fun h => ?_,
    fun before old after hv h => ?_⟩⟩
  · rw [← lookup_eq_some_iff_mem (nodup_names_ofList pairs), ← get?_ofList, get?]
  · have hset : (ofList pairs).names.toFinset = (pairs.map Prod.fst).toFinset := by
      ext name
      rw [List.mem_toFinset, List.mem_toFinset, names_ofList, List.mem_eraseDups]
    rw [← hset, List.toFinset_card_of_nodup (nodup_names_ofList pairs), names, List.length_map]
  · rw [ofList_concat, insert, ← fst_exchange _ name field]
  · rw [get?_ofList, lookup_eq_none_iff_notMem, List.map_reverse, List.mem_reverse]
  · exact ⟨lookup_eq_none_iff_notMem.2 h, exchange_eq_append h field⟩
  · have hold := exchange_eq_replace hv h field
    exact ⟨by rw [← fst_exchange v name field, hold], hold⟩

/-- A record read from the disk may hold a name twice. -/
theorem Fields.insertion_ordered_decoded :
    ∃ v : Fields, Record.decode
        [1, 0, 0, 0, 7, 0, 0, 0, 1, 98, 1, 0, 0, 0, 2, 0, 0, 0, 1, 97, 1, 0, 0, 0, 1,
          0, 0, 0, 1, 97, 1, 0, 0, 0, 3] = .ok ⟨.int32 7, v⟩ ∧
      v.entries = [("b", .int32 2)] ++ ("a", .int32 1) :: [("a", .int32 3)] ∧
      "c" ∉ v.names ∧ "a" ∉ [("b", Field.int32 2)].map Prod.fst ∧
      v.exchange "c" (.int64 9) = (none, ⟨v.entries ++ [("c", .int64 9)]⟩) ∧
      v.get? "a" = some (.int32 1) ∧ v.exchange "a" (.int64 9) =
        (some (.int32 1), ⟨[("b", .int32 2)] ++ ("a", .int64 9) :: [("a", .int32 3)]⟩) := by
  have hnew : "c" ∉ names ⟨[("b", .int32 2), ("a", .int32 1), ("a", .int32 3)]⟩ := by decide
  have hold : "a" ∉ [("b", Field.int32 2)].map Prod.fst := by decide
  obtain ⟨hc, -⟩ := insertion_ordered.2 _ "c" (.int64 9)
  obtain ⟨-, ha⟩ := insertion_ordered.2 _ "a" (.int64 9)
  exact ⟨_, by decide +kernel, rfl, hnew, hold, (hc hnew).2, ha _ _ _ rfl hold⟩

end RecordIndex
