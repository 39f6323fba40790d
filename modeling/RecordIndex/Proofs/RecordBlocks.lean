import RecordIndex.Proofs.BlockArray
import RecordIndex.Proofs.Loading

/-!
# Record files as lists of blocks

A record file that starts empty is a list of blocks of one size for its user: the first block that is
appended gives the size, and only dropping all blocks frees it again. Closing the file and opening it
again makes no difference, since the size stands in the file and the number of blocks can be told from
its length.

* `RecordCall` is a call to an open record file, and `BlockList.apply` says what it does to the list.
* `BlockList.appended` tells from calls and their answers what has been appended since the last
  `clear`. `BlockList.noted_leave`: this has the numbers and the sizes of the blocks.
* `RecordFile.Stores f blocks`: the handle and the bytes of the file agree on the blocks.
* `RecordFile.Stores.acts`: one call does to the file what it does to the list.
* `RecordSession` is an open record file with its disk, and `RecordSession.run` takes steps: calls, and
  opening the file again. `RecordSession.Steady.exists_run` is the result for a row of steps.
-/

namespace RecordIndex

open RecordIndex.Action

/-! ### Calls -/

/-- The bytes of a record that passes its check. -/
def Record.encoded (r : Record) : Bytes := r.encode.toOption.getD []

/-- A call to an open record file. Blocks are taken as they are, and records are encoded. -/
inductive RecordCall where
  | add (r : Record)
  | append (bs : Bytes)
  | replace (id : RecordId) (r : Record)
  | write (id : RecordId) (bs : Bytes)
  | erase (id : RecordId)
  | read (id : RecordId)
  | clear

namespace RecordCall

/-- Makes a call. -/
def run : RecordCall → SlotAction SlotReply
  | add r => (fun id => .number id.number.toNat) <$> RecordFile.add r
  | append bs => (fun id => .number id.number.toNat) <$> RecordFile.appendBlock bs
  | replace id r => (fun _ => .done) <$> RecordFile.replace id r
  | write id bs => (fun _ => .done) <$> SlotFile.write id.number bs
  | erase id => (fun _ => .done) <$> RecordFile.erase id
  | read id => .block <$> SlotFile.read id.number
  | clear => (fun _ => .done) <$> RecordFile.clear

/-- The record of a call passes its check, if there is one. -/
def Encodable : RecordCall → Prop
  | add r | replace _ r => r.validate = .ok ()
  | _ => True

end RecordCall

/-! ### Lists of blocks -/

namespace BlockList

/-- The size of the blocks, once there is one. -/
def size? (blocks : List Bytes) : Option Nat := (blocks.map List.length).head?

/-- The bytes of a file with these blocks. -/
def contents (blocks : List Bytes) : Bytes :=
  match size? blocks with
  | none => []
  | some size => RecordFile.encodeHeader size ++ blocks.flatten

/-- Adds a block. The first one must not be too large nor empty, and each other one must have its
size. Behind the last position of a file there is no room for another one. -/
def push (blocks : List Bytes) (bs : Bytes) : Except Error SlotReply × List Bytes :=
  match size? blocks with
  | none =>
    if RecordFile.maxRecordSize < bs.length then
      (.error (.encoding (.largeRecord bs.length)), blocks)
    else if bs.length = 0 then (.error (.encoding .emptyRecord), blocks)
    else (.ok (.number blocks.length), blocks ++ [bs])
  | some size =>
    if bs.length ≠ size then (.error (.slotSizeMismatch size bs.length), blocks)
    else if 2 ^ 63 ≤ recordHeaderBytes + blocks.length * size then
      (.error (.io .invalidInput), blocks)
    else (.ok (.number blocks.length), blocks ++ [bs])

/-- Puts a block in the place of another one, which must have its size. -/
def put (blocks : List Bytes) (id : RecordId) (bs : Bytes) : Except Error SlotReply × List Bytes :=
  match blocks[id.number.toNat]? with
  | none => (.error (.slotOutOfBounds id.number), blocks)
  | some b =>
    if bs.length ≠ b.length then (.error (.slotSizeMismatch b.length bs.length), blocks)
    else (.ok .done, blocks.set id.number.toNat bs)

/-- What a call answers, and the blocks that it leaves. -/
def apply (blocks : List Bytes) : RecordCall → Except Error SlotReply × List Bytes
  | .add r => push blocks r.encoded
  | .append bs => push blocks bs
  | .replace id r => put blocks id r.encoded
  | .write id bs => put blocks id bs
  | .erase id =>
    match blocks[id.number.toNat]? with
    | none => (.error (.slotOutOfBounds id.number), blocks)
    | some b => (.ok .done, blocks.set id.number.toNat (zeros b.length))
  | .read id =>
    match blocks[id.number.toNat]? with
    | none => (.error (.slotOutOfBounds id.number), blocks)
    | some b => (.ok (.block b), blocks)
  | .clear => (.ok .done, [])

/-- What a row of calls answers. -/
def replies : List RecordCall → List Bytes → List (Except Error SlotReply)
  | [], _ => []
  | c :: calls, blocks => (apply blocks c).1 :: replies calls (apply blocks c).2

/-- The blocks that a row of calls leaves. -/
def leave : List RecordCall → List Bytes → List Bytes
  | [], blocks => blocks
  | c :: calls, blocks => leave calls (apply blocks c).2

/-- A list of blocks with their numbers, brought up to date with a call and its answer: a block that
has been appended is added with the number that was answered. -/
def note (done : List (Nat × Bytes)) :
    RecordCall × Except Error SlotReply → List (Nat × Bytes)
  | (.append bs, .ok (.number n)) => done ++ [(n, bs)]
  | (.add r, .ok (.number n)) => done ++ [(n, r.encoded)]
  | (.clear, .ok _) => []
  | _ => done

/-- What has been appended since the last `clear`, from the calls and their answers. -/
def appended (log : List (RecordCall × Except Error SlotReply)) : List (Nat × Bytes) :=
  log.foldl note []

variable {blocks : List Bytes} {bs : Bytes} {id : RecordId} {size : Nat}

theorem push_cases (blocks : List Bytes) (bs : Bytes) :
    (∃ e, push blocks bs = (.error e, blocks)) ∨
      push blocks bs = (.ok (.number blocks.length), blocks ++ [bs]) := by
  unfold push
  split
  · split_ifs
    · exact .inl ⟨_, rfl⟩
    · exact .inl ⟨_, rfl⟩
    · exact .inr rfl
  · split_ifs
    · exact .inl ⟨_, rfl⟩
    · exact .inl ⟨_, rfl⟩
    · exact .inr rfl

theorem map_length_set {i : Nat} {b : Bytes} (hb : blocks[i]? = some b)
    (hlen : bs.length = b.length) : (blocks.set i bs).map List.length = blocks.map List.length := by
  obtain ⟨hi, rfl⟩ := List.getElem?_eq_some_iff.1 hb
  rw [List.map_set, hlen, ← List.getElem_map List.length (h := by rwa [List.length_map]),
    List.set_getElem_self]

/-- A block that is put in the place of another one leaves the sizes as they are. -/
theorem put_cases (blocks : List Bytes) (id : RecordId) (bs : Bytes) :
    (∃ e, put blocks id bs = (.error e, blocks)) ∨
      put blocks id bs = (.ok .done, blocks.set id.number.toNat bs) ∧
        (blocks.set id.number.toNat bs).map List.length = blocks.map List.length := by
  unfold put
  split
  · exact .inl ⟨_, rfl⟩
  · rename_i b hb
    split_ifs with hlen
    · exact .inl ⟨_, rfl⟩
    · exact .inr ⟨rfl, map_length_set hb (not_not.1 hlen)⟩

/-- The blocks are those that have been appended, in their order, but for what has been written over
them. -/
structure Noted (done : List (Nat × Bytes)) (blocks : List Bytes) : Prop where
  numbers : done.map Prod.fst = List.range blocks.length
  lengths : done.map (·.2.length) = blocks.map List.length

namespace Noted

variable {done : List (Nat × Bytes)}

theorem push (h : Noted done blocks) {c : RecordCall}
    (hc : ∀ n, note done (c, .ok (.number n)) = done ++ [(n, bs)])
    (herror : ∀ e, note done (c, .error e) = done) :
    Noted (note done (c, (push blocks bs).1)) (BlockList.push blocks bs).2 := by
  rcases push_cases blocks bs with ⟨e, he⟩ | hok
  · rw [he, herror]
    exact h
  · rw [hok, hc]
    refine ⟨?_, ?_⟩
    · rw [List.map_append, h.numbers, List.length_append, List.length_singleton, List.range_succ]
      rfl
    · rw [List.map_append, h.lengths, List.map_append]
      rfl

theorem set (h : Noted done blocks) {blocks' : List Bytes}
    (hlengths : blocks'.map List.length = blocks.map List.length) : Noted done blocks' := by
  have hlength : blocks'.length = blocks.length := by
    rw [← List.length_map List.length, hlengths, List.length_map]
  exact ⟨hlength ▸ h.numbers, h.lengths.trans hlengths.symm⟩

theorem put (h : Noted done blocks) (id : RecordId) (bs : Bytes) :
    Noted done (put blocks id bs).2 := by
  rcases put_cases blocks id bs with ⟨e, he⟩ | ⟨hok, hlengths⟩
  · rw [he]
    exact h
  · rw [hok]
    exact h.set hlengths

theorem apply (h : Noted done blocks) (c : RecordCall) :
    Noted (note done (c, (apply blocks c).1)) (apply blocks c).2 := by
  cases c with
  | add r => exact h.push (fun _ => rfl) fun _ => rfl
  | append bs => exact h.push (fun _ => rfl) fun _ => rfl
  | replace id r => exact h.put id r.encoded
  | write id bs => exact h.put id bs
  | erase id =>
    simp only [BlockList.apply, note]
    split
    · exact h
    · exact h.set (map_length_set ‹_› (length_zeros _))
  | read id =>
    simp only [BlockList.apply, note]
    split <;> exact h
  | clear => exact ⟨rfl, rfl⟩

end Noted

/-- After a row of calls the blocks have the numbers and the sizes of those that have been appended. -/
theorem noted_leave {done : List (Nat × Bytes)} (h : Noted done blocks) (calls : List RecordCall) :
    Noted ((calls.zip (replies calls blocks)).foldl note done) (leave calls blocks) := by
  induction calls generalizing done blocks with
  | nil => exact h
  | cons c calls ih => exact ih (h.apply c)

end BlockList

/-! ### Files that store a list of blocks -/

theorem Record.encode_eq_encoded {r : Record} (h : r.validate = .ok ()) :
    r.encode = .ok r.encoded := by
  obtain ⟨bs, hbs, -, -⟩ := r.exists_encode h
  rw [encoded, hbs]
  rfl

namespace RecordFile

/-- The handle and the bytes of the file agree on the blocks: there are none, and no bytes, or the
header says which size they have. -/
inductive Stores (f : SlotFile) : List Bytes → Prop
  | unset (layout_eq : f.layout = none) (contents_eq : f.bytes.contents = [])
      (count_eq : f.count = 0) : Stores f []
  | set {n : Nat} {blocks : List Bytes} (size_eq : BlockList.size? blocks = some n)
      (size_le : n ≤ maxRecordSize)
      (holds : f.Holds (layout (UInt64.ofNat n)) (encodeHeader n) blocks) : Stores f blocks

namespace Stores

variable {f g : SlotFile} {blocks : List Bytes} {bs : Bytes} {id : RecordId}

theorem inStep (h : Stores f blocks) : InStep f := by
  cases h with
  | unset hlayout hempty hcount => exact .unset hlayout hempty hcount
  | set _ hle hholds => exact .set (toNat_ofNat_size hle ▸ hholds.size_pos) hle hholds

theorem slotSize?_eq (h : Stores f blocks) :
    f.slotSize?.map (·.toNat) = BlockList.size? blocks := by
  cases h with
  | unset hlayout _ _ =>
    rw [SlotFile.slotSize?, hlayout]
    rfl
  | set hsize hle hholds =>
    rw [SlotFile.slotSize?, hholds.layout_eq, hsize]
    exact congrArg some (toNat_ofNat_size hle)

theorem count_eq (h : Stores f blocks) : f.count.toNat = blocks.length := by
  cases h with
  | unset _ _ hcount =>
    rw [hcount]
    rfl
  | set _ _ hholds => exact hholds.count_eq

theorem contents_eq (h : Stores f blocks) : f.bytes.contents = BlockList.contents blocks := by
  cases h with
  | unset _ hempty _ => exact hempty
  | set hsize _ hholds => rw [hholds.contents_eq, BlockList.contents, hsize]

theorem length_of_mem (h : Stores f blocks) {b : Bytes} (hb : b ∈ blocks) :
    BlockList.size? blocks = some b.length := by
  cases h with
  | unset _ _ _ => cases hb
  | set hsize hle hholds =>
    rw [hsize, hholds.length_block b hb]
    exact congrArg some (toNat_ofNat_size hle).symm

/-- The size stands in front of the blocks. -/
theorem decode_header (h : Stores f blocks) {n : Nat} (hn : BlockList.size? blocks = some n) :
    BigEndian.decode ((BlockList.contents blocks).take recordHeaderBytes) = n := by
  cases h with
  | unset _ _ _ => cases hn
  | set hsize hle _ =>
    obtain rfl := Option.some.inj (hsize.symm.trans hn)
    rw [BlockList.contents, hsize]
    exact decode_encodeHeader hle _

theorem block?_eq (h : Stores f blocks) (slot : UInt64) : f.block? slot = blocks[slot.toNat]? := by
  cases h with
  | unset hlayout _ _ =>
    rw [SlotFile.block?, hlayout]
    rfl
  | set _ _ hholds => exact hholds.block?_eq slot

/-- What is not about the layout, the count or the bytes makes no difference. -/
theorem congr (h : Stores f blocks) (hlayout : g.layout = f.layout) (hcount : g.count = f.count)
    (hbytes : g.bytes = f.bytes) : Stores g blocks := by
  cases h with
  | unset hl hc hn => exact .unset (hlayout.trans hl) (hbytes ▸ hc) (hcount.trans hn)
  | set hsize hle hh =>
    exact .set hsize hle ⟨hlayout.trans hh.layout_eq, hbytes ▸ hh.contents_eq, hh.length_head,
      hh.length_block, hcount ▸ hh.count_eq, hh.size_pos, hh.size_lt, hh.reach⟩

theorem layoutFor_of_none (h : Stores f blocks) {slot : UInt64}
    (hb : blocks[slot.toNat]? = none) :
    SlotFile.layoutFor slot f = .error (.error (.slotOutOfBounds slot)) f := by
  refine SlotFile.layoutFor_of_not_lt ?_
  rw [UInt64.lt_iff_toNat_lt, h.count_eq]
  exact Nat.not_lt.2 (List.getElem?_eq_none_iff.1 hb)

/-- A file with a block in some slot, and with another one of the same size in its place. -/
theorem exists_holds (h : Stores f blocks) {i : Nat} {b : Bytes} (hb : blocks[i]? = some b) :
    ∃ l head, i < blocks.length ∧ b.length = l.slotSize.toNat ∧ f.Holds l head blocks ∧
      ∀ {bs : Bytes} {g : SlotFile}, bs.length = b.length → g.Holds l head (blocks.set i bs) →
        Stores g (blocks.set i bs) := by
  cases h with
  | unset _ _ _ => cases hb
  | set hsize hle hh =>
    obtain ⟨hi, rfl⟩ := List.getElem?_eq_some_iff.1 hb
    refine ⟨_, _, hi, hh.length_block _ (List.getElem_mem hi), hh, fun hbs hg => .set ?_ hle hg⟩
    rwa [BlockList.size?, BlockList.map_length_set hb hbs]

/-- A call does to the file what it does to the list of blocks: it answers the same, or it is refused
with the same error and changes nothing at all. -/
inductive Acts (f : SlotFile) (blocks : List Bytes) (c : RecordCall) : Prop
  | answers {r : SlotReply} {g : SlotFile} {blocks' : List Bytes} (run_eq : c.run f = .ok r g)
      (apply_eq : BlockList.apply blocks c = (.ok r, blocks')) (stores : Stores g blocks')
      (home_eq : g.home = f.home)
  | refuses {e : Error} (run_eq : c.run f = .error (.error e) f)
      (apply_eq : BlockList.apply blocks c = (.error e, blocks))

theorem Acts.congr {c c' : RecordCall} (h : Acts f blocks c) (hrun : c'.run f = c.run f)
    (happly : BlockList.apply blocks c' = BlockList.apply blocks c) : Acts f blocks c' := by
  cases h with
  | answers hrun' happly' hg hhome =>
    exact .answers (hrun.trans hrun') (happly.trans happly') hg hhome
  | refuses hrun' happly' => exact .refuses (hrun.trans hrun') (happly.trans happly')

/-- The first block fixes the size of the others. -/
theorem acts_appendFirst (hlayout : f.layout = none) (hempty : f.bytes.contents = [])
    (bs : Bytes) : Acts f [] (.append bs) := by
  by_cases hlarge : maxRecordSize < bs.length
  · refine .refuses (e := .encoding (.largeRecord bs.length)) ?_ ?_
    · simp [RecordCall.run, run_map, appendBlock, run_bind, hlayout, fixSize, hlarge]
    · simp [BlockList.apply, BlockList.push, BlockList.size?, hlarge]
  by_cases hzero : bs.length = 0
  · refine .refuses (e := .encoding .emptyRecord) ?_ ?_
    · simp [RecordCall.run, run_map, appendBlock, run_bind, hlayout, fixSize, hzero]
    · simp [BlockList.apply, BlockList.push, BlockList.size?, hzero]
  have hle := Nat.le_of_not_lt hlarge
  obtain ⟨f₁, hfix, hf₁, hhome₁, hcount₁, -⟩ :=
    exists_fixSize hempty (Nat.pos_of_ne_zero hzero) hle
  rcases hf₁.append (toNat_ofNat_size hle).symm with ⟨g, hx, hg, hhome⟩ | ⟨-, hlong⟩
  · have hg : Stores g [bs] := .set rfl hle hg
    refine .answers (r := .number 0) ?_ ?_ hg (hhome.trans hhome₁)
    · simp [RecordCall.run, run_map, appendBlock, run_bind, hlayout, hfix, hx, hcount₁]
    · simp [BlockList.apply, BlockList.push, BlockList.size?, hlarge, hzero]
  · -- the first block is right behind the header
    have hlong : 2 ^ 63 ≤ recordHeaderBytes + 0 * _ := hlong
    rw [Nat.zero_mul, recordHeaderBytes] at hlong
    omega

/-- Every other block must have the size of those that are there. -/
theorem acts_appendNext {n : Nat} (hsize : BlockList.size? blocks = some n)
    (hle : n ≤ maxRecordSize) (h : f.Holds (layout (UInt64.ofNat n)) (encodeHeader n) blocks)
    (bs : Bytes) : Acts f blocks (.append bs) := by
  have hto : (layout (UInt64.ofNat n)).slotSize.toNat = n := toNat_ofNat_size hle
  by_cases hbs : bs.length = n
  · have happly : BlockList.apply blocks (.append bs) =
        if 2 ^ 63 ≤ recordHeaderBytes + blocks.length * n then
          (.error (.io .invalidInput), blocks)
        else (.ok (.number blocks.length), blocks ++ [bs]) := by
      simp [BlockList.apply, BlockList.push, hsize, hbs]
    rcases h.append (hbs.trans hto.symm) with ⟨g, hx, hg, hhome⟩ | ⟨hx, hlong⟩
    · have hroom : ¬ 2 ^ 63 ≤ recordHeaderBytes + blocks.length * n := by
        have hreach : recordHeaderBytes + (blocks ++ [bs]).length * _ < 2 ^ 63 + _ := hg.reach
        rw [List.length_append, List.length_singleton, Nat.add_mul, hto] at hreach
        omega
      have hsize' : BlockList.size? (blocks ++ [bs]) = some n := by
        rw [BlockList.size?] at hsize ⊢
        rw [List.map_append, List.head?_append, hsize]
        rfl
      refine .answers (r := .number blocks.length) ?_ (happly.trans (if_neg hroom))
        (.set hsize' hle hg) hhome
      simp [RecordCall.run, run_map, appendBlock, run_bind, h.layout_eq, hx, h.count_eq]
    · refine .refuses ?_ (happly.trans (if_pos (hto ▸ hlong)))
      simp [RecordCall.run, run_map, appendBlock, run_bind, h.layout_eq, hx]
  · refine .refuses (e := .slotSizeMismatch n bs.length) ?_ ?_
    · simp [RecordCall.run, run_map, appendBlock, SlotFile.append, SlotFile.checkLength, run_bind,
        h.layout_eq, hto, hbs]
    · simp [BlockList.apply, BlockList.push, hsize, hbs]

theorem acts_append (h : Stores f blocks) (bs : Bytes) : Acts f blocks (.append bs) := by
  cases h with
  | unset hlayout hempty _ => exact acts_appendFirst hlayout hempty bs
  | set hsize hle hholds => exact acts_appendNext hsize hle hholds bs

theorem acts_write (h : Stores f blocks) (id : RecordId) (bs : Bytes) :
    Acts f blocks (.write id bs) := by
  cases hb : blocks[id.number.toNat]? with
  | none =>
    refine .refuses (e := .slotOutOfBounds id.number) ?_ ?_
    · simp [RecordCall.run, run_map, SlotFile.write, run_bind, h.layoutFor_of_none hb]
    · simp [BlockList.apply, BlockList.put, hb]
  | some b =>
    obtain ⟨l, head, hid, hlen, hh, hset⟩ := h.exists_holds hb
    by_cases hbs : bs.length = b.length
    · obtain ⟨g, hx, hg, hhome⟩ := hh.write hid (hbs.trans hlen)
      refine .answers (r := .done) ?_ ?_ (hset hbs hg) hhome
      · simp [RecordCall.run, run_map, hx]
      · simp [BlockList.apply, BlockList.put, hb, hbs]
    · refine .refuses (e := .slotSizeMismatch b.length bs.length) ?_ ?_
      · simp [RecordCall.run, run_map, SlotFile.write, SlotFile.layoutFor, SlotFile.checkLength,
          run_bind, hh.layout_eq, hh.lt_count, hid, ← hlen, hbs]
      · simp [BlockList.apply, BlockList.put, hb, hbs]

theorem acts_erase (h : Stores f blocks) (id : RecordId) : Acts f blocks (.erase id) := by
  cases hb : blocks[id.number.toNat]? with
  | none =>
    refine .refuses (e := .slotOutOfBounds id.number) ?_ ?_
    · simp [RecordCall.run, run_map, erase, SlotFile.zero, run_bind, h.layoutFor_of_none hb]
    · simp [BlockList.apply, hb]
  | some b =>
    obtain ⟨l, head, hid, hlen, hh, hset⟩ := h.exists_holds hb
    obtain ⟨g, hx, hg, hhome⟩ := hh.zero hid
    rw [← hlen] at hg
    refine .answers (r := .done) ?_ ?_ (hset (length_zeros _) hg) hhome
    · simp [RecordCall.run, run_map, erase, hx]
    · simp [BlockList.apply, hb]

theorem acts_read (h : Stores f blocks) (id : RecordId) : Acts f blocks (.read id) := by
  cases hb : blocks[id.number.toNat]? with
  | none =>
    refine .refuses (e := .slotOutOfBounds id.number) ?_ ?_
    · simp [RecordCall.run, run_map, SlotFile.read, run_bind, h.layoutFor_of_none hb]
    · simp [BlockList.apply, hb]
  | some b =>
    have hread : SlotFile.read id.number f = .ok b (f.addReads 1) :=
      SlotFile.read_eq_ok_iff.2 ⟨(h.block?_eq id.number).trans hb, rfl⟩
    refine .answers (r := .block b) ?_ ?_ (h.congr (g := f.addReads 1) rfl rfl rfl) rfl
    · simp [RecordCall.run, run_map, hread]
    · simp [BlockList.apply, hb]

theorem acts_clear (f : SlotFile) (blocks : List Bytes) : Acts f blocks .clear := by
  have hempty : (f.bytes.setLength 0).contents = [] := by
    rw [FileBytes.contents_setLength]
    simp [zeros]
  exact .answers (r := .done) rfl rfl (.unset rfl hempty rfl) rfl

/-- Adding a record is appending its bytes. The size is checked before that already, but with the same
outcome. -/
theorem run_add {r : Record} (hr : r.validate = .ok ()) (f : SlotFile) :
    (RecordCall.add r).run f = (RecordCall.append r.encoded).run f := by
  have hencode := Record.encode_eq_encoded hr
  cases hl : f.layout with
  | none =>
    simp [RecordCall.run, run_map, add, hencode, requireSize, run_bind, SlotFile.slotSize?, hl]
  | some l =>
    by_cases hlen : l.slotSize.toNat = r.encoded.length
    · simp [RecordCall.run, run_map, add, hencode, requireSize, run_bind, SlotFile.slotSize?, hl,
        hlen]
    · simp [RecordCall.run, run_map, add, hencode, requireSize, run_bind, SlotFile.slotSize?, hl,
        hlen, appendBlock, SlotFile.append, SlotFile.checkLength, Ne.symm hlen]

theorem run_replace {r : Record} (hr : r.validate = .ok ()) (id : RecordId) :
    (RecordCall.replace id r).run = (RecordCall.write id r.encoded).run := by
  simp [RecordCall.run, replace, Record.encode_eq_encoded hr]

/-- Every call on records that pass their check does to the file what it does to the blocks. -/
theorem acts (h : Stores f blocks) {c : RecordCall} (hc : c.Encodable) : Acts f blocks c := by
  cases c with
  | add r => exact (h.acts_append r.encoded).congr (run_add hc f) rfl
  | append bs => exact h.acts_append bs
  | replace id r => exact (h.acts_write id r.encoded).congr (congrFun (run_replace hc id) f) rfl
  | write id bs => exact h.acts_write id bs
  | erase id => exact h.acts_erase id
  | read id => exact h.acts_read id
  | clear => exact acts_clear f blocks

end Stores

end RecordFile

/-! ### Sessions -/

/-- An open record file, and the disk that it is on. -/
structure RecordSession where
  file : SlotFile
  disk : Disk

/-- What is done with an open record file: a call, or it is closed and opened again. -/
inductive RecordStep where
  | call (c : RecordCall)
  | reopen

/-- The call, if the step is one. -/
def RecordStep.call? : RecordStep → Option RecordCall
  | call c => some c
  | reopen => none

namespace RecordSession

/-- Makes a call. The handle works on the bytes that are on the disk, and leaves them there. -/
def call (c : RecordCall) (s : RecordSession) : Except Failure SlotReply × RecordSession :=
  let o := c.run (s.file.reload s.disk)
  (answer o, ⟨finalState o, (finalState o).save s.disk⟩)

/-- Opens the file again, at the path that it was opened at. -/
def reopen (s : RecordSession) : Except Failure RecordSession :=
  match RecordFile.openAt s.file.path s.disk with
  | .ok f d => .ok ⟨f, d⟩
  | .error e _ => .error e

/-- Takes steps one after the other, and lists what the calls answer. It ends early if the file
cannot be opened again. -/
def run : List RecordStep → RecordSession →
    Except Failure (List (Except Failure SlotReply) × RecordSession)
  | [], s => .ok ([], s)
  | .call c :: steps, s => do
    let (replies, s') ← run steps (s.call c).2
    return ((s.call c).1 :: replies, s')
  | .reopen :: steps, s => do
    run steps (← s.reopen)

/-- The bytes on the disk are those of the handle, whose path leads to the file. The handle and the
bytes agree on the blocks. -/
structure Steady (s : RecordSession) (blocks : List Bytes) : Prop where
  opens : Disk.openFile s.file.path s.disk = .ok s.file.file s.disk
  number_lt : s.file.file.number < s.disk.files.length
  bytes_eq : s.disk.bytes s.file.file = s.file.bytes
  stores : RecordFile.Stores s.file blocks

namespace Steady

variable {s : RecordSession} {blocks : List Bytes} {c : RecordCall}

theorem reload_eq (h : s.Steady blocks) : s.file.reload s.disk = s.file := by
  rw [SlotFile.reload, h.bytes_eq]

theorem save_eq (h : s.Steady blocks) : s.file.save s.disk = s.disk := by
  rw [SlotFile.save, ← h.bytes_eq, Disk.setBytes_self h.number_lt]

/-- A call does to the file on the disk what it does to the blocks, and when it is refused nothing at
all has changed. -/
theorem call (h : s.Steady blocks) (hc : c.Encodable) :
    (s.call c).1 = (BlockList.apply blocks c).1.mapError Failure.error ∧
      (s.call c).2.Steady (BlockList.apply blocks c).2 ∧
      ∀ e, (s.call c).1 = .error e → (s.call c).2 = s := by
  rw [RecordSession.call, h.reload_eq]
  cases h.stores.acts hc with
  | @answers r g blocks' hrun happly hg hhome =>
    rw [hrun, happly]
    have hpath : g.path = s.file.path := congrArg Prod.fst hhome
    have hfile : g.file = s.file.file := congrArg Prod.snd hhome
    have hnumber : g.file.number < s.disk.files.length := hfile ▸ h.number_lt
    refine ⟨rfl, ⟨?_, ?_, Disk.bytes_setBytes hnumber _, hg⟩, fun e he => by cases he⟩
    · show Disk.openFile g.path _ = .ok g.file _
      rw [hpath, hfile]
      exact Disk.openFile_again h.opens (Disk.extends_setBytes _ _ _)
    · show _ < (s.disk.files.set _ _).length
      rwa [List.length_set]
  | refuses hrun happly =>
    have hsame : (⟨s.file, s.file.save s.disk⟩ : RecordSession) = s := by
      rw [h.save_eq]
    rw [hrun, happly]
    refine ⟨rfl, ?_, fun _ _ => hsame⟩
    show Steady ⟨s.file, s.file.save s.disk⟩ _
    rwa [hsame]

/-- Opening the file again finds it as it was. -/
theorem reopen_eq (h : s.Steady blocks) : s.reopen = .ok ⟨s.file.resetCounters, s.disk⟩ := by
  have hopen : RecordFile.openAt s.file.path s.disk = .ok s.file.resetCounters s.disk := by
    refine RecordFile.openAt_eq_ok_iff.2 ⟨_, h.opens, ?_⟩
    rw [h.stores.inStep.recallLayout (congrArg _ h.bytes_eq) rfl rfl]
    exact congrArg _ (SlotFile.resetCounters_eq rfl h.bytes_eq rfl)
  rw [reopen, hopen]

theorem reopen (h : s.Steady blocks) : Steady ⟨s.file.resetCounters, s.disk⟩ blocks :=
  ⟨h.opens, h.number_lt, h.bytes_eq, h.stores.congr rfl rfl rfl⟩

/-- Steps on a file that stores some blocks are answered as by the list of these blocks. -/
theorem exists_run (h : s.Steady blocks) {steps : List RecordStep}
    (hc : ∀ c ∈ steps.filterMap RecordStep.call?, c.Encodable) :
    ∃ s', run steps s = .ok ((BlockList.replies (steps.filterMap RecordStep.call?) blocks).map
        (·.mapError Failure.error), s') ∧
      s'.Steady (BlockList.leave (steps.filterMap RecordStep.call?) blocks) := by
  induction steps generalizing s blocks with
  | nil => exact ⟨s, rfl, h⟩
  | cons step steps ih =>
    cases step with
    | call c =>
      have hfilter : (RecordStep.call c :: steps).filterMap RecordStep.call? =
          c :: steps.filterMap RecordStep.call? := rfl
      rw [hfilter] at hc ⊢
      obtain ⟨hanswer, hleft, -⟩ := h.call (hc c List.mem_cons_self)
      obtain ⟨s', hrun, hs'⟩ := ih hleft fun c' hc' => hc c' (List.mem_cons_of_mem _ hc')
      refine ⟨s', ?_, hs'⟩
      rw [run, hrun, hanswer]
      rfl
    | reopen =>
      obtain ⟨s', hrun, hs'⟩ := ih h.reopen hc
      refine ⟨s', ?_, hs'⟩
      rw [run, h.reopen_eq]
      exact hrun

end Steady

/-- A record file without bytes stores no blocks when it has been opened. -/
theorem steady_of_openAt {path : String} {d d' : Disk} {f : SlotFile}
    (hopen : RecordFile.openAt path d = .ok f d') (hsound : d.Sound)
    (hempty : f.bytes.contents = []) : Steady ⟨f, d'⟩ [] := by
  obtain ⟨file, hfile, hrecall⟩ := RecordFile.openAt_eq_ok_iff.1 hopen
  have hbytes : f.bytes = d'.bytes file := by
    obtain ⟨l, n, rfl⟩ := RecordFile.exists_of_recallLayout hrecall
    rfl
  have hf : f = .ofBytes path file (d'.bytes file) := by
    rw [RecordFile.recallLayout_of_nil (hbytes ▸ hempty)] at hrecall
    cases hrecall
    rfl
  subst hf
  exact ⟨Disk.openFile_again hfile (.refl _), (hsound.openFile hfile).2, rfl, .unset rfl hempty rfl⟩

/-- A record file that starts empty is a list of blocks, however often it is closed and opened again:
opening it never fails, and each row of calls is answered as by the list that is empty at first. After
any steps

* the size of the records is known exactly if something has been appended since the last `clear`: it is
  the length of what was appended first, all blocks have it, and the word in front of them says it;
* the numbers that have been answered since then are those of the slots, in their order;
* the bytes on the disk are those of the blocks, and each slot reads back its block;
* opening the file again finds all as it was, but for the counters;
* a call that is refused changes nothing at all, neither on the disk nor in the handle. -/
theorem blocks_of_steps {path : String} {d d' : Disk} {f : SlotFile}
    (hopen : RecordFile.openAt path d = .ok f d') (hsound : d.Sound)
    (hempty : f.bytes.contents = []) (steps : List RecordStep)
    (hc : ∀ c ∈ steps.filterMap RecordStep.call?, c.Encodable) :
    let calls := steps.filterMap RecordStep.call?
    let replies := BlockList.replies calls []
    let blocks := BlockList.leave calls []
    let appended := BlockList.appended (calls.zip replies)
    ∃ s, run steps ⟨f, d'⟩ = .ok (replies.map (·.mapError Failure.error), s) ∧
      s.file.slotSize?.map (·.toNat) = appended.head?.map (·.2.length) ∧
      (∀ b ∈ blocks, s.file.slotSize?.map (·.toNat) = some b.length) ∧
      (∀ size, s.file.slotSize? = some size → BigEndian.decode
        ((s.disk.bytes s.file.file).contents.take recordHeaderBytes) = size.toNat) ∧
      (appended.map Prod.fst = List.range blocks.length ∧ s.file.count.toNat = blocks.length) ∧
      (s.disk.bytes s.file.file).contents = BlockList.contents blocks ∧
      (∀ id, (s.call (.read id)).1 = match blocks[id.number.toNat]? with
        | some b => .ok (.block b)
        | none => .error (.error (.slotOutOfBounds id.number))) ∧
      s.reopen = .ok ⟨s.file.resetCounters, s.disk⟩ ∧
      ∀ c : RecordCall, c.Encodable → ∀ e, (s.call c).1 = .error e → (s.call c).2 = s := by
  intro calls replies blocks appended
  obtain ⟨s, hrun, hs⟩ := (steady_of_openAt hopen hsound hempty).exists_run hc
  have hnil : BlockList.Noted [] [] := ⟨rfl, rfl⟩
  have hnoted : BlockList.Noted appended blocks := BlockList.noted_leave hnil calls
  have hsize := hs.stores.slotSize?_eq
  have hcontents : (s.disk.bytes s.file.file).contents = BlockList.contents blocks := by
    rw [hs.bytes_eq, hs.stores.contents_eq]
  refine ⟨s, hrun, ?_, ?_, ?_, ⟨hnoted.numbers, hs.stores.count_eq⟩, hcontents, fun id => ?_,
    hs.reopen_eq, fun c hc' => (hs.call hc').2.2⟩
  · rw [hsize, BlockList.size?, ← hnoted.lengths, List.head?_map]
  · exact fun b hb => hsize.trans (hs.stores.length_of_mem hb)
  · intro size hsize'
    rw [hsize'] at hsize
    rw [hcontents]
    exact hs.stores.decode_header hsize.symm
  · rw [(hs.call (c := .read id) trivial).1, BlockList.apply]
    cases blocks[id.number.toNat]? <;> rfl

/-- Steps on a file whose first record has two bytes. -/
def pairSteps : List RecordStep :=
  [.call (.append []), .call (.append [1, 2]), .reopen, .call (.add ⟨.int32 7, .empty⟩),
    .call (.write ⟨0⟩ [5, 6]), .call (.append [7, 8]), .call (.erase ⟨1⟩), .reopen,
    .call (.read ⟨1⟩)]

theorem blocks_of_steps_pairSteps : ∃ d f s, RecordFile.openAt "r" .empty = .ok f d ∧
    run pairSteps ⟨f, d⟩ = .ok ([.error (.error (.encoding .emptyRecord)), .ok (.number 0),
      .error (.error (.slotSizeMismatch 2 5)), .ok .done, .ok (.number 1), .ok .done,
      .ok (.block [0, 0])], s) ∧
    s.file.slotSize?.map (·.toNat) = some 2 ∧
    (s.disk.bytes s.file.file).contents = [0, 0, 0, 2, 5, 6, 0, 0] := by
  have hopen : ∃ d, RecordFile.openAt "r" .empty =
      .ok ⟨"r", ⟨0⟩, .empty, none, 0, .zero⟩ d := ⟨_, by cbv⟩
  obtain ⟨d, hopen⟩ := hopen
  have hc : ∀ c ∈ pairSteps.filterMap RecordStep.call?, c.Encodable := by
    simp only [pairSteps, RecordStep.call?, List.filterMap_cons, List.filterMap_nil,
      List.forall_mem_cons]
    exact ⟨trivial, trivial, rfl, trivial, trivial, trivial, trivial, List.forall_mem_nil _⟩
  obtain ⟨s, hrun, hsize, -, -, -, hcontents, -⟩ :=
    blocks_of_steps hopen Disk.sound_empty rfl pairSteps hc
  refine ⟨d, _, s, hopen, hrun.trans ?_, hsize.trans ?_, hcontents.trans ?_⟩
  · cbv
  · cbv
  · cbv

end RecordSession

end RecordIndex
