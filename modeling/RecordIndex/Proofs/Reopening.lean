import RecordIndex.Proofs.Histories

/-!
# Closing a tree and opening it again

It makes no difference to calls whether a tree stays open, because all that an open tree knows can be
found out from its files again, but for the counters.

* `Session` is an open tree and the disk with its files, and `Session.run` makes calls and opens the
  tree again in between.
* `Session.Steady config keyType s`: the tree represents a dictionary, and what is on the disk is
  what the tree works on.
* `Session.Steady.start_load` and `Session.Steady.start_loadOrMake`: a steady tree is opened as it was.
* `Session.Steady.call`: one call, and `Session.Steady.calls_eq` many of them.
* `Session.Steady.exists_run`: a steady tree that is opened again now and then does what it does if
  it stays open.
-/

namespace RecordIndex

/-- An open tree, and the disk with its files. -/
structure Session where
  tree : Tree
  disk : Disk

/-- What is done with an open tree: a call, or it is closed and opened again, by `Tree.load` or by
`Tree.loadOrMake`. -/
inductive Step where
  | call (c : Call)
  | load
  | loadOrMake

/-- The call, if the step is one. -/
def Step.call? : Step → Option Call
  | call c => some c
  | load => none
  | loadOrMake => none

/-- The calls, with the tree opened again before and after each of them. -/
def Step.reopenings (calls : List Call) : List Step :=
  calls.flatMap fun c => [.loadOrMake, .call c, .load]

theorem Step.filterMap_reopenings (calls : List Call) :
    (reopenings calls).filterMap call? = calls := by
  induction calls with
  | nil => rfl
  | cons c calls ih =>
    rw [reopenings, List.flatMap_cons, List.filterMap_append]
    exact congrArg (c :: ·) ih

namespace Session

/-- Makes a call. The tree works on the bytes that are on the disk, and leaves them there. -/
def call (c : Call) (s : Session) : Except Failure Reply × Session :=
  let o := c.run (s.tree.reload s.disk)
  (Action.answer o, ⟨Action.finalState o, (Action.finalState o).save s.disk⟩)

/-- Opens a store, and makes or opens a tree in it. -/
def start (config : StoreConfig) (x : StoreAction Tree) (d : Disk) : Except Failure Session :=
  match Store.openAt config d with
  | .error e _ => .error e
  | .ok store d =>
    match x store with
    | .error e _ => .error e
    | .ok t _ => .ok ⟨t, t.save d⟩

/-- Makes calls one after the other, and lists what they answer. -/
def calls : List Call → Session → List (Except Failure Reply) × Session
  | [], s => ([], s)
  | c :: cs, s => ((s.call c).1 :: (calls cs (s.call c).2).1, (calls cs (s.call c).2).2)

/-- Takes steps one after the other, and lists what the calls answer. It ends early if the tree
cannot be opened again. -/
def run (config : StoreConfig) (keyType : FieldType) :
    List Step → Session → Except Failure (List (Except Failure Reply) × Session)
  | [], s => .ok ([], s)
  | .call c :: steps, s => do
    let (replies, s') ← run config keyType steps (s.call c).2
    return ((s.call c).1 :: replies, s')
  | .load :: steps, s => do
    run config keyType steps (← start config Tree.load s.disk)
  | .loadOrMake :: steps, s => do
    run config keyType steps (← start config (Tree.loadOrMake keyType) s.disk)

end Session

namespace Session

/-- The tree represents a dictionary, and what is on the disk is what it works on. -/
structure Steady (config : StoreConfig) (keyType : FieldType) (s : Session) : Prop where
  config_eq : s.tree.store.config = config
  keeps : s.disk.Keeps s.tree
  keyType_eq : s.tree.keyType = keyType
  header_eq : s.tree.view.header = some ⟨s.tree.keyType, s.tree.root⟩
  exists_represents : ∃ d, s.tree.Represents d

variable {config : StoreConfig} {s : Session} {keyType : FieldType} {c : Call}

/-! ### Opening again -/

/-- A steady tree is opened as it was. -/
theorem Steady.exists_load (h : s.Steady config keyType) : ∃ n store,
    Tree.load s.tree.store.resetCounters = .ok (s.tree.tally n) store := by
  obtain ⟨d, hd⟩ := h.exists_represents
  exact Tree.exists_load h.header_eq hd.view.intact

theorem Steady.start_eq (h : s.Steady config keyType) {x : StoreAction Tree} {n : StoreCounters}
    {store : Store} (hx : x s.tree.store.resetCounters = .ok (s.tree.tally n) store) :
    start config x s.disk = .ok ⟨s.tree.tally n, s.disk⟩ := by
  obtain ⟨d, hd⟩ := h.exists_represents
  have hopen := h.keeps.openAt_eq hd.inStep
  have hsave : (s.tree.tally n).save s.disk = s.disk := h.keeps.save_eq
  rw [h.config_eq] at hopen
  simp only [start, hopen, hx, hsave]

theorem Steady.start_load (h : s.Steady config keyType) : ∃ n,
    start config Tree.load s.disk = .ok ⟨s.tree.tally n, s.disk⟩ := by
  obtain ⟨n, store, hload⟩ := h.exists_load
  exact ⟨n, h.start_eq hload⟩

theorem Steady.start_loadOrMake (h : s.Steady config keyType) : ∃ n,
    start config (Tree.loadOrMake keyType) s.disk = .ok ⟨s.tree.tally n, s.disk⟩ := by
  obtain ⟨n, store, hload⟩ := h.exists_load
  have hempty : s.tree.store.resetCounters.isEmpty = false := Tree.isEmpty_of_header h.header_eq
  have hopen : Tree.loadOrMake keyType s.tree.store.resetCounters = .ok (s.tree.tally n) store := by
    rw [Tree.loadOrMake, Action.run_bind, Action.run_get]
    simp only [hempty, Bool.false_eq_true, if_false, Action.run_bind, hload]
    rw [if_pos (show (s.tree.tally n).keyType = keyType from h.keyType_eq)]
    rfl
  exact ⟨n, h.start_eq hopen⟩

/-! ### Calls -/

/-- A call does to a steady session what it does to its tree. -/
theorem Steady.call_eq (h : s.Steady config keyType) (c : Call) : s.call c =
    (Action.answer (c.run s.tree),
      ⟨Action.finalState (c.run s.tree), (Action.finalState (c.run s.tree)).save s.disk⟩) := by
  rw [Session.call, h.keeps.reload_eq]

/-- A call that leaves room in the files leaves a steady session steady. -/
theorem Steady.call (h : s.Steady config keyType)
    (hshort : (Action.finalState (c.run s.tree)).store.Short) :
    (s.call c).2.Steady config keyType := by
  obtain ⟨d, hd⟩ := h.exists_represents
  obtain ⟨-, hd', hcontinues⟩ := hd.call c hshort
  rw [h.call_eq]
  have hserves : s.disk.Serves (Action.finalState (c.run s.tree)).view.home := by
    rw [hcontinues.home]
    exact h.keeps.serves
  refine ⟨(congrArg Home.config hcontinues.home).trans h.config_eq, hserves.keeps_save, ?_,
    hcontinues.header h.header_eq, _, hd'⟩
  have htype : (d.apply c).2.keyType = s.tree.keyType :=
    (Dictionary.keyType_apply d c).trans hd.view.keyType_eq
  exact hd'.view.keyType_eq.symm.trans (htype.trans h.keyType_eq)

/-- Calls do to a steady session what they do to its tree. -/
theorem Steady.calls_eq {cs : List Call} (h : s.Steady config keyType)
    (hroom : s.tree.HasRoomFor cs) :
    (calls cs s).1 = Call.replies cs s.tree ∧ (calls cs s).2.tree = Call.leave cs s.tree := by
  induction cs generalizing s with
  | nil => exact ⟨rfl, rfl⟩
  | cons c cs ih =>
    obtain ⟨-, hroom⟩ := Tree.hasRoomFor_cons.1 hroom
    have hsteady := h.call hroom.short
    rw [h.call_eq] at hsteady
    obtain ⟨hreplies, hleave⟩ := ih hsteady hroom
    rw [calls, h.call_eq]
    exact ⟨congrArg _ hreplies, hleave⟩

/-- A call with other counters. -/
theorem call_tally (n : StoreCounters) (c : Call) (s : Session) :
    call c ⟨s.tree.tally n, s.disk⟩ =
      ((s.call c).1, ⟨(s.call c).2.tree.tally n, (s.call c).2.disk⟩) := by
  have hcommutes := Call.commutes_run (n := n) c
  have hreload : (s.tree.tally n).reload s.disk = (s.tree.reload s.disk).tally n := rfl
  simp only [call, hreload, hcommutes.answer_eq, hcommutes.finalState_eq]
  rfl

/-- Any steps, on a steady tree with other counters. -/
theorem Steady.exists_run (h : s.Steady config keyType) (n : StoreCounters) {steps : List Step}
    (hroom : s.tree.HasRoomFor (steps.filterMap Step.call?)) :
    ∃ n', run config keyType steps ⟨s.tree.tally n, s.disk⟩ =
      .ok ((calls (steps.filterMap Step.call?) s).1,
        ⟨(calls (steps.filterMap Step.call?) s).2.tree.tally n',
          (calls (steps.filterMap Step.call?) s).2.disk⟩) := by
  induction steps generalizing s n with
  | nil => exact ⟨n, rfl⟩
  | cons step steps ih =>
    cases step with
    | call c =>
      -- a call leaves the session steady, and its answer does not depend on the counters
      obtain ⟨-, hroom⟩ := Tree.hasRoomFor_cons.1 hroom
      have hsteady := h.call hroom.short
      have htree : (s.call c).2.tree = Action.finalState (c.run s.tree) := by rw [h.call_eq]
      obtain ⟨n', hrun⟩ := ih hsteady n (htree ▸ hroom)
      refine ⟨n', ?_⟩
      rw [run, call_tally, hrun]
      rfl
    | load =>
      -- the tree is as it was, so that only the counters are others from here on
      obtain ⟨n', hstart⟩ := h.start_load
      obtain ⟨n'', hrun⟩ := ih h n' hroom
      refine ⟨n'', ?_⟩
      rw [run, hstart]
      exact hrun
    | loadOrMake =>
      obtain ⟨n', hstart⟩ := h.start_loadOrMake
      obtain ⟨n'', hrun⟩ := ih h n' hroom
      refine ⟨n'', ?_⟩
      rw [run, hstart]
      exact hrun

/-! ### New trees -/

/-- Making a tree in a store whose files are empty. -/
theorem exists_start_make {config : StoreConfig} {keyType : FieldType} {disk disk' : Disk}
    {store : Store} (hopen : Store.openAt config disk = .ok store disk') (hsound : disk.Sound)
    (hindex : store.index.bytes.contents = []) (hrecords : store.records.bytes.contents = [])
    (hfiles : store.index.file ≠ store.records.file) :
    ∃ s, start config (Tree.make keyType) disk = .ok s ∧ s.Steady config keyType ∧
      s.tree.Shows (.planted ⟨store.config, store.index.home, store.records.home⟩ keyType) := by
  obtain ⟨t, hmake, ht⟩ :=
    Tree.exists_make (Store.blank_of_openAt hopen hindex hrecords) keyType
  have hserves : disk'.Serves t.view.home := by
    rw [ht.2]
    exact Disk.serves_of_openAt hopen hsound hfiles
  refine ⟨⟨t, t.save disk'⟩, ?_, ⟨?_, hserves.keeps_save, ?_, ?_, .empty keyType, ?_⟩, ht⟩
  · simp only [start, hopen, hmake]
  · exact (congrArg (fun v => v.home.config) ht.2).trans (Store.openAt_eq_ok_iff.1 hopen).1
  · exact congrArg View.keyType ht.2
  · show t.view.header = some ⟨t.view.keyType, t.view.root⟩
    rw [ht.2]
    rfl
  · exact Tree.represents_of_shows_planted ht

/-- Opening the tree again makes no difference, whenever it is done: the calls answer the same, and
in the end the disk is the same and the tree too, but for its counters. This is so as long as there is
room in the files, and there is room for a great many calls. -/
theorem run_reopening {config : StoreConfig} {disk disk' : Disk} {store : Store}
    (hopen : Store.openAt config disk = .ok store disk') (hsound : disk.Sound)
    (hindex : store.index.bytes.contents = []) (hrecords : store.records.bytes.contents = [])
    (hfiles : store.index.file ≠ store.records.file) (keyType : FieldType) :
    ∃ s₀, start config (Tree.make keyType) disk = .ok s₀ ∧ ∀ (steps : List Step) replies s,
      calls (steps.filterMap Step.call?) s₀ = (replies, s) →
      (s₀.tree.HasRoomFor (steps.filterMap Step.call?) →
        ∃ n, run config keyType steps s₀ = .ok (replies, ⟨s.tree.tally n, s.disk⟩)) ∧
      ((steps.filterMap Step.call?).length ≤ 2 ^ 24 →
        s₀.tree.HasRoomFor (steps.filterMap Step.call?)) := by
  obtain ⟨s₀, hstart, hsteady, hplanted⟩ := exists_start_make hopen hsound hindex hrecords hfiles
  refine ⟨s₀, hstart, fun steps replies s hcalls => ⟨fun hroom => ?_,
    Tree.hasRoomFor_of_length_le hplanted⟩⟩
  obtain ⟨n, hrun⟩ := hsteady.exists_run ⟨.zero, .zero⟩ hroom
  rw [Tree.tally_zero, hcalls] at hrun
  exact ⟨n, hrun⟩

/-- The sample, with the tree opened again by both ways around each call: so before there are records,
when the root has been split and when it has given way, and after the tree has been cleared. -/
theorem run_reopening_newStore : ∃ s₀ s, start newStore.config (Tree.make .int32) .empty = .ok s₀ ∧
    run newStore.config .int32 (Step.reopenings Call.sample) s₀ =
      .ok (Call.sampleReplies.map (·.mapError Failure.error), s) := by
  obtain ⟨disk, hopen⟩ := exists_openAt_newStore
  have hfiles : newStore.index.file ≠ newStore.records.file := by decide
  obtain ⟨s₀, hstart, hruns⟩ := run_reopening hopen Disk.sound_empty rfl rfl hfiles .int32
  obtain ⟨s, hstart', hsteady, hplanted⟩ :=
    exists_start_make hopen Disk.sound_empty rfl rfl hfiles
  obtain rfl : s = s₀ := Except.ok.inj (hstart'.symm.trans hstart)
  obtain ⟨replies, s', hcalls⟩ : ∃ replies s', calls Call.sample s = (replies, s') :=
    ⟨_, _, (Prod.eta _).symm⟩
  have hruns := hruns (Step.reopenings Call.sample)
  rw [Step.filterMap_reopenings] at hruns
  obtain ⟨hrun, hroom⟩ := hruns replies s' hcalls
  have hroom := hroom (by decide)
  obtain ⟨n, hrun⟩ := hrun hroom
  -- without any opening the calls answer as the dictionary does
  obtain ⟨hanswers, -⟩ := hsteady.calls_eq hroom
  obtain ⟨hreplies, -⟩ := (Tree.represents_of_shows_planted hplanted).leave hroom
  rw [hcalls] at hanswers
  obtain rfl : replies = Call.sampleReplies.map (·.mapError Failure.error) :=
    (hanswers.trans hreplies).trans (by rw [Call.replies_sample])
  exact ⟨s, _, hstart, hrun⟩

end Session

end RecordIndex
