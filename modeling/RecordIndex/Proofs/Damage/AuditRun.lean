import RecordIndex.Proofs.Damage.Walk
import RecordIndex.Proofs.Failures
import RecordIndex.Proofs.Loading

/-!
# Runs of the check

The check of a tree is given up after one round more than there are pages. Here it is set against the
check without that limit, which goes on until no place is left: even where the child links lead round in
a circle, it ends after no more rounds than there are pages.

* `AuditRun queue sum t taken o`: the check without a limit takes the places in `taken`, one in each
  round, and ends with `o`.
* `AuditRun.passedOnce`, `AuditRun.length_le`, `AuditRun.exists_addReads`: which pages it lets pass, how
  many rounds it takes and how many pages it reads.
* `Tree.audit_terminates`: there is such a run from the root, it is the only one, and it ends as the
  check does.
-/

namespace RecordIndex

open RecordIndex.Action

/-- The check of a tree with no limit on its rounds. It takes the first place of the queue and puts the
places below it behind the others, until the queue is empty or a place fails. -/
inductive AuditRun : List Place → TreeMeasures → Tree → List Place → Outcome Tree TreeMeasures → Prop
  | done {sum : TreeMeasures} {t : Tree} : AuditRun [] sum t [] (.ok sum t)
  | fails {place : Place} {queue : List Place} {sum : TreeMeasures} {t t' : Tree} {e : Failure}
      (h : Tree.auditPlace place sum t = .error e t') :
      AuditRun (place :: queue) sum t [place] (.error e t')
  | next {place : Place} {queue below taken : List Place} {sum sum' : TreeMeasures} {t t' : Tree}
      {o : Outcome Tree TreeMeasures} (h : Tree.auditPlace place sum t = .ok (sum', below) t')
      (hrest : AuditRun (queue ++ below) sum' t' taken o) :
      AuditRun (place :: queue) sum t (place :: taken) o

namespace AuditRun

variable {t : Tree} {seen queue taken taken' : List Place} {sum : TreeMeasures}
  {o o' : Outcome Tree TreeMeasures}

/-- Each round leaves no choice. -/
theorem unique (h : AuditRun queue sum t taken o) (h' : AuditRun queue sum t taken' o') :
    taken' = taken ∧ o' = o := by
  induction h generalizing taken' with
  | done =>
    cases h'
    exact ⟨rfl, rfl⟩
  | fails h =>
    cases h' with
    | fails h' =>
      rw [h] at h'
      cases h'
      exact ⟨rfl, rfl⟩
    | next h' _ =>
      rw [h] at h'
      cases h'
  | next h _ ih =>
    cases h' with
    | fails h' =>
      rw [h] at h'
      cases h'
    | next h' hrest' =>
      rw [h] at h'
      cases h'
      obtain ⟨rfl, rfl⟩ := ih hrest'
      exact ⟨rfl, rfl⟩

/-- A walk that is not given up is a run of the check. -/
theorem exists_of_answer_ne (steps : Nat)
    (h : answer (Tree.auditPlaces steps queue sum t) ≠ .error (.fault .endlessWalk)) :
    ∃ taken, AuditRun queue sum t taken (Tree.auditPlaces steps queue sum t) := by
  induction steps generalizing queue sum t with
  | zero =>
    cases queue with
    | nil => exact ⟨[], .done⟩
    | cons place queue => exact absurd rfl h
  | succ steps ih =>
    cases queue with
    | nil => exact ⟨[], .done⟩
    | cons place queue =>
      rw [Tree.auditPlaces, run_bind] at h ⊢
      cases hplace : Tree.auditPlace place sum t with
      | error e t' => exact ⟨_, .fails hplace⟩
      | ok a t' =>
        rw [hplace] at h
        obtain ⟨taken, hrest⟩ := ih h
        exact ⟨place :: taken, .next hplace hrest⟩

/-! ### The pages that are read -/

/-- What a round leaves of a tree: one page has been read at most, and none if there are none. -/
def Looked (t t' : Tree) : Prop :=
  ∃ k j, k ≤ 1 ∧ k ≤ t.pageCount.toNat ∧ t' = t.addReads (UInt64.ofNat k) j

theorem looked_refl (t : Tree) : Looked t t :=
  ⟨0, 0, Nat.zero_le 1, Nat.zero_le _, (Tree.addReads_zero t).symm⟩

theorem looked_fetchNode (p : PageId) (t : Tree) :
    Concludes (Tree.fetchNode p) t (fun _ t' => Looked t t') fun _ t' => Looked t t' := by
  have hone : ∀ {q : PageId}, q.number.toNat < t.pageCount.toNat → Looked t (t.addReads 1 0) :=
    fun hq => ⟨1, 0, Nat.le_refl 1, by omega, rfl⟩
  have hfetch : Concludes (Tree.onIndex (PageFile.fetch p)) t (fun _ t' => Looked t t')
      fun _ t' => Looked t t' := by
    refine (Tree.concludes_fetchPage p t).mono ?_ ?_
    · rintro page t' ⟨hpage, rfl⟩
      obtain ⟨bs, hbs, -⟩ := Option.bind_eq_some_iff.1 hpage
      exact hone (SlotFile.lt_count_of_block? hbs)
    · rintro e t' ⟨rfl | ⟨rfl, hp⟩, -⟩
      · exact looked_refl _
      · exact hone hp
  unfold Tree.fetchNode
  split_ifs
  · exact concludes_fail (looked_refl t)
  · refine hfetch.bind fun page t₁ h₁ => ?_
    refine (concludes_ofExcept (Q := fun _ t' => Looked t t') (fun _ _ => h₁) fun _ _ => h₁).bind
      fun n t₂ h₂ => ?_
    split_ifs
    · exact concludes_pure h₂
    · exact concludes_fail h₂

theorem looked_fetchRecord {t t' : Tree} (h : Looked t t') (id : RecordId) :
    Concludes (Tree.onRecords (RecordFile.fetch id)) t' (fun _ u => Looked t u)
      fun _ u => Looked t u := by
  obtain ⟨k, j, hk, hpages, rfl⟩ := h
  obtain ⟨j', hj'⟩ := Tree.finalState_fetchRecord id (t.addReads (UInt64.ofNat k) j)
  have hleft : Looked t (finalState (Tree.onRecords (RecordFile.fetch id)
      (t.addReads (UInt64.ofNat k) j))) :=
    ⟨k, j + j', hk, hpages, by rw [hj', Tree.addReads_addReads, UInt64.add_zero]⟩
  unfold Concludes
  cases hx : Tree.onRecords (RecordFile.fetch id) (t.addReads (UInt64.ofNat k) j) with
  | ok r u => rwa [hx] at hleft
  | error e u => rwa [hx] at hleft

theorem looked_auditEntries {t t' : Tree} (h : Looked t t') (l : Leaf) :
    Concludes (Tree.auditEntries l) t' (fun _ u => Looked t u) fun _ u => Looked t u := by
  rw [Tree.auditEntries, List.forM_eq_forM]
  generalize l.keys.zip l.records = es
  induction es generalizing t' with
  | nil => exact concludes_pure h
  | cons e es ih =>
    rw [List.forM_cons]
    refine Concludes.bind (Q := fun _ u => Looked t u) ?_ fun _ u hu => ih hu
    refine (looked_fetchRecord h e.2).bind fun r u hu => ?_
    split_ifs
    · exact concludes_pure hu
    · exact concludes_fail hu

/-- A round reads the page of its place, and records. -/
theorem looked_auditPlace (place : Place) (sum : TreeMeasures) (t : Tree) :
    Concludes (Tree.auditPlace place sum) t (fun _ t' => Looked t t') fun _ t' => Looked t t' := by
  have hcheck : ∀ {x : Except Error Unit} {u : Tree}, Looked t u →
      Concludes (ofExcept x) u (fun _ t' => Looked t t') fun _ t' => Looked t t' := fun hu =>
    concludes_ofExcept (fun _ _ => hu) fun _ _ => hu
  refine (looked_fetchNode place.page t).bind fun n t₁ h₁ => concludes_get_bind ?_
  refine (hcheck h₁).bind fun _ t₂ h₂ => ?_
  cases n with
  | internal m => exact concludes_pure h₂
  | leaf l =>
    refine (hcheck h₂).bind fun _ t₃ h₃ => ?_
    exact (looked_auditEntries h₃ l).bind fun _ t₄ h₄ => concludes_pure h₄

/-! ### The places that are taken -/

/-- A place that a round ends well at has been let pass, and the walk goes on below it. -/
theorem walk_next {place : Place} {below : List Place} {sum' : TreeMeasures} {t t' : Tree}
    (ht : t.Paged) (hwalk : t.Walk seen (place :: queue))
    (h : Tree.auditPlace place sum t = .ok (sum', below) t') :
    t'.Paged ∧ t.SameNodes t' ∧ t'.keyType = t.keyType ∧
      t'.Walk (seen ++ [place]) (queue ++ below) := by
  obtain ⟨hleads, hsame, n, hpassed, rfl⟩ := Concludes.of_ok (Tree.safe_auditPlace ht place sum) h
  exact ⟨hleads.paged, hsame, hleads.keyType_eq,
    (hwalk.step hpassed).congr hsame hleads.keyType_eq⟩

/-- A page has been let pass for one place at most. -/
def PassedOnce (t : Tree) (places : List Place) : Prop :=
  places.Pairwise fun a b => (∃ n, t.Passed a n) → (∃ n, t.Passed b n) → a.page ≠ b.page

theorem passedOnce_of_walk (h : t.Walk seen queue) : PassedOnce t seen :=
  (List.pairwise_map.1 h.nodup).imp fun hne _ _ => hne

theorem passedOnce (ht : t.Paged) (hwalk : t.Walk seen queue) (h : AuditRun queue sum t taken o) :
    PassedOnce t (seen ++ taken) := by
  induction h generalizing seen with
  | done => simpa using passedOnce_of_walk hwalk
  | fails _ =>
    refine List.pairwise_append.2 ⟨passedOnce_of_walk hwalk, List.pairwise_singleton _ _, ?_⟩
    rintro a ha b hb - ⟨n, hn⟩ heq
    rw [List.mem_singleton.1 hb] at hn heq
    exact hwalk.page_notMem hn (heq ▸ List.mem_map_of_mem ha)
  | next hplace _ ih =>
    obtain ⟨ht', hsame, htype, hwalk'⟩ := walk_next ht hwalk hplace
    have hrest := ih ht' hwalk'
    rw [List.append_assoc, List.singleton_append] at hrest
    simpa only [PassedOnce, Tree.Passed, hsame.node?_eq, htype] using hrest

/-- There is a round for each page at most, and one at least. -/
theorem length_le (ht : t.Paged) (hwalk : t.Walk seen queue) (h : AuditRun queue sum t taken o) :
    seen.length + taken.length ≤ max 1 t.pageCount.toNat := by
  induction h generalizing seen with
  | @done _ t =>
    exact Nat.le_of_lt (hwalk.length_lt (Tree.shownBelow_of_le (by omega) (by omega)))
  | @fails _ _ _ t _ _ _ =>
    have := hwalk.length_lt (n := max 1 t.pageCount.toNat)
      (Tree.shownBelow_of_le (by omega) (by omega))
    rw [List.length_singleton]
    omega
  | next hplace _ ih =>
    obtain ⟨ht', hsame, -, hwalk'⟩ := walk_next ht hwalk hplace
    have hrest := ih ht' hwalk'
    rw [hsame.pageCount_eq] at hrest
    simp only [List.length_append, List.length_cons, List.length_nil] at hrest ⊢
    omega

/-- With the pages that have been let pass before, no more pages are read than there are. -/
theorem exists_addReads (ht : t.Paged) (hwalk : t.Walk seen queue)
    (h : AuditRun queue sum t taken o) :
    ∃ k j, seen.length + k ≤ t.pageCount.toNat ∧
      finalState o = t.addReads (UInt64.ofNat k) j := by
  induction h generalizing seen with
  | @done _ t =>
    have := hwalk.length_lt t.shownBelow_stepLimit
    rw [Tree.stepLimit] at this
    exact ⟨0, 0, by omega, (Tree.addReads_zero t).symm⟩
  | @fails _ _ _ t _ _ hplace =>
    obtain ⟨k, j, hk, hpages, rfl⟩ := (looked_auditPlace _ _ t).of_error hplace
    refine ⟨k, j, ?_, rfl⟩
    -- a walk that has come anywhere has read a page
    by_cases hpos : 0 < t.pageCount.toNat
    · have := hwalk.length_lt (Tree.shownBelow_of_le hpos (Nat.le_refl _))
      omega
    · have := hwalk.length_lt t.shownBelow_stepLimit
      rw [Tree.stepLimit] at this
      omega
  | @next _ _ _ _ _ _ t _ _ hplace _ ih =>
    obtain ⟨ht', hsame, -, hwalk'⟩ := walk_next ht hwalk hplace
    obtain ⟨k, j, hk, -, rfl⟩ := (looked_auditPlace _ _ t).of_ok hplace
    obtain ⟨k', j', hpages, hfinal⟩ := ih ht' hwalk'
    refine ⟨k + k', j + j', ?_, ?_⟩
    · rw [hsame.pageCount_eq, List.length_append, List.length_singleton] at hpages
      omega
    · rw [hfinal, Tree.addReads_addReads, UInt64.ofNat_add]

end AuditRun

/-- The check of a tree ends without a fault whatever the files hold, also where the child links lead
round in a circle or list a page several times. It is the only run from the root of the check without a
limit. In this run no page passes the check of its node for two places; it takes no more rounds than
there are pages (and one at least), and reads no more pages than there are. -/
theorem Tree.audit_terminates {t : Tree} (ht : t.Paged) : ∃ taken,
    (∀ taken' o, AuditRun [.root t.root] .zero t taken' o ↔ taken' = taken ∧ o = audit t) ∧
    (∀ f, answer (audit t) ≠ .error (.fault f)) ∧
    (taken.Pairwise fun a b =>
      (∃ n, t.Passed a n) → (∃ n, t.Passed b n) → a.page ≠ b.page) ∧
    taken.length ≤ max 1 t.pageCount.toNat ∧
    ∃ k j, k ≤ t.pageCount.toNat ∧
      finalState (audit t) = t.addReads (UInt64.ofNat k) j := by
  have hends := (safe_audit ht).ne_fault
  obtain ⟨taken, hrun⟩ : ∃ taken, AuditRun [.root t.root] .zero t taken (audit t) :=
    AuditRun.exists_of_answer_ne t.stepLimit (hends _)
  have hwalk : t.Walk [] [.root t.root] := .start t
  refine ⟨taken, fun taken' o => ⟨hrun.unique, ?_⟩, hends, hrun.passedOnce ht hwalk, ?_, ?_⟩
  · rintro ⟨rfl, rfl⟩
    exact hrun
  · simpa using hrun.length_le ht hwalk
  · simpa using hrun.exists_addReads ht hwalk

/-- A root that lists its own page twice. -/
def ringRoot : Internal := ⟨⟨1⟩, none, .int32, [.int32 7], [⟨1⟩, ⟨1⟩]⟩

/-- A tree with this root. -/
def ringTree : Tree where
  store := { newStore with
    index := ⟨"i", ⟨0⟩, .ofBytes ((HeaderPage.toPage ⟨.int32, ⟨1⟩⟩).bytes ++
      ((Node.internal ringRoot).toPage.toOption.getD .zero).bytes), some PageFile.layout, 2, .zero⟩ }
  keyType := .int32
  root := ⟨1⟩
  needsRepair := false

/-- The check of a tree that leads round in a circle takes two rounds at most. -/
theorem Tree.audit_terminates_ringTree : ringTree.Paged ∧ ∃ taken,
    AuditRun [.root ringTree.root] .zero ringTree taken (audit ringTree) ∧ taken.length ≤ 2 := by
  have hpaged : ringTree.Paged := ⟨rfl, by decide⟩
  obtain ⟨taken, hrun, -, -, hlength, -⟩ := audit_terminates hpaged
  exact ⟨hpaged, taken, (hrun _ _).2 ⟨rfl, rfl⟩, hlength⟩

end RecordIndex
