import Meridian.WriteInvariant

/-! Compaction never loses an operation. A snapshot holds exactly the operations up to
its high-water mark, because the log of a document only grows past its last sequence;
so the latest snapshot with the operations after it is the whole document, whatever
snapshot jobs overlap and whichever of them writes last. -/
namespace Meridian
namespace Store

open Joins

variable {Y : Type} [SemilatticeSup Y] [OrderBot Y] {E : Yjs Y}

def contentOf (E : Yjs Y) (op : Operation) : Y := (op.yjsUpdate.map E.content).getD ⊥

def baseOf (E : Yjs Y) (snapshot : Option Snapshot) : Y :=
  (snapshot.map fun sn => E.content sn.contentBlob).getD ⊥

theorem replay_eq (snapshot : Option Snapshot) (operations : List Operation) :
    replay E snapshot operations = baseOf E snapshot ⊔ joinOf (contentOf E) operations := by
  have hstep : ∀ (doc : Y) (op : Operation),
      (op.yjsUpdate.map (E.applyUpdate doc)).getD doc = doc ⊔ contentOf E op := by
    intro doc op
    cases hu : op.yjsUpdate <;> simp [contentOf, hu, Yjs.applyUpdate]
  have hbase : (snapshot.map fun sn => E.applyUpdate ⊥ sn.contentBlob).getD ⊥ =
      baseOf E snapshot := by
    cases snapshot <;> simp [baseOf, Yjs.applyUpdate]
  simp only [replay, hstep, hbase, foldl_eq]

/-- A snapshot that holds exactly the operations of a log up to its own sequence, which
is the sequence of one of them. -/
structure Covers (E : Yjs Y) (log : List Operation) (sn : Snapshot) : Prop where
  content : E.content sn.contentBlob =
    joinOf (contentOf E) (log.filter fun op => op.operationSequence ≤ sn.operationSequence)
  mark : ∃ op ∈ log, op.operationSequence = sn.operationSequence

theorem filter_le_append {log new : List Operation} (h : (log ++ new).Pairwise Before) {n : ℕ}
    (hmark : ∃ op ∈ log, op.operationSequence = n) :
    (log ++ new).filter (fun op => op.operationSequence ≤ n) =
      log.filter fun op => op.operationSequence ≤ n := by
  obtain ⟨last, hlast, rfl⟩ := hmark
  rw [List.filter_append, List.append_right_eq_self, List.filter_eq_nil_iff]
  intro op hop
  have := ((List.pairwise_append.mp h).2.2 last hlast op hop).1
  simpa using this

theorem Covers.append {log new : List Operation} {sn : Snapshot} (h : Covers E log sn)
    (hchain : (log ++ new).Pairwise Before) : Covers E (log ++ new) sn where
  content := by rw [filter_le_append hchain h.mark, h.content]
  mark := by
    obtain ⟨op, hop, heq⟩ := h.mark
    exact ⟨op, List.mem_append_left _ hop, heq⟩

/-- On the log of a document the query returns the rows after the mark, in log order. -/
theorem getOperationsSinceSequence_eq {s : Store} (h : Inv s) (d : Uuid) (after : ℕ) :
    getOperationsSinceSequence s.operations d after =
      (s.documentRows d).filter fun op => after < op.operationSequence := by
  have heq : (s.operations.filter fun op => op.documentId = d ∧ after < op.operationSequence) =
      (s.documentRows d).filter fun op => after < op.operationSequence := by
    simp only [documentRows, List.filter_filter, Bool.decide_and, Bool.and_comm]
  rw [getOperationsSinceSequence, heq]
  apply List.Pairwise.insertionSort_eq
  exact ((h.chain d).filter _).imp fun hab => hab.1.le

def window (log : List Operation) (after upto : ℕ) : List Operation :=
  log.filter fun op => after < op.operationSequence ∧ op.operationSequence ≤ upto

theorem window_append {log new : List Operation} (h : (log ++ new).Pairwise Before) {after : ℕ}
    {last : Operation} (hlast : last ∈ log) :
    window (log ++ new) after last.operationSequence =
      window log after last.operationSequence := by
  rw [window, window, List.filter_append, List.append_right_eq_self, List.filter_eq_nil_iff]
  intro op hop
  have := ((List.pairwise_append.mp h).2.2 last hlast op hop).1
  simp
  omega

theorem joinOf_window (f : Operation → Y) (log : List Operation) {m n : ℕ} (h : m ≤ n) :
    joinOf f (log.filter fun op => op.operationSequence ≤ m) ⊔ joinOf f (window log m n) =
      joinOf f (log.filter fun op => op.operationSequence ≤ n) := by
  rw [← joinOf_filter_sup f (fun op => op.operationSequence ≤ m)
    (log.filter fun op => op.operationSequence ≤ n), List.filter_filter, List.filter_filter]
  congr 2
  · apply List.filter_congr
    intro op _
    rw [Bool.eq_iff_iff]
    simp only [Bool.and_eq_true, decide_eq_true_eq]
    omega
  · apply List.filter_congr
    intro op _
    rw [Bool.eq_iff_iff]
    simp only [Bool.and_eq_true, Bool.not_eq_true', decide_eq_true_eq,
      decide_eq_false_iff_not]
    omega

/-- What a snapshot job has read stays true of the growing log: its snapshot covers a
prefix, and its operations are the whole window up to the last of them. -/
def JobOk (E : Yjs Y) (s : Store) : SnapshotJob → Prop
  | .started _ => True
  | .snapshotRead d sn => ∀ x ∈ sn, Covers E (s.documentRows d) x
  | .operationsRead d sn ops => (∀ x ∈ sn, Covers E (s.documentRows d) x) ∧
      ∀ last ∈ ops.getLast?, last ∈ s.documentRows d ∧
        ops = window (s.documentRows d) (afterSequence sn) last.operationSequence

theorem JobOk.compact {s : Store} (h : Inv s) {d : Uuid} {sn : Option Snapshot}
    {ops : List Operation} {new : Snapshot} (hj : JobOk E s (.operationsRead d sn ops))
    (hc : compact E d sn ops = some new) : Covers E (s.documentRows d) new := by
  obtain ⟨last, hlast, rfl⟩ := Option.map_eq_some_iff.mp hc
  obtain ⟨hmem, hops⟩ := hj.2 last hlast
  refine ⟨?_, last, hmem, rfl⟩
  rw [E.content_encodeStateAsUpdate, replay_eq]
  have hin : last ∈ window (s.documentRows d) (afterSequence sn) last.operationSequence :=
    hops ▸ List.mem_of_getLast? hlast
  have hle : afterSequence sn ≤ last.operationSequence := by
    have := (List.mem_filter.mp hin).2
    simp at this
    omega
  rw [hops, ← joinOf_window (contentOf E) (s.documentRows d) hle]
  congr 1
  cases sn with
  | none =>
    -- sequences start at 1, so nothing stands at or before the missing snapshot
    have hnil : (s.documentRows d).filter (fun op => op.operationSequence ≤ afterSequence none) =
        [] := by
      refine List.filter_eq_nil_iff.mpr fun op hop => ?_
      have := (h.bound op (mem_documentRows.mp hop).1).1
      simp [afterSequence]
      omega
    rw [hnil]
    rfl
  | some x => exact (hj.1 x rfl).content

inductive Effect (E : Yjs Y) (s s' : Store) : Prop
  | quiet (hops : s'.operations = s.operations) (hsn : s'.latestSnapshot = s.latestSnapshot)
      (hjobs : s'.jobs = s.jobs) (hout : s'.outbox = s.outbox)
  | commit (t : ℕ) (tx : WriteTx) (ht : s.txs t = some tx) (hdone : tx.isDone = true)
      (hs : s' = s.commitTx t tx)
  | setJob (j : ℕ) (job : Option SnapshotJob) (hjob : ∀ x ∈ job,
      (∃ d, x = .started d) ∨ (∃ d, x = .snapshotRead d (s.latestSnapshot d)) ∨
      ∃ d sn, s.jobs j = some (.snapshotRead d sn) ∧ x = .operationsRead d sn
        (getOperationsSinceSequence s.operations d (afterSequence sn)))
      (hs : s' = s.setJob j job)
  | create (j : ℕ) (d : Uuid) (sn : Option Snapshot) (ops : List Operation) (new : Snapshot)
      (hjob : s.jobs j = some (.operationsRead d sn ops)) (hnew : compact E d sn ops = some new)
      (hs : s' = { s.setJob j none with
        latestSnapshot := Function.update s.latestSnapshot d (some new) })

theorem step_effect {s s' : Store} {a : Access} (hs : step E s a = some s') : Effect E s s' := by
  cases step_cases hs with
  | createDocument | handleUpdate | applyOps | acquireDocumentWriteLock | getMaxClockValue
  | insertOperation | insertOutboxEntry | rollback => exact .quiet rfl rfl rfl rfl
  | commit t tx ht hdone => exact .commit t tx ht hdone rfl
  | startSnapshotJob j d => exact .setJob j _ (fun x hx => .inl ⟨d, (Option.some.inj hx).symm⟩) rfl
  | getLatestSnapshot j d =>
    exact .setJob j _ (fun x hx => .inr (.inl ⟨d, (Option.some.inj hx).symm⟩)) rfl
  | getOperationsSinceSequence j d sn hjob =>
    exact .setJob j _ (fun x hx => .inr (.inr ⟨d, sn, hjob, (Option.some.inj hx).symm⟩)) rfl
  | createSnapshot j d sn ops new hjob hnew => exact .create j d sn ops new hjob hnew rfl
  | failSnapshotJob j => exact .setJob j none (fun x hx => by cases hx) rfl

theorem step_log {s s' : Store} {a : Access} (h : Inv s) (hs : step E s a = some s') (d : Uuid) :
    ∃ new, s'.documentRows d = s.documentRows d ++ new := by
  cases step_effect hs with
  | quiet hops _ _ _ => exact ⟨[], by simp [documentRows, hops]⟩
  | commit t tx ht hdone hs =>
    subst hs
    exact ⟨_, documentRows_commitTx h ht hdone d⟩
  | setJob j job _ hs =>
    subst hs
    exact ⟨[], (List.append_nil _).symm⟩
  | create j d sn ops new _ _ hs =>
    subst hs
    exact ⟨[], (List.append_nil _).symm⟩

theorem outbox_step {s s' : Store} {a : Access} (hs : step E s a = some s') :
    ∀ row ∈ s.outbox, row ∈ s'.outbox := by
  intro row hrow
  cases step_effect hs with
  | quiet _ _ _ hout => exact hout ▸ hrow
  | commit t tx _ _ he =>
    subst he
    exact List.mem_append_left _ hrow
  | setJob _ _ _ he =>
    subst he
    exact hrow
  | create _ _ _ _ _ _ _ he =>
    subst he
    exact hrow

structure SnapshotInv (E : Yjs Y) (s : Store) : Prop where
  latest : ∀ d, ∀ sn ∈ s.latestSnapshot d, Covers E (s.documentRows d) sn
  jobs : ∀ j, ∀ job ∈ s.jobs j, JobOk E s job

theorem Covers.step {s s' : Store} {a : Access} (h : Inv s) (h' : Inv s')
    (hs : step E s a = some s') {d : Uuid} {sn : Snapshot} (hc : Covers E (s.documentRows d) sn) :
    Covers E (s'.documentRows d) sn := by
  obtain ⟨new, hnew⟩ := step_log h hs d
  have hchain := h'.chain d
  rw [hnew] at hchain ⊢
  exact hc.append hchain

theorem JobOk.step {s s' : Store} {a : Access} (h : Inv s) (h' : Inv s')
    (hs : step E s a = some s') {job : SnapshotJob} (hj : JobOk E s job) : JobOk E s' job := by
  cases job with
  | started d => trivial
  | snapshotRead d sn => exact fun x hx => (hj x hx).step h h' hs
  | operationsRead d sn ops =>
    refine ⟨fun x hx => (hj.1 x hx).step h h' hs, fun last hlast => ?_⟩
    obtain ⟨hmem, hops⟩ := hj.2 last hlast
    obtain ⟨new, hnew⟩ := step_log h hs d
    have hchain := h'.chain d
    rw [hnew] at hchain ⊢
    exact ⟨List.mem_append_left _ hmem, by rw [window_append hchain hmem, ← hops]⟩

theorem le_getLast {log : List Operation} (h : log.Pairwise Before) {last op : Operation}
    (hlast : log.getLast? = some last) (hop : op ∈ log) :
    op.operationSequence ≤ last.operationSequence := by
  obtain ⟨init, rfl⟩ := List.getLast?_eq_some_iff.mp hlast
  rcases List.mem_append.mp hop with hop | hop
  · exact ((List.pairwise_append.mp h).2.2 op hop last (by simp)).1.le
  · obtain rfl := List.mem_singleton.mp hop
    exact le_rfl

theorem jobOk_operationsRead {s : Store} (h : Inv s) {d : Uuid} {sn : Option Snapshot}
    (hsn : ∀ x ∈ sn, Covers E (s.documentRows d) x) :
    JobOk E s (.operationsRead d sn
      (getOperationsSinceSequence s.operations d (afterSequence sn))) := by
  refine ⟨hsn, fun last hlast => ?_⟩
  rw [getOperationsSinceSequence_eq h] at hlast ⊢
  refine ⟨(List.mem_filter.mp (List.mem_of_getLast? hlast)).1, ?_⟩
  apply List.filter_congr
  intro op hop
  rw [Bool.eq_iff_iff]
  simp only [decide_eq_true_eq, iff_self_and]
  intro hafter
  have hin : op ∈ (s.documentRows d).filter fun op => afterSequence sn < op.operationSequence :=
    List.mem_filter.mpr ⟨hop, by simpa using hafter⟩
  exact le_getLast ((h.chain d).filter _) hlast hin

theorem snapshotInv_step {s s' : Store} {a : Access} (h : Inv s) (h' : Inv s')
    (hi : SnapshotInv E s) (hs : step E s a = some s') : SnapshotInv E s' := by
  cases step_effect hs with
  | quiet _ hsn hjobs _ =>
    exact ⟨fun d sn hd => (hi.latest d sn (hsn ▸ hd)).step h h' hs,
      fun j job hj => (hi.jobs j job (hjobs ▸ hj)).step h h' hs⟩
  | commit t tx _ _ he =>
    have hsn : s'.latestSnapshot = s.latestSnapshot := by rw [he]; rfl
    have hjobs : s'.jobs = s.jobs := by rw [he]; rfl
    exact ⟨fun d sn hd => (hi.latest d sn (hsn ▸ hd)).step h h' hs,
      fun j job hj => (hi.jobs j job (hjobs ▸ hj)).step h h' hs⟩
  | setJob j job hjob he =>
    subst he
    refine ⟨hi.latest, fun k x hx => ?_⟩
    by_cases hkj : k = j
    · subst hkj
      obtain rfl : job = some x := by simpa [Store.setJob] using hx
      rcases hjob x rfl with ⟨d, rfl⟩ | ⟨d, rfl⟩ | ⟨d, sn, hold, rfl⟩
      · trivial
      · exact hi.latest d
      · exact jobOk_operationsRead (s := s) h (hi.jobs k _ hold)
    · exact hi.jobs k x (by simpa [Store.setJob, hkj] using hx)
  | create j d sn ops new hold hnew he =>
    subst he
    refine ⟨fun e x hx => ?_, fun k x hx => ?_⟩
    · by_cases hed : e = d
      · subst hed
        obtain rfl : new = x := by simpa using hx
        exact (hi.jobs j _ hold).compact h hnew
      · exact hi.latest e x (by simpa [Function.update_of_ne hed] using hx)
    · by_cases hkj : k = j
      · simp [Store.setJob, hkj] at hx
      · exact hi.jobs k x (by simpa [Store.setJob, hkj] using hx)

/-- Every outbox row carries the update of a committed operation. -/
def RowsCarried (s : Store) : Prop := ∀ row ∈ s.outbox, ∃ op ∈ s.operations, Carries row op

theorem rowsCarried_step {s s' : Store} {a : Access} (h : Inv s) (hi : RowsCarried s)
    (hs : step E s a = some s') : RowsCarried s' := by
  cases step_effect hs with
  | quiet hops _ _ hout => simpa only [RowsCarried, hops, hout] using hi
  | commit t tx ht _ he =>
    subst he
    intro row hrow
    rcases List.mem_append.mp hrow with hrow | hrow
    · obtain ⟨op, hop, hc⟩ := hi row hrow
      exact ⟨op, List.mem_append_left _ hop, hc⟩
    · obtain ⟨p, hp, rfl⟩ := List.mem_map.mp hrow
      exact ⟨p.1, List.mem_append_right _ (List.mem_map_of_mem hp), (h.tx t tx ht).paired p hp⟩
  | setJob _ _ _ he =>
    subst he
    exact hi
  | create _ _ _ _ _ _ _ he =>
    subst he
    exact hi

theorem Reachable.rowsCarried {s : Store} (h : Reachable E s) : RowsCarried s :=
  Runs.Reach.invariant_of (fun _ hs => Reachable.inv hs)
    (fun _ hs => by
      subst hs
      simp [RowsCarried, initial])
    (fun _ _ _ hq _ hi _ hs => rowsCarried_step hq hi hs) h

theorem snapshotInv_initial : SnapshotInv E initial where
  latest d sn hd := by simp [initial] at hd
  jobs j job hj := by simp [initial] at hj

theorem Reachable.snapshotInv {s : Store} (h : Reachable E s) : SnapshotInv E s :=
  Runs.Reach.invariant_of (fun _ hs => Reachable.inv hs) (fun _ hs => hs ▸ snapshotInv_initial)
    (fun _ _ _ hq hq' hi _ hs => snapshotInv_step hq hq' hi hs) h

def load (E : Yjs Y) (s : Store) (documentId : Uuid) : Y :=
  replay E (s.latestSnapshot documentId)
    (getOperationsSinceSequence s.operations documentId
      (afterSequence (s.latestSnapshot documentId)))

/-- A snapshot that covers the log, and the operations that are read after it, hold every
committed update. -/
theorem replay_covered {s : Store} (h : Inv s) {d : Uuid} {sn : Option Snapshot}
    (hsn : ∀ x ∈ sn, Covers E (s.documentRows d) x) :
    replay E sn (getOperationsSinceSequence s.operations d (afterSequence sn)) =
      joinOf (contentOf E) (s.documentRows d) := by
  rw [replay_eq, getOperationsSinceSequence_eq h]
  cases sn with
  | none =>
    have hall : (s.documentRows d).filter (fun op => afterSequence none < op.operationSequence) =
        s.documentRows d :=
      List.filter_eq_self.mpr fun op hop =>
        decide_eq_true (h.bound op (mem_documentRows.mp hop).1).1
    rw [hall]
    simp [baseOf]
  | some sn =>
    have hbase : baseOf E (some sn) = E.content sn.contentBlob := rfl
    rw [hbase, (hsn sn rfl).content]
    have hsplit := joinOf_filter_sup (contentOf E)
      (fun op : Operation => op.operationSequence ≤ sn.operationSequence) (s.documentRows d)
    have hafter : (s.documentRows d).filter
        (fun op => !decide (op.operationSequence ≤ sn.operationSequence)) =
        (s.documentRows d).filter fun op => sn.operationSequence < op.operationSequence := by
      apply List.filter_congr
      intro op _
      rw [Bool.eq_iff_iff]
      simp
    rwa [hafter] at hsplit

/-- Loading is the join of every committed update, whatever writers, rollbacks and
snapshot jobs ran before. -/
theorem load_eq {s : Store} (h : Reachable E s) (d : Uuid) :
    load E s d = joinOf (contentOf E) (s.documentRows d) :=
  replay_covered h.inv (h.snapshotInv.latest d)

/-- Compaction is invisible: the content of the latest snapshot, merged with the updates of the
operations after its sequence, is the merge of all committed updates, and this is the document
that a reader loads. -/
theorem load_without_snapshot {s : Store} (h : Reachable E s) (d : Uuid) :
    baseOf E (s.latestSnapshot d) ⊔ joinOf (contentOf E) ((s.documentRows d).filter fun op =>
        afterSequence (s.latestSnapshot d) < op.operationSequence) =
      joinOf (contentOf E) (s.documentRows d) ∧
    load E s d = joinOf (contentOf E) (s.documentRows d) := by
  have hload := load_eq h d
  refine ⟨?_, hload⟩
  rwa [load, replay_eq, getOperationsSinceSequence_eq h.inv] at hload

/-- Two jobs overlap: the one that read fewer operations writes last. -/
def overlappingJobs : List Access :=
  twoWriters.take 10 ++
    [.startSnapshotJob 0 7, .getLatestSnapshot 0, .getOperationsSinceSequence 0] ++
    twoWriters.drop 10 ++ [.startSnapshotJob 1 7, .getLatestSnapshot 1,
      .getOperationsSinceSequence 1, .createSnapshot 1, .createSnapshot 0]

theorem load_overlappingJobs : ∃ s, Runs.exec (step Yjs.bytes) initial overlappingJobs = some s ∧
    (s.latestSnapshot 7).map Snapshot.operationSequence = some 3 ∧
    baseOf Yjs.bytes (s.latestSnapshot 7) = {4, 5} ∧
    (s.documentRows 7).map (contentOf Yjs.bytes) = [{4}, {5}, {3}] ∧
    load Yjs.bytes s 7 = {3, 4, 5} ∧
    baseOf Yjs.bytes (s.latestSnapshot 7) ⊔ joinOf (contentOf Yjs.bytes)
        ((s.documentRows 7).filter fun op =>
          afterSequence (s.latestSnapshot 7) < op.operationSequence) =
      joinOf (contentOf Yjs.bytes) (s.documentRows 7) ∧
    load Yjs.bytes s 7 = joinOf (contentOf Yjs.bytes) (s.documentRows 7) := by
  obtain ⟨s, hs, ⟨sn, hsn, hmark⟩, hbefore, hrows⟩ :
      ∃ s, Runs.exec (step Yjs.bytes) initial overlappingJobs = some s ∧
        (∃ sn, s.latestSnapshot 7 = some sn ∧ sn.operationSequence = 3) ∧
        ((s.documentRows 7).filter fun op => op.operationSequence ≤ 3).map
          (contentOf Yjs.bytes) = [{4}, {5}] ∧
        (s.documentRows 7).map (contentOf Yjs.bytes) = [{4}, {5}, {3}] :=
    ⟨_, rfl, ⟨_, rfl, rfl⟩, by decide +kernel, by decide +kernel⟩
  have hreach : Reachable Yjs.bytes s := Runs.reachable_exec rfl hs
  have hall := load_without_snapshot hreach 7
  refine ⟨s, hs, by rw [hsn, ← hmark]; rfl, ?_, hrows, ?_, hall⟩
  · have hcontent := (hreach.snapshotInv.latest 7 sn hsn).content
    rw [hmark, joinOf, hbefore] at hcontent
    rw [hsn]
    exact hcontent.trans (by decide)
  · rw [hall.2, joinOf, hrows]
    decide

end Store
end Meridian
