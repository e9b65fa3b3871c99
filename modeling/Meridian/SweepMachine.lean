import Meridian.OutboxMachine
import Meridian.SnapshotCoverage

/-! The snapshot queue over the operation log. A periodic sweep adds a job for every
document, and so does a disconnect that finds many operations; the queue ignores both for a
document whose job has ever run. So the sweeps cover the log exactly as long as nothing is
written after the only job of a document has read it. -/
namespace Meridian

def Access.isWrite : Access → Bool
  | .createDocument _ | .handleUpdate _ _ _ _ | .applyOps _ _ _ _ | .acquireDocumentWriteLock _
  | .getMaxClockValue _ | .insertOperation _ _ | .insertOutboxEntry _ _ | .commit _
  | .rollback _ => true
  | .startSnapshotJob _ _ | .getLatestSnapshot _ | .getOperationsSinceSequence _
  | .createSnapshot _ | .failSnapshotJob _ => false

/-- The end of `handleDisconnect`, between two of its awaits. -/
inductive ThresholdCheck
  | counting (documentId : Uuid) (afterSeq : ℕ)
  | locking (documentId : Uuid)
  | adding (documentId : Uuid)

/-- `queue` holds the job `snapshot-<id>` of each document; the execution of such a job is
the job of the store with the same number. A sweep is what it has still to add. -/
structure Sweeper where
  store : Store
  queue : Uuid → Option JobState
  sweeps : ℕ → Option (Finset Uuid)
  checks : ℕ → Option ThresholdCheck
  locks : Finset Uuid

/-- `write` is a statement of a writer; `skip` is the return of a job that has found nothing. -/
inductive SweepAction
  | write (a : Access)
  | listDocuments (sweep : ℕ)
  | fanOut (sweep : ℕ) (documentId : Uuid)
  | endSweep (sweep : ℕ)
  | handleDisconnect (check : ℕ) (documentId : Uuid)
  | countOperations (check : ℕ)
  | tryAcquireLock (check : ℕ)
  | addSnapshotJob (check : ℕ)
  | expireLock (documentId : Uuid)
  | process (documentId : Uuid)
  | getLatestSnapshot (documentId : Uuid)
  | getOperationsSinceSequence (documentId : Uuid)
  | createSnapshot (documentId : Uuid)
  | skip (documentId : Uuid)
  | fail (documentId : Uuid)
  | complete (documentId : Uuid)

namespace Sweeper

variable {Y : Type} [SemilatticeSup Y] [OrderBot Y]

def snapshotThreshold : ℕ := 50

def initial : Sweeper where
  store := Store.initial
  queue _ := none
  sweeps _ := none
  checks _ := none
  locks := ∅

def setCheck (s : Sweeper) (k : ℕ) (check : Option ThresholdCheck) : Sweeper :=
  { s with checks := Function.update s.checks k check }

def access (E : Yjs Y) (s : Sweeper) (a : Access) : Option Sweeper :=
  (Store.step E s.store a).map fun store => { s with store := store }

def step (E : Yjs Y) (s : Sweeper) : SweepAction → Option Sweeper
  | .write a => if a.isWrite then s.access E a else none
  | .listDocuments k =>
    if (s.sweeps k).isNone then
      some { s with sweeps := Function.update s.sweeps k (some s.store.documents) }
    else none
  | .fanOut k d =>
    match s.sweeps k with
    | some pending =>
      if d ∈ pending then
        some { s with
          queue := Delivery.add s.queue d .waiting
          sweeps := Function.update s.sweeps k (some (pending.erase d)) }
      else none
    | none => none
  | .endSweep k => some { s with sweeps := Function.update s.sweeps k none }
  | .handleDisconnect k d =>
    if (s.checks k).isNone then
      some (s.setCheck k (some (.counting d (afterSequence (s.store.latestSnapshot d)))))
    else none
  | .countOperations k =>
    match s.checks k with
    | some (.counting d afterSeq) =>
      let opCount := (getOperationsSinceSequence s.store.operations d afterSeq).length
      some (s.setCheck k (if snapshotThreshold ≤ opCount then some (.locking d) else none))
    | _ => none
  | .tryAcquireLock k =>
    match s.checks k with
    | some (.locking d) =>
      if d ∈ s.locks then some (s.setCheck k none)
      else some { s.setCheck k (some (.adding d)) with locks := insert d s.locks }
    | _ => none
  | .addSnapshotJob k =>
    match s.checks k with
    | some (.adding d) =>
      some { s.setCheck k none with queue := Delivery.add s.queue d .waiting }
    | _ => none
  | .expireLock d => some { s with locks := s.locks.erase d }
  | .process d =>
    if s.queue d = some .waiting then
      (s.access E (.startSnapshotJob d d)).map fun t =>
        { t with queue := Function.update t.queue d (some .active) }
    else none
  | .getLatestSnapshot d => s.access E (.getLatestSnapshot d)
  | .getOperationsSinceSequence d => s.access E (.getOperationsSinceSequence d)
  | .createSnapshot d => s.access E (.createSnapshot d)
  | .skip d =>
    match s.store.jobs d with
    | some (.operationsRead _ _ []) => s.access E (.failSnapshotJob d)
    | _ => none
  | .fail d => s.access E (.failSnapshotJob d)
  | .complete d =>
    if s.queue d = some .active ∧ (s.store.jobs d).isNone then
      some { s with queue := Function.update s.queue d (some .completed) }
    else none

def Behind (s : Store) (d : Uuid) : Prop :=
  getOperationsSinceSequence s.operations d (afterSequence (s.latestSnapshot d)) ≠ []

instance (s : Store) (d : Uuid) : Decidable (Behind s d) :=
  inferInstanceAs (Decidable (getOperationsSinceSequence s.operations d
    (afterSequence (s.latestSnapshot d)) ≠ []))

/-- The job of the document has still to read its operations, if there is one. -/
def Unread (s : Sweeper) (d : Uuid) : Prop :=
  match s.queue d, s.store.jobs d with
  | some .completed, _ | some .active, none | some .active, some (.operationsRead _ _ _) => False
  | _, _ => True

/-- No operation is committed on a document whose job has read the others, or on one that a
sweep under way has missed; and no job fails on a document that needs it. -/
def Timely (s : Sweeper) : SweepAction → Prop
  | .write (.commit t) => ∀ tx ∈ s.store.txs t, Unread s tx.documentId ∧
    ∀ k pending, s.sweeps k = some pending → pending ≠ ∅ →
      tx.documentId ∈ pending ∨ s.queue tx.documentId ≠ none
  | .fail d => ¬ Behind s.store d
  | _ => True

def Current (s : Store) (d : Uuid) : SnapshotJob → Prop
  | .started d' => d' = d
  | .snapshotRead d' sn => d' = d ∧ sn = s.latestSnapshot d
  | .operationsRead d' sn ops => d' = d ∧ sn = s.latestSnapshot d ∧
    ops = getOperationsSinceSequence s.operations d (afterSequence sn)

/-- A job runs once and leaves nothing; a sweep misses nothing that has no job yet. -/
structure Covered (s : Sweeper) : Prop where
  kinds : ∀ d, s.queue d ≠ some .delayed
  job : ∀ d, ∀ job ∈ s.store.jobs d, s.queue d = some .active ∧ Current s.store d job
  done : ∀ d, s.queue d = some .completed ∨ (s.queue d = some .active ∧ s.store.jobs d = none) →
    ¬ Behind s.store d
  listed : ∀ k pending, s.sweeps k = some pending → pending ≠ ∅ → ∀ d, Behind s.store d →
    d ∈ pending ∨ s.queue d ≠ none

end Sweeper

namespace Store

variable {Y : Type} [SemilatticeSup Y] [OrderBot Y] {E : Yjs Y} {s s' : Store}

structure Housed (s : Store) : Prop where
  txs : ∀ t tx, s.txs t = some tx → tx.documentId ∈ s.documents
  operations : ∀ op ∈ s.operations, op.documentId ∈ s.documents

theorem Housed.next (h : Housed s) (hdocuments : s.documents ⊆ s'.documents)
    (htxs : ∀ t tx, s'.txs t = some tx → s.txs t = some tx ∨ tx.documentId ∈ s'.documents)
    (hops : ∀ op ∈ s'.operations, op ∈ s.operations ∨ op.documentId ∈ s'.documents) :
    Housed s' where
  txs t tx ht := (htxs t tx ht).elim (fun hold => hdocuments (h.txs t tx hold)) id
  operations op hop := (hops op hop).elim (fun hold => hdocuments (h.operations op hold)) id

theorem setTx_housed {t : ℕ} {new : Option WriteTx}
    (hnew : ∀ tx ∈ new, tx.documentId ∈ s.documents) (u : ℕ) (tx : WriteTx)
    (hu : (s.setTx t new).txs u = some tx) :
    s.txs u = some tx ∨ tx.documentId ∈ s.documents := by
  by_cases hut : u = t
  · subst hut
    exact .inr (hnew tx (by simpa [setTx] using hu))
  · exact .inl (by simpa [setTx, hut] using hu)

theorem Housed.step (h : Housed s) (hinv : Inv s) {a : Access} (hs : step E s a = some s') :
    Housed s' := by
  -- a transaction that moves on stays on its document
  have hmove {t : ℕ} {tx tx' : WriteTx} (ht : s.txs t = some tx)
      (hd : tx'.documentId = tx.documentId) (u : ℕ) (x : WriteTx)
      (hu : (s.setTx t (some tx')).txs u = some x) :
      s.txs u = some x ∨ x.documentId ∈ s.documents :=
    setTx_housed (fun y hy => by rw [← Option.some.inj hy, hd]; exact h.txs t tx ht) u x hu
  cases step_cases hs with
  | createDocument d => exact h.next (Finset.subset_insert _ _) (fun _ _ => .inl) fun _ => .inl
  | handleUpdate t d u update hd | applyOps t d u binaries hd =>
    exact h.next subset_rfl (setTx_housed fun x hx => Option.some.inj hx ▸ hd) fun op => .inl
  | acquireDocumentWriteLock t tx tx' ht hl =>
    obtain ⟨-, rfl⟩ := WriteTx.lock_eq_some hl
    exact h.next subset_rfl (hmove ht rfl) fun op => .inl
  | getMaxClockValue t tx tx' ht hr =>
    obtain ⟨-, rfl⟩ := WriteTx.readClock_eq_some hr
    exact h.next subset_rfl (hmove ht rfl) fun op => .inl
  | insertOperation t sequence tx tx' ht hi =>
    obtain ⟨_, _, _, _, -, -, -, -, -, -, rfl⟩ := WriteTx.insertOperation_eq_some hi
    exact h.next subset_rfl (hmove ht rfl) fun op => .inl
  | insertOutboxEntry t id tx tx' ht hi =>
    obtain ⟨_, _, _, -, rfl⟩ := WriteTx.insertOutboxEntry_eq_some hi
    exact h.next subset_rfl (hmove ht rfl) fun op => .inl
  | commit t tx ht hdone =>
    refine h.next subset_rfl (setTx_housed fun x hx => by cases hx) fun op hop => ?_
    refine (List.mem_append.mp hop).imp_right fun hnew => ?_
    rw [(WriteTx.operations_of_isDone hdone).1.symm] at hnew
    exact (hinv.tx t tx ht).owned op hnew ▸ h.txs t tx ht
  | rollback t tx ht =>
    exact h.next subset_rfl (setTx_housed fun x hx => by cases hx) fun op => .inl
  | startSnapshotJob | getLatestSnapshot | getOperationsSinceSequence | createSnapshot
  | failSnapshotJob => exact h.next subset_rfl (fun _ _ => .inl) fun _ => .inl

theorem Reachable.housed (h : Reachable E s) : Housed s :=
  Runs.Reach.invariant_of (fun _ hs => Reachable.inv hs)
    (fun _ hs => by
      subst hs
      exact ⟨by simp [initial], by simp [initial]⟩)
    (fun _ _ _ hq _ hi _ hs => hi.step hq hs) h

theorem step_of_isWrite {a : Access} (hw : a.isWrite = true) (hs : step E s a = some s') :
    (s'.operations = s.operations ∧ s'.latestSnapshot = s.latestSnapshot ∧ s'.jobs = s.jobs) ∨
      ∃ t tx, a = .commit t ∧ s.txs t = some tx ∧ tx.isDone = true ∧ s' = s.commitTx t tx := by
  cases step_cases hs with
  | createDocument | handleUpdate | applyOps | acquireDocumentWriteLock | getMaxClockValue
  | insertOperation | insertOutboxEntry | rollback => exact .inl ⟨rfl, rfl, rfl⟩
  | commit t tx ht hdone => exact .inr ⟨t, tx, rfl, ht, hdone, rfl⟩
  | startSnapshotJob | getLatestSnapshot | getOperationsSinceSequence | createSnapshot
  | failSnapshotJob => cases hw

end Store

namespace Sweeper

variable {Y : Type} [SemilatticeSup Y] [OrderBot Y] {E : Yjs Y} {s t : Sweeper}

theorem access_eq_some {a : Access} (hs : s.access E a = some t) :
    ∃ store, Store.step E s.store a = some store ∧ t = { s with store := store } := by
  obtain ⟨store, hstore, rfl⟩ := Option.map_eq_some_iff.mp hs
  exact ⟨store, hstore, rfl⟩

/-- Every step is at most one statement of the store. -/
theorem step_store {a : SweepAction} (hs : step E s a = some t) :
    t.store = s.store ∨ ∃ b, Store.step E s.store b = some t.store := by
  have haccess {u : Sweeper} {b : Access} (hb : s.access E b = some u) :
      u.store = s.store ∨ ∃ b, Store.step E s.store b = some u.store := by
    obtain ⟨store, hstore, rfl⟩ := access_eq_some hb
    exact .inr ⟨b, hstore⟩
  cases a with
  | write b =>
    obtain ⟨-, hs⟩ := Option.ite_none_right_eq_some.mp hs
    exact haccess hs
  | listDocuments k =>
    obtain ⟨-, hs⟩ := Option.ite_none_right_eq_some.mp hs
    cases hs
    exact .inl rfl
  | fanOut k d =>
    unfold step at hs
    dsimp only at hs
    split at hs
    · obtain ⟨-, hs⟩ := Option.ite_none_right_eq_some.mp hs
      cases hs
      exact .inl rfl
    · cases hs
  | endSweep k =>
    cases hs
    exact .inl rfl
  | handleDisconnect k d =>
    obtain ⟨-, hs⟩ := Option.ite_none_right_eq_some.mp hs
    cases hs
    exact .inl rfl
  | countOperations k =>
    unfold step at hs
    dsimp only at hs
    split at hs
    · cases hs
      exact .inl rfl
    · cases hs
  | tryAcquireLock k =>
    unfold step at hs
    dsimp only at hs
    split at hs
    · split at hs
      · cases hs
        exact .inl rfl
      · cases hs
        exact .inl rfl
    · cases hs
  | addSnapshotJob k =>
    unfold step at hs
    dsimp only at hs
    split at hs
    · cases hs
      exact .inl rfl
    · cases hs
  | expireLock d =>
    cases hs
    exact .inl rfl
  | process d =>
    obtain ⟨-, hs⟩ := Option.ite_none_right_eq_some.mp hs
    obtain ⟨u, hu, rfl⟩ := Option.map_eq_some_iff.mp hs
    obtain ⟨store, hstore, rfl⟩ := access_eq_some hu
    exact .inr ⟨_, hstore⟩
  | getLatestSnapshot d | getOperationsSinceSequence d | createSnapshot d | fail d =>
    exact haccess hs
  | skip d =>
    unfold step at hs
    dsimp only at hs
    split at hs
    · exact haccess hs
    · cases hs
  | complete d =>
    obtain ⟨-, hs⟩ := Option.ite_none_right_eq_some.mp hs
    cases hs
    exact .inl rfl

theorem store_reachable {ok : Sweeper → SweepAction → Prop}
    (h : Runs.Reach (step E) (· = initial) ok s) : Store.Reachable E s.store := by
  induction h with
  | start hinit =>
    rw [hinit]
    exact .start rfl
  | next _ _ hs ih =>
    rcases step_store hs with hsame | ⟨b, hb⟩
    · rw [hsame]
      exact ih
    · exact .next ih trivial hb

theorem add_cases (jobs : Uuid → Option JobState) (id : Uuid) (new : JobState) (e : Uuid) :
    Delivery.add jobs id new e = jobs e ∨
      (jobs e = none ∧ Delivery.add jobs id new e = some new) := by
  unfold Delivery.add
  split
  · exact .inl rfl
  · next hnone =>
    by_cases he : e = id
    · subst he
      exact .inr ⟨by simpa using hnone, Function.update_self ..⟩
    · exact .inl (Function.update_of_ne he _ _)

theorem add_self (jobs : Uuid → Option JobState) (id : Uuid) (new : JobState) :
    Delivery.add jobs id new id ≠ none := by
  unfold Delivery.add
  split
  · next hsome =>
    intro hnone
    simp [hnone] at hsome
  · simp

theorem Covered.add (h : Covered s) {d : Uuid} (hstore : t.store = s.store)
    (hqueue : t.queue = Delivery.add s.queue d .waiting)
    (hsweeps : ∀ k pending, t.sweeps k = some pending → pending ≠ ∅ →
      s.sweeps k = some pending ∨ s.sweeps k = some (insert d pending)) : Covered t where
  kinds e := by
    rw [hqueue]
    rcases add_cases s.queue d .waiting e with hold | ⟨-, hnew⟩
    · exact hold ▸ h.kinds e
    · simp [hnew]
  job e job hjob := by
    rw [hstore] at hjob ⊢
    obtain ⟨hactive, hcurrent⟩ := h.job e job hjob
    refine ⟨?_, hcurrent⟩
    rw [hqueue]
    rcases add_cases s.queue d .waiting e with hold | ⟨hnone, -⟩
    · exact hold.trans hactive
    · rw [hactive] at hnone
      cases hnone
  done e he := by
    rw [hstore] at he ⊢
    rw [hqueue] at he
    rcases add_cases s.queue d .waiting e with hold | ⟨-, hnew⟩
    · exact h.done e (hold ▸ he)
    · simp [hnew] at he
  listed k pending hk hne e he := by
    rw [hstore] at he
    rw [hqueue]
    have hkeep : s.queue e ≠ none → Delivery.add s.queue d .waiting e ≠ none := by
      rcases add_cases s.queue d .waiting e with hold | ⟨hnone, -⟩
      · rw [hold]
        exact id
      · exact fun hsome => (hsome hnone).elim
    rcases hsweeps k pending hk hne with hold | hold
    · exact (h.listed k pending hold hne e he).imp_right hkeep
    · rcases h.listed k _ hold (Finset.insert_ne_empty _ _) e he with hin | hsome
      · rcases Finset.mem_insert.mp hin with rfl | hin
        · exact .inr (add_self _ _ _)
        · exact .inl hin
      · exact .inr (hkeep hsome)

theorem Covered.setJob (h : Covered s) {d : Uuid} {job : Option SnapshotJob}
    (hstore : t.store = s.store.setJob d job) (hsweeps : t.sweeps = s.sweeps)
    (hother : ∀ e, e ≠ d → t.queue e = s.queue e) (hactive : t.queue d = some .active)
    (hjob : ∀ x ∈ job, Current s.store d x) (hdone : job = none → ¬ Behind s.store d) :
    Covered t where
  kinds e := by
    by_cases he : e = d
    · simp [he, hactive]
    · exact hother e he ▸ h.kinds e
  job e x hx := by
    rw [hstore] at hx ⊢
    by_cases he : e = d
    · subst he
      simp only [Store.setJob, Function.update_self] at hx
      exact ⟨hactive, hjob x hx⟩
    · simp only [Store.setJob, Function.update_of_ne he] at hx
      rw [hother e he]
      exact h.job e x hx
  done e he := by
    rw [hstore] at he ⊢
    by_cases hed : e = d
    · subst hed
      simp only [Store.setJob, Function.update_self] at he
      rw [hactive] at he
      exact hdone (by simpa using he)
    · simp only [Store.setJob, Function.update_of_ne hed] at he
      rw [hother e hed] at he
      exact h.done e he
  listed k pending hk hne e he := by
    rw [hstore] at he
    rw [hsweeps] at hk
    refine (h.listed k pending hk hne e he).imp_right fun hsome => ?_
    by_cases hed : e = d
    · simp [hed, hactive]
    · rwa [hother e hed]

theorem behind_congr (store : Store) {store' : Store} {d : Uuid}
    (hops : ∀ n, getOperationsSinceSequence store'.operations d n =
      getOperationsSinceSequence store.operations d n)
    (hsnapshot : store'.latestSnapshot d = store.latestSnapshot d) :
    Behind store' d ↔ Behind store d := by
  unfold Behind
  rw [hops, hsnapshot]

theorem current_congr (store : Store) {store' : Store} {d : Uuid}
    (hops : ∀ n, getOperationsSinceSequence store'.operations d n =
      getOperationsSinceSequence store.operations d n)
    (hsnapshot : store'.latestSnapshot d = store.latestSnapshot d) {job : SnapshotJob} :
    Current store' d job ↔ Current store d job := by
  cases job with
  | started d' => rfl
  | snapshotRead d' sn => simp only [Current, hsnapshot]
  | operationsRead d' sn ops => simp only [Current, hsnapshot, hops]

theorem getOperationsSinceSequence_commitTx {store : Store} (h : Store.Inv store) {u : ℕ}
    {tx : WriteTx} (hu : store.txs u = some tx) (hdone : tx.isDone = true) {d : Uuid}
    (hd : d ≠ tx.documentId) (n : ℕ) :
    getOperationsSinceSequence (store.commitTx u tx).operations d n =
      getOperationsSinceSequence store.operations d n := by
  rw [Store.getOperationsSinceSequence_eq (h.commitTx hu hdone),
    Store.getOperationsSinceSequence_eq h, Store.documentRows_commitTx h hu hdone, if_neg hd,
    List.append_nil]

/-- A commit in time leaves every job with what it would read. -/
theorem Covered.commit (h : Covered s) (hinv : Store.Inv s.store) {u : ℕ} {tx : WriteTx}
    (hu : s.store.txs u = some tx) (hdone : tx.isDone = true)
    (hok : Timely s (.write (.commit u))) :
    Covered { s with store := s.store.commitTx u tx } := by
  obtain ⟨hunread, hlisted⟩ := hok tx hu
  have hsame {d : Uuid} (hd : d ≠ tx.documentId) :=
    getOperationsSinceSequence_commitTx hinv hu hdone hd
  refine ⟨h.kinds, fun d job hjob => ?_, fun d hd => ?_, fun k pending hk hne d hd => ?_⟩
  · obtain ⟨hactive, hcurrent⟩ := h.job d job hjob
    refine ⟨hactive, ?_⟩
    by_cases hdoc : d = tx.documentId
    · subst hdoc
      have hread : s.store.jobs tx.documentId = some job := hjob
      cases job with
      | started d' => exact hcurrent
      | snapshotRead d' sn => exact hcurrent
      | operationsRead d' sn ops => simp [Unread, hactive, hread] at hunread
    · exact (current_congr s.store (hsame hdoc) rfl).mpr hcurrent
  · by_cases hdoc : d = tx.documentId
    · subst hdoc
      rcases hd with hcompleted | ⟨hactive, hnone⟩
      · have hqueue : s.queue tx.documentId = some .completed := hcompleted
        simp [Unread, hqueue] at hunread
      · have hqueue : s.queue tx.documentId = some .active := hactive
        have hjobs : s.store.jobs tx.documentId = none := hnone
        simp [Unread, hqueue, hjobs] at hunread
    · exact fun hbehind => h.done d hd ((behind_congr s.store (hsame hdoc) rfl).mp hbehind)
  · by_cases hdoc : d = tx.documentId
    · subst hdoc
      exact hlisted k pending hk hne
    · exact h.listed k pending hk hne d ((behind_congr s.store (hsame hdoc) rfl).mp hd)

theorem getOperationsSinceSequence_getLast {store : Store} (h : Store.Inv store) {d : Uuid} {n : ℕ}
    {last : Operation}
    (hlast : (getOperationsSinceSequence store.operations d n).getLast? = some last) :
    getOperationsSinceSequence store.operations d last.operationSequence = [] := by
  rw [Store.getOperationsSinceSequence_eq h] at hlast ⊢
  refine List.filter_eq_nil_iff.mpr fun op hop hafter => ?_
  have hlt : last.operationSequence < op.operationSequence := by simpa using hafter
  have hn : n < last.operationSequence := by
    simpa using (List.mem_filter.mp (List.mem_of_getLast? hlast)).2
  have hmem : op ∈ (store.documentRows d).filter fun op => n < op.operationSequence :=
    List.mem_filter.mpr ⟨hop, by simpa using hn.trans hlt⟩
  have := Store.le_getLast ((h.chain d).filter _) hlast hmem
  omega

theorem Covered.createSnapshot (h : Covered s) (hinv : Store.Inv s.store) {d : Uuid}
    (hs : step E s (.createSnapshot d) = some t) : Covered t := by
  obtain ⟨store, hstore, rfl⟩ := access_eq_some hs
  cases Store.step_cases hstore with
  | createSnapshot _ d' sn ops new hjob hnew =>
    obtain ⟨hactive, rfl, rfl, hops⟩ := h.job d _ hjob
    obtain ⟨last, hlast, hlast'⟩ := Option.map_eq_some_iff.mp hnew
    rw [hops] at hlast
    have hnone := getOperationsSinceSequence_getLast hinv hlast
    set after : Store := { s.store.setJob d' none with
      latestSnapshot := Function.update s.store.latestSnapshot d' (some new) } with hafter
    have hsame (e : Uuid) (n : ℕ) : getOperationsSinceSequence after.operations e n =
        getOperationsSinceSequence s.store.operations e n := rfl
    have hsnapshot {e : Uuid} (he : e ≠ d') :
        after.latestSnapshot e = s.store.latestSnapshot e := Function.update_of_ne he _ _
    have hjobs {e : Uuid} (he : e ≠ d') : after.jobs e = s.store.jobs e :=
      Function.update_of_ne he _ _
    refine ⟨h.kinds, fun e job he => ?_, fun e he => ?_, fun k pending hk hne e he => ?_⟩
    · by_cases hed : e = d'
      · simp [hafter, Store.setJob, hed] at he
      · obtain ⟨hqueue, hcurrent⟩ := h.job e job (hjobs hed ▸ he)
        exact ⟨hqueue, (current_congr s.store (hsame e) (hsnapshot hed)).mpr hcurrent⟩
    · by_cases hed : e = d'
      · subst hed
        simpa [Behind, hafter, Store.setJob, ← hlast', afterSequence] using hnone
      · rw [behind_congr s.store (hsame e) (hsnapshot hed)]
        exact h.done e (hjobs hed ▸ he)
    · by_cases hed : e = d'
      · exact .inr (by simp [hed, hactive])
      · exact h.listed k pending hk hne e
          ((behind_congr s.store (hsame e) (hsnapshot hed)).mp he)

theorem Covered.write (h : Covered s) (hinv : Store.Inv s.store) {b : Access}
    (hok : Timely s (.write b)) (hs : step E s (.write b) = some t) : Covered t := by
  obtain ⟨hwrite, hs⟩ := Option.ite_none_right_eq_some.mp hs
  obtain ⟨store, hstore, rfl⟩ := access_eq_some hs
  rcases Store.step_of_isWrite hwrite hstore with ⟨hops, hsnapshot, hjobs⟩ |
    ⟨u, tx, rfl, hu, hdone, rfl⟩
  · have hsame (d : Uuid) (n : ℕ) : getOperationsSinceSequence store.operations d n =
        getOperationsSinceSequence s.store.operations d n := by rw [hops]
    refine ⟨h.kinds, fun d job hjob => ?_, fun d hd => ?_, fun k pending hk hne d hd => ?_⟩
    · obtain ⟨hactive, hcurrent⟩ := h.job d job (hjobs ▸ hjob)
      exact ⟨hactive, (current_congr s.store (hsame d) (congrFun hsnapshot d)).mpr hcurrent⟩
    · rw [behind_congr s.store (hsame d) (congrFun hsnapshot d)]
      exact h.done d (hjobs ▸ hd)
    · exact h.listed k pending hk hne d
        ((behind_congr s.store (hsame d) (congrFun hsnapshot d)).mp hd)
  · exact h.commit hinv hu hdone hok

theorem Covered.listDocuments (h : Covered s) (hreach : Store.Reachable E s.store) {k : ℕ}
    (hs : step E s (.listDocuments k) = some t) : Covered t := by
  have hinv := hreach.inv
  obtain ⟨-, hs⟩ := Option.ite_none_right_eq_some.mp hs
  cases hs
  refine ⟨h.kinds, h.job, h.done, fun k' pending hk hne d hd => ?_⟩
  by_cases hkk : k' = k
  · subst hkk
    simp only [Function.update_self, Option.some.injEq] at hk
    subst hk
    obtain ⟨op, hop⟩ := List.exists_mem_of_ne_nil _ hd
    have hrow := (Store.getOperationsSinceSequence_eq hinv d _ ▸ hop)
    obtain ⟨hmem, rfl⟩ := Store.mem_documentRows.mp (List.mem_filter.mp hrow).1
    exact .inl (hreach.housed.operations op hmem)
  · simp only [Function.update_of_ne hkk] at hk
    exact h.listed k' pending hk hne d hd

theorem Covered.fanOut (h : Covered s) {k : ℕ} {d : Uuid}
    (hs : step E s (.fanOut k d) = some t) : Covered t := by
  unfold Sweeper.step at hs
  dsimp only at hs
  split at hs
  · next pending hpending =>
    obtain ⟨hin, hs⟩ := Option.ite_none_right_eq_some.mp hs
    cases hs
    refine h.add rfl rfl fun k' pending' hk' _ => ?_
    by_cases hkk : k' = k
    · subst hkk
      simp only [Function.update_self, Option.some.injEq] at hk'
      subst hk'
      exact .inr (by rw [Finset.insert_erase hin, hpending])
    · exact .inl (by simpa only [Function.update_of_ne hkk] using hk')
  · cases hs

theorem Covered.complete (h : Covered s) {d : Uuid} (hs : step E s (.complete d) = some t) :
    Covered t := by
  obtain ⟨⟨hactive, hnone⟩, hs⟩ := Option.ite_none_right_eq_some.mp hs
  cases hs
  have hjobs : s.store.jobs d = none := Option.isNone_iff_eq_none.mp hnone
  refine ⟨fun e => ?_, fun e job hjob => ?_, fun e he => ?_, fun k pending hk hne e he => ?_⟩
  · by_cases hed : e = d
    · simp [hed]
    · simpa [hed] using h.kinds e
  · have hed : e ≠ d := by
      rintro rfl
      rw [hjobs] at hjob
      cases hjob
    simpa [hed] using h.job e job hjob
  · by_cases hed : e = d
    · subst hed
      exact h.done e (.inr ⟨hactive, hjobs⟩)
    · exact h.done e (by simpa [hed] using he)
  · refine (h.listed k pending hk hne e he).imp_right fun hsome => ?_
    by_cases hed : e = d
    · simp [hed]
    · simpa [hed] using hsome

theorem Covered.step (h : Covered s) (hreach : Store.Reachable E s.store) {a : SweepAction}
    (hok : Timely s a) (hs : step E s a = some t) : Covered t := by
  have hinv := hreach.inv
  cases a with
  | write b => exact h.write hinv hok hs
  | listDocuments k => exact h.listDocuments hreach hs
  | fanOut k d => exact h.fanOut hs
  | endSweep k =>
    cases hs
    refine ⟨h.kinds, h.job, h.done, fun k' pending hk hne d hd => ?_⟩
    by_cases hkk : k' = k
    · simp [hkk] at hk
    · simp only [Function.update_of_ne hkk] at hk
      exact h.listed k' pending hk hne d hd
  | handleDisconnect k d =>
    obtain ⟨-, hs⟩ := Option.ite_none_right_eq_some.mp hs
    cases hs
    exact ⟨h.kinds, h.job, h.done, h.listed⟩
  | countOperations k =>
    unfold Sweeper.step at hs
    dsimp only at hs
    split at hs
    · cases hs
      exact ⟨h.kinds, h.job, h.done, h.listed⟩
    · cases hs
  | tryAcquireLock k =>
    unfold Sweeper.step at hs
    dsimp only at hs
    split at hs
    · split at hs
      · cases hs
        exact ⟨h.kinds, h.job, h.done, h.listed⟩
      · cases hs
        exact ⟨h.kinds, h.job, h.done, h.listed⟩
    · cases hs
  | addSnapshotJob k =>
    unfold Sweeper.step at hs
    dsimp only at hs
    split at hs
    · cases hs
      exact h.add rfl rfl fun k pending hk _ => .inl hk
    · cases hs
  | expireLock d =>
    cases hs
    exact ⟨h.kinds, h.job, h.done, h.listed⟩
  | process d =>
    obtain ⟨-, hs⟩ := Option.ite_none_right_eq_some.mp hs
    obtain ⟨u, hu, rfl⟩ := Option.map_eq_some_iff.mp hs
    obtain ⟨store, hstore, rfl⟩ := access_eq_some hu
    cases Store.step_cases hstore with
    | startSnapshotJob =>
      refine h.setJob rfl rfl (fun e he => Function.update_of_ne he _ _) (Function.update_self ..)
        (fun x hx => ?_) (fun hnone => by cases hnone)
      cases hx
      rfl
  | getLatestSnapshot d =>
    obtain ⟨store, hstore, rfl⟩ := access_eq_some hs
    cases Store.step_cases hstore with
    | getLatestSnapshot _ d' hjob =>
      obtain ⟨hactive, rfl⟩ := h.job d _ hjob
      refine h.setJob rfl rfl (fun _ _ => rfl) hactive (fun x hx => ?_)
        (fun hnone => by cases hnone)
      cases hx
      exact ⟨rfl, rfl⟩
  | getOperationsSinceSequence d =>
    obtain ⟨store, hstore, rfl⟩ := access_eq_some hs
    cases Store.step_cases hstore with
    | getOperationsSinceSequence _ d' sn hjob =>
      obtain ⟨hactive, rfl, rfl⟩ := h.job d _ hjob
      refine h.setJob rfl rfl (fun _ _ => rfl) hactive (fun x hx => ?_)
        (fun hnone => by cases hnone)
      cases hx
      exact ⟨rfl, rfl, rfl⟩
  | createSnapshot d => exact h.createSnapshot hinv hs
  | skip d =>
    unfold Sweeper.step at hs
    dsimp only at hs
    split at hs
    · next d' sn hjob =>
      obtain ⟨store, hstore, rfl⟩ := access_eq_some hs
      obtain ⟨hactive, rfl, rfl, hnil⟩ := h.job d _ hjob
      cases Store.step_cases hstore with
      | failSnapshotJob =>
        exact h.setJob rfl rfl (fun _ _ => rfl) hactive (by simp)
          fun _ hbehind => hbehind hnil.symm
    · cases hs
  | fail d =>
    obtain ⟨store, hstore, rfl⟩ := access_eq_some hs
    cases Store.step_cases hstore with
    | failSnapshotJob _ job hjob =>
      obtain ⟨hactive, -⟩ := h.job d job hjob
      exact h.setJob rfl rfl (fun _ _ => rfl) hactive (by simp) fun _ => hok
  | complete d => exact h.complete hs

/-- When a sweep has added its last job, every document with operations beyond its latest
snapshot has a job that waits or runs, in every run that keeps in time. -/
theorem sweep_covers (h : Runs.Reach (step E) (· = initial) Timely s) {k : ℕ} {d : Uuid}
    (hlast : s.sweeps k = some {d}) (hs : step E s (.fanOut k d) = some t) :
    ∀ e, Behind t.store e → t.queue e = some .waiting ∨ t.queue e = some .active := by
  have hcovered : Covered s := by
    refine h.invariant_of (fun s hs => store_reachable hs) (fun s hinit => ?_)
      fun s a t hq _ hi hok hstep => hi.step hq hok hstep
    rw [hinit]
    exact ⟨by simp [initial], by simp [initial, Store.initial], by simp [initial],
      by simp [initial]⟩
  have hok : Timely s (.fanOut k d) := trivial
  have hstep := hcovered.step (store_reachable h) hok hs
  simp only [Sweeper.step, hlast, Finset.mem_singleton, if_true, Option.some.injEq] at hs
  have hadded (e : Uuid) (he : Behind t.store e) : t.queue e ≠ none := by
    rw [← hs] at he ⊢
    rcases hcovered.listed k {d} hlast (Finset.singleton_ne_empty d) e he with hin | hsome
    · rw [Finset.mem_singleton] at hin
      exact hin ▸ add_self _ _ _
    · rcases add_cases s.queue d .waiting e with hold | ⟨hnone, -⟩
      · exact hold.trans_ne hsome
      · exact (hsome hnone).elim
  intro e he
  cases hqueue : t.queue e with
  | none => exact (hadded e he hqueue).elim
  | some state =>
    cases state with
    | waiting => exact .inl rfl
    | active => exact .inr rfl
    | delayed => exact (hstep.kinds e hqueue).elim
    | completed => exact (hstep.done e (.inl hqueue) he).elim

def writeOnce (tx sequence : ℕ) : List SweepAction :=
  [.write (.handleUpdate tx 7 1 [3]), .write (.acquireDocumentWriteLock tx),
    .write (.getMaxClockValue tx), .write (.insertOperation tx sequence),
    .write (.insertOutboxEntry tx sequence)]

def firstSweep : List SweepAction :=
  (.write (.createDocument 7) :: writeOnce 0 1) ++ [.write (.commit 0), .listDocuments 0]

theorem sweep_covers_first : ∃ s t, s.sweeps 0 = some {7} ∧
    step Yjs.bytes s (.fanOut 0 7) = some t ∧ Behind t.store 7 ∧
    (t.queue 7 = some .waiting ∨ t.queue 7 = some .active) := by
  have hfollows : Runs.Follows (step Yjs.bytes) Timely initial firstSweep := by
    refine Runs.follows_append (Runs.follows_of_forall (by simp [writeOnce, Timely]) _) ?_
    intro s hs
    cases hs
    refine ⟨fun tx htx => ?_, fun t _ => ⟨trivial, fun _ _ => trivial⟩⟩
    cases htx
    exact ⟨trivial, fun k pending hk => by cases hk⟩
  obtain ⟨s, t, hs, hpending, ht, hbehind⟩ : ∃ s t,
      Runs.exec (step Yjs.bytes) initial firstSweep = some s ∧ s.sweeps 0 = some {7} ∧
      step Yjs.bytes s (.fanOut 0 7) = some t ∧ Behind t.store 7 :=
    ⟨_, _, rfl, rfl, rfl, by decide⟩
  exact ⟨s, t, hpending, ht, hbehind,
    sweep_covers (Runs.Reach.exec (.start rfl) hfollows hs) hpending ht 7 hbehind⟩

/-- A document is swept, compacted and edited again: its finished job keeps another away. -/
theorem sweep_covers_fails : ¬ ∀ s t : Sweeper,
    Runs.Reachable (step Yjs.bytes) (· = initial) s → s.sweeps 1 = some {7} →
    step Yjs.bytes s (.fanOut 1 7) = some t → Behind t.store 7 →
    t.queue 7 = some .waiting ∨ t.queue 7 = some .active := by
  intro h
  have hreach : Runs.Reachable (step Yjs.bytes) (· = initial) _ :=
    Runs.reachable_exec rfl (show Runs.exec (step Yjs.bytes) initial
      (.write (.createDocument 7) :: writeOnce 0 1 ++ [.write (.commit 0), .listDocuments 0,
        .fanOut 0 7, .process 7, .getLatestSnapshot 7, .getOperationsSinceSequence 7,
        .createSnapshot 7, .complete 7] ++ writeOnce 0 2 ++
        [.write (.commit 0), .listDocuments 1]) = some _ from rfl)
  exact absurd (h _ _ hreach rfl rfl (by decide)) (by decide)

end Sweeper

end Meridian
