import Meridian.Lib.Runs
import Meridian.YjsUpdate

/-! The operation log as a machine. Its steps are the statements of the write
transactions of `handleUpdate` and `applyOps` and the three database accesses of a
snapshot job, in any order and for any number of transactions and jobs at once.
Statements see the rows committed before them and those of their own transaction
(READ COMMITTED), and a row lock is held until its transaction ends. -/
namespace Meridian

inductive OperationSource
  | human | ai
  deriving DecidableEq

structure Operation where
  documentId : Uuid
  userId : Uuid
  type : OperationType
  yjsUpdate : Option Buffer
  operationSequence : ℕ
  clockValue : ℕ
  source : OperationSource
  payload : OperationPayload

/-- A row of `snapshots`; no query reads its version vector. -/
structure Snapshot where
  documentId : Uuid
  contentBlob : Buffer
  operationSequence : ℕ

/-- A row of `outbox`, with its operation named by sequence number. -/
structure OutboxRow where
  id : Uuid
  documentId : Uuid
  operationSequence : ℕ
  payload : Buffer
  attempts : ℕ

inductive TxPhase
  | begun
  | locked
  | ready (clock : ℕ)
  | inserted (clock : ℕ) (op : Operation) (update : Buffer)

/-- An open write transaction: the updates it has still to insert, in order, and the
rows it has inserted, which nobody else sees before the commit. -/
structure WriteTx where
  documentId : Uuid
  userId : Uuid
  source : OperationSource
  updates : List Buffer
  phase : TxPhase
  rows : List (Operation × OutboxRow)

inductive SnapshotJob
  | started (documentId : Uuid)
  | snapshotRead (documentId : Uuid) (snapshot : Option Snapshot)
  | operationsRead (documentId : Uuid) (snapshot : Option Snapshot) (operations : List Operation)

structure Store where
  documents : Finset Uuid
  operations : List Operation
  outbox : List OutboxRow
  latestSnapshot : Uuid → Option Snapshot
  nextSequence : ℕ
  writeLock : Uuid → Option ℕ
  txs : ℕ → Option WriteTx
  jobs : ℕ → Option SnapshotJob

/-- An empty database; the identity column starts at 1. -/
def Store.initial : Store where
  documents := ∅
  operations := []
  outbox := []
  latestSnapshot := fun _ => none
  nextSequence := 1
  writeLock := fun _ => none
  txs := fun _ => none
  jobs := fun _ => none

def Store.documentRows (s : Store) (documentId : Uuid) : List Operation :=
  s.operations.filter fun op => op.documentId = documentId

def getOperationsSinceSequence (operations : List Operation) (documentId : Uuid)
    (afterSequence : ℕ) : List Operation :=
  (operations.filter fun op =>
    op.documentId = documentId ∧ afterSequence < op.operationSequence).insertionSort
      fun a b => a.operationSequence ≤ b.operationSequence

def afterSequence (snapshot : Option Snapshot) : ℕ :=
  (snapshot.map Snapshot.operationSequence).getD 0

def getMaxClockValue (operations : List Operation) (documentId : Uuid) : ℕ :=
  ((operations.filter fun op => op.documentId = documentId).map Operation.clockValue).foldr max 0

/-- The clock of the next row: the Lamport rule for an update received from a client,
a running counter over the batch of an AI request. -/
def nextClock (source : OperationSource) (clock receivedClock : ℕ) : ℕ :=
  match source with
  | .human => max clock receivedClock + 1
  | .ai => clock + 1

namespace WriteTx

def begin (documentId userId : Uuid) (source : OperationSource) (updates : List Buffer) :
    WriteTx :=
  ⟨documentId, userId, source, updates, .begun, []⟩

def clock? (tx : WriteTx) : Option ℕ :=
  match tx.phase with
  | .ready clock | .inserted clock _ _ => some clock
  | .begun | .locked => none

def isBegun (tx : WriteTx) : Bool :=
  match tx.phase with
  | .begun => true
  | _ => false

/-- The operation row whose outbox row is still missing. -/
def unpaired (tx : WriteTx) : List Operation :=
  match tx.phase with
  | .inserted _ op _ => [op]
  | _ => []

def operations (tx : WriteTx) : List Operation := tx.rows.map Prod.fst ++ tx.unpaired

def lock (tx : WriteTx) : Option WriteTx :=
  match tx.phase with
  | .begun => some { tx with phase := .locked }
  | _ => none

def readClock (tx : WriteTx) (committed : List Operation) : Option WriteTx :=
  match tx.phase with
  | .locked => some { tx with phase := .ready (getMaxClockValue committed tx.documentId) }
  | _ => none

/-- `insertOperation` for the next update. A clock outside `bigint` makes the statement
fail, which only leaves the rollback. -/
def insertOperation (tx : WriteTx) (classify : Buffer → Option Classified) (sequence : ℕ) :
    Option WriteTx :=
  match tx.phase, tx.updates with
  | .ready clock, update :: updates =>
    (classify update).bind fun c =>
      let next := nextClock tx.source clock c.receivedClock
      if next < 2 ^ 63 then
        some { tx with
          updates := updates
          phase := .inserted next ⟨tx.documentId, tx.userId, c.type, some update, sequence,
            next, tx.source, c.payload⟩ update }
      else none
  | _, _ => none

def insertOutboxEntry (tx : WriteTx) (id : Uuid) : Option WriteTx :=
  match tx.phase with
  | .inserted clock op update =>
    some { tx with
      phase := .ready clock
      rows := tx.rows ++ [(op, ⟨id, tx.documentId, op.operationSequence, update, 0⟩)] }
  | _ => none

/-- Every update has its two rows, so the callback has returned. -/
def isDone (tx : WriteTx) : Bool :=
  match tx.phase, tx.updates with
  | .ready _, [] => true
  | _, _ => false

end WriteTx

/-- The statements of the writers and of the snapshot jobs. The identity column may
skip values, so an insert names the sequence number it was given. -/
inductive Access
  | createDocument (documentId : Uuid)
  | handleUpdate (tx : ℕ) (documentId userId : Uuid) (update : Buffer)
  | applyOps (tx : ℕ) (documentId userId : Uuid) (binaries : List Buffer)
  | acquireDocumentWriteLock (tx : ℕ)
  | getMaxClockValue (tx : ℕ)
  | insertOperation (tx : ℕ) (sequence : ℕ)
  | insertOutboxEntry (tx : ℕ) (id : Uuid)
  | commit (tx : ℕ)
  | rollback (tx : ℕ)
  | startSnapshotJob (job : ℕ) (documentId : Uuid)
  | getLatestSnapshot (job : ℕ)
  | getOperationsSinceSequence (job : ℕ)
  | createSnapshot (job : ℕ)
  | failSnapshotJob (job : ℕ)

namespace Store

variable {Y : Type} [SemilatticeSup Y] [OrderBot Y]

def setTx (s : Store) (t : ℕ) (tx : Option WriteTx) : Store :=
  { s with txs := Function.update s.txs t tx }

def setJob (s : Store) (j : ℕ) (job : Option SnapshotJob) : Store :=
  { s with jobs := Function.update s.jobs j job }

/-- A transaction begins on a document whose membership the caller has just read, so
the document exists. -/
def beginTx (s : Store) (t : ℕ) (tx : WriteTx) : Option Store :=
  if tx.documentId ∈ s.documents ∧ (s.txs t).isNone then some (s.setTx t (some tx)) else none

def endTx (s : Store) (t : ℕ) (tx : WriteTx) : Store :=
  { s.setTx t none with
    writeLock := if s.writeLock tx.documentId = some t then
      Function.update s.writeLock tx.documentId none else s.writeLock }

/-- Load a snapshot and the operations after it into an empty document. -/
def replay (E : Yjs Y) (snapshot : Option Snapshot) (operations : List Operation) : Y :=
  operations.foldl
    (fun doc op => (op.yjsUpdate.map (E.applyUpdate doc)).getD doc)
    ((snapshot.map fun sn => E.applyUpdate ⊥ sn.contentBlob).getD ⊥)

/-- The snapshot that a job writes, unless it found no operation to add. -/
def compact (E : Yjs Y) (documentId : Uuid) (snapshot : Option Snapshot)
    (operations : List Operation) : Option Snapshot :=
  operations.getLast?.map fun last =>
    ⟨documentId, E.encodeStateAsUpdate (replay E snapshot operations), last.operationSequence⟩

def step (E : Yjs Y) (s : Store) : Access → Option Store
  | .createDocument d => some { s with documents := insert d s.documents }
  | .handleUpdate t d u update =>
    (E.classifyUpdate update).bind fun _ => s.beginTx t (WriteTx.begin d u .human [update])
  | .applyOps t d u binaries => s.beginTx t (WriteTx.begin d u .ai binaries)
  | .acquireDocumentWriteLock t =>
    (s.txs t).bind fun tx => tx.lock.bind fun tx' =>
      if s.writeLock tx.documentId = none then
        some { s.setTx t (some tx') with
          writeLock := Function.update s.writeLock tx.documentId (some t) }
      else none
  | .getMaxClockValue t =>
    (s.txs t).bind fun tx => (tx.readClock s.operations).map fun tx' => s.setTx t (some tx')
  | .insertOperation t sequence =>
    (s.txs t).bind fun tx => (tx.insertOperation E.classifyUpdate sequence).bind fun tx' =>
      if s.nextSequence ≤ sequence then
        some { s.setTx t (some tx') with nextSequence := sequence + 1 }
      else none
  | .insertOutboxEntry t id =>
    (s.txs t).bind fun tx => (tx.insertOutboxEntry id).map fun tx' => s.setTx t (some tx')
  | .commit t =>
    (s.txs t).bind fun tx =>
      if tx.isDone then
        some { s.endTx t tx with
          operations := s.operations ++ tx.rows.map Prod.fst
          outbox := s.outbox ++ tx.rows.map Prod.snd }
      else none
  | .rollback t => (s.txs t).map fun tx => s.endTx t tx
  | .startSnapshotJob j d =>
    if (s.jobs j).isNone then some (s.setJob j (some (.started d))) else none
  | .getLatestSnapshot j =>
    (s.jobs j).bind fun
      | .started d => some (s.setJob j (some (.snapshotRead d (s.latestSnapshot d))))
      | _ => none
  | .getOperationsSinceSequence j =>
    (s.jobs j).bind fun
      | .snapshotRead d sn => some (s.setJob j (some (.operationsRead d sn
          (Meridian.getOperationsSinceSequence s.operations d (afterSequence sn)))))
      | _ => none
  | .createSnapshot j =>
    (s.jobs j).bind fun
      | .operationsRead d sn ops =>
        (compact E d sn ops).bind fun new =>
          -- the UPDATE of the documents row waits for a writer's lock on it
          if d ∈ s.documents ∧ s.writeLock d = none then
            some { s.setJob j none with
              latestSnapshot := Function.update s.latestSnapshot d (some new) }
          else none
      | _ => none
  | .failSnapshotJob j => (s.jobs j).map fun _ => s.setJob j none

abbrev Reachable (E : Yjs Y) : Store → Prop :=
  Runs.Reachable (step E) fun s => s = initial

end Store

end Meridian
