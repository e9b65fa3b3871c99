import Meridian.AccessMachine
import Meridian.DeadLetter

/-! The acknowledgement of an update. One `try` holds the classification, the transaction with
the two rows, the queue add and the relay to the room, and its `catch` cannot tell which of
them has failed: an error before the commit is one, an error behind it denies rows that every
other client will see. -/
namespace Meridian

inductive ClientMessage
  | rateLimitWarning
  | ackOk (operationSequence : ℕ)
  | ackError
  deriving DecidableEq

structure RoomSocket where
  id : ℕ
  isOpen : Bool
  sends : Bool

structure UpdateClient where
  id : ℕ
  authReady : Bool
  userId : Uuid
  role : Option Role
  documentId : Option Uuid
  messageCount : Option ℕ

/-- What the calls of one `handleUpdate` meet: the rows that the clock is read from, the values
that the database gives out, and whether a call returns or throws. A statement whose reply is
lost ends its transaction like one that fails; only the commit and the queue add may take effect
and throw. -/
structure UpdateCalls where
  acquireDocumentWriteLock : Bool
  getMaxClockValue : Option (List Operation)
  insertOperation : Option ℕ
  insertOutboxEntry : Option Uuid
  commit : Outcome
  enqueueDelivery : Outcome
  room : Option (List RoomSocket)
  sendAck : Bool
  sendError : Bool

structure UpdateOutcome where
  operations : List Operation
  outbox : List OutboxRow
  enqueued : List Uuid
  relayed : List ℕ
  toClient : List ClientMessage

namespace UpdateOutcome

def nothing : UpdateOutcome := ⟨[], [], [], [], []⟩

def fail (outcome : UpdateOutcome) (calls : UpdateCalls) : UpdateOutcome :=
  { outcome with toClient := if calls.sendError then [.ackError] else [] }

end UpdateOutcome

/-- The rows that the transaction of an update commits; a call before the commit that throws
rolls it back. -/
def updateTransaction (classify : Buffer → Option Classified) (calls : UpdateCalls)
    (documentId userId : Uuid) (update : Buffer) : Option (Operation × OutboxRow) :=
  let begun := WriteTx.begin documentId userId .human [update]
  (if calls.acquireDocumentWriteLock then begun.lock else none).bind fun tx =>
    (calls.getMaxClockValue.bind tx.readClock).bind fun tx =>
      (calls.insertOperation.bind (tx.insertOperation classify)).bind fun tx =>
        (calls.insertOutboxEntry.bind tx.insertOutboxEntry).bind fun tx =>
          if tx.isDone && calls.commit.takesEffect then tx.rows.head? else none

/-- The update goes to the open sockets of the room but its own; a `send` that throws ends the
loop. -/
def relayUpdate (client : ℕ) : List RoomSocket → List ℕ × Bool
  | [] => ([], true)
  | socket :: sockets =>
    if socket.id ≠ client ∧ socket.isOpen = true then
      if socket.sends then
        (socket.id :: (relayUpdate client sockets).1, (relayUpdate client sockets).2)
      else ([], false)
    else relayUpdate client sockets

section Handler

variable {Y : Type} [SemilatticeSup Y] [OrderBot Y] (E : Yjs Y) (calls : UpdateCalls)
  (client : UpdateClient) (update : Buffer)

/-- From the `try` on, for a client that may write. -/
def persistUpdate (documentId : Uuid) : UpdateOutcome :=
  match E.classifyUpdate update with
  | none => UpdateOutcome.nothing.fail calls
  | some _ =>
    match updateTransaction E.classifyUpdate calls documentId client.userId update with
    | none => UpdateOutcome.nothing.fail calls
    | some (op, row) =>
      let committed := { UpdateOutcome.nothing with operations := [op], outbox := [row] }
      -- a commit whose reply is lost throws out of `transaction`, and the rows stay
      if calls.commit.throws then committed.fail calls
      else
        let queued := { committed with
          enqueued := if calls.enqueueDelivery.takesEffect then [row.id] else [] }
        if calls.enqueueDelivery.throws then queued.fail calls
        else
          let relay := relayUpdate client.id (calls.room.getD [])
          let relayed := { queued with relayed := relay.1 }
          if relay.2 && calls.sendAck then
            { relayed with toClient := [.ackOk op.operationSequence] }
          else relayed.fail calls

def handleUpdate (wsMessageRateLimit : ℕ) : UpdateOutcome :=
  if client.authReady then
    if client.role = some .viewer then .nothing
    else
      match client.documentId with
      | none => .nothing
      | some documentId =>
        let messageCount := client.messageCount.map (· + 1)
        if messageCount.any (wsMessageRateLimit < ·) then
          { UpdateOutcome.nothing with
            toClient := if messageCount = some (wsMessageRateLimit + 1) then [.rateLimitWarning]
              else [] }
        else persistUpdate E calls client update documentId
  else .nothing

def GetsAck (outcome : UpdateOutcome) : Prop :=
  .ackError ∈ outcome.toClient ∨ ∃ sequence, .ackOk sequence ∈ outcome.toClient

/-- The client is told of an error exactly if no row was committed, and of a sequence number
exactly if both rows were committed with it. -/
def AckAgrees (outcome : UpdateOutcome) : Prop :=
  (.ackError ∈ outcome.toClient ↔ outcome.operations = [] ∧ outcome.outbox = []) ∧
    ∀ sequence, .ackOk sequence ∈ outcome.toClient ↔ ∃ op row, outcome.operations = [op] ∧
      outcome.outbox = [row] ∧ op.operationSequence = sequence ∧ row.operationSequence = sequence

/-- No call fails before the commit, the commit takes effect, and the new clock is a `bigint`. -/
def Commits (documentId : Uuid) : Prop :=
  ∃ classified committed, E.classifyUpdate update = some classified ∧
    calls.acquireDocumentWriteLock = true ∧ calls.getMaxClockValue = some committed ∧
    nextClock .human (getMaxClockValue committed documentId) classified.receivedClock < 2 ^ 63 ∧
    calls.insertOperation.isSome ∧ calls.insertOutboxEntry.isSome ∧ calls.commit ≠ .failed

/-- The reply of the commit arrives, and every call behind it returns. -/
def ReturnsAfterCommit : Prop :=
  calls.commit = .done ∧ calls.enqueueDelivery = .done ∧
    (∀ socket ∈ calls.room.getD [], socket.id ≠ client.id → socket.isOpen = true →
      socket.sends = true) ∧
    calls.sendAck = true

variable {E calls client update}

theorem relayUpdate_snd (clientId : ℕ) (sockets : List RoomSocket) :
    (relayUpdate clientId sockets).2 = true ↔ ∀ socket ∈ sockets, socket.id ≠ clientId →
      socket.isOpen = true → socket.sends = true := by
  induction sockets with
  | nil => simp [relayUpdate]
  | cons socket sockets ih =>
    rw [relayUpdate, List.forall_mem_cons]
    split
    · next hopen =>
      split
      · next hsends => simp [ih, hsends]
      · next hsends => simp [hopen, hsends]
    · next hclosed =>
      rw [ih]
      exact ⟨fun h => ⟨fun hne hopen => absurd ⟨hne, hopen⟩ hclosed, h⟩, fun h => h.2⟩

theorem updateTransaction_of_commits {documentId : Uuid} (userId : Uuid)
    (h : Commits E calls update documentId) :
    ∃ op row, updateTransaction E.classifyUpdate calls documentId userId update = some (op, row) ∧
      row.operationSequence = op.operationSequence := by
  obtain ⟨c, committed, hc, hlock, hread, hclock, hinsert, houtbox, hcommit⟩ := h
  obtain ⟨sequence, hsequence⟩ := Option.isSome_iff_exists.mp hinsert
  obtain ⟨id, hid⟩ := Option.isSome_iff_exists.mp houtbox
  let clock := nextClock .human (getMaxClockValue committed documentId) c.receivedClock
  refine ⟨⟨documentId, userId, c.type, some update, sequence, clock, .human, c.payload⟩,
    ⟨id, documentId, sequence, update, 0⟩, ?_, rfl⟩
  simp [updateTransaction, WriteTx.begin, WriteTx.lock, WriteTx.readClock,
    WriteTx.insertOperation, WriteTx.insertOutboxEntry, WriteTx.isDone, hc, hlock, hread, hclock,
    hsequence, hid, hcommit, clock, Outcome.takesEffect, -Nat.reducePow]

theorem insertOperation_classifies {tx tx' : WriteTx} {classify : Buffer → Option Classified}
    {clock sequence : ℕ} {updates : List Buffer} (hphase : tx.phase = .ready clock)
    (hupdates : tx.updates = update :: updates)
    (h : tx.insertOperation classify sequence = some tx') :
    ∃ c, classify update = some c ∧ nextClock tx.source clock c.receivedClock < 2 ^ 63 := by
  unfold WriteTx.insertOperation at h
  simp only [hphase, hupdates, Option.bind_eq_some_iff] at h
  obtain ⟨c, hc, h⟩ := h
  split at h
  · next hclock => exact ⟨c, hc, hclock⟩
  · cases h

theorem commits_of_updateTransaction {documentId userId : Uuid} {rows : Operation × OutboxRow}
    (h : updateTransaction E.classifyUpdate calls documentId userId update = some rows) :
    Commits E calls update documentId := by
  simp only [updateTransaction, Option.bind_eq_some_iff] at h
  obtain ⟨locked, hlocked, ready, ⟨committed, hread, hready⟩, inserted,
    ⟨sequence, hsequence, hinserted⟩, done, ⟨id, hid, -⟩, hcommit⟩ := h
  have hlock : calls.acquireDocumentWriteLock = true := by
    by_contra hnot
    simp [hnot] at hlocked
  rw [if_pos hlock] at hlocked
  obtain ⟨-, rfl⟩ := WriteTx.lock_eq_some hlocked
  obtain ⟨-, rfl⟩ := WriteTx.readClock_eq_some hready
  obtain ⟨c, hc, hclock⟩ := insertOperation_classifies rfl rfl hinserted
  have hend : calls.commit ≠ .failed := by
    intro hnot
    simp [hnot, Outcome.takesEffect] at hcommit
  exact ⟨c, committed, hc, hlock, hread, hclock, by rw [hsequence]; rfl, by rw [hid]; rfl, hend⟩

/-- What `persistUpdate` leaves behind, by whether it commits and what fails behind that. -/
theorem persistUpdate_spec (documentId : Uuid) :
    (¬ Commits E calls update documentId ∧ persistUpdate E calls client update documentId =
        UpdateOutcome.nothing.fail calls) ∨
      Commits E calls update documentId ∧ ∃ op row,
        row.operationSequence = op.operationSequence ∧
        (persistUpdate E calls client update documentId).operations = [op] ∧
        (persistUpdate E calls client update documentId).outbox = [row] ∧
        (ReturnsAfterCommit calls client ∧
            (persistUpdate E calls client update documentId).toClient =
              [.ackOk op.operationSequence] ∨
          ¬ ReturnsAfterCommit calls client ∧
            (persistUpdate E calls client update documentId).toClient =
              if calls.sendError then [.ackError] else []) := by
  by_cases hcommits : Commits E calls update documentId
  · obtain ⟨op, row, htx, hsequence⟩ := updateTransaction_of_commits client.userId hcommits
    obtain ⟨c, -, hc, -⟩ := id hcommits
    refine .inr ⟨hcommits, op, row, hsequence, ?_⟩
    unfold persistUpdate
    simp only [hc, htx, Outcome.throws_iff]
    split
    · next hlost => exact ⟨rfl, rfl, .inr ⟨fun h => hlost h.1, rfl⟩⟩
    · next hreply =>
      split
      · next hqueue => exact ⟨rfl, rfl, .inr ⟨fun h => hqueue h.2.1, rfl⟩⟩
      · next hqueue =>
        split
        · next hrest =>
          rw [Bool.and_eq_true, relayUpdate_snd] at hrest
          exact ⟨rfl, rfl, .inl ⟨⟨not_not.mp hreply, not_not.mp hqueue, hrest⟩, rfl⟩⟩
        · next hrest =>
          rw [Bool.and_eq_true, relayUpdate_snd] at hrest
          exact ⟨rfl, rfl, .inr ⟨fun h => hrest h.2.2, rfl⟩⟩
  · refine .inl ⟨hcommits, ?_⟩
    unfold persistUpdate
    split
    · rfl
    · split
      · rfl
      · next htx => exact absurd (commits_of_updateTransaction htx) hcommits

theorem handleUpdate_of_getsAck {wsMessageRateLimit : ℕ}
    (h : GetsAck (handleUpdate E calls client update wsMessageRateLimit)) :
    ∃ documentId, client.documentId = some documentId ∧
      handleUpdate E calls client update wsMessageRateLimit =
        persistUpdate E calls client update documentId := by
  unfold handleUpdate at h ⊢
  split at h
  · split at h
    · simp [GetsAck, UpdateOutcome.nothing] at h
    · split at h
      · simp [GetsAck, UpdateOutcome.nothing] at h
      · next documentId hdocument =>
        dsimp only at h
        split at h
        · simp only [GetsAck] at h
          split at h <;> simp at h
        · next hcount => exact ⟨documentId, hdocument, by simp [*]⟩
  · simp [GetsAck, UpdateOutcome.nothing] at h

/-- The ack of an update agrees with what was committed exactly if, after a commit, its reply
arrives and neither the queue add nor the relay nor the sending of the ack fails. -/
theorem ackAgrees_iff {wsMessageRateLimit : ℕ}
    (h : GetsAck (handleUpdate E calls client update wsMessageRateLimit)) :
    AckAgrees (handleUpdate E calls client update wsMessageRateLimit) ↔
      ∀ documentId ∈ client.documentId, Commits E calls update documentId →
        ReturnsAfterCommit calls client := by
  obtain ⟨documentId, hdocument, heq⟩ := handleUpdate_of_getsAck h
  simp only [hdocument, Option.mem_def, Option.some.injEq, forall_eq']
  rw [heq] at h ⊢
  rcases @persistUpdate_spec _ _ _ E calls client update documentId with
    ⟨hnot, hfail⟩ | ⟨hcommits, op, row, hsequence, hoperations, houtbox, hreturns⟩
  · rw [hfail] at h ⊢
    refine iff_of_true ?_ fun hcommits => absurd hcommits hnot
    have herror : calls.sendError = true := by
      by_contra hsilent
      simp [GetsAck, UpdateOutcome.fail, hsilent] at h
    simp [AckAgrees, UpdateOutcome.fail, UpdateOutcome.nothing, herror]
  · simp only [hcommits, true_imp_iff]
    rcases hreturns with ⟨hok, hack⟩ | ⟨hfails, hack⟩
    · refine iff_of_true ?_ hok
      rw [AckAgrees, hack, hoperations, houtbox]
      simp [hsequence, eq_comm]
    · refine iff_of_false ?_ hfails
      rintro ⟨herror, -⟩
      rw [GetsAck, hack] at h
      rw [hack, hoperations] at herror
      cases hsend : calls.sendError <;> simp [hsend] at h herror

def returningCalls : UpdateCalls :=
  ⟨true, some [], some 1, some 7, .done, .done, none, true, true⟩

def editorClient : UpdateClient := ⟨0, true, 5, some .editor, some 3, none⟩

theorem ackAgrees_returning :
    AckAgrees (handleUpdate Yjs.bytes returningCalls editorClient [97] 50) := by
  refine (ackAgrees_iff (.inr ⟨1, by decide⟩)).mpr fun _ _ _ =>
    ⟨rfl, rfl, by simp [returningCalls], rfl⟩

/-- Redis refuses the job of a row that has been committed: the client is told of an error. -/
theorem ackAgrees_fails :
    let calls := { returningCalls with enqueueDelivery := .failed }
    GetsAck (handleUpdate Yjs.bytes calls editorClient [97] 50) ∧
      ¬ AckAgrees (handleUpdate Yjs.bytes calls editorClient [97] 50) := by
  intro calls
  refine ⟨.inl (by decide), fun h => ?_⟩
  have hnone := congrArg List.length (h.1.mp (by decide)).1
  exact absurd hnone (by decide)

end Handler

end Meridian
