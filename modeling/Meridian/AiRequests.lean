import Meridian.AiBatch
import Meridian.ProposalMachine
import Meridian.SnapshotCoverage

/-! The requests of the AI endpoints, each from the reading of its document over the calls of the
language model and the three checks to its rows in the log or to a staged proposal. They
interleave with each other, with the writers and with the snapshot jobs at every await, and what
the model answers is arbitrary. -/
namespace Meridian

def maxRetries : ℕ := 2

/-- What an AI endpoint throws. The reason of a scope violation is passed on as it was parsed;
`failed` is any exception of another kind. -/
inductive AiFailure
  | validation (reason : JsString)
  | check (error : AiError)
  | scope (reason : Json)
  | failed

/-- The status that `GlobalExceptionFilter.classify` gives it. -/
def AiFailure.statusCode : AiFailure → ℕ
  | .validation _ => 400
  | .check (.contentExistence _ _ _) | .check (.conflict _) | .check (.reconfirm _ _ _ _ _) => 409
  | .check .proposalGone => 410
  | .check .scope | .scope _ => 422
  | .failed => 500

section Answers

variable (parse : JsString → Option Json)

/-- The format check of an answer, `parse` being `JSON.parse`. -/
def validateAnswer (raw : JsString) : Except JsString (List AiOp) :=
  match parse raw with
  | none => throw (js "LLM returned a non-JSON response")
  | some parsed => validateOperations parsed

def Malformed (answer : Option JsString) : Prop :=
  ∃ raw reason, answer = some raw ∧ validateAnswer parse raw = .error reason

/-- `checkScope` with the answer of its own call, which is `none` if that throws. Whatever is not
a verdict is skipped; a property of `null` cannot be read at all. -/
def checkScope : Option JsString → Except AiFailure Unit
  | none => pure ()
  | some raw =>
    match parse (trim raw) with
    | some .null => throw .failed
    | some (.obj parsed) =>
      match Json.get parsed (js "scope_valid") with
      | some (.bool false) =>
        throw (.scope (match Json.get parsed (js "violation_reason") with
          | none | some .null => .str (js "Operations exceed the scope of the instruction")
          | some reason => reason))
      | _ => pure ()
    | _ => pure ()

end Answers

inductive AiGoal (P : Type)
  | chat (message : JsString)
  | proposeChat (message : JsString)
  | acceptProposal (proposalId : P) (confirm : Bool)

/-- The operations that have passed the content check, and the document that they were checked
against. -/
structure AiEdit (Y : Type) where
  doc : Y
  operations : List AiOp
  rejectedOps : List RejectedOp

inductive AiOutcome (P : Type)
  | applied (operationsApplied : ℕ) (rejectedOps : List RejectedOp)
  | proposed (proposalId : P) (diff : Diff)
  | thrown (error : AiFailure)

/-- A request between two of its awaits; an accept carries the proposal that it has peeked at. -/
inductive AiPhase (P Y : Type)
  | peeking (proposalId : P) (confirm : Bool)
  | reading (staged : Option (StagedProposal Uuid Uuid))
  | snapshotRead (staged : Option (StagedProposal Uuid Uuid)) (snapshot : Option Snapshot)
  | generating (doc : Y) (attempt : ℕ)
  | scoping (edit : AiEdit Y)
  | staging (edit : AiEdit Y)
  | claiming (proposalId : P) (edit : AiEdit Y)
  | starting (edit : AiEdit Y)
  | writing (edit : AiEdit Y) (tx : ℕ)
  | enqueuing (edit : AiEdit Y)
  | ended (outcome : AiOutcome P)

/-- A request, with the answers that the model has given it so far. -/
structure AiCall (P Y : Type) where
  documentId : Uuid
  userId : Uuid
  goal : AiGoal P
  answers : List (Option JsString)
  phase : AiPhase P Y

structure StagedEdit (P Y H : Type) where
  request : H
  call : AiCall P Y
  proposalId : P
  edit : AiEdit Y

structure CommittedBatch (P Y H : Type) where
  request : H
  call : AiCall P Y
  edit : AiEdit Y

/-- The store, the staged proposals `P`, the requests `H`, and for the statements the edits that
they have staged and the batches that they have committed, in order. -/
structure AiServer (P Y H : Type) where
  store : Store
  proposals : P → Option (StagedProposal Uuid Uuid)
  calls : H → Option (AiCall P Y)
  staged : List (StagedEdit P Y H)
  batches : List (CommittedBatch P Y H)

/-- The steps of the requests, named after the call that has been answered; `access` is a
statement of the transactions and jobs that are open, or begins one of another writer, and `drop`
is a decline or the end of a proposal's time. -/
inductive AiAction (P H : Type)
  | access (a : Access)
  | request (call : H) (documentId userId : Uuid) (goal : AiGoal P)
  | peekProposal (call : H)
  | getLatestSnapshot (call : H)
  | getOperationsSinceSequence (call : H)
  | callLLM (call : H) (answer : Option JsString)
  | checkScope (call : H) (answer : Option JsString)
  | stageProposal (call : H) (proposalId : P)
  | consumeProposal (call : H)
  | begin (call : H) (tx : ℕ)
  | commit (call : H)
  | rollback (call : H)
  | enqueueDelivery (call : H) (delivered : Bool)
  | fail (call : H)
  | drop (proposalId : P)

namespace AiServer

variable {P Y V H : Type}

def initial : AiServer P Y H where
  store := .initial
  proposals _ := none
  calls _ := none
  staged := []
  batches := []

/-- Statements of an AI transaction other than its end are steps of the store alone. -/
def isForeign (s : Store) : Access → Bool
  | .applyOps _ _ _ _ => false
  | .commit t | .rollback t => (s.txs t).all fun tx => tx.source = .human
  | _ => true

/-- What becomes of the answer to a call of `callLLM`: another attempt, an error, or operations
that are checked against the text; only a `chat` goes on with a part of them. -/
def afterGeneration (service : YjsService Y) (parse : JsString → Option Json) (fuzzyThreshold : ℚ)
    (maxDocChars : ℕ) (goal : AiGoal P) (doc : Y) (attempt : ℕ) :
    Option JsString → AiPhase P Y
  | none => .ended (.thrown .failed)
  | some raw =>
    match validateAnswer parse raw with
    | .error _ =>
      if attempt = maxRetries then
        .ended (.thrown (.validation (js "AI response format invalid")))
      else .generating doc (attempt + 1)
    | .ok ops =>
      match resolveContentCheck fuzzyThreshold ops (currentText service maxDocChars doc), goal with
      | .error error, _ => .ended (.thrown (.check error))
      | .ok (opsToApply, rejectedOps), .proposeChat _ =>
        if opsToApply.isEmpty || !rejectedOps.isEmpty then
          .ended (.thrown (.check (.conflict (js
            "Referenced text not found; the document may have changed. Ask the AI again."))))
        else .scoping ⟨doc, opsToApply, rejectedOps⟩
      | .ok (opsToApply, rejectedOps), _ =>
        if opsToApply.isEmpty then .ended (.applied 0 rejectedOps)
        else .scoping ⟨doc, opsToApply, rejectedOps⟩

def afterScope (parse : JsString → Option Json) (goal : AiGoal P) (edit : AiEdit Y)
    (answer : Option JsString) : AiPhase P Y :=
  match Meridian.checkScope parse answer, goal with
  | .error error, _ => .ended (.thrown error)
  | .ok (), .proposeChat _ => .staging edit
  | .ok (), _ => .starting edit

def diffOf (service : YjsService Y) (maxDocChars : ℕ) (edit : AiEdit Y) : Diff :=
  ⟨currentText service maxDocChars edit.doc,
    computeAfterText service maxDocChars edit.doc edit.operations⟩

def afterRecheck (service : YjsService Y) (fuzzyThreshold : ℚ) (maxDocChars : ℕ) (call : AiCall P Y)
    (proposalId : P) (confirm : Bool) (proposal : StagedProposal Uuid Uuid) (doc : Y) :
    AiPhase P Y :=
  match Meridian.acceptProposal service fuzzyThreshold maxDocChars doc call.documentId
    call.userId (some proposal) confirm with
  | .error error => .ended (.thrown (.check error))
  | .ok result => .claiming proposalId ⟨doc, result.operations, result.rejectedOps⟩

def afterReading (service : YjsService Y) (fuzzyThreshold : ℚ) (maxDocChars : ℕ)
    (call : AiCall P Y) (staged : Option (StagedProposal Uuid Uuid)) (doc : Y) : AiPhase P Y :=
  match staged, call.goal with
  | some proposal, .acceptProposal proposalId confirm =>
    afterRecheck service fuzzyThreshold maxDocChars call proposalId confirm proposal doc
  | _, _ => .generating doc 0

variable [SemilatticeSup Y] [OrderBot Y] [DecidableEq P] [DecidableEq H] (E : Yjs Y)
  (docs : YjsDocs Y V) (parse : JsString → Option Json) (fuzzyThreshold : ℚ) (maxDocChars : ℕ)

def setPhase (s : AiServer P Y H) (h : H) (call : AiCall P Y) (phase : AiPhase P Y) :
    AiServer P Y H :=
  { s with calls := Function.update s.calls h (some { call with phase := phase }) }

def setProposal (s : AiServer P Y H) (p : P) (proposal : Option (StagedProposal Uuid Uuid)) :
    AiServer P Y H :=
  { s with proposals := Function.update s.proposals p proposal }

def answered (call : AiCall P Y) (answer : Option JsString) : AiCall P Y :=
  { call with answers := call.answers ++ [answer] }

def advance (s : AiServer P Y H) (h : H) (call : AiCall P Y) : AiAction P H → AiPhase P Y →
    Option (AiServer P Y H)
  | .peekProposal _, .peeking p _ =>
    match s.proposals p with
    | some proposal =>
      -- another author's proposal is answered like one that is gone
      if proposal.documentId ≠ call.documentId ∨ proposal.authorId ≠ call.userId then
        some (s.setPhase h call (.ended (.thrown (.check .proposalGone))))
      else some (s.setPhase h call (.reading (some proposal)))
    | none => some (s.setPhase h call (.ended (.thrown (.check .proposalGone))))
  | .getLatestSnapshot _, .reading staged =>
    some (s.setPhase h call (.snapshotRead staged (s.store.latestSnapshot call.documentId)))
  | .getOperationsSinceSequence _, .snapshotRead staged sn =>
    some (s.setPhase h call (afterReading docs.service fuzzyThreshold maxDocChars call staged
      (Store.replay E sn (Meridian.getOperationsSinceSequence s.store.operations call.documentId
        (afterSequence sn)))))
  | .callLLM _ answer, .generating doc attempt =>
    some (s.setPhase h (answered call answer)
      (afterGeneration docs.service parse fuzzyThreshold maxDocChars call.goal doc attempt answer))
  | .checkScope _ answer, .scoping edit =>
    some (s.setPhase h (answered call answer) (afterScope parse call.goal edit answer))
  | .stageProposal _ p, .staging edit =>
    let diff := diffOf docs.service maxDocChars edit
    some { (s.setProposal p (some ⟨call.documentId, call.userId, edit.operations, diff⟩)).setPhase
        h call (.ended (.proposed p diff)) with
      staged := s.staged ++ [⟨h, call, p, edit⟩] }
  | .consumeProposal _, .claiming p edit =>
    match s.proposals p with
    | none => some (s.setPhase h call (.ended (.thrown (.check .proposalGone))))
    | some _ =>
      some ((s.setProposal p none).setPhase h call
        (if edit.operations.isEmpty then .ended (.applied 0 edit.rejectedOps) else .starting edit))
  | .begin _ t, .starting edit =>
    (s.store.step E (.applyOps t call.documentId call.userId
      (perOpBinaries docs edit.doc edit.operations))).map fun store =>
        { s.setPhase h call (.writing edit t) with store := store }
  | .commit _, .writing edit t =>
    (s.store.step E (.commit t)).map fun store =>
      { s.setPhase h call (.enqueuing edit) with
        store := store
        batches := s.batches ++ [⟨h, call, edit⟩] }
  | .rollback _, .writing _ t =>
    (s.store.step E (.rollback t)).map fun store =>
      { s.setPhase h call (.ended (.thrown .failed)) with store := store }
  | .enqueueDelivery _ delivered, .enqueuing edit =>
    some (s.setPhase h call (.ended
      (if delivered then .applied edit.operations.length edit.rejectedOps else .thrown .failed)))
  | .fail _, .writing _ _ | .fail _, .enqueuing _ | .fail _, .ended _ => none
  | .fail _, _ => some (s.setPhase h call (.ended (.thrown .failed)))
  | _, _ => none

def opening : AiGoal P → AiPhase P Y
  | .acceptProposal p confirm => .peeking p confirm
  | .chat _ | .proposeChat _ => .reading none

end AiServer

def AiAction.call? {P H : Type} : AiAction P H → Option H
  | .access _ | .request _ _ _ _ | .drop _ => none
  | .peekProposal h | .getLatestSnapshot h | .getOperationsSinceSequence h | .callLLM h _
  | .checkScope h _ | .stageProposal h _ | .consumeProposal h | .begin h _ | .commit h
  | .rollback h | .enqueueDelivery h _ | .fail h => some h

namespace AiServer

variable {P Y V H : Type} [SemilatticeSup Y] [OrderBot Y] [DecidableEq P] [DecidableEq H]
  (E : Yjs Y) (docs : YjsDocs Y V) (parse : JsString → Option Json) (fuzzyThreshold : ℚ)
  (maxDocChars : ℕ)

def step (s : AiServer P Y H) (a : AiAction P H) : Option (AiServer P Y H) :=
  match a with
  | .access a =>
    if isForeign s.store a then (s.store.step E a).map fun store => { s with store := store }
    else none
  | .request h d u goal =>
    if (s.calls h).isNone then some (s.setPhase h ⟨d, u, goal, [], opening goal⟩ (opening goal))
    else none
  | .drop p => some (s.setProposal p none)
  | a => a.call?.bind fun h => (s.calls h).bind fun call =>
    advance E docs parse fuzzyThreshold maxDocChars s h call a call.phase

abbrev Reachable : AiServer P Y H → Prop :=
  Runs.Reachable (step E docs parse fuzzyThreshold maxDocChars) fun s => s = initial

end AiServer

end Meridian
