import Meridian.AiRequests
import Meridian.Lib.Tables

/-! What the AI endpoints may write. A transaction inserts the updates that it began with and
stamps their rows; an edit is approved if the model answered it with the right format and the
checks left it, for the document as it once was, or if the author of a proposal of that kind has
accepted it. Each answer takes a request from one such point to the next. -/
namespace Meridian

open Joins

namespace WriteTx

/-- The updates that a transaction has inserted and those that it has still to insert. -/
def batch (tx : WriteTx) : List (Option Buffer) :=
  tx.operations.map Operation.yjsUpdate ++ tx.updates.map some

def Stamped (tx : WriteTx) : Prop :=
  ∀ op ∈ tx.operations, op.source = tx.source ∧ op.userId = tx.userId

structure Advances (tx tx' : WriteTx) : Prop where
  documentId : tx'.documentId = tx.documentId
  userId : tx'.userId = tx.userId
  source : tx'.source = tx.source
  batch : tx'.batch = tx.batch
  stamped : tx.Stamped → tx'.Stamped

variable {tx tx' : WriteTx}

theorem Advances.refl (tx : WriteTx) : tx.Advances tx := ⟨rfl, rfl, rfl, rfl, id⟩

theorem Advances.of_operations (hdocument : tx'.documentId = tx.documentId)
    (huser : tx'.userId = tx.userId) (hsource : tx'.source = tx.source)
    (hupdates : tx'.updates = tx.updates) (hops : tx'.operations = tx.operations) :
    tx.Advances tx' where
  documentId := hdocument
  userId := huser
  source := hsource
  batch := by rw [WriteTx.batch, WriteTx.batch, hops, hupdates]
  stamped h := by
    rw [Stamped, hops, hsource, huser]
    exact h

theorem lock_advances (h : tx.lock = some tx') : tx.Advances tx' := by
  obtain ⟨hbegun, rfl⟩ := lock_eq_some h
  refine .of_operations rfl rfl rfl rfl ?_
  simp [operations, unpaired, isBegun_iff.mp hbegun]

theorem readClock_advances {committed : List Operation} (h : tx.readClock committed = some tx') :
    tx.Advances tx' := by
  obtain ⟨hphase, rfl⟩ := readClock_eq_some h
  refine .of_operations rfl rfl rfl rfl ?_
  simp [operations, unpaired, hphase]

theorem insertOutboxEntry_advances {id : Uuid} (h : tx.insertOutboxEntry id = some tx') :
    tx.Advances tx' := by
  obtain ⟨clock, op, update, hphase, rfl⟩ := insertOutboxEntry_eq_some h
  refine .of_operations rfl rfl rfl rfl ?_
  simp [operations, unpaired, hphase]

theorem insertOperation_advances {classify : Buffer → Option Classified} {sequence : ℕ}
    (h : tx.insertOperation classify sequence = some tx') : tx.Advances tx' := by
  unfold insertOperation at h
  split at h
  · next clock update updates hphase hupdates =>
    obtain ⟨c, -, h⟩ := Option.bind_eq_some_iff.mp h
    obtain ⟨-, h⟩ := Option.ite_none_right_eq_some.mp h
    obtain rfl := Option.some.inj h
    refine ⟨rfl, rfl, rfl, by simp [batch, operations, unpaired, hphase, hupdates], ?_⟩
    intro hstamped op hop
    simp only [operations, unpaired, List.mem_append, List.mem_singleton] at hop
    rcases hop with hop | rfl
    · exact hstamped op (List.mem_append_left _ hop)
    · exact ⟨rfl, rfl⟩
  · cases h

end WriteTx

namespace Store

variable {Y : Type} [SemilatticeSup Y] [OrderBot Y] {E : Yjs Y}

inductive TxChange (a : Access) (t : ℕ) : Option WriteTx → Option WriteTx → Prop
  | none : TxChange a t none none
  | begun (d u : Uuid) (source : OperationSource) (updates : List Buffer)
      (ha : source = .ai → a = .applyOps t d u updates) :
      TxChange a t none (some (WriteTx.begin d u source updates))
  | advances {tx tx' : WriteTx} (h : tx.Advances tx') : TxChange a t (some tx) (some tx')
  | ended (tx : WriteTx) (ha : a = .commit t ∨ a = .rollback t) : TxChange a t (some tx) none

theorem TxChange.refl (a : Access) (t : ℕ) (tx : Option WriteTx) : TxChange a t tx tx := by
  cases tx with
  | none => exact .none
  | some tx => exact .advances (.refl tx)

theorem TxChange.update {a : Access} {s : Store} {t u : ℕ} {tx : Option WriteTx}
    (h : TxChange a t (s.txs t) tx) : TxChange a u (s.txs u) (Function.update s.txs t tx u) := by
  by_cases hu : u = t
  · subst hu
    rwa [Function.update_self]
  · rw [Function.update_of_ne hu]
    exact .refl a u _

theorem txChange {s s' : Store} {a : Access} (hs : step E s a = some s') (t : ℕ) :
    TxChange a t (s.txs t) (s'.txs t) := by
  cases step_cases hs with
  | createDocument | startSnapshotJob | getLatestSnapshot | getOperationsSinceSequence
  | createSnapshot | failSnapshotJob => exact .refl _ t _
  | handleUpdate u d user update _ hnone =>
    exact .update (hnone ▸ .begun d user .human [update] (fun h => by cases h))
  | applyOps u d user binaries _ hnone =>
    exact .update (hnone ▸ .begun d user .ai binaries fun _ => rfl)
  | acquireDocumentWriteLock u tx tx' htx hl _ =>
    exact .update (htx ▸ .advances (WriteTx.lock_advances hl))
  | getMaxClockValue u tx tx' htx hr =>
    exact .update (htx ▸ .advances (WriteTx.readClock_advances hr))
  | insertOperation u sequence tx tx' htx hi _ =>
    exact .update (htx ▸ .advances (WriteTx.insertOperation_advances hi))
  | insertOutboxEntry u id tx tx' htx hi =>
    exact .update (htx ▸ .advances (WriteTx.insertOutboxEntry_advances hi))
  | commit u tx htx _ => exact .update (htx ▸ .ended tx (.inl rfl))
  | rollback u tx htx => exact .update (htx ▸ .ended tx (.inr rfl))

def AllStamped (s : Store) : Prop := ∀ t tx, s.txs t = some tx → tx.Stamped

theorem AllStamped.step {s s' : Store} {a : Access} (h : AllStamped s)
    (hs : Store.step E s a = some s') : AllStamped s' := by
  intro t tx' ht
  have hchange := txChange hs t
  rw [ht] at hchange
  generalize hold : s.txs t = old at hchange
  cases hchange with
  | begun d u source updates =>
    intro op hop
    cases hop
  | advances hadv => exact hadv.stamped (h t _ hold)

theorem operations_step {s s' : Store} {a : Access} (hs : step E s a = some s') :
    s'.operations = s.operations ∨
      ∃ t tx, a = .commit t ∧ s.txs t = some tx ∧ tx.isDone = true ∧ s' = s.commitTx t tx := by
  cases step_cases hs with
  | commit t tx ht hdone => exact .inr ⟨t, tx, rfl, ht, hdone, rfl⟩
  | _ => exact .inl rfl

end Store

def AiGoal.generates {P : Type} : AiGoal P → Bool
  | .chat _ | .proposeChat _ => true
  | .acceptProposal _ _ => false

def AiGoal.proposes {P : Type} : AiGoal P → Bool
  | .proposeChat _ => true
  | .chat _ | .acceptProposal _ _ => false

theorem AiGoal.proposes_iff {P : Type} {goal : AiGoal P} :
    goal.proposes = true ↔ ∃ message, goal = .proposeChat message := by
  cases goal <;> simp [proposes]

namespace AiServer

section Approval

variable {P Y V H : Type} [SemilatticeSup Y] [OrderBot Y] (E : Yjs Y) (docs : YjsDocs Y V)
  (parse : JsString → Option Json) (fuzzyThreshold : ℚ) (maxDocChars : ℕ)

/-- The document as it was after some number of its committed operations. -/
def ReadAt (s : Store) (documentId : Uuid) (doc : Y) : Prop :=
  ∃ log, log <+: s.documentRows documentId ∧ doc = joinOf (Store.contentOf E) log

/-- The last of the answers is the first that has the format, and the edit is what the content
check makes of it. -/
def Generated (answers : List (Option JsString)) (edit : AiEdit Y) : Prop :=
  ∃ (malformed : List (Option JsString)) (raw : JsString) (ops : List AiOp),
    answers = malformed ++ [some raw] ∧ malformed.length ≤ maxRetries ∧
    (∀ answer ∈ malformed, Malformed parse answer) ∧ validateAnswer parse raw = .ok ops ∧
    resolveContentCheck fuzzyThreshold ops (currentText docs.service maxDocChars edit.doc) =
      .ok (edit.operations, edit.rejectedOps)

/-- One more answer does not find the edit out of scope. -/
def InScope (answers : List (Option JsString)) (edit : AiEdit Y) : Prop :=
  ∃ generated answer, answers = generated ++ [answer] ∧
    Generated docs parse fuzzyThreshold maxDocChars generated edit ∧
    checkScope parse answer = .ok ()

def proposalOf (r : StagedEdit P Y H) : StagedProposal Uuid Uuid :=
  ⟨r.call.documentId, r.call.userId, r.edit.operations, diffOf docs.service maxDocChars r.edit⟩

structure StagedOk (s : Store) (r : StagedEdit P Y H) : Prop where
  proposes : r.call.goal.proposes
  inScope : InScope docs parse fuzzyThreshold maxDocChars r.call.answers r.edit
  whole : r.edit.rejectedOps = []
  readAt : ReadAt E s r.call.documentId r.edit.doc

/-- What a request may write: what the model has answered to it and the checks have left, or what
the accept check has left of an edit that the same user has staged for the same document under
the id that is accepted. -/
def Approved (s : Store) (staged : List (StagedEdit P Y H)) (call : AiCall P Y)
    (edit : AiEdit Y) : Prop :=
  ReadAt E s call.documentId edit.doc ∧ match call.goal with
  | .chat _ => InScope docs parse fuzzyThreshold maxDocChars call.answers edit
  | .proposeChat _ => False
  | .acceptProposal proposalId confirm => ∃ r ∈ staged, r.proposalId = proposalId ∧
    r.call.userId = call.userId ∧ r.call.documentId = call.documentId ∧
    StagedOk E docs parse fuzzyThreshold maxDocChars s r ∧
    ∃ doc, acceptProposal docs.service fuzzyThreshold maxDocChars edit.doc call.documentId
      call.userId (some (proposalOf docs maxDocChars r)) confirm =
        .ok ⟨doc, edit.operations, edit.rejectedOps⟩

/-- What identifies a row, apart from the numbers that the database gives it. -/
def rowKey (op : Operation) : Uuid × Uuid × Option Buffer :=
  (op.documentId, op.userId, op.yjsUpdate)

def aiRows (s : Store) : List Operation := s.operations.filter fun op => op.source = .ai

def batchRows (batch : CommittedBatch P Y H) : List (Uuid × Uuid × Option Buffer) :=
  (perOpBinaries docs batch.edit.doc batch.edit.operations).map fun binary =>
    (batch.call.documentId, batch.call.userId, some binary)

/-- A batch is one block in the log of its document, behind the operations that it was made on. -/
def Placed (s : Store) (batch : CommittedBatch P Y H) : Prop :=
  ∃ before rows after, s.documentRows batch.call.documentId = before ++ rows ++ after ∧
    rows.map rowKey = batchRows docs batch ∧
    ∃ log, log <+: before ∧ batch.edit.doc = joinOf (Store.contentOf E) log

def Reported : Option (AiPhase P Y) → List (AiEdit Y) → Prop
  | some (.enqueuing edit), edits => edits = [edit]
  | some (.ended (.applied n rejectedOps)), edits =>
    (n = 0 ∧ edits = []) ∨ ∃ edit, edits = [edit] ∧ n = edit.operations.length ∧
      rejectedOps = edit.rejectedOps
  | some (.ended (.thrown .failed)), edits => edits.length ≤ 1
  | _, edits => edits = []

def CallOk (s : Store) (staged : List (StagedEdit P Y H)) (call : AiCall P Y) : Prop :=
  match call.phase with
  | .peeking p confirm => call.answers = [] ∧ call.goal = .acceptProposal p confirm
  | .reading proposal => Peeked proposal
  | .snapshotRead proposal sn =>
    Peeked proposal ∧ Store.JobOk E s (.snapshotRead call.documentId sn)
  | .generating doc attempt => call.goal.generates ∧ ReadAt E s call.documentId doc ∧
    attempt ≤ maxRetries ∧ call.answers.length = attempt ∧
    ∀ answer ∈ call.answers, Malformed parse answer
  | .scoping edit => call.goal.generates ∧ ReadAt E s call.documentId edit.doc ∧
    (call.goal.proposes → edit.rejectedOps = []) ∧
    Generated docs parse fuzzyThreshold maxDocChars call.answers edit
  | .staging edit => call.goal.proposes ∧ ReadAt E s call.documentId edit.doc ∧
    edit.rejectedOps = [] ∧ InScope docs parse fuzzyThreshold maxDocChars call.answers edit
  | .claiming _ edit | .starting edit | .enqueuing edit =>
    Approved E docs parse fuzzyThreshold maxDocChars s staged call edit
  | .writing edit t => Approved E docs parse fuzzyThreshold maxDocChars s staged call edit ∧
    ∃ tx, s.txs t = some tx ∧ tx.documentId = call.documentId ∧ tx.userId = call.userId ∧
      tx.source = .ai ∧ tx.batch = (perOpBinaries docs edit.doc edit.operations).map some
  | .ended _ => True
where
  Peeked (proposal : Option (StagedProposal Uuid Uuid)) : Prop :=
    match proposal, call.goal with
    | some proposal, .acceptProposal proposalId _ => ∃ r ∈ staged, r.proposalId = proposalId ∧
      proposalOf docs maxDocChars r = proposal ∧ r.call.userId = call.userId ∧
      r.call.documentId = call.documentId ∧
      StagedOk E docs parse fuzzyThreshold maxDocChars s r
    | none, .chat _ | none, .proposeChat _ => call.answers = []
    | _, _ => False

end Approval

section Growth

variable {P Y V H : Type} [SemilatticeSup Y] [OrderBot Y] {E : Yjs Y} {docs : YjsDocs Y V}
  {parse : JsString → Option Json} {fuzzyThreshold : ℚ} {maxDocChars : ℕ} {s t : Store}
  {staged more : List (StagedEdit P Y H)}

def Grows (s t : Store) : Prop := ∀ d, s.documentRows d <+: t.documentRows d

theorem Grows.of_step {a : Access} (h : Store.Inv s) (hs : Store.step E s a = some t) :
    Grows s t := by
  intro d
  obtain ⟨new, hnew⟩ := Store.step_log h hs d
  exact hnew ▸ List.prefix_append _ _

theorem ReadAt.mono {d : Uuid} {doc : Y} (h : ReadAt E s d doc) (hg : Grows s t) :
    ReadAt E t d doc := by
  obtain ⟨log, hlog, rfl⟩ := h
  exact ⟨log, hlog.trans (hg d), rfl⟩

theorem StagedOk.mono {r : StagedEdit P Y H}
    (h : StagedOk E docs parse fuzzyThreshold maxDocChars s r) (hg : Grows s t) :
    StagedOk E docs parse fuzzyThreshold maxDocChars t r :=
  ⟨h.proposes, h.inScope, h.whole, h.readAt.mono hg⟩

theorem Approved.mono {call : AiCall P Y} {edit : AiEdit Y}
    (h : Approved E docs parse fuzzyThreshold maxDocChars s staged call edit) (hg : Grows s t)
    (hstaged : staged ⊆ more) :
    Approved E docs parse fuzzyThreshold maxDocChars t more call edit := by
  obtain ⟨hread, h⟩ := h
  refine ⟨hread.mono hg, ?_⟩
  split at h
  · exact h
  · exact h
  · obtain ⟨r, hr, hid, huser, hdocument, hok, haccept⟩ := h
    exact ⟨r, hstaged hr, hid, huser, hdocument, hok.mono hg, haccept⟩

theorem Placed.mono {batch : CommittedBatch P Y H} (h : Placed E docs s batch) (hg : Grows s t) :
    Placed E docs t batch := by
  obtain ⟨before, rows, after, hlog, hrows, hread⟩ := h
  obtain ⟨new, hnew⟩ := hg batch.call.documentId
  exact ⟨before, rows, after ++ new, by rw [← hnew, hlog, List.append_assoc], hrows, hread⟩

theorem CallOk.Peeked.mono {call : AiCall P Y} {proposal : Option (StagedProposal Uuid Uuid)}
    (h : CallOk.Peeked E docs parse fuzzyThreshold maxDocChars s staged call proposal)
    (hg : Grows s t) (hstaged : staged ⊆ more) :
    CallOk.Peeked E docs parse fuzzyThreshold maxDocChars t more call proposal := by
  unfold CallOk.Peeked at h ⊢
  split at h
  · obtain ⟨r, hr, hid, hproposal, huser, hdocument, hok⟩ := h
    exact ⟨r, hstaged hr, hid, hproposal, huser, hdocument, hok.mono hg⟩
  · exact h
  · exact h
  · exact h.elim

theorem CallOk.mono {call : AiCall P Y} (hstaged : staged ⊆ more)
    (h : CallOk E docs parse fuzzyThreshold maxDocChars s staged call) :
    CallOk E docs parse fuzzyThreshold maxDocChars s more call := by
  have hg : Grows s s := fun _ => List.prefix_rfl
  obtain ⟨d, u, goal, answers, phase⟩ := call
  cases phase with
  | peeking | generating | scoping | staging | ended => exact h
  | reading proposal => exact CallOk.Peeked.mono h hg hstaged
  | snapshotRead proposal sn => exact ⟨h.1.mono hg hstaged, h.2⟩
  | claiming p edit => exact Approved.mono h hg hstaged
  | starting edit => exact Approved.mono h hg hstaged
  | enqueuing edit => exact Approved.mono h hg hstaged
  | writing edit n => exact ⟨h.1.mono hg hstaged, h.2⟩

/-- A statement leaves a request alone, unless it ends the transaction of the request. -/
theorem CallOk.step {a : Access} (hinv : Store.Inv s) (hinv' : Store.Inv t)
    (hs : Store.step E s a = some t) {call : AiCall P Y}
    (hown : ∀ edit tx, call.phase = .writing edit tx → a ≠ .commit tx ∧ a ≠ .rollback tx)
    (h : CallOk E docs parse fuzzyThreshold maxDocChars s staged call) :
    CallOk E docs parse fuzzyThreshold maxDocChars t staged call := by
  have hg := Grows.of_step hinv hs
  have hsame : staged ⊆ staged := fun _ => id
  obtain ⟨d, u, goal, answers, phase⟩ := call
  cases phase with
  | peeking p confirm => exact h
  | reading proposal => exact CallOk.Peeked.mono h hg hsame
  | snapshotRead proposal sn =>
    exact ⟨h.1.mono hg hsame, fun x hx => (h.2 x hx).step hinv hinv' hs⟩
  | generating doc attempt => exact ⟨h.1, h.2.1.mono hg, h.2.2⟩
  | scoping edit => exact ⟨h.1, h.2.1.mono hg, h.2.2⟩
  | staging edit => exact ⟨h.1, h.2.1.mono hg, h.2.2⟩
  | claiming p edit => exact Approved.mono h hg hsame
  | starting edit => exact Approved.mono h hg hsame
  | enqueuing edit => exact Approved.mono h hg hsame
  | ended outcome => trivial
  | writing edit n =>
    obtain ⟨happroved, tx, htx, hdoc, huser, hsource, hbatch⟩ := h
    refine ⟨happroved.mono hg hsame, ?_⟩
    have hchange := Store.txChange hs n
    rw [htx] at hchange
    generalize hnew : t.txs n = new at hchange
    cases hchange with
    | @advances _ tx' hadv =>
      exact ⟨tx', rfl, hadv.documentId.trans hdoc, hadv.userId.trans huser,
        hadv.source.trans hsource, hadv.batch.trans hbatch⟩
    | ended tx ha =>
      obtain ⟨hcommit, hrollback⟩ := hown edit n rfl
      exact (ha.elim hcommit hrollback).elim

end Growth

section Phases

variable {P Y V H : Type} [SemilatticeSup Y] [OrderBot Y] {E : Yjs Y} {docs : YjsDocs Y V}
  {parse : JsString → Option Json} {fuzzyThreshold : ℚ} {maxDocChars : ℕ} {s : Store}
  {staged : List (StagedEdit P Y H)} {call : AiCall P Y}

/-- A request in this phase has no rows in the log and no open transaction. -/
structure Clean (phase : AiPhase P Y) : Prop where
  reported : Reported (some phase) []
  idle : ∀ edit t, phase ≠ .writing edit t

omit [SemilatticeSup Y] [OrderBot Y] in
theorem reported_thrown (error : AiFailure) :
    Reported (some (.ended (.thrown error) : AiPhase P Y)) [] := by
  cases error with
  | failed => exact Nat.zero_le 1
  | validation | check | scope => rfl

omit [SemilatticeSup Y] [OrderBot Y] in
theorem afterGeneration_clean (goal : AiGoal P) (doc : Y) (attempt : ℕ)
    (answer : Option JsString) :
    Clean (afterGeneration docs.service parse fuzzyThreshold maxDocChars goal doc attempt
      answer) := by
  unfold afterGeneration
  split
  · exact ⟨Nat.zero_le 1, by simp⟩
  · split
    · split
      · exact ⟨rfl, by simp⟩
      · exact ⟨rfl, by simp⟩
    · split
      · exact ⟨rfl, by simp⟩
      · split
        · exact ⟨rfl, by simp⟩
        · exact ⟨rfl, by simp⟩
      · split
        · exact ⟨.inl ⟨rfl, rfl⟩, by simp⟩
        · exact ⟨rfl, by simp⟩

/-- After an answer a request knows that it was malformed, or what the content check makes of
it. -/
theorem afterGeneration_ok {doc : Y} {attempt : ℕ} (hphase : call.phase = .generating doc attempt)
    (h : CallOk E docs parse fuzzyThreshold maxDocChars s staged call) (answer : Option JsString) :
    CallOk E docs parse fuzzyThreshold maxDocChars s staged { answered call answer with
      phase := afterGeneration docs.service parse fuzzyThreshold maxDocChars call.goal doc attempt
        answer } := by
  rw [CallOk, hphase] at h
  obtain ⟨hgoal, hread, hattempt, hlength, hmalformed⟩ := h
  unfold afterGeneration
  split
  · trivial
  · next raw =>
    split
    · next reason hreason =>
      split
      · trivial
      · next hne =>
        refine ⟨hgoal, hread, by omega, by simp [answered, hlength], fun answer hanswer => ?_⟩
        rcases List.mem_append.mp hanswer with hanswer | hanswer
        · exact hmalformed answer hanswer
        · exact ⟨raw, reason, List.mem_singleton.mp hanswer, hreason⟩
    · next ops hops =>
      have hgenerated {valid : List AiOp} {rejected : List RejectedOp}
          (hcheck : resolveContentCheck fuzzyThreshold ops
            (currentText docs.service maxDocChars doc) = .ok (valid, rejected)) :
          Generated docs parse fuzzyThreshold maxDocChars (call.answers ++ [some raw])
            ⟨doc, valid, rejected⟩ :=
        ⟨call.answers, raw, ops, rfl, hlength.le.trans hattempt, hmalformed, hops, hcheck⟩
      split
      · trivial
      · next hcheck _ =>
        split
        · trivial
        · next hwhole =>
          refine ⟨hgoal, hread, fun _ => ?_, hgenerated hcheck⟩
          by_contra hne
          simp [hne] at hwhole
      · next hcheck hchat =>
        split
        · trivial
        · refine ⟨hgoal, hread, fun hproposes => ?_, hgenerated hcheck⟩
          obtain ⟨m, hm⟩ := AiGoal.proposes_iff.mp hproposes
          exact (hchat m hm).elim

omit [SemilatticeSup Y] [OrderBot Y] in
theorem afterScope_clean (goal : AiGoal P) (edit : AiEdit Y) (answer : Option JsString) :
    Clean (afterScope parse goal edit answer) := by
  unfold afterScope
  split
  · exact ⟨reported_thrown _, by simp⟩
  · exact ⟨rfl, by simp⟩
  · exact ⟨rfl, by simp⟩

theorem afterScope_ok {edit : AiEdit Y} (hphase : call.phase = .scoping edit)
    (h : CallOk E docs parse fuzzyThreshold maxDocChars s staged call) (answer : Option JsString) :
    CallOk E docs parse fuzzyThreshold maxDocChars s staged { answered call answer with
      phase := afterScope parse call.goal edit answer } := by
  rw [CallOk, hphase] at h
  obtain ⟨hgoal, hread, hwhole, hgenerated⟩ := h
  unfold afterScope
  split
  · trivial
  · next hscope hpropose =>
    have hproposes : call.goal.proposes = true := by
      rw [hpropose]
      rfl
    exact ⟨hproposes, hread, hwhole hproposes, _, _, rfl, hgenerated, hscope⟩
  · next hscope hnot =>
    refine ⟨hread, ?_⟩
    obtain ⟨d, u, goal, answers, phase⟩ := call
    cases goal with
    | chat m => exact ⟨_, _, rfl, hgenerated, hscope⟩
    | proposeChat m => exact (hnot m rfl).elim
    | acceptProposal p confirm => cases hgoal

omit [SemilatticeSup Y] [OrderBot Y] in
theorem afterReading_clean (service : YjsService Y) (proposal : Option (StagedProposal Uuid Uuid))
    (doc : Y) : Clean (afterReading service fuzzyThreshold maxDocChars call proposal doc) := by
  unfold afterReading
  split
  · unfold afterRecheck
    split
    · exact ⟨rfl, by simp⟩
    · exact ⟨rfl, by simp⟩
  · exact ⟨rfl, by simp⟩

theorem afterReading_ok {proposal : Option (StagedProposal Uuid Uuid)}
    (hpeeked : CallOk.Peeked E docs parse fuzzyThreshold maxDocChars s staged call proposal)
    {doc : Y} (hread : ReadAt E s call.documentId doc) :
    CallOk E docs parse fuzzyThreshold maxDocChars s staged { call with
      phase := afterReading docs.service fuzzyThreshold maxDocChars call proposal doc } := by
  unfold CallOk.Peeked at hpeeked
  unfold afterReading
  split at hpeeked
  · next proposal p confirm hgoal =>
    simp only [hgoal]
    unfold afterRecheck
    split
    · trivial
    · next result hresult =>
      obtain ⟨r, hr, hid, rfl, huser, hdocument, hok⟩ := hpeeked
      refine ⟨hread, ?_⟩
      simp only
      exact ⟨r, hr, hid, huser, hdocument, hok, result.doc, hresult⟩
  · next hgoal =>
    exact ⟨by rw [hgoal]; rfl, hread, Nat.zero_le _, by simp [hpeeked], by simp [hpeeked]⟩
  · next hgoal =>
    exact ⟨by rw [hgoal]; rfl, hread, Nat.zero_le _, by simp [hpeeked], by simp [hpeeked]⟩
  · exact hpeeked.elim

end Phases

end AiServer

end Meridian
