import Meridian.OutboxMachine
import Meridian.SnapshotCoverage

/-! A client joins a document while its operations are being committed, compacted and
published. The join enters the room and subscribes before it reads the snapshot and the
operations after it, so whatever is committed too late for the reads is published late
enough for the relay. -/
namespace Meridian

/-- The id of a gateway process: the bytes of a random uuid, whose version nibble is 4. -/
structure InstanceId where
  bytes : Buffer
  length_eq : bytes.length = 16
  version : bytes[6]?.map (fun b => b.toNat / 16) = some 4

/-- No instance takes an outbox frame for its own echo. -/
theorem InstanceId.ne_outboxFrameHeader (i : InstanceId) : outboxFrameHeader ≠ i.bytes := by
  intro h
  have hv := i.version
  rw [← h] at hv
  exact absurd hv (by decide)

def relay (instanceId : InstanceId) (frame : Buffer) : Option Buffer :=
  if frame.take 16 = instanceId.bytes then none else some (frame.drop 16)

theorem relay_outboxFrame (i : InstanceId) (payload : Buffer) :
    relay i (outboxFrameHeader ++ payload) = some payload := by
  have htake : (outboxFrameHeader ++ payload).take 16 = outboxFrameHeader :=
    List.take_left' (by simp [outboxFrameHeader])
  have hdrop : (outboxFrameHeader ++ payload).drop 16 = payload :=
    List.drop_left' (by simp [outboxFrameHeader])
  rw [relay, htake, hdrop, if_neg i.ne_outboxFrameHeader]

/-- The message that ends a join; the presence roster in it is left out. -/
structure InitialState where
  snapshot : Option Buffer
  delta : List Operation

/-- A join between two of its awaits. The presence calls between the subscription and
the snapshot touch nothing that is modelled here. -/
inductive JoinPhase
  | connected
  | subscribing
  | docSubscribed
  | subscribed
  | snapshotRead (snapshot : Option Snapshot)
  | joined (state : InitialState)

def JoinPhase.inRoom : JoinPhase → Bool
  | .connected => false
  | _ => true

def JoinPhase.isSubscribed : JoinPhase → Bool
  | .subscribed | .snapshotRead _ | .joined _ => true
  | _ => false

/-- The database, the channel of the document at the joining instance, the join, the
binary frames sent to its socket, and every outbox row published so far. -/
structure Join where
  store : Store
  subscribedChannel : Bool
  listeners : ℕ
  phase : JoinPhase
  sent : List Buffer
  published : List OutboxRow

/-- The steps of the join and of everything around it. `otherHandlers` is whatever the
other handlers of the instance do to the channel of the document. -/
inductive JoinAction
  | access (a : Access)
  | otherHandlers (subscribedChannel : Bool) (listeners : ℕ)
  | enterRoom
  | subscribeDoc
  | subscribePresence
  | getLatestSnapshot
  | getOperationsSinceSequence
  | publishRow (index : ℕ)
  | broadcast (update : Buffer)
  | fanOut (update : Buffer)

namespace Join

variable {Y : Type} [SemilatticeSup Y] [OrderBot Y] {E : Yjs Y} {instanceId : InstanceId}
  {d : Uuid}

def initial : Join where
  store := Store.initial
  subscribedChannel := false
  listeners := 0
  phase := .connected
  sent := []
  published := []

def deliver (instanceId : InstanceId) (s : Join) (frame : Buffer) : Join :=
  if s.phase.inRoom then
    { s with sent := s.sent ++ (List.replicate s.listeners (relay instanceId frame)).reduceOption }
  else s

def step (E : Yjs Y) (instanceId : InstanceId) (documentId : Uuid) (s : Join) :
    JoinAction → Option Join
  | .access a => (Store.step E s.store a).map fun store => { s with store := store }
  | .otherHandlers subscribedChannel listeners =>
    some { s with subscribedChannel := subscribedChannel, listeners := listeners }
  | .enterRoom =>
    match s.phase with
    | .connected =>
      some { s with phase := if s.subscribedChannel then .subscribed else .subscribing }
    | _ => none
  | .subscribeDoc =>
    match s.phase with
    | .subscribing => some { s with phase := .docSubscribed, listeners := s.listeners + 1 }
    | _ => none
  | .subscribePresence =>
    match s.phase with
    | .docSubscribed => some { s with phase := .subscribed, subscribedChannel := true }
    | _ => none
  | .getLatestSnapshot =>
    match s.phase with
    | .subscribed => some { s with phase := .snapshotRead (s.store.latestSnapshot documentId) }
    | _ => none
  | .getOperationsSinceSequence =>
    match s.phase with
    | .snapshotRead snapshot =>
      let delta := Meridian.getOperationsSinceSequence s.store.operations documentId
        (afterSequence snapshot)
      some { s with phase := .joined ⟨snapshot.map Snapshot.contentBlob, delta⟩ }
    | _ => none
  | .publishRow index =>
    s.store.outbox[index]?.map fun row =>
      let s' := { s with published := row :: s.published }
      if row.documentId = documentId then
        s'.deliver instanceId (outboxFrameHeader ++ row.payload)
      else s'
  | .broadcast update => some (s.deliver instanceId (outboxFrameHeader ++ update))
  | .fanOut update =>
    some (if s.phase.inRoom then { s with sent := s.sent ++ [update] } else s)

/-- The instance stays subscribed to the document once the join has passed that step. -/
def StaysSubscribed (E : Yjs Y) (instanceId : InstanceId) (documentId : Uuid) (s : Join)
    (a : JoinAction) : Prop :=
  ∀ t ∈ step E instanceId documentId s a, t.phase.isSubscribed = true → 0 < t.listeners

/-- An operation is part of an initial state, in its snapshot or in its delta. -/
def Covered (E : Yjs Y) (init : InitialState) (op : Operation) : Prop :=
  (∃ blob ∈ init.snapshot, Store.contentOf E op ≤ E.content blob) ∨ op ∈ init.delta

/-- At the second read every committed operation is in the snapshot or in the delta. -/
theorem covered_of_read {s : Store} (h : Store.Inv s) {sn : Option Snapshot}
    (hsn : Store.JobOk E s (.snapshotRead d sn)) {op : Operation} (hop : op ∈ s.documentRows d) :
    Covered E ⟨sn.map Snapshot.contentBlob,
      getOperationsSinceSequence s.operations d (afterSequence sn)⟩ op := by
  by_cases hafter : afterSequence sn < op.operationSequence
  · right
    rw [Store.getOperationsSinceSequence_eq h]
    exact List.mem_filter.mpr ⟨hop, decide_eq_true hafter⟩
  · left
    cases sn with
    | none =>
      have := (h.bound op (Store.mem_documentRows.mp hop).1).1
      exact (hafter this).elim
    | some x =>
      refine ⟨x.contentBlob, rfl, ?_⟩
      rw [(hsn x rfl).content]
      exact Joins.le_joinOf _ (List.mem_filter.mpr ⟨hop, decide_eq_true (not_lt.mp hafter)⟩)

/-- What the join has read so far, and that nothing committed since is lost: an operation
that the initial state does not hold has its row published to this socket. -/
def PhaseOk (E : Yjs Y) (d : Uuid) (s : Join) : Prop :=
  match s.phase with
  | .snapshotRead sn => Store.JobOk E s.store (.snapshotRead d sn)
  | .joined init => ∀ op ∈ s.store.documentRows d, Covered E init op ∨
      ∀ row ∈ s.published, Carries row op → row.payload ∈ s.sent
  | _ => True

structure Inv (E : Yjs Y) (d : Uuid) (s : Join) : Prop where
  store : Store.Reachable E s.store
  listening : s.phase.isSubscribed = true → 0 < s.listeners
  published : ∀ row ∈ s.published, row ∈ s.store.outbox
  phase : PhaseOk E d s

theorem inv_initial : Inv E d initial where
  store := .start rfl
  listening h := by cases h
  published row hrow := by simp [initial] at hrow
  phase := trivial

theorem JoinPhase.inRoom_of_isSubscribed {p : JoinPhase} (h : p.isSubscribed = true) :
    p.inRoom = true := by
  cases p <;> first | rfl | cases h

theorem deliver_sent {s : Join} (hp : s.phase.isSubscribed = true) (hl : 0 < s.listeners)
    (payload : Buffer) :
    payload ∈ (s.deliver instanceId (outboxFrameHeader ++ payload)).sent := by
  rw [deliver, if_pos (JoinPhase.inRoom_of_isSubscribed hp), relay_outboxFrame]
  apply List.mem_append_right
  simp [List.reduceOption, Nat.pos_iff_ne_zero.mp hl]

theorem deliver_eq (instanceId : InstanceId) (s : Join) (frame : Buffer) :
    ∃ more, s.deliver instanceId frame = { s with sent := s.sent ++ more } := by
  unfold deliver
  split
  · exact ⟨_, rfl⟩
  · exact ⟨[], by simp⟩

theorem Inv.send {s : Join} (h : Inv E d s) (more : List Buffer) :
    Inv E d { s with sent := s.sent ++ more } := by
  refine { h with phase := ?_ }
  have hp := h.phase
  unfold PhaseOk at hp ⊢
  dsimp only
  split
  · next sn hs =>
    rw [hs] at hp
    exact hp
  · next init hs =>
    rw [hs] at hp
    exact fun op hop => (hp op hop).imp_right fun hr row hrow hc =>
      List.mem_append_left _ (hr row hrow hc)
  · trivial

/-- A database access keeps the invariant: a row that is committed only now has not been
published before. -/
theorem Inv.access {s : Join} (h : Inv E d s) {a : Access} {store : Store}
    (hs : Store.step E s.store a = some store) : Inv E d { s with store := store } := by
  have hstore : Store.Reachable E store := .next h.store trivial hs
  have hinv := Store.Reachable.inv h.store
  have hinv' := Store.Reachable.inv hstore
  refine ⟨hstore, h.listening, fun row hrow => ?_, ?_⟩
  · exact Store.outbox_step hs row (h.published row hrow)
  · have hp := h.phase
    unfold PhaseOk at hp ⊢
    dsimp only
    split
    · next sn hphase =>
      rw [hphase] at hp
      exact hp.step hinv hinv' hs
    · next init hphase =>
      rw [hphase] at hp
      obtain ⟨new, hnew⟩ := Store.step_log hinv hs d
      intro op hop
      have hchain := hinv'.chain d
      rw [hnew] at hchain hop
      rcases List.mem_append.mp hop with hold | hop
      · exact hp op hold
      · refine .inr fun row hrow hc => ?_
        obtain ⟨old, hold, hcold⟩ := Store.Reachable.rowsCarried h.store row (h.published row hrow)
        have hd : old.documentId = d := by
          rw [← hcold.2.1, hc.2.1]
          exact (Store.mem_documentRows.mp (hnew ▸ List.mem_append_right _ hop)).2
        have hbefore := (List.pairwise_append.mp hchain).2.2 old
          (Store.mem_documentRows.mpr ⟨hold, hd⟩) op hop
        have := hbefore.1
        have := hc.1
        have := hcold.1
        omega
    · trivial

theorem Inv.move {s : Join} (h : Inv E d s) {phase : JoinPhase} {subscribedChannel : Bool}
    {listeners : ℕ} (hlistening : phase.isSubscribed = true → 0 < listeners)
    (hphase : PhaseOk E d { s with phase := phase }) :
    Inv E d { s with
      phase := phase, subscribedChannel := subscribedChannel, listeners := listeners } where
  store := h.store
  listening := hlistening
  published := h.published
  phase := hphase

theorem Inv.publish {s : Join} (h : Inv E d s) {row : OutboxRow} (hrow : row ∈ s.store.outbox)
    (hsent : s.phase.isSubscribed = true → ∀ op ∈ s.store.documentRows d, Carries row op →
      row.payload ∈ s.sent) : Inv E d { s with published := row :: s.published } := by
  refine ⟨h.store, h.listening, ?_, ?_⟩
  · intro r hr
    rcases List.mem_cons.mp hr with rfl | hr
    · exact hrow
    · exact h.published r hr
  · have hp := h.phase
    unfold PhaseOk at hp ⊢
    dsimp only
    split
    · next sn hs =>
      rw [hs] at hp
      exact hp
    · next init hs =>
      rw [hs] at hp
      refine fun op hop => (hp op hop).imp_right fun hr r hmem hc => ?_
      rcases List.mem_cons.mp hmem with rfl | hmem
      · exact hsent (by rw [hs]; rfl) op hop hc
      · exact hr r hmem hc
    · trivial

theorem Inv.publishRow {s : Join} (h : Inv E d s) {row : OutboxRow}
    (hrow : row ∈ s.store.outbox) :
    Inv E d ({ s with published := row :: s.published }.deliver instanceId
      (outboxFrameHeader ++ row.payload)) := by
  have hnew : s.phase.isSubscribed = true →
      row.payload ∈ (s.deliver instanceId (outboxFrameHeader ++ row.payload)).sent :=
    fun hp => deliver_sent hp (h.listening hp) row.payload
  have hsent : ({ s with published := row :: s.published }.deliver instanceId
      (outboxFrameHeader ++ row.payload)).sent =
      (s.deliver instanceId (outboxFrameHeader ++ row.payload)).sent := by
    unfold deliver
    dsimp only
    split <;> rfl
  obtain ⟨more, hmore⟩ := deliver_eq instanceId
    { s with published := row :: s.published } (outboxFrameHeader ++ row.payload)
  rw [← hsent, hmore] at hnew
  rw [hmore]
  exact (h.send more).publish hrow fun hp _ _ _ => hnew hp

theorem Inv.publishOther {s : Join} (h : Inv E d s) {row : OutboxRow} (hrow : row ∈ s.store.outbox)
    (hd : row.documentId ≠ d) : Inv E d { s with published := row :: s.published } :=
  h.publish hrow fun _ _ hop hc =>
    (hd (hc.2.1.trans (Store.mem_documentRows.mp hop).2)).elim

theorem inv_step {s s' : Join} {a : JoinAction} (h : Inv E d s)
    (hok : StaysSubscribed E instanceId d s a) (hs : step E instanceId d s a = some s') :
    Inv E d s' := by
  have hlistening := hok s' hs
  cases a with
  | access a =>
    obtain ⟨store, hstore, rfl⟩ := Option.map_eq_some_iff.mp hs
    exact h.access hstore
  | otherHandlers subscribedChannel listeners =>
    obtain rfl := Option.some.inj hs
    exact h.move hlistening h.phase
  | enterRoom =>
    simp only [step] at hs
    split at hs
    · obtain rfl := Option.some.inj hs
      exact h.move hlistening (by unfold PhaseOk; dsimp only; cases s.subscribedChannel <;> trivial)
    · cases hs
  | subscribeDoc =>
    simp only [step] at hs
    split at hs
    · obtain rfl := Option.some.inj hs
      exact h.move hlistening trivial
    · cases hs
  | subscribePresence =>
    simp only [step] at hs
    split at hs
    · obtain rfl := Option.some.inj hs
      exact h.move hlistening trivial
    · cases hs
  | getLatestSnapshot =>
    simp only [step] at hs
    split at hs
    · obtain rfl := Option.some.inj hs
      exact h.move hlistening ((Store.Reachable.snapshotInv h.store).latest d)
    · cases hs
  | getOperationsSinceSequence =>
    simp only [step] at hs
    split at hs
    · next sn hphase =>
      obtain rfl := Option.some.inj hs
      have hsn : Store.JobOk E s.store (.snapshotRead d sn) := by
        have := h.phase
        unfold PhaseOk at this
        rwa [hphase] at this
      exact h.move hlistening fun op hop =>
        .inl (covered_of_read (Store.Reachable.inv h.store) hsn hop)
    · cases hs
  | publishRow index =>
    obtain ⟨row, hrow, rfl⟩ := Option.map_eq_some_iff.mp hs
    have hmem := List.mem_of_getElem? hrow
    dsimp only
    split
    · exact h.publishRow hmem
    · next hd => exact h.publishOther hmem hd
  | broadcast update =>
    obtain rfl := Option.some.inj hs
    obtain ⟨more, hmore⟩ := deliver_eq instanceId s (outboxFrameHeader ++ update)
    rw [hmore]
    exact h.send more
  | fanOut update =>
    simp only [step] at hs
    split at hs
    · obtain rfl := Option.some.inj hs
      exact h.send [update]
    · obtain rfl := Option.some.inj hs
      exact h

/-- A joiner never misses an edit: once every outbox row of the document is published,
each committed operation is in the initial state or has been sent to the socket. -/
theorem join_misses_nothing {s : Join} {init : InitialState}
    (h : Runs.Reach (step E instanceId d) (fun s => s = initial) (StaysSubscribed E instanceId d) s)
    (hjoined : s.phase = .joined init)
    (hpublished : ∀ row ∈ s.store.outbox, row.documentId = d → row ∈ s.published) :
    ∀ op ∈ s.store.operations, op.documentId = d →
      Covered E init op ∨ ∃ update ∈ op.yjsUpdate, update ∈ s.sent := by
  have hinv : Inv E d s :=
    Runs.Reach.invariant (fun _ hs => hs ▸ inv_initial)
      (fun _ _ _ hi hok hs => inv_step hi hok hs) h
  intro op hop hd
  have hphase := hinv.phase
  rw [PhaseOk, hjoined] at hphase
  obtain ⟨row, hrow, hcarries⟩ := (Store.Reachable.inv hinv.store).paired op hop
  rcases hphase op (Store.mem_documentRows.mpr ⟨hop, hd⟩) with hcovered | hsent
  · exact .inl hcovered
  · have hpub := hpublished row hrow (hcarries.2.1.trans hd)
    exact .inr ⟨row.payload, hcarries.2.2, hsent row hpub hcarries⟩

def someInstance : InstanceId :=
  ⟨[0, 0, 0, 0, 0, 0, 0x40, 0, 0, 0, 0, 0, 0, 0, 0, 0], rfl, rfl⟩

/-- Two writers of the document: one commits before the join reads, one after it. -/
def lateWriter : List JoinAction :=
  (Store.twoWriters.take 10).map .access ++
    [.enterRoom, .subscribeDoc, .publishRow 0, .subscribePresence, .getLatestSnapshot,
      .getOperationsSinceSequence] ++
    (Store.twoWriters.drop 10).map .access ++ [.publishRow 1, .publishRow 2]

instance (s : Join) (a : JoinAction) : Decidable (StaysSubscribed E instanceId d s a) :=
  inferInstanceAs (Decidable (∀ t ∈ step E instanceId d s a, _))

theorem join_lateWriter : ∃ s,
    Runs.exec (step Yjs.bytes someInstance 7) initial lateWriter = some s ∧
    s.sent = [[4], [5], [3]] ∧ ∃ init, s.phase = .joined init ∧ init.delta.length = 2 ∧
    ∀ op ∈ s.store.operations, op.documentId = 7 →
      Covered Yjs.bytes init op ∨ ∃ update ∈ op.yjsUpdate, update ∈ s.sent := by
  have hf : Runs.Follows (step Yjs.bytes someInstance 7)
      (StaysSubscribed Yjs.bytes someInstance 7) initial lateWriter := by decide
  obtain ⟨s, hs, hsent, init, hinit, hdelta, hpub⟩ : ∃ s,
      Runs.exec (step Yjs.bytes someInstance 7) initial lateWriter = some s ∧
      s.sent = [[4], [5], [3]] ∧ ∃ init, s.phase = .joined init ∧ init.delta.length = 2 ∧
      s.published = s.store.outbox.reverse := ⟨_, rfl, rfl, _, rfl, rfl, rfl⟩
  refine ⟨s, hs, hsent, init, hinit, hdelta, ?_⟩
  exact join_misses_nothing (Runs.Reach.exec (.start rfl) hf hs) hinit
    fun row hrow _ => hpub ▸ List.mem_reverse.mpr hrow

end Join

end Meridian
