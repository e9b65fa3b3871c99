import Meridian.JoinMachine

/-! The clients of a document converge. Each joins at its own time on its own instance, while
people write, the AI writes, snapshots are taken and rows are published in any order. A client
that has joined holds the committed document once every row is published, and nothing else:
what two of them hold is the same, and the same as what the server rebuilds. -/
namespace Meridian

open Joins

def InitialState.doc {Y : Type} [SemilatticeSup Y] [OrderBot Y] (E : Yjs Y)
    (init : InitialState) : Y :=
  init.delta.foldl (fun doc op => (op.yjsUpdate.map (E.applyUpdate doc)).getD doc)
    ((init.snapshot.map (E.applyUpdate ⊥)).getD ⊥)

namespace Join

variable {Y : Type} [SemilatticeSup Y] [OrderBot Y] {E : Yjs Y} {instanceId : InstanceId}
  {d : Uuid}

def Committed (s : Store) (documentId : Uuid) (update : Buffer) : Prop :=
  ∃ op ∈ s.documentRows documentId, op.yjsUpdate = some update

instance (s : Store) (documentId : Uuid) (update : Buffer) :
    Decidable (Committed s documentId update) :=
  inferInstanceAs (Decidable (∃ op ∈ s.documentRows documentId, op.yjsUpdate = some update))

/-- Both ways past the outbox carry updates that have been committed before. -/
def SendsCommitted (documentId : Uuid) (s : Join) : JoinAction → Prop
  | .broadcast update | .fanOut update => Committed s.store documentId update
  | _ => True

instance SendsCommitted.decidable (documentId : Uuid) (s : Join) :
    ∀ a, Decidable (SendsCommitted documentId s a)
  | .broadcast _ | .fanOut _ => inferInstanceAs (Decidable (Committed _ _ _))
  | .access _ | .otherHandlers _ _ | .enterRoom | .subscribeDoc | .subscribePresence
  | .getLatestSnapshot | .getOperationsSinceSequence | .publishRow _ => isTrue trivial

theorem InitialState.doc_eq (init : InitialState) :
    init.doc E = ((init.snapshot.map E.content).getD ⊥) ⊔
      joinOf (Store.contentOf E) init.delta := by
  have hstep : ∀ (doc : Y) (op : Operation),
      (op.yjsUpdate.map (E.applyUpdate doc)).getD doc = doc ⊔ Store.contentOf E op := by
    intro doc op
    cases hu : op.yjsUpdate <;> simp [Store.contentOf, hu, Yjs.applyUpdate]
  have hbase : (init.snapshot.map (E.applyUpdate ⊥)).getD ⊥ =
      (init.snapshot.map E.content).getD ⊥ := by
    cases init.snapshot <;> simp [Yjs.applyUpdate]
  simp only [InitialState.doc, hstep, hbase, foldl_eq]

def committedDoc (E : Yjs Y) (s : Store) (documentId : Uuid) : Y :=
  joinOf (Store.contentOf E) (s.documentRows documentId)

theorem Committed.le {s : Store} {update : Buffer} (h : Committed s d update) :
    E.content update ≤ committedDoc E s d := by
  obtain ⟨op, hop, hu⟩ := h
  have hle := le_joinOf (Store.contentOf E) hop
  rwa [Store.contentOf, hu] at hle

theorem documentRows_step {s s' : Store} {a : Access} (h : Store.Inv s)
    (hs : Store.step E s a = some s') {op : Operation} (hop : op ∈ s.documentRows d) :
    op ∈ s'.documentRows d := by
  obtain ⟨new, hnew⟩ := Store.step_log h hs d
  rw [hnew]
  exact List.mem_append_left _ hop

theorem Committed.step {s s' : Store} {a : Access} (h : Store.Inv s)
    (hs : Store.step E s a = some s') {update : Buffer} (hc : Committed s d update) :
    Committed s' d update := by
  obtain ⟨op, hop, hu⟩ := hc
  exact ⟨op, documentRows_step h hs hop, hu⟩

/-- What the client holds of the document: an initial state no larger than what is committed,
and only committed updates. -/
structure Within (E : Yjs Y) (d : Uuid) (s : Join) : Prop where
  sent : ∀ update ∈ s.sent, Committed s.store d update
  snapshot : ∀ init, s.phase = .joined init → ∀ blob ∈ init.snapshot,
    E.content blob ≤ committedDoc E s.store d
  delta : ∀ init, s.phase = .joined init → ∀ op ∈ init.delta, op ∈ s.store.documentRows d

theorem mem_deliver {s : Join} {payload update : Buffer}
    (h : update ∈ (s.deliver instanceId (outboxFrameHeader ++ payload)).sent) :
    update ∈ s.sent ∨ update = payload := by
  unfold deliver at h
  split at h
  · rw [relay_outboxFrame] at h
    rcases List.mem_append.mp h with h | h
    · exact .inl h
    · simp only [List.reduceOption, List.mem_filterMap, List.mem_replicate, id_eq] at h
      obtain ⟨_, ⟨_, rfl⟩, heq⟩ := h
      exact .inr (Option.some.inj heq).symm
  · exact .inl h

theorem committedDoc_mono {s s' : Store} {a : Access} (h : Store.Inv s)
    (hs : Store.step E s a = some s') : committedDoc E s d ≤ committedDoc E s' d :=
  joinOf_le fun _ hop => le_joinOf _ (documentRows_step h hs hop)

theorem within_initial : Within E d initial where
  sent update h := by simp [initial] at h
  snapshot init h := by cases h
  delta init h := by cases h

theorem Within.access {s : Join} (h : Within E d s) (hinv : Store.Inv s.store) {a : Access}
    {store : Store} (hs : Store.step E s.store a = some store) :
    Within E d { s with store := store } where
  sent update hu := (h.sent update hu).step hinv hs
  snapshot init hp blob hb := (h.snapshot init hp blob hb).trans (committedDoc_mono hinv hs)
  delta init hp op hop := documentRows_step hinv hs (h.delta init hp op hop)

theorem Within.sendAll {s : Join} (h : Within E d s) {sent : List Buffer}
    {published : List OutboxRow}
    (hsent : ∀ update ∈ sent, update ∈ s.sent ∨ Committed s.store d update) :
    Within E d { s with sent := sent, published := published } where
  sent update hu := (hsent update hu).elim (h.sent update) id
  snapshot := h.snapshot
  delta := h.delta

theorem Within.move {s : Join} (h : Within E d s) {phase : JoinPhase} {subscribedChannel : Bool}
    {listeners : ℕ} (hphase : ∀ init, phase ≠ .joined init) :
    Within E d { s with
      phase := phase, subscribedChannel := subscribedChannel, listeners := listeners } where
  sent := h.sent
  snapshot init hp := absurd hp (hphase init)
  delta init hp := absurd hp (hphase init)

theorem Within.read {s : Join} (h : Within E d s) (hinv : Store.Inv s.store)
    {sn : Option Snapshot} (hsn : Store.JobOk E s.store (.snapshotRead d sn)) :
    Within E d { s with phase := .joined ⟨sn.map Snapshot.contentBlob,
      getOperationsSinceSequence s.store.operations d (afterSequence sn)⟩ } where
  sent := h.sent
  snapshot init hp blob hb := by
    cases hp
    obtain ⟨x, hx, rfl⟩ := Option.map_eq_some_iff.mp hb
    rw [(hsn x hx).content]
    exact joinOf_le fun op hop => le_joinOf _ (List.mem_filter.mp hop).1
  delta init hp op hop := by
    cases hp
    rw [Store.getOperationsSinceSequence_eq hinv] at hop
    exact (List.mem_filter.mp hop).1

theorem Within.deliver {s : Join} (h : Within E d s) {payload : Buffer}
    (hcommitted : Committed s.store d payload) :
    Within E d (s.deliver instanceId (outboxFrameHeader ++ payload)) := by
  have hmem := @mem_deliver instanceId s payload
  obtain ⟨more, hmore⟩ := deliver_eq instanceId s (outboxFrameHeader ++ payload)
  rw [hmore] at hmem ⊢
  refine h.sendAll fun update hu => (hmem hu).imp_right ?_
  rintro rfl
  exact hcommitted

theorem committed_of_row {s : Store} (h : Store.Reachable E s) {row : OutboxRow}
    (hrow : row ∈ s.outbox) : Committed s row.documentId row.payload := by
  obtain ⟨op, hop, hc⟩ := Store.Reachable.rowsCarried h row hrow
  exact ⟨op, Store.mem_documentRows.mpr ⟨hop, hc.2.1.symm⟩, hc.2.2⟩

theorem within_step {s s' : Join} {a : JoinAction} (hinv : Inv E d s) (h : Within E d s)
    (hok : SendsCommitted d s a) (hs : step E instanceId d s a = some s') : Within E d s' := by
  have hstore := Store.Reachable.inv hinv.store
  cases a with
  | access a =>
    obtain ⟨store, hstep, rfl⟩ := Option.map_eq_some_iff.mp hs
    exact h.access hstore hstep
  | otherHandlers subscribedChannel listeners =>
    obtain rfl := Option.some.inj hs
    exact ⟨h.sent, h.snapshot, h.delta⟩
  | enterRoom =>
    simp only [step] at hs
    split at hs
    · obtain rfl := Option.some.inj hs
      exact h.move fun init => by split <;> simp
    · cases hs
  | subscribeDoc =>
    simp only [step] at hs
    split at hs
    · obtain rfl := Option.some.inj hs
      exact h.move fun init => by simp
    · cases hs
  | subscribePresence =>
    simp only [step] at hs
    split at hs
    · obtain rfl := Option.some.inj hs
      exact h.move fun init => by simp
    · cases hs
  | getLatestSnapshot =>
    simp only [step] at hs
    split at hs
    · obtain rfl := Option.some.inj hs
      exact h.move fun init => by simp
    · cases hs
  | getOperationsSinceSequence =>
    simp only [step] at hs
    split at hs
    · next sn hphase =>
      obtain rfl := Option.some.inj hs
      have hsn := hinv.phase
      unfold PhaseOk at hsn
      rw [hphase] at hsn
      exact h.read hstore hsn
    · cases hs
  | publishRow index =>
    obtain ⟨row, hrow, rfl⟩ := Option.map_eq_some_iff.mp hs
    have hcommitted := committed_of_row hinv.store (List.mem_of_getElem? hrow)
    have hpublished : Within E d { s with published := row :: s.published } :=
      h.sendAll fun _ hu => .inl hu
    dsimp only
    split
    · next hd => exact hpublished.deliver (hd ▸ hcommitted)
    · exact hpublished
  | broadcast update =>
    obtain rfl := Option.some.inj hs
    exact h.deliver hok
  | fanOut update =>
    obtain rfl := Option.some.inj hs
    split
    · refine h.sendAll fun u hu => ?_
      rcases List.mem_append.mp hu with hu | hu
      · exact .inl hu
      · exact .inr (List.mem_singleton.mp hu ▸ hok)
    · exact h

def Steady (E : Yjs Y) (instanceId : InstanceId) (documentId : Uuid) (s : Join)
    (a : JoinAction) : Prop :=
  StaysSubscribed E instanceId documentId s a ∧ SendsCommitted documentId s a

theorem inv_within {s : Join}
    (h : Runs.Reach (step E instanceId d) (fun s => s = initial) (Steady E instanceId d) s) :
    Inv E d s ∧ Within E d s := by
  refine Runs.Reach.invariant (P := fun s => Inv E d s ∧ Within E d s) ?_ ?_ h
  · rintro s rfl
    exact ⟨inv_initial, within_initial⟩
  · intro s a t hi hok hs
    exact ⟨inv_step hi.1 hok.1 hs, within_step hi.1 hi.2 hok.2 hs⟩

theorem Inv.le_of_published {s : Join} {init : InitialState} (h : Inv E d s)
    (hjoined : s.phase = .joined init)
    (hpublished : ∀ row ∈ s.store.outbox, row.documentId = d → row ∈ s.published)
    {op : Operation} (hop : op ∈ s.store.documentRows d) :
    Store.contentOf E op ≤ init.doc E ⊔ joinOf E.content s.sent := by
  have hphase := h.phase
  rw [PhaseOk, hjoined] at hphase
  obtain ⟨hmem, hd⟩ := Store.mem_documentRows.mp hop
  rw [InitialState.doc_eq]
  rcases hphase op hop with (⟨blob, hblob, hle⟩ | hdelta) | hsent
  · refine hle.trans (le_sup_of_le_left (le_sup_of_le_left ?_))
    rw [Option.mem_def.mp hblob]
    exact le_rfl
  · exact le_sup_of_le_left (le_sup_of_le_right (le_joinOf _ hdelta))
  · obtain ⟨row, hrow, hcarries⟩ := (Store.Reachable.inv h.store).paired op hmem
    have hrow' := hpublished row hrow (hcarries.2.1.trans hd)
    rw [Store.contentOf, hcarries.2.2]
    exact le_sup_of_le_right (le_joinOf _ (hsent row hrow' hcarries))

theorem received_eq {s : Join} {init : InitialState} (h : Inv E d s) (hw : Within E d s)
    (hjoined : s.phase = .joined init)
    (hpublished : ∀ row ∈ s.store.outbox, row.documentId = d → row ∈ s.published) :
    init.doc E ⊔ joinOf E.content s.sent = committedDoc E s.store d := by
  refine le_antisymm (sup_le ?_ (joinOf_le fun u hu => (hw.sent u hu).le))
    (joinOf_le fun op hop => h.le_of_published hjoined hpublished hop)
  rw [InitialState.doc_eq]
  refine sup_le ?_ (joinOf_le fun op hop => le_joinOf _ (hw.delta init hjoined op hop))
  cases hsn : init.snapshot with
  | none => exact bot_le
  | some blob => exact hw.snapshot init hjoined blob hsn

end Join

def JoinPhase.isJoined : JoinPhase → Bool
  | .joined _ => true
  | _ => false

/-- A client of the document: its join, the binary frames sent to it, and the updates that it
has made itself. -/
structure SessionClient where
  phase : JoinPhase
  sent : List Buffer
  own : List Buffer

/-- The document of a client, which merges every update in the order in which it comes. -/
def SessionClient.doc {Y : Type} [SemilatticeSup Y] [OrderBot Y] (E : Yjs Y)
    (c : SessionClient) : Y :=
  let base := match c.phase with
    | .joined init => init.doc E
    | _ => ⊥
  (c.sent ++ c.own).foldl E.applyUpdate base

/-- The database, the channel of the document at every instance `I`, its clients `C`, and the
outbox rows published so far. -/
structure Session (C I : Type) where
  store : Store
  subscribedChannel : I → Bool
  listeners : I → ℕ
  clients : C → SessionClient
  published : List OutboxRow

/-- `edit` is an update that a client makes in its own document; `fanOut` hands a committed one
to the room of its sender's instance. -/
inductive SessionAction (C I : Type)
  | access (a : Access)
  | otherHandlers (i : I) (subscribedChannel : Bool) (listeners : ℕ)
  | handleJoin (c : C) (a : JoinAction)
  | edit (c : C) (update : Buffer)
  | publishRow (index : ℕ)
  | broadcast (update : Buffer)
  | fanOut (sender : C) (update : Buffer)

def JoinAction.isOwn : JoinAction → Bool
  | .enterRoom | .subscribeDoc | .subscribePresence | .getLatestSnapshot
  | .getOperationsSinceSequence => true
  | .access _ | .otherHandlers _ _ | .publishRow _ | .broadcast _ | .fanOut _ => false

namespace Session

variable {C I Y : Type} [DecidableEq C] [DecidableEq I] [SemilatticeSup Y] [OrderBot Y]

def initial : Session C I where
  store := Store.initial
  subscribedChannel := fun _ => false
  listeners := fun _ => 0
  clients := fun _ => ⟨.connected, [], []⟩
  published := []

def view (instanceOf : C → I) (c : C) (s : Session C I) : Join where
  store := s.store
  subscribedChannel := s.subscribedChannel (instanceOf c)
  listeners := s.listeners (instanceOf c)
  phase := (s.clients c).phase
  sent := (s.clients c).sent
  published := s.published

def put (instanceOf : C → I) (s : Session C I) (c : C) (t : Join) : Session C I :=
  { s with
    subscribedChannel := Function.update s.subscribedChannel (instanceOf c) t.subscribedChannel
    listeners := Function.update s.listeners (instanceOf c) t.listeners
    clients := Function.update s.clients c
      { s.clients c with phase := t.phase, sent := t.sent } }

variable (E : Yjs Y) (processId : I → InstanceId) (instanceOf : C → I) (documentId : Uuid)

def deliver (s : Session C I) (frame : Buffer) : Session C I :=
  { s with clients := fun c =>
      { s.clients c with
        sent := ((s.view instanceOf c).deliver (processId (instanceOf c)) frame).sent } }

def step (s : Session C I) : SessionAction C I → Option (Session C I)
  | .access a => (Store.step E s.store a).map fun store => { s with store := store }
  | .otherHandlers i subscribedChannel listeners => some { s with
      subscribedChannel := Function.update s.subscribedChannel i subscribedChannel
      listeners := Function.update s.listeners i listeners }
  | .handleJoin c a =>
    if a.isOwn then
      (Join.step E (processId (instanceOf c)) documentId (s.view instanceOf c) a).map
        (s.put instanceOf c)
    else none
  | .edit c update => some { s with
      clients := Function.update s.clients c
        { s.clients c with own := (s.clients c).own ++ [update] } }
  | .publishRow index =>
    s.store.outbox[index]?.map fun row =>
      let s' := { s with published := row :: s.published }
      if row.documentId = documentId then
        s'.deliver processId instanceOf (outboxFrameHeader ++ row.payload)
      else s'
  | .broadcast update =>
    if Join.Committed s.store documentId update then
      some (s.deliver processId instanceOf (outboxFrameHeader ++ update))
    else none
  | .fanOut sender update =>
    if Join.Committed s.store documentId update then
      some { s with clients := fun c =>
        if c ≠ sender ∧ instanceOf c = instanceOf sender ∧ (s.clients c).phase.inRoom then
          { s.clients c with sent := (s.clients c).sent ++ [update] }
        else s.clients c }
    else none

/-- No instance loses its subscription while a client of it has passed the subscribe step. -/
def StaysSubscribed (s : Session C I) (a : SessionAction C I) : Prop :=
  ∀ t ∈ step E processId instanceOf documentId s a, ∀ c,
    (t.clients c).phase.isSubscribed = true → 0 < t.listeners (instanceOf c)

variable {E processId instanceOf documentId}

@[simp] theorem view_put_self (s : Session C I) (c : C) (t : Join) (hstore : t.store = s.store)
    (hpublished : t.published = s.published) : (s.put instanceOf c t).view instanceOf c = t := by
  simp [view, put, ← hstore, ← hpublished]

omit [DecidableEq C] [DecidableEq I] in
theorem view_deliver (s : Session C I) (frame : Buffer) (c : C) :
    (s.deliver processId instanceOf frame).view instanceOf c =
      (s.view instanceOf c).deliver (processId (instanceOf c)) frame := by
  obtain ⟨more, hmore⟩ := Join.deliver_eq (processId (instanceOf c)) (s.view instanceOf c) frame
  simp only [view, deliver] at hmore ⊢
  rw [hmore]

/-- The awaits of a join change neither the database nor what is published. -/
theorem isOwn_frame {s t : Join} {a : JoinAction} {instanceId : InstanceId} (ha : a.isOwn = true)
    (hs : Join.step E instanceId documentId s a = some t) :
    t.store = s.store ∧ t.published = s.published := by
  cases a with
  | enterRoom | subscribeDoc | subscribePresence | getLatestSnapshot
  | getOperationsSinceSequence =>
    simp only [Join.step] at hs
    split at hs
    · obtain rfl := Option.some.inj hs
      exact ⟨rfl, rfl⟩
    · cases hs
  | access | otherHandlers | publishRow | broadcast | fanOut => cases ha

theorem view_put_of_ne (s : Session C I) {c c' : C} (hne : c' ≠ c) (t : Join) :
    (s.put instanceOf c t).view instanceOf c' =
      { s.view instanceOf c' with
        subscribedChannel := (s.put instanceOf c t).subscribedChannel (instanceOf c')
        listeners := (s.put instanceOf c t).listeners (instanceOf c') } := by
  simp [view, put, hne]

/-- For the join of one client a step of the session is one of its own steps, or none. -/
theorem view_step {s t : Session C I} {a : SessionAction C I}
    (hs : step E processId instanceOf documentId s a = some t) (c : C) :
    s.view instanceOf c = t.view instanceOf c ∨
      ∃ b, Join.step E (processId (instanceOf c)) documentId (s.view instanceOf c) b =
          some (t.view instanceOf c) ∧
        Join.SendsCommitted documentId (s.view instanceOf c) b := by
  cases a with
  | access a =>
    obtain ⟨store, hstore, rfl⟩ := Option.map_eq_some_iff.mp hs
    exact .inr ⟨.access a, Option.map_eq_some_iff.mpr ⟨store, hstore, rfl⟩, trivial⟩
  | otherHandlers i subscribedChannel listeners =>
    obtain rfl := Option.some.inj hs
    exact .inr ⟨.otherHandlers _ _, rfl, trivial⟩
  | handleJoin c' a =>
    simp only [step] at hs
    split at hs
    · next ha =>
      obtain ⟨u, hu, rfl⟩ := Option.map_eq_some_iff.mp hs
      by_cases hc : c = c'
      · subst hc
        obtain ⟨hstore, hpublished⟩ := isOwn_frame ha hu
        rw [view_put_self s c u hstore hpublished]
        refine .inr ⟨a, hu, ?_⟩
        cases a <;> trivial
      · rw [view_put_of_ne s hc u]
        exact .inr ⟨.otherHandlers _ _, rfl, trivial⟩
    · cases hs
  | edit c' update =>
    obtain rfl := Option.some.inj hs
    refine .inl ?_
    by_cases hc : c = c'
    · subst hc
      simp [view]
    · simp [view, hc]
  | publishRow index =>
    obtain ⟨row, hrow, rfl⟩ := Option.map_eq_some_iff.mp hs
    refine .inr ⟨.publishRow index, Option.map_eq_some_iff.mpr ⟨row, hrow, ?_⟩, trivial⟩
    dsimp only
    split
    · rw [view_deliver]
      rfl
    · rfl
  | broadcast update =>
    simp only [step] at hs
    split at hs
    · next hcommitted =>
      obtain rfl := Option.some.inj hs
      exact .inr ⟨.broadcast update, congrArg some (view_deliver s _ c).symm, hcommitted⟩
    · cases hs
  | fanOut sender update =>
    simp only [step] at hs
    split at hs
    · next hcommitted =>
      obtain rfl := Option.some.inj hs
      by_cases hc : c ≠ sender ∧ instanceOf c = instanceOf sender ∧ (s.clients c).phase.inRoom
      · refine .inr ⟨.fanOut update, ?_, hcommitted⟩
        simp [Join.step, view, hc]
      · exact .inl (by simp only [view, if_neg hc])
    · cases hs

/-- A run of the session is, for the join of every client, a run in which the instance stays
subscribed and only committed updates bypass the outbox. -/
theorem reach_view {s : Session C I}
    (h : Runs.Reach (step E processId instanceOf documentId) (fun s => s = initial)
      (StaysSubscribed E processId instanceOf documentId) s) (c : C) :
    Runs.Reach (Join.step E (processId (instanceOf c)) documentId) (fun s => s = Join.initial)
      (Join.Steady E (processId (instanceOf c)) documentId) (s.view instanceOf c) := by
  refine h.project (view instanceOf c) (fun s hs => ?_) fun s a t hok hs => ?_
  · subst hs
    rfl
  · rcases view_step hs c with hsame | ⟨b, hb, hsends⟩
    · exact ⟨[], trivial, congrArg some hsame⟩
    · refine ⟨[b], ⟨⟨fun u hu => ?_, hsends⟩, fun _ _ => trivial⟩, ?_⟩
      · obtain rfl := Option.some.inj (hu.symm.trans hb)
        exact hok t hs c
      · rw [Runs.exec, hb]
        rfl

/-- The clients converge: once every row of the document is published, a joined client whose
own updates are committed holds what the server loads, and so what every other one holds. -/
theorem clients_converge {s : Session C I}
    (h : Runs.Reach (step E processId instanceOf documentId) (fun s => s = initial)
      (StaysSubscribed E processId instanceOf documentId) s)
    (hpublished : ∀ row ∈ s.store.outbox, row.documentId = documentId → row ∈ s.published)
    {c : C} (hjoined : (s.clients c).phase.isJoined = true)
    (hown : ∀ update ∈ (s.clients c).own, Join.Committed s.store documentId update) :
    (s.clients c).doc E = Store.load E s.store documentId := by
  obtain ⟨hinv, hwithin⟩ := Join.inv_within (reach_view h c)
  obtain ⟨init, hjoined⟩ : ∃ init, (s.clients c).phase = .joined init := by
    unfold JoinPhase.isJoined at hjoined
    split at hjoined
    · next init hphase => exact ⟨init, hphase⟩
    · cases hjoined
  have hreceived : init.doc E ⊔ joinOf E.content (s.clients c).sent =
      Join.committedDoc E s.store documentId :=
    Join.received_eq hinv hwithin hjoined hpublished
  have hmine : joinOf E.content (s.clients c).own ≤ Join.committedDoc E s.store documentId :=
    joinOf_le fun u hu => (hown u hu).le
  have hdoc : (s.clients c).doc E =
      init.doc E ⊔ joinOf E.content ((s.clients c).sent ++ (s.clients c).own) := by
    rw [SessionClient.doc, hjoined]
    exact foldl_eq E.content _ _
  rw [hdoc, joinOf_append, ← sup_assoc, hreceived, sup_eq_left.mpr hmine]
  exact (Store.load_eq hinv.store documentId).symm

def twoProcesses : Bool → InstanceId
  | false => Join.someInstance
  | true => ⟨[1, 0, 0, 0, 0, 0, 0x40, 0, 0, 0, 0, 0, 0, 0, 0, 0], rfl, rfl⟩

/-- One client joins before the writers of the document and is one of them; another joins at
the other instance between their commits. -/
def twoClients : List (SessionAction Bool Bool) :=
  List.flatten
    [[.handleJoin false .enterRoom, .handleJoin false .subscribeDoc,
      .handleJoin false .subscribePresence, .handleJoin false .getLatestSnapshot,
      .handleJoin false .getOperationsSinceSequence, .edit false [3]],
    (Store.twoWriters.take 10).map .access,
    [.handleJoin true .enterRoom, .handleJoin true .subscribeDoc, .publishRow 0,
      .handleJoin true .subscribePresence, .handleJoin true .getLatestSnapshot,
      .broadcast [5], .handleJoin true .getOperationsSinceSequence],
    (Store.twoWriters.drop 10).map .access,
    [.fanOut false [3], .publishRow 1, .publishRow 2]]

instance (s : Session Bool Bool) (a : SessionAction Bool Bool) :
    Decidable (StaysSubscribed Yjs.bytes twoProcesses id 7 s a) :=
  inferInstanceAs (Decidable (∀ t ∈ step Yjs.bytes twoProcesses id 7 s a, _))

theorem exec_twoClients : ∃ s,
    Runs.exec (step Yjs.bytes twoProcesses id 7) initial twoClients = some s ∧
      s.published = s.store.outbox.reverse ∧
      (∀ c, (s.clients c).phase.isJoined = true) ∧
      (s.clients false).own = [[3]] ∧ (s.clients true).own = [] ∧
      (s.clients true).sent = [[4], [5], [5], [3]] ∧ Join.Committed s.store 7 [3] :=
  ⟨_, rfl, rfl, by decide +kernel, rfl, rfl, rfl, by decide +kernel⟩

theorem clients_converge_twoClients : ∃ s,
    Runs.exec (step Yjs.bytes twoProcesses id 7) initial twoClients = some s ∧
    (s.clients true).sent = [[4], [5], [5], [3]] ∧
    ∀ c, (s.clients c).doc Yjs.bytes = Store.load Yjs.bytes s.store 7 := by
  have hf : Runs.Follows (step Yjs.bytes twoProcesses id 7)
      (StaysSubscribed Yjs.bytes twoProcesses id 7) initial twoClients := by decide +kernel
  obtain ⟨s, hs, hpub, hjoined, hfalse, htrue, hsent, hcommitted⟩ := exec_twoClients
  have hreach : Runs.Reach (step Yjs.bytes twoProcesses id 7) (fun s => s = initial)
      (StaysSubscribed Yjs.bytes twoProcesses id 7) s := .exec (.start rfl) hf hs
  refine ⟨s, hs, hsent, fun c => clients_converge hreach (fun row hrow _ => ?_) (hjoined c) ?_⟩
  · exact hpub ▸ List.mem_reverse.mpr hrow
  · cases c with
    | false => exact hfalse ▸ List.forall_mem_singleton.mpr hcommitted
    | true => exact htrue ▸ List.forall_mem_nil _

end Session

end Meridian
