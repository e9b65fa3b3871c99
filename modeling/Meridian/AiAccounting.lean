import Meridian.AiApproval

/-! The rows that the AI endpoints leave in the log. They are those of the batches that requests
have committed, block by block and no others; every batch was approved; and what a request
answers is what it has committed. -/
namespace Meridian

open Joins

namespace AiServer

section Steps

variable {P Y V H : Type} [SemilatticeSup Y] [OrderBot Y] [DecidableEq H]

def editsOf (s : AiServer P Y H) (h : H) : List (AiEdit Y) :=
  (s.batches.filter fun batch => batch.request = h).map CommittedBatch.edit

structure Inv (E : Yjs Y) (docs : YjsDocs Y V) (parse : JsString → Option Json)
    (fuzzyThreshold : ℚ) (maxDocChars : ℕ) (s : AiServer P Y H) : Prop where
  store : Store.Reachable E s.store
  stamped : s.store.AllStamped
  staged : ∀ r ∈ s.staged, StagedOk E docs parse fuzzyThreshold maxDocChars s.store r
  proposals : ∀ p proposal, s.proposals p = some proposal →
    ∃ r ∈ s.staged, r.proposalId = p ∧ proposalOf docs maxDocChars r = proposal
  calls : ∀ h call, s.calls h = some call →
    CallOk E docs parse fuzzyThreshold maxDocChars s.store s.staged call
  writers : ∀ h h' call call' edit edit' t, s.calls h = some call →
    s.calls h' = some call' → call.phase = .writing edit t → call'.phase = .writing edit' t → h = h'
  rows : (aiRows s.store).map rowKey = s.batches.flatMap (batchRows docs)
  placed : ∀ batch ∈ s.batches, Placed E docs s.store batch
  approved : ∀ batch ∈ s.batches,
    Approved E docs parse fuzzyThreshold maxDocChars s.store s.staged batch.call batch.edit
  reported : ∀ h, Reported ((s.calls h).map AiCall.phase) (editsOf s h)

variable {E : Yjs Y} {docs : YjsDocs Y V} {parse : JsString → Option Json} {fuzzyThreshold : ℚ}
  {maxDocChars : ℕ} {s t : AiServer P Y H}

omit [SemilatticeSup Y] [OrderBot Y] [DecidableEq H] in
theorem Reported.length_le {phase : Option (AiPhase P Y)} {edits : List (AiEdit Y)}
    (h : Reported phase edits) : edits.length ≤ 1 := by
  unfold Reported at h
  split at h
  · simp [h]
  · rcases h with ⟨-, rfl⟩ | ⟨edit, rfl, -⟩
    · exact Nat.zero_le 1
    · exact le_rfl
  · exact h
  · simp [h]

section Changes

variable [DecidableEq P]

/-- The change that a step makes: a statement of the store, a request that moves on with nothing
but what it has read, one that stages a proposal, or one that begins, commits or abandons its
transaction. -/
inductive Change (E : Yjs Y) (docs : YjsDocs Y V) (parse : JsString → Option Json)
    (fuzzyThreshold : ℚ) (maxDocChars : ℕ) (s : AiServer P Y H) : AiServer P Y H → Prop
  | access {a : Access} {store : Store} (hforeign : isForeign s.store a = true)
      (hs : s.store.step E a = some store) :
      Change E docs parse fuzzyThreshold maxDocChars s { s with store := store }
  | drop (p : P) : Change E docs parse fuzzyThreshold maxDocChars s (s.setProposal p none)
  | moves (k : H) (call : AiCall P Y) (proposals : P → Option (StagedProposal Uuid Uuid))
      (hproposals : ∀ p proposal, proposals p = some proposal → s.proposals p = some proposal)
      (hcall : Inv E docs parse fuzzyThreshold maxDocChars s →
        CallOk E docs parse fuzzyThreshold maxDocChars s.store s.staged call)
      (hidle : ∀ edit t, call.phase ≠ .writing edit t)
      (hreported : ∀ edits, Reported ((s.calls k).map AiCall.phase) edits →
        Reported (some call.phase) edits) :
      Change E docs parse fuzzyThreshold maxDocChars s
        { s with calls := Function.update s.calls k (some call), proposals := proposals }
  | stage {k : H} {call : AiCall P Y} {p : P} {edit : AiEdit Y} (hc : s.calls k = some call)
      (hphase : call.phase = .staging edit) :
      Change E docs parse fuzzyThreshold maxDocChars s
        { (s.setProposal p (some (proposalOf docs maxDocChars (⟨k, call, p, edit⟩ :
            StagedEdit P Y H)))).setPhase k call
              (.ended (.proposed p (diffOf docs.service maxDocChars edit))) with
          staged := s.staged ++ [⟨k, call, p, edit⟩] }
  | begin {k : H} {call : AiCall P Y} {edit : AiEdit Y} {n : ℕ} {store : Store}
      (hc : s.calls k = some call) (hphase : call.phase = .starting edit)
      (hs : s.store.step E (.applyOps n call.documentId call.userId
        (perOpBinaries docs edit.doc edit.operations)) = some store) :
      Change E docs parse fuzzyThreshold maxDocChars s
        { s.setPhase k call (.writing edit n) with store := store }
  | commit {k : H} {call : AiCall P Y} {edit : AiEdit Y} {n : ℕ} {store : Store}
      (hc : s.calls k = some call) (hphase : call.phase = .writing edit n)
      (hs : s.store.step E (.commit n) = some store) :
      Change E docs parse fuzzyThreshold maxDocChars s
        { s.setPhase k call (.enqueuing edit) with
          store := store
          batches := s.batches ++ [⟨k, call, edit⟩] }
  | rollback {k : H} {call : AiCall P Y} {edit : AiEdit Y} {n : ℕ} {store : Store}
      (hc : s.calls k = some call) (hphase : call.phase = .writing edit n)
      (hs : s.store.step E (.rollback n) = some store) :
      Change E docs parse fuzzyThreshold maxDocChars s
        { s.setPhase k call (.ended (.thrown .failed)) with store := store }

/-- A request goes on without rows in the log, as it had none before. -/
theorem Change.clean {k : H} {call call' : AiCall P Y} (hc : s.calls k = some call)
    (hold : ∀ edits, Reported (some call.phase) edits → edits = [])
    (hcall : Inv E docs parse fuzzyThreshold maxDocChars s →
      CallOk E docs parse fuzzyThreshold maxDocChars s.store s.staged call')
    (hclean : Clean call'.phase) : Change E docs parse fuzzyThreshold maxDocChars s
      { s with calls := Function.update s.calls k (some call') } := by
  refine .moves k call' s.proposals (fun _ _ => id) hcall hclean.idle fun edits he => ?_
  rw [hc] at he
  obtain rfl := hold edits he
  exact hclean.reported

theorem Change.throws {k : H} {call : AiCall P Y} (hc : s.calls k = some call)
    (hold : ∀ edits, Reported (some call.phase) edits → edits = []) (error : AiFailure) :
    Change E docs parse fuzzyThreshold maxDocChars s
      (s.setPhase k call (.ended (.thrown error))) :=
  .clean hc hold (fun _ => trivial) ⟨reported_thrown error, by simp⟩

theorem advance_cases {k : H} {call : AiCall P Y} {a : AiAction P H} (hc : s.calls k = some call)
    (hs : advance E docs parse fuzzyThreshold maxDocChars s k call a call.phase = some t) :
    Change E docs parse fuzzyThreshold maxDocChars s t := by
  unfold advance at hs
  split at hs
  · next p confirm hphase =>
    have hold : ∀ edits, Reported (some call.phase) edits → edits = [] := by
      rw [hphase]
      exact fun _ => id
    split at hs
    · next proposal hp =>
      split at hs
      · cases hs
        exact .throws hc hold _
      · next howner =>
        cases hs
        refine .clean hc hold (fun h => ?_) ⟨rfl, by simp⟩
        have hcall := h.calls k call hc
        rw [CallOk, hphase] at hcall
        obtain ⟨-, hgoal⟩ := hcall
        change CallOk.Peeked E docs parse fuzzyThreshold maxDocChars s.store s.staged
          { call with phase := .reading (some proposal) } (some proposal)
        simp only [CallOk.Peeked, hgoal]
        obtain ⟨r, hr, hid, rfl⟩ := h.proposals p proposal hp
        obtain ⟨hdocument, huser⟩ : r.call.documentId = call.documentId ∧
            r.call.userId = call.userId := by
          simpa [proposalOf] using howner
        exact ⟨r, hr, hid, rfl, huser, hdocument, h.staged r hr⟩
    · cases hs
      exact .throws hc hold _
  · next staged hphase =>
    cases hs
    refine .clean hc (by rw [hphase]; exact fun _ => id) (fun h => ?_) ⟨rfl, by simp⟩
    have hcall := h.calls k call hc
    rw [CallOk, hphase] at hcall
    exact ⟨hcall, h.store.snapshotInv.latest call.documentId⟩
  · next staged sn hphase =>
    cases hs
    refine .clean hc (by rw [hphase]; exact fun _ => id) (fun h => ?_) (afterReading_clean _ _ _)
    have hcall := h.calls k call hc
    rw [CallOk, hphase] at hcall
    exact afterReading_ok hcall.1
      ⟨_, List.prefix_rfl, Store.replay_covered h.store.inv hcall.2⟩
  · next answer doc attempt hphase =>
    cases hs
    exact .clean hc (by rw [hphase]; exact fun _ => id)
      (fun h => afterGeneration_ok hphase (h.calls k call hc) answer)
      (afterGeneration_clean _ _ _ _)
  · next answer edit hphase =>
    cases hs
    exact .clean hc (by rw [hphase]; exact fun _ => id)
      (fun h => afterScope_ok hphase (h.calls k call hc) answer) (afterScope_clean _ _ _)
  · next p edit hphase =>
    cases hs
    exact .stage hc hphase
  · next p edit hphase =>
    have hold : ∀ edits, Reported (some call.phase) edits → edits = [] := by
      rw [hphase]
      exact fun _ => id
    split at hs
    · cases hs
      exact .throws hc hold _
    · cases hs
      refine .moves k _ _ (fun p' proposal hp => ?_) (fun h => ?_) ?_ fun edits he => ?_
      · exact (Tables.update_none_eq_some.mp hp).2
      · have hcall := h.calls k call hc
        rw [CallOk, hphase] at hcall
        split
        · trivial
        · exact hcall
      · split <;> simp
      · rw [hc] at he
        obtain rfl := hold edits he
        split
        · exact .inl ⟨rfl, rfl⟩
        · rfl
  · next n edit hphase =>
    obtain ⟨store, hstore, rfl⟩ := Option.map_eq_some_iff.mp hs
    exact .begin hc hphase hstore
  · next edit n hphase =>
    obtain ⟨store, hstore, rfl⟩ := Option.map_eq_some_iff.mp hs
    exact .commit hc hphase hstore
  · next edit n hphase =>
    obtain ⟨store, hstore, rfl⟩ := Option.map_eq_some_iff.mp hs
    exact .rollback hc hphase hstore
  · next delivered edit hphase =>
    cases hs
    refine .moves k _ s.proposals (fun _ _ => id) (fun _ => trivial) (by simp) fun edits he => ?_
    rw [hc, Option.map_some, hphase] at he
    obtain rfl : edits = [edit] := he
    cases delivered with
    | true => exact .inr ⟨edit, rfl, rfl, rfl⟩
    | false => exact le_rfl
  · cases hs
  · cases hs
  · cases hs
  · cases hs
    exact .moves k _ s.proposals (fun _ _ => id) (fun _ => trivial) (by simp)
      fun edits he => he.length_le
  · cases hs

theorem step_cases {a : AiAction P H}
    (hs : step E docs parse fuzzyThreshold maxDocChars s a = some t) :
    Change E docs parse fuzzyThreshold maxDocChars s t := by
  unfold step at hs
  split at hs
  · obtain ⟨hforeign, hs⟩ := Option.ite_none_right_eq_some.mp hs
    obtain ⟨store, hstore, rfl⟩ := Option.map_eq_some_iff.mp hs
    exact .access hforeign hstore
  · next h d u goal =>
    obtain ⟨hfree, hs⟩ := Option.ite_none_right_eq_some.mp hs
    cases hs
    refine .moves h _ s.proposals (fun _ _ => id) (fun _ => ?_) ?_ fun edits he => ?_
    · cases goal with
      | chat | proposeChat => rfl
      | acceptProposal => exact ⟨rfl, rfl⟩
    · cases goal <;> simp [opening]
    · rw [Option.isNone_iff_eq_none.mp hfree] at he
      cases goal <;> exact he
  · cases hs
    exact .drop _
  · obtain ⟨h, -, hs⟩ := Option.bind_eq_some_iff.mp hs
    obtain ⟨call, hc, hs⟩ := Option.bind_eq_some_iff.mp hs
    exact advance_cases hc hs

end Changes

/-- A statement that ends no transaction of a request, and adds no row of the AI. -/
theorem Inv.storeStep (h : Inv E docs parse fuzzyThreshold maxDocChars s) {a : Access}
    {store : Store} (hs : s.store.step E a = some store)
    (hown : ∀ k call edit n, s.calls k = some call → call.phase = .writing edit n →
      a ≠ .commit n ∧ a ≠ .rollback n)
    (hrows : aiRows store = aiRows s.store) :
    Inv E docs parse fuzzyThreshold maxDocChars { s with store := store } := by
  have hreach : Store.Reachable E store := .next h.store trivial hs
  have hg : Grows s.store store := Grows.of_step h.store.inv hs
  exact
    { store := hreach
      stamped := h.stamped.step hs
      staged r hr := (h.staged r hr).mono hg
      proposals := h.proposals
      calls k call hc := (h.calls k call hc).step h.store.inv hreach.inv hs
        fun edit n => hown k call edit n hc
      writers := h.writers
      rows := hrows ▸ h.rows
      placed batch hb := (h.placed batch hb).mono hg
      approved batch hb := (h.approved batch hb).mono hg fun _ => id
      reported := h.reported }

omit [SemilatticeSup Y] [OrderBot Y] in
theorem aiRows_commitTx {store : Store} {n : ℕ} {tx : WriteTx} (hdone : tx.isDone = true)
    (hstamped : tx.Stamped) :
    aiRows (store.commitTx n tx) =
      aiRows store ++ if tx.source = .ai then tx.operations else [] := by
  rw [aiRows, Store.commitTx, List.filter_append, ← (WriteTx.operations_of_isDone hdone).1, aiRows]
  congr 1
  split
  · next hai =>
    exact List.filter_eq_self.mpr fun op hop => decide_eq_true ((hstamped op hop).1.trans hai)
  · next hai =>
    refine List.filter_eq_nil_iff.mpr fun op hop => ?_
    simpa [(hstamped op hop).1] using hai

theorem Inv.access (h : Inv E docs parse fuzzyThreshold maxDocChars s) {a : Access}
    {store : Store} (hforeign : isForeign s.store a = true)
    (hs : s.store.step E a = some store) :
    Inv E docs parse fuzzyThreshold maxDocChars { s with store := store } := by
  refine h.storeStep hs (fun k call edit n hc hphase => ?_) ?_
  · -- the transaction of a request is not another writer's
    have hcall := h.calls k call hc
    rw [CallOk, hphase] at hcall
    obtain ⟨-, tx, htx, -, -, hai, -⟩ := hcall
    constructor
    · rintro rfl
      simp [isForeign, htx, hai] at hforeign
    · rintro rfl
      simp [isForeign, htx, hai] at hforeign
  · rcases Store.operations_step hs with hops | ⟨n, tx, rfl, htx, hdone, rfl⟩
    · rw [aiRows, hops, aiRows]
    · have hhuman : tx.source = .human := by simpa [isForeign, htx] using hforeign
      rw [aiRows_commitTx hdone (h.stamped n tx htx), hhuman]
      exact List.append_nil _

theorem Inv.setCall (h : Inv E docs parse fuzzyThreshold maxDocChars s) {k : H}
    {call : AiCall P Y} {proposals : P → Option (StagedProposal Uuid Uuid)}
    (hproposals : ∀ p proposal, proposals p = some proposal → s.proposals p = some proposal)
    (hcall : CallOk E docs parse fuzzyThreshold maxDocChars s.store s.staged call)
    (hwriter : ∀ edit edit' n k' call', call.phase = .writing edit n →
      s.calls k' = some call' → call'.phase = .writing edit' n → k' = k)
    (hreported : Reported (some call.phase) (editsOf s k)) :
    Inv E docs parse fuzzyThreshold maxDocChars
      { s with calls := Function.update s.calls k (some call), proposals := proposals } where
  store := h.store
  stamped := h.stamped
  staged := h.staged
  proposals p proposal hp := h.proposals p proposal (hproposals p proposal hp)
  calls k' call' hc := by
    rcases Tables.update_eq_some.mp hc with ⟨-, hc⟩ | ⟨-, hc⟩
    · exact Option.some.inj hc ▸ hcall
    · exact h.calls k' call' hc
  writers k₁ k₂ call₁ call₂ edit₁ edit₂ n hc₁ hc₂ hp₁ hp₂ := by
    rcases Tables.update_eq_some.mp hc₁ with ⟨rfl, he₁⟩ | ⟨-, hold₁⟩
    · rcases Tables.update_eq_some.mp hc₂ with ⟨rfl, -⟩ | ⟨-, hold₂⟩
      · rfl
      · obtain rfl := Option.some.inj he₁
        exact (hwriter edit₁ edit₂ n k₂ call₂ hp₁ hold₂ hp₂).symm
    · rcases Tables.update_eq_some.mp hc₂ with ⟨rfl, he₂⟩ | ⟨-, hold₂⟩
      · obtain rfl := Option.some.inj he₂
        exact hwriter edit₂ edit₁ n k₁ call₁ hp₂ hold₁ hp₁
      · exact h.writers k₁ k₂ call₁ call₂ edit₁ edit₂ n hold₁ hold₂ hp₁ hp₂
  rows := h.rows
  placed := h.placed
  approved := h.approved
  reported k' := by
    show Reported ((Function.update s.calls k (some call) k').map AiCall.phase) (editsOf s k')
    by_cases hk : k' = k
    · subst hk
      rwa [Function.update_self]
    · rw [Function.update_of_ne hk]
      exact h.reported k'

theorem Inv.stage [DecidableEq P] (h : Inv E docs parse fuzzyThreshold maxDocChars s) {k : H}
    {call : AiCall P Y} {p : P} {edit : AiEdit Y} (hc : s.calls k = some call)
    (hphase : call.phase = .staging edit) :
    Inv E docs parse fuzzyThreshold maxDocChars
      { (s.setProposal p (some (proposalOf docs maxDocChars (⟨k, call, p, edit⟩ :
          StagedEdit P Y H)))).setPhase k call
            (.ended (.proposed p (diffOf docs.service maxDocChars edit))) with
        staged := s.staged ++ [⟨k, call, p, edit⟩] } := by
  have hold : s.staged ⊆ s.staged ++ [⟨k, call, p, edit⟩] := List.subset_append_left _ _
  have hcall := h.calls k call hc
  rw [CallOk, hphase] at hcall
  obtain ⟨hproposes, hread, hwhole, hscope⟩ := hcall
  have hended : Inv E docs parse fuzzyThreshold maxDocChars
      (s.setPhase k call (.ended (.proposed p (diffOf docs.service maxDocChars edit)))) := by
    refine h.setCall (fun _ _ => id) trivial (by simp) ?_
    have hreported := h.reported k
    rw [hc, Option.map_some, hphase] at hreported
    exact hreported
  exact
    { hended with
      staged := fun r hr => by
        rcases List.mem_append.mp hr with hr | hr
        · exact h.staged r hr
        · obtain rfl := List.mem_singleton.mp hr
          exact ⟨hproposes, hscope, hwhole, hread⟩
      proposals := fun q proposal hq => by
        rcases Tables.update_eq_some.mp hq with ⟨rfl, hq⟩ | ⟨-, hq⟩
        · exact ⟨_, List.mem_append_right _ List.mem_cons_self, rfl, Option.some.inj hq⟩
        · obtain ⟨r, hr, hid, hproposal⟩ := h.proposals q proposal hq
          exact ⟨r, hold hr, hid, hproposal⟩
      calls := fun k' call' hc' => (hended.calls k' call' hc').mono hold
      approved := fun batch hb => (h.approved batch hb).mono (fun _ => List.prefix_rfl) hold }

theorem Inv.begin (h : Inv E docs parse fuzzyThreshold maxDocChars s) {k : H}
    {call : AiCall P Y} {edit : AiEdit Y} {n : ℕ} {store : Store} (hc : s.calls k = some call)
    (hphase : call.phase = .starting edit)
    (hs : s.store.step E (.applyOps n call.documentId call.userId
      (perOpBinaries docs edit.doc edit.operations)) = some store) :
    Inv E docs parse fuzzyThreshold maxDocChars
      { s.setPhase k call (.writing edit n) with store := store } := by
  obtain ⟨-, hfree, rfl⟩ := Store.beginTx_eq_some hs
  have hnext := h.storeStep hs (fun _ _ _ _ _ _ => by simp) rfl
  have hcall := hnext.calls k call hc
  rw [CallOk, hphase] at hcall
  refine hnext.setCall (fun _ _ => id) ⟨hcall, _, Function.update_self .., rfl, rfl, rfl, rfl⟩
    (fun edit₁ edit₂ m k' call' hm hc' hp' => ?_) ?_
  · -- the slot was free, so nobody else was writing in it
    obtain ⟨rfl, rfl⟩ := AiPhase.writing.inj hm
    have hcall' := h.calls k' call' hc'
    rw [CallOk, hp'] at hcall'
    obtain ⟨-, tx, htx, -⟩ := hcall'
    exact absurd (hfree.symm.trans htx) (by simp)
  · have hreported := hnext.reported k
    rw [show s.calls k = some call from hc, Option.map_some, hphase] at hreported
    exact hreported

theorem Inv.rollback (h : Inv E docs parse fuzzyThreshold maxDocChars s) {k : H}
    {call : AiCall P Y} {edit : AiEdit Y} {n : ℕ} {store : Store} (hc : s.calls k = some call)
    (hphase : call.phase = .writing edit n) (hs : s.store.step E (.rollback n) = some store) :
    Inv E docs parse fuzzyThreshold maxDocChars
      { s.setPhase k call (.ended (.thrown .failed)) with store := store } := by
  have hended : Inv E docs parse fuzzyThreshold maxDocChars
      (s.setPhase k call (.ended (.thrown .failed))) :=
    h.setCall (fun _ _ => id) trivial (by simp) (h.reported k).length_le
  refine hended.storeStep hs (fun k' call' edit' m hc' hp' => ⟨by simp, ?_⟩) ?_
  · rintro ⟨⟩
    rcases Tables.update_eq_some.mp hc' with ⟨-, hc'⟩ | ⟨hne, hc'⟩
    · obtain rfl := Option.some.inj hc'
      cases hp'
    · exact hne (h.writers k' k call' call edit' edit n hc' hc hp' hphase)
  · rcases Store.operations_step hs with hops | ⟨_, _, hcommit, -⟩
    · rw [aiRows, hops]
      rfl
    · cases hcommit

omit [DecidableEq H] [SemilatticeSup Y] [OrderBot Y] in
theorem rowKeys_of_batch (docs : YjsDocs Y V) (batch : CommittedBatch P Y H) {store : Store}
    (h : Store.Inv store) {n : ℕ} {tx : WriteTx} (htx : store.txs n = some tx)
    (hdone : tx.isDone = true) (hstamped : tx.Stamped)
    (hdoc : tx.documentId = batch.call.documentId)
    (huser : tx.userId = batch.call.userId)
    (hbatch : tx.batch = (perOpBinaries docs batch.edit.doc batch.edit.operations).map some) :
    tx.operations.map rowKey = batchRows docs batch := by
  have hupdates : tx.operations.map Operation.yjsUpdate =
      (perOpBinaries docs batch.edit.doc batch.edit.operations).map some := by
    rw [← hbatch, WriteTx.batch, (WriteTx.isDone_phase hdone).2, List.map_nil, List.append_nil]
  have hkey : tx.operations.map rowKey = (tx.operations.map Operation.yjsUpdate).map
      fun update => (batch.call.documentId, batch.call.userId, update) := by
    rw [List.map_map]
    refine List.map_congr_left fun op hop => ?_
    rw [rowKey, (h.tx n tx htx).owned op hop, (hstamped op hop).2, hdoc, huser]
    rfl
  rw [hkey, hupdates, List.map_map, batchRows]
  rfl

omit [SemilatticeSup Y] [OrderBot Y] in
theorem editsOf_append (s : AiServer P Y H) (batch : CommittedBatch P Y H) (k : H) :
    editsOf { s with batches := s.batches ++ [batch] } k =
      editsOf s k ++ if batch.request = k then [batch.edit] else [] := by
  rw [editsOf, editsOf, List.filter_append, List.map_append]
  congr 1
  by_cases h : batch.request = k
  · simp [h]
  · simp [h]

theorem Inv.commit (h : Inv E docs parse fuzzyThreshold maxDocChars s) {k : H}
    {call : AiCall P Y} {edit : AiEdit Y} {n : ℕ} {store : Store} (hc : s.calls k = some call)
    (hphase : call.phase = .writing edit n) (hs : s.store.step E (.commit n) = some store) :
    Inv E docs parse fuzzyThreshold maxDocChars { s.setPhase k call (.enqueuing edit) with
      store := store
      batches := s.batches ++ [⟨k, call, edit⟩] } := by
  have hreach : Store.Reachable E store := .next h.store trivial hs
  have hg : Grows s.store store := Grows.of_step h.store.inv hs
  have hcall := h.calls k call hc
  rw [CallOk, hphase] at hcall
  obtain ⟨happroved, tx, htx, hdoc, huser, hai, hbatch⟩ := hcall
  obtain ⟨tx', htx', hs'⟩ := Option.bind_eq_some_iff.mp hs
  obtain rfl := Option.some.inj (htx.symm.trans htx')
  obtain ⟨hdone, hs'⟩ := Option.ite_none_right_eq_some.mp hs'
  have hstore : store = s.store.commitTx n tx := (Option.some.inj hs').symm
  have hkeys := rowKeys_of_batch docs ⟨k, call, edit⟩ h.store.inv htx hdone (h.stamped n tx htx)
    hdoc huser hbatch
  have hplaced : Placed E docs store (⟨k, call, edit⟩ : CommittedBatch P Y H) := by
    refine ⟨s.store.documentRows call.documentId, tx.operations, [], ?_, hkeys, happroved.1⟩
    rw [hstore, Store.documentRows_commitTx h.store.inv htx hdone, if_pos hdoc.symm,
      List.append_nil]
  have hnone : editsOf s k = [] := by
    have hreported := h.reported k
    rw [hc, Option.map_some, hphase] at hreported
    exact hreported
  refine
    { store := hreach
      stamped := h.stamped.step hs
      staged := fun r hr => (h.staged r hr).mono hg
      proposals := h.proposals
      calls := fun k' call' hc' => ?_
      writers := fun k₁ k₂ call₁ call₂ edit₁ edit₂ m hc₁ hc₂ hp₁ hp₂ => ?_
      rows := ?_
      placed := fun batch hb => ?_
      approved := fun batch hb => ?_
      reported := fun k' => ?_ }
  · rcases Tables.update_eq_some.mp hc' with ⟨-, hc'⟩ | ⟨hne, hc'⟩
    · obtain rfl := Option.some.inj hc'
      exact happroved.mono hg fun _ => id
    · refine (h.calls k' call' hc').step h.store.inv hreach.inv hs fun edit' m hp' =>
        ⟨?_, by simp⟩
      rintro ⟨⟩
      exact hne (h.writers k' k call' call edit' edit n hc' hc hp' hphase)
  · rcases Tables.update_eq_some.mp hc₁ with ⟨-, hc₁⟩ | ⟨-, hold₁⟩
    · obtain rfl := Option.some.inj hc₁
      cases hp₁
    · rcases Tables.update_eq_some.mp hc₂ with ⟨-, hc₂⟩ | ⟨-, hold₂⟩
      · obtain rfl := Option.some.inj hc₂
        cases hp₂
      · exact h.writers k₁ k₂ call₁ call₂ edit₁ edit₂ m hold₁ hold₂ hp₁ hp₂
  · show (aiRows store).map rowKey = (s.batches ++ [_]).flatMap (batchRows docs)
    rw [hstore, aiRows_commitTx hdone (h.stamped n tx htx), if_pos hai, List.map_append, h.rows,
      hkeys, List.flatMap_append, List.flatMap_singleton]
  · rcases List.mem_append.mp hb with hb | hb
    · exact (h.placed batch hb).mono hg
    · exact List.mem_singleton.mp hb ▸ hplaced
  · rcases List.mem_append.mp hb with hb | hb
    · exact (h.approved batch hb).mono hg fun _ => id
    · obtain rfl := List.mem_singleton.mp hb
      exact happroved.mono hg fun _ => id
  · show Reported ((Function.update s.calls k _ k').map AiCall.phase)
      (editsOf { s with batches := s.batches ++ [⟨k, call, edit⟩] } k')
    rw [editsOf_append]
    by_cases hk : k' = k
    · subst hk
      rw [Function.update_self, hnone, if_pos rfl]
      rfl
    · rw [Function.update_of_ne hk, if_neg (Ne.symm hk), List.append_nil]
      exact h.reported k'

theorem inv_step [DecidableEq P] {a : AiAction P H}
    (h : Inv E docs parse fuzzyThreshold maxDocChars s)
    (hs : step E docs parse fuzzyThreshold maxDocChars s a = some t) :
    Inv E docs parse fuzzyThreshold maxDocChars t := by
  cases step_cases hs with
  | access hforeign hstore => exact h.access hforeign hstore
  | drop p =>
    exact { h with
      proposals := fun q proposal hq =>
        h.proposals q proposal (Tables.update_none_eq_some.mp hq).2 }
  | moves k call proposals hproposals hcall hidle hreported =>
    exact h.setCall hproposals (hcall h)
      (fun edit _ n _ _ hphase => absurd hphase (hidle edit n)) (hreported _ (h.reported k))
  | stage hc hphase => exact h.stage hc hphase
  | begin hc hphase hstore => exact h.begin hc hphase hstore
  | commit hc hphase hstore => exact h.commit hc hphase hstore
  | rollback hc hphase hstore => exact h.rollback hc hphase hstore

theorem inv_initial : Inv E docs parse fuzzyThreshold maxDocChars
    (initial : AiServer P Y H) where
  store := .start rfl
  stamped _ _ h := by cases h
  staged _ h := by cases h
  proposals _ _ h := by cases h
  calls _ _ h := by cases h
  writers _ _ _ _ _ _ _ h := by cases h
  rows := rfl
  placed _ h := by cases h
  approved _ h := by cases h
  reported _ := rfl

theorem Reachable.inv [DecidableEq P] (h : Reachable E docs parse fuzzyThreshold maxDocChars s) :
    Inv E docs parse fuzzyThreshold maxDocChars s :=
  Runs.Reach.invariant (fun _ hs => hs ▸ inv_initial) (fun _ _ _ h _ hs => inv_step h hs) h

end Steps

def byteDocs : YjsDocs (Finset (Fin 256)) (Finset (Fin 256)) where
  service :=
    { extractText := fun doc =>
        ((List.finRange 256).filter fun c => c ∈ doc).map fun c => c.val.toUInt16
      insertText := fun doc _ text => doc ∪ (text.map fun c => Fin.ofNat 256 c.toNat).toFinset
      deleteText := fun doc _ _ => doc
      formatText := fun doc _ _ _ => doc }
  content doc := .inl
    ⟨((List.finRange 256).filter fun c => c ∈ doc).map fun c => (c.val.toUInt16, [])⟩
  deleteSet _ := []
  encodeStateVector doc := doc
  encodeStateAsUpdate doc seen :=
    ((List.finRange 256).filter fun c => c ∈ doc \ seen).map UInt8.ofFin
  decodeUpdate := Yjs.bytes.decodeUpdate

def parseAnswer (raw : JsString) : Option Json :=
  if raw = js "[\x7b\"type\":\"insert\",\"position\":2,\"text\":\"c\"\x7d]" then
    some (.arr [.obj [(js "type", .str (js "insert")), (js "position", .num 2),
      (js "text", .str (js "c"))]])
  else if raw = js "[\x7b\"type\":\"insert\",\"position\":3,\"text\":\"d\"\x7d]" then
    some (.arr [.obj [(js "type", .str (js "insert")), (js "position", .num 3),
      (js "text", .str (js "d"))]])
  else if raw = js "\x7b\"scope_valid\":true\x7d" then some (.obj [(js "scope_valid", .bool true)])
  else none

/-- The statements of one update, or of one AI operation, between begin and commit. -/
def writes (t sequence id : ℕ) : List (AiAction ℕ ℕ) :=
  [.access (.acquireDocumentWriteLock t), .access (.getMaxClockValue t),
    .access (.insertOperation t sequence), .access (.insertOutboxEntry t id)]

/-- A chat whose first answer is not JSON, while another user types. Then the author of the chat
lets a proposal be made, which the other user tries to accept before the author does. -/
def acceptRun : List (AiAction ℕ ℕ) :=
  List.flatten
    [.access (.createDocument 7) :: .access (.handleUpdate 0 7 1 [97, 98]) :: writes 0 1 11,
    [.access (.commit 0), .request 0 7 1 (.chat (js "Go on.")), .getLatestSnapshot 0,
      .getOperationsSinceSequence 0, .callLLM 0 (some (js "Sure!")),
      .callLLM 0 (some (js "[\x7b\"type\":\"insert\",\"position\":2,\"text\":\"c\"\x7d]"))],
    .access (.handleUpdate 0 7 2 [120]) :: writes 0 3 13,
    [.access (.commit 0), .checkScope 0 (some (js "\x7b\"scope_valid\":true\x7d")), .begin 0 3],
    writes 3 5 15,
    [.commit 0, .enqueueDelivery 0 true, .request 1 7 1 (.proposeChat (js "And now?")),
      .getLatestSnapshot 1, .getOperationsSinceSequence 1,
      .callLLM 1 (some (js "[\x7b\"type\":\"insert\",\"position\":3,\"text\":\"d\"\x7d]")),
      .checkScope 1 (some (js "\x7b\"scope_valid\":true\x7d")), .stageProposal 1 4],
    [.request 2 7 2 (.acceptProposal 4 true), .peekProposal 2],
    [.request 3 7 1 (.acceptProposal 4 false), .peekProposal 3, .getLatestSnapshot 3,
      .getOperationsSinceSequence 3, .consumeProposal 3, .begin 3 6],
    writes 6 7 17,
    [.commit 3, .enqueueDelivery 3 true]]

theorem exec_acceptRun : ∃ s, Runs.exec
    (step Yjs.bytes byteDocs parseAnswer (7 / 10) 100) initial acceptRun = some s ∧
    s.batches.map (fun batch => (batch.request, batch.call.goal)) =
      [(0, .chat (js "Go on.")), (3, .acceptProposal 4 false)] ∧
    s.store.operations.map Operation.yjsUpdate =
      [some [97, 98], some [120], some [99], some [100]] ∧
    (aiRows s.store).map Operation.yjsUpdate = [some [99], some [100]] ∧
    (∃ call, s.calls 2 = some call ∧ call.phase = .ended (.thrown (.check .proposalGone))) ∧
    ∃ call, s.calls 3 = some call ∧ call.phase = .ended (.applied 1 []) :=
  ⟨_, rfl, rfl, rfl, rfl, ⟨_, rfl, rfl⟩, _, rfl, rfl⟩

section Results

variable {P Y V H : Type} [SemilatticeSup Y] [OrderBot Y] [DecidableEq P] [DecidableEq H]
  {E : Yjs Y} {docs : YjsDocs Y V} {parse : JsString → Option Json} {fuzzyThreshold : ℚ}
  {maxDocChars : ℕ} {s : AiServer P Y H}

/-- The rows of the AI in the log are those of the committed batches, in order; and a batch is
what the model answered with the right format to a request for it, moved and thinned out by the
content check and not found out of scope, or what the accept check has left of an edit of that
kind which the same user had staged for the same document. -/
theorem aiRows_accounted (h : Reachable E docs parse fuzzyThreshold maxDocChars s) :
    (aiRows s.store).map rowKey = s.batches.flatMap (batchRows docs) ∧
      ∀ batch ∈ s.batches, Approved E docs parse fuzzyThreshold maxDocChars s.store s.staged
        batch.call batch.edit := by
  have hinv := Reachable.inv h
  exact ⟨hinv.rows, hinv.approved⟩

theorem aiRows_accounted_acceptRun : ∃ s, Runs.exec
    (step Yjs.bytes byteDocs parseAnswer (7 / 10) 100) initial acceptRun = some s ∧
    s.batches.map (fun batch => (batch.request, batch.call.goal)) =
      [(0, .chat (js "Go on.")), (3, .acceptProposal 4 false)] ∧
    (aiRows s.store).map Operation.yjsUpdate = [some [99], some [100]] ∧
    (aiRows s.store).map rowKey = s.batches.flatMap (batchRows byteDocs) ∧
    ∀ batch ∈ s.batches, Approved Yjs.bytes byteDocs parseAnswer (7 / 10) 100 s.store s.staged
      batch.call batch.edit := by
  obtain ⟨s, hs, hbatches, -, hrows, -⟩ := exec_acceptRun
  exact ⟨s, hs, hbatches, hrows, aiRows_accounted (Runs.reachable_exec rfl hs)⟩

/-- The request that has written each row of the AI, in the order of the log. -/
def rowAuthors (s : AiServer P Y H) : List H :=
  s.batches.flatMap fun batch => List.replicate batch.edit.operations.length batch.request

def rowsOf (s : AiServer P Y H) (k : H) : List Operation :=
  (((rowAuthors s).zip (aiRows s.store)).filter fun row => row.1 = k).map Prod.snd

omit [SemilatticeSup Y] [OrderBot Y] [DecidableEq P] [DecidableEq H] in
theorem length_batchRows (batch : CommittedBatch P Y H) :
    (batchRows docs batch).length = batch.edit.operations.length := by
  rw [batchRows, List.length_map, length_perOpBinaries]

omit [SemilatticeSup Y] [OrderBot Y] [DecidableEq P] in
/-- The rows of several batches, each with the request of its batch: those of one request are
those of its batches. -/
theorem filter_zip_batchRows (batches : List (CommittedBatch P Y H)) (k : H) :
    (((batches.flatMap fun batch => List.replicate batch.edit.operations.length
        batch.request).zip (batches.flatMap (batchRows docs))).filter fun row => row.1 = k).map
          Prod.snd =
      (batches.filter fun batch => batch.request = k).flatMap (batchRows docs) := by
  induction batches with
  | nil => rfl
  | cons batch batches ih =>
    have hlength : (List.replicate batch.edit.operations.length batch.request).length =
        (batchRows docs batch).length := by rw [List.length_replicate, length_batchRows]
    have hfst : ∀ row ∈ (List.replicate batch.edit.operations.length batch.request).zip
        (batchRows docs batch), row.1 = batch.request := fun row hrow =>
      List.eq_of_mem_replicate (List.of_mem_zip hrow).1
    rw [List.flatMap_cons, List.flatMap_cons, List.zip_append hlength, List.filter_append,
      List.map_append, ih]
    by_cases hk : batch.request = k
    · rw [List.filter_eq_self.mpr fun row hrow => decide_eq_true ((hfst row hrow).trans hk),
        List.map_snd_zip hlength.ge]
      simp [hk]
    · rw [List.filter_eq_nil_iff.mpr fun row hrow => by simpa [hfst row hrow] using hk]
      simp [hk]

theorem rowKeys_rowsOf (h : Reachable E docs parse fuzzyThreshold maxDocChars s) (k : H) :
    (rowsOf s k).map rowKey =
      (s.batches.filter fun batch => batch.request = k).flatMap (batchRows docs) := by
  rw [← filter_zip_batchRows, ← (Reachable.inv h).rows, List.zip_map_right, List.filter_map,
    List.map_map, rowsOf, List.map_map]
  rfl

omit [SemilatticeSup Y] [OrderBot Y] [DecidableEq P] in
theorem length_batchRowsOf (k : H) :
    ((s.batches.filter fun batch => batch.request = k).flatMap (batchRows docs)).length =
      ((editsOf s k).map fun edit => edit.operations.length).sum := by
  rw [List.length_flatMap, editsOf, List.map_map]
  exact congrArg List.sum (List.map_congr_left fun batch _ => length_batchRows batch)

theorem length_rowsOf (h : Reachable E docs parse fuzzyThreshold maxDocChars s) (k : H) :
    (rowsOf s k).length = ((editsOf s k).map fun edit => edit.operations.length).sum := by
  have hrows := congrArg List.length (rowKeys_rowsOf h k)
  rwa [List.length_map, length_batchRowsOf] at hrows

/-- A request that has been answered with a number of applied operations has written that many
rows of the log; one that has been answered with a proposal, or with an exception other than an
internal error, has written none. -/
theorem answer_isCommitted (h : Reachable E docs parse fuzzyThreshold maxDocChars s) {k : H}
    {call : AiCall P Y} {outcome : AiOutcome P} (hc : s.calls k = some call)
    (hended : call.phase = .ended outcome) :
    match outcome with
    | .applied n _ => (rowsOf s k).length = n
    | .proposed _ _ => rowsOf s k = []
    | .thrown error => error.statusCode < 500 → rowsOf s k = [] := by
  have hreported := (Reachable.inv h).reported k
  rw [hc, Option.map_some, hended] at hreported
  have hnone (hnil : editsOf s k = []) : rowsOf s k = [] := by
    rw [← List.length_eq_zero_iff, length_rowsOf h, hnil]
    rfl
  cases outcome with
  | applied n rejectedOps =>
    dsimp only
    rw [length_rowsOf h]
    rcases hreported with ⟨rfl, hnil⟩ | ⟨edit, hedit, rfl, -⟩
    · rw [hnil]
      rfl
    · rw [hedit]
      simp
  | proposed p diff => exact hnone hreported
  | thrown error =>
    intro hstatus
    cases error with
    | failed => exact absurd hstatus (by decide)
    | validation | check | scope => exact hnone hreported

theorem answer_isCommitted_acceptRun : ∃ s, Runs.exec
    (step Yjs.bytes byteDocs parseAnswer (7 / 10) 100) initial acceptRun = some s ∧
    s.store.operations.length = 4 ∧ (rowsOf s 3).length = 1 ∧ rowsOf s 2 = [] := by
  obtain ⟨s, hs, -, hlog, -, ⟨call, hc, hended⟩, call', hc', hended'⟩ := exec_acceptRun
  have hreach : Reachable Yjs.bytes byteDocs parseAnswer (7 / 10) 100 s :=
    Runs.reachable_exec rfl hs
  exact ⟨s, hs, by simpa using congrArg List.length hlog, answer_isCommitted hreach hc' hended',
    answer_isCommitted hreach hc hended (by decide)⟩

end Results

end AiServer

end Meridian
