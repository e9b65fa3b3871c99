import Meridian.WriteMachine

/-! What every interleaving of write transactions keeps: the committed operations of a
document, followed by those of the transaction that holds its row lock, increase in
both sequence and clock; and every committed operation has its outbox row. -/
namespace Meridian

def Before (a b : Operation) : Prop :=
  a.operationSequence < b.operationSequence ∧ a.clockValue < b.clockValue

def Agree (a b : Operation) : Prop :=
  (a.operationSequence < b.operationSequence → a.clockValue < b.clockValue) ∧
    (b.operationSequence < a.operationSequence → b.clockValue < a.clockValue)

instance : Std.Symm Agree := ⟨fun _ _ => And.symm⟩

theorem agree_refl (a : Operation) : Agree a a :=
  ⟨fun h => absurd h (lt_irrefl _), fun h => absurd h (lt_irrefl _)⟩

theorem Before.agree {a b : Operation} (h : Before a b) : Agree a b :=
  ⟨fun _ => h.2, fun hba => absurd h.1 hba.asymm⟩

def Carries (row : OutboxRow) (op : Operation) : Prop :=
  row.operationSequence = op.operationSequence ∧ row.documentId = op.documentId ∧
    op.yjsUpdate = some row.payload

namespace WriteTx

theorem lock_eq_some {tx tx' : WriteTx} (h : tx.lock = some tx') :
    tx.isBegun = true ∧ tx' = { tx with phase := .locked } := by
  unfold lock at h
  split at h
  · next hp => exact ⟨by simp [isBegun, hp], (Option.some.inj h).symm⟩
  · cases h

theorem readClock_eq_some {tx tx' : WriteTx} {committed : List Operation}
    (h : tx.readClock committed = some tx') :
    tx.phase = .locked ∧
      tx' = { tx with phase := .ready (getMaxClockValue committed tx.documentId) } := by
  unfold readClock at h
  split at h
  · next hp => exact ⟨hp, (Option.some.inj h).symm⟩
  · cases h

theorem insertOperation_eq_some {tx tx' : WriteTx} {classify : Buffer → Option Classified}
    {sequence : ℕ} (h : tx.insertOperation classify sequence = some tx') :
    ∃ clock update updates op, tx.phase = .ready clock ∧ tx.updates = update :: updates ∧
      clock < op.clockValue ∧ op.operationSequence = sequence ∧ op.documentId = tx.documentId ∧
      op.yjsUpdate = some update ∧
      tx' = { tx with updates := updates, phase := .inserted op.clockValue op update } := by
  unfold insertOperation at h
  split at h
  · next clock update updates hp hu =>
    obtain ⟨c, -, hc⟩ := Option.bind_eq_some_iff.mp h
    dsimp only at hc
    split at hc
    · refine ⟨clock, update, updates, ⟨tx.documentId, tx.userId, c.type, some update, sequence,
        nextClock tx.source clock c.receivedClock, tx.source, c.payload⟩, hp, hu, ?_, rfl, rfl, rfl,
        (Option.some.inj hc).symm⟩
      show clock < nextClock tx.source clock c.receivedClock
      unfold nextClock
      split <;> omega
    · cases hc
  · cases h

theorem insertOutboxEntry_eq_some {tx tx' : WriteTx} {id : Uuid}
    (h : tx.insertOutboxEntry id = some tx') :
    ∃ clock op update, tx.phase = .inserted clock op update ∧
      tx' = { tx with
        phase := .ready clock
        rows := tx.rows ++ [(op, ⟨id, tx.documentId, op.operationSequence, update, 0⟩)] } := by
  unfold insertOutboxEntry at h
  split at h
  · next clock op update hp => exact ⟨clock, op, update, hp, (Option.some.inj h).symm⟩
  · cases h

theorem isDone_phase {tx : WriteTx} (h : tx.isDone = true) :
    (∃ clock, tx.phase = .ready clock) ∧ tx.updates = [] := by
  unfold isDone at h
  split at h
  · next clock hp hu => exact ⟨⟨clock, hp⟩, hu⟩
  · cases h

/-- What a transaction keeps, given the committed log of its document and the next
value of the identity column. -/
structure Ok (tx : WriteTx) (log : List Operation) (next : ℕ) : Prop where
  chain : (log ++ tx.operations).Pairwise Before
  bound : ∀ op ∈ tx.operations, 0 < op.operationSequence ∧ op.operationSequence < next
  owned : ∀ op ∈ tx.operations, op.documentId = tx.documentId
  clock : ∀ c, tx.clock? = some c → ∀ op ∈ log ++ tx.operations, op.clockValue ≤ c
  clean : tx.clock? = none → tx.operations = []
  paired : ∀ p ∈ tx.rows, Carries p.2 p.1
  pending : ∀ c op u, tx.phase = .inserted c op u →
    op.yjsUpdate = some u ∧ op.documentId = tx.documentId

theorem Ok.mono {tx : WriteTx} {log : List Operation} {next next' : ℕ} (h : tx.Ok log next)
    (hn : next ≤ next') : tx.Ok log next' :=
  { h with bound := fun op hop => ⟨(h.bound op hop).1, (h.bound op hop).2.trans_le hn⟩ }

theorem Ok.of_unread {tx : WriteTx} {log : List Operation} {next : ℕ}
    (hlog : log.Pairwise Before) (hclock : tx.clock? = none) (hops : tx.operations = [])
    (hrows : tx.rows = []) : tx.Ok log next where
  chain := by simpa [hops] using hlog
  bound := by simp [hops]
  owned := by simp [hops]
  clock := by simp [hclock]
  clean _ := hops
  paired := by simp [hrows]
  pending c op u hp := by simp [clock?, hp] at hclock

theorem le_getMaxClockValue {committed : List Operation} {d : Uuid} {op : Operation}
    (h : op ∈ committed) (hd : op.documentId = d) :
    op.clockValue ≤ getMaxClockValue committed d := by
  have hm : op.clockValue ∈
      (committed.filter fun o => o.documentId = d).map Operation.clockValue :=
    List.mem_map_of_mem (List.mem_filter.mpr ⟨h, by simpa using hd⟩)
  exact List.le_max_of_le hm le_rfl

theorem Ok.begin {log : List Operation} {next : ℕ} (hlog : log.Pairwise Before) (d u : Uuid)
    (src : OperationSource) (us : List Buffer) : (WriteTx.begin d u src us).Ok log next :=
  .of_unread hlog rfl rfl rfl

theorem isBegun_iff {tx : WriteTx} : tx.isBegun = true ↔ tx.phase = .begun := by
  unfold isBegun
  split <;> simp_all

theorem Ok.lock {tx tx' : WriteTx} {log : List Operation} {next : ℕ} (h : tx.Ok log next)
    (hlog : log.Pairwise Before) (hs : tx.lock = some tx') : tx'.Ok log next := by
  obtain ⟨hb, rfl⟩ := lock_eq_some hs
  have hp := isBegun_iff.mp hb
  have hops := h.clean (by simp [clock?, hp])
  have hrows : tx.rows = [] := by
    simpa [WriteTx.operations, unpaired, hp] using hops
  exact .of_unread hlog rfl (by simp [WriteTx.operations, unpaired, hrows]) hrows

/-- The maximum is read while the log is locked, so it bounds every committed clock. -/
theorem Ok.readClock {tx tx' : WriteTx} {committed : List Operation} {next : ℕ}
    (h : tx.Ok (committed.filter fun op => op.documentId = tx.documentId) next)
    (hs : tx.readClock committed = some tx') :
    tx'.Ok (committed.filter fun op => op.documentId = tx.documentId) next := by
  obtain ⟨hp, rfl⟩ := readClock_eq_some hs
  have hops := h.clean (by simp [clock?, hp])
  have hrows : tx.rows = [] := by
    simpa [WriteTx.operations, unpaired, hp] using hops
  refine { h with
    chain := by simpa [WriteTx.operations, unpaired, hrows, hp] using h.chain
    bound := by simp [WriteTx.operations, unpaired, hrows]
    owned := by simp [WriteTx.operations, unpaired, hrows]
    clock := ?_
    clean := by simp [clock?]
    pending := by simp }
  intro c hc op hop
  obtain rfl : _ = c := Option.some.inj hc
  have hmem : op ∈ committed.filter fun op => op.documentId = tx.documentId := by
    simpa [WriteTx.operations, unpaired, hrows] using hop
  obtain ⟨hop, hd⟩ := List.mem_filter.mp hmem
  exact le_getMaxClockValue hop (by simpa using hd)

/-- The new row stands after everything its transaction sees: the identity column is
past every sequence in use, and the clock is past the one reached. -/
theorem Ok.insertOperation {tx tx' : WriteTx} {log : List Operation} {next sequence : ℕ}
    {classify : Buffer → Option Classified} (h : tx.Ok log next)
    (hlog : ∀ op ∈ log, op.operationSequence < next) (hpos : 0 < next) (hseq : next ≤ sequence)
    (hs : tx.insertOperation classify sequence = some tx') : tx'.Ok log (sequence + 1) := by
  obtain ⟨clock, update, updates, op, hp, -, hclock, rfl, hd, hu, rfl⟩ := insertOperation_eq_some hs
  have hold : tx.operations = tx.rows.map Prod.fst := by simp [WriteTx.operations, unpaired, hp]
  have hle : ∀ o ∈ log ++ tx.rows.map Prod.fst, o.clockValue ≤ clock := by
    simpa only [hold] using h.clock clock (by simp [clock?, hp])
  have hlt : ∀ o ∈ log ++ tx.rows.map Prod.fst, o.operationSequence < next := by
    intro o ho
    rcases List.mem_append.mp ho with ho | ho
    · exact hlog o ho
    · exact (h.bound o (hold ▸ ho)).2
  refine { chain := ?_, bound := ?_, owned := ?_, clock := ?_, clean := by simp [clock?],
           paired := h.paired, pending := ?_ }
  · simp only [WriteTx.operations, unpaired, ← List.append_assoc]
    refine List.pairwise_append.mpr ⟨by simpa only [hold] using h.chain, by simp, ?_⟩
    intro a ha b hb
    obtain rfl := List.mem_singleton.mp hb
    exact ⟨(hlt a ha).trans_le hseq, (hle a ha).trans_lt hclock⟩
  · intro o ho
    rcases List.mem_append.mp ho with ho | ho
    · have := h.bound o (hold ▸ ho)
      omega
    · obtain rfl := List.mem_singleton.mp ho
      omega
  · intro o ho
    rcases List.mem_append.mp ho with ho | ho
    · exact h.owned o (hold ▸ ho)
    · obtain rfl := List.mem_singleton.mp ho
      exact hd
  · intro c hc o ho
    obtain rfl : _ = c := Option.some.inj hc
    simp only [WriteTx.operations, unpaired, ← List.append_assoc] at ho
    rcases List.mem_append.mp ho with ho | ho
    · exact (hle o ho).trans hclock.le
    · obtain rfl := List.mem_singleton.mp ho
      exact le_rfl
  · intro c o u hq
    obtain ⟨-, rfl, rfl⟩ := TxPhase.inserted.inj hq
    exact ⟨hu, hd⟩

theorem Ok.insertOutboxEntry {tx tx' : WriteTx} {log : List Operation} {next : ℕ} {id : Uuid}
    (h : tx.Ok log next) (hs : tx.insertOutboxEntry id = some tx') : tx'.Ok log next := by
  obtain ⟨clock, op, update, hp, rfl⟩ := insertOutboxEntry_eq_some hs
  obtain ⟨hu, hd⟩ := h.pending clock op update hp
  have hops : WriteTx.operations { tx with
      phase := .ready clock
      rows := tx.rows ++ [(op, ⟨id, tx.documentId, op.operationSequence, update, 0⟩)] } =
      tx.operations := by
    simp [WriteTx.operations, unpaired, hp]
  refine { chain := hops ▸ h.chain, bound := hops ▸ h.bound, owned := hops ▸ h.owned, clock := ?_,
           clean := by simp [clock?], paired := ?_, pending := by simp }
  · intro c hc
    rw [hops]
    exact h.clock c (by simpa [clock?, hp] using hc)
  · intro p hp'
    rcases List.mem_append.mp hp' with hp' | hp'
    · exact h.paired p hp'
    · obtain rfl := List.mem_singleton.mp hp'
      exact ⟨rfl, hd.symm, hu⟩

theorem operations_of_isDone {tx : WriteTx} (h : tx.isDone = true) :
    tx.operations = tx.rows.map Prod.fst ∧ tx.isBegun = false := by
  obtain ⟨⟨clock, hp⟩, -⟩ := isDone_phase h
  constructor <;> simp [WriteTx.operations, unpaired, isBegun, hp]

end WriteTx

namespace Store

variable {Y : Type} [SemilatticeSup Y] [OrderBot Y] {E : Yjs Y}

/-- The invariant of the log: a transaction past its first statement is exactly the one
that holds the row lock of its document. -/
structure Inv (s : Store) : Prop where
  next_pos : 0 < s.nextSequence
  bound : ∀ op ∈ s.operations, 0 < op.operationSequence ∧ op.operationSequence < s.nextSequence
  chain : ∀ d, (s.documentRows d).Pairwise Before
  tx : ∀ t tx, s.txs t = some tx → tx.Ok (s.documentRows tx.documentId) s.nextSequence
  lock : ∀ t tx, s.txs t = some tx → (tx.isBegun = false ↔ s.writeLock tx.documentId = some t)
  held : ∀ d t, s.writeLock d = some t → ∃ tx, s.txs t = some tx ∧ tx.documentId = d
  paired : ∀ op ∈ s.operations, ∃ row ∈ s.outbox, Carries row op

theorem mem_documentRows {s : Store} {d : Uuid} {op : Operation} :
    op ∈ s.documentRows d ↔ op ∈ s.operations ∧ op.documentId = d := by
  simp [documentRows]

theorem Inv.rows_bound {s : Store} (h : Inv s) (d : Uuid) :
    ∀ op ∈ s.documentRows d, op.operationSequence < s.nextSequence :=
  fun op hop => (h.bound op (mem_documentRows.mp hop).1).2

theorem inv_initial : Inv initial where
  next_pos := Nat.one_pos
  bound := by simp [initial]
  chain d := by simp [documentRows, initial]
  tx t tx h := by simp [initial] at h
  lock t tx h := by simp [initial] at h
  held d t h := by simp [initial] at h
  paired := by simp [initial]

theorem Inv.replaceTx {s : Store} (h : Inv s) {t n : ℕ} {tx tx' : WriteTx}
    (ht : s.txs t = some tx) (hd : tx'.documentId = tx.documentId)
    (hb : tx'.isBegun = tx.isBegun) (hn : s.nextSequence ≤ n)
    (hok : tx'.Ok (s.documentRows tx.documentId) n) :
    Inv { s.setTx t (some tx') with nextSequence := n } where
  next_pos := h.next_pos.trans_le hn
  bound op hop := ⟨(h.bound op hop).1, (h.bound op hop).2.trans_le hn⟩
  chain := h.chain
  tx u ux hu := by
    by_cases htu : u = t
    · subst htu
      obtain rfl : tx' = ux := by simpa [setTx] using hu
      rw [hd]
      exact hok
    · exact (h.tx u ux (by simpa [setTx, htu] using hu)).mono hn
  lock u ux hu := by
    by_cases htu : u = t
    · subst htu
      obtain rfl : tx' = ux := by simpa [setTx] using hu
      rw [hd, hb]
      exact h.lock u tx ht
    · exact h.lock u ux (by simpa [setTx, htu] using hu)
  held d u hu := by
    obtain ⟨ux, hux, hud⟩ := h.held d u hu
    by_cases htu : u = t
    · subst htu
      obtain rfl : tx = ux := Option.some.inj (ht.symm.trans hux)
      exact ⟨tx', by simp [setTx], hd.trans hud⟩
    · exact ⟨ux, by simpa [setTx, htu] using hux, hud⟩
  paired := h.paired

theorem beginTx_eq_some {s s' : Store} {t : ℕ} {tx : WriteTx} (h : s.beginTx t tx = some s') :
    tx.documentId ∈ s.documents ∧ s.txs t = none ∧ s' = s.setTx t (some tx) := by
  obtain ⟨⟨hd, ht⟩, h⟩ := Option.ite_none_right_eq_some.mp h
  exact ⟨hd, Option.isNone_iff_eq_none.mp ht, (Option.some.inj h).symm⟩

theorem Inv.beginTx {s : Store} (h : Inv s) {t : ℕ} (hnone : s.txs t = none) (d u : Uuid)
    (src : OperationSource) (us : List Buffer) :
    Inv (s.setTx t (some (WriteTx.begin d u src us))) := by
  refine { h with tx := ?_, lock := ?_, held := ?_ }
  · intro v vx hv
    by_cases htv : v = t
    · subst htv
      obtain rfl : WriteTx.begin d u src us = vx := by simpa [setTx] using hv
      exact .begin (h.chain d) d u src us
    · exact h.tx v vx (by simpa [setTx, htv] using hv)
  · intro v vx hv
    by_cases htv : v = t
    · subst htv
      obtain rfl : WriteTx.begin d u src us = vx := by simpa [setTx] using hv
      constructor
      · intro hb
        cases hb
      · intro hl
        obtain ⟨tx, htx, -⟩ := h.held _ _ hl
        rw [hnone] at htx
        cases htx
    · exact h.lock v vx (by simpa [setTx, htv] using hv)
  · intro e v hv
    obtain ⟨vx, hvx, hvd⟩ := h.held e v hv
    have htv : v ≠ t := by
      rintro rfl
      rw [hnone] at hvx
      cases hvx
    exact ⟨vx, by simpa [setTx, htv] using hvx, hvd⟩

/-- The lock is granted when nobody holds it, so every other writer of the document is
still before its first statement. -/
theorem Inv.acquire {s : Store} (h : Inv s) {t : ℕ} {tx tx' : WriteTx} (ht : s.txs t = some tx)
    (hl : tx.lock = some tx') (hfree : s.writeLock tx.documentId = none) :
    Inv { s.setTx t (some tx') with
      writeLock := Function.update s.writeLock tx.documentId (some t) } := by
  have hok := (h.tx t tx ht).lock (h.chain _) hl
  obtain ⟨-, rfl⟩ := WriteTx.lock_eq_some hl
  refine { h with tx := ?_, lock := ?_, held := ?_ }
  · intro u ux hu
    by_cases htu : u = t
    · subst htu
      obtain rfl := by simpa [setTx] using hu
      exact hok
    · exact h.tx u ux (by simpa [setTx, htu] using hu)
  · intro u ux hu
    by_cases htu : u = t
    · subst htu
      obtain rfl := by simpa [setTx] using hu
      simp [WriteTx.isBegun]
    · have hux : s.txs u = some ux := by simpa [setTx, htu] using hu
      by_cases hd : ux.documentId = tx.documentId
      · have hold := h.lock u ux hux
        simp only [hd, hfree, reduceCtorEq, iff_false] at hold
        simp [hd, hold, Ne.symm htu]
      · simpa [Function.update_of_ne hd] using h.lock u ux hux
  · intro d u hu
    by_cases hd : d = tx.documentId
    · subst hd
      obtain rfl : t = u := by simpa using hu
      exact ⟨{ tx with phase := .locked }, by simp [setTx], rfl⟩
    · obtain ⟨ux, hux, hud⟩ := h.held d u (by simpa [Function.update_of_ne hd] using hu)
      have htu : u ≠ t := by
        rintro rfl
        obtain rfl : tx = ux := Option.some.inj (ht.symm.trans hux)
        exact hd hud.symm
      exact ⟨ux, by simpa [setTx, htu] using hux, hud⟩

theorem Inv.owner {s : Store} (h : Inv s) {t : ℕ} {tx : WriteTx} {d : Uuid}
    (ht : s.txs t = some tx) (hl : s.writeLock d = some t) : d = tx.documentId := by
  obtain ⟨ux, hux, hud⟩ := h.held d t hl
  obtain rfl : tx = ux := Option.some.inj (ht.symm.trans hux)
  exact hud.symm

theorem Inv.endTx_released {s : Store} (h : Inv s) {t : ℕ} {tx : WriteTx} (ht : s.txs t = some tx)
    (d : Uuid) : (s.endTx t tx).writeLock d ≠ some t := by
  unfold Store.endTx
  dsimp only
  intro hd
  split at hd
  · by_cases he : d = tx.documentId
    · simp [he] at hd
    · rw [Function.update_of_ne he] at hd
      exact he (h.owner ht hd)
  · next hl => exact hl (h.owner ht hd ▸ hd)

theorem Inv.endTx {s : Store} (h : Inv s) {t : ℕ} {tx : WriteTx} (ht : s.txs t = some tx) :
    Inv (s.endTx t tx) := by
  have hother : ∀ d u, u ≠ t → ((s.endTx t tx).writeLock d = some u ↔ s.writeLock d = some u) := by
    intro d u hut
    unfold Store.endTx
    dsimp only
    split
    · next hl =>
      by_cases hd : d = tx.documentId
      · subst hd
        simp [hl, Ne.symm hut]
      · simp [Function.update_of_ne hd]
    · exact Iff.rfl
  have htx : ∀ u ux, (s.endTx t tx).txs u = some ux → u ≠ t ∧ s.txs u = some ux := by
    intro u ux hu
    by_cases htu : u = t
    · subst htu
      simp [Store.endTx, setTx] at hu
    · exact ⟨htu, by simpa [Store.endTx, setTx, htu] using hu⟩
  refine { h with tx := ?_, lock := ?_, held := ?_ }
  · intro u ux hu
    exact h.tx u ux (htx u ux hu).2
  · intro u ux hu
    obtain ⟨hut, hux⟩ := htx u ux hu
    rw [hother _ u hut]
    exact h.lock u ux hux
  · intro d u hu
    have hut : u ≠ t := by
      rintro rfl
      exact h.endTx_released ht d hu
    obtain ⟨ux, hux, hud⟩ := h.held d u ((hother d u hut).mp hu)
    exact ⟨ux, by simpa [Store.endTx, setTx, hut] using hux, hud⟩

def commitTx (s : Store) (t : ℕ) (tx : WriteTx) : Store :=
  { s.endTx t tx with
    operations := s.operations ++ tx.rows.map Prod.fst
    outbox := s.outbox ++ tx.rows.map Prod.snd }

/-- A commit appends the rows of its transaction to the log of its own document. -/
theorem documentRows_commitTx {s : Store} (h : Inv s) {t : ℕ} {tx : WriteTx}
    (ht : s.txs t = some tx) (hdone : tx.isDone = true) (d : Uuid) :
    (s.commitTx t tx).documentRows d =
      s.documentRows d ++ if d = tx.documentId then tx.operations else [] := by
  have hops := (WriteTx.operations_of_isDone hdone).1
  simp only [documentRows, commitTx, List.filter_append, ← hops]
  congr 1
  split
  · next hd =>
    subst hd
    exact List.filter_eq_self.mpr fun op hop => by simpa using (h.tx t tx ht).owned op hop
  · next hd =>
    refine List.filter_eq_nil_iff.mpr fun op hop => ?_
    have := (h.tx t tx ht).owned op hop
    simp only [decide_eq_true_eq]
    exact fun hop => hd (hop.symm.trans this)

/-- While one transaction is past its first statement, the others on its document are not. -/
theorem Inv.unread_of_held {s : Store} (h : Inv s) {t u : ℕ} {tx ux : WriteTx}
    (ht : s.txs t = some tx) (hb : tx.isBegun = false) (hu : s.txs u = some ux) (hne : u ≠ t)
    (hd : ux.documentId = tx.documentId) :
    ux.clock? = none ∧ ux.operations = [] ∧ ux.rows = [] := by
  have hlock := h.lock u ux hu
  rw [hd, (h.lock t tx ht).mp hb, Option.some.injEq] at hlock
  have hbegun := WriteTx.isBegun_iff.mp (by simpa [Ne.symm hne] using hlock : ux.isBegun = true)
  have hclock : ux.clock? = none := by simp [WriteTx.clock?, hbegun]
  have hclean := (h.tx u ux hu).clean hclock
  exact ⟨hclock, hclean, by simpa [WriteTx.operations, WriteTx.unpaired, hbegun] using hclean⟩

theorem Inv.commitTx {s : Store} (h : Inv s) {t : ℕ} {tx : WriteTx} (ht : s.txs t = some tx)
    (hdone : tx.isDone = true) : Inv (s.commitTx t tx) := by
  have hops := WriteTx.operations_of_isDone hdone
  have hok := h.tx t tx ht
  have hend := h.endTx ht
  have hrows := documentRows_commitTx h ht hdone
  have hchain : ∀ d, ((s.commitTx t tx).documentRows d).Pairwise Before := by
    intro d
    rw [hrows]
    split
    · next hd => exact hd ▸ hok.chain
    · simpa using h.chain d
  refine { next_pos := h.next_pos, bound := ?_, chain := hchain, tx := ?_, lock := hend.lock,
           held := hend.held, paired := ?_ }
  · intro op hop
    rcases List.mem_append.mp hop with hop | hop
    · exact h.bound op hop
    · exact hok.bound op (hops.1 ▸ hop)
  · intro u ux hu
    have hux := hend.tx u ux hu
    by_cases hd : ux.documentId = tx.documentId
    · -- another writer of the document has not passed its first statement
      have hne : u ≠ t := by
        rintro rfl
        simp [Store.commitTx, Store.endTx, setTx] at hu
      obtain ⟨hclock, hclean, hnil⟩ := h.unread_of_held ht hops.2
        (by simpa [Store.commitTx, Store.endTx, setTx, hne] using hu) hne hd
      exact .of_unread (hchain _) hclock hclean hnil
    · rw [hrows, if_neg hd, List.append_nil]
      exact hux
  · intro op hop
    rcases List.mem_append.mp hop with hop | hop
    · obtain ⟨row, hrow, hc⟩ := h.paired op hop
      exact ⟨row, List.mem_append_left _ hrow, hc⟩
    · obtain ⟨p, hp, rfl⟩ := List.mem_map.mp hop
      exact ⟨p.2, List.mem_append_right _ (List.mem_map_of_mem hp), hok.paired p hp⟩

inductive StepCase (E : Yjs Y) (s : Store) : Access → Store → Prop
  | createDocument (d : Uuid) :
      StepCase E s (.createDocument d) { s with documents := insert d s.documents }
  | handleUpdate (t : ℕ) (d u : Uuid) (update : Buffer) (hd : d ∈ s.documents)
      (ht : s.txs t = none) : StepCase E s (.handleUpdate t d u update)
        (s.setTx t (some (WriteTx.begin d u .human [update])))
  | applyOps (t : ℕ) (d u : Uuid) (binaries : List Buffer) (hd : d ∈ s.documents)
      (ht : s.txs t = none) : StepCase E s (.applyOps t d u binaries)
        (s.setTx t (some (WriteTx.begin d u .ai binaries)))
  | acquireDocumentWriteLock (t : ℕ) (tx tx' : WriteTx) (ht : s.txs t = some tx)
      (hl : tx.lock = some tx') (hfree : s.writeLock tx.documentId = none) :
      StepCase E s (.acquireDocumentWriteLock t) { s.setTx t (some tx') with
        writeLock := Function.update s.writeLock tx.documentId (some t) }
  | getMaxClockValue (t : ℕ) (tx tx' : WriteTx) (ht : s.txs t = some tx)
      (hr : tx.readClock s.operations = some tx') :
      StepCase E s (.getMaxClockValue t) (s.setTx t (some tx'))
  | insertOperation (t sequence : ℕ) (tx tx' : WriteTx) (ht : s.txs t = some tx)
      (hi : tx.insertOperation E.classifyUpdate sequence = some tx')
      (hseq : s.nextSequence ≤ sequence) : StepCase E s (.insertOperation t sequence)
        { s.setTx t (some tx') with nextSequence := sequence + 1 }
  | insertOutboxEntry (t : ℕ) (id : Uuid) (tx tx' : WriteTx) (ht : s.txs t = some tx)
      (hi : tx.insertOutboxEntry id = some tx') :
      StepCase E s (.insertOutboxEntry t id) (s.setTx t (some tx'))
  | commit (t : ℕ) (tx : WriteTx) (ht : s.txs t = some tx) (hdone : tx.isDone = true) :
      StepCase E s (.commit t) (s.commitTx t tx)
  | rollback (t : ℕ) (tx : WriteTx) (ht : s.txs t = some tx) :
      StepCase E s (.rollback t) (s.endTx t tx)
  | startSnapshotJob (j : ℕ) (d : Uuid) :
      StepCase E s (.startSnapshotJob j d) (s.setJob j (some (.started d)))
  | getLatestSnapshot (j : ℕ) (d : Uuid) (hjob : s.jobs j = some (.started d)) :
      StepCase E s (.getLatestSnapshot j)
        (s.setJob j (some (.snapshotRead d (s.latestSnapshot d))))
  | getOperationsSinceSequence (j : ℕ) (d : Uuid) (sn : Option Snapshot)
      (hjob : s.jobs j = some (.snapshotRead d sn)) :
      StepCase E s (.getOperationsSinceSequence j) (s.setJob j (some (.operationsRead d sn
        (Meridian.getOperationsSinceSequence s.operations d (afterSequence sn)))))
  | createSnapshot (j : ℕ) (d : Uuid) (sn : Option Snapshot) (ops : List Operation)
      (new : Snapshot) (hjob : s.jobs j = some (.operationsRead d sn ops))
      (hnew : compact E d sn ops = some new) :
      StepCase E s (.createSnapshot j) { s.setJob j none with
        latestSnapshot := Function.update s.latestSnapshot d (some new) }
  | failSnapshotJob (j : ℕ) (job : SnapshotJob) (hjob : s.jobs j = some job) :
      StepCase E s (.failSnapshotJob j) (s.setJob j none)

theorem step_cases {s s' : Store} {a : Access} (hs : step E s a = some s') :
    StepCase E s a s' := by
  cases a with
  | createDocument d =>
    cases hs
    exact .createDocument d
  | handleUpdate t d u update =>
    obtain ⟨_, -, hs⟩ := Option.bind_eq_some_iff.mp hs
    obtain ⟨hd, ht, rfl⟩ := beginTx_eq_some hs
    exact .handleUpdate t d u update hd ht
  | applyOps t d u binaries =>
    obtain ⟨hd, ht, rfl⟩ := beginTx_eq_some hs
    exact .applyOps t d u binaries hd ht
  | acquireDocumentWriteLock t =>
    obtain ⟨tx, ht, hs⟩ := Option.bind_eq_some_iff.mp hs
    obtain ⟨tx', hl, hs⟩ := Option.bind_eq_some_iff.mp hs
    obtain ⟨hfree, hs⟩ := Option.ite_none_right_eq_some.mp hs
    cases hs
    exact .acquireDocumentWriteLock t tx tx' ht hl hfree
  | getMaxClockValue t =>
    obtain ⟨tx, ht, hs⟩ := Option.bind_eq_some_iff.mp hs
    obtain ⟨tx', hr, rfl⟩ := Option.map_eq_some_iff.mp hs
    exact .getMaxClockValue t tx tx' ht hr
  | insertOperation t sequence =>
    obtain ⟨tx, ht, hs⟩ := Option.bind_eq_some_iff.mp hs
    obtain ⟨tx', hi, hs⟩ := Option.bind_eq_some_iff.mp hs
    obtain ⟨hseq, hs⟩ := Option.ite_none_right_eq_some.mp hs
    cases hs
    exact .insertOperation t sequence tx tx' ht hi hseq
  | insertOutboxEntry t id =>
    obtain ⟨tx, ht, hs⟩ := Option.bind_eq_some_iff.mp hs
    obtain ⟨tx', hi, rfl⟩ := Option.map_eq_some_iff.mp hs
    exact .insertOutboxEntry t id tx tx' ht hi
  | commit t =>
    obtain ⟨tx, ht, hs⟩ := Option.bind_eq_some_iff.mp hs
    obtain ⟨hdone, hs⟩ := Option.ite_none_right_eq_some.mp hs
    cases hs
    exact .commit t tx ht hdone
  | rollback t =>
    obtain ⟨tx, ht, rfl⟩ := Option.map_eq_some_iff.mp hs
    exact .rollback t tx ht
  | startSnapshotJob j d =>
    obtain ⟨-, hs⟩ := Option.ite_none_right_eq_some.mp hs
    cases hs
    exact .startSnapshotJob j d
  | getLatestSnapshot j =>
    obtain ⟨job, hjob, hs⟩ := Option.bind_eq_some_iff.mp hs
    split at hs
    · next d =>
      cases hs
      exact .getLatestSnapshot j d hjob
    · cases hs
  | getOperationsSinceSequence j =>
    obtain ⟨job, hjob, hs⟩ := Option.bind_eq_some_iff.mp hs
    split at hs
    · next d sn =>
      cases hs
      exact .getOperationsSinceSequence j d sn hjob
    · cases hs
  | createSnapshot j =>
    obtain ⟨job, hjob, hs⟩ := Option.bind_eq_some_iff.mp hs
    split at hs
    · next d sn ops =>
      obtain ⟨new, hnew, hs⟩ := Option.bind_eq_some_iff.mp hs
      obtain ⟨-, hs⟩ := Option.ite_none_right_eq_some.mp hs
      cases hs
      exact .createSnapshot j d sn ops new hjob hnew
    · cases hs
  | failSnapshotJob j =>
    obtain ⟨job, hjob, rfl⟩ := Option.map_eq_some_iff.mp hs
    exact .failSnapshotJob j job hjob

theorem inv_step {s s' : Store} (h : Inv s) {a : Access} (hs : step E s a = some s') : Inv s' := by
  cases step_cases hs with
  | handleUpdate t d u update _ ht => exact h.beginTx ht d u .human [update]
  | applyOps t d u binaries _ ht => exact h.beginTx ht d u .ai binaries
  | acquireDocumentWriteLock t tx tx' ht hl hfree => exact h.acquire ht hl hfree
  | getMaxClockValue t tx tx' ht hr =>
    have hok := (h.tx t tx ht).readClock hr
    obtain ⟨hp, rfl⟩ := WriteTx.readClock_eq_some hr
    exact h.replaceTx ht rfl (by simp [WriteTx.isBegun, hp]) le_rfl hok
  | insertOperation t sequence tx tx' ht hi hseq =>
    have hok := (h.tx t tx ht).insertOperation (h.rows_bound _) h.next_pos hseq hi
    obtain ⟨_, _, _, _, hp, -, -, -, -, -, rfl⟩ := WriteTx.insertOperation_eq_some hi
    exact h.replaceTx ht rfl (by simp [WriteTx.isBegun, hp]) (by omega) hok
  | insertOutboxEntry t id tx tx' ht hi =>
    have hok := (h.tx t tx ht).insertOutboxEntry hi
    obtain ⟨_, _, _, hp, rfl⟩ := WriteTx.insertOutboxEntry_eq_some hi
    exact h.replaceTx ht rfl (by simp [WriteTx.isBegun, hp]) le_rfl hok
  | commit t tx ht hdone => exact h.commitTx ht hdone
  | rollback t tx ht => exact h.endTx ht
  | createDocument | startSnapshotJob | getLatestSnapshot | getOperationsSinceSequence
  | createSnapshot | failSnapshotJob => exact { h with }

theorem Reachable.inv {s : Store} (h : Reachable E s) : Inv s :=
  Runs.Reach.invariant (fun _ hs => hs ▸ inv_initial) (fun _ _ _ hi _ hs => inv_step hi hs) h

/-- In every state that concurrent writers reach, the committed operations of a document
are ordered by clock exactly as by sequence, and no clock is given out twice. -/
theorem clock_order {s : Store} (h : Reachable E s) (d : Uuid) :
    (∀ a ∈ s.operations, ∀ b ∈ s.operations, a.documentId = d → b.documentId = d →
      a.operationSequence < b.operationSequence → a.clockValue < b.clockValue) ∧
    ((s.documentRows d).map Operation.clockValue).Nodup := by
  have hchain := h.inv.chain d
  constructor
  · intro a ha b hb hda hdb
    have hall := (hchain.imp Before.agree).forall_of_forall fun x _ => agree_refl x
    exact (hall (mem_documentRows.mpr ⟨ha, hda⟩) (mem_documentRows.mpr ⟨hb, hdb⟩)).1
  · exact List.pairwise_map.mpr (hchain.imp fun hab => Nat.ne_of_lt hab.2)

/-- A client's update begins first, but an AI request of two operations takes the lock
and commits before it. -/
def twoWriters : List Access :=
  [.createDocument 7, .handleUpdate 0 7 1 [3], .applyOps 1 7 2 [[4], [5]],
    .acquireDocumentWriteLock 1, .getMaxClockValue 1, .insertOperation 1 1,
    .insertOutboxEntry 1 11, .insertOperation 1 3, .insertOutboxEntry 1 13, .commit 1,
    .acquireDocumentWriteLock 0, .getMaxClockValue 0, .insertOperation 0 5,
    .insertOutboxEntry 0 15, .commit 0]

theorem clock_order_twoWriters : ∃ s, Runs.exec (step Yjs.bytes) initial twoWriters = some s ∧
    s.operations.map Operation.clockValue = [1, 2, 5] ∧
    (∀ a ∈ s.operations, ∀ b ∈ s.operations, a.documentId = 7 → b.documentId = 7 →
      a.operationSequence < b.operationSequence → a.clockValue < b.clockValue) ∧
    ((s.documentRows 7).map Operation.clockValue).Nodup := by
  obtain ⟨s, hs, hclocks⟩ : ∃ s, Runs.exec (step Yjs.bytes) initial twoWriters = some s ∧
      s.operations.map Operation.clockValue = [1, 2, 5] := ⟨_, rfl, rfl⟩
  exact ⟨s, hs, hclocks, clock_order (Runs.reachable_exec rfl hs) 7⟩

end Store

end Meridian
