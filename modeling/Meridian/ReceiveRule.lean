import Meridian.WriteInvariant
import Meridian.Lib.Tables

/-! The Lamport receive rule over the whole log: the clock of a row is one more than the
larger of the clocks before it and the clock its own update carries. The statements of a
human update follow it by themselves; those of an AI batch count on from the log and never
look at the update. -/
namespace Meridian

def maxClock (log : List Operation) : ℕ := (log.map Operation.clockValue).foldr max 0

theorem maxClock_concat (log : List Operation) (b : Operation) :
    maxClock (log ++ [b]) = max (maxClock log) b.clockValue := by
  induction log with
  | nil => simp [maxClock]
  | cons a log ih => simpa [maxClock, max_assoc] using congrArg (max a.clockValue) ih

/-- Unless an AI update is ahead of the log, the two write paths compute the same clock. -/
theorem nextClock_eq {source : OperationSource} {clock received : ℕ}
    (h : source = .ai → received ≤ clock) :
    nextClock source clock received = max clock received + 1 := by
  cases source with
  | human => rfl
  | ai => simp [nextClock, h rfl]

namespace WriteTx

/-- The clock reached and the clock that the next update carries, before its insert. -/
def clocksAtInsert (tx : WriteTx) (classify : Buffer → Option Classified) : Option (ℕ × ℕ) :=
  match tx.phase, tx.updates with
  | .ready clock, update :: _ => (classify update).map fun c => (clock, c.receivedClock)
  | _, _ => none

theorem insertOperation_classified {tx tx' : WriteTx} {classify : Buffer → Option Classified}
    {sequence : ℕ} (h : tx.insertOperation classify sequence = some tx') :
    ∃ clock update c op, tx.clocksAtInsert classify = some (clock, c.receivedClock) ∧
      tx.clock? = some clock ∧ classify update = some c ∧
      op.yjsUpdate = some update ∧ op.clockValue = nextClock tx.source clock c.receivedClock ∧
      tx'.documentId = tx.documentId ∧ tx'.clock? = some op.clockValue ∧
      tx'.operations = tx.operations ++ [op] := by
  unfold insertOperation at h
  split at h
  · next clock update updates hp hu =>
    obtain ⟨c, hc, h⟩ := Option.bind_eq_some_iff.mp h
    obtain ⟨-, h⟩ := Option.ite_none_right_eq_some.mp h
    cases h
    refine ⟨clock, update, c, ⟨tx.documentId, tx.userId, c.type, some update, sequence,
      nextClock tx.source clock c.receivedClock, tx.source, c.payload⟩, ?_, ?_, hc, rfl, rfl, rfl,
      rfl, ?_⟩
    · simp [clocksAtInsert, hp, hu, hc]
    · simp [clock?, hp]
    · simp [WriteTx.operations, unpaired, hp]
  · cases h

end WriteTx

namespace Store

variable {Y : Type} [SemilatticeSup Y] [OrderBot Y] {E : Yjs Y}

def Receives (E : Yjs Y) (earlier : List Operation) (b : Operation) : Prop :=
  ∃ update c, b.yjsUpdate = some update ∧ E.classifyUpdate update = some c ∧
    b.clockValue = max (maxClock earlier) c.receivedClock + 1

def ReceiveRule (E : Yjs Y) (log : List Operation) : Prop :=
  ∀ earlier b, earlier ++ [b] <+: log → Receives E earlier b

theorem receiveRule_nil : ReceiveRule E [] := fun earlier b h => by simp at h

theorem ReceiveRule.concat {log : List Operation} {b : Operation} (h : ReceiveRule E log)
    (hb : Receives E log b) : ReceiveRule E (log ++ [b]) := by
  intro earlier b' hp
  rcases List.prefix_concat_iff.mp hp with heq | hp
  · obtain ⟨rfl, hbb⟩ := List.append_inj' heq rfl
    cases hbb
    exact hb
  · exact h earlier b' hp

/-- An AI transaction inserts an update only if the clock it has reached is at least the
one the update carries. -/
def AiClockReached (E : Yjs Y) (s : Store) : Access → Prop
  | .insertOperation t _ => ∀ tx ∈ s.txs t, tx.source = .ai →
      ∀ p ∈ tx.clocksAtInsert E.classifyUpdate, p.2 ≤ p.1
  | _ => True

instance AiClockReached.decidable (E : Yjs Y) (s : Store) :
    ∀ a, Decidable (AiClockReached E s a)
  | .insertOperation t _ => inferInstanceAs (Decidable (∀ tx ∈ s.txs t, tx.source = .ai →
      ∀ p ∈ tx.clocksAtInsert E.classifyUpdate, p.2 ≤ p.1))
  | .createDocument _ | .handleUpdate .. | .applyOps .. | .acquireDocumentWriteLock _
  | .getMaxClockValue _ | .insertOutboxEntry .. | .commit _ | .rollback _ | .startSnapshotJob ..
  | .getLatestSnapshot _ | .getOperationsSinceSequence _ | .createSnapshot _
  | .failSnapshotJob _ => isTrue trivial

/-- What the rule needs of a transaction: its rows continue the log by the rule, and the
clock it has reached is the highest one it sees. -/
structure Continues (E : Yjs Y) (log : List Operation) (tx : WriteTx) : Prop where
  rule : ReceiveRule E (log ++ tx.operations)
  clock : ∀ c, tx.clock? = some c → c = maxClock (log ++ tx.operations)

theorem Continues.of_unread {log : List Operation} {tx : WriteTx} (hlog : ReceiveRule E log)
    (hops : tx.operations = []) (hclock : tx.clock? = none) : Continues E log tx where
  rule := by simpa [hops] using hlog
  clock c hc := by simp [hclock] at hc

/-- The committed logs follow the rule, and so does what an open transaction adds. -/
structure ReceiveInv (E : Yjs Y) (s : Store) : Prop where
  log : ∀ d, ReceiveRule E (s.documentRows d)
  tx : ∀ t tx, s.txs t = some tx → Continues E (s.documentRows tx.documentId) tx

theorem receiveInv_initial : ReceiveInv E initial where
  log d := by simpa [documentRows, initial] using receiveRule_nil
  tx t tx h := by simp [initial] at h

theorem ReceiveInv.setTx {s s' : Store} (h : ReceiveInv E s) {t : ℕ} {tx' : WriteTx}
    (hops : s'.operations = s.operations) (htxs : s'.txs = Function.update s.txs t (some tx'))
    (hok : Continues E (s.documentRows tx'.documentId) tx') : ReceiveInv E s' := by
  have hrows : s'.documentRows = s.documentRows := by
    funext d
    simp only [documentRows, hops]
  refine ⟨fun d => hrows ▸ h.log d, fun u ux hu => ?_⟩
  rw [hrows]
  rcases Tables.update_eq_some.mp (htxs ▸ hu) with ⟨-, hx⟩ | ⟨-, hu⟩
  · cases hx
    exact hok
  · exact h.tx u ux hu

theorem ReceiveInv.endTx {s : Store} (h : ReceiveInv E s) (t : ℕ) (tx : WriteTx) :
    ReceiveInv E (s.endTx t tx) where
  log := h.log
  tx u ux hu := h.tx u ux (Tables.update_none_eq_some.mp hu).2

/-- The row that an insert adds follows the rule if the transaction's clock has passed the
update's own, which only an AI transaction can miss. -/
theorem Continues.insertOperation {log : List Operation} {tx tx' : WriteTx} {sequence : ℕ}
    (h : Continues E log tx) (hi : tx.insertOperation E.classifyUpdate sequence = some tx')
    (hok : tx.source = .ai → ∀ p ∈ tx.clocksAtInsert E.classifyUpdate, p.2 ≤ p.1) :
    Continues E log tx' := by
  obtain ⟨clock, update, c, op, hat, hclock, hc, hu, hop, -, hclock', hops⟩ :=
    WriteTx.insertOperation_classified hi
  rw [nextClock_eq fun hai => hok hai _ hat, h.clock clock hclock] at hop
  refine ⟨?_, fun c' hc' => ?_⟩
  · rw [hops, ← List.append_assoc]
    exact h.rule.concat ⟨update, c, hu, hc, hop⟩
  · rw [hclock', Option.some.injEq] at hc'
    rw [hops, ← List.append_assoc, maxClock_concat, ← hc']
    omega

/-- A commit moves the rows of its transaction to the log, where every other transaction
of the document has still to take the lock. -/
theorem ReceiveInv.commitTx {s : Store} (h : ReceiveInv E s) (hinv : Inv s) {t : ℕ} {tx : WriteTx}
    (ht : s.txs t = some tx) (hdone : tx.isDone = true) : ReceiveInv E (s.commitTx t tx) := by
  have hrows := documentRows_commitTx hinv ht hdone
  have hlog : ∀ d, ReceiveRule E ((s.commitTx t tx).documentRows d) := by
    intro d
    rw [hrows]
    split
    · next hd => exact hd ▸ (h.tx t tx ht).rule
    · simpa using h.log d
  refine ⟨hlog, fun u ux hu => ?_⟩
  obtain ⟨hne, hux⟩ := Tables.update_none_eq_some.mp hu
  by_cases hd : ux.documentId = tx.documentId
  · obtain ⟨hclock, hops, -⟩ :=
      hinv.unread_of_held ht (WriteTx.operations_of_isDone hdone).2 hux hne hd
    exact .of_unread (hlog _) hops hclock
  · rw [hrows, if_neg hd, List.append_nil]
    exact h.tx u ux hux

theorem receiveInv_step {s s' : Store} {a : Access} (hinv : Inv s) (h : ReceiveInv E s)
    (hok : AiClockReached E s a) (hs : step E s a = some s') : ReceiveInv E s' := by
  cases step_cases hs with
  | handleUpdate t d u update _ _ =>
    exact h.setTx rfl rfl (.of_unread (h.log d) rfl rfl)
  | applyOps t d u binaries _ _ =>
    exact h.setTx rfl rfl (.of_unread (h.log d) rfl rfl)
  | acquireDocumentWriteLock t tx tx' ht hl _ =>
    have hops := (hinv.tx t tx ht).lock (hinv.chain _) hl
    obtain ⟨-, rfl⟩ := WriteTx.lock_eq_some hl
    exact h.setTx rfl rfl (.of_unread (h.log _) (hops.clean rfl) rfl)
  | getMaxClockValue t tx tx' ht hr =>
    obtain ⟨hp, rfl⟩ := WriteTx.readClock_eq_some hr
    have hops := (hinv.tx t tx ht).clean (by simp [WriteTx.clock?, hp])
    have hrows : tx.rows = [] := by
      simpa [WriteTx.operations, WriteTx.unpaired, hp] using hops
    refine h.setTx rfl rfl ⟨?_, fun c hc => ?_⟩
    · simpa [WriteTx.operations, WriteTx.unpaired, hrows] using h.log tx.documentId
    · obtain rfl : _ = c := Option.some.inj hc
      simp [WriteTx.operations, WriteTx.unpaired, hrows, maxClock, documentRows,
        Meridian.getMaxClockValue]
  | insertOperation t sequence tx tx' ht hi _ =>
    have hd : tx'.documentId = tx.documentId := by
      obtain ⟨_, _, _, _, -, -, -, -, -, hd, -, -⟩ := WriteTx.insertOperation_classified hi
      exact hd
    exact h.setTx rfl rfl (hd ▸ (h.tx t tx ht).insertOperation hi (hok tx ht))
  | insertOutboxEntry t id tx tx' ht hi =>
    obtain ⟨clock, op, update, hp, rfl⟩ := WriteTx.insertOutboxEntry_eq_some hi
    have hold := h.tx t tx ht
    refine h.setTx rfl rfl ⟨?_, fun c hc => ?_⟩
    · simpa [WriteTx.operations, WriteTx.unpaired, hp] using hold.rule
    · simpa [WriteTx.operations, WriteTx.unpaired, hp] using
        hold.clock c (by simpa [WriteTx.clock?, hp] using hc)
  | commit t tx ht hdone => exact h.commitTx hinv ht hdone
  | rollback t tx ht => exact h.endTx t tx
  | createDocument | startSnapshotJob | getLatestSnapshot | getOperationsSinceSequence
  | createSnapshot | failSnapshotJob => exact ⟨h.log, h.tx⟩

theorem reach_receiveInv {s : Store}
    (h : Runs.Reach (step E) (fun s => s = initial) (AiClockReached E) s) :
    Inv s ∧ ReceiveInv E s := by
  refine Runs.Reach.invariant (P := fun s => Inv s ∧ ReceiveInv E s) ?_ ?_ h
  · rintro s rfl
    exact ⟨inv_initial, receiveInv_initial⟩
  · intro s a t hi hok hs
    exact ⟨inv_step hi.1 hs, receiveInv_step hi.1 hi.2 hok hs⟩

/-- In a run of human updates and AI edits that inserts no AI update ahead of the log, the
clock of every committed row is past those of the rows before it and past the highest one
its own update carries, by the rule of the human path. -/
theorem clock_receives {s : Store}
    (h : Runs.Reach (step E) (fun s => s = initial) (AiClockReached E) s) (d : Uuid)
    (earlier : List Operation) (b : Operation) (hb : earlier ++ [b] <+: s.documentRows d) :
    (∀ a ∈ earlier, a.operationSequence < b.operationSequence ∧ a.clockValue < b.clockValue) ∧
    ∃ update c, b.yjsUpdate = some update ∧ E.classifyUpdate update = some c ∧
      c.receivedClock < b.clockValue ∧
      b.clockValue = nextClock .human (maxClock earlier) c.receivedClock := by
  obtain ⟨hinv, hrec⟩ := reach_receiveInv h
  obtain ⟨update, c, hu, hc, hclock⟩ := hrec.log d earlier b hb
  refine ⟨fun a ha => ?_, update, c, hu, hc, by omega, hclock⟩
  have hchain := (hinv.chain d).sublist hb.sublist
  exact (List.pairwise_append.mp hchain).2.2 a ha b (List.mem_singleton_self b)

/-- The update that writes `hello` into an empty document: client 1 adds a paragraph, its
text node and five characters. -/
def helloUpdate : Buffer :=
  [1, 3, 1, 0, 7, 1, 7, 99, 111, 110, 116, 101, 110, 116, 3, 9, 112, 97, 114, 97, 103, 114, 97,
    112, 104, 7, 0, 1, 0, 6, 4, 0, 1, 1, 5, 104, 101, 108, 108, 111, 0]

def deleteHelloUpdate : Buffer := [0, 1, 1, 1, 2, 5]

def helloYjs : Yjs (Finset (Fin 256)) :=
  { Yjs.bytes with
    decodeUpdate := fun update =>
      if update = helloUpdate then
        some ⟨[⟨⟨1, 0⟩, 1, some .other⟩, ⟨⟨1, 1⟩, 1, some .other⟩,
          ⟨⟨1, 2⟩, 5, some (.string (js "hello"))⟩], []⟩
      else if update = deleteHelloUpdate then some ⟨[], [(1, [⟨2, 5⟩])]⟩
      else none }

def writeStatements (t sequence : ℕ) : List Access :=
  [.acquireDocumentWriteLock t, .getMaxClockValue t, .insertOperation t sequence,
    .insertOutboxEntry t sequence, .commit t]

/-- A member types `hello`, then an AI edit deletes it. -/
def typedThenDeleted : List Access :=
  .createDocument 7 :: .handleUpdate 0 7 1 helloUpdate :: writeStatements 0 1 ++
    .applyOps 1 7 2 [deleteHelloUpdate] :: writeStatements 1 2

theorem clock_receives_typedThenDeleted :
    ∃ s, Runs.exec (step helloYjs) initial typedThenDeleted = some s ∧
      ∃ a b, s.documentRows 7 = [a, b] ∧ a.clockValue = 8 ∧ b.clockValue = 9 ∧
        b.source = .ai ∧ (∀ o ∈ [a], o.operationSequence < b.operationSequence ∧
          o.clockValue < b.clockValue) ∧
        ∃ update c, b.yjsUpdate = some update ∧ helloYjs.classifyUpdate update = some c ∧
          c.receivedClock < b.clockValue ∧
          b.clockValue = nextClock .human (maxClock [a]) c.receivedClock := by
  obtain ⟨s, hs⟩ : ∃ s, Runs.exec (step helloYjs) initial typedThenDeleted = some s := ⟨_, rfl⟩
  obtain ⟨a, b, hrows, ha, hb, hai⟩ : ∃ a b, s.documentRows 7 = [a, b] ∧ a.clockValue = 8 ∧
      b.clockValue = 9 ∧ b.source = .ai := by
    cases hs
    exact ⟨_, _, rfl, rfl, rfl, rfl⟩
  have hok : Runs.Follows (step helloYjs) (AiClockReached helloYjs) initial typedThenDeleted := by
    decide
  have hreach : Runs.Reach (step helloYjs) (fun s => s = initial) (AiClockReached helloYjs) s :=
    Runs.Reach.exec (.start rfl) hok hs
  exact ⟨s, hs, a, b, hrows, ha, hb, hai,
    clock_receives hreach 7 [a] b (by rw [hrows]; exact List.prefix_rfl)⟩

/-- An AI edit that writes `hello` into an empty document. -/
theorem clock_receives_fails : ¬ ∀ s, Reachable helloYjs s → ∀ b ∈ s.operations,
    ∀ update ∈ b.yjsUpdate, ∀ c ∈ helloYjs.classifyUpdate update,
      c.receivedClock < b.clockValue := by
  intro h
  obtain ⟨s, hs⟩ : ∃ s, Runs.exec (step helloYjs) initial (.createDocument 7 ::
      .applyOps 0 7 2 [helloUpdate] :: writeStatements 0 1) = some s := ⟨_, rfl⟩
  have hreach := h s (Runs.reachable_exec rfl hs)
  cases hs
  exact absurd (hreach _ List.mem_cons_self helloUpdate rfl _ rfl) (by decide)

end Store

end Meridian
