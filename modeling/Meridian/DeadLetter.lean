import Meridian.JoinMachine
import Meridian.Lib.Tables

/-! Executions of `process` that overlap, also on one row. Attempts are read, counted up
and written back without a lock, every access may fail, and a process may die between any
two of its steps. The queue is left out: any execution may start at any time. -/
namespace Meridian

/-- What becomes of one access to Redis or Postgres: it takes effect and says so, its reply
is lost, or it has no effect. The last two throw. -/
inductive Outcome
  | done | lost | failed
  deriving DecidableEq

def Outcome.takesEffect (o : Outcome) : Bool := o ≠ .failed

def Outcome.throws (o : Outcome) : Bool := o ≠ .done

@[simp] theorem Outcome.throws_iff {o : Outcome} : o.throws = true ↔ o ≠ .done := by
  simp [throws]

/-- A message on the channel `doc:<documentId>`, with the row that it is sent for. -/
structure OutboxFrame where
  outboxId : Uuid
  documentId : Uuid
  bytes : Buffer

/-- The table and the running executions. Kept for the statements: each row as it was
inserted, the frames published, and for each row the publications that threw. -/
structure Outbox where
  inserted : Uuid → Option OutboxRow
  rows : Uuid → Option OutboxRow
  executions : ℕ → Option (Uuid × Execution)
  published : List OutboxFrame
  failures : Uuid → ℕ

/-- The steps of an execution `h`, and those that begin and end it. It ends when it returns,
when an access outside its `try` block throws, or when its process crashes. -/
inductive OutboxAction
  | insertOutboxEntry (row : OutboxRow)
  | process (h : ℕ) (outboxId : Uuid)
  | getOutboxById (h : ℕ)
  | publish (h : ℕ) (outcome : Outcome)
  | deleteRow (h : ℕ) (outcome : Outcome)
  | updateAttempts (h : ℕ) (takesEffect : Bool)
  | stop (h : ℕ)

namespace Outbox

def initial : Outbox where
  inserted := fun _ => none
  rows := fun _ => none
  executions := fun _ => none
  published := []
  failures := fun _ => 0

def setExecution (s : Outbox) (h : ℕ) (id : Uuid) (e : Execution) : Outbox :=
  { s with executions := Function.update s.executions h (some (id, e)) }

def publishFrame (s : Outbox) (id : Uuid) (row : OutboxRow) (outcome : Outcome) : Outbox :=
  { s with
    published := s.published ++
      if outcome.takesEffect then [⟨id, row.documentId, outboxFrameHeader ++ row.payload⟩] else []
    failures := if outcome.throws then Function.update s.failures id (s.failures id + 1)
      else s.failures }

def step (maxAttempts : ℕ) (s : Outbox) : OutboxAction → Option Outbox
  | .insertOutboxEntry row =>
    if s.inserted row.id = none ∧ row.attempts = 0 then
      some { s with
        inserted := Function.update s.inserted row.id (some row)
        rows := Function.update s.rows row.id (some row) }
    else none
  | .process h id => if s.executions h = none then some (s.setExecution h id .started) else none
  | .getOutboxById h =>
    match s.executions h with
    | some (id, .started) =>
      some (s.setExecution h id (match s.rows id with
        | none => .returning
        | some row => if maxAttempts ≤ row.attempts then .deleting row else .publishing row))
    | _ => none
  | .publish h outcome =>
    match s.executions h with
    | some (id, .publishing row) =>
      some ((s.publishFrame id row outcome).setExecution h id
        (if outcome.throws then .caught row else .deleting row))
    | _ => none
  | .deleteRow h outcome =>
    match s.executions h with
    | some (id, .deleting row) =>
      some { s.setExecution h id (if outcome.throws then .caught row else .returning) with
        rows := if outcome.takesEffect then Function.update s.rows id none else s.rows }
    | _ => none
  | .updateAttempts h takesEffect =>
    match s.executions h with
    | some (id, .caught row) =>
      some { s.setExecution h id (.updated row) with
        rows := if takesEffect then Function.update s.rows id
            ((s.rows id).map fun r => { r with attempts := row.attempts + 1 })
          else s.rows }
    | _ => none
  | .stop h =>
    if (s.executions h).isSome then
      some { s with executions := Function.update s.executions h none }
    else none

abbrev Reachable (maxAttempts : ℕ) : Outbox → Prop :=
  Runs.Reachable (step maxAttempts) fun s => s = initial

inductive StepCase (maxAttempts : ℕ) (s : Outbox) : OutboxAction → Outbox → Prop
  | insertOutboxEntry (row : OutboxRow) (hnew : s.inserted row.id = none)
      (hzero : row.attempts = 0) : StepCase maxAttempts s (.insertOutboxEntry row) { s with
        inserted := Function.update s.inserted row.id (some row)
        rows := Function.update s.rows row.id (some row) }
  | process (h : ℕ) (id : Uuid) : StepCase maxAttempts s (.process h id)
      (s.setExecution h id .started)
  | gone (h : ℕ) (id : Uuid) (he : s.executions h = some (id, .started)) (hrow : s.rows id = none) :
      StepCase maxAttempts s (.getOutboxById h) (s.setExecution h id .returning)
  | deadLetter (h : ℕ) (id : Uuid) (row : OutboxRow) (he : s.executions h = some (id, .started))
      (hrow : s.rows id = some row) (hmax : maxAttempts ≤ row.attempts) :
      StepCase maxAttempts s (.getOutboxById h) (s.setExecution h id (.deleting row))
  | read (h : ℕ) (id : Uuid) (row : OutboxRow) (he : s.executions h = some (id, .started))
      (hrow : s.rows id = some row) :
      StepCase maxAttempts s (.getOutboxById h) (s.setExecution h id (.publishing row))
  | publish (h : ℕ) (outcome : Outcome) (id : Uuid) (row : OutboxRow)
      (he : s.executions h = some (id, .publishing row)) :
      StepCase maxAttempts s (.publish h outcome) ((s.publishFrame id row outcome).setExecution h id
        (if outcome.throws then .caught row else .deleting row))
  | deleteRow (h : ℕ) (outcome : Outcome) (id : Uuid) (row : OutboxRow)
      (he : s.executions h = some (id, .deleting row)) :
      StepCase maxAttempts s (.deleteRow h outcome)
        { s.setExecution h id (if outcome.throws then .caught row else .returning) with
          rows := if outcome.takesEffect then Function.update s.rows id none else s.rows }
  | updateAttempts (h : ℕ) (takesEffect : Bool) (id : Uuid) (row : OutboxRow)
      (he : s.executions h = some (id, .caught row)) :
      StepCase maxAttempts s (.updateAttempts h takesEffect)
        { s.setExecution h id (.updated row) with
          rows := if takesEffect then Function.update s.rows id
              ((s.rows id).map fun r => { r with attempts := row.attempts + 1 })
            else s.rows }
  | stop (h : ℕ) : StepCase maxAttempts s (.stop h)
      { s with executions := Function.update s.executions h none }

theorem step_cases {maxAttempts : ℕ} {s s' : Outbox} {a : OutboxAction}
    (hs : step maxAttempts s a = some s') : StepCase maxAttempts s a s' := by
  cases a with
  | insertOutboxEntry row =>
    obtain ⟨⟨hnew, hzero⟩, hs⟩ := Option.ite_none_right_eq_some.mp hs
    cases hs
    exact .insertOutboxEntry row hnew hzero
  | process h id =>
    obtain ⟨-, hs⟩ := Option.ite_none_right_eq_some.mp hs
    cases hs
    exact .process h id
  | getOutboxById h =>
    simp only [step] at hs
    split at hs
    · next id he =>
      cases hs
      cases hrow : s.rows id with
      | none => exact .gone h id he hrow
      | some row =>
        by_cases hmax : maxAttempts ≤ row.attempts
        · simpa [hmax] using StepCase.deadLetter h id row he hrow hmax
        · simpa [hmax] using StepCase.read h id row he hrow
    · cases hs
  | publish h outcome =>
    simp only [step] at hs
    split at hs
    · next id row he =>
      cases hs
      exact .publish h outcome id row he
    · cases hs
  | deleteRow h outcome =>
    simp only [step] at hs
    split at hs
    · next id row he =>
      cases hs
      exact .deleteRow h outcome id row he
    · cases hs
  | updateAttempts h takesEffect =>
    simp only [step] at hs
    split at hs
    · next id row he =>
      cases hs
      exact .updateAttempts h takesEffect id row he
    · cases hs
  | stop h =>
    obtain ⟨-, hs⟩ := Option.ite_none_right_eq_some.mp hs
    cases hs
    exact .stop h

def Settled (maxAttempts : ℕ) (s : Outbox) (id : Uuid) : Prop :=
  (∃ f ∈ s.published, f.outboxId = id) ∨ maxAttempts ≤ s.failures id

def Accounted (maxAttempts : ℕ) (s : Outbox) (id : Uuid) (attempts : ℕ) : Prop :=
  s.Settled maxAttempts id ∨ attempts ≤ s.failures id

def Stored (s : Outbox) (id : Uuid) (row : OutboxRow) : Prop :=
  ∃ first, s.inserted id = some first ∧ row.documentId = first.documentId ∧
    row.payload = first.payload

/-- What an execution relies on from the copy of the row it has read. -/
def ExecutionOk (maxAttempts : ℕ) (s : Outbox) (id : Uuid) : Execution → Prop
  | .publishing row => s.Stored id row ∧ s.Accounted maxAttempts id row.attempts
  | .deleting _ => s.Settled maxAttempts id
  | .caught row => s.Accounted maxAttempts id (row.attempts + 1)
  | .started | .updated _ | .returning => True

structure Extends (s s' : Outbox) : Prop where
  inserted : ∀ id row, s.inserted id = some row → s'.inserted id = some row
  published : s.published ⊆ s'.published
  failures : ∀ id, s.failures id ≤ s'.failures id

theorem Extends.of_eq {s s' : Outbox} (hi : s'.inserted = s.inserted)
    (hp : s'.published = s.published) (hf : s'.failures = s.failures) : Extends s s' :=
  ⟨fun _ _ h => hi ▸ h, hp ▸ List.Subset.refl _, fun _ => hf ▸ le_rfl⟩

theorem Extends.settled {maxAttempts : ℕ} {s s' : Outbox} (h : Extends s s') {id : Uuid}
    (hs : s.Settled maxAttempts id) : s'.Settled maxAttempts id := by
  rcases hs with ⟨f, hf, hid⟩ | hs
  · exact .inl ⟨f, h.published hf, hid⟩
  · exact .inr (hs.trans (h.failures id))

theorem Extends.accounted {maxAttempts : ℕ} {s s' : Outbox} (h : Extends s s') {id : Uuid} {n : ℕ}
    (hs : s.Accounted maxAttempts id n) : s'.Accounted maxAttempts id n :=
  hs.imp h.settled fun hn => hn.trans (h.failures id)

theorem Extends.stored {s s' : Outbox} (h : Extends s s') {id : Uuid} {row : OutboxRow}
    (hs : s.Stored id row) : s'.Stored id row := by
  obtain ⟨first, hfirst, hrow⟩ := hs
  exact ⟨first, h.inserted id first hfirst, hrow⟩

theorem Extends.executionOk {maxAttempts : ℕ} {s s' : Outbox} (h : Extends s s') {id : Uuid}
    {e : Execution} (hs : s.ExecutionOk maxAttempts id e) : s'.ExecutionOk maxAttempts id e := by
  cases e with
  | publishing row => exact ⟨h.stored hs.1, h.accounted hs.2⟩
  | deleting row => exact h.settled hs
  | caught row => exact h.accounted hs
  | started | updated row | returning => trivial

/-- The attempts in the table and those an execution has read are all accounted for, and a
row is gone only when it is settled. -/
structure Inv (maxAttempts : ℕ) (s : Outbox) : Prop where
  row : ∀ id row, s.rows id = some row → s.Stored id row ∧ s.Accounted maxAttempts id row.attempts
  gone : ∀ id row, s.inserted id = some row → s.rows id = none → s.Settled maxAttempts id
  execution : ∀ h id e, s.executions h = some (id, e) → s.ExecutionOk maxAttempts id e
  frame : ∀ f ∈ s.published, ∃ row, s.inserted f.outboxId = some row ∧
    f.documentId = row.documentId ∧ f.bytes = outboxFrameHeader ++ row.payload

theorem inv_initial (maxAttempts : ℕ) : Inv maxAttempts initial where
  row id row h := by simp [initial] at h
  gone id row h := by simp [initial] at h
  execution h id e he := by simp [initial] at he
  frame f hf := by simp [initial] at hf

variable {maxAttempts : ℕ} {s s' : Outbox}

theorem Inv.setExecution (h : Inv maxAttempts s) (k : ℕ) {id : Uuid} {e : Execution}
    (hok : s.ExecutionOk maxAttempts id e) : Inv maxAttempts (s.setExecution k id e) := by
  have hext : Extends s (s.setExecution k id e) := .of_eq rfl rfl rfl
  refine ⟨h.row, h.gone, fun k' id' e' he => ?_, h.frame⟩
  rcases Tables.update_eq_some.mp he with ⟨-, hx⟩ | ⟨-, he⟩
  · cases hx
    exact hext.executionOk hok
  · exact hext.executionOk (h.execution k' id' e' he)

theorem publishFrame_extends (s : Outbox) (id : Uuid) (row : OutboxRow) (outcome : Outcome) :
    Extends s (s.publishFrame id row outcome) where
  inserted _ _ h := h
  published := List.subset_append_left _ _
  failures i := by
    simp only [publishFrame]
    split
    · by_cases hi : i = id
      · subst hi
        simp
      · simp [hi]
    · exact le_rfl

/-- A publication that does not throw settles its row. -/
theorem publishFrame_settled (s : Outbox) (id : Uuid) (row : OutboxRow) {outcome : Outcome}
    (h : outcome.throws = false) : (s.publishFrame id row outcome).Settled maxAttempts id := by
  cases outcome with
  | done =>
    refine .inl ⟨⟨id, row.documentId, outboxFrameHeader ++ row.payload⟩, ?_, rfl⟩
    simp [publishFrame, Outcome.takesEffect]
  | lost | failed => cases h

theorem publishFrame_accounted (id : Uuid) (row : OutboxRow) {outcome : Outcome} {n : ℕ}
    (hs : s.Accounted maxAttempts id n) (h : outcome.throws = true) :
    (s.publishFrame id row outcome).Accounted maxAttempts id (n + 1) := by
  rcases hs with hs | hs
  · exact .inl ((publishFrame_extends s id row outcome).settled hs)
  · right
    simpa [publishFrame, h] using hs

theorem Inv.publishFrame (h : Inv maxAttempts s) {id : Uuid} {row : OutboxRow}
    (hrow : s.Stored id row) (outcome : Outcome) :
    Inv maxAttempts (s.publishFrame id row outcome) := by
  have hext := publishFrame_extends s id row outcome
  refine ⟨fun i r hr => ?_, fun i r hi hr => hext.settled (h.gone i r hi hr),
    fun k i e he => hext.executionOk (h.execution k i e he), fun f hf => ?_⟩
  · exact ⟨hext.stored (h.row i r hr).1, hext.accounted (h.row i r hr).2⟩
  · rcases List.mem_append.mp hf with hf | hf
    · exact h.frame f hf
    · obtain ⟨first, hfirst, hd, hp⟩ := hrow
      split at hf
      · obtain rfl := List.mem_singleton.mp hf
        exact ⟨first, hfirst, hd, by rw [hp]⟩
      · cases hf

theorem Inv.setRow (h : Inv maxAttempts s) {id : Uuid} {new : Option OutboxRow}
    (hsome : ∀ row, new = some row → s.Stored id row ∧ s.Accounted maxAttempts id row.attempts)
    (hnone : new = none → ∀ row, s.inserted id = some row → s.Settled maxAttempts id) :
    Inv maxAttempts { s with rows := Function.update s.rows id new } := by
  have hext : Extends s { s with rows := Function.update s.rows id new } := .of_eq rfl rfl rfl
  refine ⟨fun i r hr => ?_, fun i r hi hr => hext.settled ?_,
    fun k i e he => hext.executionOk (h.execution k i e he), h.frame⟩
  · rcases Tables.update_eq_some.mp hr with ⟨rfl, hnew⟩ | ⟨-, hr⟩
    · exact hsome r hnew
    · exact h.row i r hr
  · by_cases hid : i = id
    · subst hid
      exact hnone (by simpa using hr) r hi
    · exact h.gone i r hi (by simpa [hid] using hr)

theorem Inv.insertOutboxEntry (h : Inv maxAttempts s) {row : OutboxRow}
    (hnew : s.inserted row.id = none) (hzero : row.attempts = 0) :
    Inv maxAttempts { s with
      inserted := Function.update s.inserted row.id (some row)
      rows := Function.update s.rows row.id (some row) } := by
  have hext : Extends s { s with
      inserted := Function.update s.inserted row.id (some row)
      rows := Function.update s.rows row.id (some row) } := by
    refine ⟨fun i r hr => ?_, List.Subset.refl _, fun _ => le_rfl⟩
    have hne : i ≠ row.id := by
      rintro rfl
      rw [hnew] at hr
      cases hr
    simpa [hne] using hr
  refine ⟨fun i r hr => ?_, fun i r hi hr => ?_,
    fun k i e he => hext.executionOk (h.execution k i e he), fun f hf => ?_⟩
  · rcases Tables.update_eq_some.mp hr with ⟨rfl, hx⟩ | ⟨-, hr⟩
    · cases hx
      exact ⟨⟨row, by simp, rfl, rfl⟩, .inr (by simp [hzero])⟩
    · exact ⟨hext.stored (h.row i r hr).1, hext.accounted (h.row i r hr).2⟩
  · by_cases hid : i = row.id
    · simp [hid] at hr
    · exact hext.settled (h.gone i r (by simpa [hid] using hi) (by simpa [hid] using hr))
  · obtain ⟨r, hr, hf⟩ := h.frame f hf
    exact ⟨r, hext.inserted _ _ hr, hf⟩

theorem inv_step {a : OutboxAction} (h : Inv maxAttempts s)
    (hs : step maxAttempts s a = some s') : Inv maxAttempts s' := by
  cases step_cases hs with
  | insertOutboxEntry row hnew hzero => exact h.insertOutboxEntry hnew hzero
  | process k id => exact h.setExecution k trivial
  | gone k id he hrow => exact h.setExecution k trivial
  | deadLetter k id row he hrow hmax =>
    refine h.setExecution k ?_
    rcases (h.row id row hrow).2 with hsettled | hn
    · exact hsettled
    · exact .inr (hmax.trans hn)
  | read k id row he hrow => exact h.setExecution k (h.row id row hrow)
  | publish k outcome id row he =>
    obtain ⟨hstored, hacc⟩ := h.execution k id _ he
    refine (h.publishFrame hstored outcome).setExecution k ?_
    cases ht : outcome.throws with
    | true => exact publishFrame_accounted id row hacc ht
    | false => exact publishFrame_settled s id row ht
  | deleteRow k outcome id row he =>
    have hsettled := h.execution k id _ he
    -- a deletion that throws adds an attempt, but to a row that is settled already
    have hcaught := h.setExecution (e := .caught row) k (.inl hsettled)
    have hdeleted : ∀ t : Outbox, Inv maxAttempts t → t.Settled maxAttempts id →
        Inv maxAttempts { t with rows := Function.update t.rows id none } := by
      intro t ht hset
      exact ht.setRow (fun _ hr => by cases hr) fun _ _ _ => hset
    cases outcome with
    | done => exact hdeleted _ (h.setExecution k trivial) hsettled
    | lost => exact hdeleted _ hcaught hsettled
    | failed => exact hcaught
  | updateAttempts k takesEffect id row he =>
    have hacc := h.execution k id _ he
    have hexec : Inv maxAttempts (s.setExecution k id (.updated row)) := h.setExecution k trivial
    split
    · refine hexec.setRow (fun r hr => ?_) fun hr first hi => ?_
      · obtain ⟨old, hold, rfl⟩ := Option.map_eq_some_iff.mp hr
        exact ⟨(h.row id old hold).1, hacc⟩
      · exact h.gone id first hi (Option.map_eq_none_iff.mp hr)
    · exact hexec
  | stop k =>
    exact ⟨h.row, h.gone, fun k' id e he =>
      h.execution k' id e (Tables.update_none_eq_some.mp he).2, h.frame⟩

theorem Reachable.inv (h : Reachable maxAttempts s) : Inv maxAttempts s :=
  Runs.Reach.invariant (fun _ hs => hs ▸ inv_initial maxAttempts)
    (fun _ _ _ hi _ hs => inv_step hi hs) h

/-- However the executions of a row overlap, fail and die, the row has left the outbox only
after a frame with its payload was published for its document, or after `maxAttempts` of
its publications threw; and every instance relays exactly that payload from such a frame. -/
theorem leaves_outbox (h : Reachable maxAttempts s) {id : Uuid} {row : OutboxRow}
    (hi : s.inserted id = some row) :
    (s.rows id = none →
      (∃ f ∈ s.published, f.outboxId = id ∧ f.documentId = row.documentId ∧
        f.bytes = outboxFrameHeader ++ row.payload) ∨ maxAttempts ≤ s.failures id) ∧
    ∀ f ∈ s.published, f.outboxId = id → f.documentId = row.documentId ∧
      ∀ instanceId : InstanceId, relay instanceId f.bytes = some row.payload := by
  have hinv := h.inv
  have hframe : ∀ f ∈ s.published, f.outboxId = id → f.documentId = row.documentId ∧
      f.bytes = outboxFrameHeader ++ row.payload := by
    rintro f hf rfl
    obtain ⟨r, hr, hd, hb⟩ := hinv.frame f hf
    obtain rfl : row = r := Option.some.inj (hi.symm.trans hr)
    exact ⟨hd, hb⟩
  refine ⟨fun hgone => ?_, fun f hf hid => ?_⟩
  · rcases hinv.gone id row hi hgone with ⟨f, hf, hid⟩ | hn
    · exact .inl ⟨f, hf, hid, hframe f hf hid⟩
    · exact .inr hn
  · obtain ⟨hd, hb⟩ := hframe f hf hid
    exact ⟨hd, fun instanceId => hb ▸ relay_outboxFrame instanceId row.payload⟩

/-- With two attempts: two overlapping executions both read 0 and both fail, and each writes
1; a third one loses the reply of its publication; the fourth one drops the row. -/
def overlappingRetries : List OutboxAction :=
  [.insertOutboxEntry ⟨3, 7, 1, [9], 0⟩,
    .process 0 3, .process 1 3, .getOutboxById 0, .getOutboxById 1,
    .publish 0 .failed, .publish 1 .failed, .updateAttempts 0 true, .updateAttempts 1 true,
    .stop 0, .stop 1,
    .process 2 3, .getOutboxById 2, .publish 2 .lost, .updateAttempts 2 true, .stop 2,
    .process 3 3, .getOutboxById 3, .deleteRow 3 .done]

theorem leaves_outbox_overlappingRetries :
    ∃ s, Runs.exec (step 2) initial overlappingRetries = some s ∧ s.rows 3 = none ∧
      s.failures 3 = 3 ∧ s.published.length = 1 ∧
      (s.rows 3 = none →
        (∃ f ∈ s.published, f.outboxId = 3 ∧ f.documentId = 7 ∧
          f.bytes = outboxFrameHeader ++ [9]) ∨ 2 ≤ s.failures 3) ∧
      ∀ f ∈ s.published, f.outboxId = 3 → f.documentId = 7 ∧
        ∀ instanceId : InstanceId, relay instanceId f.bytes = some [9] := by
  obtain ⟨s, hs⟩ : ∃ s, Runs.exec (step 2) initial overlappingRetries = some s := ⟨_, rfl⟩
  have hi : s.inserted 3 = some ⟨3, 7, 1, [9], 0⟩ := by
    cases hs
    rfl
  refine ⟨s, hs, ?_, ?_, ?_, leaves_outbox (Runs.reachable_exec rfl hs) hi⟩ <;>
    · cases hs
      rfl

end Outbox

end Meridian
