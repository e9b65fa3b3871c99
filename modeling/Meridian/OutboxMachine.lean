import Meridian.WriteMachine

/-! Delivery of the outbox rows through the job queue. The queue ignores an `add` whose
job id it already knows in any state, and it keeps finished jobs; so a retry that a job
adds under its own id while it is still active is lost, and so is every later one. -/
namespace Meridian

inductive JobState
  | waiting | delayed | active | completed
  deriving DecidableEq

inductive Execution
  | started
  | publishing (row : OutboxRow)
  | deleting (row : OutboxRow)
  | caught (row : OutboxRow)
  | updated (row : OutboxRow)
  | returning

/-- Every frame of the outbox starts with the id of no instance. -/
def outboxFrameHeader : Buffer := List.replicate 16 0

/-- The outbox table, the queue, the running jobs and the services that are starting.
`issued` holds every row id in creation order, `enqueued` those whose `enqueueDelivery`
has succeeded. -/
structure Delivery where
  issued : List Uuid
  rows : Uuid → Option OutboxRow
  enqueued : Finset Uuid
  jobs : Uuid → Option JobState
  executions : Uuid → Option Execution
  restarts : ℕ → Option (List Uuid)
  published : List (Uuid × Buffer)

/-- The steps of the writers, the workers, the queue and the starting services. -/
inductive DeliveryAction
  | insertOutboxEntry (row : OutboxRow)
  | enqueueDelivery (id : Uuid)
  | promote (id : Uuid)
  | process (id : Uuid)
  | getOutboxById (id : Uuid)
  | publish (id : Uuid) (succeeds : Bool)
  | deleteRow (id : Uuid) (succeeds : Bool)
  | updateAttempts (id : Uuid)
  | addRetry (id : Uuid)
  | complete (id : Uuid)
  | getPendingRows (service : ℕ)
  | addBulk (service : ℕ)

namespace Delivery

def initial : Delivery where
  issued := []
  rows := fun _ => none
  enqueued := ∅
  jobs := fun _ => none
  executions := fun _ => none
  restarts := fun _ => none
  published := []

def add (jobs : Uuid → Option JobState) (id : Uuid) (new : JobState) : Uuid → Option JobState :=
  if (jobs id).isSome then jobs else Function.update jobs id (some new)

def addBulk (jobs : Uuid → Option JobState) (ids : List Uuid) : Uuid → Option JobState :=
  ids.foldl (fun jobs id => add jobs id .waiting) jobs

def getPendingRows (maxAttempts : ℕ) (s : Delivery) : List Uuid :=
  s.issued.filter fun id => (s.rows id).any fun row => row.attempts < maxAttempts

def setExecution (s : Delivery) (id : Uuid) (e : Execution) : Delivery :=
  { s with executions := Function.update s.executions id (some e) }

/-- One step; the executions of one job are those of `process`, await by await. -/
def step (maxAttempts : ℕ) (s : Delivery) : DeliveryAction → Option Delivery
  | .insertOutboxEntry row =>
    if row.id ∉ s.issued ∧ row.attempts = 0 then
      some { s with
        issued := s.issued ++ [row.id]
        rows := Function.update s.rows row.id (some row) }
    else none
  | .enqueueDelivery id =>
    if id ∈ s.issued then
      some { s with jobs := add s.jobs id .waiting, enqueued := insert id s.enqueued }
    else none
  | .promote id =>
    if s.jobs id = some .delayed then
      some { s with jobs := Function.update s.jobs id (some .waiting) }
    else none
  | .process id =>
    if s.jobs id = some .waiting then
      some { s.setExecution id .started with
        jobs := Function.update s.jobs id (some .active) }
    else none
  | .getOutboxById id =>
    match s.executions id, s.rows id with
    | some .started, none => some (s.setExecution id .returning)
    | some .started, some row =>
      some (s.setExecution id (if maxAttempts ≤ row.attempts then .deleting row
        else .publishing row))
    | _, _ => none
  | .publish id succeeds =>
    match s.executions id with
    | some (.publishing row) =>
      if succeeds then
        some { s.setExecution id (.deleting row) with
          published := s.published ++ [(row.documentId, outboxFrameHeader ++ row.payload)] }
      else some (s.setExecution id (.caught row))
    | _ => none
  | .deleteRow id succeeds =>
    match s.executions id with
    | some (.deleting row) =>
      if succeeds then
        some { s.setExecution id .returning with rows := Function.update s.rows id none }
      else some (s.setExecution id (.caught row))
    | _ => none
  | .updateAttempts id =>
    match s.executions id with
    | some (.caught row) =>
      some { s.setExecution id (.updated row) with
        rows := Function.update s.rows id
          ((s.rows id).map fun r => { r with attempts := row.attempts + 1 }) }
    | _ => none
  | .addRetry id =>
    match s.executions id with
    | some (.updated _) =>
      some { s.setExecution id .returning with jobs := add s.jobs id .delayed }
    | _ => none
  | .complete id =>
    match s.executions id with
    | some .returning =>
      some { s with
        executions := Function.update s.executions id none
        jobs := Function.update s.jobs id (some .completed) }
    | _ => none
  | .getPendingRows k =>
    if (s.restarts k).isNone then
      some { s with
        restarts := Function.update s.restarts k (some (s.getPendingRows maxAttempts)) }
    else none
  | .addBulk k =>
    (s.restarts k).map fun ids => { s with
      restarts := Function.update s.restarts k none
      jobs := addBulk s.jobs ids }

abbrev Reachable (maxAttempts : ℕ) : Delivery → Prop :=
  Runs.Reachable (step maxAttempts) fun s => s = initial

/-- No delivery is stranded: a row that may still be tried has a job that will try it,
unless a worker is at it. -/
def Live (maxAttempts : ℕ) (s : Delivery) : Prop :=
  ∀ id row, s.rows id = some row → row.attempts < maxAttempts → id ∈ s.enqueued →
    s.executions id = none → s.jobs id = some .waiting ∨ s.jobs id = some .delayed

/-- A step of the `try` block that fails, fails on the last attempt of its row. -/
def FailsLast (maxAttempts : ℕ) (s : Delivery) : DeliveryAction → Prop
  | .publish id false => ∀ row, s.executions id = some (.publishing row) →
      maxAttempts ≤ row.attempts + 1
  | .deleteRow id false => ∀ row, s.executions id = some (.deleting row) →
      maxAttempts ≤ row.attempts + 1
  | _ => True

theorem add_apply (jobs : Uuid → Option JobState) (id : Uuid) (new : JobState) (i : Uuid) :
    add jobs id new i = if i = id ∧ jobs id = none then some new else jobs i := by
  unfold add
  cases h : jobs id with
  | none => by_cases hi : i = id <;> simp [hi, Function.update]
  | some j => simp

/-- `addBulk` gives a job to the named rows that have none, and changes no other job. -/
theorem addBulk_apply (jobs : Uuid → Option JobState) (ids : List Uuid) (i : Uuid) :
    addBulk jobs ids i = if i ∈ ids ∧ jobs i = none then some .waiting else jobs i := by
  induction ids generalizing jobs with
  | nil => simp [addBulk]
  | cons id ids ih =>
    have hstep : addBulk jobs (id :: ids) = addBulk (add jobs id .waiting) ids := rfl
    rw [hstep, ih, add_apply]
    by_cases hi : i = id
    · subst hi
      cases h : jobs i <;> simp
    · simp [hi]

structure View where
  issued : Prop
  enqueued : Prop
  row : Option OutboxRow
  job : Option JobState
  execution : Option Execution

def view (s : Delivery) (id : Uuid) : View :=
  ⟨id ∈ s.issued, id ∈ s.enqueued, s.rows id, s.jobs id, s.executions id⟩

def Retired (maxAttempts : ℕ) (row : Option OutboxRow) : Prop :=
  ∀ r ∈ row, maxAttempts ≤ r.attempts

/-- What an execution knows about its row, as long as only last attempts fail. -/
def ExecutionOk (maxAttempts : ℕ) (row : Option OutboxRow) : Execution → Prop
  | .started => True
  | .publishing r | .deleting r => row = some r
  | .caught r => row = some r ∧ maxAttempts ≤ r.attempts + 1
  | .updated _ | .returning => Retired maxAttempts row

structure View.Ok (maxAttempts : ℕ) (v : View) : Prop where
  row_issued : v.row ≠ none → v.issued
  job_issued : v.job ≠ none → v.issued
  enqueued : v.enqueued → v.job ≠ none
  active : v.job = some .active ↔ v.execution ≠ none
  execution : ∀ e, v.execution = some e → ExecutionOk maxAttempts v.row e
  completed : v.job = some .completed → Retired maxAttempts v.row

structure Inv (maxAttempts : ℕ) (s : Delivery) : Prop where
  row : ∀ id, (s.view id).Ok maxAttempts
  restart : ∀ k ids, s.restarts k = some ids → ∀ id ∈ ids, id ∈ s.issued

theorem inv_initial (maxAttempts : ℕ) : Inv maxAttempts initial where
  row id := by constructor <;> simp [view, initial]
  restart k ids hk := by simp [initial] at hk

/-- What a step can do to one row. `fails` holds of the rows whose publication or deletion may
fail, `listed` says that a starting service has read the row. -/
inductive Effect (maxAttempts : ℕ) (fails : OutboxRow → Prop) (listed : Prop) (v v' : View) : Prop
  | quiet (hv : v' = v)
  | insert (row : OutboxRow) (hnew : ¬ v.issued) (hv : v' = { v with issued := True, row := row })
  | enqueue (hissued : v.issued)
      (hv : v' = { v with enqueued := True, job := some (v.job.getD .waiting) })
  | recover (hlisted : listed) (hjob : v.job = none)
      (hv : v' = { v with job := some .waiting })
  | promote (hjob : v.job = some .delayed) (hv : v' = { v with job := some .waiting })
  | process (hjob : v.job = some .waiting)
      (hv : v' = { v with job := some .active, execution := some .started })
  | gone (he : v.execution = some .started) (hrow : v.row = none)
      (hv : v' = { v with execution := some .returning })
  | read (row : OutboxRow) (he : v.execution = some .started) (hrow : v.row = some row)
      (hv : v' = { v with execution := some (if maxAttempts ≤ row.attempts then .deleting row
        else .publishing row) })
  | publish (row : OutboxRow) (he : v.execution = some (.publishing row))
      (hv : v' = { v with execution := some (.deleting row) })
  | delete (row : OutboxRow) (he : v.execution = some (.deleting row))
      (hv : v' = { v with row := none, execution := some .returning })
  | fail (row : OutboxRow)
      (he : v.execution = some (.publishing row) ∨ v.execution = some (.deleting row))
      (hfails : fails row) (hv : v' = { v with execution := some (.caught row) })
  | updateAttempts (row : OutboxRow) (he : v.execution = some (.caught row))
      (hv : v' = { v with
        row := v.row.map fun r => { r with attempts := row.attempts + 1 }
        execution := some (.updated row) })
  | addRetry (row : OutboxRow) (he : v.execution = some (.updated row))
      (hv : v' = { v with job := some (v.job.getD .delayed), execution := some .returning })
  | complete (he : v.execution = some .returning)
      (hv : v' = { v with job := some .completed, execution := none })

/-- What a step can do to all rows and to the lists of the starting services. -/
structure StepEffect (maxAttempts : ℕ) (fails : OutboxRow → Prop) (s s' : Delivery) : Prop where
  row : ∀ id, Effect maxAttempts fails (∃ k ids, s.restarts k = some ids ∧ id ∈ ids)
    (s.view id) (s'.view id)
  issued : ∀ id ∈ s.issued, id ∈ s'.issued
  restarts : ∀ k ids, s'.restarts k = some ids →
    s.restarts k = some ids ∨ ids = s.getPendingRows maxAttempts

theorem StepEffect.focus {m : ℕ} {fails : OutboxRow → Prop} {s s' : Delivery} (id : Uuid)
    (hid : Effect m fails (∃ k ids, s.restarts k = some ids ∧ id ∈ ids) (s.view id) (s'.view id))
    (hother : ∀ i, i ≠ id → s'.view i = s.view i) (hissued : ∀ i ∈ s.issued, i ∈ s'.issued)
    (hrestarts : s'.restarts = s.restarts) : StepEffect m fails s s' where
  row i := by
    by_cases hi : i = id
    · exact hi ▸ hid
    · exact .quiet (hother i hi)
  issued := hissued
  restarts k ids hk := .inl (hrestarts ▸ hk)

theorem StepEffect.setExecution {m : ℕ} {fails : OutboxRow → Prop} {s : Delivery} (id : Uuid)
    (e : Execution) (h : Effect m fails (∃ k ids, s.restarts k = some ids ∧ id ∈ ids) (s.view id)
      { s.view id with execution := some e }) : StepEffect m fails s (s.setExecution id e) := by
  refine .focus id ?_ (fun i hi => by simp [view, Delivery.setExecution, hi]) (fun _ hi => hi) rfl
  rwa [show (s.setExecution id e).view id = { s.view id with execution := some e } by
    simp [view, Delivery.setExecution]]

theorem step_effect {m : ℕ} {fails : OutboxRow → Prop} {s s' : Delivery} {a : DeliveryAction}
    (hpublish : ∀ id row, a = .publish id false → s.executions id = some (.publishing row) →
      fails row)
    (hdelete : ∀ id row, a = .deleteRow id false → s.executions id = some (.deleting row) →
      fails row)
    (hs : step m s a = some s') : StepEffect m fails s s' := by
  cases a with
  | insertOutboxEntry row =>
    obtain ⟨⟨hnew, -⟩, rfl⟩ := by
      simpa only [step, Option.ite_none_right_eq_some, Option.some.injEq] using hs
    exact .focus row.id (.insert row hnew (by simp [view])) (fun i hi => by simp [view, hi])
      (fun i hi => List.mem_append_left _ hi) rfl
  | enqueueDelivery id =>
    obtain ⟨hid, rfl⟩ := by
      simpa only [step, Option.ite_none_right_eq_some, Option.some.injEq] using hs
    refine .focus id (.enqueue hid ?_) (fun i hi => by simp [view, hi, add_apply])
      (fun _ hi => hi) rfl
    cases hj : s.jobs id <;> simp [view, add_apply, hj]
  | promote id =>
    obtain ⟨hj, rfl⟩ := by
      simpa only [step, Option.ite_none_right_eq_some, Option.some.injEq] using hs
    exact .focus id (.promote hj (by simp [view])) (fun i hi => by simp [view, hi])
      (fun _ hi => hi) rfl
  | process id =>
    obtain ⟨hj, rfl⟩ := by
      simpa only [step, Option.ite_none_right_eq_some, Option.some.injEq] using hs
    exact .focus id (.process hj (by simp [view, setExecution]))
      (fun i hi => by simp [view, setExecution, hi]) (fun _ hi => hi) rfl
  | getOutboxById id =>
    simp only [step] at hs
    split at hs
    · next he hr =>
      obtain rfl := Option.some.inj hs
      exact .setExecution id .returning (.gone he hr rfl)
    · next row he hr =>
      obtain rfl := Option.some.inj hs
      exact .setExecution id _ (.read row he hr rfl)
    · cases hs
  | publish id succeeds =>
    simp only [step] at hs
    split at hs
    · next row he =>
      cases succeeds with
      | true =>
        obtain rfl := Option.some.inj hs
        exact .focus id (.publish row he (by simp [view, setExecution]))
          (fun i hi => by simp [view, setExecution, hi]) (fun _ hi => hi) rfl
      | false =>
        obtain rfl := Option.some.inj hs
        exact .setExecution id (.caught row) (.fail row (.inl he) (hpublish id row rfl he) rfl)
    · cases hs
  | deleteRow id succeeds =>
    simp only [step] at hs
    split at hs
    · next row he =>
      cases succeeds with
      | true =>
        obtain rfl := Option.some.inj hs
        exact .focus id (.delete row he (by simp [view, setExecution]))
          (fun i hi => by simp [view, setExecution, hi]) (fun _ hi => hi) rfl
      | false =>
        obtain rfl := Option.some.inj hs
        exact .setExecution id (.caught row) (.fail row (.inr he) (hdelete id row rfl he) rfl)
    · cases hs
  | updateAttempts id =>
    simp only [step] at hs
    split at hs
    · next row he =>
      obtain rfl := Option.some.inj hs
      exact .focus id (.updateAttempts row he (by simp [view, setExecution]))
        (fun i hi => by simp [view, setExecution, hi]) (fun _ hi => hi) rfl
    · cases hs
  | addRetry id =>
    simp only [step] at hs
    split at hs
    · next row he =>
      obtain rfl := Option.some.inj hs
      refine .focus id (.addRetry row he ?_)
        (fun i hi => by simp [view, setExecution, add_apply, hi]) (fun _ hi => hi) rfl
      cases hj : s.jobs id <;> simp [view, setExecution, add_apply, hj]
    · cases hs
  | complete id =>
    simp only [step] at hs
    split at hs
    · next he =>
      obtain rfl := Option.some.inj hs
      exact .focus id (.complete he (by simp [view])) (fun i hi => by simp [view, hi])
        (fun _ hi => hi) rfl
    · cases hs
  | getPendingRows k =>
    obtain ⟨-, rfl⟩ := by
      simpa only [step, Option.ite_none_right_eq_some, Option.some.injEq] using hs
    refine ⟨fun id => .quiet rfl, fun _ hi => hi, fun i ids hi => ?_⟩
    by_cases hik : i = k
    · subst hik
      exact .inr (by simpa using hi.symm)
    · exact .inl (by simpa [hik] using hi)
  | addBulk k =>
    obtain ⟨ids, hk, rfl⟩ := Option.map_eq_some_iff.mp hs
    refine ⟨fun id => ?_, fun _ hi => hi, fun i is hi => ?_⟩
    · by_cases hnew : id ∈ ids ∧ s.jobs id = none
      · exact .recover ⟨k, ids, hk, hnew.1⟩ hnew.2 (by simp [view, addBulk_apply, hnew])
      · exact .quiet (by simp only [view, addBulk_apply, if_neg hnew])
    · by_cases hik : i = k
      · simp [hik] at hi
      · exact .inl (by simpa [hik] using hi)

theorem View.Ok.execute {m : ℕ} {v : View} (h : v.Ok m) {e : Execution}
    (he : v.execution = some e) (e' : Execution) (row : Option OutboxRow)
    (hrow : row ≠ none → v.row ≠ none) (hok : ExecutionOk m row e') :
    View.Ok m { v with row := row, execution := some e' } where
  row_issued hr := h.row_issued (hrow hr)
  job_issued := h.job_issued
  enqueued := h.enqueued
  active := iff_of_true (h.active.mpr (by simp [he])) (by simp)
  execution x hx := Option.some.inj hx ▸ hok
  completed hc := by
    have hactive := h.active.mpr (by simp [he])
    rw [hactive] at hc
    cases hc

/-- As long as only last attempts fail, every step keeps what is known of a row. -/
theorem View.Ok.effect {m : ℕ} {listed : Prop} {v v' : View} (h : v.Ok m)
    (hlisted : listed → v.issued)
    (hstep : Effect m (fun row => m ≤ row.attempts + 1) listed v v') : v'.Ok m := by
  cases hstep with
  | quiet hv => exact hv ▸ h
  | insert row hnew hv =>
    subst hv
    have hjob : v.job = none := not_not.mp fun hj => hnew (h.job_issued hj)
    have hexec : v.execution = none := not_not.mp fun he => by
      simpa [hjob] using h.active.mpr he
    exact ⟨fun _ => trivial, fun _ => trivial, h.enqueued, h.active, by simp [hexec],
      by simp [hjob]⟩
  | enqueue hissued hv =>
    subst hv
    refine ⟨h.row_issued, fun _ => hissued, by simp, ?_, h.execution, ?_⟩
    · have := h.active
      cases hj : v.job <;> simp_all
    · have := h.completed
      cases hj : v.job <;> simp_all
  | recover hlist hjob hv =>
    subst hv
    have hexec : v.execution = none := not_not.mp fun he => by
      simpa [hjob] using h.active.mpr he
    exact ⟨h.row_issued, fun _ => hlisted hlist, by simp, by simp [hexec], h.execution, by simp⟩
  | promote hjob hv =>
    subst hv
    have hissued : v.issued := h.job_issued (by simp [hjob])
    have hexec : v.execution = none := not_not.mp fun he => by
      simpa [hjob] using h.active.mpr he
    exact ⟨h.row_issued, fun _ => hissued, by simp, by simp [hexec], h.execution, by simp⟩
  | process hjob hv =>
    subst hv
    have hissued : v.issued := h.job_issued (by simp [hjob])
    refine ⟨h.row_issued, fun _ => hissued, by simp, by simp, fun e he => ?_, by simp⟩
    obtain rfl := Option.some.inj he
    trivial
  | gone he hrow hv =>
    subst hv
    exact h.execute he .returning v.row id (by simp [ExecutionOk, Retired, hrow])
  | read row he hrow hv =>
    subst hv
    exact h.execute he _ v.row id (by split <;> exact hrow)
  | publish row he hv =>
    subst hv
    have hrow : v.row = some row := h.execution _ he
    exact h.execute he (.deleting row) v.row id hrow
  | delete row he hv =>
    subst hv
    exact h.execute he .returning none (fun hr => (hr rfl).elim) (by simp [ExecutionOk, Retired])
  | fail row he hfails hv =>
    subst hv
    rcases he with he | he
    · exact h.execute he (.caught row) v.row id ⟨h.execution _ he, hfails⟩
    · exact h.execute he (.caught row) v.row id ⟨h.execution _ he, hfails⟩
  | updateAttempts row he hv =>
    subst hv
    obtain ⟨hrow, hlast⟩ : v.row = some row ∧ m ≤ row.attempts + 1 := h.execution _ he
    exact h.execute he (.updated row) _ (fun _ => by simp [hrow])
      (by simpa [ExecutionOk, Retired, hrow] using hlast)
  | addRetry row he hv =>
    subst hv
    -- the job is still active under this id, so the queue ignores the retry
    have hjob : v.job = some .active := h.active.mpr (by simp [he])
    have hretired : Retired m v.row := h.execution _ he
    simpa [hjob] using h.execute he .returning v.row id hretired
  | complete he hv =>
    subst hv
    have hissued : v.issued := h.job_issued (by simp [h.active.mpr (by simp [he])])
    exact ⟨h.row_issued, fun _ => hissued, by simp, by simp, by simp, fun _ => h.execution _ he⟩

theorem inv_step {m : ℕ} {s s' : Delivery} {a : DeliveryAction} (h : Inv m s)
    (hok : FailsLast m s a) (hs : step m s a = some s') : Inv m s' := by
  have hstep : StepEffect m (fun row => m ≤ row.attempts + 1) s s' :=
    step_effect (fun id row ha he => by subst ha; exact hok row he)
      (fun id row ha he => by subst ha; exact hok row he) hs
  refine ⟨fun id => (h.row id).effect ?_ (hstep.row id), fun k ids hk id hid => ?_⟩
  · rintro ⟨k, ids, hk, hid⟩
    exact h.restart k ids hk id hid
  · rcases hstep.restarts k ids hk with hk | rfl
    · exact hstep.issued id (h.restart k ids hk id hid)
    · exact hstep.issued id (List.mem_filter.mp hid).1

/-- As long as every failure is the last attempt of its row, no delivery is stranded. -/
theorem live_of_failsLast {m : ℕ} {s : Delivery}
    (h : Runs.Reach (step m) (fun s => s = initial) (FailsLast m) s) : Live m s := by
  have hinv : Inv m s :=
    Runs.Reach.invariant (fun _ hs => hs ▸ inv_initial m)
      (fun _ _ _ hi hok hs => inv_step hi hok hs) h
  intro id row hrow hattempts henq hexec
  have hv := hinv.row id
  cases hj : s.jobs id with
  | none => exact (hv.enqueued henq hj).elim
  | some j =>
    cases j with
    | waiting => exact .inl rfl
    | delayed => exact .inr rfl
    | active => exact (hv.active.mp hj hexec).elim
    | completed => exact absurd (hv.completed hj row hrow) (by omega)

def oneFailure : List DeliveryAction :=
  [.insertOutboxEntry ⟨1, 7, 1, [3], 0⟩, .enqueueDelivery 1, .process 1, .getOutboxById 1,
    .publish 1 false, .updateAttempts 1, .addRetry 1, .complete 1, .getPendingRows 0, .addBulk 0]

/-- A second row gets its job from a service that starts before the writer has added one. -/
def secondRow : List DeliveryAction :=
  oneFailure ++ [.insertOutboxEntry ⟨2, 7, 2, [4], 0⟩, .getPendingRows 0, .addBulk 0,
    .enqueueDelivery 2]

theorem live_oneFailure : ∃ s, Runs.exec (step 1) initial secondRow = some s ∧
    (s.rows 1).map OutboxRow.attempts = some 1 ∧ (s.rows 2).map OutboxRow.attempts = some 0 ∧
    s.executions 2 = none ∧ 2 ∈ s.enqueued ∧ Live 1 s := by
  obtain ⟨s, hs, hfirst, hsecond, hidle, henqueued⟩ :
      ∃ s, Runs.exec (step 1) initial secondRow = some s ∧
        (s.rows 1).map OutboxRow.attempts = some 1 ∧
        (s.rows 2).map OutboxRow.attempts = some 0 ∧ s.executions 2 = none ∧ 2 ∈ s.enqueued :=
    ⟨_, rfl, rfl, rfl, rfl, by decide⟩
  refine ⟨s, hs, hfirst, hsecond, hidle, henqueued,
    live_of_failsLast (Runs.Reach.exec (.start rfl) ?_ hs)⟩
  simp [secondRow, oneFailure, Runs.Follows, FailsLast, step, setExecution, initial, add]

/-- The schedule of `oneFailure` when the row has more attempts left: nobody will try it again. -/
theorem live_fails : ¬ ∀ s, Reachable 10 s → Live 10 s := by
  intro h
  obtain ⟨s, hs, hrow, hmem, hexec, hjob⟩ :
      ∃ s, Runs.exec (step 10) initial oneFailure = some s ∧
        s.rows 1 = some ⟨1, 7, 1, [3], 1⟩ ∧ 1 ∈ s.enqueued ∧ s.executions 1 = none ∧
        s.jobs 1 = some .completed :=
    ⟨_, rfl, rfl, by decide, rfl, rfl⟩
  have := h s (Runs.reachable_exec rfl hs) 1 _ hrow (by decide) hmem hexec
  simp [hjob] at this

/-- A row with attempts left whose job has finished. -/
structure Stranded (maxAttempts : ℕ) (id : Uuid) (s : Delivery) : Prop where
  issued : id ∈ s.issued
  row : ∃ row, s.rows id = some row ∧ row.attempts < maxAttempts
  enqueued : id ∈ s.enqueued
  job : s.jobs id = some .completed
  execution : s.executions id = none

theorem Stranded.not_live {m : ℕ} {id : Uuid} {s : Delivery} (h : Stranded m id s) :
    ¬ Live m s := by
  intro hl
  obtain ⟨row, hrow, hattempts⟩ := h.row
  have := hl id row hrow hattempts h.enqueued h.execution
  simp [h.job] at this

theorem Stranded.of_view {m : ℕ} {id : Uuid} {s s' : Delivery} (h : Stranded m id s)
    (hv : s'.view id = s.view id) : Stranded m id s' := by
  simp only [view, View.mk.injEq] at hv
  obtain ⟨hi, he, hr, hj, hx⟩ := hv
  exact ⟨hi ▸ h.issued, hr ▸ h.row, he ▸ h.enqueued, hj ▸ h.job, hx ▸ h.execution⟩

/-- A failed attempt that is not the last strands its row once the job returns, whether the
publication or the deletion has failed. -/
theorem stranded_of_failure {m : ℕ} {id : Uuid} {s t : Delivery} {row : OutboxRow}
    {a : DeliveryAction} (he : s.executions id = some (.publishing row) ∧ a = .publish id false ∨
      s.executions id = some (.deleting row) ∧ a = .deleteRow id false)
    (hrow : s.rows id = some row) (hissued : id ∈ s.issued) (henq : id ∈ s.enqueued)
    (hnext : row.attempts + 1 < m)
    (ht : Runs.exec (step m) s [a, .updateAttempts id, .addRetry id, .complete id] = some t) :
    Stranded m id t := by
  have hcaught : step m s a = some (s.setExecution id (.caught row)) := by
    rcases he with ⟨he, rfl⟩ | ⟨he, rfl⟩
    · simp [step, he]
    · simp [step, he]
  simp [Runs.exec, hcaught] at ht
  simp [step, setExecution, hrow] at ht
  subst ht
  exact {
    issued := hissued
    row := ⟨{ row with attempts := row.attempts + 1 }, by simp, hnext⟩
    enqueued := henq
    job := by simp
    execution := by simp }

/-- Nothing that happens later reaches a stranded row, a service start included. -/
theorem Stranded.step {m : ℕ} {id : Uuid} {s s' : Delivery} {a : DeliveryAction}
    (h : Stranded m id s) (hs : Delivery.step m s a = some s') : Stranded m id s' := by
  have hstep : StepEffect m (fun _ => True) s s' :=
    step_effect (fun _ _ _ _ => trivial) (fun _ _ _ _ => trivial) hs
  have hjob : (s.view id).job = some .completed := h.job
  have hexec : (s.view id).execution = none := h.execution
  cases hstep.row id with
  | quiet hv => exact h.of_view hv
  | insert row hnew hv => exact (hnew h.issued).elim
  | enqueue _ hv =>
    refine h.of_view (hv.trans ?_)
    simp [view, h.job, h.enqueued]
  | recover _ hnone _ => simp [hjob] at hnone
  | promote hdelayed _ => simp [hjob] at hdelayed
  | process hwaiting _ => simp [hjob] at hwaiting
  | fail row he _ _ => simp [hexec] at he
  | gone he _ _ | read row he _ _ | publish row he _ | delete row he _ | updateAttempts row he _
  | addRetry row he _ | complete he _ => simp [hexec] at he

theorem Stranded.exec {m : ℕ} {id : Uuid} {s t : Delivery} {as : List DeliveryAction}
    (h : Stranded m id s) (ht : Runs.exec (Delivery.step m) s as = some t) : Stranded m id t :=
  Runs.exec_keeps (fun _ _ _ hs ha => hs.step ha) h ht

end Delivery

end Meridian
