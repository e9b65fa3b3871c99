import Meridian.AccessMachine

/-! The message rate of one connection. A join resets the counters and starts a timer that
ends a window with each of its ticks; it does not stop the timer of an earlier join, so the
limit holds of every window exactly as long as there is one timer. -/
namespace Meridian

/-- What the server keeps of a connection. `joining` counts the joins that have entered the
room and not started their window; `running` are the intervals that still tick, one of which
`windowTimer` may hold. `connected` ends with the socket, `closed` says that the server has
closed it. For each timer, `received` and `persisted` count the updates of a client that may
write since its last tick, and `overLimit` its last windows in a row over the limit. -/
structure Connection (D : Type) where
  role : Option Role
  documentId : Option D
  messageCount : Option ℕ
  consecutiveViolations : ℕ
  windowTimer : Option ℕ
  running : Finset ℕ
  nextTimer : ℕ
  joining : ℕ
  connected : Bool
  closed : Bool
  received : ℕ → ℕ
  persisted : ℕ → ℕ
  overLimit : ℕ → ℕ

/-- `persists` is the outcome of the transaction of an update that gets that far. -/
inductive ConnectionAction (D : Type)
  | refuseJoin
  | enterRoom (role : Role) (documentId : D)
  | failSubscribe
  | startWindow
  | update (persists : Bool)
  | tick (timer : ℕ)
  | disconnect

namespace Connection

variable {D : Type} (wsMessageRateLimit : ℕ)

def initial : Connection D where
  role := none
  documentId := none
  messageCount := none
  consecutiveViolations := 0
  windowTimer := none
  running := ∅
  nextTimer := 0
  joining := 0
  connected := true
  closed := false
  received _ := 0
  persisted _ := 0
  overLimit _ := 0

def clearInterval (s : Connection D) (timer : Option ℕ) : Connection D :=
  match timer with
  | none => s
  | some t => { s with running := s.running.erase t }

def countUp (running : Finset ℕ) (count : ℕ → ℕ) (t : ℕ) : ℕ :=
  if t ∈ running then count t + 1 else count t

/-- From the count of an update to the end of its transaction. Before the first window there
is no count, and no limit. -/
def countUpdate (s : Connection D) (persists : Bool) : Connection D :=
  let messageCount := s.messageCount.map (· + 1)
  let dropped := messageCount.any (wsMessageRateLimit < ·)
  { s with
    messageCount := messageCount
    received := countUp s.running s.received
    persisted := if dropped || !persists then s.persisted else countUp s.running s.persisted }

def endWindow (s : Connection D) : Connection D :=
  let wasViolation := s.messageCount.any (wsMessageRateLimit < ·)
  let t := { s with messageCount := some 0 }
  if wasViolation then
    let t := { t with consecutiveViolations := t.consecutiveViolations + 1 }
    if 3 ≤ t.consecutiveViolations then { t.clearInterval t.windowTimer with closed := true }
    else t
  else { t with consecutiveViolations := 0 }

def step (s : Connection D) : ConnectionAction D → Option (Connection D)
  | .refuseJoin => some { s with closed := true }
  | .enterRoom role d => some { s with
      role := some role
      documentId := some d
      joining := s.joining + 1 }
  | .failSubscribe =>
    if 0 < s.joining then some { s with joining := s.joining - 1, closed := true } else none
  | .startWindow =>
    if 0 < s.joining then
      some { s with
        joining := s.joining - 1
        messageCount := some 0
        consecutiveViolations := 0
        windowTimer := some s.nextTimer
        running := insert s.nextTimer s.running
        nextTimer := s.nextTimer + 1 }
    else none
  | .update persists =>
    if s.connected then
      if s.role = some .viewer then some s
      else if s.documentId.isNone then some s
      else some (s.countUpdate wsMessageRateLimit persists)
    else none
  | .tick t =>
    if t ∈ s.running then
      some { s.endWindow wsMessageRateLimit with
        received := Function.update s.received t 0
        persisted := Function.update s.persisted t 0
        overLimit := Function.update s.overLimit t
          (if wsMessageRateLimit < s.received t then s.overLimit t + 1 else 0) }
    else none
  | .disconnect =>
    if s.connected then
      some { s.clearInterval s.windowTimer with windowTimer := none, connected := false }
    else none

def SingleWindow (s : Connection D) : ConnectionAction D → Prop
  | .startWindow => s.nextTimer = 0
  | _ => True

instance (s : Connection D) : ∀ a, Decidable (SingleWindow s a)
  | .startWindow => inferInstanceAs (Decidable (s.nextTimer = 0))
  | .refuseJoin | .enterRoom _ _ | .failSubscribe | .update _ | .tick _ | .disconnect =>
    isTrue trivial

/-- What is counted for the only timer is what the connection counts. -/
structure OneWindow (s : Connection D) : Prop where
  running : ∀ t ∈ s.running, t = 0 ∧ s.nextTimer ≠ 0
  messageCount : 0 ∈ s.running → s.messageCount = some (s.received 0)
  violations : 0 ∈ s.running → s.consecutiveViolations = s.overLimit 0
  fresh : s.nextTimer = 0 → ∀ t, s.received t = 0 ∧ s.persisted t = 0 ∧ s.overLimit t = 0
  persisted : ∀ t, s.persisted t ≤ s.received t ∧ s.persisted t ≤ wsMessageRateLimit
  closed : ∀ t, 3 ≤ s.overLimit t → s.closed = true

variable {wsMessageRateLimit} {s t : Connection D}

@[simp] theorem clearInterval_running_subset (timer : Option ℕ) :
    (s.clearInterval timer).running ⊆ s.running := by
  cases timer with
  | none => exact subset_rfl
  | some t => exact Finset.erase_subset _ _

theorem clearInterval_eq (timer : Option ℕ) :
    s.clearInterval timer = { s with running := (s.clearInterval timer).running } := by
  cases timer <;> rfl

theorem countUp_le {running : Finset ℕ} {count count' : ℕ → ℕ} (h : ∀ t, count t ≤ count' t)
    (t : ℕ) : countUp running count t ≤ countUp running count' t := by
  unfold countUp
  split
  · exact Nat.succ_le_succ (h t)
  · exact h t

theorem le_countUp (running : Finset ℕ) (count : ℕ → ℕ) (t : ℕ) :
    count t ≤ countUp running count t := by
  unfold countUp
  split <;> omega

theorem OneWindow.fewer (h : OneWindow wsMessageRateLimit s) (hrunning : t.running ⊆ s.running)
    (hnext : t.nextTimer = s.nextTimer) (hcount : t.messageCount = s.messageCount)
    (hviolations : t.consecutiveViolations = s.consecutiveViolations)
    (hreceived : t.received = s.received) (hpersisted : t.persisted = s.persisted)
    (hover : t.overLimit = s.overLimit) (hclosed : s.closed = true → t.closed = true) :
    OneWindow wsMessageRateLimit t where
  running timer htimer := by
    rw [hnext]
    exact h.running timer (hrunning htimer)
  messageCount htimer := by
    rw [hcount, hreceived]
    exact h.messageCount (hrunning htimer)
  violations htimer := by
    rw [hviolations, hover]
    exact h.violations (hrunning htimer)
  fresh hzero := by
    rw [hreceived, hpersisted, hover]
    exact h.fresh (hnext ▸ hzero)
  persisted timer := by
    rw [hreceived, hpersisted]
    exact h.persisted timer
  closed timer hover' := hclosed (h.closed timer (hover ▸ hover'))

theorem OneWindow.startWindow (h : OneWindow wsMessageRateLimit s) (hfirst : s.nextTimer = 0)
    (hs : step wsMessageRateLimit s .startWindow = some t) : OneWindow wsMessageRateLimit t := by
  have hfresh := h.fresh hfirst
  unfold step at hs
  dsimp only at hs
  split at hs
  · cases hs
    refine ⟨fun timer htimer => ?_, fun _ => ?_, fun _ => ?_, fun hzero => ?_, h.persisted,
      h.closed⟩
    · rcases Finset.mem_insert.mp htimer with rfl | hold
      · exact ⟨hfirst, Nat.succ_ne_zero _⟩
      · exact (h.running timer hold).imp_right fun _ => Nat.succ_ne_zero _
    · exact congrArg some (hfresh 0).1.symm
    · exact (hfresh 0).2.2.symm
    · cases hzero
  · cases hs

theorem OneWindow.countUpdate (h : OneWindow wsMessageRateLimit s) (persists : Bool) :
    OneWindow wsMessageRateLimit (s.countUpdate wsMessageRateLimit persists) where
  running := h.running
  messageCount htimer := by
    have hrunning : 0 ∈ s.running := htimer
    simp [Connection.countUpdate, h.messageCount hrunning, countUp, hrunning]
  violations := h.violations
  fresh hzero timer := by
    have hnone : timer ∉ s.running := fun htimer => (h.running timer htimer).2 hzero
    have hfresh := h.fresh hzero timer
    refine ⟨?_, ?_, hfresh.2.2⟩
    · simp [Connection.countUpdate, countUp, hnone, hfresh.1]
    · unfold Connection.countUpdate
      dsimp only
      split
      · exact hfresh.2.1
      · simp [countUp, hnone, hfresh.2.1]
  persisted timer := by
    obtain ⟨hle, hlimit⟩ := h.persisted timer
    unfold Connection.countUpdate
    dsimp only
    split
    · exact ⟨hle.trans (le_countUp _ _ _), hlimit⟩
    · next hkept =>
      refine ⟨countUp_le (fun t => (h.persisted t).1) timer, ?_⟩
      unfold countUp
      split
      · next htimer =>
        -- the count of the connection is what this timer has received
        obtain ⟨rfl, -⟩ := h.running timer htimer
        simp only [h.messageCount htimer, Option.map_some, Option.any_some, Bool.or_eq_true,
          decide_eq_true_eq, not_or, not_lt] at hkept
        omega
      · exact hlimit
  closed := h.closed

/-- What the end of a window does to the counters: three violations in a row close. -/
theorem endWindow_spec (wsMessageRateLimit : ℕ) {n : ℕ} (hcount : s.messageCount = some n) :
    (s.endWindow wsMessageRateLimit).running ⊆ s.running ∧
      (s.endWindow wsMessageRateLimit).nextTimer = s.nextTimer ∧
      (s.endWindow wsMessageRateLimit).messageCount = some 0 ∧
      (s.endWindow wsMessageRateLimit).consecutiveViolations =
        (if wsMessageRateLimit < n then s.consecutiveViolations + 1 else 0) ∧
      (s.closed = true → (s.endWindow wsMessageRateLimit).closed = true) ∧
      (3 ≤ (s.endWindow wsMessageRateLimit).consecutiveViolations →
        (s.endWindow wsMessageRateLimit).closed = true) := by
  unfold endWindow
  simp only [hcount, Option.any_some, decide_eq_true_eq]
  split
  · split
    · rw [clearInterval_eq]
      exact ⟨clearInterval_running_subset _, rfl, rfl, rfl, fun _ => rfl, fun _ => rfl⟩
    · next hfew => exact ⟨subset_rfl, rfl, rfl, rfl, id, fun h => (hfew h).elim⟩
  · exact ⟨subset_rfl, rfl, rfl, rfl, id, by simp⟩

theorem OneWindow.tick (h : OneWindow wsMessageRateLimit s) {timer : ℕ}
    (hs : step wsMessageRateLimit s (.tick timer) = some t) : OneWindow wsMessageRateLimit t := by
  unfold step at hs
  dsimp only at hs
  split at hs
  · next htimer =>
    obtain ⟨rfl, hstarted⟩ := h.running timer htimer
    cases hs
    obtain ⟨hrunning, hnext, hcount, hviolations, hclosed, hthree⟩ :=
      endWindow_spec wsMessageRateLimit (h.messageCount htimer)
    rw [h.violations htimer] at hviolations
    refine ⟨fun timer htimer' => ?_, fun _ => ?_, fun _ => ?_, fun hzero => ?_, fun timer => ?_,
      fun timer hover => ?_⟩
    · exact ⟨(h.running timer (hrunning htimer')).1, hnext ▸ hstarted⟩
    · exact hcount.trans (by simp)
    · exact hviolations.trans (by simp)
    · exact (hstarted (hnext ▸ hzero)).elim
    · by_cases hzero : timer = 0
      · subst hzero
        simp
      · simpa [hzero] using h.persisted timer
    · by_cases hzero : timer = 0
      · subst hzero
        refine hthree ?_
        rw [hviolations]
        simpa using hover
      · exact hclosed (h.closed timer (by simpa [hzero] using hover))
  · cases hs

theorem OneWindow.step {a : ConnectionAction D} (h : OneWindow wsMessageRateLimit s)
    (hok : SingleWindow s a) (hs : step wsMessageRateLimit s a = some t) :
    OneWindow wsMessageRateLimit t := by
  cases a with
  | refuseJoin =>
    cases hs
    exact h.fewer subset_rfl rfl rfl rfl rfl rfl rfl fun _ => rfl
  | enterRoom role d =>
    cases hs
    exact h.fewer subset_rfl rfl rfl rfl rfl rfl rfl id
  | failSubscribe =>
    unfold Connection.step at hs
    dsimp only at hs
    split at hs
    · cases hs
      exact h.fewer subset_rfl rfl rfl rfl rfl rfl rfl fun _ => rfl
    · cases hs
  | startWindow => exact h.startWindow hok hs
  | update persists =>
    unfold Connection.step at hs
    dsimp only at hs
    split at hs
    · split at hs
      · cases hs
        exact h
      · split at hs
        · cases hs
          exact h
        · cases hs
          exact h.countUpdate persists
    · cases hs
  | tick timer => exact h.tick hs
  | disconnect =>
    unfold Connection.step at hs
    dsimp only at hs
    split at hs
    · cases hs
      rw [clearInterval_eq]
      exact h.fewer (clearInterval_running_subset _) rfl rfl rfl rfl rfl rfl id
    · cases hs

/-- As long as no second join starts a window, at most as many updates as the limit allows
are persisted between two ticks, and three windows in a row over the limit close. -/
theorem updates_bounded
    (h : Runs.Reach (step wsMessageRateLimit) (· = initial) SingleWindow s) (timer : ℕ) :
    s.persisted timer ≤ wsMessageRateLimit ∧ (3 ≤ s.overLimit timer → s.closed = true) := by
  have hs : OneWindow wsMessageRateLimit s := by
    refine h.invariant (fun s hinit => ?_) fun s a t hs hok hstep => hs.step hok hstep
    rw [hinit]
    refine ⟨by simp [initial], by simp [initial], by simp [initial], fun _ _ => ⟨rfl, rfl, rfl⟩,
      fun _ => ⟨le_rfl, Nat.zero_le _⟩, by simp [initial]⟩
  exact ⟨(hs.persisted timer).2, hs.closed timer⟩

/-- One join, with two updates in each of three windows for which one is allowed. -/
def flood : List (ConnectionAction Unit) :=
  [.enterRoom .editor (), .startWindow, .update true, .update true, .tick 0, .update true,
    .update true, .tick 0, .update true, .update true, .tick 0]

theorem updates_bounded_flood : ∃ s, Runs.exec (step 1) initial flood = some s ∧
    s.persisted 0 ≤ 1 ∧ s.closed = true := by
  refine ⟨_, rfl, ?_⟩
  have hreach : Runs.Reach (step 1) (· = initial) SingleWindow _ :=
    Runs.Reach.exec (.start rfl) (show Runs.Follows (step 1) SingleWindow initial flood by decide)
      rfl
  have h := updates_bounded hreach 0
  exact ⟨h.1, h.2 (by decide)⟩

/-- A second join within the window lets its updates start again. -/
theorem updates_bounded_fails : ¬ ∀ (s : Connection Unit) timer,
    Runs.Reachable (step 1) (· = initial) s → s.persisted timer ≤ 1 := by
  intro h
  have hreach : Runs.Reachable (step 1) (· = initial) _ :=
    Runs.reachable_exec rfl (show Runs.exec (step 1) (initial : Connection Unit)
      [.enterRoom .editor (), .startWindow, .update true, .enterRoom .editor (), .startWindow,
        .update true] = some _ from rfl)
  exact absurd (h _ 0 hreach) (by decide)

end Connection

end Meridian
