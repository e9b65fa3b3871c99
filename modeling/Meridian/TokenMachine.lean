import Meridian.Lib.Runs
import Meridian.Lib.Tables

/-! One access token in use: the calls that verify it, look it up in the blacklist, exchange
it or log it out, between their awaits, over one clock in seconds. The entry of the
blacklist is written with a whole number of seconds, counted from a clock reading that was
truncated some awaits earlier. -/
namespace Meridian

/-- Who verifies the token: `JwtAuthGuard` before `refresh`, `logout` or another handler, or
`handleConnection`. -/
inductive Route
  | refresh | logout | other | socket
  deriving DecidableEq

/-- A call between two of its awaits. `verified` waits for the guard's look at the blacklist.
A refresh has then `captured` the clock and loads the user, is `unrevoked` while it signs,
and `rotated` once the old token is on the blacklist. -/
inductive TokenCall (R : Type)
  | verified (route : Route) (verifiedAt : R)
  | admitted (route : Route)
  | captured (nowInSeconds : ℤ)
  | unrevoked (nowInSeconds : ℤ)
  | rotated
  | loggingOut (ttlSeconds : ℤ)
  | loggedOut

namespace TokenCall

variable {R : Type}

def isCaptured : TokenCall R → Bool
  | .captured _ => true
  | _ => false

def isUnrevoked : TokenCall R → Bool
  | .unrevoked _ => true
  | _ => false

def isIssuing : TokenCall R → Bool
  | .unrevoked _ | .rotated => true
  | _ => false

def isWritten : TokenCall R → Bool
  | .rotated | .loggedOut => true
  | _ => false

def isLoggedOut : TokenCall R → Bool
  | .loggedOut => true
  | _ => false

end TokenCall

/-- A use of the token that was let through: when its signature and expiry were verified, when
the blacklist was asked, and whether a refresh or a logout had completed by then. -/
structure Acceptance (R : Type) where
  route : Route
  verifiedAt : R
  checkedAt : R
  late : Bool

/-- The clock, the blacklist entry with the time it exists until, and the calls `H`. Kept for
the statements: what was accepted, the tokens issued in exchange, those of them issued after
a logout had completed, and whether a call has been through `blacklistToken`. -/
structure TokenUse (R H : Type) where
  now : R
  entry : Option R
  calls : H → Option (TokenCall R)
  accepted : List (Acceptance R)
  issued : ℕ
  issuedLate : ℕ
  hasLoggedOut : Bool
  revoked : Bool

/-- The awaits of a call; `stop` is an answer that changes nothing, a throw or a crash. -/
inductive TokenAction (R H : Type)
  | tick (seconds : R)
  | verify (call : H) (route : Route)
  | isTokenBlacklisted (call : H)
  | handle (call : H)
  | blacklistToken (call : H)
  | complete (call : H)
  | stop (call : H)

namespace TokenUse

variable {R H : Type}

def completed (s : TokenUse R H) : Bool := 0 < s.issued ∨ s.hasLoggedOut = true

def initial (now : R) : TokenUse R H where
  now := now
  entry := none
  calls _ := none
  accepted := []
  issued := 0
  issuedLate := 0
  hasLoggedOut := false
  revoked := false

abbrev Initial (s : TokenUse R H) : Prop := ∃ now, s = initial now

def setCall [DecidableEq H] (s : TokenUse R H) (h : H) (c : Option (TokenCall R)) : TokenUse R H :=
  { s with calls := Function.update s.calls h c }

section Steps

variable [Ring R] [LinearOrder R]

def isTokenBlacklisted (s : TokenUse R H) : Bool := s.entry.any (s.now < ·)

/-- `SET` with `EX`, skipped for a token without time left. -/
def blacklistToken (s : TokenUse R H) (ttlSeconds : ℤ) : TokenUse R H :=
  { s with
    entry := if ttlSeconds ≤ 0 then s.entry else some (s.now + ttlSeconds)
    revoked := true }

variable [FloorRing R]

/-- `Math.floor(Date.now() / 1000)`, where `Date.now()` is in whole milliseconds. -/
def nowInSeconds (t : R) : ℤ := ⌊t * (1000 : ℕ)⌋ / (1000 : ℕ)

variable [DecidableEq H]

/-- One await of a call. An `exp` of 0 is falsy, so the handlers reject it. -/
def step (exp : ℤ) (s : TokenUse R H) : TokenAction R H → Option (TokenUse R H)
  | .tick d => if 0 ≤ d then some { s with now := s.now + d } else none
  | .verify h route =>
    if s.calls h = none ∧ nowInSeconds s.now < exp then
      some (s.setCall h (some (.verified route s.now)))
    else none
  | .isTokenBlacklisted h =>
    match s.calls h with
    | some (.verified route verifiedAt) =>
      if s.isTokenBlacklisted then some (s.setCall h none)
      else some { s.setCall h (some (.admitted route)) with
        accepted := s.accepted ++ [⟨route, verifiedAt, s.now, s.completed⟩] }
    | some (.captured n) =>
      some (s.setCall h (if s.isTokenBlacklisted then none else some (.unrevoked n)))
    | _ => none
  | .handle h =>
    match s.calls h with
    | some (.admitted .refresh) =>
      some (s.setCall h (if exp ≠ 0 ∧ nowInSeconds s.now < exp then
        some (.captured (nowInSeconds s.now)) else none))
    | some (.admitted .logout) =>
      some (s.setCall h (if exp ≠ 0 then some (.loggingOut (exp - nowInSeconds s.now)) else none))
    | _ => none
  | .blacklistToken h =>
    match s.calls h with
    | some (.unrevoked n) => some ((s.blacklistToken (exp - n)).setCall h (some .rotated))
    | some (.loggingOut ttl) => some ((s.blacklistToken ttl).setCall h (some .loggedOut))
    | _ => none
  | .complete h =>
    match s.calls h with
    | some .rotated =>
      some { s.setCall h none with
        issued := s.issued + 1
        issuedLate := s.issuedLate + if s.hasLoggedOut then 1 else 0 }
    | some .loggedOut => some { s.setCall h none with hasLoggedOut := true }
    | _ => none
  | .stop h => (s.calls h).map fun _ => s.setCall h none

inductive StepCase (exp : ℤ) (s : TokenUse R H) : TokenAction R H → TokenUse R H → Prop
  | tick (d : R) (hd : 0 ≤ d) : StepCase exp s (.tick d) { s with now := s.now + d }
  | verify (h : H) (route : Route) (hexp : nowInSeconds s.now < exp) :
      StepCase exp s (.verify h route) (s.setCall h (some (.verified route s.now)))
  | ends (a : TokenAction R H) (h : H) : StepCase exp s a (s.setCall h none)
  | accept (h : H) (route : Route) (verifiedAt : R)
      (hc : s.calls h = some (.verified route verifiedAt)) (hlist : s.isTokenBlacklisted = false) :
      StepCase exp s (.isTokenBlacklisted h) { s.setCall h (some (.admitted route)) with
        accepted := s.accepted ++ [⟨route, verifiedAt, s.now, s.completed⟩] }
  | pass (h : H) (n : ℤ) (hc : s.calls h = some (.captured n))
      (hlist : s.isTokenBlacklisted = false) :
      StepCase exp s (.isTokenBlacklisted h) (s.setCall h (some (.unrevoked n)))
  | capture (h : H) (hexp : nowInSeconds s.now < exp) :
      StepCase exp s (.handle h) (s.setCall h (some (.captured (nowInSeconds s.now))))
  | logOut (h : H) :
      StepCase exp s (.handle h) (s.setCall h (some (.loggingOut (exp - nowInSeconds s.now))))
  | rotate (h : H) (n : ℤ) (hc : s.calls h = some (.unrevoked n)) :
      StepCase exp s (.blacklistToken h) ((s.blacklistToken (exp - n)).setCall h (some .rotated))
  | revoke (h : H) (ttl : ℤ) (hc : s.calls h = some (.loggingOut ttl)) :
      StepCase exp s (.blacklistToken h) ((s.blacklistToken ttl).setCall h (some .loggedOut))
  | issue (h : H) (hc : s.calls h = some .rotated) : StepCase exp s (.complete h)
      { s.setCall h none with
        issued := s.issued + 1
        issuedLate := s.issuedLate + if s.hasLoggedOut then 1 else 0 }
  | loggedOut (h : H) (hc : s.calls h = some .loggedOut) :
      StepCase exp s (.complete h) { s.setCall h none with hasLoggedOut := true }

theorem step_cases {exp : ℤ} {s s' : TokenUse R H} {a : TokenAction R H}
    (hs : step exp s a = some s') : StepCase exp s a s' := by
  cases a with
  | tick d =>
    obtain ⟨hd, hs⟩ := Option.ite_none_right_eq_some.mp hs
    cases hs
    exact .tick d hd
  | verify h route =>
    obtain ⟨⟨-, hexp⟩, hs⟩ := Option.ite_none_right_eq_some.mp hs
    cases hs
    exact .verify h route hexp
  | isTokenBlacklisted h =>
    simp only [step] at hs
    split at hs
    · next route verifiedAt hc =>
      split at hs
      · cases hs
        exact .ends _ h
      · next hlist =>
        cases hs
        exact .accept h route verifiedAt hc (by simpa using hlist)
    · next n hc =>
      split at hs
      · cases hs
        exact .ends _ h
      · next hlist =>
        cases hs
        exact .pass h n hc (by simpa using hlist)
    · cases hs
  | handle h =>
    simp only [step] at hs
    split at hs
    · split at hs
      · next hexp =>
        cases hs
        exact .capture h hexp.2
      · cases hs
        exact .ends _ h
    · split at hs
      · cases hs
        exact .logOut h
      · cases hs
        exact .ends _ h
    · cases hs
  | blacklistToken h =>
    simp only [step] at hs
    split at hs
    · next n hc =>
      cases hs
      exact .rotate h n hc
    · next ttl hc =>
      cases hs
      exact .revoke h ttl hc
    · cases hs
  | complete h =>
    simp only [step] at hs
    split at hs
    · next hc =>
      cases hs
      exact .issue h hc
    · next hc =>
      cases hs
      exact .loggedOut h hc
    · cases hs
  | stop h =>
    obtain ⟨c, -, rfl⟩ := Option.map_eq_some_iff.mp hs
    exact .ends _ h

end Steps

section Issuing

variable {s : TokenUse R H}

structure Alone (s : TokenUse R H) : Prop where
  one : ∀ h h', (s.calls h).any TokenCall.isIssuing = true →
    (s.calls h').any TokenCall.isIssuing = true → h' = h
  fresh : ∀ h, (s.calls h).any TokenCall.isIssuing = true → s.completed = false
  issued : s.issued ≤ 1
  late : s.issuedLate = 0

theorem alone_initial (now : R) : Alone (initial now : TokenUse R H) where
  one h h' hi := by simp [initial] at hi
  fresh h hi := by simp [initial] at hi
  issued := Nat.zero_le 1
  late := rfl

theorem completed_eq_false : s.completed = false ↔ s.issued = 0 ∧ s.hasLoggedOut = false := by
  simp [completed]

theorem Alone.setCall [DecidableEq H] (h : Alone s) {k : H} {new : Option (TokenCall R)}
    (hnew : new.any TokenCall.isIssuing = true → (s.calls k).any TokenCall.isIssuing = true) :
    Alone (s.setCall k new) := by
  have hold : ∀ k', ((s.setCall k new).calls k').any TokenCall.isIssuing = true →
      (s.calls k').any TokenCall.isIssuing = true := by
    intro k' hi
    by_cases hk : k' = k
    · subst hk
      exact hnew (by simpa [TokenUse.setCall] using hi)
    · simpa [TokenUse.setCall, hk] using hi
  exact ⟨fun k₁ k₂ h₁ h₂ => h.one k₁ k₂ (hold k₁ h₁) (hold k₂ h₂),
    fun k' hi => h.fresh k' (hold k' hi), h.issued, h.late⟩

theorem Alone.issue [DecidableEq H] (h : Alone s) {k : H} (hc : s.calls k = some .rotated) :
    Alone { s.setCall k none with
      issued := s.issued + 1
      issuedLate := s.issuedLate + if s.hasLoggedOut then 1 else 0 } := by
  have hk : (s.calls k).any TokenCall.isIssuing = true := by simp [hc, TokenCall.isIssuing]
  obtain ⟨hissued, hout⟩ := completed_eq_false.mp (h.fresh k hk)
  have hcall : Alone (s.setCall k none) := h.setCall (by simp)
  refine ⟨hcall.one, fun k' hi => ?_, by simp [hissued], by simp [h.late, hout]⟩
  have hne : k' ≠ k := by
    rintro rfl
    simp [TokenUse.setCall] at hi
  exact absurd (h.one k k' hk (by simpa [TokenUse.setCall, hne] using hi)) hne

end Issuing

variable [Ring R] [LinearOrder R] {exp : ℤ} {s s' : TokenUse R H}

def CallOk (exp : ℤ) (now : R) : TokenCall R → Prop
  | .verified _ verifiedAt => verifiedAt < exp
  | .captured n | .unrevoked n => (n : R) ≤ now ∧ n < exp
  | .loggingOut ttl => ((exp - ttl : ℤ) : R) ≤ now
  | .admitted _ | .rotated | .loggedOut => True

/-- The entry outlives the token, and once a call has been through `blacklistToken` there is
an entry unless the token is over. -/
structure Inv (exp : ℤ) (s : TokenUse R H) : Prop where
  call : ∀ h c, s.calls h = some c → CallOk exp s.now c
  entry : ∀ e, s.entry = some e → (exp : R) ≤ e
  revoked : s.revoked = true → s.entry = none → (exp : R) ≤ s.now
  written : ∀ h c, s.calls h = some c → c.isWritten = true → s.revoked = true
  completed : s.completed = true → s.revoked = true
  late : ∀ a ∈ s.accepted, a.late = true → a.verifiedAt < (exp : R) ∧ (exp : R) ≤ a.checkedAt

theorem inv_initial (now : R) : Inv exp (initial now : TokenUse R H) where
  call h c hc := by simp [initial] at hc
  entry e he := by simp [initial] at he
  revoked hr := by simp [initial] at hr
  written h c hc := by simp [initial] at hc
  completed hc := by simp [initial, TokenUse.completed] at hc
  late a ha := by simp [initial] at ha

theorem CallOk.mono {now now' : R} {c : TokenCall R} (h : CallOk exp now c) (hle : now ≤ now') :
    CallOk exp now' c := by
  cases c with
  | captured n | unrevoked n => exact ⟨h.1.trans hle, h.2⟩
  | loggingOut ttl => exact h.trans hle
  | verified route verifiedAt => exact h
  | admitted | rotated | loggedOut => trivial

theorem Inv.isTokenBlacklisted (h : Inv exp s) (hr : s.revoked = true) (hnow : s.now < exp) :
    s.isTokenBlacklisted = true := by
  unfold TokenUse.isTokenBlacklisted
  cases he : s.entry with
  | none => exact absurd (h.revoked hr he) (not_le.mpr hnow)
  | some e => simpa using hnow.trans_le (h.entry e he)

theorem Inv.setCall [DecidableEq H] (h : Inv exp s) {k : H} {new : Option (TokenCall R)}
    (hok : ∀ c, new = some c → CallOk exp s.now c)
    (hwritten : ∀ c, new = some c → c.isWritten = true → s.revoked = true) :
    Inv exp (s.setCall k new) := by
  refine { h with call := fun k' c hc => ?_, written := fun k' c hc => ?_ }
  · rcases Tables.update_eq_some.mp hc with ⟨-, hc⟩ | ⟨-, hc⟩
    · exact hok c hc
    · exact h.call k' c hc
  · rcases Tables.update_eq_some.mp hc with ⟨-, hc⟩ | ⟨-, hc⟩
    · exact hwritten c hc
    · exact h.written k' c hc

theorem Inv.ends [DecidableEq H] (h : Inv exp s) (k : H) : Inv exp (s.setCall k none) :=
  h.setCall (fun _ hc => by cases hc) fun _ hc => by cases hc

/-- A refresh finds the blacklist empty before anything has been written to it, and so before
anything has been issued. -/
theorem Alone.pass [DecidableEq H] (h : Alone s) (hinv : Inv exp s) {k : H} (n : ℤ)
    (hlist : s.isTokenBlacklisted = false) (htime : s.now < exp ∨ s.revoked = false)
    (hothers : ∀ k', (s.calls k').any TokenCall.isUnrevoked = false) :
    Alone (s.setCall k (some (.unrevoked n))) := by
  have hrevoked : s.revoked = false := by
    refine htime.elim (fun hnow => ?_) id
    by_contra hr
    rw [hinv.isTokenBlacklisted (by simpa using hr) hnow] at hlist
    cases hlist
  have hnone : ∀ k', (s.calls k').any TokenCall.isIssuing = false := by
    intro k'
    have hsigning := hothers k'
    cases hc : s.calls k' with
    | none => rfl
    | some c =>
      rw [hc] at hsigning
      cases c with
      | rotated => exact absurd (hinv.written k' _ hc rfl) (by simp [hrevoked])
      | unrevoked m => cases hsigning
      | verified | admitted | captured | loggingOut | loggedOut => rfl
  have hk : ∀ k', ((s.setCall k (some (.unrevoked n))).calls k').any TokenCall.isIssuing = true →
      k' = k := by
    intro k' hi
    by_contra hne
    simp [TokenUse.setCall, hne, hnone k'] at hi
  refine ⟨fun k₁ k₂ h₁ h₂ => (hk k₂ h₂).trans (hk k₁ h₁).symm, fun _ _ => ?_, h.issued, h.late⟩
  by_contra hc
  have hcompleted : s.completed = true := Bool.of_not_eq_false hc
  exact absurd (hinv.completed hcompleted) (by simp [hrevoked])

variable [IsStrictOrderedRing R]

/-- A time to live that was counted from the past reaches beyond the token's end. -/
theorem Inv.blacklistToken (h : Inv exp s) {ttl : ℤ} (httl : ((exp - ttl : ℤ) : R) ≤ s.now) :
    Inv exp (s.blacklistToken ttl) := by
  have hend : (exp : R) ≤ s.now + ttl := sub_le_iff_le_add.mp (by simpa using httl)
  refine { h with entry := fun e he => ?_, revoked := fun _ he => ?_, written := fun _ _ _ _ => rfl,
                  completed := fun _ => rfl }
  · simp only [TokenUse.blacklistToken] at he
    split at he
    · exact h.entry e he
    · exact hend.trans_eq (Option.some.inj he)
  · simp only [TokenUse.blacklistToken] at he
    split at he
    · next hle =>
      have hnonpos : (ttl : R) ≤ 0 := by exact_mod_cast hle
      exact hend.trans (add_le_of_nonpos_right hnonpos)
    · cases he

section Runs

variable [FloorRing R]

/-- Truncating the milliseconds and then the seconds truncates the time. -/
theorem nowInSeconds_eq (t : R) : nowInSeconds t = ⌊t⌋ :=
  Int.mul_natCast_floor_div_cancel (by decide) t

theorem nowInSeconds_le (t : R) : (nowInSeconds t : R) ≤ t := by
  rw [nowInSeconds_eq]
  exact Int.floor_le t

theorem nowInSeconds_lt_iff {t : R} : nowInSeconds t < exp ↔ t < exp := by
  rw [nowInSeconds_eq]
  exact Int.floor_lt

variable [DecidableEq H]

theorem inv_step {a : TokenAction R H} (h : Inv exp s) (hs : step exp s a = some s') :
    Inv exp s' := by
  cases step_cases hs with
  | tick d hd =>
    have hle : s.now ≤ s.now + d := le_add_of_nonneg_right hd
    exact { h with call := fun k c hc => (h.call k c hc).mono hle
                   revoked := fun hr he => (h.revoked hr he).trans hle }
  | verify k route hexp =>
    refine h.setCall (fun c hc => ?_) fun c hc hw => ?_
    · cases hc
      exact nowInSeconds_lt_iff.mp hexp
    · cases hc
      cases hw
  | ends _ k => exact h.ends k
  | accept k route verifiedAt hc hlist =>
    have hcall : Inv exp (s.setCall k (some (.admitted route))) := by
      refine h.setCall (fun c hc => ?_) fun c hc hw => ?_
      · cases hc
        trivial
      · cases hc
        cases hw
    refine { hcall with late := fun a ha hl => ?_ }
    rcases List.mem_append.mp ha with ha | ha
    · exact h.late a ha hl
    · obtain rfl := List.mem_singleton.mp ha
      refine ⟨h.call k _ hc, not_lt.mp fun hnow => ?_⟩
      rw [h.isTokenBlacklisted (h.completed hl) hnow] at hlist
      cases hlist
  | pass k n hc hlist =>
    refine h.setCall (fun c hc' => ?_) fun c hc' hw => ?_
    · cases hc'
      exact h.call k (.captured n) hc
    · cases hc'
      cases hw
  | capture k hexp =>
    refine h.setCall (fun c hc => ?_) fun c hc hw => ?_
    · cases hc
      exact ⟨nowInSeconds_le s.now, hexp⟩
    · cases hc
      cases hw
  | logOut k =>
    refine h.setCall (fun c hc => ?_) fun c hc hw => ?_
    · cases hc
      simpa [CallOk] using nowInSeconds_le s.now
    · cases hc
      cases hw
  | rotate k n hc =>
    have hn := (h.call k _ hc).1
    refine (h.blacklistToken (by simpa using hn)).setCall (fun c hc => ?_) fun _ _ _ => rfl
    cases hc
    trivial
  | revoke k ttl hc =>
    refine (h.blacklistToken (h.call k _ hc)).setCall (fun c hc => ?_) fun _ _ _ => rfl
    cases hc
    trivial
  | issue k hc =>
    have hr := h.written k _ hc rfl
    exact { h.ends k with completed := fun _ => hr }
  | loggedOut k hc =>
    have hr := h.written k _ hc rfl
    exact { h.ends k with completed := fun _ => hr }

theorem Reachable.inv (h : Runs.Reachable (step exp) Initial s) : Inv exp s := by
  refine Runs.Reach.invariant ?_ (fun _ _ _ hi _ hs => inv_step hi hs) h
  rintro s ⟨now, rfl⟩
  exact inv_initial now

/-- Once a refresh or a logout has completed, the entry outlives the token, or there is none
and the token is over; and a use of the token that is still accepted was verified before the
token was over and looked up only after that. -/
theorem accepted_late (h : Runs.Reachable (step exp) Initial s) :
    (s.completed = true → (∀ e, s.entry = some e → (exp : R) ≤ e) ∧
      (s.entry = none → (exp : R) ≤ s.now)) ∧
    ∀ a ∈ s.accepted, a.late = true → a.verifiedAt < (exp : R) ∧ (exp : R) ≤ a.checkedAt := by
  have hinv := Reachable.inv h
  exact ⟨fun hc => ⟨hinv.entry, hinv.revoked (hinv.completed hc)⟩, hinv.late⟩

/-- A refresh passes its look at the blacklist while no other one is between that look and its
entry, and before the token is over unless it has not been revoked yet; and a logout
completes while no refresh is past that look. -/
def RotatesAlone (exp : ℤ) (s : TokenUse R H) : TokenAction R H → Prop
  | .isTokenBlacklisted h => (s.calls h).any TokenCall.isCaptured = true →
      s.isTokenBlacklisted = false → (s.now < exp ∨ s.revoked = false) ∧
        ∀ h', (s.calls h').any TokenCall.isUnrevoked = false
  | .complete h => (s.calls h).any TokenCall.isLoggedOut = true →
      ∀ h', (s.calls h').any TokenCall.isIssuing = false
  | _ => True

instance RotatesAlone.decidable [Fintype H] (exp : ℤ) (s : TokenUse R H) :
    ∀ a, Decidable (RotatesAlone exp s a)
  | .isTokenBlacklisted h =>
    inferInstanceAs (Decidable ((s.calls h).any TokenCall.isCaptured = true →
      s.isTokenBlacklisted = false → (s.now < exp ∨ s.revoked = false) ∧
        ∀ h', (s.calls h').any TokenCall.isUnrevoked = false))
  | .complete h => inferInstanceAs (Decidable ((s.calls h).any TokenCall.isLoggedOut = true →
      ∀ h', (s.calls h').any TokenCall.isIssuing = false))
  | .tick _ | .verify .. | .handle _ | .blacklistToken _ | .stop _ => isTrue trivial

omit [IsStrictOrderedRing R] in
theorem alone_step {a : TokenAction R H} (hinv : Inv exp s) (h : Alone s)
    (hok : RotatesAlone exp s a) (hs : step exp s a = some s') : Alone s' := by
  cases step_cases hs with
  | tick d hd => exact ⟨h.one, h.fresh, h.issued, h.late⟩
  | verify k route hexp => exact h.setCall (by simp [TokenCall.isIssuing])
  | ends _ k => exact h.setCall (by simp)
  | accept k route verifiedAt hc hlist =>
    have hcall : Alone (s.setCall k (some (.admitted route))) :=
      h.setCall (by simp [TokenCall.isIssuing])
    exact ⟨hcall.one, hcall.fresh, hcall.issued, hcall.late⟩
  | pass k n hc hlist =>
    obtain ⟨htime, hothers⟩ := hok (by simp [hc, TokenCall.isCaptured]) hlist
    exact h.pass hinv n hlist htime hothers
  | capture k hexp => exact h.setCall (by simp [TokenCall.isIssuing])
  | logOut k => exact h.setCall (by simp [TokenCall.isIssuing])
  | rotate k n hc =>
    have hcall : Alone (s.setCall k (some .rotated)) :=
      h.setCall fun _ => by simp [hc, TokenCall.isIssuing]
    exact ⟨hcall.one, hcall.fresh, hcall.issued, hcall.late⟩
  | revoke k ttl hc =>
    have hcall : Alone (s.setCall k (some .loggedOut)) :=
      h.setCall (by simp [TokenCall.isIssuing])
    exact ⟨hcall.one, hcall.fresh, hcall.issued, hcall.late⟩
  | issue k hc => exact h.issue hc
  | loggedOut k hc =>
    have hnone := hok (by simp [hc, TokenCall.isLoggedOut])
    have hcall : Alone (s.setCall k none) := h.setCall (by simp)
    refine ⟨hcall.one, fun k' hi => ?_, hcall.issued, hcall.late⟩
    have hne : k' ≠ k := by
      rintro rfl
      simp [TokenUse.setCall] at hi
    have hi' : (s.calls k').any TokenCall.isIssuing = true := by
      simpa [TokenUse.setCall, hne] using hi
    rw [hnone k'] at hi'
    cases hi'

/-- In a run in which every refresh rotates alone, at most one token is issued in exchange,
and none by a refresh that completes after a logout. -/
theorem issued_once (h : Runs.Reach (step exp) Initial (RotatesAlone exp) s) :
    s.issued ≤ 1 ∧ s.issuedLate = 0 := by
  have hboth : Inv exp s ∧ Alone s := by
    refine Runs.Reach.invariant (P := fun s => Inv exp s ∧ Alone s) ?_ ?_ h
    · rintro s ⟨now, rfl⟩
      exact ⟨inv_initial now, alone_initial now⟩
    · intro s a t hi hok hs
      exact ⟨inv_step hi.1 hs, alone_step hi.1 hi.2 hok hs⟩
  exact ⟨hboth.2.issued, hboth.2.late⟩

end Runs

def handled {H : Type} (h : H) (route : Route) : List (TokenAction ℚ H) :=
  [.verify h route, .isTokenBlacklisted h, .handle h, .blacklistToken h, .complete h]

/-- A token with 0.6 seconds left is logged out. A request that was verified right after it
asks the blacklist two seconds later, when the entry has been gone for one. -/
def stalledRequest : List (TokenAction ℚ Bool) :=
  handled false .logout ++ [.verify true .other, .tick 2, .isTokenBlacklisted true]

theorem exec_stalledRequest : ∃ s, Runs.exec (step 10) (initial (47 / 5)) stalledRequest = some s ∧
    s.accepted.any Acceptance.late = true :=
  (Option.any_eq_true _ _).mp (show (Runs.exec (step 10) (initial (47 / 5)) stalledRequest).any
    (fun s => s.accepted.any Acceptance.late) = true by decide +kernel)

theorem accepted_late_stalledRequest :
    ∃ s, Runs.exec (step 10) (initial (47 / 5)) stalledRequest = some s ∧
      (s.completed = true → (∀ e, s.entry = some e → ((10 : ℤ) : ℚ) ≤ e) ∧
        (s.entry = none → ((10 : ℤ) : ℚ) ≤ s.now)) ∧
      ∀ a ∈ s.accepted, a.late = true → a.verifiedAt < ((10 : ℤ) : ℚ) ∧
        ((10 : ℤ) : ℚ) ≤ a.checkedAt := by
  obtain ⟨s, hs, -⟩ := exec_stalledRequest
  exact ⟨s, hs, accepted_late (Runs.reachable_exec ⟨_, rfl⟩ hs)⟩

/-- The request is let through after the logout. -/
theorem accepted_late_fails : ¬ ∀ s : TokenUse ℚ Bool, Runs.Reachable (step 10) Initial s →
    ∀ a ∈ s.accepted, a.late = false := by
  intro h
  obtain ⟨s, hs, hlate⟩ := exec_stalledRequest
  obtain ⟨a, ha, hl⟩ := List.any_eq_true.mp hlate
  rw [h s (Runs.reachable_exec ⟨_, rfl⟩ hs) a ha] at hl
  cases hl

/-- A refresh, then a logout that is turned away, and a request a second after that. -/
def refreshThenLogout : List (TokenAction ℚ Bool) :=
  [.verify false .refresh, .isTokenBlacklisted false, .handle false, .isTokenBlacklisted false,
    .blacklistToken false, .complete false, .verify true .logout, .isTokenBlacklisted true, .tick 1,
    .verify true .other]

theorem issued_once_refreshThenLogout :
    ∃ s, Runs.exec (step 10) (initial 0) refreshThenLogout = some s ∧ s.issued = 1 ∧
      s.issued ≤ 1 ∧ s.issuedLate = 0 := by
  obtain ⟨s, hs, hissued⟩ : ∃ s, Runs.exec (step 10) (initial 0) refreshThenLogout = some s ∧
      (s.issued == 1) = true :=
    (Option.any_eq_true _ _).mp (show (Runs.exec (step 10) (initial 0) refreshThenLogout).any
      (fun s => s.issued == 1) = true by decide +kernel)
  have hok : Runs.Follows (step 10) (RotatesAlone 10) (initial 0) refreshThenLogout := by
    decide +kernel
  exact ⟨s, hs, by simpa using hissued, issued_once (.exec (.start ⟨0, rfl⟩) hok hs)⟩

/-- Two refreshes that both look at the blacklist before either writes to it. -/
theorem issued_once_fails : ¬ ∀ s : TokenUse ℚ Bool, Runs.Reachable (step 10) Initial s →
    s.issued ≤ 1 := by
  intro h
  obtain ⟨s, hs, hissued⟩ := (Option.any_eq_true _ _).mp (show (Runs.exec (step (H := Bool) 10)
    (initial (0 : ℚ)) [.verify false .refresh, .isTokenBlacklisted false, .handle false,
      .verify true .refresh, .isTokenBlacklisted true, .handle true,
      .isTokenBlacklisted false, .isTokenBlacklisted true,
      .blacklistToken false, .complete false, .blacklistToken true, .complete true]).any
    (fun s => s.issued == 2) = true by decide +kernel)
  have hle := h s (Runs.reachable_exec ⟨_, rfl⟩ hs)
  rw [beq_iff_eq.mp hissued] at hle
  exact absurd hle (by decide)

end TokenUse

end Meridian
