import Meridian.Lib.Runs
import Meridian.Lib.Tables

/-! The password resets of one user. `resetPassword` looks for an active token, compares
hashes for a while, and only then opens its transaction, whose statements name the token by
its id alone; `forgotPassword` revokes and creates in between. -/
namespace Meridian

structure ResetToken (W : Type) where
  tokenHash : W
  expiresAt : ℕ
  consumed : Bool
  revoked : Bool

namespace ResetToken

variable {W : Type}

def isLive (t : ResetToken W) : Bool := !t.consumed && !t.revoked

theorem any_isLive {t : Option (ResetToken W)} (h : t.any isLive = true) :
    t.isSome ∧ t.any consumed = false ∧ t.any revoked = false := by
  obtain ⟨t, rfl, h⟩ := (Option.any_eq_true _ _).mp h
  simpa [isLive] using h

/-- The condition of every query for active tokens, with the date it is given. -/
def isActive (date : ℕ) (t : ResetToken W) : Bool := t.isLive && date < t.expiresAt

end ResetToken

/-- A call between two of its awaits. `forgotPassword` is `revoking` the tokens of its UPDATE's
snapshot and then `creating` one. `resetPassword` has `read` the active tokens, has `matched`
one and hashes the new password, and is then in its transaction. -/
inductive ResetCall (K W T : Type)
  | revoking (ids : List K)
  | creating
  | read (token : T) (rows : List (K × W))
  | matched (id : K)
  | passwordSet (id : K)
  | consumed (id : K)
  | othersRevoked (id : K) (ids : List K)

namespace ResetCall

variable {K W T : Type} (verifyValue : T → W → Bool)

def matchingToken (token : T) (rows : List (K × W)) : Option K :=
  (rows.find? fun row => verifyValue token row.2).map Prod.fst

def picked : ResetCall K W T → Option K
  | .read token rows => matchingToken verifyValue token rows
  | .matched id | .passwordSet id | .consumed id | .othersRevoked id _ => some id
  | .revoking _ | .creating => none

/-- The rows that an open transaction has updated, and so has locked. -/
def locked : ResetCall K W T → List K
  | .consumed id => [id]
  | .othersRevoked id ids => id :: ids
  | _ => []

/-- The rows that the next commit of the call consumes or revokes. -/
def discards : ResetCall K W T → List K
  | .revoking ids => ids
  | .othersRevoked id ids => id :: ids
  | _ => []

end ResetCall

/-- A reset that succeeded: its token, and what the row said when the transaction committed. -/
structure TokenReset (K : Type) where
  id : K
  wasConsumed : Bool
  wasRevoked : Bool
  deriving DecidableEq

/-- The committed rows of one user, the lock on the user's row, and the calls `H`. `issued`
lists the ids of the rows; the resets that succeeded are kept for the statements. -/
structure PasswordReset (K W T H : Type) where
  issued : List K
  tokens : K → Option (ResetToken W)
  userLock : Option H
  calls : H → Option (ResetCall K W T)
  resets : List (TokenReset K)

/-- The steps of the calls; the date of a query is read some time before it runs. -/
inductive ResetAction (K W T H : Type)
  | forgotPassword (call : H) (date : ℕ)
  | revokeActiveTokens (call : H)
  | createToken (call : H) (id : K) (tokenHash : W) (expiresAt : ℕ)
  | getActiveTokens (call : H) (token : T) (ids : List K) (date : ℕ)
  | verifyValues (call : H)
  | updatePassword (call : H)
  | consumeToken (call : H)
  | revokeOtherTokens (call : H) (date : ℕ)
  | commit (call : H)
  | stop (call : H)

namespace PasswordReset

variable {K W T H : Type}

def initial : PasswordReset K W T H where
  issued := []
  tokens _ := none
  userLock := none
  calls _ := none
  resets := []

def activeTokens (s : PasswordReset K W T H) (date : ℕ) : List K :=
  s.issued.filter fun id => (s.tokens id).any (ResetToken.isActive date)

theorem mem_activeTokens {s : PasswordReset K W T H} {date : ℕ} {id : K}
    (h : id ∈ s.activeTokens date) :
    (s.tokens id).any ResetToken.isLive = true := by
  obtain ⟨-, hactive⟩ := List.mem_filter.mp h
  obtain ⟨t, ht, ha⟩ := (Option.any_eq_true _ _).mp hactive
  rw [ht]
  exact (Bool.and_eq_true_iff.mp ha).1

def rowsOf (s : PasswordReset K W T H) (ids : List K) : List (K × W) :=
  ids.filterMap fun id => (s.tokens id).map fun t => (id, t.tokenHash)

theorem mem_of_matchingToken {verifyValue : T → W → Bool} {s : PasswordReset K W T H} {token : T}
    {ids : List K} {id : K}
    (h : ResetCall.matchingToken verifyValue token (s.rowsOf ids) = some id) : id ∈ ids := by
  obtain ⟨row, hrow, rfl⟩ := Option.map_eq_some_iff.mp h
  obtain ⟨id', hid', hrow⟩ := List.mem_filterMap.mp (List.mem_of_find?_eq_some hrow)
  obtain ⟨t, -, rfl⟩ := Option.map_eq_some_iff.mp hrow
  exact hid'

def lockedTokens (s : PasswordReset K W T H) : List K :=
  ((s.userLock.bind s.calls).map ResetCall.locked).getD []

variable [DecidableEq K] [DecidableEq H]

def setCall (s : PasswordReset K W T H) (h : H) (c : Option (ResetCall K W T)) :
    PasswordReset K W T H :=
  { s with calls := Function.update s.calls h c }

/-- An UPDATE that revokes the rows of its snapshot which are still neither consumed nor
revoked when it reaches them. -/
def revoke (tokens : K → Option (ResetToken W)) (ids : List K) : K → Option (ResetToken W) :=
  fun id => (tokens id).map fun t => if id ∈ ids ∧ t.isLive then { t with revoked := true } else t

/-- What the three statements of a reset leave behind: no check of the row they name. -/
def consume (tokens : K → Option (ResetToken W)) (id : K) : K → Option (ResetToken W) :=
  Function.update tokens id ((tokens id).map fun t => { t with consumed := true })

theorem revoke_of_notMem {tokens : K → Option (ResetToken W)} {ids : List K} {id : K}
    (h : id ∉ ids) : revoke tokens ids id = tokens id := by
  simp [revoke, h]

theorem revoke_consumed (tokens : K → Option (ResetToken W)) (ids : List K) (id : K) :
    (revoke tokens ids id).any ResetToken.consumed = (tokens id).any ResetToken.consumed := by
  unfold revoke
  cases tokens id with
  | none => rfl
  | some t => by_cases h : id ∈ ids ∧ t.isLive <;> simp [h]

theorem consume_of_ne {tokens : K → Option (ResetToken W)} {id id' : K} (h : id' ≠ id) :
    consume tokens id id' = tokens id' := by
  simp [consume, h]

theorem consume_consumed {tokens : K → Option (ResetToken W)} {id : K}
    (h : (tokens id).isSome) : (consume tokens id id).any ResetToken.consumed = true := by
  obtain ⟨t, ht⟩ := Option.isSome_iff_exists.mp h
  simp [consume, ht]

def endCall (s : PasswordReset K W T H) (h : H) : PasswordReset K W T H :=
  { s.setCall h none with userLock := if s.userLock = some h then none else s.userLock }

def step (verifyValue : T → W → Bool) (s : PasswordReset K W T H) :
    ResetAction K W T H → Option (PasswordReset K W T H)
  | .forgotPassword h date =>
    if (s.calls h).isNone then some (s.setCall h (some (.revoking (s.activeTokens date)))) else none
  | .revokeActiveTokens h =>
    match s.calls h with
    | some (.revoking ids) =>
      -- it waits for every row of its snapshot that a transaction has locked
      if ∀ id ∈ ids, id ∉ s.lockedTokens then
        some { s.setCall h (some .creating) with tokens := revoke s.tokens ids }
      else none
    | _ => none
  | .createToken h id tokenHash expiresAt =>
    match s.calls h with
    | some .creating =>
      if (s.tokens id).isNone then
        some { s.setCall h none with
          issued := s.issued ++ [id]
          tokens := Function.update s.tokens id (some ⟨tokenHash, expiresAt, false, false⟩) }
      else none
    | _ => none
  | .getActiveTokens h token ids date =>
    if (s.calls h).isNone ∧ ids.Perm (s.activeTokens date) then
      some (s.setCall h (some (.read token (s.rowsOf ids))))
    else none
  | .verifyValues h =>
    match s.calls h with
    | some (.read token rows) =>
      some (s.setCall h ((ResetCall.matchingToken verifyValue token rows).map ResetCall.matched))
    | _ => none
  | .updatePassword h =>
    match s.calls h with
    | some (.matched id) =>
      if s.userLock.isNone then
        some { s.setCall h (some (.passwordSet id)) with userLock := some h }
      else none
    | _ => none
  | .consumeToken h =>
    match s.calls h with
    | some (.passwordSet id) => some (s.setCall h (some (.consumed id)))
    | _ => none
  | .revokeOtherTokens h date =>
    match s.calls h with
    | some (.consumed id) =>
      some (s.setCall h (some (.othersRevoked id ((s.activeTokens date).filter (· ≠ id)))))
    | _ => none
  | .commit h =>
    match s.calls h with
    | some (.othersRevoked id ids) =>
      some { s.endCall h with
        tokens := revoke (consume s.tokens id) ids
        resets := s.resets ++ [⟨id, (s.tokens id).any ResetToken.consumed,
          (s.tokens id).any ResetToken.revoked⟩] }
    | _ => none
  | .stop h => (s.calls h).map fun _ => s.endCall h

abbrev Reachable (verifyValue : T → W → Bool) : PasswordReset K W T H → Prop :=
  Runs.Reachable (step verifyValue) fun s => s = initial

def picked (verifyValue : T → W → Bool) (s : PasswordReset K W T H) (h : H) : Option K :=
  (s.calls h).bind (ResetCall.picked verifyValue)

/-- A revocation or a reset that takes effect discards no token that another reset in flight
has picked. -/
def SparesPicked (verifyValue : T → W → Bool) (s : PasswordReset K W T H) :
    ResetAction K W T H → Prop
  | .revokeActiveTokens h | .commit h => ∀ h', h' ≠ h → ∀ id ∈ s.picked verifyValue h',
      id ∉ ((s.calls h).map ResetCall.discards).getD []
  | _ => True

instance SparesPicked.decidable [Fintype H] (verifyValue : T → W → Bool)
    (s : PasswordReset K W T H) : ∀ a, Decidable (SparesPicked verifyValue s a)
  | .revokeActiveTokens h | .commit h => inferInstanceAs (Decidable (∀ h', h' ≠ h →
      ∀ id ∈ s.picked verifyValue h', id ∉ ((s.calls h).map ResetCall.discards).getD []))
  | .forgotPassword .. | .createToken .. | .getActiveTokens .. | .verifyValues _
  | .updatePassword _ | .consumeToken _ | .revokeOtherTokens .. | .stop _ => isTrue trivial

variable {verifyValue : T → W → Bool} {s s' : PasswordReset K W T H}

/-- What a step can do. Most steps move one call on, and a token that the call has picked then
it had picked before, or has just read as active. -/
inductive StepCase (verifyValue : T → W → Bool) (s : PasswordReset K W T H) :
    ResetAction K W T H → PasswordReset K W T H → Prop
  | moves (a : ResetAction K W T H) (h : H) (new : Option (ResetCall K W T)) (lock : Option H)
      (hpicked : ∀ id ∈ new.bind (ResetCall.picked verifyValue),
        s.picked verifyValue h = some id ∨ ∃ date, id ∈ s.activeTokens date) :
      StepCase verifyValue s a { s.setCall h new with userLock := lock }
  | revoke (h : H) (ids : List K) (hc : s.calls h = some (.revoking ids)) :
      StepCase verifyValue s (.revokeActiveTokens h)
        { s.setCall h (some .creating) with tokens := revoke s.tokens ids }
  | create (h : H) (id : K) (t : ResetToken W) (hnew : s.tokens id = none) :
      StepCase verifyValue s (.createToken h id t.tokenHash t.expiresAt) { s.setCall h none with
        issued := s.issued ++ [id]
        tokens := Function.update s.tokens id (some t) }
  | commit (h : H) (id : K) (ids : List K) (hc : s.calls h = some (.othersRevoked id ids)) :
      StepCase verifyValue s (.commit h) { s.endCall h with
        tokens := PasswordReset.revoke (consume s.tokens id) ids
        resets := s.resets ++ [⟨id, (s.tokens id).any ResetToken.consumed,
          (s.tokens id).any ResetToken.revoked⟩] }

theorem step_cases {a : ResetAction K W T H} (hs : step verifyValue s a = some s') :
    StepCase verifyValue s a s' := by
  cases a with
  | forgotPassword h date =>
    obtain ⟨-, hs⟩ := Option.ite_none_right_eq_some.mp hs
    cases hs
    exact .moves _ h (some (.revoking _)) s.userLock (by simp [ResetCall.picked])
  | revokeActiveTokens h =>
    simp only [step] at hs
    split at hs
    · next ids hc =>
      obtain ⟨-, hs⟩ := Option.ite_none_right_eq_some.mp hs
      cases hs
      exact .revoke h ids hc
    · cases hs
  | createToken h id tokenHash expiresAt =>
    simp only [step] at hs
    split at hs
    · obtain ⟨hnew, hs⟩ := Option.ite_none_right_eq_some.mp hs
      cases hs
      exact .create h id ⟨tokenHash, expiresAt, false, false⟩ (Option.isNone_iff_eq_none.mp hnew)
    · cases hs
  | getActiveTokens h token ids date =>
    obtain ⟨⟨-, hperm⟩, hs⟩ := Option.ite_none_right_eq_some.mp hs
    cases hs
    refine .moves _ h (some (.read token (s.rowsOf ids))) s.userLock fun id hid => .inr ⟨date, ?_⟩
    exact hperm.subset (mem_of_matchingToken hid)
  | verifyValues h =>
    simp only [step] at hs
    split at hs
    · next token rows hc =>
      cases hs
      refine .moves _ h _ s.userLock fun id hid => .inl ?_
      simpa [picked, hc, ResetCall.picked, Option.bind_map, Function.comp_def] using hid
    · cases hs
  | updatePassword h =>
    simp only [step] at hs
    split at hs
    · next id hc =>
      obtain ⟨-, hs⟩ := Option.ite_none_right_eq_some.mp hs
      cases hs
      exact .moves _ h (some (.passwordSet id)) (some h) fun _ hid => .inl (by simpa [picked, hc])
    · cases hs
  | consumeToken h =>
    simp only [step] at hs
    split at hs
    · next id hc =>
      cases hs
      exact .moves _ h (some (.consumed id)) s.userLock fun _ hid => .inl (by simpa [picked, hc])
    · cases hs
  | revokeOtherTokens h date =>
    simp only [step] at hs
    split at hs
    · next id hc =>
      cases hs
      exact .moves _ h (some (.othersRevoked id _)) s.userLock fun _ hid =>
        .inl (by simpa [picked, hc])
    · cases hs
  | commit h =>
    simp only [step] at hs
    split at hs
    · next id ids hc =>
      cases hs
      exact .commit h id ids hc
    · cases hs
  | stop h =>
    obtain ⟨c, -, rfl⟩ := Option.map_eq_some_iff.mp hs
    exact .moves _ h none _ (by simp)

structure Inv (verifyValue : T → W → Bool) (s : PasswordReset K W T H) : Prop where
  picked : ∀ h id, s.picked verifyValue h = some id → (s.tokens id).any ResetToken.isLive = true
  reset : ∀ r ∈ s.resets, r.wasConsumed = false ∧ r.wasRevoked = false
  consumed : ∀ r ∈ s.resets, (s.tokens r.id).any ResetToken.consumed = true
  once : (s.resets.map TokenReset.id).Nodup

omit [DecidableEq K] [DecidableEq H] in
theorem inv_initial : Inv verifyValue (initial : PasswordReset K W T H) where
  picked h id hp := by simp [initial, PasswordReset.picked] at hp
  reset r hr := by simp [initial] at hr
  consumed r hr := by simp [initial] at hr
  once := List.nodup_nil

omit [DecidableEq K] in
theorem picked_setCall {h h' : H} {new : Option (ResetCall K W T)} {id : K}
    (hp : (s.setCall h new).picked verifyValue h' = some id) :
    (h' = h ∧ new.bind (ResetCall.picked verifyValue) = some id) ∨
      (h' ≠ h ∧ s.picked verifyValue h' = some id) := by
  by_cases hh : h' = h
  · subst hh
    exact .inl ⟨rfl, by simpa [PasswordReset.picked, setCall] using hp⟩
  · exact .inr ⟨hh, by simpa [PasswordReset.picked, setCall, hh] using hp⟩

omit [DecidableEq K] in
theorem Inv.moves (h : Inv verifyValue s) {k : H} {new : Option (ResetCall K W T)}
    {lock : Option H} (hpicked : ∀ id ∈ new.bind (ResetCall.picked verifyValue),
      s.picked verifyValue k = some id ∨ ∃ date, id ∈ s.activeTokens date) :
    Inv verifyValue { s.setCall k new with userLock := lock } := by
  refine { h with picked := fun k' id hp => ?_ }
  rcases picked_setCall hp with ⟨-, hp⟩ | ⟨-, hp⟩
  · rcases hpicked id hp with hold | ⟨date, hactive⟩
    · exact h.picked k id hold
    · exact mem_activeTokens hactive
  · exact h.picked k' id hp

/-- A revocation that spares what is picked. -/
theorem Inv.revoke (h : Inv verifyValue s) {k : H} {ids : List K}
    (hok : ∀ k', k' ≠ k → ∀ id ∈ s.picked verifyValue k', id ∉ ids) :
    Inv verifyValue { s.setCall k (some .creating) with tokens := revoke s.tokens ids } where
  picked k' id hp := by
    rcases picked_setCall hp with ⟨-, hp⟩ | ⟨hne, hp⟩
    · cases hp
    · show (PasswordReset.revoke s.tokens ids id).any ResetToken.isLive = true
      rw [revoke_of_notMem (hok k' hne id hp)]
      exact h.picked k' id hp
  reset := h.reset
  consumed r hr := (revoke_consumed s.tokens ids r.id).trans (h.consumed r hr)
  once := h.once

theorem Inv.create (h : Inv verifyValue s) {k : H} {id : K} {t : ResetToken W}
    (hnew : s.tokens id = none) :
    Inv verifyValue { s.setCall k none with
      issued := s.issued ++ [id]
      tokens := Function.update s.tokens id (some t) } where
  picked k' id' hp := by
    rcases picked_setCall hp with ⟨-, hp⟩ | ⟨-, hp⟩
    · cases hp
    · have hlive := h.picked k' id' hp
      have hne : id' ≠ id := by
        rintro rfl
        simp [hnew] at hlive
      simpa [hne] using hlive
  reset := h.reset
  consumed r hr := by
    have hconsumed := h.consumed r hr
    have hne : r.id ≠ id := by
      rintro hid
      simp [hid, hnew] at hconsumed
    simpa [hne] using hconsumed
  once := h.once

theorem Inv.commit (h : Inv verifyValue s) {k : H} {id : K} {ids : List K}
    (hc : s.calls k = some (.othersRevoked id ids))
    (hok : ∀ k', k' ≠ k → ∀ id' ∈ s.picked verifyValue k', id' ∉ id :: ids) :
    Inv verifyValue { s.endCall k with
      tokens := PasswordReset.revoke (consume s.tokens id) ids
      resets := s.resets ++ [⟨id, (s.tokens id).any ResetToken.consumed,
        (s.tokens id).any ResetToken.revoked⟩] } := by
  have hlive := h.picked k id (by simp [PasswordReset.picked, hc, ResetCall.picked])
  obtain ⟨hsome, hconsumed, hrevoked⟩ := ResetToken.any_isLive hlive
  have hnew : ∀ r ∈ s.resets, r.id ≠ id := by
    intro r hr hid
    have := h.consumed r hr
    rw [hid, hconsumed] at this
    cases this
  refine ⟨fun k' id' hp => ?_, fun r hr => ?_, fun r hr => ?_, ?_⟩
  · rcases picked_setCall hp with ⟨-, hp⟩ | ⟨hne, hp⟩
    · cases hp
    · obtain ⟨hid, hids⟩ := not_or.mp (List.mem_cons.not.mp (hok k' hne id' hp))
      show (PasswordReset.revoke (consume s.tokens id) ids id').any ResetToken.isLive = true
      rw [revoke_of_notMem hids, consume_of_ne hid]
      exact h.picked k' id' hp
  · rcases List.mem_append.mp hr with hr | hr
    · exact h.reset r hr
    · obtain rfl := List.mem_singleton.mp hr
      exact ⟨hconsumed, hrevoked⟩
  · rw [revoke_consumed]
    rcases List.mem_append.mp hr with hr | hr
    · rw [consume_of_ne (hnew r hr)]
      exact h.consumed r hr
    · obtain rfl := List.mem_singleton.mp hr
      exact consume_consumed hsome
  · rw [List.map_append, List.nodup_append]
    refine ⟨h.once, by simp, ?_⟩
    intro i hi j hj
    obtain ⟨r, hr, rfl⟩ := List.mem_map.mp hi
    obtain rfl : j = id := by simpa using hj
    exact hnew r hr

theorem inv_step {a : ResetAction K W T H} (h : Inv verifyValue s)
    (hok : SparesPicked verifyValue s a) (hs : step verifyValue s a = some s') :
    Inv verifyValue s' := by
  cases step_cases hs with
  | moves _ k new lock hpicked => exact h.moves hpicked
  | revoke k ids hc => exact h.revoke (by simpa [SparesPicked, hc, ResetCall.discards] using hok)
  | create k id t hnew => exact h.create hnew
  | commit k id ids hc =>
    exact h.commit hc (by simpa [SparesPicked, hc, ResetCall.discards] using hok)

/-- In a run in which nothing that takes effect discards a token another reset has picked,
every reset that succeeds used a token that was neither consumed nor revoked when its
transaction committed; so no token is used twice. -/
theorem resets_once
    (h : Runs.Reach (step verifyValue) (fun s => s = initial) (SparesPicked verifyValue) s) :
    (∀ r ∈ s.resets, r.wasConsumed = false ∧ r.wasRevoked = false) ∧
      (s.resets.map TokenReset.id).Nodup := by
  have hinv : Inv verifyValue s :=
    Runs.Reach.invariant (fun _ hs => hs ▸ inv_initial)
      (fun _ _ _ hi hok hs => inv_step hi hok hs) h
  exact ⟨hinv.reset, hinv.once⟩

def resetAfterRenewal : List (ResetAction ℕ ℕ ℕ Bool) :=
  [.forgotPassword false 0, .revokeActiveTokens false, .createToken false 1 71 60,
    .forgotPassword false 5, .revokeActiveTokens false, .createToken false 2 72 65,
    .getActiveTokens true 72 [2] 9, .verifyValues true, .updatePassword true, .consumeToken true,
    .revokeOtherTokens true 10, .commit true, .getActiveTokens false 72 [] 11, .verifyValues false]

theorem resets_once_resetAfterRenewal :
    ∃ s, Runs.exec (step fun token hash => token == hash) initial resetAfterRenewal = some s ∧
      s.resets.map TokenReset.id = [2] ∧
      (∀ r ∈ s.resets, r.wasConsumed = false ∧ r.wasRevoked = false) ∧
      (s.resets.map TokenReset.id).Nodup := by
  obtain ⟨s, hs, hids⟩ : ∃ s, Runs.exec (step fun token hash => token == hash) initial
      resetAfterRenewal = some s ∧ s.resets.map TokenReset.id = [2] := ⟨_, rfl, rfl⟩
  have hok : Runs.Follows (step fun token hash => token == hash)
      (SparesPicked fun token hash => token == hash) initial resetAfterRenewal := by decide
  exact ⟨s, hs, hids, resets_once (.exec (.start rfl) hok hs)⟩

/-- A token is submitted twice at once. Both resets find it active, and both succeed. -/
theorem resets_once_fails :
    ¬ ∀ s : PasswordReset ℕ ℕ ℕ Bool, Reachable (fun token hash => token == hash) s →
      ∀ r ∈ s.resets, r.wasConsumed = false ∧ r.wasRevoked = false := by
  intro h
  have hlast := h _ (Runs.reachable_exec rfl (show Runs.exec _ initial
    [.forgotPassword false 0, .revokeActiveTokens false, .createToken false 1 71 60,
      .getActiveTokens false 71 [1] 5, .getActiveTokens true 71 [1] 5,
      .verifyValues false, .updatePassword false, .consumeToken false,
      .revokeOtherTokens false 9, .commit false,
      .verifyValues true, .updatePassword true, .consumeToken true,
      .revokeOtherTokens true 9, .commit true] =
    some _ from rfl)) ⟨1, true, false⟩ (by decide)
  exact absurd hlast.1 (by decide)

end PasswordReset

end Meridian
