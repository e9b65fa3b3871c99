import Meridian.Js
import Meridian.Lib.Runs
import Meridian.Lib.Tables

/-! Signups. A call looks for the address, hashes for a while and inserts; when another call has
inserted the address in between, the unique constraint refuses the row, and what the database
layer throws then is not the error that the call looks for. -/
namespace Meridian

/-- A value that is thrown. The query layer throws an error of its own, which has the error of
the driver as its `cause` and no `code`. -/
inductive Thrown
  | conflictException (message : JsString)
  | databaseError (code message : JsString)
  | drizzleQueryError (message : JsString) (cause : Thrown)

/-- The property `code` of a thrown value, if it has one. -/
def Thrown.code? : Thrown → Option JsString
  | .databaseError code _ => some code
  | .conflictException _ | .drizzleQueryError _ _ => none

structure RegisterDto where
  email : JsString
  password : JsString
  firstName : JsString
  lastName : JsString

structure UserRow where
  email : JsString
  firstName : JsString
  lastName : JsString
  passwordHash : JsString
  verificationTokenHash : JsString
  verificationTokenExpiresAt : ℕ

structure SafeUser where
  email : JsString
  firstName : JsString
  lastName : JsString

def toSafeUser (user : UserRow) : SafeUser := ⟨user.email, user.firstName, user.lastName⟩

inductive SignupOutcome
  | created (user : SafeUser)
  | conflictException (message : JsString)
  | internalServerErrorException (message : JsString)

namespace Signup

def accountExists : JsString := js "Account already exists, please login"

def registrationFailed : JsString := js "Registration failed"

def isUniqueEmailViolation (error : Thrown) : Bool := error.code? = some (js "23505")

def caught : Thrown → SignupOutcome
  | .conflictException message => .conflictException message
  | error =>
    if isUniqueEmailViolation error then .conflictException accountExists
    else .internalServerErrorException registrationFailed

/-- What the driver rejects with when the unique constraint refuses a row. -/
def uniqueViolation : Thrown :=
  .databaseError (js "23505")
    (js "duplicate key value violates unique constraint \"users_email_unique\"")

/-- The driver's error alone would be recognised. -/
example : caught uniqueViolation = .conflictException accountExists := rfl

/-- A call between its awaits: it has found no user, or has hashed, or has ended. -/
inductive Call
  | checked (data : RegisterDto)
  | hashed (data : RegisterDto) (passwordHash tokenHash : JsString) (expiresAt : ℕ)
  | ended (data : RegisterDto) (outcome : SignupOutcome)

def Call.inserting : Call → Option RegisterDto
  | .hashed data .. => some data
  | .checked _ | .ended .. => none

def Call.outcome? : Call → Option SignupOutcome
  | .ended _ outcome => some outcome
  | .checked _ | .hashed .. => none

end Signup

structure Signups (H : Type) where
  users : List UserRow
  calls : H → Option Signup.Call

inductive SignupAction (H : Type)
  | getUserByEmail (call : H) (data : RegisterDto)
  | hashPassword (call : H) (passwordHash tokenHash : JsString) (expiresAt : ℕ)
  | insertUser (call : H)

namespace Signups

open Signup

variable {H : Type}

def initial : Signups H where
  users := []
  calls _ := none

def withEmail (s : Signups H) (email : JsString) : List UserRow :=
  s.users.filter fun user => user.email = email

variable [DecidableEq H]

def setCall (s : Signups H) (h : H) (c : Call) : Signups H :=
  { s with calls := Function.update s.calls h (some c) }

/-- The steps of the calls; `rejectWith` is what the query layer makes of an error of the
driver. -/
def step (rejectWith : Thrown → Thrown) (s : Signups H) : SignupAction H → Option (Signups H)
  | .getUserByEmail h data =>
    match s.calls h with
    | none =>
      if s.withEmail data.email = [] then some (s.setCall h (.checked data))
      else some (s.setCall h (.ended data (.conflictException accountExists)))
    | some _ => none
  | .hashPassword h passwordHash tokenHash expiresAt =>
    match s.calls h with
    | some (.checked data) => some (s.setCall h (.hashed data passwordHash tokenHash expiresAt))
    | _ => none
  | .insertUser h =>
    match s.calls h with
    | some (.hashed data passwordHash tokenHash expiresAt) =>
      if s.withEmail data.email = [] then
        let user : UserRow :=
          ⟨data.email, data.firstName, data.lastName, passwordHash, tokenHash, expiresAt⟩
        some { s.setCall h (.ended data (.created (toSafeUser user))) with
          users := s.users ++ [user] }
      else some (s.setCall h (.ended data (caught (rejectWith uniqueViolation))))
    | _ => none

def Ended (s : Signups H) (email : JsString) (h : H) (outcome : SignupOutcome) : Prop :=
  ∃ data, s.calls h = some (.ended data outcome) ∧ data.email = email

/-- Once a call for the address has ended there is exactly one row, at most one call has
created it, and all others have ended in a conflict. -/
structure OneAccount (email : JsString) (s : Signups H) : Prop where
  row : ∀ h outcome, s.Ended email h outcome → (s.withEmail email).length = 1
  creator : ∀ h h' user user', s.Ended email h (.created user) →
    s.Ended email h' (.created user') → h = h'
  others : ∀ h outcome, s.Ended email h outcome → (∃ user, outcome = .created user) ∨
    outcome = .conflictException accountExists

def MeetsNoRow (email : JsString) (s : Signups H) : SignupAction H → Prop
  | .insertUser h => ∀ data ∈ (s.calls h).bind Call.inserting,
      data.email = email → s.withEmail email = []
  | _ => True

instance MeetsNoRow.decidable (email : JsString) (s : Signups H) :
    ∀ a, Decidable (MeetsNoRow email s a)
  | .insertUser h => inferInstanceAs (Decidable (∀ data ∈ (s.calls h).bind Call.inserting, _))
  | .getUserByEmail .. | .hashPassword .. => isTrue trivial

section Steps

variable {rejectWith : Thrown → Thrown} {s s' : Signups H} {email : JsString} {h h' : H}
  {outcome : SignupOutcome}

/-- What a step can do to a call that has not ended: it goes on, or ends because of a row that
is there, or inserts its row. -/
inductive StepCase (rejectWith : Thrown → Thrown) (s : Signups H) :
    SignupAction H → Signups H → Prop
  | moves (a : SignupAction H) (h : H) (c : Call) (hopen : (s.calls h).bind Call.outcome? = none)
      (hc : c.outcome? = none) (ha : ∀ call, a ≠ .insertUser call) :
      StepCase rejectWith s a (s.setCall h c)
  | refused (h : H) (data : RegisterDto) (hopen : (s.calls h).bind Call.outcome? = none)
      (hrow : s.withEmail data.email ≠ []) :
      StepCase rejectWith s (.getUserByEmail h data)
        (s.setCall h (.ended data (.conflictException accountExists)))
  | inserts (h : H) (data : RegisterDto) (user : UserRow)
      (hopen : (s.calls h).bind Call.outcome? = none)
      (hc : (s.calls h).bind Call.inserting = some data) (huser : user.email = data.email)
      (hrow : s.withEmail data.email = []) :
      StepCase rejectWith s (.insertUser h)
        { s.setCall h (.ended data (.created (toSafeUser user))) with users := s.users ++ [user] }
  | loses (h : H) (data : RegisterDto) (hopen : (s.calls h).bind Call.outcome? = none)
      (hc : (s.calls h).bind Call.inserting = some data) (hrow : s.withEmail data.email ≠ []) :
      StepCase rejectWith s (.insertUser h)
        (s.setCall h (.ended data (caught (rejectWith uniqueViolation))))

theorem step_cases {a : SignupAction H} (hs : step rejectWith s a = some s') :
    StepCase rejectWith s a s' := by
  cases a with
  | getUserByEmail h data =>
    simp only [step] at hs
    split at hs
    next hc =>
      split at hs
      · cases hs
        exact .moves _ h _ (by rw [hc]; rfl) rfl (by simp)
      · next hrow =>
        cases hs
        exact .refused h data (by rw [hc]; rfl) hrow
    next => cases hs
  | hashPassword h passwordHash tokenHash expiresAt =>
    simp only [step] at hs
    split at hs
    next data hc =>
      cases hs
      exact .moves _ h _ (by rw [hc]; rfl) rfl (by simp)
    next => cases hs
  | insertUser h =>
    simp only [step] at hs
    split at hs
    next data passwordHash tokenHash expiresAt hc =>
      split at hs
      · next hrow =>
        cases hs
        exact .inserts h data ⟨data.email, data.firstName, data.lastName, passwordHash, tokenHash,
          expiresAt⟩ (by rw [hc]; rfl) (by rw [hc]; rfl) rfl hrow
      · next hrow =>
        cases hs
        exact .loses h data (by rw [hc]; rfl) (by rw [hc]; rfl) hrow
    next => cases hs

theorem ended_update {users : List UserRow} {c : Call}
    (hopen : (s.calls h).bind Call.outcome? = none) :
    Ended ⟨users, Function.update s.calls h (some c)⟩ email h' outcome ↔
      (h' = h ∧ ∃ data, c = .ended data outcome ∧ data.email = email) ∨
        s.Ended email h' outcome := by
  unfold Ended
  constructor
  · rintro ⟨data, hcall, hemail⟩
    rcases Tables.update_eq_some.mp hcall with ⟨rfl, hc⟩ | ⟨-, hcall⟩
    · exact .inl ⟨rfl, data, Option.some.inj hc, hemail⟩
    · exact .inr ⟨data, hcall, hemail⟩
  · rintro (⟨rfl, data, rfl, hemail⟩ | ⟨data, hcall, hemail⟩)
    · exact ⟨data, Tables.update_eq_some.mpr (.inl ⟨rfl, rfl⟩), hemail⟩
    · refine ⟨data, Tables.update_eq_some.mpr (.inr ⟨?_, hcall⟩), hemail⟩
      rintro rfl
      rw [hcall] at hopen
      cases hopen

theorem ended_step {a : SignupAction H} (hs : step rejectWith s a = some s')
    (h : s.Ended email h' outcome) : s'.Ended email h' outcome := by
  cases step_cases hs with
  | moves _ _ _ hopen => exact (ended_update hopen).mpr (.inr h)
  | refused _ _ hopen => exact (ended_update hopen).mpr (.inr h)
  | inserts _ _ _ hopen => exact (ended_update hopen).mpr (.inr h)
  | loses _ _ hopen => exact (ended_update hopen).mpr (.inr h)

structure Sound (email : JsString) (s : Signups H) : Prop extends OneAccount email s where
  atMostOne : (s.withEmail email).length ≤ 1

omit [DecidableEq H] in
theorem sound_initial (email : JsString) : Sound email (initial : Signups H) where
  row h outcome hended := by
    obtain ⟨data, hc, -⟩ := hended
    cases hc
  creator h h' user user' hended := by
    obtain ⟨data, hc, -⟩ := hended
    cases hc
  others h outcome hended := by
    obtain ⟨data, hc, -⟩ := hended
    cases hc
  atMostOne := Nat.zero_le 1

/-- A call for another address, or one that does not end, is nothing to an address. -/
theorem Sound.frame (hsound : Sound email s) (hopen : (s.calls h).bind Call.outcome? = none)
    {users : List UserRow} {c : Call}
    (husers : withEmail ⟨users, Function.update s.calls h (some c)⟩ email = s.withEmail email)
    (hc : ∀ data outcome, c = .ended data outcome → data.email ≠ email) :
    Sound email ⟨users, Function.update s.calls h (some c)⟩ := by
  have hended : ∀ h' outcome, Ended ⟨users, Function.update s.calls h (some c)⟩ email h' outcome →
      s.Ended email h' outcome := by
    intro h' outcome hended
    refine ((ended_update hopen).mp hended).resolve_left ?_
    rintro ⟨-, data, hc', hemail⟩
    exact hc data outcome hc' hemail
  refine ⟨⟨fun h' outcome h => ?_, fun h₁ h₂ user user' h h' => ?_, fun h' outcome h => ?_⟩, ?_⟩
  · rw [husers]
    exact hsound.row h' outcome (hended _ _ h)
  · exact hsound.creator h₁ h₂ user user' (hended _ _ h) (hended _ _ h')
  · exact hsound.others h' outcome (hended _ _ h)
  · rw [husers]
    exact hsound.atMostOne

theorem Sound.step {a : SignupAction H} (hsound : Sound email s) (hmeets : MeetsNoRow email s a)
    (hs : Signups.step rejectWith s a = some s') : Sound email s' := by
  cases step_cases hs with
  | moves _ h c hopen hc =>
    refine hsound.frame hopen rfl ?_
    rintro data outcome rfl
    cases hc
  | refused h data hopen hrow =>
    by_cases hemail : data.email = email
    · subst hemail
      have hone : (s.withEmail data.email).length = 1 :=
        le_antisymm hsound.atMostOne (List.length_pos_iff.mpr hrow)
      refine ⟨⟨fun h' outcome h => hone, fun h₁ h₂ user user' h h' => ?_, fun h' outcome h => ?_⟩,
        hone.le⟩
      · rcases (ended_update hopen).mp h with ⟨-, _, hc, -⟩ | h
        · cases hc
        rcases (ended_update hopen).mp h' with ⟨-, _, hc, -⟩ | h'
        · cases hc
        exact hsound.creator h₁ h₂ user user' h h'
      · rcases (ended_update hopen).mp h with ⟨-, _, hc, -⟩ | h
        · cases hc
          exact .inr rfl
        · exact hsound.others h' outcome h
    · refine hsound.frame hopen rfl ?_
      rintro data' outcome ⟨⟩
      exact hemail
  | inserts h data user hopen hc huser hrow =>
    by_cases hemail : data.email = email
    · subst hemail
      have hnever : ∀ h' outcome, ¬ s.Ended data.email h' outcome := by
        intro h' outcome hended
        have := hsound.row h' outcome hended
        rw [hrow] at this
        cases this
      have hone : withEmail ⟨s.users ++ [user], Function.update s.calls h
          (some (.ended data (.created (toSafeUser user))))⟩ data.email = [user] := by
        rw [withEmail, List.filter_append, ← withEmail, hrow]
        simp [huser]
      refine ⟨⟨fun h' outcome h => ?_, fun h₁ h₂ user user' h h' => ?_, fun h' outcome h => ?_⟩, ?_⟩
      · exact congrArg List.length hone
      · obtain ⟨rfl, -⟩ := ((ended_update hopen).mp h).resolve_right (hnever _ _)
        obtain ⟨rfl, -⟩ := ((ended_update hopen).mp h').resolve_right (hnever _ _)
        rfl
      · obtain ⟨-, _, hc, -⟩ := ((ended_update hopen).mp h).resolve_right (hnever _ _)
        cases hc
        exact .inl ⟨_, rfl⟩
      · exact (congrArg List.length hone).le
    · refine hsound.frame hopen ?_ ?_
      · rw [withEmail, List.filter_append, List.filter_cons_of_neg (by simpa [huser]),
          List.filter_nil, List.append_nil, withEmail]
      · rintro data' outcome ⟨⟩
        exact hemail
  | loses h data hopen hc hrow =>
    have hemail : data.email ≠ email := by
      rintro rfl
      exact hrow (hmeets data hc rfl)
    refine hsound.frame hopen rfl ?_
    rintro data' outcome hended
    cases hended
    exact hemail

/-- An insert that meets a row ends in an internal error, since the query layer's error has no
code. -/
theorem internal_of_meets (hdrizzle : ∀ error, ∃ message,
    rejectWith error = .drizzleQueryError message error) {a : SignupAction H}
    (hmeets : ¬ MeetsNoRow email s a) (hs : Signups.step rejectWith s a = some s') :
    ∃ h, s'.Ended email h (.internalServerErrorException registrationFailed) := by
  cases step_cases hs with
  | moves a h c hopen hc ha =>
    cases a with
    | getUserByEmail _ _ => exact absurd trivial hmeets
    | hashPassword _ _ _ _ => exact absurd trivial hmeets
    | insertUser call => exact absurd rfl (ha call)
  | refused h data => exact absurd trivial hmeets
  | inserts h data user hopen hc huser hrow =>
    refine absurd (fun data' hdata' hemail => ?_) hmeets
    obtain rfl := Option.some.inj (hc.symm.trans hdata')
    rw [← hemail]
    exact hrow
  | loses h data hopen hc hrow =>
    have hemail : data.email = email := by
      by_contra hne
      refine hmeets fun data' hdata' hemail => ?_
      obtain rfl := Option.some.inj (hc.symm.trans hdata')
      exact absurd hemail hne
    obtain ⟨message, hreject⟩ := hdrizzle uniqueViolation
    refine ⟨h, (ended_update hopen).mpr (.inl ⟨rfl, data, ?_, hemail⟩)⟩
    rw [hreject]
    rfl

/-- A run of signups ends with one account for an address, and conflicts for all other calls,
exactly when no insert of the run for that address has met a row. -/
theorem oneAccount_iff (hdrizzle : ∀ error, ∃ message,
    rejectWith error = .drizzleQueryError message error) {as : List (SignupAction H)}
    (hrun : Runs.exec (Signups.step rejectWith) initial as = some s) (email : JsString) :
    OneAccount email s ↔ Runs.Follows (Signups.step rejectWith) (MeetsNoRow email) initial as := by
  have hgeneral : ∀ (as : List (SignupAction H)) (t : Signups H), Sound email t →
      Runs.exec (Signups.step rejectWith) t as = some s →
      (OneAccount email s ↔ Runs.Follows (Signups.step rejectWith) (MeetsNoRow email) t as) := by
    intro as
    induction as with
    | nil =>
      intro t hsound hrun
      cases hrun
      exact iff_of_true hsound.toOneAccount trivial
    | cons a as ih =>
      intro t hsound hrun
      obtain ⟨u, hu, hrest⟩ := Option.bind_eq_some_iff.mp hrun
      by_cases hmeets : MeetsNoRow email t a
      · rw [ih u (hsound.step hmeets hu) hrest]
        exact ⟨fun h => ⟨hmeets, fun v hv => Option.some.inj (hu.symm.trans hv) ▸ h⟩,
          fun h => h.2 u hu⟩
      · refine iff_of_false (fun hone => ?_) fun hfollows => hmeets hfollows.1
        obtain ⟨h, hended⟩ := internal_of_meets hdrizzle hmeets hu
        have hlast := Runs.exec_keeps (fun _ _ _ hP hs => ended_step hs hP) hended hrest
        rcases hone.others h _ hlast with ⟨user, heq⟩ | heq
        · cases heq
        · cases heq
  exact hgeneral as initial (sound_initial email) hrun

end Steps

def failedQuery (cause : Thrown) : Thrown :=
  .drizzleQueryError (js "Failed query: insert into \"users\"") cause

theorem failedQuery_cause (error : Thrown) :
    ∃ message, failedQuery error = .drizzleQueryError message error := ⟨_, rfl⟩

def alice : RegisterDto := ⟨js "alice@example.com", js "Password123!", js "Alice", js "Smith"⟩

def oneAfterTheOther : List (SignupAction Bool) :=
  [.getUserByEmail true alice, .hashPassword true (js "h1") (js "t1") 24, .insertUser true,
    .getUserByEmail false alice]

theorem oneAccount_oneAfterTheOther :
    ∃ s, Runs.exec (step failedQuery) initial oneAfterTheOther = some s ∧
      OneAccount alice.email s :=
  ⟨_, rfl, (oneAccount_iff failedQuery_cause
    (show Runs.exec _ initial oneAfterTheOther = some _ from rfl) alice.email).mpr
      (by decide +kernel)⟩

def bothAtOnce : List (SignupAction Bool) :=
  [.getUserByEmail true alice, .getUserByEmail false alice,
    .hashPassword true (js "h1") (js "t1") 24, .hashPassword false (js "h2") (js "t2") 24,
    .insertUser true, .insertUser false]

/-- The call that comes second ends in an internal error. -/
theorem oneAccount_bothAtOnce : ¬ ∀ (as : List (SignupAction Bool)) s,
    Runs.exec (step failedQuery) initial as = some s → OneAccount alice.email s := by
  intro h
  have hone := h bothAtOnce _ rfl
  rcases hone.others false _ ⟨alice, rfl, rfl⟩ with ⟨user, heq⟩ | heq
  · cases heq
  · cases heq

end Signups

end Meridian
