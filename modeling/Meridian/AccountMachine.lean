import Meridian.Js
import Meridian.Lib.Runs
import Meridian.Lib.Tables

/-! Accounts from the signup to the login. A signup, a resend and a login with an expired token
store the hash of a new verification token and mail the token; `verifyEmail` compares hashes for
a while and then names the account by its id alone. The calls interleave at their awaits, and a
statement that fails has no effect. -/
namespace Meridian

structure AccountRow (W : Type) where
  passwordHash : W
  verifiedAt : Option ℕ
  verificationTokenHash : Option W
  verificationTokenExpiresAt : Option ℕ

structure StoredToken (E V W : Type) where
  email : E
  rawToken : V
  tokenHash : W
  expiresAt : ℕ

inductive AccountOutcome
  | created
  | verified (alreadyVerified : Bool)
  | accepted
  | token
  | conflictException (message : JsString)
  | notFoundException (message : JsString)
  | badRequestException (message : JsString)
  | unauthorizedException (message : JsString)
  | forbiddenException (message : JsString)
  | failed

namespace AccountOutcome

def accountExists : AccountOutcome := .conflictException (js "Account already exists, please login")

def accountNotFound : AccountOutcome := .notFoundException (js "Account not found")

def invalidToken : AccountOutcome :=
  .badRequestException (js "Verification token is invalid or expired")

def invalidLogin : AccountOutcome := .unauthorizedException (js "Invalid email or password")

def checkInbox : AccountOutcome :=
  .forbiddenException (js "Account not verified. Check your inbox.")

def linkSent : AccountOutcome :=
  .forbiddenException (js "Account not verified. A new verification link has been sent.")

end AccountOutcome

/-- A call between two of its awaits, with what it has read. A resend ends in `after`, which is
its own answer or that of the login it is part of. -/
inductive AccountCall (E V W : Type)
  | signingUp (email : E) (password : V)
  | inserting (passwordHash : W) (password : V) (token : StoredToken E V W)
  | mailing (token : StoredToken E V W) (after : AccountOutcome)
  | checking (email : E) (token : V) (row : Option (AccountRow W))
  | verifying (email : E) (token : V) (tokenHash : W) (checkedAt : ℕ)
  | confirming (email : E) (token : V) (tokenHash : W) (checkedAt : ℕ)
  | resending (email : E) (after : AccountOutcome)
  | minting (email : E) (after : AccountOutcome)
  | updating (token : StoredToken E V W) (after : AccountOutcome)
  | loggingIn (email : E) (password : V) (row : AccountRow W)
  | signing (email : E) (password : V) (row : AccountRow W)
  | ended (outcome : AccountOutcome)

def AccountCall.isEnded {E V W : Type} : AccountCall E V W → Bool
  | .ended _ => true
  | _ => false

/-- A verification: the token that was presented, the hash that it was compared with, and the
time at which the expiry was checked. -/
structure Verification (E V W : Type) where
  email : E
  token : V
  tokenHash : W
  checkedAt : ℕ

structure ChosenPassword (E V W : Type) where
  email : E
  password : V
  passwordHash : W

structure IssuedJwt (E V W : Type) where
  email : E
  password : V
  row : AccountRow W

/-- The accounts by their address `E`, the mails handed over, the calls `H`, and for the
statements every stored token, given password, verification and login so far. -/
structure AccountStore (E V W H : Type) where
  now : ℕ
  users : E → Option (AccountRow W)
  mails : List (E × V)
  calls : H → Option (AccountCall E V W)
  stored : List (StoredToken E V W)
  passwords : List (ChosenPassword E V W)
  verifications : List (Verification E V W)
  issued : List (IssuedJwt E V W)

/-- The steps of the calls, named after the call that has been answered. A hash is any value
that its clear text satisfies; `resetPassword` is the commit of a password reset. No account is
ever removed. -/
inductive AccountAction (E V W H : Type)
  | tick (ms : ℕ)
  | signup (call : H) (email : E) (password : V)
  | hashPassword (call : H) (passwordHash : W) (rawToken : V) (tokenHash : W)
  | insertUser (call : H)
  | queueVerificationEmail (call : H)
  | verifyEmail (call : H) (email : E) (token : V)
  | checkToken (call : H)
  | verifyValue (call : H)
  | markVerified (call : H) (date : ℕ)
  | resendVerificationEmail (call : H) (email : E)
  | getUserByEmail (call : H)
  | generateVerificationToken (call : H) (rawToken : V) (tokenHash : W)
  | updateToken (call : H)
  | login (call : H) (email : E) (password : V)
  | verifyPassword (call : H)
  | signJwt (call : H)
  | resetPassword (email : E) (password : V) (passwordHash : W)
  | fail (call : H)

namespace AccountStore

variable {E V W H : Type}

def initial : AccountStore E V W H where
  now := 0
  users _ := none
  mails := []
  calls _ := none
  stored := []
  passwords := []
  verifications := []
  issued := []

variable [DecidableEq E] [DecidableEq H] (verify : V → W → Bool) (expiryMs : ℕ)

def setCall (s : AccountStore E V W H) (h : H) (c : AccountCall E V W) : AccountStore E V W H :=
  { s with calls := Function.update s.calls h (some c) }

def setUser (s : AccountStore E V W H) (e : E) (row : AccountRow W) : AccountStore E V W H :=
  { s with users := Function.update s.users e (some row) }

/-- What `verifyEmail` makes of the row it has read: an answer, or the hash to compare with. -/
def checkVerification (now : ℕ) : Option (AccountRow W) → AccountOutcome ⊕ W
  | none => .inl .accountNotFound
  | some row =>
    if row.verifiedAt.isSome then .inl (.verified true)
    else
      match row.verificationTokenHash, row.verificationTokenExpiresAt with
      | some tokenHash, some expiresAt =>
        if expiresAt < now then .inl .invalidToken else .inr tokenHash
      | _, _ => .inl .invalidToken

def tokenIsStillValid (now : ℕ) (row : AccountRow W) : Bool :=
  row.verificationTokenExpiresAt.any fun expiresAt => now < expiresAt

def step (s : AccountStore E V W H) : AccountAction E V W H → Option (AccountStore E V W H)
  | .tick ms => some { s with now := s.now + ms }
  | .signup h e password =>
    if (s.calls h).isNone then
      some (s.setCall h
        (if (s.users e).isSome then .ended .accountExists else .signingUp e password))
    else none
  | .hashPassword h passwordHash rawToken tokenHash =>
    match s.calls h with
    | some (.signingUp e password) =>
      if verify password passwordHash ∧ verify rawToken tokenHash then
        some (s.setCall h
          (.inserting passwordHash password ⟨e, rawToken, tokenHash, s.now + expiryMs⟩))
      else none
    | _ => none
  | .insertUser h =>
    match s.calls h with
    | some (.inserting passwordHash password token) =>
      -- the unique constraint refuses a second row
      if (s.users token.email).isNone then
        some { (s.setUser token.email
            ⟨passwordHash, none, some token.tokenHash, some token.expiresAt⟩).setCall h
              (.mailing token .created) with
          stored := s.stored ++ [token]
          passwords := s.passwords ++ [⟨token.email, password, passwordHash⟩] }
      else some (s.setCall h (.ended .failed))
    | _ => none
  | .queueVerificationEmail h =>
    match s.calls h with
    | some (.mailing token after) =>
      some { s.setCall h (.ended after) with mails := s.mails ++ [(token.email, token.rawToken)] }
    | _ => none
  | .verifyEmail h e token =>
    if (s.calls h).isNone then some (s.setCall h (.checking e token (s.users e))) else none
  | .checkToken h =>
    match s.calls h with
    | some (.checking e token row) =>
      some (s.setCall h (match checkVerification s.now row with
        | .inl outcome => .ended outcome
        | .inr tokenHash => .verifying e token tokenHash s.now))
    | _ => none
  | .verifyValue h =>
    match s.calls h with
    | some (.verifying e token tokenHash checkedAt) =>
      some (s.setCall h
        (if verify token tokenHash then .confirming e token tokenHash checkedAt
        else .ended .invalidToken))
    | _ => none
  | .markVerified h date =>
    match s.calls h with
    | some (.confirming e token tokenHash checkedAt) =>
      (s.users e).map fun row =>
        { (s.setUser e ⟨row.passwordHash, some date, none, none⟩).setCall h
            (.ended (.verified false)) with
          verifications := s.verifications ++ [⟨e, token, tokenHash, checkedAt⟩] }
    | _ => none
  | .resendVerificationEmail h e =>
    if (s.calls h).isNone then some (s.setCall h (.resending e .accepted)) else none
  | .getUserByEmail h =>
    match s.calls h with
    | some (.resending e after) =>
      some (s.setCall h
        (if (s.users e).any fun row => row.verifiedAt.isNone then .minting e after
        else .ended after))
    | _ => none
  | .generateVerificationToken h rawToken tokenHash =>
    match s.calls h with
    | some (.minting e after) =>
      if verify rawToken tokenHash then
        some (s.setCall h (.updating ⟨e, rawToken, tokenHash, s.now + expiryMs⟩ after))
      else none
    | _ => none
  | .updateToken h =>
    match s.calls h with
    | some (.updating token after) =>
      (s.users token.email).map fun row =>
        { (s.setUser token.email { row with
            verificationTokenHash := some token.tokenHash
            verificationTokenExpiresAt := some token.expiresAt }).setCall h
              (.mailing token after) with
          stored := s.stored ++ [token] }
    | _ => none
  | .login h e password =>
    if (s.calls h).isNone then
      match s.users e with
      | none => some (s.setCall h (.ended .invalidLogin))
      | some row => some (s.setCall h (.loggingIn e password row))
    else none
  | .verifyPassword h =>
    match s.calls h with
    | some (.loggingIn e password row) =>
      some (s.setCall h
        (if !verify password row.passwordHash then .ended .invalidLogin
        else if row.verifiedAt.isSome then .signing e password row
        else if tokenIsStillValid s.now row then .ended .checkInbox
        else .resending e .linkSent))
    | _ => none
  | .signJwt h =>
    match s.calls h with
    | some (.signing e password row) =>
      some { s.setCall h (.ended .token) with issued := s.issued ++ [⟨e, password, row⟩] }
    | _ => none
  | .resetPassword e password passwordHash =>
    if verify password passwordHash then
      (s.users e).map fun row =>
        { s.setUser e { row with passwordHash := passwordHash } with
          passwords := s.passwords ++ [⟨e, password, passwordHash⟩] }
    else none
  | .fail h =>
    match s.calls h with
    | some (.mailing _ _) | some (.ended _) | none => none
    | some _ => some (s.setCall h (.ended .failed))

abbrev Reachable : AccountStore E V W H → Prop :=
  Runs.Reachable (step verify expiryMs) fun s => s = initial

/-- What is known of a row: its password was given to the account, it is verified only by a
verification, and the token it waits for is a stored one. -/
structure RowOk (s : AccountStore E V W H) (e : E) (row : AccountRow W) : Prop where
  password : ∃ p ∈ s.passwords, p.email = e ∧ p.passwordHash = row.passwordHash
  verified : row.verifiedAt.isSome → ∃ v ∈ s.verifications, v.email = e
  token : ∀ w ∈ row.verificationTokenHash, ∃ m ∈ s.stored, m.email = e ∧ m.tokenHash = w ∧
    row.verificationTokenExpiresAt = some m.expiresAt
  waits : row.verifiedAt = none → row.verificationTokenHash.isSome

def Unexpired (s : AccountStore E V W H) (e : E) (tokenHash : W) (checkedAt : ℕ) : Prop :=
  ∃ m ∈ s.stored, m.email = e ∧ m.tokenHash = tokenHash ∧ checkedAt ≤ m.expiresAt

def CallOk (s : AccountStore E V W H) : AccountCall E V W → Prop
  | .mailing token _ => token ∈ s.stored
  | .checking e _ row => ∀ r ∈ row, RowOk s e r
  | .verifying e _ tokenHash checkedAt => Unexpired s e tokenHash checkedAt
  | .confirming e token tokenHash checkedAt =>
    Unexpired s e tokenHash checkedAt ∧ verify token tokenHash
  | .loggingIn e _ row => RowOk s e row
  | .signing e password row =>
    RowOk s e row ∧ verify password row.passwordHash ∧ row.verifiedAt.isSome
  | .inserting passwordHash password token =>
    verify password passwordHash ∧ verify token.rawToken token.tokenHash
  | .updating token _ => verify token.rawToken token.tokenHash
  | .signingUp _ _ | .resending _ _ | .minting _ _ | .ended _ => True

/-- Where everything that the calls rely on comes from. -/
structure Inv (s : AccountStore E V W H) : Prop where
  users : ∀ e row, s.users e = some row → RowOk s e row
  calls : ∀ h c, s.calls h = some c → CallOk verify s c
  stored : ∀ m ∈ s.stored, verify m.rawToken m.tokenHash
  passwords : ∀ p ∈ s.passwords, verify p.password p.passwordHash
  mails : ∀ mail ∈ s.mails, ∃ m ∈ s.stored, (m.email, m.rawToken) = mail
  verifications : ∀ v ∈ s.verifications,
    Unexpired s v.email v.tokenHash v.checkedAt ∧ verify v.token v.tokenHash
  issued : ∀ jwt ∈ s.issued, RowOk s jwt.email jwt.row ∧
    verify jwt.password jwt.row.passwordHash ∧ jwt.row.verifiedAt.isSome

structure Extends (s t : AccountStore E V W H) : Prop where
  stored : ∀ m ∈ s.stored, m ∈ t.stored
  passwords : ∀ p ∈ s.passwords, p ∈ t.passwords
  verifications : ∀ v ∈ s.verifications, v ∈ t.verifications

section Invariant

variable {verify expiryMs} {s t : AccountStore E V W H}

omit [DecidableEq E] [DecidableEq H]

theorem RowOk.mono {e : E} {row : AccountRow W} (h : RowOk s e row) (he : Extends s t) :
    RowOk t e row where
  password := by
    obtain ⟨p, hp, h⟩ := h.password
    exact ⟨p, he.passwords p hp, h⟩
  verified hv := by
    obtain ⟨v, hv, h⟩ := h.verified hv
    exact ⟨v, he.verifications v hv, h⟩
  token w hw := by
    obtain ⟨m, hm, h⟩ := h.token w hw
    exact ⟨m, he.stored m hm, h⟩
  waits := h.waits

theorem Unexpired.mono {e : E} {w : W} {checkedAt : ℕ} (h : Unexpired s e w checkedAt)
    (he : Extends s t) : Unexpired t e w checkedAt := by
  obtain ⟨m, hm, h⟩ := h
  exact ⟨m, he.stored m hm, h⟩

theorem CallOk.mono {c : AccountCall E V W} (h : CallOk verify s c) (he : Extends s t) :
    CallOk verify t c := by
  cases c with
  | mailing token after => exact he.stored _ h
  | checking e token row => exact fun r hr => (h r hr).mono he
  | verifying e token w checkedAt => exact Unexpired.mono h he
  | confirming e token w checkedAt => exact ⟨h.1.mono he, h.2⟩
  | loggingIn e password row => exact RowOk.mono h he
  | signing e password row => exact ⟨h.1.mono he, h.2⟩
  | inserting | updating => exact h
  | signingUp | resending | minting | ended => trivial

/-- What a step has to show: that what it adds to the state is accounted for. -/
theorem Inv.extend (h : Inv verify s) (he : Extends s t)
    (husers : ∀ e row, t.users e = some row → s.users e = some row ∨ RowOk t e row)
    (hcalls : ∀ k c, t.calls k = some c → s.calls k = some c ∨ CallOk verify t c)
    (hstored : ∀ m ∈ t.stored, m ∈ s.stored ∨ verify m.rawToken m.tokenHash)
    (hpasswords : ∀ p ∈ t.passwords, p ∈ s.passwords ∨ verify p.password p.passwordHash)
    (hmails : ∀ mail ∈ t.mails, mail ∈ s.mails ∨ ∃ m ∈ t.stored, (m.email, m.rawToken) = mail)
    (hverifications : ∀ v ∈ t.verifications, v ∈ s.verifications ∨
      Unexpired t v.email v.tokenHash v.checkedAt ∧ verify v.token v.tokenHash)
    (hissued : ∀ jwt ∈ t.issued, jwt ∈ s.issued ∨ RowOk t jwt.email jwt.row ∧
      verify jwt.password jwt.row.passwordHash ∧ jwt.row.verifiedAt.isSome) : Inv verify t where
  users e row hrow := (husers e row hrow).elim (fun h' => (h.users e row h').mono he) id
  calls k c hc := (hcalls k c hc).elim (fun h' => (h.calls k c h').mono he) id
  stored m hm := (hstored m hm).elim (h.stored m) id
  passwords p hp := (hpasswords p hp).elim (h.passwords p) id
  mails mail hm := by
    rcases hmails mail hm with hm | hm
    · obtain ⟨m, hm, heq⟩ := h.mails mail hm
      exact ⟨m, he.stored m hm, heq⟩
    · exact hm
  verifications v hv := (hverifications v hv).elim
    (fun h' => ⟨(h.verifications v h').1.mono he, (h.verifications v h').2⟩) id
  issued jwt hj := (hissued jwt hj).elim
    (fun h' => ⟨(h.issued jwt h').1.mono he, (h.issued jwt h').2⟩) id

end Invariant

section Steps

variable {verify expiryMs} {s t : AccountStore E V W H}

omit [DecidableEq E] in
theorem setCall_calls {k k' : H} {c c' : AccountCall E V W}
    (h : (s.setCall k c).calls k' = some c') : s.calls k' = some c' ∨ c' = c := by
  rcases Tables.update_eq_some.mp h with ⟨-, h⟩ | ⟨-, h⟩
  · exact .inr (Option.some.inj h).symm
  · exact .inl h

omit [DecidableEq H] in
theorem setUser_users {e e' : E} {row row' : AccountRow W}
    (h : (s.setUser e row).users e' = some row') :
    s.users e' = some row' ∨ (e' = e ∧ row' = row) := by
  rcases Tables.update_eq_some.mp h with ⟨he, hrow⟩ | ⟨-, hrow⟩
  · exact .inr ⟨he, (Option.some.inj hrow).symm⟩
  · exact .inl hrow

omit [DecidableEq E] in
theorem Inv.setCall (h : Inv verify s) {k : H} {c : AccountCall E V W} (hc : CallOk verify s c) :
    Inv verify (s.setCall k c) := by
  have he : Extends s (s.setCall k c) := ⟨fun _ => id, fun _ => id, fun _ => id⟩
  refine h.extend he (fun _ _ => .inl) (fun k' c' hc' => ?_) (fun _ => .inl) (fun _ => .inl)
    (fun _ => .inl) (fun _ => .inl) (fun _ => .inl)
  refine (setCall_calls hc').imp_right ?_
  rintro rfl
  exact hc.mono he

omit [DecidableEq E] [DecidableEq H] in
theorem unexpired_of_checkVerification {e : E} {row : Option (AccountRow W)} {now : ℕ} {w : W}
    (hrow : ∀ r ∈ row, RowOk s e r) (h : checkVerification now row = .inr w) :
    Unexpired s e w now := by
  cases row with
  | none => cases h
  | some row =>
    unfold checkVerification at h
    dsimp only at h
    split at h
    · cases h
    · split at h
      · next w' expiresAt hw hexpires =>
        split at h
        · cases h
        · next hle =>
          cases h
          obtain ⟨m, hm, hemail, hhash, hm'⟩ := (hrow row rfl).token w hw
          rw [hexpires] at hm'
          exact ⟨m, hm, hemail, hhash, Option.some.inj hm' ▸ not_lt.mp hle⟩
      · cases h

theorem Inv.insertUser (h : Inv verify s) {k : H} {passwordHash : W} {password : V}
    {token : StoredToken E V W} (hc : s.calls k = some (.inserting passwordHash password token)) :
    Inv verify { (s.setUser token.email
        ⟨passwordHash, none, some token.tokenHash, some token.expiresAt⟩).setCall k
          (.mailing token .created) with
      stored := s.stored ++ [token]
      passwords := s.passwords ++ [⟨token.email, password, passwordHash⟩] } := by
  refine h.extend ⟨fun _ => List.mem_append_left _, fun _ => List.mem_append_left _, fun _ => id⟩
    (fun e row hrow => ?_) (fun k' c hc' => ?_) (fun m hm => ?_) (fun p hp => ?_) (fun _ => .inl)
    (fun _ => .inl) (fun _ => .inl)
  · refine (setUser_users hrow).imp_right ?_
    rintro ⟨rfl, rfl⟩
    refine ⟨⟨_, List.mem_append_right _ (List.mem_singleton_self _), rfl, rfl⟩,
      fun hv => (by cases hv), fun w hw => ?_, fun _ => rfl⟩
    obtain rfl := Option.some.inj hw
    exact ⟨token, List.mem_append_right _ (List.mem_singleton_self _), rfl, rfl, rfl⟩
  · refine (setCall_calls hc').imp_right ?_
    rintro rfl
    exact List.mem_append_right _ (List.mem_singleton_self _)
  · refine (List.mem_append.mp hm).imp_right fun hm => ?_
    obtain rfl := List.mem_singleton.mp hm
    exact (h.calls k _ hc).2
  · refine (List.mem_append.mp hp).imp_right fun hp => ?_
    obtain rfl := List.mem_singleton.mp hp
    exact (h.calls k _ hc).1

theorem Inv.updateToken (h : Inv verify s) {k : H} {token : StoredToken E V W}
    {after : AccountOutcome} {row : AccountRow W} (hc : s.calls k = some (.updating token after))
    (hrow : s.users token.email = some row) :
    Inv verify { (s.setUser token.email { row with
        verificationTokenHash := some token.tokenHash
        verificationTokenExpiresAt := some token.expiresAt }).setCall k (.mailing token after) with
      stored := s.stored ++ [token] } := by
  have he : Extends s { (s.setUser token.email { row with
        verificationTokenHash := some token.tokenHash
        verificationTokenExpiresAt := some token.expiresAt }).setCall k (.mailing token after) with
      stored := s.stored ++ [token] } :=
    ⟨fun _ => List.mem_append_left _, fun _ => id, fun _ => id⟩
  refine h.extend he (fun e row' hrow' => ?_) (fun k' c hc' => ?_) (fun m hm => ?_)
    (fun _ => .inl) (fun _ => .inl) (fun _ => .inl) (fun _ => .inl)
  · refine (setUser_users hrow').imp_right ?_
    rintro ⟨rfl, rfl⟩
    have hok := (h.users _ row hrow).mono he
    refine ⟨hok.password, hok.verified, fun w hw => ?_, fun _ => rfl⟩
    obtain rfl := Option.some.inj hw
    exact ⟨token, List.mem_append_right _ (List.mem_singleton_self _), rfl, rfl, rfl⟩
  · refine (setCall_calls hc').imp_right ?_
    rintro rfl
    exact List.mem_append_right _ (List.mem_singleton_self _)
  · refine (List.mem_append.mp hm).imp_right fun hm => ?_
    obtain rfl := List.mem_singleton.mp hm
    exact h.calls k _ hc

theorem Inv.markVerified (h : Inv verify s) {k : H} {e : E} {token : V} {w : W}
    {checkedAt date : ℕ} {row : AccountRow W}
    (hc : s.calls k = some (.confirming e token w checkedAt)) (hrow : s.users e = some row) :
    Inv verify { (s.setUser e ⟨row.passwordHash, some date, none, none⟩).setCall k
        (.ended (.verified false)) with
      verifications := s.verifications ++ [⟨e, token, w, checkedAt⟩] } := by
  have he : Extends s { (s.setUser e ⟨row.passwordHash, some date, none, none⟩).setCall k
        (.ended (.verified false)) with
      verifications := s.verifications ++ [⟨e, token, w, checkedAt⟩] } :=
    ⟨fun _ => id, fun _ => id, fun _ => List.mem_append_left _⟩
  refine h.extend he (fun e' row' hrow' => ?_) (fun k' c hc' => ?_) (fun _ => .inl) (fun _ => .inl)
    (fun _ => .inl) (fun v hv => ?_) (fun _ => .inl)
  · refine (setUser_users hrow').imp_right ?_
    rintro ⟨rfl, rfl⟩
    exact ⟨((h.users _ row hrow).mono he).password,
      fun _ => ⟨_, List.mem_append_right _ (List.mem_singleton_self _), rfl⟩,
      fun w hw => (by cases hw), fun hnone => (by cases hnone)⟩
  · refine (setCall_calls hc').imp_right ?_
    rintro rfl
    trivial
  · refine (List.mem_append.mp hv).imp_right fun hv => ?_
    obtain rfl := List.mem_singleton.mp hv
    exact ⟨(h.calls k _ hc).1.mono he, (h.calls k _ hc).2⟩

omit [DecidableEq H] in
theorem Inv.resetPassword (h : Inv verify s) {e : E} {password : V} {passwordHash : W}
    {row : AccountRow W} (hv : verify password passwordHash) (hrow : s.users e = some row) :
    Inv verify { s.setUser e { row with passwordHash := passwordHash } with
      passwords := s.passwords ++ [⟨e, password, passwordHash⟩] } := by
  have he : Extends s { s.setUser e { row with passwordHash := passwordHash } with
      passwords := s.passwords ++ [⟨e, password, passwordHash⟩] } :=
    ⟨fun _ => id, fun _ => List.mem_append_left _, fun _ => id⟩
  refine h.extend he (fun e' row' hrow' => ?_) (fun _ _ => .inl) (fun _ => .inl) (fun p hp => ?_)
    (fun _ => .inl) (fun _ => .inl) (fun _ => .inl)
  · refine (setUser_users hrow').imp_right ?_
    rintro ⟨rfl, rfl⟩
    have hok := (h.users _ row hrow).mono he
    exact ⟨⟨_, List.mem_append_right _ (List.mem_singleton_self _), rfl, rfl⟩, hok.verified,
      hok.token, hok.waits⟩
  · refine (List.mem_append.mp hp).imp_right fun hp => ?_
    obtain rfl := List.mem_singleton.mp hp
    exact hv

omit [DecidableEq E] in
theorem Inv.queueVerificationEmail (h : Inv verify s) {k : H} {token : StoredToken E V W}
    {after : AccountOutcome} (hc : s.calls k = some (.mailing token after)) :
    Inv verify { s.setCall k (.ended after) with
      mails := s.mails ++ [(token.email, token.rawToken)] } := by
  refine h.extend ⟨fun _ => id, fun _ => id, fun _ => id⟩ (fun _ _ => .inl)
    (fun k' c hc' => ?_) (fun _ => .inl) (fun _ => .inl) (fun mail hm => ?_) (fun _ => .inl)
    (fun _ => .inl)
  · refine (setCall_calls hc').imp_right ?_
    rintro rfl
    trivial
  · refine (List.mem_append.mp hm).imp_right fun hm => ?_
    obtain rfl := List.mem_singleton.mp hm
    exact ⟨token, h.calls k _ hc, rfl⟩

omit [DecidableEq E] in
theorem Inv.signJwt (h : Inv verify s) {k : H} {e : E} {password : V} {row : AccountRow W}
    (hc : s.calls k = some (.signing e password row)) :
    Inv verify { s.setCall k (.ended .token) with issued := s.issued ++ [⟨e, password, row⟩] } := by
  have he : Extends s { s.setCall k (.ended .token) with
      issued := s.issued ++ [⟨e, password, row⟩] } := ⟨fun _ => id, fun _ => id, fun _ => id⟩
  refine h.extend he (fun _ _ => .inl) (fun k' c hc' => ?_) (fun _ => .inl) (fun _ => .inl)
    (fun _ => .inl) (fun _ => .inl) (fun jwt hj => ?_)
  · refine (setCall_calls hc').imp_right ?_
    rintro rfl
    trivial
  · refine (List.mem_append.mp hj).imp_right fun hj => ?_
    obtain rfl := List.mem_singleton.mp hj
    exact ⟨(h.calls k _ hc).1.mono he, (h.calls k _ hc).2⟩

/-- The change that a step makes. A call that only goes on or ends was not about to mail a
token, and knows no more than it has read. -/
inductive Change (verify : V → W → Bool) (s : AccountStore E V W H) : AccountStore E V W H → Prop
  | tick (ms : ℕ) : Change verify s { s with now := s.now + ms }
  | moves (k : H) (c : AccountCall E V W)
      (hk : ∀ token after, s.calls k ≠ some (.mailing token after))
      (hc : Inv verify s → CallOk verify s c) : Change verify s (s.setCall k c)
  | insertUser {k : H} {passwordHash : W} {password : V} {token : StoredToken E V W}
      (hc : s.calls k = some (.inserting passwordHash password token)) :
      Change verify s { (s.setUser token.email
        ⟨passwordHash, none, some token.tokenHash, some token.expiresAt⟩).setCall k
          (.mailing token .created) with
        stored := s.stored ++ [token]
        passwords := s.passwords ++ [⟨token.email, password, passwordHash⟩] }
  | queueVerificationEmail {k : H} {token : StoredToken E V W} {after : AccountOutcome}
      (hc : s.calls k = some (.mailing token after)) :
      Change verify s { s.setCall k (.ended after) with
        mails := s.mails ++ [(token.email, token.rawToken)] }
  | markVerified {k : H} {e : E} {token : V} {w : W} {checkedAt : ℕ} (date : ℕ)
      {row : AccountRow W} (hc : s.calls k = some (.confirming e token w checkedAt))
      (hrow : s.users e = some row) :
      Change verify s { (s.setUser e ⟨row.passwordHash, some date, none, none⟩).setCall k
        (.ended (.verified false)) with
        verifications := s.verifications ++ [⟨e, token, w, checkedAt⟩] }
  | updateToken {k : H} {token : StoredToken E V W} {after : AccountOutcome}
      {row : AccountRow W} (hc : s.calls k = some (.updating token after))
      (hrow : s.users token.email = some row) :
      Change verify s { (s.setUser token.email { row with
        verificationTokenHash := some token.tokenHash
        verificationTokenExpiresAt := some token.expiresAt }).setCall k (.mailing token after) with
        stored := s.stored ++ [token] }
  | signJwt {k : H} {e : E} {password : V} {row : AccountRow W}
      (hc : s.calls k = some (.signing e password row)) :
      Change verify s { s.setCall k (.ended .token) with
        issued := s.issued ++ [⟨e, password, row⟩] }
  | resetPassword {e : E} {password : V} {passwordHash : W} {row : AccountRow W}
      (hv : verify password passwordHash) (hrow : s.users e = some row) :
      Change verify s { s.setUser e { row with passwordHash := passwordHash } with
        passwords := s.passwords ++ [⟨e, password, passwordHash⟩] }

omit [DecidableEq E] [DecidableEq H] in
theorem ne_mailing {o : Option (AccountCall E V W)} {k : H} (hk : s.calls k = o)
    (ho : ∀ token after, o ≠ some (.mailing token after)) (token : StoredToken E V W)
    (after : AccountOutcome) : s.calls k ≠ some (.mailing token after) :=
  hk ▸ ho token after

theorem step_cases {a : AccountAction E V W H} (hs : step verify expiryMs s a = some t) :
    Change verify s t := by
  cases a with
  | tick ms =>
    obtain rfl := Option.some.inj hs
    exact .tick ms
  | signup k e password =>
    obtain ⟨hk, hs⟩ := Option.ite_none_right_eq_some.mp hs
    obtain rfl := Option.some.inj hs
    refine .moves k _ (ne_mailing (Option.isNone_iff_eq_none.mp hk) (by simp)) fun _ => ?_
    split <;> trivial
  | hashPassword k passwordHash rawToken tokenHash =>
    simp only [step] at hs
    split at hs
    · next hc =>
      obtain ⟨hv, hs⟩ := Option.ite_none_right_eq_some.mp hs
      obtain rfl := Option.some.inj hs
      exact .moves k _ (ne_mailing hc (by simp)) fun _ => hv
    · cases hs
  | insertUser k =>
    simp only [step] at hs
    split at hs
    · next hc =>
      split at hs
      · obtain rfl := Option.some.inj hs
        exact .insertUser hc
      · obtain rfl := Option.some.inj hs
        exact .moves k _ (ne_mailing hc (by simp)) fun _ => trivial
    · cases hs
  | queueVerificationEmail k =>
    simp only [step] at hs
    split at hs
    · next hc =>
      obtain rfl := Option.some.inj hs
      exact .queueVerificationEmail hc
    · cases hs
  | verifyEmail k e token =>
    obtain ⟨hk, hs⟩ := Option.ite_none_right_eq_some.mp hs
    obtain rfl := Option.some.inj hs
    exact .moves k _ (ne_mailing (Option.isNone_iff_eq_none.mp hk) (by simp))
      fun h row hrow => h.users e row hrow
  | checkToken k =>
    simp only [step] at hs
    split at hs
    · next e token row hc =>
      obtain rfl := Option.some.inj hs
      refine .moves k _ (ne_mailing hc (by simp)) fun h => ?_
      split
      · trivial
      · next w hw => exact unexpired_of_checkVerification (h.calls k _ hc) hw
    · cases hs
  | verifyValue k =>
    simp only [step] at hs
    split at hs
    · next e token w checkedAt hc =>
      obtain rfl := Option.some.inj hs
      refine .moves k _ (ne_mailing hc (by simp)) fun h => ?_
      split
      · next hv => exact ⟨h.calls k _ hc, hv⟩
      · trivial
    · cases hs
  | markVerified k date =>
    simp only [step] at hs
    split at hs
    · next hc =>
      obtain ⟨row, hrow, rfl⟩ := Option.map_eq_some_iff.mp hs
      exact .markVerified date hc hrow
    · cases hs
  | resendVerificationEmail k e =>
    obtain ⟨hk, hs⟩ := Option.ite_none_right_eq_some.mp hs
    obtain rfl := Option.some.inj hs
    exact .moves k _ (ne_mailing (Option.isNone_iff_eq_none.mp hk) (by simp)) fun _ => trivial
  | getUserByEmail k =>
    simp only [step] at hs
    split at hs
    · next hc =>
      obtain rfl := Option.some.inj hs
      refine .moves k _ (ne_mailing hc (by simp)) fun _ => ?_
      split <;> trivial
    · cases hs
  | generateVerificationToken k rawToken tokenHash =>
    simp only [step] at hs
    split at hs
    · next hc =>
      obtain ⟨hv, hs⟩ := Option.ite_none_right_eq_some.mp hs
      obtain rfl := Option.some.inj hs
      exact .moves k _ (ne_mailing hc (by simp)) fun _ => hv
    · cases hs
  | updateToken k =>
    simp only [step] at hs
    split at hs
    · next hc =>
      obtain ⟨row, hrow, rfl⟩ := Option.map_eq_some_iff.mp hs
      exact .updateToken hc hrow
    · cases hs
  | login k e password =>
    obtain ⟨hk, hs⟩ := Option.ite_none_right_eq_some.mp hs
    have hk := ne_mailing (Option.isNone_iff_eq_none.mp hk) (by simp)
    split at hs
    · obtain rfl := Option.some.inj hs
      exact .moves k _ hk fun _ => trivial
    · next row hrow =>
      obtain rfl := Option.some.inj hs
      exact .moves k _ hk fun h => h.users e row hrow
  | verifyPassword k =>
    simp only [step] at hs
    split at hs
    · next e password row hc =>
      obtain rfl := Option.some.inj hs
      refine .moves k _ (ne_mailing hc (by simp)) fun h => ?_
      split
      · trivial
      · next hpassword =>
        split
        · next hverified => exact ⟨h.calls k _ hc, by simpa using hpassword, hverified⟩
        · split <;> trivial
    · cases hs
  | signJwt k =>
    simp only [step] at hs
    split at hs
    · next hc =>
      obtain rfl := Option.some.inj hs
      exact .signJwt hc
    · cases hs
  | resetPassword e password passwordHash =>
    obtain ⟨hv, hs⟩ := Option.ite_none_right_eq_some.mp hs
    obtain ⟨row, hrow, rfl⟩ := Option.map_eq_some_iff.mp hs
    exact .resetPassword hv hrow
  | fail k =>
    simp only [step] at hs
    split at hs
    · cases hs
    · cases hs
    · cases hs
    · next c hmail hended hc =>
      obtain rfl := Option.some.inj hs
      refine .moves k _ (fun token after hm => ?_) fun _ => trivial
      exact hmail token after (Option.some.inj (hc.symm.trans hm))

theorem inv_step {a : AccountAction E V W H} (h : Inv verify s)
    (hs : step verify expiryMs s a = some t) : Inv verify t := by
  cases step_cases hs with
  | tick ms =>
    exact h.extend ⟨fun _ => id, fun _ => id, fun _ => id⟩ (fun _ _ => .inl) (fun _ _ => .inl)
      (fun _ => .inl) (fun _ => .inl) (fun _ => .inl) (fun _ => .inl) (fun _ => .inl)
  | moves k c _ hc => exact h.setCall (hc h)
  | insertUser hc => exact h.insertUser hc
  | queueVerificationEmail hc => exact h.queueVerificationEmail hc
  | markVerified date hc hrow => exact h.markVerified hc hrow
  | updateToken hc hrow => exact h.updateToken hc hrow
  | signJwt hc => exact h.signJwt hc
  | resetPassword hv hrow => exact h.resetPassword hv hrow

theorem Reachable.inv (h : Reachable verify expiryMs s) : Inv verify s := by
  refine Runs.Reach.invariant ?_ (fun _ _ _ h _ hs => inv_step h hs) h
  rintro _ rfl
  exact ⟨fun _ _ h => (by cases h), fun _ _ h => (by cases h), fun _ h => (by cases h),
    fun _ h => (by cases h), fun _ h => (by cases h), fun _ h => (by cases h),
    fun _ h => (by cases h)⟩

/-- Whoever got a JWT gave a password that the account had been given, and someone had presented
a token for the address that was stored with that account and had not expired. No mail takes a
token to another address than the one it is stored with. -/
theorem login_needs_storedToken (h : Reachable verify expiryMs s) :
    (∀ jwt ∈ s.issued,
      (∃ p ∈ s.passwords, p.email = jwt.email ∧ verify p.password p.passwordHash ∧
        verify jwt.password p.passwordHash) ∧
      ∃ v ∈ s.verifications, v.email = jwt.email ∧ ∃ m ∈ s.stored, m.email = jwt.email ∧
        verify m.rawToken m.tokenHash ∧ verify v.token m.tokenHash ∧ v.checkedAt ≤ m.expiresAt) ∧
    ∀ mail ∈ s.mails, ∃ m ∈ s.stored, (m.email, m.rawToken) = mail := by
  have hinv := Reachable.inv h
  refine ⟨fun jwt hj => ?_, hinv.mails⟩
  obtain ⟨hrow, hpassword, hverified⟩ := hinv.issued jwt hj
  obtain ⟨p, hp, hemail, hhash⟩ := hrow.password
  obtain ⟨v, hv, hvemail⟩ := hrow.verified hverified
  obtain ⟨⟨m, hm, hmemail, hmhash, hunexpired⟩, htoken⟩ := hinv.verifications v hv
  refine ⟨⟨p, hp, hemail, hinv.passwords p hp, hhash ▸ hpassword⟩, v, hv, hvemail, m, hm, ?_⟩
  exact ⟨hmemail.trans hvemail, hinv.stored m hm, hmhash ▸ htoken, hunexpired⟩

/-- A signup whose token expires, a login that renews it, a verification and a login. -/
def signupToLogin : List (AccountAction ℕ ℕ ℕ ℕ) :=
  [.signup 0 5 9, .hashPassword 0 9 71 71, .insertUser 0, .queueVerificationEmail 0, .tick 70,
    .verifyEmail 1 5 71, .checkToken 1, .login 2 5 9, .verifyPassword 2, .getUserByEmail 2,
    .generateVerificationToken 2 72 72, .updateToken 2, .queueVerificationEmail 2,
    .verifyEmail 3 5 72, .checkToken 3, .login 4 5 9, .verifyValue 3, .markVerified 3 80,
    .verifyPassword 4, .login 5 5 9, .verifyPassword 5, .signJwt 5]

theorem login_needs_storedToken_signupToLogin :
    ∃ s, Runs.exec (step (fun v w => v == w) 60) initial signupToLogin = some s ∧
      s.issued.map IssuedJwt.email = [5] ∧ s.mails = [(5, 71), (5, 72)] ∧
      (∀ jwt ∈ s.issued, ∃ v ∈ s.verifications, v.email = jwt.email ∧
        ∃ m ∈ s.stored, m.email = jwt.email ∧ (m.rawToken == m.tokenHash) = true ∧
          (v.token == m.tokenHash) = true ∧ v.checkedAt ≤ m.expiresAt) := by
  obtain ⟨s, hs, hissued, hmails⟩ : ∃ s, Runs.exec (step (fun v w => v == w) 60) initial
      signupToLogin = some s ∧ s.issued.map IssuedJwt.email = [5] ∧
      s.mails = [(5, 71), (5, 72)] := ⟨_, rfl, rfl, rfl⟩
  have h := login_needs_storedToken (Runs.reachable_exec rfl hs)
  exact ⟨s, hs, hissued, hmails, fun jwt hj => (h.1 jwt hj).2⟩

def Delivered (s : AccountStore E V W H) : Prop :=
  ∀ m ∈ s.stored, (m.email, m.rawToken) ∈ s.mails ∨ ∃ k after, s.calls k = some (.mailing m after)

omit [DecidableEq E] in
theorem Delivered.update (h : Delivered s) {k : H} {c : AccountCall E V W}
    (hk : ∀ token after, s.calls k ≠ some (.mailing token after))
    (hstored : ∀ m ∈ t.stored, m ∈ s.stored ∨ ∃ after, c = .mailing m after)
    (hmails : t.mails = s.mails) (hcalls : t.calls = Function.update s.calls k (some c)) :
    Delivered t := by
  intro m hm
  rw [hmails, hcalls]
  rcases hstored m hm with hm | ⟨after, rfl⟩
  · refine (h m hm).imp_right ?_
    rintro ⟨k', after, hk'⟩
    obtain ⟨k'', hk''⟩ := Tables.exists_update (x := some c) (hk m after) ⟨k', hk'⟩
    exact ⟨k'', after, hk''⟩
  · exact .inr ⟨k, after, Function.update_self ..⟩

theorem delivered_step {a : AccountAction E V W H} (h : Delivered s)
    (hs : step verify expiryMs s a = some t) : Delivered t := by
  cases step_cases hs with
  | tick ms => exact h
  | moves k c hk _ => exact h.update hk (fun _ => .inl) rfl rfl
  | insertUser hc =>
    refine h.update (ne_mailing hc (by simp)) (fun m hm => ?_) rfl rfl
    refine (List.mem_append.mp hm).imp_right fun hm => ?_
    obtain rfl := List.mem_singleton.mp hm
    exact ⟨_, rfl⟩
  | @queueVerificationEmail k token after hc =>
    intro m hm
    rcases h m hm with hmail | ⟨k', after', hk'⟩
    · exact .inl (List.mem_append_left _ hmail)
    · by_cases hkk : k' = k
      · subst hkk
        cases hc.symm.trans hk'
        exact .inl (List.mem_append_right _ (List.mem_singleton_self _))
      · exact .inr ⟨k', after', Tables.update_eq_some.mpr (.inr ⟨hkk, hk'⟩)⟩
  | markVerified date hc _ => exact h.update (ne_mailing hc (by simp)) (fun _ => .inl) rfl rfl
  | updateToken hc _ =>
    refine h.update (ne_mailing hc (by simp)) (fun m hm => ?_) rfl rfl
    refine (List.mem_append.mp hm).imp_right fun hm => ?_
    obtain rfl := List.mem_singleton.mp hm
    exact ⟨_, rfl⟩
  | signJwt hc => exact h.update (ne_mailing hc (by simp)) (fun _ => .inl) rfl rfl
  | resetPassword _ _ => exact h

theorem Reachable.delivered (h : Reachable verify expiryMs s) : Delivered s := by
  refine Runs.Reach.invariant ?_ (fun _ _ _ h _ hs => delivered_step h hs) h
  rintro _ rfl
  exact List.forall_mem_nil _

def Idle (s : AccountStore E V W H) : Prop := ∀ k c, s.calls k = some c → c.isEnded = true

/-- In a state in which no call is in flight, an account that is not verified waits for a token
that has been mailed. -/
theorem waits_for_mailed (h : Reachable verify expiryMs s) (hidle : Idle s) {e : E}
    {row : AccountRow W} (hrow : s.users e = some row) (hun : row.verifiedAt = none) :
    ∃ m : StoredToken E V W, (e, m.rawToken) ∈ s.mails ∧ verify m.rawToken m.tokenHash ∧
      row.verificationTokenHash = some m.tokenHash ∧
      row.verificationTokenExpiresAt = some m.expiresAt := by
  have hinv := Reachable.inv h
  have hok := hinv.users e row hrow
  obtain ⟨w, hw⟩ := Option.isSome_iff_exists.mp (hok.waits hun)
  obtain ⟨m, hm, rfl, rfl, hexpires⟩ := hok.token w hw
  refine ⟨m, (Reachable.delivered h m hm).resolve_right ?_, hinv.stored m hm, hw, hexpires⟩
  rintro ⟨k, after, hk⟩
  cases hidle k _ hk

def verifyingWith (k : H) (e : E) (token : V) (date : ℕ) : List (AccountAction E V W H) :=
  [.verifyEmail k e token, .checkToken k, .verifyValue k, .markVerified k date]

def Verifies (verify : V → W → Bool) (expiryMs : ℕ) (s : AccountStore E V W H) (k : H) (e : E)
    (token : V) : Prop :=
  ∀ date, ∃ t, Runs.exec (step verify expiryMs) s (verifyingWith k e token date) = some t ∧
    t.calls k = some (.ended (.verified false)) ∧
    (t.users e).any (fun row => row.verifiedAt = some date) = true

theorem verifies_of_row {k : H} {e : E} {row : AccountRow W} {token : V} {w : W} {expiresAt : ℕ}
    (hk : s.calls k = none) (hrow : s.users e = some row) (hun : row.verifiedAt = none)
    (hw : row.verificationTokenHash = some w)
    (hexpires : row.verificationTokenExpiresAt = some expiresAt) (hnow : s.now ≤ expiresAt)
    (hv : verify token w) : Verifies verify expiryMs s k e token := by
  intro date
  have hcheck : checkVerification s.now (some row) = .inr w := by
    simp [checkVerification, hun, hw, hexpires, hnow]
  simp [Runs.exec, verifyingWith, step, setCall, setUser, hk, hrow, hcheck, hv]

def renewingToken (k : H) (rawToken : V) (tokenHash : W) : List (AccountAction E V W H) :=
  [.getUserByEmail k, .generateVerificationToken k rawToken tokenHash, .updateToken k,
    .queueVerificationEmail k]

/-- The right password for an account that is not verified is refused, and never in vain: the
login leaves a mailed token that verifies until it expires, or else mails one that does. -/
theorem refusedLogin_leads_on (h : Reachable verify expiryMs s) (hidle : Idle s) {e : E}
    {row : AccountRow W} (hrow : s.users e = some row) (hun : row.verifiedAt = none) {password : V}
    (hpassword : verify password row.passwordHash) {k k' : H} (hk : s.calls k = none)
    (hk' : s.calls k' = none) (hne : k' ≠ k) :
    ∃ t, Runs.exec (step verify expiryMs) s [.login k e password, .verifyPassword k] = some t ∧
      ((t.calls k = some (.ended .checkInbox) ∧ ∃ rawToken expiresAt, (e, rawToken) ∈ t.mails ∧
          t.now < expiresAt ∧ ∀ ms, t.now + ms ≤ expiresAt →
            Verifies verify expiryMs { t with now := t.now + ms } k' e rawToken) ∨
        t.calls k = some (.resending e .linkSent) ∧ ∀ rawToken tokenHash,
          verify rawToken tokenHash → ∃ u, Runs.exec (step verify expiryMs) t
            (renewingToken k rawToken tokenHash) = some u ∧ u.calls k = some (.ended .linkSent) ∧
            (e, rawToken) ∈ u.mails ∧ ∀ ms ≤ expiryMs,
              Verifies verify expiryMs { u with now := u.now + ms } k' e rawToken) := by
  obtain ⟨m, hmail, hm, hw, hexpires⟩ := waits_for_mailed h hidle hrow hun
  by_cases hvalid : s.now < m.expiresAt
  · refine ⟨(s.setCall k (.loggingIn e password row)).setCall k (.ended .checkInbox), ?_,
      .inl ⟨Function.update_self .., m.rawToken, m.expiresAt, hmail, hvalid, fun ms hms => ?_⟩⟩
    · simp [Runs.exec, step, setCall, hk, hrow, hpassword, hun, tokenIsStillValid, hexpires, hvalid]
    · exact verifies_of_row (by simp [setCall, hne, hk']) hrow hun hw hexpires hms hm
  · refine ⟨(s.setCall k (.loggingIn e password row)).setCall k (.resending e .linkSent), ?_,
      .inr ⟨Function.update_self .., fun rawToken tokenHash hv => ?_⟩⟩
    · simp [Runs.exec, step, setCall, hk, hrow, hpassword, hun, tokenIsStillValid, hexpires, hvalid]
    · let token : StoredToken E V W := ⟨e, rawToken, tokenHash, s.now + expiryMs⟩
      refine ⟨{ ((s.setUser e { row with
          verificationTokenHash := some token.tokenHash
          verificationTokenExpiresAt := some token.expiresAt }).setCall k (.ended .linkSent)) with
          stored := s.stored ++ [token]
          mails := s.mails ++ [(e, rawToken)] }, ?_, Function.update_self ..,
        List.mem_append_right _ (List.mem_singleton_self _), fun ms hms => ?_⟩
      · simp [Runs.exec, renewingToken, step, setCall, setUser, hrow, hun, hv, token]
      · exact verifies_of_row (by simp [setCall, setUser, hne, hk']) (Function.update_self ..) hun
          rfl rfl (Nat.add_le_add_left hms s.now) hv

def expiredSignup : List (AccountAction ℕ ℕ ℕ ℕ) :=
  [.signup 0 5 9, .hashPassword 0 9 71 71, .insertUser 0, .queueVerificationEmail 0, .tick 70]

theorem refusedLogin_leads_on_expiredSignup :
    ∃ s t, Runs.exec (step (fun v w => v == w) 60) initial expiredSignup = some s ∧
      Runs.exec (step (fun v w => v == w) 60) s [.login 1 5 9, .verifyPassword 1] = some t ∧
      t.calls 1 = some (.resending 5 .linkSent) ∧
      ∃ u, Runs.exec (step (fun v w => v == w) 60) t (renewingToken 1 72 72) = some u ∧
        (5, 72) ∈ u.mails ∧
        Verifies (fun v w => v == w) 60 { u with now := u.now + 60 } 2 5 72 := by
  obtain ⟨s, hs, hzero, hfree, row, hrow, hun, hpassword, t', ht', hsent'⟩ : ∃ s,
      Runs.exec (step (fun v w => v == w) 60) initial expiredSignup = some s ∧
      s.calls 0 = some (.ended .created) ∧ (∀ k, k ≠ 0 → s.calls k = none) ∧
      ∃ row, s.users 5 = some row ∧ row.verifiedAt = none ∧ (9 == row.passwordHash) = true ∧
      ∃ t, Runs.exec (step (fun v w => v == w) 60) s [.login 1 5 9, .verifyPassword 1] = some t ∧
        t.calls 1 = some (.resending 5 .linkSent) :=
    ⟨_, rfl, rfl, fun k hk => by simp [setCall, setUser, hk, initial],
      _, rfl, rfl, rfl, _, rfl, rfl⟩
  have hidle : Idle s := by
    intro k c hc
    by_cases hk : k = 0
    · subst hk
      cases hzero.symm.trans hc
      rfl
    · cases (hfree k hk).symm.trans hc
  obtain ⟨t, ht, hvalid | ⟨hsent, hrenew⟩⟩ := refusedLogin_leads_on (Runs.reachable_exec rfl hs)
    hidle hrow hun hpassword (hfree 1 (by decide)) (hfree 2 (by decide)) (by decide)
  · cases ht.symm.trans ht'
    cases hvalid.1.symm.trans hsent'
  · obtain ⟨u, hu, -, hmail, hverifies⟩ := hrenew 72 72 rfl
    exact ⟨s, t, hs, ht, hsent, u, hu, hmail, hverifies 60 le_rfl⟩

end Steps

end AccountStore

end Meridian
