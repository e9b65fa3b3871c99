import Meridian.AccessMachine

/-! The share links of one document. A claim is a transaction: it locks the link's row, checks
it, inserts the membership unless there is one, and marks a single-use link. Others revoke
links and add and remove members meanwhile. -/
namespace Meridian

structure ShareLink (U : Type) where
  role : Role
  isSingleUse : Bool
  claimedBy : Option U
  claimedAt : Bool
  expiresAt : Option ℕ
  revokedAt : Bool

inductive ClaimError
  | linkNotFound | linkRevoked | linkExpired | linkClaimed | alreadyMember
  deriving DecidableEq

/-- What `findAndValidateLink` makes of the row it has locked. -/
def validateLink {U : Type} (now : ℕ) (link : Option (ShareLink U)) :
    Except ClaimError (ShareLink U) :=
  match link with
  | none => .error .linkNotFound
  | some link =>
    if link.revokedAt then .error .linkRevoked
    else if link.expiresAt.any (· ≤ now) then .error .linkExpired
    else if link.isSingleUse ∧ link.claimedAt then .error .linkClaimed
    else .ok link

theorem validateLink_ok {U : Type} {now : ℕ} {link : Option (ShareLink U)} {row : ShareLink U}
    (h : validateLink now link = .ok row) :
    link = some row ∧ row.revokedAt = false ∧ (row.isSingleUse = true → row.claimedAt = false) := by
  unfold validateLink at h
  split at h
  · cases h
  · split at h
    · cases h
    · next hrevoked =>
      split at h
      · cases h
      · split at h
        · cases h
        · next hclaimed =>
          cases h
          exact ⟨rfl, by simpa using hrevoked, fun hs => by simpa [hs] using hclaimed⟩

/-- A claim between two of its statements, and how it ended. A transaction whose callback has
thrown is `failing` until its rollback. -/
inductive Claim (L U : Type)
  | started (link : L) (userId : U)
  | validated (link : L) (userId : U) (row : ShareLink U)
  | inserted (link : L) (userId : U) (row : ShareLink U)
  | marked (link : L) (userId : U) (row : ShareLink U)
  | failing (error : ClaimError)
  | failed
  | succeeded

namespace Claim

variable {L U : Type}

def validated? : Claim L U → Option (L × ShareLink U)
  | .validated l _ row | .inserted l _ row | .marked l _ row => some (l, row)
  | _ => none

def inserted? : Claim L U → Option U
  | .inserted _ u _ | .marked _ u _ => some u
  | _ => none

/-- What a claim commits, once it has made all its statements. -/
def done? : Claim L U → Option (L × U × ShareLink U)
  | .inserted l u row => if row.isSingleUse then none else some (l, u, row)
  | .marked l u row => some (l, u, row)
  | _ => none

theorem done?_eq_some {c : Claim L U} {l : L} {u : U} {row : ShareLink U}
    (h : c.done? = some (l, u, row)) : c.validated? = some (l, row) ∧ c.inserted? = some u := by
  cases c with
  | inserted l' u' row' =>
    obtain ⟨-, h⟩ := Option.ite_none_left_eq_some.mp h
    cases h
    exact ⟨rfl, rfl⟩
  | marked l' u' row' =>
    cases h
    exact ⟨rfl, rfl⟩
  | started | validated | failing | failed | succeeded => cases h

end Claim

/-- A membership that a claim created. -/
structure ViaLink (L U : Type) where
  link : L
  userId : U

/-- The committed links `L` and memberships of the users `U`, the row locks of the links, the
uncommitted entries of the unique index on the user, and the claims `H`. The memberships
that claims have created and the links whose revocation has committed are kept for the
statements; no statement of the code reads them. -/
structure ShareLinks (L U H : Type) where
  links : L → Option (ShareLink U)
  memberships : U → Option Role
  linkLock : L → Option H
  keyLock : U → Option H
  claims : H → Option (Claim L U)
  created : List (ViaLink L U)
  revoked : List L

inductive ShareLinkAction (L U H : Type)
  | createShareLink (link : L) (role : Role) (isSingleUse : Bool) (expiresAt : Option ℕ)
  | claimShareLink (claim : H) (link : L) (userId : U)
  | findAndValidateLink (claim : H) (now : ℕ)
  | addMemberViaLink (claim : H)
  | markLinkAsClaimed (claim : H)
  | commit (claim : H)
  | rollback (claim : H)
  | revokeShareLink (link : L)
  | addMember (userId : U) (role : Role)
  | removeMember (userId : U)

namespace ShareLinkAction

variable {L U H : Type}

def claim? : ShareLinkAction L U H → Option H
  | .claimShareLink h _ _ | .findAndValidateLink h _ | .addMemberViaLink h | .markLinkAsClaimed h
  | .commit h | .rollback h => some h
  | _ => none

end ShareLinkAction

namespace ShareLinks

variable {L U H : Type}

def initial : ShareLinks L U H where
  links _ := none
  memberships _ := none
  linkLock _ := none
  keyLock _ := none
  claims _ := none
  created := []
  revoked := []

def createdThrough [DecidableEq L] (s : ShareLinks L U H) (l : L) : List U :=
  (s.created.filter fun c => c.link = l).map ViaLink.userId

variable [DecidableEq H]

def setClaim (s : ShareLinks L U H) (h : H) (c : Claim L U) : ShareLinks L U H :=
  { s with claims := Function.update s.claims h (some c) }

def endClaim (s : ShareLinks L U H) (h : H) (c : Claim L U) : ShareLinks L U H :=
  { s.setClaim h c with
    linkLock := fun l => if s.linkLock l = some h then none else s.linkLock l
    keyLock := fun u => if s.keyLock u = some h then none else s.keyLock u }

theorem endClaim_linkLock {s : ShareLinks L U H} {k h' : H} (c : Claim L U) {l : L} (hne : h' ≠ k)
    (hl : s.linkLock l = some h') : (s.endClaim k c).linkLock l = some h' := by
  simp [endClaim, hl, hne]

theorem endClaim_keyLock {s : ShareLinks L U H} {k h' : H} (c : Claim L U) {u : U} (hne : h' ≠ k)
    (hu : s.keyLock u = some h') : (s.endClaim k c).keyLock u = some h' := by
  simp [endClaim, hu, hne]

variable [DecidableEq L] [DecidableEq U]

def commitClaim (s : ShareLinks L U H) (h : H) (l : L) (u : U) (row : ShareLink U) :
    ShareLinks L U H :=
  { s.endClaim h .succeeded with
    links := if row.isSingleUse then Function.update s.links l ((s.links l).map fun r =>
        { r with claimedBy := some u, claimedAt := true })
      else s.links
    memberships := Function.update s.memberships u (some row.role)
    created := s.created ++ [⟨l, u⟩] }

/-- The row of a link gets its time of revocation; where there is no row, nothing is written. -/
def revoke (s : ShareLinks L U H) (l : L) : ShareLinks L U H :=
  { s with
    links := Function.update s.links l ((s.links l).map fun r => { r with revokedAt := true })
    revoked := if (s.links l).isSome then s.revoked ++ [l] else s.revoked }

/-- One statement; a statement that needs a row or an index entry which an open transaction
has written waits for the end of that transaction. -/
def step (s : ShareLinks L U H) : ShareLinkAction L U H → Option (ShareLinks L U H)
  | .createShareLink l role isSingleUse expiresAt =>
    if s.links l = none ∧ s.linkLock l = none then
      some { s with
        links := Function.update s.links l
          (some ⟨role, isSingleUse, none, false, expiresAt, false⟩) }
    else none
  | .claimShareLink h l u =>
    if (s.claims h).isNone then some (s.setClaim h (.started l u)) else none
  | .findAndValidateLink h now =>
    match s.claims h with
    | some (.started l u) =>
      if s.linkLock l = none then
        some { s.setClaim h (match validateLink now (s.links l) with
            | .ok row => .validated l u row
            | .error e => .failing e) with
          linkLock := if (s.links l).isSome then Function.update s.linkLock l (some h)
            else s.linkLock }
      else none
    | _ => none
  | .addMemberViaLink h =>
    match s.claims h with
    | some (.validated l u row) =>
      if s.keyLock u = none then
        if (s.memberships u).isSome then some (s.setClaim h (.failing .alreadyMember))
        else some { s.setClaim h (.inserted l u row) with
          keyLock := Function.update s.keyLock u (some h) }
      else none
    | _ => none
  | .markLinkAsClaimed h =>
    match s.claims h with
    | some (.inserted l u row) =>
      if row.isSingleUse then some (s.setClaim h (.marked l u row)) else none
    | _ => none
  | .commit h =>
    ((s.claims h).bind Claim.done?).map fun p => s.commitClaim h p.1 p.2.1 p.2.2
  | .rollback h =>
    match s.claims h with
    | none | some .failed | some .succeeded => none
    | some _ => some (s.endClaim h .failed)
  | .revokeShareLink l => if s.linkLock l = none then some (s.revoke l) else none
  | .addMember u role =>
    if s.keyLock u = none then
      some { s with
        memberships := Function.update s.memberships u (some ((s.memberships u).getD role)) }
    else none
  | .removeMember u => some { s with memberships := Function.update s.memberships u none }

abbrev Reachable : ShareLinks L U H → Prop := Runs.Reachable step fun s => s = initial

inductive StepCase (s : ShareLinks L U H) : ShareLinkAction L U H → ShareLinks L U H → Prop
  | createShareLink (l : L) (link : ShareLink U) (hnew : s.links l = none)
      (hfree : s.linkLock l = none) (hclaimed : link.claimedAt = false) :
      StepCase s (.createShareLink l link.role link.isSingleUse link.expiresAt)
        { s with links := Function.update s.links l (some link) }
  | claimShareLink (h : H) (l : L) (u : U) (hnew : s.claims h = none) :
      StepCase s (.claimShareLink h l u) (s.setClaim h (.started l u))
  | validate (h : H) (now : ℕ) (l : L) (u : U) (row : ShareLink U) (hfree : s.linkLock l = none)
      (hc : s.claims h = some (.started l u)) (hrow : validateLink now (s.links l) = .ok row) :
      StepCase s (.findAndValidateLink h now) { s.setClaim h (.validated l u row) with
        linkLock := Function.update s.linkLock l (some h) }
  | refuse (h : H) (now : ℕ) (l : L) (u : U) (e : ClaimError) (lock : L → Option H)
      (hc : s.claims h = some (.started l u))
      (hlock : ∀ l', s.linkLock l' ≠ none → lock l' = s.linkLock l') :
      StepCase s (.findAndValidateLink h now) { s.setClaim h (.failing e) with linkLock := lock }
  | insert (h : H) (l : L) (u : U) (row : ShareLink U) (hc : s.claims h = some (.validated l u row))
      (hfree : s.keyLock u = none) (hnew : s.memberships u = none) :
      StepCase s (.addMemberViaLink h) { s.setClaim h (.inserted l u row) with
        keyLock := Function.update s.keyLock u (some h) }
  | conflict (h : H) (l : L) (u : U) (row : ShareLink U)
      (hc : s.claims h = some (.validated l u row)) :
      StepCase s (.addMemberViaLink h) (s.setClaim h (.failing .alreadyMember))
  | mark (h : H) (l : L) (u : U) (row : ShareLink U) (hc : s.claims h = some (.inserted l u row)) :
      StepCase s (.markLinkAsClaimed h) (s.setClaim h (.marked l u row))
  | commit (h : H) (c : Claim L U) (l : L) (u : U) (row : ShareLink U) (hc : s.claims h = some c)
      (hdone : c.done? = some (l, u, row)) : StepCase s (.commit h) (s.commitClaim h l u row)
  | rollback (h : H) (hc : s.claims h ≠ some .succeeded) :
      StepCase s (.rollback h) (s.endClaim h .failed)
  | revokeShareLink (l : L) (hfree : s.linkLock l = none) :
      StepCase s (.revokeShareLink l) (s.revoke l)
  | addMember (u : U) (role : Role) (hfree : s.keyLock u = none) :
      StepCase s (.addMember u role) { s with
        memberships := Function.update s.memberships u (some ((s.memberships u).getD role)) }
  | removeMember (u : U) : StepCase s (.removeMember u)
      { s with memberships := Function.update s.memberships u none }

theorem step_cases {s s' : ShareLinks L U H} {a : ShareLinkAction L U H}
    (hs : step s a = some s') : StepCase s a s' := by
  cases a with
  | createShareLink l role isSingleUse expiresAt =>
    obtain ⟨⟨hnew, hfree⟩, hs⟩ := Option.ite_none_right_eq_some.mp hs
    cases hs
    exact .createShareLink l ⟨role, isSingleUse, none, false, expiresAt, false⟩ hnew hfree rfl
  | claimShareLink h l u =>
    obtain ⟨hnew, hs⟩ := Option.ite_none_right_eq_some.mp hs
    cases hs
    exact .claimShareLink h l u (Option.isNone_iff_eq_none.mp hnew)
  | findAndValidateLink h now =>
    simp only [step] at hs
    split at hs
    · next l u hc =>
      obtain ⟨hfree, hs⟩ := Option.ite_none_right_eq_some.mp hs
      cases hs
      cases hrow : validateLink now (s.links l) with
      | ok row =>
        have hsome : (s.links l).isSome := by simp [(validateLink_ok hrow).1]
        simpa only [hsome, if_true] using StepCase.validate h now l u row hfree hc hrow
      | error e =>
        refine .refuse h now l u e _ hc fun l' hl' => ?_
        have hne : l' ≠ l := ne_of_apply_ne s.linkLock (by rwa [hfree])
        split <;> simp [hne]
    · cases hs
  | addMemberViaLink h =>
    simp only [step] at hs
    split at hs
    · next l u row hc =>
      obtain ⟨hfree, hs⟩ := Option.ite_none_right_eq_some.mp hs
      split at hs
      · cases hs
        exact .conflict h l u row hc
      · next hnew =>
        cases hs
        exact .insert h l u row hc hfree (by simpa using hnew)
    · cases hs
  | markLinkAsClaimed h =>
    simp only [step] at hs
    split at hs
    · next l u row hc =>
      obtain ⟨-, hs⟩ := Option.ite_none_right_eq_some.mp hs
      cases hs
      exact .mark h l u row hc
    · cases hs
  | commit h =>
    obtain ⟨⟨l, u, row⟩, hp, rfl⟩ := Option.map_eq_some_iff.mp hs
    obtain ⟨c, hc, hdone⟩ := Option.bind_eq_some_iff.mp hp
    exact .commit h c l u row hc hdone
  | rollback h =>
    simp only [step] at hs
    split at hs
    · cases hs
    · cases hs
    · cases hs
    · next hsucceeded hc =>
      cases hs
      exact .rollback h fun he => hsucceeded (Option.some.inj (hc.symm.trans he))
  | revokeShareLink l =>
    obtain ⟨hfree, hs⟩ := Option.ite_none_right_eq_some.mp hs
    cases hs
    exact .revokeShareLink l hfree
  | addMember u role =>
    obtain ⟨hfree, hs⟩ := Option.ite_none_right_eq_some.mp hs
    cases hs
    exact .addMember u role hfree
  | removeMember u =>
    cases hs
    exact .removeMember u

/-- What a claim in flight relies on: it holds the lock of the row it has validated, which is
still the committed one, and the entry of the membership it has inserted. -/
structure ClaimOk (s : ShareLinks L U H) (h : H) (c : Claim L U) : Prop where
  link : ∀ l row, c.validated? = some (l, row) → s.linkLock l = some h ∧ s.links l = some row ∧
    row.revokedAt = false ∧ (row.isSingleUse = true → row.claimedAt = false)
  member : ∀ u, c.inserted? = some u → s.keyLock u = some h ∧ s.memberships u = none

/-- A link that has not been claimed has made nobody a member, and one for a single use that
has been claimed has made exactly one user a member, whom it names. -/
def LinkOk (s : ShareLinks L U H) (l : L) : Option (ShareLink U) → Prop
  | none => s.createdThrough l = []
  | some row => row.isSingleUse = true →
      (row.claimedAt = false ∧ s.createdThrough l = []) ∨
      ∃ u, row.claimedBy = some u ∧ row.claimedAt = true ∧ s.createdThrough l = [u]

structure Inv (s : ShareLinks L U H) : Prop where
  claim : ∀ h c, s.claims h = some c → ClaimOk s h c
  link : ∀ l, LinkOk s l (s.links l)
  revoked : ∀ l ∈ s.revoked, ∃ row, s.links l = some row ∧ row.revokedAt = true

variable {s s' : ShareLinks L U H}

omit [DecidableEq U] [DecidableEq H] in
theorem inv_initial : Inv (initial : ShareLinks L U H) where
  claim h c hc := by simp [initial] at hc
  link l := rfl
  revoked l hl := by simp [initial] at hl

omit [DecidableEq L] [DecidableEq U] [DecidableEq H] in
theorem ClaimOk.idle {h : H} {c : Claim L U} (hlink : c.validated? = none)
    (hmember : c.inserted? = none) : ClaimOk s h c where
  link l row hl := by simp [hlink] at hl
  member u hu := by simp [hmember] at hu

omit [DecidableEq L] [DecidableEq U] [DecidableEq H] in
/-- What another transaction does to rows that the claim has not locked is no matter. -/
theorem ClaimOk.keep {h : H} {c : Claim L U} (hc : ClaimOk s h c)
    (hlink : ∀ l, s.linkLock l = some h → s'.linkLock l = some h ∧ s'.links l = s.links l)
    (hkey : ∀ u, s.keyLock u = some h →
      s'.keyLock u = some h ∧ (s.memberships u = none → s'.memberships u = none)) :
    ClaimOk s' h c where
  link l row hl := by
    obtain ⟨hlock, hrow, hok⟩ := hc.link l row hl
    exact ⟨(hlink l hlock).1, (hlink l hlock).2.trans hrow, hok⟩
  member u hu := by
    obtain ⟨hlock, hnone⟩ := hc.member u hu
    exact ⟨(hkey u hlock).1, (hkey u hlock).2 hnone⟩

omit [DecidableEq U] in
theorem Inv.claims (h : Inv s) {k : H} {c : Claim L U}
    (hclaims : s'.claims = Function.update s.claims k (some c)) (hok : ClaimOk s' k c)
    (hlink : ∀ h' l, h' ≠ k → s.linkLock l = some h' →
      s'.linkLock l = some h' ∧ s'.links l = s.links l)
    (hkey : ∀ h' u, h' ≠ k → s.keyLock u = some h' →
      s'.keyLock u = some h' ∧ (s.memberships u = none → s'.memberships u = none)) :
    ∀ h' c', s'.claims h' = some c' → ClaimOk s' h' c' := by
  intro h' c' hc'
  rcases Tables.update_eq_some.mp (hclaims ▸ hc') with ⟨rfl, hc⟩ | ⟨hne, hold⟩
  · cases hc
    exact hok
  · exact (h.claim h' c' hold).keep (fun l => hlink h' l hne) fun u => hkey h' u hne

omit [DecidableEq U] [DecidableEq H] in
theorem LinkOk.of_created {l : L} {row : Option (ShareLink U)} (h : LinkOk s l row)
    (hcreated : s'.createdThrough l = s.createdThrough l) : LinkOk s' l row := by
  unfold LinkOk at h ⊢
  rwa [hcreated]

omit [DecidableEq U] in
theorem Inv.setClaim (h : Inv s) {k : H} {c : Claim L U} {linkLock : L → Option H}
    {keyLock : U → Option H}
    (hlink : ∀ h' l, h' ≠ k → s.linkLock l = some h' → linkLock l = some h')
    (hkey : ∀ h' u, h' ≠ k → s.keyLock u = some h' → keyLock u = some h')
    (hok : ClaimOk { s.setClaim k c with linkLock := linkLock, keyLock := keyLock } k c) :
    Inv { s.setClaim k c with linkLock := linkLock, keyLock := keyLock } where
  claim := h.claims rfl hok (fun h' l hne hl => ⟨hlink h' l hne hl, rfl⟩)
    fun h' u hne hu => ⟨hkey h' u hne hu, id⟩
  link l := (h.link l).of_created rfl
  revoked := h.revoked

theorem createdThrough_commitClaim (k : H) (l : L) (u : U) (row : ShareLink U) (l' : L) :
    (s.commitClaim k l u row).createdThrough l' =
      s.createdThrough l' ++ if l = l' then [u] else [] := by
  simp only [createdThrough, commitClaim, List.filter_append, List.map_append]
  split <;> simp [*]

/-- A commit adds its user to those of its link, which it has validated and locked since. -/
theorem Inv.commitClaim (h : Inv s) {k : H} {c : Claim L U} {l : L} {u : U} {row : ShareLink U}
    (hc : s.claims k = some c) (hdone : c.done? = some (l, u, row)) :
    Inv (s.commitClaim k l u row) := by
  obtain ⟨hval, hins⟩ := Claim.done?_eq_some hdone
  obtain ⟨hlock, hrow, hrevoked, hclaimed⟩ := (h.claim k c hc).link l row hval
  obtain ⟨hkey, -⟩ := (h.claim k c hc).member u hins
  have hlinks : ∀ l', l' ≠ l → (s.commitClaim k l u row).links l' = s.links l' := by
    intro l' hne
    simp only [ShareLinks.commitClaim]
    split
    · simp [hne]
    · rfl
  refine ⟨?_, fun l' => ?_, fun l' hl' => ?_⟩
  · refine h.claims rfl (.idle rfl rfl) (fun h' l' hne hl' => ?_) fun h' u' hne hu' => ?_
    · refine ⟨endClaim_linkLock .succeeded hne hl', hlinks l' ?_⟩
      rintro rfl
      exact hne (Option.some.inj (hl'.symm.trans hlock))
    · refine ⟨endClaim_keyLock .succeeded hne hu', fun hnone => ?_⟩
      have hu : u' ≠ u := by
        rintro rfl
        exact hne (Option.some.inj (hu'.symm.trans hkey))
      simpa [ShareLinks.commitClaim, hu] using hnone
  · have hcreated := createdThrough_commitClaim (s := s) k l u row l'
    by_cases hl : l = l'
    · subst hl
      have hold := h.link l
      rw [hrow] at hold
      by_cases hsingle : row.isSingleUse = true
      · have hnone : s.createdThrough l = [] := by
          rcases hold hsingle with ⟨-, hnone⟩ | ⟨u', -, hyes, -⟩
          · exact hnone
          · rw [hclaimed hsingle] at hyes
            cases hyes
        have hnew : (s.commitClaim k l u row).links l =
            some { row with claimedBy := some u, claimedAt := true } := by
          simp [ShareLinks.commitClaim, hsingle, hrow]
        rw [hnew]
        exact fun _ => .inr ⟨u, rfl, rfl, by simpa [hnone] using hcreated⟩
      · simp only [ShareLinks.commitClaim, hsingle, Bool.false_eq_true, if_false, hrow]
        exact fun hs => absurd hs hsingle
    · rw [hlinks l' (Ne.symm hl)]
      exact (h.link l').of_created (by simpa [hl] using hcreated)
  · obtain ⟨row', hrow', hyes⟩ := h.revoked l' hl'
    have hne : l' ≠ l := by
      rintro rfl
      obtain rfl := Option.some.inj (hrow.symm.trans hrow')
      simp [hrevoked] at hyes
    exact ⟨row', (hlinks l' hne).trans hrow', hyes⟩

omit [DecidableEq U] [DecidableEq H] in
/-- A change of the committed rows outside any claim: no row is touched that a claim has
locked, and no membership comes where one is being inserted. -/
theorem Inv.others (h : Inv s) {links : L → Option (ShareLink U)} {memberships : U → Option Role}
    {revoked : List L} (hlock : ∀ l, s.linkLock l ≠ none → links l = s.links l)
    (hkey : ∀ u, s.keyLock u ≠ none → s.memberships u = none → memberships u = none)
    (hlink : ∀ l, LinkOk s l (links l))
    (hrevoked : ∀ l ∈ revoked, ∃ row, links l = some row ∧ row.revokedAt = true) :
    Inv { s with links := links, memberships := memberships, revoked := revoked } where
  claim k c hc := by
    refine (h.claim k c hc).keep (fun l hl => ⟨hl, hlock l ?_⟩) fun u hu => ⟨hu, hkey u ?_⟩
    · simp [hl]
    · simp [hu]
  link l := (hlink l).of_created rfl
  revoked := hrevoked

omit [DecidableEq U] [DecidableEq H] in
theorem Inv.setLink (h : Inv s) {l : L} (hfree : s.linkLock l = none) {row : Option (ShareLink U)}
    (hrow : LinkOk s l row) {revoked : List L} (hrevoked : ∀ l' ∈ revoked,
      ∃ row', Function.update s.links l row l' = some row' ∧ row'.revokedAt = true) :
    Inv { s with links := Function.update s.links l row, revoked := revoked } := by
  refine h.others (fun l' hl' => ?_) (fun _ _ hu => hu) (fun l' => ?_) hrevoked
  · have hne : l' ≠ l := ne_of_apply_ne s.linkLock (by rwa [hfree])
    rw [Function.update_of_ne hne]
  · by_cases hl : l' = l
    · subst hl
      rwa [Function.update_self]
    · rw [Function.update_of_ne hl]
      exact h.link l'

omit [DecidableEq U] [DecidableEq H] in
theorem Inv.revoke (h : Inv s) {l : L} (hfree : s.linkLock l = none) : Inv (s.revoke l) := by
  refine h.setLink hfree ?_ fun l' hl' => ?_
  · have hold := h.link l
    cases hrow : s.links l with
    | none => simpa [hrow] using hold
    | some row => simpa [hrow, LinkOk] using hold
  · by_cases hl : l' = l
    · subst hl
      rw [Function.update_self]
      cases hrow : s.links l' with
      | none =>
        rw [hrow] at hl'
        obtain ⟨row, hsome, -⟩ := h.revoked l' hl'
        rw [hrow] at hsome
        cases hsome
      | some row => exact ⟨_, rfl, rfl⟩
    · rw [Function.update_of_ne hl]
      refine h.revoked l' ?_
      split at hl'
      · simpa [hl] using hl'
      · exact hl'

theorem inv_step {a : ShareLinkAction L U H} (h : Inv s) (hs : step s a = some s') : Inv s' := by
  cases step_cases hs with
  | createShareLink l link hnew hfree hclaimed =>
    have hnone := h.link l
    rw [hnew] at hnone
    refine h.setLink hfree (fun _ => .inl ⟨hclaimed, hnone⟩) fun l' hl' => ?_
    obtain ⟨row, hrow, hyes⟩ := h.revoked l' hl'
    have hne : l' ≠ l := by
      rintro rfl
      simp [hnew] at hrow
    exact ⟨row, by rwa [Function.update_of_ne hne], hyes⟩
  | claimShareLink k l u hnew =>
    exact h.setClaim (fun _ _ _ hl => hl) (fun _ _ _ hu => hu) (.idle rfl rfl)
  | validate k now l u row hfree hc hrow =>
    obtain ⟨hlink, hrevoked, hclaimed⟩ := validateLink_ok hrow
    refine h.setClaim (fun h' l' _ hl' => ?_) (fun _ _ _ hu => hu)
      ⟨fun l' row' hv => ?_, fun _ hu => ?_⟩
    · have hne : l' ≠ l := by
        rintro rfl
        simp [hfree] at hl'
      simpa [hne] using hl'
    · cases hv
      exact ⟨by simp, hlink, hrevoked, hclaimed⟩
    · cases hu
  | refuse k now l u e lock hc hlock =>
    exact h.setClaim (fun h' l' _ hl' => (hlock l' (by simp [hl'])).trans hl') (fun _ _ _ hu => hu)
      (.idle rfl rfl)
  | insert k l u row hc hfree hnew =>
    have hold := h.claim k _ hc
    refine h.setClaim (fun _ _ _ hl => hl) (fun h' u' _ hu' => ?_)
      ⟨fun l' row' hv => hold.link l' row' hv, fun u' hu' => ?_⟩
    · have hne : u' ≠ u := by
        rintro rfl
        simp [hfree] at hu'
      simpa [hne] using hu'
    · cases hu'
      exact ⟨by simp, hnew⟩
  | conflict k l u row hc =>
    exact h.setClaim (fun _ _ _ hl => hl) (fun _ _ _ hu => hu) (.idle rfl rfl)
  | mark k l u row hc =>
    have hold := h.claim k _ hc
    exact h.setClaim (fun _ _ _ hl => hl) (fun _ _ _ hu => hu) ⟨hold.link, hold.member⟩
  | commit k c l u row hc hdone => exact h.commitClaim hc hdone
  | rollback k _ =>
    exact h.setClaim (fun _ _ hne hl => endClaim_linkLock .failed hne hl)
      (fun _ _ hne hu => endClaim_keyLock .failed hne hu) (.idle rfl rfl)
  | revokeShareLink l hfree => exact h.revoke hfree
  | addMember u role hfree =>
    refine h.others (fun _ _ => rfl) (fun u' hu' hnone => ?_) h.link h.revoked
    have hne : u' ≠ u := ne_of_apply_ne s.keyLock (by rwa [hfree])
    simpa [hne] using hnone
  | removeMember u =>
    refine h.others (fun _ _ => rfl) (fun u' _ hnone => ?_) h.link h.revoked
    by_cases hu : u' = u
    · simp [hu]
    · simpa [hu] using hnone

theorem Reachable.inv (h : Reachable s) : Inv s :=
  Runs.Reach.invariant (fun _ hs => hs ▸ inv_initial) (fun _ _ _ hi _ hs => inv_step hi hs) h

/-- Only the commit of a claim changes a link or a membership, and the claim has then succeeded. -/
theorem succeeded_of_changes {a : ShareLinkAction L U H} (hs : step s a = some s') {k : H}
    (ha : a.claim? = some k) (hchange : s'.links ≠ s.links ∨ s'.memberships ≠ s.memberships) :
    s'.claims k = some .succeeded := by
  cases step_cases hs with
  | commit k' c l u row hc hdone =>
    cases ha
    simp [commitClaim, endClaim, setClaim]
  | createShareLink | revokeShareLink | addMember | removeMember => cases ha
  | claimShareLink | validate | refuse | insert | conflict | mark | rollback =>
    exact absurd rfl (hchange.elim (absurd rfl) id)

theorem succeeded_final {a : ShareLinkAction L U H} (hs : step s a = some s') {k : H}
    (hk : s.claims k = some .succeeded) : s'.claims k = some .succeeded := by
  have hupdate : ∀ k' c, s.claims k' ≠ some .succeeded →
      Function.update s.claims k' (some c) k = some .succeeded := by
    intro k' c hne
    have hkk : k ≠ k' := by
      rintro rfl
      exact hne hk
    simpa [hkk] using hk
  cases step_cases hs with
  | createShareLink | revokeShareLink | addMember | removeMember => exact hk
  | claimShareLink k' l u hnew => exact hupdate k' _ (by simp [hnew])
  | validate k' now l u row hfree hc hrow => exact hupdate k' _ (by simp [hc])
  | refuse k' now l u e lock hc hlock => exact hupdate k' _ (by simp [hc])
  | insert k' l u row hc hfree hnew => exact hupdate k' _ (by simp [hc])
  | conflict k' l u row hc => exact hupdate k' _ (by simp [hc])
  | mark k' l u row hc => exact hupdate k' _ (by simp [hc])
  | commit k' c l u row hc hdone =>
    refine hupdate k' _ fun he => ?_
    cases Option.some.inj (hc.symm.trans he)
    cases hdone
  | rollback k' hc => exact hupdate k' _ hc

theorem revoked_step {a : ShareLinkAction L U H} (h : Inv s) (hs : step s a = some s') {l : L}
    (hl : l ∈ s.revoked) : l ∈ s'.revoked ∧ s'.createdThrough l = s.createdThrough l := by
  cases step_cases hs with
  | createShareLink | claimShareLink | validate | refuse | insert | conflict | mark | rollback
  | addMember | removeMember => exact ⟨hl, rfl⟩
  | commit k c l' u row hc hdone =>
    refine ⟨hl, ?_⟩
    obtain ⟨-, hrow, hrevoked, -⟩ := (h.claim k c hc).link l' row (Claim.done?_eq_some hdone).1
    obtain ⟨row', hrow', hyes⟩ := h.revoked l hl
    have hne : l' ≠ l := by
      rintro rfl
      obtain rfl := Option.some.inj (hrow.symm.trans hrow')
      simp [hrevoked] at hyes
    simpa [hne] using createdThrough_commitClaim (s := s) k l' u row l
  | revokeShareLink l' _ =>
    refine ⟨?_, rfl⟩
    unfold revoke
    split
    · exact List.mem_append_left _ hl
    · exact hl

/-- After its revocation a link makes nobody a member, however the run goes on. -/
theorem revoked_exec (h : Reachable s) {l : L} (hl : l ∈ s.revoked)
    {actions : List (ShareLinkAction L U H)} (hs : Runs.exec step s actions = some s') :
    s'.createdThrough l = s.createdThrough l :=
  (Runs.exec_keeps (P := fun t => Inv t ∧ l ∈ t.revoked ∧
      t.createdThrough l = s.createdThrough l)
    (fun t a u ht hu => by
      obtain ⟨hin, hsame⟩ := revoked_step ht.1 hu ht.2.1
      exact ⟨inv_step ht.1 hu, hin, hsame.trans ht.2.2⟩)
    ⟨h.inv, hl, rfl⟩ hs).2.2

/-- However claims, revocations and changes of the members interleave: a single-use link makes
at most one user a member, and names that user; once a revocation of a link has committed, no
run from there makes anybody a member through it; and a step of a claim that changes a link or a
membership ends the claim in success, for good, so a claim that fails has changed nothing. -/
theorem claims_exclusive (h : Reachable s) :
    (∀ l row, s.links l = some row → row.isSingleUse = true →
      s.createdThrough l = [] ∨ ∃ u, s.createdThrough l = [u] ∧ row.claimedBy = some u) ∧
    (∀ l ∈ s.revoked, ∀ actions t, Runs.exec step s actions = some t →
      t.createdThrough l = s.createdThrough l) ∧
    ∀ a t k, step s a = some t →
      (a.claim? = some k → t.links ≠ s.links ∨ t.memberships ≠ s.memberships →
        t.claims k = some .succeeded) ∧
      (s.claims k = some .succeeded → t.claims k = some .succeeded) := by
  refine ⟨fun l row hrow hsingle => ?_, fun l hl actions t ht => revoked_exec h hl ht,
    fun a t k hs => ⟨succeeded_of_changes hs, succeeded_final hs⟩⟩
  have hlink := h.inv.link l
  rw [hrow] at hlink
  rcases hlink hsingle with ⟨-, hnone⟩ | ⟨u, hby, -, hone⟩
  · exact .inl hnone
  · exact .inr ⟨u, hone, hby⟩

/-- Two users claim a single-use link; the second one's lock waits for the first one's commit.
Then another link is revoked before anybody has claimed it. -/
def racingClaims : List (ShareLinkAction ℕ ℕ ℕ) :=
  [.createShareLink 1 .editor true (some 90), .createShareLink 2 .viewer false none,
    .claimShareLink 0 1 10, .claimShareLink 1 1 11, .findAndValidateLink 0 5, .addMemberViaLink 0,
    .markLinkAsClaimed 0, .commit 0, .findAndValidateLink 1 6, .rollback 1, .removeMember 10,
    .revokeShareLink 2]

def lateClaim : List (ShareLinkAction ℕ ℕ ℕ) :=
  [.claimShareLink 2 2 12, .findAndValidateLink 2 7, .rollback 2]

theorem claims_exclusive_racingClaims :
    ∃ s, Runs.exec step initial racingClaims = some s ∧ s.createdThrough 1 = [10] ∧
      s.memberships 11 = none ∧ s.revoked = [2] ∧
      (∃ t, Runs.exec step s lateClaim = some t ∧ t.claims 2 = some .failed ∧
        t.createdThrough 2 = [] ∧ t.createdThrough 2 = s.createdThrough 2) ∧
      (∀ l row, s.links l = some row → row.isSingleUse = true →
        s.createdThrough l = [] ∨ ∃ u, s.createdThrough l = [u] ∧ row.claimedBy = some u) ∧
      ∀ a t k, step s a = some t →
        (a.claim? = some k → t.links ≠ s.links ∨ t.memberships ≠ s.memberships →
          t.claims k = some .succeeded) ∧
        (s.claims k = some .succeeded → t.claims k = some .succeeded) := by
  obtain ⟨s, hs, hcreated, hnone, hrevoked, t, ht, hfailed, hempty⟩ :
      ∃ s, Runs.exec step initial racingClaims = some s ∧ s.createdThrough 1 = [10] ∧
        s.memberships 11 = none ∧ s.revoked = [2] ∧ ∃ t, Runs.exec step s lateClaim = some t ∧
          t.claims 2 = some .failed ∧ t.createdThrough 2 = [] :=
    ⟨_, rfl, rfl, rfl, rfl, _, rfl, rfl, rfl⟩
  obtain ⟨hsingle, hlate, hsteps⟩ := claims_exclusive (Runs.reachable_exec rfl hs)
  have hsame := hlate 2 (by simp [hrevoked]) lateClaim t ht
  exact ⟨s, hs, hcreated, hnone, hrevoked, ⟨t, ht, hfailed, hempty, hsame⟩, hsingle, hsteps⟩

end ShareLinks

end Meridian
