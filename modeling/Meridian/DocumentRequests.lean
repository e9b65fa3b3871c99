import Meridian.AccessMachine
import Meridian.Js

/-! The requests about documents, between their guards, the look at the member they name and
the statement of their handler. The guards read the tables some awaits before the statement
writes, and the handlers compare user ids as strings where Postgres compares uuid values. -/
namespace Meridian

/-- The uuid type of Postgres: how it prints a value and which strings it reads. -/
structure UuidType (V : Type) where
  text : V → JsString
  uuidIn : JsString → Option V
  uuidIn_text : ∀ v, uuidIn (text v) = some v

/-- Two of the uuids of Postgres, which does not mind the case of the letters. -/
def twoUuids : UuidType Bool where
  text
    | false => js "9f1b6c1e-52d0-4c7a-8a3e-6b0d2f4e7a10"
    | true => js "c4a7e2d8-0b3f-4e61-9d52-1f8c7b6a5e94"
  uuidIn s :=
    let lower := s.map fun c => if 65 ≤ c ∧ c ≤ 90 then c + 32 else c
    if lower = js "9f1b6c1e-52d0-4c7a-8a3e-6b0d2f4e7a10" then some false
    else if lower = js "c4a7e2d8-0b3f-4e61-9d52-1f8c7b6a5e94" then some true
    else none
  uuidIn_text := by decide

inductive DocumentStatus
  | draft | active | inactive | deleted
  deriving DecidableEq

inductive NewStatus
  | active | inactive

def NewStatus.toStatus : NewStatus → DocumentStatus
  | .active => .active
  | .inactive => .inactive

theorem NewStatus.toStatus_ne_deleted (status : NewStatus) : status.toStatus ≠ .deleted := by
  cases status <;> decide

inductive GrantedRole
  | editor | viewer

def GrantedRole.toRole : GrantedRole → Role
  | .editor => .editor
  | .viewer => .viewer

theorem GrantedRole.toRole_ne_author (role : GrantedRole) : role.toRole ≠ .author := by
  cases role <;> decide

theorem GrantedRole.map_toRole_ne_author (role : GrantedRole) (old : Option Role) :
    (old.map fun _ => role.toRole) ≠ some .author := by
  cases old with
  | none => simp
  | some _ => simpa using role.toRole_ne_author

structure Document (V : Type) where
  title : JsString
  status : DocumentStatus
  createdBy : V

/-- The handlers below `documents/:id` that write, with what they take from the path and the
body. An added member is given by the id that the e-mail address was resolved to. -/
inductive DocumentCall (V : Type)
  | updateDocumentTitle (title : JsString)
  | updateDocumentStatus (status : NewStatus)
  | softDeleteDocument
  | addMember (userId : V) (role : GrantedRole)
  | updateDocumentMemberRole (targetUserId : JsString) (role : GrantedRole)
  | removeDocumentMember (targetUserId : JsString)
  | createShareLink (role : GrantedRole)
  | claimShareLink (token : V)

namespace DocumentCall

variable {V : Type}

/-- What `DocumentMembershipGuard` and the role guard of the route make of the caller's
membership; the claim route has neither. -/
def admits (call : DocumentCall V) (role : Option Role) : Bool :=
  match call with
  | .claimShareLink _ => true
  | .updateDocumentTitle _ => role = some .author ∨ role = some .editor
  | _ => role = some .author

def target? : DocumentCall V → Option JsString
  | .updateDocumentMemberRole target _ | .removeDocumentMember target => some target
  | _ => none

theorem admits_target {call : DocumentCall V} {role : Option Role} (htarget : call.target? ≠ none)
    (hok : call.admits role = true) : role = some .author := by
  cases call with
  | updateDocumentMemberRole | removeDocumentMember => simpa [admits] using hok
  | _ => simp [target?] at htarget

end DocumentCall

/-- Where a request stands: before `DocumentExistsGuard`, before the other guards, admitted to
its handler, and with the membership of its target found. -/
inductive RequestPhase (V : Type)
  | arrived (documentId : JsString)
  | found (documentId : V)
  | admitted (documentId : V)
  | targeted (documentId target : V)

namespace RequestPhase

variable {V : Type}

/-- The document that `DocumentExistsGuard` has found. -/
def documentId? : RequestPhase V → Option V
  | .arrived _ => none
  | .found d | .admitted d | .targeted d _ => some d

/-- The document to whose handler the other guards have let the request. -/
def admitted? : RequestPhase V → Option V
  | .admitted d | .targeted d _ => some d
  | _ => none

def target? : RequestPhase V → Option V
  | .targeted _ t => some t
  | _ => none

theorem documentId?_of_admitted {phase : RequestPhase V} {d : V} (h : phase.admitted? = some d) :
    phase.documentId? = some d := by
  cases phase <;> first | exact h | cases h

theorem eq_targeted {phase : RequestPhase V} {t : V}
    (h : phase.target? = some t) : ∃ d, phase = .targeted d t := by
  cases phase with
  | targeted d t' =>
    cases h
    exact ⟨d, rfl⟩
  | _ => cases h

end RequestPhase

structure DocumentRequest (V : Type) where
  caller : V
  call : DocumentCall V
  phase : RequestPhase V

/-- The document whose status the request is about to write. -/
def DocumentRequest.statusUpdate? {V : Type} (r : DocumentRequest V) : Option V :=
  match r.phase, r.call with
  | .admitted d, .updateDocumentStatus _ => some d
  | _, _ => none

/-- The tables, with documents, users and link tokens named by uuid values `V`, and the requests
`H`. The documents that a `softDeleteDocument` has deleted are kept for the statements. -/
structure DocumentServer (V H : Type) where
  documents : V → Option (Document V)
  memberships : V → V → Option Role
  shareLinks : V → Option (V × GrantedRole)
  requests : H → Option (DocumentRequest V)
  softDeleted : V → Bool

/-- The steps of the requests. `handle` is the writing statement of a handler; it names the
value that a random uuid would get. -/
inductive DocumentAction (V H : Type)
  | createDocument (id : V) (title : JsString) (caller : V)
  | request (request : H) (caller : V) (documentId : JsString) (call : DocumentCall V)
  | documentExistsGuard (request : H)
  | membershipGuards (request : H)
  | findTarget (request : H)
  | handle (request : H) (fresh : V)
  | stop (request : H)

namespace DocumentServer

variable {V H : Type}

def initial : DocumentServer V H where
  documents _ := none
  memberships _ _ := none
  shareLinks _ := none
  requests _ := none
  softDeleted _ := false

variable [DecidableEq V]

def updateDocument (s : DocumentServer V H) (d : V) (f : Document V → Document V) :
    DocumentServer V H :=
  { s with documents := Function.update s.documents d ((s.documents d).map f) }

def setMembership (s : DocumentServer V H) (d u : V) (role : Option Role) : DocumentServer V H :=
  { s with memberships := Tables.set s.memberships d u role }

def insertMembership (s : DocumentServer V H) (d u : V) (role : GrantedRole) :
    DocumentServer V H :=
  s.setMembership d u (some ((s.memberships d u).getD role.toRole))

/-- The writing statement of a handler. Whether a link is revoked, expired or claimed is left
to `stop`. -/
def write (s : DocumentServer V H) (r : DocumentRequest V) (fresh : V) :
    Option (DocumentServer V H) :=
  match r.phase, r.call with
  | .admitted d, .updateDocumentTitle title =>
    some (s.updateDocument d fun doc => { doc with title := title })
  | .admitted d, .updateDocumentStatus status =>
    some (s.updateDocument d fun doc => { doc with status := status.toStatus })
  | .admitted d, .softDeleteDocument =>
    some { s.updateDocument d fun doc => { doc with status := .deleted } with
      softDeleted := Function.update s.softDeleted d true }
  | .admitted d, .addMember u role => some (s.insertMembership d u role)
  | .targeted d t, .updateDocumentMemberRole _ role =>
    some (s.setMembership d t ((s.memberships d t).map fun _ => role.toRole))
  | .targeted d t, .removeDocumentMember _ => some (s.setMembership d t none)
  | .admitted d, .createShareLink role =>
    if (s.shareLinks fresh).isNone then
      some { s with shareLinks := Function.update s.shareLinks fresh (some (d, role)) }
    else none
  | .admitted d, .claimShareLink token =>
    match s.shareLinks token with
    | some (d', role) => if d' = d then some (s.insertMembership d r.caller role) else none
    | none => none
  | _, _ => none

variable [DecidableEq H]

def setRequest (s : DocumentServer V H) (h : H) (r : Option (DocumentRequest V)) :
    DocumentServer V H :=
  { s with requests := Function.update s.requests h r }

def step (E : UuidType V) (s : DocumentServer V H) :
    DocumentAction V H → Option (DocumentServer V H)
  | .createDocument d title caller =>
    if (s.documents d).isNone then
      some { s.setMembership d caller (some .author) with
        documents := Function.update s.documents d (some ⟨title, .draft, caller⟩) }
    else none
  | .request h caller documentId call =>
    if (s.requests h).isNone then
      some (s.setRequest h (some ⟨caller, call, .arrived documentId⟩))
    else none
  | .documentExistsGuard h =>
    (s.requests h).bind fun r =>
      match r.phase with
      | .arrived documentId =>
        some (s.setRequest h ((E.uuidIn documentId).bind fun d => (s.documents d).bind fun doc =>
          if doc.status = .deleted then none else some { r with phase := .found d }))
      | _ => none
  | .membershipGuards h =>
    (s.requests h).bind fun r =>
      match r.phase with
      | .found d =>
        some (s.setRequest h (if r.call.admits (s.memberships d r.caller) then
          some { r with phase := .admitted d } else none))
      | _ => none
  | .findTarget h =>
    (s.requests h).bind fun r =>
      match r.phase, r.call.target? with
      | .admitted d, some target =>
        -- the caller's id comes from the token, as Postgres has printed it
        some (s.setRequest h (if target = E.text r.caller then none else
          (E.uuidIn target).bind fun t => (s.memberships d t).map fun _ =>
            { r with phase := .targeted d t }))
      | _, _ => none
  | .handle h fresh =>
    (s.requests h).bind fun r => (s.write r fresh).map fun t => t.setRequest h none
  | .stop h => (s.requests h).map fun _ => s.setRequest h none

/-- What the writing statement of a handler can do. -/
inductive WriteCase (s : DocumentServer V H) (r : DocumentRequest V) : DocumentServer V H → Prop
  | title (d : V) (title : JsString) (hphase : r.phase = .admitted d) :
      WriteCase s r (s.updateDocument d fun doc => { doc with title := title })
  | status (d : V) (status : NewStatus) (hphase : r.phase = .admitted d)
      (hcall : r.call = .updateDocumentStatus status) :
      WriteCase s r (s.updateDocument d fun doc => { doc with status := status.toStatus })
  | delete (d : V) (hphase : r.phase = .admitted d) :
      WriteCase s r { s.updateDocument d fun doc => { doc with status := .deleted } with
        softDeleted := Function.update s.softDeleted d true }
  | insert (d u : V) (role : GrantedRole) (hphase : r.phase = .admitted d) :
      WriteCase s r (s.insertMembership d u role)
  | target (d t : V) (role : Option Role) (hphase : r.phase = .targeted d t)
      (hrole : role ≠ some .author) : WriteCase s r (s.setMembership d t role)
  | link (d fresh : V) (role : GrantedRole) :
      WriteCase s r { s with shareLinks := Function.update s.shareLinks fresh (some (d, role)) }

omit [DecidableEq H] in
theorem write_cases {s s' : DocumentServer V H} {r : DocumentRequest V} {fresh : V}
    (hs : s.write r fresh = some s') : WriteCase s r s' := by
  unfold write at hs
  split at hs
  · next d title hphase _ =>
    cases hs
    exact .title d title hphase
  · next d status hphase hcall =>
    cases hs
    exact .status d status hphase hcall
  · next d hphase _ =>
    cases hs
    exact .delete d hphase
  · next d u role hphase _ =>
    cases hs
    exact .insert d u role hphase
  · next d t _ role hphase _ =>
    cases hs
    exact .target d t _ hphase (role.map_toRole_ne_author _)
  · next d t _ hphase _ =>
    cases hs
    exact .target d t none hphase (by decide)
  · next d role _ _ =>
    obtain ⟨-, hs⟩ := Option.ite_none_right_eq_some.mp hs
    cases hs
    exact .link d fresh role
  · next d token hphase _ =>
    split at hs
    · next d' role _ =>
      obtain ⟨-, hs⟩ := Option.ite_none_right_eq_some.mp hs
      cases hs
      exact .insert d r.caller role hphase
    · cases hs
  · cases hs

/-- What a step can do: create a document, write for a request that is then over, or move a
request one phase on, with what the phase has checked. -/
inductive StepCase (E : UuidType V) (s : DocumentServer V H) :
    DocumentAction V H → DocumentServer V H → Prop
  | create (d : V) (title : JsString) (caller : V) (hnew : s.documents d = none) :
      StepCase E s (.createDocument d title caller) { s.setMembership d caller (some .author) with
        documents := Function.update s.documents d (some ⟨title, .draft, caller⟩) }
  | arrive (h : H) (caller : V) (documentId : JsString) (call : DocumentCall V) :
      StepCase E s (.request h caller documentId call)
        (s.setRequest h (some ⟨caller, call, .arrived documentId⟩))
  | ends (a : DocumentAction V H) (h : H) : StepCase E s a (s.setRequest h none)
  | found (h : H) (r : DocumentRequest V) (d : V) (doc : Document V)
      (hr : s.requests h = some r) (hdoc : s.documents d = some doc) :
      StepCase E s (.documentExistsGuard h)
        (s.setRequest h (some { r with phase := .found d }))
  | admitted (h : H) (r : DocumentRequest V) (d : V) (hr : s.requests h = some r)
      (hphase : r.phase = .found d) (hok : r.call.admits (s.memberships d r.caller) = true) :
      StepCase E s (.membershipGuards h) (s.setRequest h (some { r with phase := .admitted d }))
  | targeted (h : H) (r : DocumentRequest V) (d t : V) (target : JsString)
      (hr : s.requests h = some r) (hphase : r.phase = .admitted d)
      (htarget : r.call.target? = some target) (hother : target ≠ E.text r.caller)
      (hread : E.uuidIn target = some t) :
      StepCase E s (.findTarget h) (s.setRequest h (some { r with phase := .targeted d t }))
  | handled (h : H) (fresh : V) (r : DocumentRequest V) (s' : DocumentServer V H)
      (hr : s.requests h = some r) (hs : s.write r fresh = some s') :
      StepCase E s (.handle h fresh) (s'.setRequest h none)

theorem step_cases {E : UuidType V} {s s' : DocumentServer V H} {a : DocumentAction V H}
    (hs : step E s a = some s') : StepCase E s a s' := by
  cases a with
  | createDocument d title caller =>
    obtain ⟨hnew, hs⟩ := Option.ite_none_right_eq_some.mp hs
    cases hs
    exact .create d title caller (Option.isNone_iff_eq_none.mp hnew)
  | request h caller documentId call =>
    obtain ⟨-, hs⟩ := Option.ite_none_right_eq_some.mp hs
    cases hs
    exact .arrive h caller documentId call
  | documentExistsGuard h =>
    obtain ⟨r, hr, hs⟩ := Option.bind_eq_some_iff.mp hs
    split at hs
    · next documentId hphase =>
      cases hs
      cases hd : E.uuidIn documentId with
      | none => exact .ends _ h
      | some d =>
        cases hdoc : s.documents d with
        | none => simpa [hdoc] using StepCase.ends (E := E) (s := s) (.documentExistsGuard h) h
        | some doc =>
          by_cases hdeleted : doc.status = .deleted
          · simpa [hdoc, hdeleted] using
              StepCase.ends (E := E) (s := s) (.documentExistsGuard h) h
          · simpa [hdoc, hdeleted] using StepCase.found (E := E) h r d doc hr hdoc
    · cases hs
  | membershipGuards h =>
    obtain ⟨r, hr, hs⟩ := Option.bind_eq_some_iff.mp hs
    split at hs
    · next d hphase =>
      cases hs
      split
      · next hok => exact .admitted h r d hr hphase hok
      · exact .ends _ h
    · cases hs
  | findTarget h =>
    obtain ⟨r, hr, hs⟩ := Option.bind_eq_some_iff.mp hs
    split at hs
    · next d target hphase htarget =>
      cases hs
      split
      · exact .ends _ h
      · next hother =>
        cases hread : E.uuidIn target with
        | none => exact .ends _ h
        | some t =>
          cases hm : s.memberships d t with
          | none => simpa [hm] using StepCase.ends (E := E) (s := s) (.findTarget h) h
          | some role =>
            simpa [hm] using StepCase.targeted h r d t target hr hphase htarget hother hread
    · cases hs
  | handle h fresh =>
    obtain ⟨r, hr, hs⟩ := Option.bind_eq_some_iff.mp hs
    obtain ⟨t, ht, rfl⟩ := Option.map_eq_some_iff.mp hs
    exact .handled h fresh r t hr ht
  | stop h =>
    obtain ⟨r, -, rfl⟩ := Option.map_eq_some_iff.mp hs
    exact .ends _ h

/-- What every run keeps: requests and memberships are about documents that exist, and only a
call that names a member is ever past the look at it. -/
structure Grounded (s : DocumentServer V H) : Prop where
  document : ∀ h r d, s.requests h = some r → r.phase.documentId? = some d →
    ∃ doc, s.documents d = some doc
  membership : ∀ d u, s.memberships d u ≠ none → ∃ doc, s.documents d = some doc
  target : ∀ h r t, s.requests h = some r → r.phase.target? = some t → r.call.target? ≠ none

def OneAuthor (s : DocumentServer V H) : Prop :=
  ∀ d doc, s.documents d = some doc → ∀ u, s.memberships d u = some .author ↔ u = doc.createdBy

def AuthorCalls (s : DocumentServer V H) : Prop :=
  ∀ h r d, s.requests h = some r → r.phase.admitted? = some d → r.call.target? ≠ none →
    ∀ doc, s.documents d = some doc → doc.createdBy = r.caller

def StaysDeleted (s : DocumentServer V H) : Prop :=
  ∀ d, s.softDeleted d = true → ∃ doc, s.documents d = some doc ∧ doc.status = .deleted

def DeletedOnRequest (s : DocumentServer V H) : Prop :=
  ∀ d doc, s.documents d = some doc → doc.status = .deleted → s.softDeleted d = true

variable {E : UuidType V} {s s' : DocumentServer V H} {a : DocumentAction V H}

omit [DecidableEq V] [DecidableEq H] in
theorem grounded_initial : Grounded (initial : DocumentServer V H) where
  document h r d hr := by simp [initial] at hr
  membership d u hu := by simp [initial] at hu
  target h r t hr := by simp [initial] at hr

omit [DecidableEq H] in
theorem updateDocument_documents {d d' : V} {f : Document V → Document V} :
    (s.updateDocument d f).documents d' =
      if d' = d then (s.documents d').map f else s.documents d' := by
  by_cases hd : d' = d
  · subst hd
    simp [updateDocument]
  · simp [updateDocument, hd]

omit [DecidableEq H] in
theorem updateDocument_eq_some {d d' : V} {f : Document V → Document V} {doc : Document V}
    (hdoc : (s.updateDocument d f).documents d' = some doc) :
    ∃ old, s.documents d' = some old ∧ doc = if d' = d then f old else old := by
  rw [updateDocument_documents] at hdoc
  split at hdoc
  · next hd =>
    obtain ⟨old, hold, rfl⟩ := Option.map_eq_some_iff.mp hdoc
    exact ⟨old, hold, (if_pos hd).symm⟩
  · next hd => exact ⟨doc, hdoc, (if_neg hd).symm⟩

omit [DecidableEq H] in
theorem exists_updateDocument {d d' : V} {f : Document V → Document V} {doc : Document V}
    (hdoc : s.documents d' = some doc) :
    (s.updateDocument d f).documents d' = some (if d' = d then f doc else doc) := by
  rw [updateDocument_documents, hdoc]
  split <;> rfl

omit [DecidableEq H] in
theorem WriteCase.creator {r : DocumentRequest V} (hw : WriteCase s r s') {d : V}
    {doc : Document V} (hdoc : s'.documents d = some doc) :
    ∃ old, s.documents d = some old ∧ old.createdBy = doc.createdBy := by
  have hupdate : ∀ (d' : V) (f : Document V → Document V),
      (s.updateDocument d' f).documents d = some doc →
        (∀ doc, (f doc).createdBy = doc.createdBy) →
          ∃ old, s.documents d = some old ∧ old.createdBy = doc.createdBy := by
    intro d' f hdoc hf
    obtain ⟨old, hold, rfl⟩ := updateDocument_eq_some hdoc
    refine ⟨old, hold, ?_⟩
    split
    · exact (hf old).symm
    · rfl
  cases hw with
  | title d' title => exact hupdate d' _ hdoc fun _ => rfl
  | status d' status => exact hupdate d' _ hdoc fun _ => rfl
  | delete d' => exact hupdate d' _ hdoc fun _ => rfl
  | insert | target | link => exact ⟨doc, hdoc, rfl⟩

omit [DecidableEq H] in
theorem WriteCase.documents {r : DocumentRequest V} (hw : WriteCase s r s') {d : V}
    {doc : Document V} (hdoc : s.documents d = some doc) : ∃ new, s'.documents d = some new := by
  cases hw with
  | title | status | delete => exact ⟨_, exists_updateDocument hdoc⟩
  | insert | target | link => exact ⟨doc, hdoc⟩

omit [DecidableEq H] in
theorem WriteCase.requests {r : DocumentRequest V} (hw : WriteCase s r s') :
    s'.requests = s.requests := by
  cases hw <;> rfl

omit [DecidableEq V] in
theorem Grounded.setRequest (hg : Grounded s) {h : H} {new : Option (DocumentRequest V)}
    (hdoc : ∀ r d, new = some r → r.phase.documentId? = some d → ∃ doc, s.documents d = some doc)
    (htarget : ∀ r t, new = some r → r.phase.target? = some t → r.call.target? ≠ none) :
    Grounded (s.setRequest h new) where
  document h' r d hr hd := by
    rcases Tables.update_eq_some.mp hr with ⟨-, hnew⟩ | ⟨-, hr⟩
    · exact hdoc r d hnew hd
    · exact hg.document h' r d hr hd
  membership := hg.membership
  target h' r t hr ht := by
    rcases Tables.update_eq_some.mp hr with ⟨-, hnew⟩ | ⟨-, hr⟩
    · exact htarget r t hnew ht
    · exact hg.target h' r t hr ht

omit [DecidableEq V] in
theorem Grounded.endRequest (hg : Grounded s) (h : H) : Grounded (s.setRequest h none) :=
  hg.setRequest (fun _ _ hr => by cases hr) fun _ _ hr => by cases hr

omit [DecidableEq H] in
theorem WriteCase.memberships {r : DocumentRequest V} (hw : WriteCase s r s') {d u : V}
    (hne : s'.memberships d u ≠ s.memberships d u) : r.phase.documentId? = some d := by
  have hset : ∀ (d' u' : V) (role : Option Role),
      (s.setMembership d' u' role).memberships d u ≠ s.memberships d u → d = d' := by
    intro d' u' role hne
    by_contra hd
    exact hne (Tables.set_of_ne s.memberships role fun h => hd h.1)
  cases hw with
  | title | status | delete | link => exact absurd rfl hne
  | insert d' u' role hphase =>
    rw [hphase, hset d' u' _ hne]
    rfl
  | target d' t role hphase =>
    rw [hphase, hset d' t role hne]
    rfl

omit [DecidableEq H] in
theorem Grounded.write (hg : Grounded s) {h : H} {r : DocumentRequest V}
    (hr : s.requests h = some r) (hw : WriteCase s r s') : Grounded s' where
  document h' q d hq hd := by
    rw [hw.requests] at hq
    obtain ⟨doc, hdoc⟩ := hg.document h' q d hq hd
    exact hw.documents hdoc
  membership d u hu := by
    have hold : ∃ doc, s.documents d = some doc := by
      by_cases hne : s'.memberships d u = s.memberships d u
      · exact hg.membership d u (hne ▸ hu)
      · exact hg.document h r d hr (hw.memberships hne)
    obtain ⟨doc, hdoc⟩ := hold
    exact hw.documents hdoc
  target h' q t hq := by
    rw [hw.requests] at hq
    exact hg.target h' q t hq

omit [DecidableEq H] in
theorem Grounded.create (hg : Grounded s) {d caller : V} {doc : Document V} :
    Grounded { s.setMembership d caller (some .author) with
      documents := Function.update s.documents d (some doc) } := by
  have hkeep : ∀ d', (∃ old, s.documents d' = some old) →
      ∃ new, Function.update s.documents d (some doc) d' = some new := by
    rintro d' ⟨old, hold⟩
    by_cases hd : d' = d
    · subst hd
      exact ⟨doc, by simp⟩
    · exact ⟨old, by simp [hd, hold]⟩
  refine ⟨fun h r d' hr hd => hkeep d' (hg.document h r d' hr hd), fun d' u hu => ?_, hg.target⟩
  rcases Tables.set_cases s.memberships d caller (some .author) d' u with ⟨rfl, -, -⟩ | ⟨-, he⟩
  · exact ⟨doc, by simp⟩
  · exact hkeep d' (hg.membership d' u fun hn => hu (he.trans hn))

theorem grounded_step (hg : Grounded s) (hs : step E s a = some s') : Grounded s' := by
  cases step_cases hs with
  | create d title caller => exact hg.create
  | arrive h caller documentId call =>
    refine hg.setRequest (fun r d hr hd => ?_) fun r t hr ht => ?_
    · cases hr
      cases hd
    · cases hr
      cases ht
  | ends _ h => exact hg.endRequest h
  | found h r d doc hr hdoc =>
    refine hg.setRequest (fun q d' hq hd => ?_) fun q t hq ht => ?_
    · cases hq
      cases hd
      exact ⟨doc, hdoc⟩
    · cases hq
      cases ht
  | admitted h r d hr hphase =>
    refine hg.setRequest (fun q d' hq hd => ?_) fun q t hq ht => ?_
    · cases hq
      exact hg.document h r d' hr (by rw [hphase]; exact hd)
    · cases hq
      cases ht
  | targeted h r d t target hr hphase htarget =>
    refine hg.setRequest (fun q d' hq hd => ?_) fun q t' hq _ => ?_
    · cases hq
      exact hg.document h r d' hr (by rw [hphase]; exact hd)
    · cases hq
      simp [htarget]
  | handled h fresh r s₁ hr hw => exact (hg.write hr (write_cases hw)).endRequest h

omit [DecidableEq H] in
theorem OneAuthor.updateDocument (ho : OneAuthor s) {d : V} {f : Document V → Document V}
    (hf : ∀ doc, (f doc).createdBy = doc.createdBy) : OneAuthor (s.updateDocument d f) := by
  intro d' doc hdoc u
  obtain ⟨old, hold, rfl⟩ := updateDocument_eq_some hdoc
  have hcreator : (if d' = d then f old else old).createdBy = old.createdBy := by
    split
    · exact hf old
    · rfl
  rw [hcreator]
  exact ho d' old hold u

omit [DecidableEq H] in
theorem OneAuthor.setMembership (ho : OneAuthor s) {d u : V} {role : Option Role}
    (hrole : role = some .author ↔ s.memberships d u = some .author) :
    OneAuthor (s.setMembership d u role) := by
  intro d' doc hdoc u'
  rw [← ho d' doc hdoc u']
  rcases Tables.set_cases s.memberships d u role d' u' with ⟨rfl, rfl, he⟩ | ⟨-, he⟩
  · exact (congrArg (· = some Role.author) he).to_iff.trans hrole
  · exact (congrArg (· = some Role.author) he).to_iff

omit [DecidableEq H] in
theorem OneAuthor.create (ho : OneAuthor s) (hg : Grounded s) {d caller : V} {doc : Document V}
    (hnew : s.documents d = none) (hdoc : doc.createdBy = caller) :
    OneAuthor { s.setMembership d caller (some .author) with
      documents := Function.update s.documents d (some doc) } := by
  intro d' doc' hdoc' u
  have hset := Tables.set_cases s.memberships d caller (some .author) d' u
  rcases Tables.update_eq_some.mp hdoc' with ⟨rfl, he⟩ | ⟨hd, hold⟩
  · cases he
    rw [hdoc]
    rcases hset with ⟨-, rfl, he⟩ | ⟨hne, he⟩
    · exact ⟨fun _ => rfl, fun _ => he⟩
    · have hnone : s.memberships d' u = none := by
        by_contra hu
        obtain ⟨old, hold⟩ := hg.membership d' u hu
        simp [hold] at hnew
      refine ⟨fun h => ?_, fun h => absurd ⟨rfl, h⟩ hne⟩
      exact absurd (hnone.symm.trans (he.symm.trans h)) (by simp)
  · rw [← ho d' doc' hold u]
    rcases hset with ⟨rfl, -, -⟩ | ⟨-, he⟩
    · exact absurd rfl hd
    · exact (congrArg (· = some Role.author) he).to_iff

omit [DecidableEq V] in
theorem AuthorCalls.setRequest (hc : AuthorCalls s) {h : H} {new : Option (DocumentRequest V)}
    (hnew : ∀ r d, new = some r → r.phase.admitted? = some d → r.call.target? ≠ none →
      ∀ doc, s.documents d = some doc → doc.createdBy = r.caller) :
    AuthorCalls (s.setRequest h new) := by
  intro h' r d hr
  rcases Tables.update_eq_some.mp hr with ⟨-, hr⟩ | ⟨-, hr⟩
  · exact hnew r d hr
  · exact hc h' r d hr

omit [DecidableEq V] in
theorem AuthorCalls.endRequest (hc : AuthorCalls s) (h : H) :
    AuthorCalls (s.setRequest h none) :=
  hc.setRequest fun _ _ hr => by cases hr

omit [DecidableEq H] in
theorem AuthorCalls.write (hc : AuthorCalls s) {r : DocumentRequest V} (hw : WriteCase s r s') :
    AuthorCalls s' := by
  intro h q d hq hd htarget doc hdoc
  rw [hw.requests] at hq
  obtain ⟨old, hold, he⟩ := hw.creator hdoc
  rw [← he]
  exact hc h q d hq hd htarget old hold

/-- A request whose member turns out to be the caller does not come to its statement. -/
def SparesCaller (s : DocumentServer V H) : DocumentAction V H → Prop
  | .handle h _ => ∀ r ∈ s.requests h, ∀ t ∈ r.phase.target?, t ≠ r.caller
  | _ => True

instance SparesCaller.decidable :
    ∀ (s : DocumentServer V H) (a : DocumentAction V H), Decidable (SparesCaller s a)
  | s, .handle h _ =>
    inferInstanceAs (Decidable (∀ r ∈ s.requests h, ∀ t ∈ r.phase.target?, t ≠ r.caller))
  | _, .createDocument .. | _, .request .. | _, .documentExistsGuard _ | _, .membershipGuards _
  | _, .findTarget _ | _, .stop _ => isTrue trivial

structure Authored (s : DocumentServer V H) : Prop where
  grounded : Grounded s
  oneAuthor : OneAuthor s
  authorCalls : AuthorCalls s

omit [DecidableEq V] [DecidableEq H] in
theorem authored_initial : Authored (initial : DocumentServer V H) where
  grounded := grounded_initial
  oneAuthor d doc hdoc := by simp [initial] at hdoc
  authorCalls h r d hr := by simp [initial] at hr

omit [DecidableEq H] in
theorem Authored.write (hi : Authored s) {h : H} {r : DocumentRequest V}
    (hr : s.requests h = some r) (hok : ∀ t ∈ r.phase.target?, t ≠ r.caller)
    (hw : WriteCase s r s') : OneAuthor s' := by
  cases hw with
  | title | status | delete => exact hi.oneAuthor.updateDocument fun _ => rfl
  | insert d u role hphase =>
    refine hi.oneAuthor.setMembership ?_
    cases s.memberships d u with
    | none => simpa using role.toRole_ne_author
    | some old => simp
  | target d t role hphase hrole =>
    refine hi.oneAuthor.setMembership ⟨fun h => absurd h hrole, fun hauthor => ?_⟩
    obtain ⟨doc, hdoc⟩ := hi.grounded.document h r d hr (by rw [hphase]; rfl)
    have hcaller := hi.authorCalls h r d hr (by rw [hphase]; rfl)
      (hi.grounded.target h r t hr (by rw [hphase]; rfl)) doc hdoc
    have ht := (hi.oneAuthor d doc hdoc t).mp hauthor
    exact absurd (ht.trans hcaller) (hok t (by rw [hphase]; rfl))
  | link => exact hi.oneAuthor

theorem authored_step (hi : Authored s) (hok : SparesCaller s a) (hs : step E s a = some s') :
    Authored s' := by
  refine ⟨grounded_step hi.grounded hs, ?_, ?_⟩
  · cases step_cases hs with
    | create d title caller hnew => exact hi.oneAuthor.create hi.grounded hnew rfl
    | handled h fresh r s₁ hr hw =>
      have hwritten : OneAuthor s₁ := hi.write hr (hok r hr) (write_cases hw)
      exact hwritten
    | _ => exact hi.oneAuthor
  · cases step_cases hs with
    | create d title caller hnew =>
      intro h r d' hr hd htarget doc hdoc
      rcases Tables.update_eq_some.mp hdoc with ⟨rfl, -⟩ | ⟨-, hold⟩
      · obtain ⟨old, hold⟩ :=
          hi.grounded.document h r d' hr (RequestPhase.documentId?_of_admitted hd)
        simp [hold] at hnew
      · exact hi.authorCalls h r d' hr hd htarget doc hold
    | arrive h caller documentId call =>
      refine hi.authorCalls.setRequest fun r d hr hd => ?_
      cases hr
      cases hd
    | ends _ h => exact hi.authorCalls.endRequest h
    | found h r d doc hr hdoc =>
      refine hi.authorCalls.setRequest fun q d' hq hd => ?_
      cases hq
      cases hd
    | admitted h r d hr hphase hadmits =>
      refine hi.authorCalls.setRequest fun q d' hq hd htarget doc hdoc => ?_
      cases hq
      cases hd
      have hauthor := DocumentCall.admits_target htarget hadmits
      exact ((hi.oneAuthor d doc hdoc r.caller).mp hauthor).symm
    | targeted h r d t target hr hphase =>
      refine hi.authorCalls.setRequest fun q d' hq hd => ?_
      cases hq
      exact hi.authorCalls h r d' hr (by rw [hphase]; exact hd)
    | handled h fresh r s₁ hr hw => exact (hi.authorCalls.write (write_cases hw)).endRequest h

/-- The statement about a member that the caller is runs, and takes the author away. -/
theorem not_oneAuthor_of_target (hi : Authored s) {h : H} {r : DocumentRequest V} {d : V}
    (fresh : V) (hr : s.requests h = some r) (hphase : r.phase = .targeted d r.caller) :
    ∃ t, step E s (.handle h fresh) = some t ∧ ¬ OneAuthor t := by
  obtain ⟨doc, hdoc⟩ := hi.grounded.document h r d hr (by rw [hphase]; rfl)
  have htarget := hi.grounded.target h r r.caller hr (by rw [hphase]; rfl)
  have hcreator := hi.authorCalls h r d hr (by rw [hphase]; rfl) htarget doc hdoc
  have hwrite : ∃ role, role ≠ some .author ∧
      s.write r fresh = some (s.setMembership d r.caller role) := by
    cases hcall : r.call with
    | updateDocumentMemberRole target role =>
      exact ⟨_, role.map_toRole_ne_author _, by simp [write, hphase, hcall]; rfl⟩
    | removeDocumentMember target => exact ⟨none, by decide, by simp [write, hphase, hcall]⟩
    | _ => exact absurd (by rw [hcall]; rfl) htarget
  obtain ⟨role, hrole, hw⟩ := hwrite
  refine ⟨(s.setMembership d r.caller role).setRequest h none, by simp [step, hr, hw], fun ho => ?_⟩
  have hauthor := (ho d doc hdoc r.caller).mpr hcreator.symm
  exact hrole ((Tables.set_self s.memberships d r.caller role).symm.trans hauthor)

theorem oneAuthor_iff_sparesCaller (hi : Authored s) :
    (∀ t ∈ step E s a, OneAuthor t) ↔ SparesCaller s a := by
  constructor
  · intro ho
    cases a with
    | handle h fresh =>
      rintro r hr t ht rfl
      obtain ⟨d, hphase⟩ := RequestPhase.eq_targeted ht
      obtain ⟨s₁, hs, hnot⟩ := not_oneAuthor_of_target (E := E) hi fresh hr hphase
      exact hnot (ho s₁ hs)
    | _ => trivial
  · exact fun hok t ht => (authored_step hi hok ht).oneAuthor

/-- **One author**: along a run every document has one author, its creator, exactly as long as
no statement about a member runs whose member the caller is. The comparison with the caller's
id lets every other spelling of the same uuid pass. -/
theorem one_author (E : UuidType V) (as : List (DocumentAction V H)) :
    Runs.Follows (step E) (fun s a => ∀ t ∈ step E s a, OneAuthor t) initial as ↔
      Runs.Follows (step E) SparesCaller initial as := by
  refine Runs.follows_congr_of_keeps authored_initial (fun s a t hi ho hs => ?_)
    (fun s a hi => oneAuthor_iff_sparesCaller hi) as
  exact authored_step hi ((oneAuthor_iff_sparesCaller hi).mp ho) hs

def capitalRemoval : List (DocumentAction Bool Unit) :=
  [.createDocument false (js "Draft") true,
    .request () true (twoUuids.text false)
      (.removeDocumentMember (js "C4A7E2D8-0B3F-4E61-9D52-1F8C7B6A5E94")),
    .documentExistsGuard (), .membershipGuards (), .findTarget (), .handle () false]

theorem one_author_fails : ∃ s, Runs.exec (step twoUuids) initial capitalRemoval = some s ∧
    ¬ OneAuthor s := by
  obtain ⟨s, hs, hlost⟩ := (Option.any_eq_true _ _).mp
    (show (Runs.exec (step twoUuids) initial capitalRemoval).any (fun s =>
      ((s.documents false).map Document.createdBy = some true ∧
        s.memberships false true = none : Bool)) = true by
        decide +kernel)
  obtain ⟨hdoc, hnone⟩ := of_decide_eq_true hlost
  obtain ⟨doc, hdoc, hcreator⟩ := Option.map_eq_some_iff.mp hdoc
  refine ⟨s, hs, fun ho => ?_⟩
  simpa [hnone] using (ho false doc hdoc true).mpr hcreator.symm

/-- The path of a request names its member as the API prints ids. -/
def Printed (E : UuidType V) : DocumentAction V H → Prop
  | .request _ _ _ call => ∀ target ∈ call.target?, ∃ t, target = E.text t
  | _ => True

/-- What a request with such a path has passed when its member is found. -/
structure PrintedRequest (E : UuidType V) (r : DocumentRequest V) : Prop where
  path : ∀ target ∈ r.call.target?, ∃ t, target = E.text t
  found : ∀ t ∈ r.phase.target?, ∃ target, r.call.target? = some target ∧
    target ≠ E.text r.caller ∧ E.uuidIn target = some t

omit [DecidableEq V] in
/-- Of the strings that denote an id only one is printed, and the handlers refuse it. -/
theorem PrintedRequest.sparesCaller {r : DocumentRequest V} (hr : PrintedRequest E r) :
    ∀ t ∈ r.phase.target?, t ≠ r.caller := by
  rintro t ht rfl
  obtain ⟨target, htarget, hother, hread⟩ := hr.found r.caller ht
  obtain ⟨t', rfl⟩ := hr.path target htarget
  obtain rfl : t' = r.caller := Option.some.inj ((E.uuidIn_text t').symm.trans hread)
  exact hother rfl

theorem printedRequest_step (hi : ∀ h r, s.requests h = some r → PrintedRequest E r)
    (hok : Printed E a) (hs : step E s a = some s') :
    ∀ h r, s'.requests h = some r → PrintedRequest E r := by
  have hset : ∀ (h : H) (new : Option (DocumentRequest V)),
      (∀ r, new = some r → PrintedRequest E r) →
        ∀ h' r, (s.setRequest h new).requests h' = some r → PrintedRequest E r := by
    intro h new hnew h' r hr
    rcases Tables.update_eq_some.mp hr with ⟨-, hr⟩ | ⟨-, hr⟩
    · exact hnew r hr
    · exact hi h' r hr
  have hend : ∀ h, ∀ h' r, (s.setRequest h none).requests h' = some r → PrintedRequest E r :=
    fun h => hset h none fun _ hr => by cases hr
  cases step_cases hs with
  | create => exact hi
  | arrive h caller documentId call =>
    refine hset h _ fun r hr => ?_
    cases hr
    exact ⟨hok, fun t ht => by cases ht⟩
  | ends _ h => exact hend h
  | found h r d doc hr hdoc =>
    refine hset h _ fun q hq => ?_
    cases hq
    exact ⟨(hi h r hr).path, fun t ht => by cases ht⟩
  | admitted h r d hr =>
    refine hset h _ fun q hq => ?_
    cases hq
    exact ⟨(hi h r hr).path, fun t ht => by cases ht⟩
  | targeted h r d t target hr hphase htarget hother hread =>
    refine hset h _ fun q hq => ?_
    cases hq
    refine ⟨(hi h r hr).path, fun t' ht => ?_⟩
    cases ht
    exact ⟨target, htarget, hother, hread⟩
  | handled h fresh r s₁ hr hw =>
    intro h' q hq
    refine hend h h' q ?_
    rwa [setRequest, (write_cases hw).requests] at hq

/-- As long as members are named as the API prints them, every document keeps its author. -/
theorem oneAuthor_of_printed
    (h : Runs.Reach (step E) (fun s => s = initial) (fun _ a => Printed E a) s) :
    OneAuthor s := by
  have hboth : Authored s ∧ ∀ h r, s.requests h = some r → PrintedRequest E r := by
    refine Runs.Reach.invariant (P := fun s => Authored s ∧
      ∀ h r, s.requests h = some r → PrintedRequest E r) ?_ ?_ h
    · rintro s rfl
      exact ⟨authored_initial, fun h r hr => by simp [initial] at hr⟩
    · intro s a t hi hok hs
      refine ⟨authored_step hi.1 ?_ hs, printedRequest_step hi.2 hok hs⟩
      cases a with
      | handle h' fresh => exact fun r hr => (hi.2 h' r hr).sparesCaller
      | _ => trivial
  exact hboth.1.oneAuthor

structure Deleting (s : DocumentServer V H) : Prop where
  grounded : Grounded s
  stays : StaysDeleted s
  onRequest : DeletedOnRequest s

omit [DecidableEq V] [DecidableEq H] in
theorem deleting_initial : Deleting (initial : DocumentServer V H) where
  grounded := grounded_initial
  stays d hd := by simp [initial] at hd
  onRequest d doc hdoc := by simp [initial] at hdoc

/-- No status is written while the document is deleted: no `softDeleteDocument` commits between
the guards of a status update and its statement. -/
def SparesDeleted (s : DocumentServer V H) : DocumentAction V H → Prop
  | .handle h _ => ∀ r ∈ s.requests h, ∀ d ∈ r.statusUpdate?, ∀ doc ∈ s.documents d,
      doc.status ≠ .deleted
  | _ => True

omit [DecidableEq H] in
theorem StaysDeleted.updateDocument (hd : StaysDeleted s) {d : V} {f : Document V → Document V}
    (hf : ∀ doc, s.documents d = some doc → doc.status = .deleted → (f doc).status = .deleted) :
    StaysDeleted (s.updateDocument d f) := by
  intro d' hdeleted
  obtain ⟨doc, hdoc, hstatus⟩ := hd d' hdeleted
  refine ⟨_, exists_updateDocument hdoc, ?_⟩
  split
  · next he => exact hf doc (he ▸ hdoc) hstatus
  · exact hstatus

omit [DecidableEq H] in
theorem DeletedOnRequest.updateDocument (hd : DeletedOnRequest s) {d : V}
    {f : Document V → Document V}
    (hf : ∀ doc, (f doc).status = .deleted → doc.status = .deleted) :
    DeletedOnRequest (s.updateDocument d f) := by
  intro d' doc hdoc hstatus
  obtain ⟨old, hold, rfl⟩ := updateDocument_eq_some hdoc
  refine hd d' old hold ?_
  split at hstatus
  · exact hf old hstatus
  · exact hstatus

omit [DecidableEq H] in
theorem Deleting.write (hi : Deleting s) {h : H} {r : DocumentRequest V}
    (hr : s.requests h = some r)
    (hok : ∀ d ∈ r.statusUpdate?, ∀ doc ∈ s.documents d, doc.status ≠ .deleted)
    (hw : WriteCase s r s') : StaysDeleted s' ∧ DeletedOnRequest s' := by
  cases hw with
  | title d title =>
    exact ⟨hi.stays.updateDocument fun _ _ hdeleted => hdeleted,
      hi.onRequest.updateDocument fun _ hdeleted => hdeleted⟩
  | status d status hphase hcall =>
    have hupdate : r.statusUpdate? = some d := by
      simp [DocumentRequest.statusUpdate?, hphase, hcall]
    refine ⟨hi.stays.updateDocument fun doc hdoc hdeleted => ?_,
      hi.onRequest.updateDocument fun doc hdeleted => ?_⟩
    · exact absurd hdeleted (hok d hupdate doc hdoc)
    · exact absurd hdeleted status.toStatus_ne_deleted
  | delete d hphase =>
    refine ⟨fun d' hdeleted => ?_, fun d' doc hdoc hstatus => ?_⟩
    · by_cases hd : d' = d
      · subst hd
        obtain ⟨doc, hdoc⟩ := hi.grounded.document h r d' hr (by rw [hphase]; rfl)
        exact ⟨_, exists_updateDocument hdoc, by rw [if_pos rfl]⟩
      · obtain ⟨doc, hdoc, hstatus⟩ := hi.stays d' (by simpa [hd] using hdeleted)
        exact ⟨_, exists_updateDocument hdoc, by rwa [if_neg hd]⟩
    · by_cases hd : d' = d
      · subst hd
        exact Function.update_self ..
      · obtain ⟨old, hold, rfl⟩ := updateDocument_eq_some hdoc
        rw [if_neg hd] at hstatus
        simpa [hd] using hi.onRequest d' old hold hstatus
  | insert | target | link => exact ⟨hi.stays, hi.onRequest⟩

theorem deleting_step (hi : Deleting s) (hok : SparesDeleted s a) (hs : step E s a = some s') :
    Deleting s' := by
  have hkept : StaysDeleted s' ∧ DeletedOnRequest s' := by
    cases step_cases hs with
    | create d title caller hnew =>
      constructor
      · intro d' hdeleted
        obtain ⟨doc, hdoc, hstatus⟩ := hi.stays d' hdeleted
        have hne : d' ≠ d := by
          rintro rfl
          simp [hdoc] at hnew
        exact ⟨doc, (Function.update_of_ne hne ..).trans hdoc, hstatus⟩
      · intro d' doc hdoc hstatus
        rcases Tables.update_eq_some.mp hdoc with ⟨-, he⟩ | ⟨-, hold⟩
        · cases he
          cases hstatus
        · exact hi.onRequest d' doc hold hstatus
    | handled h fresh r s₁ hr hw =>
      have hwritten : StaysDeleted s₁ ∧ DeletedOnRequest s₁ :=
        hi.write hr (hok r hr) (write_cases hw)
      exact hwritten
    | _ => exact ⟨hi.stays, hi.onRequest⟩
  exact ⟨grounded_step hi.grounded hs, hkept.1, hkept.2⟩

/-- A status update past its guards runs, and brings a deleted document back. -/
theorem not_staysDeleted_of_update (hi : Deleting s) {h : H} {r : DocumentRequest V} {d : V}
    {doc : Document V} (fresh : V) (hr : s.requests h = some r) (hupdate : r.statusUpdate? = some d)
    (hdoc : s.documents d = some doc) (hdeleted : doc.status = .deleted) :
    ∃ t, step E s (.handle h fresh) = some t ∧ ¬ StaysDeleted t := by
  unfold DocumentRequest.statusUpdate? at hupdate
  split at hupdate
  · next d' status hphase hcall =>
    cases hupdate
    refine ⟨_, by simp [step, write, hr, hphase, hcall]; rfl, fun hstays => ?_⟩
    obtain ⟨new, hnew, hstatus⟩ := hstays d (hi.onRequest d doc hdoc hdeleted)
    obtain ⟨old, -, rfl⟩ := updateDocument_eq_some hnew
    rw [if_pos rfl] at hstatus
    exact status.toStatus_ne_deleted hstatus
  · cases hupdate

theorem staysDeleted_iff_sparesDeleted (hi : Deleting s) :
    (∀ t ∈ step E s a, StaysDeleted t) ↔ SparesDeleted s a := by
  constructor
  · intro hd
    cases a with
    | handle h fresh =>
      intro r hr d hupdate doc hdoc hdeleted
      obtain ⟨t, hs, hnot⟩ :=
        not_staysDeleted_of_update (E := E) hi fresh hr hupdate hdoc hdeleted
      exact hnot (hd t hs)
    | _ => trivial
  · exact fun hok t ht => (deleting_step hi hok ht).stays

/-- **Deletion**: along a run a document stays deleted once a `softDeleteDocument` has committed,
exactly as long as no status update that was let in before comes to its statement after. -/
theorem stays_deleted (E : UuidType V) (as : List (DocumentAction V H)) :
    Runs.Follows (step E) (fun s a => ∀ t ∈ step E s a, StaysDeleted t) initial as ↔
      Runs.Follows (step E) SparesDeleted initial as := by
  refine Runs.follows_congr_of_keeps deleting_initial (fun s a t hi hd hs => ?_)
    (fun s a hi => staysDeleted_iff_sparesDeleted hi) as
  exact deleting_step hi ((staysDeleted_iff_sparesDeleted hi).mp hd) hs

def revival : List (DocumentAction Bool Bool) :=
  [.createDocument false (js "Draft") true,
    .request false true (twoUuids.text false) (.updateDocumentStatus .active),
    .documentExistsGuard false, .membershipGuards false,
    .request true true (twoUuids.text false) .softDeleteDocument,
    .documentExistsGuard true, .membershipGuards true, .handle true false, .handle false false]

theorem stays_deleted_fails : ∃ s, Runs.exec (step twoUuids) initial revival = some s ∧
    ¬ StaysDeleted s := by
  obtain ⟨s, hs, hback⟩ := (Option.any_eq_true _ _).mp
    (show (Runs.exec (step twoUuids) initial revival).any (fun s =>
      ((s.documents false).map Document.status = some .active ∧
        s.softDeleted false : Bool)) = true by
        decide +kernel)
  obtain ⟨hdoc, hdeleted⟩ := of_decide_eq_true hback
  obtain ⟨doc, hdoc, hactive⟩ := Option.map_eq_some_iff.mp hdoc
  refine ⟨s, hs, fun hstays => ?_⟩
  obtain ⟨doc', hdoc', hstatus⟩ := hstays false hdeleted
  rw [hdoc] at hdoc'
  cases hdoc'
  rw [hactive] at hstatus
  cases hstatus

end DocumentServer

end Meridian
