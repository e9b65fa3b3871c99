import Meridian.DocumentRequests
import Mathlib

/-! Where the memberships come from. A request keeps what its guards have read while others run,
a link is claimed long after it was made, and rows are overwritten and removed in between; still
nobody but the creator of a document ever gives a role in it away. -/
namespace Meridian

theorem GrantedRole.toRole_injective {role role' : GrantedRole} (h : role.toRole = role'.toRole) :
    role = role' := by
  cases role <;> cases role' <;> first | rfl | cases h

namespace DocumentCall

variable {V : Type}

def ForAuthors (call : DocumentCall V) : Prop :=
  ∀ role, call.admits role = true → role = some .author

theorem forAuthors_addMember (u : V) (role : GrantedRole) : (addMember u role).ForAuthors :=
  fun _ h => of_decide_eq_true h

theorem forAuthors_updateDocumentMemberRole (target : JsString) (role : GrantedRole) :
    (updateDocumentMemberRole (V := V) target role).ForAuthors :=
  fun _ h => of_decide_eq_true h

theorem forAuthors_createShareLink (role : GrantedRole) :
    (createShareLink (V := V) role).ForAuthors :=
  fun _ h => of_decide_eq_true h

end DocumentCall

namespace DocumentServer

variable {V H : Type} [DecidableEq V] [DecidableEq H] {E : UuidType V}
  {s s' : DocumentServer V H} {a : DocumentAction V H}

def AuthorsCreated (s : DocumentServer V H) : Prop :=
  ∀ d u, s.memberships d u = some .author → ∀ doc, s.documents d = some doc → doc.createdBy = u

def CreatorCalls (s : DocumentServer V H) : Prop :=
  ∀ h r d, s.requests h = some r → r.phase.admitted? = some d → r.call.ForAuthors →
    ∀ doc, s.documents d = some doc → doc.createdBy = r.caller

/-- What every run keeps, whatever the members do to each other. -/
structure Vouched (s : DocumentServer V H) : Prop where
  grounded : Grounded s
  authors : AuthorsCreated s
  calls : CreatorCalls s

omit [DecidableEq V] [DecidableEq H] in
theorem vouched_initial : Vouched (initial : DocumentServer V H) where
  grounded := grounded_initial
  authors d u hu := by simp [initial] at hu
  calls h r d hr := by simp [initial] at hr

omit [DecidableEq H] in
theorem AuthorsCreated.setMembership (ha : AuthorsCreated s) {d u : V} {role : Option Role}
    (hrole : role = some .author → s.memberships d u = some .author) :
    AuthorsCreated (s.setMembership d u role) := by
  intro d' u' hu doc hdoc
  rcases Tables.set_cases s.memberships d u role d' u' with ⟨rfl, rfl, he⟩ | ⟨-, he⟩
  · exact ha d' u' (hrole (he.symm.trans hu)) doc hdoc
  · exact ha d' u' (he.symm.trans hu) doc hdoc

omit [DecidableEq H] in
theorem AuthorsCreated.updateDocument (ha : AuthorsCreated s) {d : V}
    {f : Document V → Document V} (hf : ∀ doc, (f doc).createdBy = doc.createdBy) :
    AuthorsCreated (s.updateDocument d f) := by
  intro d' u hu doc hdoc
  obtain ⟨old, hold, rfl⟩ := updateDocument_eq_some hdoc
  have hcreator : (if d' = d then f old else old).createdBy = old.createdBy := by
    split
    · exact hf old
    · rfl
  rw [hcreator]
  exact ha d' u hu old hold

omit [DecidableEq H] in
theorem AuthorsCreated.create (ha : AuthorsCreated s) (hg : Grounded s) {d caller : V}
    {doc : Document V} (hnew : s.documents d = none) (hdoc : doc.createdBy = caller) :
    AuthorsCreated { s.setMembership d caller (some .author) with
      documents := Function.update s.documents d (some doc) } := by
  intro d' u hu doc' hdoc'
  have hset := Tables.set_cases s.memberships d caller (some .author) d' u
  rcases Tables.update_eq_some.mp hdoc' with ⟨rfl, he⟩ | ⟨hd, hold⟩
  · cases he
    rcases hset with ⟨-, rfl, -⟩ | ⟨-, he⟩
    · exact hdoc
    · have hmember : s.memberships d' u ≠ none := fun hn => by
        cases hn.symm.trans (he.symm.trans hu)
      obtain ⟨old, hold⟩ := hg.membership d' u hmember
      simp [hold] at hnew
  · rcases hset with ⟨rfl, -, -⟩ | ⟨-, he⟩
    · exact absurd rfl hd
    · exact ha d' u (he.symm.trans hu) doc' hold

omit [DecidableEq H] in
theorem AuthorsCreated.write (ha : AuthorsCreated s) {r : DocumentRequest V}
    (hw : WriteCase s r s') : AuthorsCreated s' := by
  cases hw with
  | title | status | delete => exact ha.updateDocument fun _ => rfl
  | insert d u role =>
    refine ha.setMembership fun hrole => ?_
    cases hold : s.memberships d u with
    | none =>
      rw [hold] at hrole
      exact absurd (Option.some.inj hrole) role.toRole_ne_author
    | some old => simpa [hold] using hrole
  | target d t role _ hrole => exact ha.setMembership fun h => absurd h hrole
  | link => exact ha

omit [DecidableEq V] in
theorem CreatorCalls.setRequest (hc : CreatorCalls s) {h : H} {new : Option (DocumentRequest V)}
    (hnew : ∀ r d, new = some r → r.phase.admitted? = some d → r.call.ForAuthors →
      ∀ doc, s.documents d = some doc → doc.createdBy = r.caller) :
    CreatorCalls (s.setRequest h new) := by
  intro h' r d hr
  rcases Tables.update_eq_some.mp hr with ⟨-, hr⟩ | ⟨-, hr⟩
  · exact hnew r d hr
  · exact hc h' r d hr

omit [DecidableEq V] in
theorem CreatorCalls.endRequest (hc : CreatorCalls s) (h : H) :
    CreatorCalls (s.setRequest h none) :=
  hc.setRequest fun _ _ hr => by cases hr

omit [DecidableEq H] in
theorem CreatorCalls.write (hc : CreatorCalls s) {r : DocumentRequest V} (hw : WriteCase s r s') :
    CreatorCalls s' := by
  intro h q d hq hd hauthors doc hdoc
  rw [hw.requests] at hq
  obtain ⟨old, hold, he⟩ := hw.creator hdoc
  rw [← he]
  exact hc h q d hq hd hauthors old hold

/-- A request that is admitted to a handler for authors is the creator's, since no one else was
an author when the guard looked. -/
theorem creatorCalls_step (hi : Vouched s) (hs : step E s a = some s') : CreatorCalls s' := by
  cases step_cases hs with
  | create d title caller hnew =>
    intro h r d' hr hd hauthors doc hdoc
    rcases Tables.update_eq_some.mp hdoc with ⟨rfl, -⟩ | ⟨-, hold⟩
    · obtain ⟨old, hold⟩ :=
        hi.grounded.document h r d' hr (RequestPhase.documentId?_of_admitted hd)
      simp [hold] at hnew
    · exact hi.calls h r d' hr hd hauthors doc hold
  | arrive h caller documentId call =>
    refine hi.calls.setRequest fun r d hr hd => ?_
    cases hr
    cases hd
  | ends _ h => exact hi.calls.endRequest h
  | found h r d doc hr hdoc =>
    refine hi.calls.setRequest fun q d' hq hd => ?_
    cases hq
    cases hd
  | admitted h r d hr hphase hadmits =>
    refine hi.calls.setRequest fun q d' hq hd hauthors doc hdoc => ?_
    cases hq
    cases hd
    exact hi.authors d r.caller (hauthors _ hadmits) doc hdoc
  | targeted h r d t target hr hphase =>
    refine hi.calls.setRequest fun q d' hq hd => ?_
    cases hq
    exact hi.calls h r d' hr (by rw [hphase]; exact hd)
  | handled h fresh r s₁ hr hw => exact (hi.calls.write (write_cases hw)).endRequest h

theorem vouched_step (hi : Vouched s) (hs : step E s a = some s') : Vouched s' := by
  refine ⟨grounded_step hi.grounded hs, ?_, creatorCalls_step hi hs⟩
  cases step_cases hs with
  | create d title caller hnew => exact hi.authors.create hi.grounded hnew rfl
  | handled h fresh r s₁ hr hw =>
    have hwritten : AuthorsCreated s₁ := hi.authors.write (write_cases hw)
    exact hwritten
  | _ => exact hi.authors

inductive Gives (s : DocumentServer V H) (r : DocumentRequest V) (d u : V) (role : GrantedRole) :
    Prop
  | addMember (hphase : r.phase = .admitted d) (hcall : r.call = .addMember u role)
  | updateDocumentMemberRole (target : JsString) (hphase : r.phase = .targeted d u)
      (hcall : r.call = .updateDocumentMemberRole target role)
  | claimShareLink (token : V) (hphase : r.phase = .admitted d)
      (hcall : r.call = .claimShareLink token) (hcaller : r.caller = u)
      (hlink : s.shareLinks token = some (d, role))

omit [DecidableEq H] in
theorem gives_of_write {r : DocumentRequest V} {fresh d u : V} {role : GrantedRole}
    (hw : s.write r fresh = some s') (hold : s.memberships d u ≠ some role.toRole)
    (hnew : s'.memberships d u = some role.toRole) : Gives s r d u role := by
  have hset : ∀ (d' u' : V) (new : Option Role),
      (s.setMembership d' u' new).memberships d u = some role.toRole →
        d = d' ∧ u = u' ∧ new = some role.toRole := by
    intro d' u' new hnew
    rcases Tables.set_cases s.memberships d' u' new d u with ⟨hd, hu, he⟩ | ⟨-, he⟩
    · exact ⟨hd, hu, he.symm.trans hnew⟩
    · exact absurd (he.symm.trans hnew) hold
  -- an INSERT that meets a row leaves it, so the row it makes is new
  have hinsert : ∀ (d' u' : V) (new : GrantedRole),
      (s.insertMembership d' u' new).memberships d u = some role.toRole →
        d = d' ∧ u = u' ∧ new = role := by
    intro d' u' new hnew
    obtain ⟨rfl, rfl, he⟩ := hset d' u' _ hnew
    refine ⟨rfl, rfl, ?_⟩
    cases hrow : s.memberships d u with
    | none =>
      rw [hrow] at he
      exact GrantedRole.toRole_injective (Option.some.inj he)
    | some old => exact absurd (by simpa [hrow] using he) hold
  unfold write at hw
  split at hw
  · cases hw
    exact absurd hnew hold
  · cases hw
    exact absurd hnew hold
  · cases hw
    exact absurd hnew hold
  · next d' u' new hphase hcall =>
    cases hw
    obtain ⟨rfl, rfl, rfl⟩ := hinsert d' u' new hnew
    exact .addMember hphase hcall
  · next d' t target new hphase hcall =>
    cases hw
    obtain ⟨rfl, rfl, he⟩ := hset d' t _ hnew
    obtain ⟨-, -, he⟩ := Option.map_eq_some_iff.mp he
    obtain rfl := GrantedRole.toRole_injective he
    exact .updateDocumentMemberRole target hphase hcall
  · next d' t target hphase hcall =>
    cases hw
    obtain ⟨-, -, he⟩ := hset d' t none hnew
    cases he
  · obtain ⟨-, hw⟩ := Option.ite_none_right_eq_some.mp hw
    cases hw
    exact absurd hnew hold
  · next d' token hphase hcall =>
    split at hw
    · next d'' new hlink =>
      obtain ⟨rfl, hw⟩ := Option.ite_none_right_eq_some.mp hw
      cases hw
      obtain ⟨rfl, rfl, rfl⟩ := hinsert d'' r.caller new hnew
      exact .claimShareLink token hphase hcall rfl hlink
    · cases hw
  · cases hw

/-- A role below the author's appears in no other step than a statement that gives it. -/
theorem gives_of_step {d u : V} {role : GrantedRole} (hs : step E s a = some s')
    (hold : s.memberships d u ≠ some role.toRole)
    (hnew : s'.memberships d u = some role.toRole) :
    ∃ h fresh r, a = .handle h fresh ∧ s.requests h = some r ∧ Gives s r d u role := by
  cases step_cases hs with
  | create d' title caller =>
    rcases Tables.set_cases s.memberships d' caller (some .author) d u with ⟨-, -, he⟩ | ⟨-, he⟩
    · exact absurd (Option.some.inj (hnew.symm.trans he)) role.toRole_ne_author
    · exact absurd (he.symm.trans hnew) hold
  | handled h fresh r s₁ hr hw =>
    exact ⟨h, fresh, r, rfl, hr, gives_of_write hw hold hnew⟩
  | _ => exact absurd hnew hold

theorem createShareLink_of_step {d token : V} {role : GrantedRole} (hs : step E s a = some s')
    (hold : s.shareLinks token ≠ some (d, role)) (hnew : s'.shareLinks token = some (d, role)) :
    ∃ h r, a = .handle h token ∧ s.requests h = some r ∧ r.phase = .admitted d ∧
      r.call = .createShareLink role := by
  cases step_cases hs with
  | handled h fresh r s₁ hr hw =>
    have hlinks : s₁.shareLinks token = some (d, role) := hnew
    unfold write at hw
    split at hw
    case h_7 d' new hphase hcall =>
      obtain ⟨-, hw⟩ := Option.ite_none_right_eq_some.mp hw
      cases hw
      rcases Tables.update_eq_some.mp hlinks with ⟨rfl, he⟩ | ⟨-, he⟩
      · cases he
        exact ⟨h, r, rfl, hr, hphase, hcall⟩
      · exact absurd he hold
    case h_8 =>
      split at hw
      · obtain ⟨-, hw⟩ := Option.ite_none_right_eq_some.mp hw
        cases hw
        exact absurd hlinks hold
      · cases hw
    case h_9 => cases hw
    all_goals
      cases hw
      exact absurd hlinks hold
  | _ => exact absurd hnew hold

/-- The run `as` comes, after `pre` and in the state `t`, to the statement of the request `r`,
with the value `fresh` for a random uuid, and from the state `t'` after it on to `post`. -/
structure Commits (E : UuidType V) (as pre post : List (DocumentAction V H)) (r : DocumentRequest V)
    (fresh : V) (t t' : DocumentServer V H) : Prop where
  before : Runs.exec (step E) initial pre = some t
  statement : ∃ h, as = pre ++ .handle h fresh :: post ∧ t.requests h = some r ∧
    step E t (.handle h fresh) = some t'

/-- The role goes back to the creator: one of their statements has given it, or the user has
claimed a link that one of their statements had made before. The user has had it ever since. -/
def GrantedBy (E : UuidType V) (as : List (DocumentAction V H)) (creator d u : V)
    (role : GrantedRole) : Prop :=
  ∃ pre post r fresh t t', Commits E as pre post r fresh t t' ∧ Gives t r d u role ∧
    Runs.Follows (step E) (fun w _ => w.memberships d u = some role.toRole) t' post ∧
      (r.caller = creator ∨ ∃ token, r.call = .claimShareLink token ∧ r.caller = u ∧
        ∃ pre' post' q t₁ t₂, Commits E pre pre' post' q token t₁ t₂ ∧ q.caller = creator ∧
          q.phase = .admitted d ∧ q.call = .createShareLink role)

theorem createdBy_step {d : V} {doc : Document V} (hdoc : s.documents d = some doc)
    (hs : step E s a = some s') :
    ∃ new, s'.documents d = some new ∧ new.createdBy = doc.createdBy := by
  cases step_cases hs with
  | create d' title caller hnew =>
    have hne : d ≠ d' := by
      rintro rfl
      simp [hdoc] at hnew
    exact ⟨doc, (Function.update_of_ne hne ..).trans hdoc, rfl⟩
  | handled h fresh r s₁ hr hw =>
    obtain ⟨new, hnew⟩ := (write_cases hw).documents hdoc
    obtain ⟨old, hold, he⟩ := (write_cases hw).creator hnew
    cases hdoc.symm.trans hold
    exact ⟨new, hnew, he.symm⟩
  | _ => exact ⟨doc, hdoc, rfl⟩

theorem createdBy_exec {as : List (DocumentAction V H)} {d : V} {doc : Document V}
    (hdoc : s.documents d = some doc) (he : Runs.exec (step E) s as = some s') :
    ∃ new, s'.documents d = some new ∧ new.createdBy = doc.createdBy := by
  refine Runs.exec_keeps (P := fun t : DocumentServer V H => ∃ new, t.documents d = some new ∧
    new.createdBy = doc.createdBy) ?_ ⟨doc, hdoc, rfl⟩ he
  rintro t a t' ⟨mid, hmid, hc⟩ hs
  obtain ⟨new, hnew, hc'⟩ := createdBy_step hmid hs
  exact ⟨new, hnew, hc'.trans hc⟩

omit [DecidableEq V] [DecidableEq H] in
theorem Vouched.caller (hi : Vouched s) {h : H} {r : DocumentRequest V} {d : V}
    (hr : s.requests h = some r) (hd : r.phase.admitted? = some d) (hauthors : r.call.ForAuthors) :
    ∃ doc, s.documents d = some doc ∧ r.caller = doc.createdBy := by
  obtain ⟨doc, hdoc⟩ := hi.grounded.document h r d hr (RequestPhase.documentId?_of_admitted hd)
  exact ⟨doc, hdoc, (hi.calls h r d hr hd hauthors doc hdoc).symm⟩

theorem link_made {as : List (DocumentAction V H)} {d token : V} {role : GrantedRole}
    (he : Runs.exec (step E) initial as = some s) (hlink : s.shareLinks token = some (d, role)) :
    ∃ doc, s.documents d = some doc ∧ ∃ pre post q t t', Commits E as pre post q token t t' ∧
      q.caller = doc.createdBy ∧ q.phase = .admitted d ∧ q.call = .createShareLink role := by
  obtain ⟨pre, a, post, t, t', rfl, hpre, hold, hs, hnew, -⟩ :=
    Runs.exec_brings (P := fun t => t.shareLinks token = some (d, role)) (by simp [initial])
      hlink he
  obtain ⟨h, q, rfl, hq, hphase, hcall⟩ := createShareLink_of_step hs hold hnew
  have hi : Vouched t := Runs.exec_keeps (fun _ _ _ => vouched_step) vouched_initial hpre
  obtain ⟨doc, hdoc, hcaller⟩ := hi.caller hq (by rw [hphase]; rfl)
    (by rw [hcall]; exact DocumentCall.forAuthors_createShareLink role)
  have hrest : Runs.exec (step E) t (.handle h token :: post) = some s := by
    simpa [Runs.exec_append, hpre] using he
  obtain ⟨new, hnew, hc⟩ := createdBy_exec hdoc hrest
  exact ⟨new, hnew, pre, post, q, t, t', ⟨hpre, h, rfl, hq, hs⟩, hcaller.trans hc.symm, hphase,
    hcall⟩

/-- **Grants**: after every run, the author of a document is who created it, and every other
role in it goes back to a statement of the creator and has not changed hands since. -/
theorem membership_granted (E : UuidType V) (as : List (DocumentAction V H))
    (he : Runs.exec (step E) initial as = some s) (d u : V) :
    (s.memberships d u = some .author → ∃ doc, s.documents d = some doc ∧ u = doc.createdBy) ∧
      ∀ role : GrantedRole, s.memberships d u = some role.toRole →
        ∃ doc, s.documents d = some doc ∧ GrantedBy E as doc.createdBy d u role := by
  have hlast : Vouched s := Runs.exec_keeps (fun _ _ _ => vouched_step) vouched_initial he
  refine ⟨fun hu => ?_, fun role hu => ?_⟩
  · obtain ⟨doc, hdoc⟩ := hlast.grounded.membership d u (by simp [hu])
    exact ⟨doc, hdoc, (hlast.authors d u hu doc hdoc).symm⟩
  obtain ⟨pre, a, post, t, t', rfl, hpre, hold, hs, hnew, hsince⟩ :=
    Runs.exec_brings (P := fun t => t.memberships d u = some role.toRole) (by simp [initial]) hu he
  obtain ⟨h, fresh, r, rfl, hr, hgives⟩ := gives_of_step hs hold hnew
  have hi : Vouched t := Runs.exec_keeps (fun _ _ _ => vouched_step) vouched_initial hpre
  have hrest : Runs.exec (step E) t (.handle h fresh :: post) = some s := by
    simpa [Runs.exec_append, hpre] using he
  have hcommits : Commits E (pre ++ .handle h fresh :: post) pre post r fresh t t' :=
    ⟨hpre, h, rfl, hr, hs⟩
  have hcreator : ∀ hauthors : r.call.ForAuthors, r.phase.admitted? = some d →
      ∃ doc, s.documents d = some doc ∧ r.caller = doc.createdBy := by
    intro hauthors hd
    obtain ⟨doc, hdoc, hcaller⟩ := hi.caller hr hd hauthors
    obtain ⟨new, hnew, hc⟩ := createdBy_exec hdoc hrest
    exact ⟨new, hnew, hcaller.trans hc.symm⟩
  cases hgives with
  | addMember hphase hcall =>
    obtain ⟨doc, hdoc, hcaller⟩ :=
      hcreator (by rw [hcall]; exact DocumentCall.forAuthors_addMember u role) (by rw [hphase]; rfl)
    exact ⟨doc, hdoc, pre, post, r, fresh, t, t', hcommits, .addMember hphase hcall, hsince,
      .inl hcaller⟩
  | updateDocumentMemberRole target hphase hcall =>
    obtain ⟨doc, hdoc, hcaller⟩ := hcreator
      (by rw [hcall]; exact DocumentCall.forAuthors_updateDocumentMemberRole target role)
      (by rw [hphase]; rfl)
    exact ⟨doc, hdoc, pre, post, r, fresh, t, t', hcommits,
      .updateDocumentMemberRole target hphase hcall, hsince, .inl hcaller⟩
  | claimShareLink token hphase hcall hcaller hlink =>
    obtain ⟨mid, hmid, pre', post', q, t₁, t₂, hmade, hby, hq, hqcall⟩ := link_made hpre hlink
    obtain ⟨doc, hdoc, hc⟩ := createdBy_exec hmid hrest
    exact ⟨doc, hdoc, pre, post, r, fresh, t, t', hcommits,
      .claimShareLink token hphase hcall hcaller hlink, hsince,
      .inr ⟨token, hcall, hcaller, pre', post', q, t₁, t₂, hmade, hby.trans hc.symm, hq, hqcall⟩⟩

/-- A creator makes a link for viewers, which another user claims. -/
def claimedLink : List (DocumentAction Bool Unit) :=
  [.createDocument false (js "Draft") true,
    .request () true (twoUuids.text false) (.createShareLink .viewer),
    .documentExistsGuard (), .membershipGuards (), .handle () true,
    .request () false (twoUuids.text false) (.claimShareLink true),
    .documentExistsGuard (), .membershipGuards (), .handle () false]

theorem membership_granted_claimedLink :
    ∃ s, Runs.exec (step twoUuids) initial claimedLink = some s ∧
      ∃ doc, s.documents false = some doc ∧
        GrantedBy twoUuids claimedLink doc.createdBy false false .viewer := by
  obtain ⟨s, hs, hviewer⟩ := (Option.any_eq_true _ _).mp
    (show (Runs.exec (step twoUuids) initial claimedLink).any (fun s =>
      (s.memberships false false = some .viewer : Bool)) = true by
        decide +kernel)
  exact ⟨s, hs, (membership_granted twoUuids claimedLink hs false false).2 .viewer
    (of_decide_eq_true hviewer)⟩

end DocumentServer

end Meridian
