import Meridian.Lib.Runs
import Meridian.Lib.Tables
import Mathlib

/-! Memberships and the sockets that act on them. A join reads the membership once; what the
socket may do is decided by that reading for the rest of its life, while roles, memberships
and documents change on another path. So nothing is written or shown without a right exactly
as long as nobody loses a right that a socket still holds. -/
namespace Meridian

inductive Role
  | author | editor | viewer
  deriving DecidableEq

/-- A join that has not entered the room. `granted` has read the membership. -/
inductive AccessPhase (D K : Type)
  | authorizing (socket : K) (documentId : D)
  | granted (socket : K) (documentId : D) (role : Role)

structure UpdateCall (D K : Type) where
  socket : K
  documentId : D

/-- Documents `D`, users `U`, sockets `K` over all instances, and handlers `H`. `roomsMap`
joins the rooms of all instances; `role` and `documentId` are what a join has left in
`client.user`. -/
structure Collaboration (D U K H : Type) where
  memberships : D → U → Option Role
  deleted : D → Bool
  isOpen : K → Bool
  role : K → Option Role
  documentId : K → Option D
  roomsMap : D → K → Bool
  joins : H → Option (AccessPhase D K)
  updates : H → Option (UpdateCall D K)
  committed : List (D × U)

/-- `relay` sends a committed update of the document to one socket of its room. -/
inductive CollaborationAction (D U K H : Type)
  | addMember (documentId : D) (userId : U) (role : Role)
  | updateMemberRole (documentId : D) (userId : U) (role : Role)
  | removeMember (documentId : D) (userId : U)
  | deleteDocument (documentId : D)
  | connect (socket : K)
  | handleJoin (handler : H) (socket : K) (documentId : D)
  | getUserDocumentMembership (handler : H)
  | enterRoom (handler : H)
  | handleUpdate (handler : H) (socket : K)
  | commit (handler : H)
  | rollback (handler : H)
  | relay (documentId : D) (socket : K)
  | handleDisconnect (socket : K)

namespace Collaboration

variable {D U K H : Type} (userOf : K → U)

/-- No socket has connected; memberships and documents are whatever they are. -/
def Initial (s : Collaboration D U K H) : Prop :=
  (∀ k, s.isOpen k = false) ∧ (∀ k, s.documentId k = none) ∧ (∀ d k, s.roomsMap d k = false) ∧
    (∀ h, s.joins h = none) ∧ (∀ h, s.updates h = none) ∧ s.committed = []

def setMembership [DecidableEq D] [DecidableEq U] (s : Collaboration D U K H) (d : D) (u : U)
    (role : Option Role) : Collaboration D U K H :=
  { s with memberships := Tables.set s.memberships d u role }

def setJoin [DecidableEq H] (s : Collaboration D U K H) (h : H)
    (join : Option (AccessPhase D K)) : Collaboration D U K H :=
  { s with joins := Function.update s.joins h join }

def setUpdate [DecidableEq H] (s : Collaboration D U K H) (h : H)
    (call : Option (UpdateCall D K)) : Collaboration D U K H :=
  { s with updates := Function.update s.updates h call }

def setRoom [DecidableEq D] [DecidableEq K] (s : Collaboration D U K H) (d : D) (k : K)
    (inRoom : Bool) : Collaboration D U K H :=
  { s with roomsMap := Tables.set s.roomsMap d k inRoom }

def step [DecidableEq D] [DecidableEq U] [DecidableEq K] [DecidableEq H]
    (s : Collaboration D U K H) : CollaborationAction D U K H → Option (Collaboration D U K H)
  | .addMember d u role =>
    if (s.memberships d u).isNone then some (s.setMembership d u (some role)) else none
  | .updateMemberRole d u role =>
    if (s.memberships d u).isSome then some (s.setMembership d u (some role)) else none
  | .removeMember d u => some (s.setMembership d u none)
  | .deleteDocument d => some { s with deleted := Function.update s.deleted d true }
  | .connect k =>
    if (s.documentId k).isNone then some { s with isOpen := Function.update s.isOpen k true }
    else none
  | .handleJoin h k d =>
    if s.isOpen k ∧ (s.joins h).isNone then some (s.setJoin h (some (.authorizing k d))) else none
  | .getUserDocumentMembership h =>
    match s.joins h with
    | some (.authorizing k d) =>
      some (s.setJoin h ((s.memberships d (userOf k)).map fun role => .granted k d role))
    | _ => none
  | .enterRoom h =>
    match s.joins h with
    | some (.granted k d role) =>
      some { (s.setJoin h none).setRoom d k true with
        role := Function.update s.role k (some role)
        documentId := Function.update s.documentId k (some d) }
    | _ => none
  | .handleUpdate h k =>
    if s.isOpen k ∧ (s.updates h).isNone then
      if s.role k = some .viewer then some s
      else
        match s.documentId k with
        | none => some s
        | some d => some (s.setUpdate h (some ⟨k, d⟩))
    else none
  | .commit h =>
    (s.updates h).map fun call =>
      { s.setUpdate h none with
        committed := s.committed ++ [(call.documentId, userOf call.socket)] }
  | .rollback h => (s.updates h).map fun _ => s.setUpdate h none
  | .relay d k =>
    if s.roomsMap d k ∧ s.isOpen k ∧ ∃ row ∈ s.committed, row.1 = d then some s else none
  | .handleDisconnect k =>
    if s.isOpen k then
      let t := { s with isOpen := Function.update s.isOpen k false }
      match s.documentId k with
      | none => some t
      | some d => some (t.setRoom d k false)
    else none

def CanWrite (s : Collaboration D U K H) (d : D) (u : U) : Prop :=
  (s.memberships d u = some .author ∨ s.memberships d u = some .editor) ∧ s.deleted d = false

/-- A row is committed for a user who may write to its document, and an update is relayed to
the socket of a member. -/
def Authorized (s : Collaboration D U K H) : CollaborationAction D U K H → Prop
  | .commit h => ∀ call ∈ s.updates h, CanWrite s call.documentId (userOf call.socket)
  | .relay d k => s.memberships d (userOf k) ≠ none
  | _ => True

def HoldsWrite (s : Collaboration D U K H) (d : D) (u : U) : Prop :=
  (∃ k, userOf k = u ∧ s.isOpen k = true ∧ s.documentId k = some d ∧ s.role k ≠ some .viewer) ∨
    (∃ h k role, userOf k = u ∧ s.joins h = some (.granted k d role) ∧ role ≠ .viewer) ∨
    ∃ h call, s.updates h = some call ∧ userOf call.socket = u ∧ call.documentId = d

def HoldsRead (s : Collaboration D U K H) (d : D) (u : U) : Prop :=
  (∃ k, userOf k = u ∧ s.isOpen k = true ∧ s.roomsMap d k = true) ∨
    ∃ h k role, userOf k = u ∧ s.joins h = some (.granted k d role)

/-- Nobody loses a right that is still held, and nobody is given one by a join on a document
that has been deleted. -/
def SparesHolders (s : Collaboration D U K H) : CollaborationAction D U K H → Prop
  | .updateMemberRole d u role => role = .viewer → ¬ HoldsWrite userOf s d u
  | .removeMember d u => ¬ HoldsWrite userOf s d u ∧ ¬ HoldsRead userOf s d u
  | .deleteDocument d => ∀ u, ¬ HoldsWrite userOf s d u
  | .getUserDocumentMembership h => ∀ k d, s.joins h = some (.authorizing k d) →
    s.deleted d = true → ∀ role ∈ s.memberships d (userOf k), role = .viewer
  | _ => True

/-- Every right that is held is one that the user has; a socket in a room has joined. -/
structure Entitled (s : Collaboration D U K H) : Prop where
  write : ∀ d u, HoldsWrite userOf s d u → CanWrite s d u
  read : ∀ d u, HoldsRead userOf s d u → s.memberships d u ≠ none
  joined : ∀ d k, s.roomsMap d k = true → s.documentId k ≠ none

variable {userOf} {s t : Collaboration D U K H}

/-- While nobody's rights change, only a right that the user has may be held anew. -/
theorem Entitled.next (hs : Entitled userOf s) (hmemberships : t.memberships = s.memberships)
    (hdeleted : t.deleted = s.deleted)
    (hwrite : ∀ d u, HoldsWrite userOf t d u → HoldsWrite userOf s d u ∨ CanWrite s d u)
    (hread : ∀ d u, HoldsRead userOf t d u →
      HoldsRead userOf s d u ∨ s.memberships d u ≠ none)
    (hjoined : ∀ d k, t.roomsMap d k = true → t.documentId k ≠ none) : Entitled userOf t where
  write d u h := by
    unfold CanWrite
    rw [hmemberships, hdeleted]
    exact (hwrite d u h).elim (hs.write d u) id
  read d u h := by
    rw [hmemberships]
    exact (hread d u h).elim (hs.read d u) id
  joined := hjoined

theorem Entitled.setMembership [DecidableEq D] [DecidableEq U] (hs : Entitled userOf s) {d : D}
    {u : U} {role : Option Role}
    (hwrite : HoldsWrite userOf s d u → role = some .author ∨ role = some .editor)
    (hread : HoldsRead userOf s d u → role ≠ none) :
    Entitled userOf (s.setMembership d u role) where
  write d' u' h := by
    have hold : HoldsWrite userOf s d' u' := h
    obtain ⟨hrole, hdeleted⟩ := hs.write d' u' hold
    refine ⟨?_, hdeleted⟩
    by_cases hsame : d' = d ∧ u' = u
    · obtain ⟨rfl, rfl⟩ := hsame
      simpa [Collaboration.setMembership] using hwrite hold
    · simpa [Collaboration.setMembership, Tables.set_of_ne _ _ hsame] using hrole
  read d' u' h := by
    have hold : HoldsRead userOf s d' u' := h
    by_cases hsame : d' = d ∧ u' = u
    · obtain ⟨rfl, rfl⟩ := hsame
      simpa [Collaboration.setMembership] using hread hold
    · simpa [Collaboration.setMembership, Tables.set_of_ne _ _ hsame] using hs.read d' u' hold
  joined := hs.joined

theorem Entitled.setJoin [DecidableEq H] (hs : Entitled userOf s) {h : H}
    {join : Option (AccessPhase D K)}
    (hjoin : ∀ k d role, join = some (.granted k d role) →
      s.memberships d (userOf k) ≠ none ∧ (role ≠ .viewer → CanWrite s d (userOf k))) :
    Entitled userOf (s.setJoin h join) := by
  have hcases {h' : H} {x : AccessPhase D K} (hx : (s.setJoin h join).joins h' = some x) :
      s.joins h' = some x ∨ join = some x := by
    by_cases hh : h' = h
    · subst hh
      exact .inr (by simpa [Collaboration.setJoin] using hx)
    · exact .inl (by simpa [Collaboration.setJoin, hh] using hx)
  refine hs.next rfl rfl (fun d u hold => ?_) (fun d u hold => ?_) hs.joined
  · rcases hold with hsocket | ⟨h', k, role, rfl, hgranted, hrole⟩ | hupdate
    · exact .inl (.inl hsocket)
    · rcases hcases hgranted with hbefore | hnow
      · exact .inl (.inr (.inl ⟨h', k, role, rfl, hbefore, hrole⟩))
      · exact .inr ((hjoin k d role hnow).2 hrole)
    · exact .inl (.inr (.inr hupdate))
  · rcases hold with hsocket | ⟨h', k, role, rfl, hgranted⟩
    · exact .inl (.inl hsocket)
    · rcases hcases hgranted with hbefore | hnow
      · exact .inl (.inr ⟨h', k, role, rfl, hbefore⟩)
      · exact .inr (hjoin k d role hnow).1

theorem Entitled.setUpdate [DecidableEq H] (hs : Entitled userOf s) {h : H}
    {call : Option (UpdateCall D K)}
    (hcall : ∀ c ∈ call, CanWrite s c.documentId (userOf c.socket)) :
    Entitled userOf (s.setUpdate h call) := by
  refine hs.next rfl rfl (fun d u hold => ?_) (fun _ _ => .inl) hs.joined
  rcases hold with hsocket | hjoin | ⟨h', c, hc, rfl, rfl⟩
  · exact .inl (.inl hsocket)
  · exact .inl (.inr (.inl hjoin))
  · by_cases hh : h' = h
    · subst hh
      exact .inr (hcall c (by simpa [Collaboration.setUpdate] using hc))
    · exact .inl (.inr (.inr ⟨h', c, by simpa [Collaboration.setUpdate, hh] using hc, rfl, rfl⟩))

theorem setRoom_cases [DecidableEq D] [DecidableEq K] {d d' : D} {k k' : K} {inRoom : Bool}
    (h : (s.setRoom d k inRoom).roomsMap d' k' = true) :
    (d' = d ∧ k' = k ∧ inRoom = true) ∨ s.roomsMap d' k' = true := by
  rcases Tables.set_cases s.roomsMap d k inRoom d' k' with ⟨hd, hk, hself⟩ | ⟨-, hother⟩
  · exact .inl ⟨hd, hk, hself ▸ h⟩
  · exact .inr (hother ▸ h)

section Steps

variable [DecidableEq D] [DecidableEq U] [DecidableEq K] [DecidableEq H]

theorem Entitled.enterRoom (hs : Entitled userOf s) {h : H}
    (hstep : step userOf s (.enterRoom h) = some t) : Entitled userOf t := by
  unfold step at hstep
  dsimp only at hstep
  split at hstep
  · next k d role hgranted =>
    cases hstep
    have hjoins {h' : H} {x : AccessPhase D K}
        (hx : Function.update s.joins h none h' = some x) : s.joins h' = some x := by
      by_cases hh : h' = h
      · simp [hh] at hx
      · simpa [hh] using hx
    refine hs.next rfl rfl (fun d' u hold => ?_) (fun d' u hold => ?_) fun d' k' hroom => ?_
    · rcases hold with ⟨k', rfl, hopen, hdocument, hrole⟩ | ⟨h', k', role', rfl, hgranted', hrole⟩ |
        hupdate
      · by_cases hk : k' = k
        · subst hk
          simp only [Function.update_self, Option.some.injEq] at hdocument
          simp only [Function.update_self, ne_eq, Option.some.injEq] at hrole
          subst hdocument
          exact .inl (.inr (.inl ⟨h, k', role, rfl, hgranted, hrole⟩))
        · simp only [Function.update_of_ne hk] at hdocument hrole
          exact .inl (.inl ⟨k', rfl, hopen, hdocument, hrole⟩)
      · exact .inl (.inr (.inl ⟨h', k', role', rfl, hjoins hgranted', hrole⟩))
      · exact .inl (.inr (.inr hupdate))
    · rcases hold with ⟨k', rfl, hopen, hroom⟩ | ⟨h', k', role', rfl, hgranted'⟩
      · rcases setRoom_cases hroom with ⟨rfl, rfl, -⟩ | hbefore
        · exact .inl (.inr ⟨h, k', role, rfl, hgranted⟩)
        · exact .inl (.inl ⟨k', rfl, hopen, hbefore⟩)
      · exact .inl (.inr ⟨h', k', role', rfl, hjoins hgranted'⟩)
    · by_cases hk : k' = k
      · simp [hk]
      · simp only [Function.update_of_ne hk]
        rcases setRoom_cases hroom with ⟨-, rfl, -⟩ | hbefore
        · exact (hk rfl).elim
        · exact hs.joined d' k' hbefore
  · cases hstep

theorem Entitled.connect (hs : Entitled userOf s) {k : K}
    (hstep : step userOf s (.connect k) = some t) : Entitled userOf t := by
  obtain ⟨hfresh, hstep⟩ := Option.ite_none_right_eq_some.mp hstep
  cases hstep
  have hno : s.documentId k = none := Option.isNone_iff_eq_none.mp hfresh
  refine hs.next rfl rfl (fun d u hold => .inl ?_) (fun d u hold => .inl ?_) hs.joined
  · rcases hold with ⟨k', rfl, hopen, hdocument, hrole⟩ | hrest
    · have hk : k' ≠ k := by
        rintro rfl
        rw [hno] at hdocument
        cases hdocument
      exact .inl ⟨k', rfl, by simpa [hk] using hopen, hdocument, hrole⟩
    · exact .inr hrest
  · rcases hold with ⟨k', rfl, hopen, hroom⟩ | hrest
    · have hk : k' ≠ k := by
        rintro rfl
        exact hs.joined d k' hroom hno
      exact .inl ⟨k', rfl, by simpa [hk] using hopen, hroom⟩
    · exact .inr hrest

theorem Entitled.getUserDocumentMembership (hs : Entitled userOf s) {h : H}
    (hok : SparesHolders userOf s (.getUserDocumentMembership h))
    (hstep : step userOf s (.getUserDocumentMembership h) = some t) : Entitled userOf t := by
  unfold Collaboration.step at hstep
  dsimp only at hstep
  split at hstep
  · next k d hjoin =>
    cases hstep
    refine hs.setJoin fun k' d' role hgranted => ?_
    obtain ⟨role', hmember, heq⟩ := Option.map_eq_some_iff.mp hgranted
    cases heq
    refine ⟨by simp [hmember], fun hrole => ⟨?_, ?_⟩⟩
    · cases role with
      | author => exact .inl hmember
      | editor => exact .inr hmember
      | viewer => exact (hrole rfl).elim
    · cases hdeleted : s.deleted d with
      | false => rfl
      | true => exact (hrole (hok k d hjoin hdeleted role hmember)).elim
  · cases hstep

theorem Entitled.handleDisconnect (hs : Entitled userOf s) {k : K}
    (hstep : step userOf s (.handleDisconnect k) = some t) : Entitled userOf t := by
  obtain ⟨-, hstep⟩ := Option.ite_none_right_eq_some.mp hstep
  have hclosed : Entitled userOf { s with isOpen := Function.update s.isOpen k false } := by
    refine hs.next rfl rfl (fun d u hold => .inl ?_) (fun d u hold => .inl ?_) hs.joined
    · rcases hold with ⟨k', rfl, hopen, hrest⟩ | hrest
      · by_cases hk : k' = k
        · simp [hk] at hopen
        · exact .inl ⟨k', rfl, by simpa [hk] using hopen, hrest⟩
      · exact .inr hrest
    · rcases hold with ⟨k', rfl, hopen, hroom⟩ | hrest
      · by_cases hk : k' = k
        · simp [hk] at hopen
        · exact .inl ⟨k', rfl, by simpa [hk] using hopen, hroom⟩
      · exact .inr hrest
  split at hstep
  · cases hstep
    exact hclosed
  · next d _ =>
    cases hstep
    have hroom {d' : D} {k' : K}
        (h : (setRoom { s with isOpen := Function.update s.isOpen k false } d k false).roomsMap
          d' k' = true) : s.roomsMap d' k' = true :=
      (setRoom_cases h).resolve_left (by simp)
    refine hclosed.next rfl rfl (fun _ _ => .inl) (fun d' u hold => .inl ?_)
      fun d' k' h => hs.joined d' k' (hroom h)
    rcases hold with ⟨k', rfl, hopen, hin⟩ | hrest
    · exact .inl ⟨k', rfl, hopen, hroom hin⟩
    · exact .inr hrest

theorem Entitled.step {a : CollaborationAction D U K H} (hs : Entitled userOf s)
    (hok : SparesHolders userOf s a) (hstep : step userOf s a = some t) : Entitled userOf t := by
  cases a with
  | addMember d u role =>
    obtain ⟨hnone, hstep⟩ := Option.ite_none_right_eq_some.mp hstep
    cases hstep
    have hno : s.memberships d u = none := Option.isNone_iff_eq_none.mp hnone
    refine hs.setMembership (fun hold => ?_) (fun _ => Option.some_ne_none role)
    have := (hs.write d u hold).1
    simp [hno] at this
  | updateMemberRole d u role =>
    obtain ⟨-, hstep⟩ := Option.ite_none_right_eq_some.mp hstep
    cases hstep
    refine hs.setMembership (fun hold => ?_) (fun _ => Option.some_ne_none role)
    cases role with
    | author => exact .inl rfl
    | editor => exact .inr rfl
    | viewer => exact (hok rfl hold).elim
  | removeMember d u =>
    cases hstep
    exact hs.setMembership (fun hold => (hok.1 hold).elim) fun hold => (hok.2 hold).elim
  | deleteDocument d =>
    cases hstep
    refine ⟨fun d' u hold => ?_, hs.read, hs.joined⟩
    obtain ⟨hrole, hdeleted⟩ := hs.write d' u hold
    refine ⟨hrole, ?_⟩
    by_cases hd : d' = d
    · subst hd
      exact (hok u hold).elim
    · simpa [hd] using hdeleted
  | connect k => exact hs.connect hstep
  | handleJoin h k d =>
    obtain ⟨-, hstep⟩ := Option.ite_none_right_eq_some.mp hstep
    cases hstep
    exact hs.setJoin (by simp)
  | getUserDocumentMembership h => exact hs.getUserDocumentMembership hok hstep
  | enterRoom h => exact hs.enterRoom hstep
  | handleUpdate h k =>
    obtain ⟨⟨hopen, -⟩, hstep⟩ := Option.ite_none_right_eq_some.mp hstep
    split at hstep
    · cases hstep
      exact hs
    · next hrole =>
      split at hstep
      · cases hstep
        exact hs
      · next d hdocument =>
        cases hstep
        refine hs.setUpdate fun call hcall => ?_
        cases hcall
        exact hs.write d _ (.inl ⟨k, rfl, hopen, hdocument, hrole⟩)
  | commit h =>
    obtain ⟨call, -, rfl⟩ := Option.map_eq_some_iff.mp hstep
    have hnext : Entitled userOf (s.setUpdate h none) := hs.setUpdate (by simp)
    exact ⟨hnext.write, hnext.read, hnext.joined⟩
  | rollback h =>
    obtain ⟨call, -, rfl⟩ := Option.map_eq_some_iff.mp hstep
    exact hs.setUpdate (by simp)
  | relay d k =>
    obtain ⟨-, hstep⟩ := Option.ite_none_right_eq_some.mp hstep
    cases hstep
    exact hs
  | handleDisconnect k => exact hs.handleDisconnect hstep

/-- In every run in which nobody loses a right that is still held, every row is committed for
a user who may write, and every update is relayed to a member. -/
theorem authorized_of_reach {a : CollaborationAction D U K H}
    (h : Runs.Reach (step userOf) Initial (SparesHolders userOf) s)
    (hstep : step userOf s a = some t) : Authorized userOf s a := by
  have hs : Entitled userOf s := by
    refine h.invariant (fun s hinit => ?_) fun s a t hs hok hstep => hs.step hok hstep
    obtain ⟨hopen, -, hrooms, hjoins, hupdates, -⟩ := hinit
    refine ⟨fun d u hold => ?_, fun d u hold => ?_, fun d k hroom => ?_⟩
    · rcases hold with ⟨k, -, hk, -⟩ | ⟨h, k, role, -, hj, -⟩ | ⟨h, call, hc, -⟩
      · simp [hopen] at hk
      · simp [hjoins] at hj
      · simp [hupdates] at hc
    · rcases hold with ⟨k, -, hk, -⟩ | ⟨h, k, role, -, hj⟩
      · simp [hopen] at hk
      · simp [hjoins] at hj
    · simp [hrooms] at hroom
  cases a with
  | commit h => exact fun call hcall => hs.write _ _ (.inr (.inr ⟨h, call, hcall, rfl, rfl⟩))
  | relay d k =>
    obtain ⟨⟨hroom, hopen, -⟩, -⟩ := Option.ite_none_right_eq_some.mp hstep
    exact hs.read d _ (.inl ⟨k, rfl, hopen, hroom⟩)
  | addMember _ _ _ | updateMemberRole _ _ _ | removeMember _ _ | deleteDocument _ | connect _
  | handleJoin _ _ _ | getUserDocumentMembership _ | enterRoom _ | handleUpdate _ _ | rollback _
  | handleDisconnect _ => trivial

end Steps

def oneEditor : Collaboration Unit Unit Unit Unit where
  memberships _ _ := some .editor
  deleted _ := false
  isOpen _ := false
  role _ := none
  documentId _ := none
  roomsMap _ _ := false
  joins _ := none
  updates _ := none
  committed := []

theorem oneEditor_initial : Initial oneEditor :=
  ⟨fun _ => rfl, fun _ => rfl, fun _ _ => rfl, fun _ => rfl, fun _ => rfl, rfl⟩

def editorJoins : List (CollaborationAction Unit Unit Unit Unit) :=
  [.connect (), .handleJoin () () (), .getUserDocumentMembership (), .enterRoom ()]

theorem authorized_editorJoins : ∃ s t : Collaboration Unit Unit Unit Unit,
    Runs.exec (step id) oneEditor (editorJoins ++ [.handleUpdate () ()]) = some s ∧
      step id s (.commit ()) = some t ∧ Authorized id s (.commit ()) := by
  obtain ⟨s, t, hs, ht⟩ : ∃ s t : Collaboration Unit Unit Unit Unit,
      Runs.exec (step id) oneEditor (editorJoins ++ [.handleUpdate () ()]) = some s ∧
        step id s (.commit ()) = some t := ⟨_, _, rfl, rfl⟩
  have hfollows : Runs.Follows (step id) (SparesHolders id) oneEditor
      (editorJoins ++ [.handleUpdate () ()]) := by
    refine ⟨trivial, fun _ hu => ⟨trivial, fun _ hv => ⟨fun _ _ _ hdeleted => ?_, fun _ _ =>
      ⟨trivial, fun _ _ => ⟨trivial, fun _ _ => trivial⟩⟩⟩⟩⟩
    cases hu
    cases hv
    cases hdeleted
  exact ⟨s, t, hs, ht, authorized_of_reach
    (Runs.Reach.exec (.start oneEditor_initial) hfollows hs) ht⟩

/-- A removed member goes on writing. -/
theorem authorized_fails : ¬ ∀ s t : Collaboration Unit Unit Unit Unit,
    Runs.Reachable (step id) Initial s → step id s (.commit ()) = some t →
    Authorized id s (.commit ()) := by
  intro h
  have hreach : Runs.Reachable (S := Collaboration Unit Unit Unit Unit) (step id) Initial _ :=
    Runs.reachable_exec oneEditor_initial (show Runs.exec (step id) oneEditor
      (editorJoins ++ [.removeMember () (), .handleUpdate () ()]) = some _ from rfl)
  have hwrite := h _ _ hreach rfl ⟨(), ()⟩ rfl
  exact absurd hwrite.1 (by decide)

end Collaboration

end Meridian
