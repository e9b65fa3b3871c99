import Meridian.RoomMachine
import Meridian.Lib.Tables

/-! What the other members of a document are told of one user's presence. The count in redis
changes in one command; what is to be told of it is sent some awaits later, to the room of the
handler's own instance directly and to the rooms of the others over redis. The rooms and the
listeners are those of `Channel`, one for each instance. -/
namespace Meridian

/-- The room that a disconnect has captured. -/
def Handler.leaving? : Handler → Option ℕ
  | .leaving room => some room
  | _ => none

inductive PresenceStatus
  | online | offline
  deriving DecidableEq

/-- A presence frame about the user. Announcements are numbered in the order of the changes of
the count that they are about; the number is kept for the statements. -/
structure Announcement where
  number : ℕ
  status : PresenceStatus
  deriving DecidableEq

/-- Where a handler of one of the user's tabs stands with the count. `naming` is to announce a
first connection once it has the name, `left` a last one; `publishing` has sent to the room of
its instance. `counted` has nothing to announce any more. -/
inductive TabPhase
  | leaving
  | naming (socket : ℕ) (a : Announcement)
  | left (a : Announcement)
  | publishing (a : Announcement)
  | counted
  deriving DecidableEq

namespace TabPhase

def isDone : Option TabPhase → Bool
  | none | some .counted => true
  | _ => false

/-- The announcement that the handler has still to send to a room of its own instance, or to one
of another instance. -/
def outgoing? (elsewhere : Bool) : TabPhase → Option Announcement
  | .naming _ a | .left a => some a
  | .publishing a => if elsewhere then some a else none
  | _ => none

theorem outgoing?_of_isDone {p : Option TabPhase} (hdone : isDone p = true)
    (elsewhere : Bool) : p.bind (outgoing? elsewhere) = none := by
  cases p with
  | none => rfl
  | some p =>
    cases p with
    | counted => rfl
    | _ => cases hdone

end TabPhase

/-- Instances `I` and handlers `H`. `frames` are the published announcements that redis has still
to deliver to an instance; `lastReceived` is what a socket was last sent of the user since it is
in the room. -/
structure UserPresence (I H : Type) where
  channels : I → Channel H
  count : ℕ
  phases : I → H → Option TabPhase
  frames : I → List Announcement
  announced : ℕ
  lastReceived : I → ℕ → Option Announcement

/-- `channel` is a step of a handler with its room and its channels; `presenceJoin` and
`presenceLeave` are the commands in redis, whose replies the handler sees later. -/
inductive UserPresenceAction (I H : Type)
  | channel (serverInstance : I) (a : ChannelAction H)
  | presenceJoin (serverInstance : I) (handler : H)
  | presenceLeave (serverInstance : I) (handler : H)
  | broadcastPresence (serverInstance : I) (handler : H)
  | publish (serverInstance : I) (handler : H)
  | relay (serverInstance : I)

namespace UserPresence

variable {I H : Type} [DecidableEq I] [DecidableEq H] (isTab : I → ℕ → Bool)

def initial : UserPresence I H where
  channels _ := Channel.initial
  count := 0
  phases _ _ := none
  frames _ := []
  announced := 0
  lastReceived _ _ := none

def setPhase (s : UserPresence I H) (i : I) (h : H) (p : Option TabPhase) : UserPresence I H :=
  { s with phases := Tables.set s.phases i h p }

/-- The handler of a tab waits for the reply about the count, and then until it has announced
what it has to. -/
def resumes (s : UserPresence I H) (i : I) : ChannelAction H → Bool
  | .presenceJoin h =>
    match (s.channels i).handlers h with
    | some (.counting k) => !isTab i k || (s.phases i h).isSome
    | _ => true
  | .handleDisconnect h _ => (s.phases i h).isNone
  | .presenceLeave h | .finish h => TabPhase.isDone (s.phases i h)
  | _ => true

/-- The count is taken away again only for a tab that was counted, which is `leaving` then. -/
def phasesAfter (s : UserPresence I H) (i : I) (c : Channel H) :
    ChannelAction H → I → H → Option TabPhase
  | .handleDisconnect h k =>
    if isTab i k && ((c.handlers h).bind Handler.leaving?).isSome then
      Tables.set s.phases i h (some .leaving)
    else s.phases
  | .finish h => Tables.set s.phases i h none
  | _ => s.phases

def setChannel (s : UserPresence I H) (i : I) (a : ChannelAction H) (c : Channel H) :
    UserPresence I H :=
  { s with
    channels := Function.update s.channels i c
    phases := s.phasesAfter isTab i c a
    lastReceived := Function.update s.lastReceived i fun k =>
      if k ∈ (s.channels i).sockets then s.lastReceived i k else none }

def announce (s : UserPresence I H) (i : I) (h : H) (n : ℕ) (status : PresenceStatus)
    (phase : Announcement → TabPhase) : UserPresence I H :=
  { s.setPhase i h (some (phase ⟨s.announced + 1, status⟩)) with
    count := n
    announced := s.announced + 1 }

def receive (s : UserPresence I H) (i : I) (room : Finset ℕ) (a : Announcement) :
    UserPresence I H :=
  { s with
    lastReceived := Function.update s.lastReceived i fun k =>
      if k ∈ room then some a else s.lastReceived i k }

def step (s : UserPresence I H) : UserPresenceAction I H → Option (UserPresence I H)
  | .channel i a =>
    if s.resumes isTab i a then (Channel.step (s.channels i) a).map (s.setChannel isTab i a)
    else none
  | .presenceJoin i h =>
    match (s.channels i).handlers h, s.phases i h with
    | some (.counting k), none =>
      if isTab i k then
        some (if s.count + 1 = 1 then s.announce i h (s.count + 1) .online (.naming k)
          else { s.setPhase i h (some .counted) with count := s.count + 1 })
      else none
    | _, _ => none
  | .presenceLeave i h =>
    match s.phases i h with
    | some .leaving =>
      some (if s.count - 1 = 0 then s.announce i h (s.count - 1) .offline .left
        else { s.setPhase i h (some .counted) with count := s.count - 1 })
    | _ => none
  | .broadcastPresence i h =>
    match s.phases i h, (s.channels i).handlers h with
    | some (.naming k a), some .returning =>
      some ((s.receive i ((s.channels i).sockets.erase k) a).setPhase i h (some (.publishing a)))
    | some (.left a), some (.leaving room) =>
      some ((s.receive i ((s.channels i).rooms room) a).setPhase i h (some (.publishing a)))
    | _, _ => none
  | .publish i h =>
    match s.phases i h with
    | some (.publishing a) =>
      -- an instance drops the frames that it has published itself
      some { s.setPhase i h (some .counted) with
        frames := fun j =>
          if j ≠ i ∧ (s.channels j).presenceListeners ≠ 0 then s.frames j ++ [a]
          else s.frames j }
    | _ => none
  | .relay i =>
    match s.frames i with
    | a :: rest =>
      let t := { s with frames := Function.update s.frames i rest }
      some (if (s.channels i).presenceListeners = 0 then t
        else t.receive i (s.channels i).sockets a)
    | [] => none

def Delivered (s : UserPresence I H) : Prop :=
  (∀ i, (s.channels i).Settled) ∧ (∀ i h, s.phases i h = none) ∧ ∀ i, s.frames i = []

/-- Another user's socket that is in the room and was ever told of the user was last told
whether the user is connected. -/
def Agrees (s : UserPresence I H) : Prop :=
  ∀ i k a, k ∈ (s.channels i).sockets → isTab i k = false → s.lastReceived i k = some a →
    (a.status = .online ↔ 1 ≤ s.count)

def Watched (s : UserPresence I H) (i : I) : Prop :=
  ∃ k ∈ (s.channels i).sockets, isTab i k = false

/-- What a handler has still to send, to its own instance's room or to one elsewhere. -/
def sending (s : UserPresence I H) (elsewhere : Bool) (i : I) (h : H) : Option Announcement :=
  (s.phases i h).bind (TabPhase.outgoing? elsewhere)

def OnItsWay (s : UserPresence I H) (i : I) (n : ℕ) : Prop :=
  (∃ j h, ∃ a ∈ s.sending (j ≠ i) j h, a.number = n) ∨ ∃ a ∈ s.frames i, a.number = n

def Newest (s : UserPresence I H) (i : I) (n : ℕ) : Prop :=
  ∀ m ≤ s.announced, n < m → s.OnItsWay i m

/-- No announcement overtakes another on the way to a room with other users in it, and none is
lost: the room is the one that a disconnect has captured, and its instance listens. -/
def InOrder (s : UserPresence I H) : UserPresenceAction I H → Prop
  | .broadcastPresence i h => s.Watched isTab i →
    (∀ a ∈ s.sending false i h, s.Newest i a.number) ∧
      ∀ room ∈ ((s.channels i).handlers h).bind Handler.leaving?,
        (s.channels i).roomsMap = some room
  | .publish i _ => ∀ j, j ≠ i → s.Watched isTab j → (s.channels j).presenceListeners ≠ 0
  | .relay i => s.Watched isTab i → (s.channels i).presenceListeners ≠ 0 ∧
    ∀ a ∈ (s.frames i).head?, s.Newest i a.number
  | _ => True

variable {isTab} {s t : UserPresence I H}

/-- What a step can do. A count that changes without an announcement stays above zero. -/
inductive StepCase (isTab : I → ℕ → Bool) (s : UserPresence I H) :
    UserPresenceAction I H → UserPresence I H → Prop
  | channel (i : I) (a : ChannelAction H) (c : Channel H) (hresumes : s.resumes isTab i a = true) :
      StepCase isTab s (.channel i a) (s.setChannel isTab i a c)
  | count (act : UserPresenceAction I H) (i : I) (h : H) (n : ℕ)
      (hphase : ∀ elsewhere, s.sending elsewhere i h = none)
      (hold : 0 < s.count) (hnew : 0 < n) :
      StepCase isTab s act { s.setPhase i h (some .counted) with count := n }
  | online (act : UserPresenceAction I H) (i : I) (h : H) (k : ℕ) (htab : isTab i k = true)
      (hphase : ∀ elsewhere, s.sending elsewhere i h = none) :
      StepCase isTab s act (s.announce i h (s.count + 1) .online (.naming k))
  | offline (act : UserPresenceAction I H) (i : I) (h : H) (n : ℕ) (hzero : n = 0)
      (hphase : ∀ elsewhere, s.sending elsewhere i h = none) :
      StepCase isTab s act (s.announce i h n .offline .left)
  | broadcastOnline (i : I) (h : H) (k : ℕ) (a : Announcement)
      (hphase : s.phases i h = some (.naming k a)) :
      StepCase isTab s (.broadcastPresence i h)
        ((s.receive i ((s.channels i).sockets.erase k) a).setPhase i h (some (.publishing a)))
  | broadcastOffline (i : I) (h : H) (room : ℕ) (a : Announcement)
      (hphase : s.phases i h = some (.left a))
      (hroom : (s.channels i).handlers h = some (.leaving room)) :
      StepCase isTab s (.broadcastPresence i h)
        ((s.receive i ((s.channels i).rooms room) a).setPhase i h (some (.publishing a)))
  | publish (i : I) (h : H) (a : Announcement) (hphase : s.phases i h = some (.publishing a)) :
      StepCase isTab s (.publish i h) { s.setPhase i h (some .counted) with
        frames := fun j =>
          if j ≠ i ∧ (s.channels j).presenceListeners ≠ 0 then s.frames j ++ [a]
          else s.frames j }
  | lose (i : I) (a : Announcement) (rest : List Announcement) (hframes : s.frames i = a :: rest)
      (hlisteners : (s.channels i).presenceListeners = 0) :
      StepCase isTab s (.relay i) { s with frames := Function.update s.frames i rest }
  | relay (i : I) (a : Announcement) (rest : List Announcement)
      (hframes : s.frames i = a :: rest) :
      StepCase isTab s (.relay i)
        (({ s with frames := Function.update s.frames i rest } : UserPresence I H).receive i
          (s.channels i).sockets a)

theorem step_cases {act : UserPresenceAction I H} (hs : step isTab s act = some t) :
    StepCase isTab s act t := by
  cases act with
  | channel i a =>
    obtain ⟨hresumes, hs⟩ := Option.ite_none_right_eq_some.mp hs
    obtain ⟨c, -, rfl⟩ := Option.map_eq_some_iff.mp hs
    exact .channel i a c hresumes
  | presenceJoin i h =>
    simp only [step] at hs
    split at hs
    · next k _ hphase =>
      have hnone : ∀ elsewhere, s.sending elsewhere i h = none := by
        simp [sending, hphase]
      obtain ⟨htab, hs⟩ := Option.ite_none_right_eq_some.mp hs
      cases hs
      split
      · exact .online _ i h k htab hnone
      · exact .count _ i h _ hnone (by omega) (by omega)
    · cases hs
  | presenceLeave i h =>
    simp only [step] at hs
    split at hs
    · next hphase =>
      have hnone : ∀ elsewhere, s.sending elsewhere i h = none := by
        simp [sending, hphase, TabPhase.outgoing?]
      cases hs
      split
      · next hzero => exact .offline _ i h _ hzero hnone
      · exact .count _ i h _ hnone (by omega) (by omega)
    · cases hs
  | broadcastPresence i h =>
    simp only [step] at hs
    split at hs
    · next k a hphase _ =>
      cases hs
      exact .broadcastOnline i h k a hphase
    · next a room hphase hroom =>
      cases hs
      exact .broadcastOffline i h room a hphase hroom
    · cases hs
  | publish i h =>
    simp only [step] at hs
    split at hs
    · next a hphase =>
      cases hs
      exact .publish i h a hphase
    · cases hs
  | relay i =>
    simp only [step] at hs
    split at hs
    · next a rest hframes =>
      cases hs
      split
      · next hlisteners => exact .lose i a rest hframes hlisteners
      · exact .relay i a rest hframes
    · cases hs

theorem phasesAfter_cases {i : I} {a : ChannelAction H} (hresumes : s.resumes isTab i a = true)
    (c : Channel H) (j : I) (h : H) :
    s.phasesAfter isTab i c a j h = s.phases j h ∨
      TabPhase.isDone (s.phases j h) = true ∧
        ∀ p, s.phasesAfter isTab i c a j h = some p → p = .leaving := by
  cases a with
  | handleDisconnect h' k =>
    simp only [phasesAfter]
    split
    · rcases Tables.set_cases s.phases i h' (some .leaving) j h with ⟨rfl, rfl, he⟩ | ⟨-, he⟩
      · have hnone : s.phases j h = none := Option.isNone_iff_eq_none.mp hresumes
        refine .inr ⟨by rw [hnone]; rfl, fun p hp => ?_⟩
        exact (Option.some.inj (he.symm.trans hp)).symm
      · exact .inl he
    · exact .inl rfl
  | finish h' =>
    rcases Tables.set_cases s.phases i h' none j h with ⟨rfl, rfl, he⟩ | ⟨-, he⟩
    · refine .inr ⟨hresumes, fun p hp => ?_⟩
      cases he.symm.trans hp
    · exact .inl he
  | _ => exact .inl rfl

theorem setChannel_sending {i : I} {a : ChannelAction H} (hresumes : s.resumes isTab i a = true)
    (c : Channel H) (elsewhere : Bool) (j : I) (h : H) :
    (s.setChannel isTab i a c).sending elsewhere j h = s.sending elsewhere j h := by
  unfold sending
  change (s.phasesAfter isTab i c a j h).bind _ = _
  rcases phasesAfter_cases hresumes c j h with he | ⟨hdone, hleaving⟩
  · rw [he]
  · rw [TabPhase.outgoing?_of_isDone hdone]
    cases hp : s.phasesAfter isTab i c a j h with
    | none => rfl
    | some p =>
      rw [hleaving p hp]
      rfl

inductive Known (s : UserPresence I H) (a : Announcement) : Prop
  | received (i : I) (k : ℕ) (hk : s.lastReceived i k = some a)
  | sending (i : I) (h : H) (hout : s.sending true i h = some a)
  | frame (i : I) (hmem : a ∈ s.frames i)

def Truthful (s : UserPresence I H) (a : Announcement) : Prop :=
  a.number ≤ s.announced ∧ (a.number = s.announced → (a.status = .online ↔ 0 < s.count))

structure Inv (isTab : I → ℕ → Bool) (s : UserPresence I H) : Prop where
  truthful : ∀ a, s.Known a → s.Truthful a
  newest : ∀ i k a, k ∈ (s.channels i).sockets → isTab i k = false →
    s.lastReceived i k = some a → s.Newest i a.number
  naming : ∀ i h k a, s.phases i h = some (.naming k a) → isTab i k = true

omit [DecidableEq H] in
theorem inv_initial : Inv isTab (initial : UserPresence I H) where
  truthful a ha := by cases ha <;> simp_all [initial, sending]
  newest i k a _ _ ha := by simp [initial] at ha
  naming i h k a hp := by simp [initial] at hp

omit [DecidableEq H] in
/-- An announcement stays on its way if it is still to be sent, or has just been published. -/
theorem OnItsWay.keep {i : I} {n : ℕ} (hn : s.OnItsWay i n)
    (hout : ∀ j h a, s.sending (j ≠ i) j h = some a → a.number = n →
      t.sending (j ≠ i) j h = some a ∨ a ∈ t.frames i)
    (hframes : ∀ a ∈ s.frames i, a.number = n → a ∈ t.frames i) : t.OnItsWay i n := by
  rcases hn with ⟨j, h, a, ha, he⟩ | ⟨a, ha, he⟩
  · rcases hout j h a ha he with ha | ha
    · exact .inl ⟨j, h, a, ha, he⟩
    · exact .inr ⟨a, ha, he⟩
  · exact .inr ⟨a, hframes a ha he, he⟩

theorem sending_cases {i : I} {h : H} {p : Option TabPhase}
    (ht : t.phases = Tables.set s.phases i h p) (elsewhere : Bool) (j : I) (h' : H) :
    (j = i ∧ h' = h ∧ t.sending elsewhere j h' = p.bind (TabPhase.outgoing? elsewhere)) ∨
      (¬ (j = i ∧ h' = h) ∧ t.sending elsewhere j h' = s.sending elsewhere j h') := by
  unfold sending
  rw [ht]
  rcases Tables.set_cases s.phases i h p j h' with ⟨rfl, rfl, he⟩ | ⟨hne, he⟩
  · exact .inl ⟨rfl, rfl, by rw [he]⟩
  · exact .inr ⟨hne, by rw [he]⟩

theorem OnItsWay.of_idle {i j : I} {h : H} {p : Option TabPhase} {n : ℕ} (hn : s.OnItsWay j n)
    (hidle : ∀ elsewhere, s.sending elsewhere i h = none)
    (ht : t.phases = Tables.set s.phases i h p) (hframes : t.frames = s.frames) :
    t.OnItsWay j n := by
  refine hn.keep (fun j' h' b hb _ => .inl ?_) fun b hb _ => hframes ▸ hb
  rcases sending_cases ht (j' ≠ j) j' h' with ⟨rfl, rfl, -⟩ | ⟨-, he⟩
  · cases (hidle _).symm.trans hb
  · exact he.trans hb

theorem Known.of_set {i : I} {h : H} {p : Option TabPhase} {a : Announcement} (ha : t.Known a)
    (ht : t.phases = Tables.set s.phases i h p)
    (hp : p.bind (TabPhase.outgoing? true) = some a → s.Known a)
    (hreceived : ∀ j k, t.lastReceived j k = some a → s.Known a)
    (hframes : ∀ j, a ∈ t.frames j → s.Known a) : s.Known a := by
  cases ha with
  | received j k hk => exact hreceived j k hk
  | sending j h' hout =>
    rcases sending_cases ht true j h' with ⟨-, -, he⟩ | ⟨-, he⟩
    · exact hp (he.symm.trans hout)
    · exact .sending j h' (he.symm.trans hout)
  | frame j hmem => exact hframes j hmem

theorem naming_of_set {i : I} {h : H} {p : Option TabPhase}
    (hn : ∀ i h k a, s.phases i h = some (.naming k a) → isTab i k = true)
    (ht : t.phases = Tables.set s.phases i h p)
    (hp : ∀ k a, p = some (.naming k a) → isTab i k = true) (j : I) (h' : H) (k : ℕ)
    (a : Announcement) (hj : t.phases j h' = some (.naming k a)) : isTab j k = true := by
  rw [ht] at hj
  rcases Tables.set_cases s.phases i h p j h' with ⟨rfl, -, he⟩ | ⟨-, he⟩
  · exact hp k a (he.symm.trans hj)
  · exact hn j h' k a (he.symm.trans hj)

theorem Inv.channel (hi : Inv isTab s) {i : I} {a : ChannelAction H} (c : Channel H)
    (hresumes : s.resumes isTab i a = true) : Inv isTab (s.setChannel isTab i a c) where
  truthful x hx := by
    refine hi.truthful x ?_
    cases hx with
    | received j k hk =>
      by_cases hj : j = i
      · subst hj
        simp only [setChannel, Function.update_self] at hk
        exact .received j k (Option.ite_none_right_eq_some.mp hk).2
      · simp only [setChannel, Function.update_of_ne hj] at hk
        exact .received j k hk
    | sending j h hout =>
      exact .sending j h ((setChannel_sending hresumes c true j h).symm.trans hout)
    | frame j hmem => exact .frame j hmem
  newest j k x hk htab hx := by
    have hold : k ∈ (s.channels j).sockets ∧ s.lastReceived j k = some x := by
      by_cases hj : j = i
      · subst hj
        simp only [setChannel, Function.update_self] at hx
        exact Option.ite_none_right_eq_some.mp hx
      · simp only [setChannel, Function.update_of_ne hj] at hk hx
        exact ⟨hk, hx⟩
    intro m hm hlt
    refine (hi.newest j k x hold.1 htab hold.2 m hm hlt).keep (fun j' h' b hb _ => .inl ?_)
      fun b hb _ => hb
    exact (setChannel_sending hresumes c _ j' h').trans hb
  naming j h k x hp := by
    rcases phasesAfter_cases hresumes c j h with he | ⟨-, hleaving⟩
    · exact hi.naming j h k x (he ▸ hp)
    · cases hleaving _ hp

theorem Inv.count (hi : Inv isTab s) {i : I} {h : H} {n : ℕ}
    (hphase : ∀ elsewhere, s.sending elsewhere i h = none) (hold : 0 < s.count) (hnew : 0 < n) :
    Inv isTab { s.setPhase i h (some .counted) with count := n } := by
  have ht : ({ s.setPhase i h (some .counted) with count := n } : UserPresence I H).phases =
      Tables.set s.phases i h (some .counted) := rfl
  refine ⟨fun a ha => ?_, fun j k a hk htab ha m hm hlt => ?_,
    naming_of_set hi.naming ht fun _ _ hp => by cases hp⟩
  · obtain ⟨hle, hstatus⟩ := hi.truthful a (ha.of_set ht (fun hp => by cases hp)
      (fun j k hk => .received j k hk) fun j hmem => .frame j hmem)
    exact ⟨hle, fun he => (hstatus he).trans ⟨fun _ => hnew, fun _ => hold⟩⟩
  · exact (hi.newest j k a hk htab ha m hm hlt).of_idle hphase ht rfl

theorem Inv.announce (hi : Inv isTab s) {i : I} {h : H} {n : ℕ} {status : PresenceStatus}
    {phase : Announcement → TabPhase} (hphase : ∀ elsewhere, s.sending elsewhere i h = none)
    (hout : ∀ a elsewhere, (phase a).outgoing? elsewhere = some a)
    (hstatus : status = .online ↔ 0 < n)
    (htab : ∀ k a b, phase a = .naming k b → isTab i k = true) :
    Inv isTab (s.announce i h n status phase) := by
  have ht : (s.announce i h n status phase).phases =
      Tables.set s.phases i h (some (phase ⟨s.announced + 1, status⟩)) := rfl
  have hnew : ∀ elsewhere, (s.announce i h n status phase).sending elsewhere i h =
      some ⟨s.announced + 1, status⟩ := by
    intro elsewhere
    rcases sending_cases ht elsewhere i h with ⟨-, -, he⟩ | ⟨hne, -⟩
    · exact he.trans (hout _ elsewhere)
    · exact absurd ⟨rfl, rfl⟩ hne
  refine ⟨fun a ha => ?_, fun j k a hk hother ha m hm hlt => ?_,
    naming_of_set hi.naming ht fun k a hp => htab k _ a (Option.some.inj hp)⟩
  · by_cases he : a = ⟨s.announced + 1, status⟩
    · subst he
      exact ⟨le_rfl, fun _ => hstatus⟩
    · obtain ⟨hle, -⟩ := hi.truthful a (ha.of_set ht
        (fun hp => absurd (Option.some.inj ((hout _ true).symm.trans hp)).symm he)
        (fun j k hk => .received j k hk) fun j hmem => .frame j hmem)
      have hlt : a.number < s.announced + 1 := by omega
      exact ⟨hlt.le, fun he => absurd he hlt.ne⟩
  · by_cases hlast : m = s.announced + 1
    · exact .inl ⟨i, h, _, hnew _, hlast.symm⟩
    · have hle : m ≤ s.announced := by
        have hm : m ≤ s.announced + 1 := hm
        omega
      exact (hi.newest j k a hk hother ha m hle hlt).of_idle hphase ht rfl

omit [DecidableEq H] in
theorem receive_lastReceived {i j : I} {room : Finset ℕ} {a b : Announcement} {k : ℕ}
    (hb : (s.receive i room a).lastReceived j k = some b) :
    (j = i ∧ k ∈ room ∧ b = a) ∨ (¬ (j = i ∧ k ∈ room) ∧ s.lastReceived j k = some b) := by
  by_cases hj : j = i
  · subst hj
    simp only [receive, Function.update_self] at hb
    split at hb
    · next hk =>
      cases hb
      exact .inl ⟨rfl, hk, rfl⟩
    · next hk => exact .inr ⟨fun h => hk h.2, hb⟩
  · simp only [receive, Function.update_of_ne hj] at hb
    exact .inr ⟨fun h => hj h.1, hb⟩

/-- A handler sends to the room of its instance, which holds every other user's socket that is
there, what no later announcement has overtaken. -/
theorem Inv.broadcast (hi : Inv isTab s) {i : I} {h : H} {room : Finset ℕ} {a : Announcement}
    (hphase : ∀ elsewhere, s.sending elsewhere i h = some a)
    (hok : s.Watched isTab i → s.Newest i a.number ∧
      ∀ k ∈ (s.channels i).sockets, isTab i k = false → k ∈ room) :
    Inv isTab ((s.receive i room a).setPhase i h (some (.publishing a))) := by
  have ht : ((s.receive i room a).setPhase i h (some (.publishing a))).phases =
      Tables.set s.phases i h (some (.publishing a)) := rfl
  refine ⟨fun b hb => ?_, fun j k b hk htab hb m hm hlt => ?_,
    naming_of_set hi.naming ht fun _ _ hp => by cases hp⟩
  · refine hi.truthful b (hb.of_set ht (fun hp => ?_) (fun j k hk => ?_)
      fun j hmem => .frame j hmem)
    · cases hp
      exact .sending i h (hphase true)
    · rcases receive_lastReceived hk with ⟨-, -, rfl⟩ | ⟨-, hk⟩
      · exact .sending i h (hphase true)
      · exact .received j k hk
  · rcases receive_lastReceived hb with ⟨rfl, -, rfl⟩ | ⟨hnot, hb⟩
    · refine ((hok ⟨k, hk, htab⟩).1 m hm hlt).keep (fun j' h' c hc hnumber => .inl ?_)
        fun c hc _ => hc
      rcases sending_cases ht (j' ≠ j) j' h' with ⟨rfl, rfl, -⟩ | ⟨-, he⟩
      · cases (hphase _).symm.trans hc
        exact absurd hnumber hlt.ne
      · exact he.trans hc
    · have hj : j ≠ i := by
        rintro rfl
        exact hnot ⟨rfl, (hok ⟨k, hk, htab⟩).2 k hk htab⟩
      refine (hi.newest j k b hk htab hb m hm hlt).keep (fun j' h' c hc _ => .inl ?_)
        fun c hc _ => hc
      rcases sending_cases ht (j' ≠ j) j' h' with ⟨rfl, rfl, he⟩ | ⟨-, he⟩
      · cases (hphase _).symm.trans hc
        simpa [TabPhase.outgoing?, hj.symm] using he
      · exact he.trans hc

theorem Inv.publish (hi : Inv isTab s) {i : I} {h : H} {a : Announcement}
    (hphase : s.phases i h = some (.publishing a))
    (hok : ∀ j, j ≠ i → s.Watched isTab j → (s.channels j).presenceListeners ≠ 0) :
    Inv isTab { s.setPhase i h (some .counted) with
      frames := fun j =>
        if j ≠ i ∧ (s.channels j).presenceListeners ≠ 0 then s.frames j ++ [a]
        else s.frames j } := by
  have hsending : s.sending true i h = some a := by simp [sending, hphase, TabPhase.outgoing?]
  have ht : ∀ frames, ({ s.setPhase i h (some .counted) with frames := frames } :
      UserPresence I H).phases = Tables.set s.phases i h (some .counted) := fun _ => rfl
  refine ⟨fun b hb => ?_, fun j k b hk htab hb m hm hlt => ?_,
    naming_of_set hi.naming (ht _) fun _ _ hp => by cases hp⟩
  · refine hi.truthful b (hb.of_set (ht _) (fun hp => by cases hp)
      (fun j k hk => .received j k hk) fun j hmem => ?_)
    dsimp only at hmem
    split at hmem
    · rcases List.mem_append.mp hmem with hmem | hmem
      · exact .frame j hmem
      · cases List.mem_singleton.mp hmem
        exact .sending i h hsending
    · exact .frame j hmem
  · refine (hi.newest j k b hk htab hb m hm hlt).keep (fun j' h' c hc _ => ?_) fun c hc _ => ?_
    · rcases sending_cases (ht _) (j' ≠ j) j' h' with ⟨rfl, rfl, -⟩ | ⟨-, he⟩
      · have hne : j ≠ j' := by
          rintro rfl
          simp [sending, hphase, TabPhase.outgoing?] at hc
        have hca : c = a := by
          simpa [sending, hphase, TabPhase.outgoing?, hne.symm] using hc.symm
        refine .inr ?_
        simp [hne, hok j hne ⟨k, hk, htab⟩, hca]
      · exact .inl (he.trans hc)
    · dsimp only
      split
      · exact List.mem_append_left _ hc
      · exact hc

omit [DecidableEq H] in
/-- The next frame is taken from the queue of an instance whose room holds nobody else, or is
sent to the room when no later announcement has overtaken it. -/
theorem Inv.deliver (hi : Inv isTab s) {i : I} {a : Announcement} {rest : List Announcement}
    (hframes : s.frames i = a :: rest)
    (hreceived : ∀ j k b, t.lastReceived j k = some b →
      (j = i ∧ b = a) ∨ (¬ (j = i ∧ k ∈ (s.channels i).sockets ∧ s.Watched isTab i) ∧
        s.lastReceived j k = some b))
    (ht : t.frames = Function.update s.frames i rest) (hphases : t.phases = s.phases)
    (hchannels : t.channels = s.channels) (hcount : t.count = s.count)
    (hannounced : t.announced = s.announced)
    (hok : s.Watched isTab i → s.Newest i a.number) : Inv isTab t := by
  have hmem : a ∈ s.frames i := by simp [hframes]
  have hsub : ∀ j, ∀ b ∈ t.frames j, b ∈ s.frames j := by
    intro j b hb
    rw [ht] at hb
    by_cases hj : j = i
    · subst hj
      rw [hframes]
      exact List.mem_cons_of_mem _ (by simpa using hb)
    · simpa [hj] using hb
  have hsending : ∀ elsewhere j h, t.sending elsewhere j h = s.sending elsewhere j h := by
    intro elsewhere j h
    rw [sending, sending, hphases]
  refine ⟨fun b hb => ?_, fun j k b hk htab hb m hm hlt => ?_, fun j h k b hp => ?_⟩
  · have hknown : s.Known b := by
      cases hb with
      | received j k hk =>
        rcases hreceived j k b hk with ⟨-, rfl⟩ | ⟨-, hk⟩
        · exact .frame i hmem
        · exact .received j k hk
      | sending j h hout => exact .sending j h ((hsending true j h).symm.trans hout)
      | frame j hj => exact .frame j (hsub j b hj)
    simpa [Truthful, hcount, hannounced] using hi.truthful b hknown
  · rw [hchannels] at hk
    rw [hannounced] at hm
    rcases hreceived j k b hb with ⟨rfl, rfl⟩ | ⟨hne, hb⟩
    · refine (hok ⟨k, hk, htab⟩ m hm hlt).keep (fun j' h' c hc _ => .inl ?_) fun c hc hnumber => ?_
      · exact (hsending _ j' h').trans hc
      · rw [hframes] at hc
        rcases List.mem_cons.mp hc with rfl | hc
        · exact absurd hnumber hlt.ne
        · simpa [ht] using hc
    · refine (hi.newest j k b hk htab hb m hm hlt).keep (fun j' h' c hc _ => .inl ?_)
        fun c hc _ => ?_
      · exact (hsending _ j' h').trans hc
      · by_cases hj : j = i
        · subst hj
          exact absurd ⟨rfl, hk, k, hk, htab⟩ hne
        · simpa [ht, hj] using hc
  · rw [hphases] at hp
    exact hi.naming j h k b hp

theorem inv_step {act : UserPresenceAction I H} (hi : Inv isTab s) (hok : InOrder isTab s act)
    (hs : step isTab s act = some t) : Inv isTab t := by
  cases step_cases hs with
  | channel i a c hresumes => exact hi.channel c hresumes
  | count _ i h n hphase hold hnew => exact hi.count hphase hold hnew
  | online _ i h k htab hphase =>
    refine hi.announce hphase (fun _ _ => rfl) (by simp) fun k' a b he => ?_
    cases he
    exact htab
  | offline _ i h n hzero hphase =>
    exact hi.announce hphase (fun _ _ => rfl) (by simp [hzero]) fun _ _ _ he => by cases he
  | broadcastOnline i h k a hphase =>
    refine hi.broadcast (fun _ => by simp [sending, hphase, TabPhase.outgoing?]) fun hw => ?_
    refine ⟨(hok hw).1 a (by simp [sending, hphase, TabPhase.outgoing?]), fun k' hk' htab => ?_⟩
    refine Finset.mem_erase.mpr ⟨?_, hk'⟩
    rintro rfl
    exact absurd (hi.naming i h k' a hphase) (by simp [htab])
  | broadcastOffline i h room a hphase hroom =>
    refine hi.broadcast (fun _ => by simp [sending, hphase, TabPhase.outgoing?]) fun hw => ?_
    refine ⟨(hok hw).1 a (by simp [sending, hphase, TabPhase.outgoing?]), fun k hk _ => ?_⟩
    have hmap := (hok hw).2 room (by simp [hroom, Handler.leaving?])
    simpa [Channel.sockets, hmap] using hk
  | publish i h a hphase => exact hi.publish hphase hok
  | lose i a rest hframes hlisteners =>
    have hnot : ¬ s.Watched isTab i := fun hw => (hok hw).1 hlisteners
    exact hi.deliver hframes (fun j k b hb => .inr ⟨fun h => hnot h.2.2, hb⟩) rfl rfl rfl rfl rfl
      fun hw => absurd hw hnot
  | relay i a rest hframes =>
    refine hi.deliver hframes (fun j k b hb => ?_) rfl rfl rfl rfl rfl
      fun hw => (hok hw).2 a (by simp [hframes])
    rcases receive_lastReceived hb with ⟨hj, -, hb⟩ | ⟨hnot, hb⟩
    · exact .inl ⟨hj, hb⟩
    · exact .inr ⟨fun h => hnot ⟨h.1, h.2.1⟩, hb⟩

/-- **Presence**: in every run in which no announcement overtakes another on the way to a room,
the sockets that watch a user were last told what the count is once everything is delivered. -/
theorem observers_agree (h : Runs.Reach (step isTab) (fun s => s = initial) (InOrder isTab) s)
    (hdelivered : s.Delivered) : s.Agrees isTab := by
  have hi : Inv isTab s :=
    Runs.Reach.invariant (fun _ hs => hs ▸ inv_initial)
      (fun _ _ _ hi hok hs => inv_step hi hok hs) h
  intro i k a hk htab ha
  obtain ⟨hle, hstatus⟩ := hi.truthful a (.received i k ha)
  refine hstatus (hle.antisymm (not_lt.mp fun hlt => ?_))
  rcases hi.newest i k a hk htab ha s.announced le_rfl hlt with ⟨j, h', b, hb, -⟩ | ⟨b, hb, -⟩
  · simp [sending, hdelivered.2.1 j h'] at hb
  · simp [hdelivered.2.2 i] at hb

omit [DecidableEq H] in
instance [Fintype I] [Fintype H] (i : I) (n : ℕ) : Decidable (s.OnItsWay i n) :=
  inferInstanceAs (Decidable ((∃ j h, ∃ a ∈ s.sending (j ≠ i) j h, a.number = n) ∨
    ∃ a ∈ s.frames i, a.number = n))

instance [Fintype I] [Fintype H] (i : I) (n : ℕ) : Decidable (s.Newest i n) :=
  inferInstanceAs (Decidable (∀ m ≤ s.announced, n < m → s.OnItsWay i m))

instance (i : I) : Decidable (s.Watched isTab i) :=
  inferInstanceAs (Decidable (∃ k ∈ (s.channels i).sockets, isTab i k = false))

instance InOrder.decidable [Fintype I] [Fintype H] (s : UserPresence I H) :
    ∀ act, Decidable (InOrder isTab s act)
  | .broadcastPresence i h => inferInstanceAs (Decidable (s.Watched isTab i →
      (∀ a ∈ s.sending false i h, s.Newest i a.number) ∧
        ∀ room ∈ ((s.channels i).handlers h).bind Handler.leaving?,
          (s.channels i).roomsMap = some room))
  | .publish i _ => inferInstanceAs (Decidable (∀ j, j ≠ i → s.Watched isTab j →
      (s.channels j).presenceListeners ≠ 0))
  | .relay i => inferInstanceAs (Decidable (s.Watched isTab i →
      (s.channels i).presenceListeners ≠ 0 ∧ ∀ a ∈ (s.frames i).head?, s.Newest i a.number))
  | .channel _ _ | .presenceJoin _ _ | .presenceLeave _ _ => isTrue trivial

inductive Side
  | near | far
  deriving DecidableEq

instance : Fintype Side := ⟨{.near, .far}, fun i => by cases i <;> decide⟩

def isTabOfReload : Side → ℕ → Bool := fun _ k => k ≠ 0

/-- Another user watches, and a tab has joined at the other instance. -/
def tabJoined : List (UserPresenceAction Side Bool) :=
  [.channel .near (.handleJoin false 0), .channel .near (.enterRoom false),
    .channel .near (.subscribeDoc false true), .channel .near (.subscribePresence false true),
    .channel .near (.presenceJoin false), .channel .near (.finish false),
    .channel .far (.handleJoin false 1), .channel .far (.enterRoom false),
    .channel .far (.subscribeDoc false true), .channel .far (.subscribePresence false true),
    .presenceJoin .far false, .channel .far (.presenceJoin false), .broadcastPresence .far false,
    .publish .far false, .channel .far (.finish false), .relay .near]

/-- Then the page is loaded again, and the new tab joins at the instance of the watcher. -/
def reload : List (UserPresenceAction Side Bool) :=
  [.channel .far (.handleDisconnect true 1), .presenceLeave .far true,
    .broadcastPresence .far true, .publish .far true, .channel .far (.presenceLeave true),
    .relay .near, .channel .near (.handleJoin true 2), .channel .near (.enterRoom true),
    .presenceJoin .near true, .channel .near (.presenceJoin true),
    .channel .far (.unsubscribeDoc true), .channel .far (.unsubscribePresence true),
    .channel .far (.finish true), .broadcastPresence .near true, .publish .near true,
    .channel .near (.finish true)]

/-- Or the new tab is counted, and announced, before the old one's instance has read the reply to
its last leave. -/
def overtakingReload : List (UserPresenceAction Side Bool) :=
  [.channel .far (.handleDisconnect true 1), .presenceLeave .far true,
    .channel .near (.handleJoin true 2), .channel .near (.enterRoom true),
    .presenceJoin .near true, .channel .near (.presenceJoin true),
    .broadcastPresence .near true, .publish .near true, .channel .near (.finish true),
    .broadcastPresence .far true, .publish .far true, .relay .far, .relay .near,
    .channel .far (.presenceLeave true), .channel .far (.unsubscribeDoc true),
    .channel .far (.unsubscribePresence true), .channel .far (.finish true)]

theorem observers_agree_reload :
    ∃ s, Runs.exec (step isTabOfReload) initial (tabJoined ++ reload) = some s ∧
      s.lastReceived .near 0 = some ⟨3, .online⟩ ∧ s.Agrees isTabOfReload := by
  have hok : Runs.Follows (step isTabOfReload) (InOrder isTabOfReload) initial
      (tabJoined ++ reload) := by
    decide +kernel
  obtain ⟨s, hs, hend⟩ := (Option.any_eq_true _ _).mp
    (show (Runs.exec (step isTabOfReload) initial (tabJoined ++ reload)).any (fun s =>
      ((∀ i h, (s.channels i).handlers h = none) ∧ (∀ i h, s.phases i h = none) ∧
        (∀ i, s.frames i = []) ∧ s.lastReceived .near 0 = some ⟨3, .online⟩ : Bool)) = true by
        decide +kernel)
  obtain ⟨hsettled, hphases, hframes, hlast⟩ := of_decide_eq_true hend
  exact ⟨s, hs, hlast, observers_agree (.exec (.start rfl) hok hs) ⟨hsettled, hphases, hframes⟩⟩

/-- The watcher is last told that the user is offline, and the new tab is connected. -/
theorem observers_agree_fails :
    ¬ ∀ s : UserPresence Side Bool,
      Runs.Reachable (step isTabOfReload) (fun s => s = initial) s → s.Delivered →
        s.Agrees isTabOfReload := by
  intro hall
  obtain ⟨s, hs, hend⟩ := (Option.any_eq_true _ _).mp
    (show (Runs.exec (step isTabOfReload) initial (tabJoined ++ overtakingReload)).any (fun s =>
      ((∀ i h, (s.channels i).handlers h = none) ∧ (∀ i h, s.phases i h = none) ∧
        (∀ i, s.frames i = []) ∧ 0 ∈ (s.channels .near).sockets ∧ s.count = 1 ∧
          s.lastReceived .near 0 = some ⟨2, .offline⟩ : Bool)) = true by
        decide +kernel)
  obtain ⟨hsettled, hphases, hframes, hroom, hcount, hlast⟩ := of_decide_eq_true hend
  have hagrees := hall s (Runs.reachable_exec rfl hs) ⟨hsettled, hphases, hframes⟩
  have honline := (hagrees .near 0 _ hroom rfl hlast).mpr hcount.ge
  cases honline

end UserPresence

end Meridian
