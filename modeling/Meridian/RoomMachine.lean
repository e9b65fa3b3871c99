import Meridian.Lib.Runs
import Mathlib

/-! The room of one document at one gateway instance, and its two redis channels. The
room, the mark that the document is subscribed, and the listeners themselves change at
different awaits of `handleJoin` and `handleDisconnect`; they agree as long as no join
and no last disconnect lands between those awaits of another handler. -/
namespace Meridian

/-- A handler between two of its awaits. `leaving` has captured the `Set` of the room;
`returning` has nothing left to do with the channels. -/
inductive Handler
  | authorizing (socket : ℕ)
  | subscribingDoc (socket : ℕ)
  | subscribingPresence (socket : ℕ)
  | counting (socket : ℕ)
  | leaving (room : ℕ)
  | unsubscribingDoc
  | unsubscribingPresence
  | returning

namespace Handler

def isSubscribing : Handler → Bool
  | .subscribingDoc _ | .subscribingPresence _ => true
  | _ => false

def isUnsubscribing : Handler → Bool
  | .unsubscribingDoc | .unsubscribingPresence => true
  | _ => false

end Handler

/-- What an instance holds for one document, with its handlers named by `H`. `rooms` is the
heap of `Set` objects, one of which `roomsMap` may hold; `joined` are the sockets whose
`user.documentId` is set. -/
structure Channel (H : Type) where
  roomsMap : Option ℕ
  rooms : ℕ → Finset ℕ
  nextRoom : ℕ
  subscribedChannels : Bool
  docListeners : ℕ
  presenceListeners : ℕ
  joined : Finset ℕ
  presenceCounted : Finset ℕ
  handlers : H → Option Handler

inductive ChannelAction (H : Type)
  | handleJoin (handler : H) (socket : ℕ)
  | forbid (handler : H)
  | enterRoom (handler : H)
  | subscribeDoc (handler : H) (succeeds : Bool)
  | subscribePresence (handler : H) (succeeds : Bool)
  | presenceJoin (handler : H)
  | handleDisconnect (handler : H) (socket : ℕ)
  | presenceLeave (handler : H)
  | unsubscribeDoc (handler : H)
  | unsubscribePresence (handler : H)
  | finish (handler : H)

namespace Channel

variable {H : Type} [DecidableEq H]

def initial : Channel H where
  roomsMap := none
  rooms := fun _ => ∅
  nextRoom := 0
  subscribedChannels := false
  docListeners := 0
  presenceListeners := 0
  joined := ∅
  presenceCounted := ∅
  handlers := fun _ => none

def setHandler (s : Channel H) (h : H) (x : Option Handler) : Channel H :=
  { s with handlers := Function.update s.handlers h x }

def sockets (s : Channel H) : Finset ℕ := (s.roomsMap.map s.rooms).getD ∅

/-- From `roomsMap.has` to the first await of a join. -/
def enterRoom (s : Channel H) (h : H) (socket : ℕ) : Channel H :=
  let room := s.roomsMap.getD s.nextRoom
  let next := if s.subscribedChannels then Handler.counting socket else .subscribingDoc socket
  { s.setHandler h (some next) with
    roomsMap := some room
    rooms := Function.update s.rooms room (insert socket (s.rooms room))
    nextRoom := if s.roomsMap.isNone then s.nextRoom + 1 else s.nextRoom
    joined := insert socket s.joined }

/-- From the test of the captured room to the first await of the clean-up. -/
def cleanup (s : Channel H) (h : H) (room : ℕ) : Channel H :=
  if s.rooms room = ∅ then
    { s.setHandler h (some (if s.subscribedChannels then .unsubscribingDoc else .returning)) with
      roomsMap := none }
  else s.setHandler h (some .returning)

def leave (s : Channel H) (room socket : ℕ) : Channel H :=
  { s with rooms := Function.update s.rooms room ((s.rooms room).erase socket) }

def step (s : Channel H) : ChannelAction H → Option (Channel H)
  | .handleJoin h socket =>
    match s.handlers h with
    | none => some (s.setHandler h (some (.authorizing socket)))
    | _ => none
  | .forbid h =>
    match s.handlers h with
    | some (.authorizing _) => some (s.setHandler h none)
    | _ => none
  | .enterRoom h =>
    match s.handlers h with
    | some (.authorizing socket) => some (s.enterRoom h socket)
    | _ => none
  | .subscribeDoc h succeeds =>
    match s.handlers h with
    | some (.subscribingDoc socket) =>
      some (if succeeds then
        { s.setHandler h (some (.subscribingPresence socket)) with
          docListeners := s.docListeners + 1 }
      else s.setHandler h none)
    | _ => none
  | .subscribePresence h succeeds =>
    match s.handlers h with
    | some (.subscribingPresence socket) =>
      some (if succeeds then
        { s.setHandler h (some (.counting socket)) with
          presenceListeners := s.presenceListeners + 1
          subscribedChannels := true }
      else s.setHandler h none)
    | _ => none
  | .presenceJoin h =>
    match s.handlers h with
    | some (.counting socket) =>
      some { s.setHandler h (some .returning) with
        presenceCounted := insert socket s.presenceCounted }
    | _ => none
  | .handleDisconnect h socket =>
    match s.handlers h with
    | none =>
      if socket ∈ s.joined then
        match s.roomsMap with
        | none => some (s.setHandler h (some .returning))
        | some room =>
          some (if socket ∈ s.presenceCounted then
            (s.leave room socket).setHandler h (some (.leaving room))
          else (s.leave room socket).cleanup h room)
      else none
    | _ => none
  | .presenceLeave h =>
    match s.handlers h with
    | some (.leaving room) => some (s.cleanup h room)
    | _ => none
  | .unsubscribeDoc h =>
    match s.handlers h with
    | some .unsubscribingDoc =>
      some { s.setHandler h (some .unsubscribingPresence) with docListeners := 0 }
    | _ => none
  | .unsubscribePresence h =>
    match s.handlers h with
    | some .unsubscribingPresence =>
      some { s.setHandler h (some .returning) with
        presenceListeners := 0
        subscribedChannels := false }
    | _ => none
  | .finish h =>
    match s.handlers h with
    | some .returning => some (s.setHandler h none)
    | _ => none

abbrev Reachable : Channel H → Prop := Runs.Reachable step fun s => s = initial

def Settled (s : Channel H) : Prop := ∀ h, s.handlers h = none

def Relays (s : Channel H) : Prop :=
  (s.sockets.Nonempty → s.docListeners = 1 ∧ s.presenceListeners = 1) ∧
    (s.sockets = ∅ → s.docListeners = 0 ∧ s.presenceListeners = 0)

def subscribing (s : Channel H) (h : H) : Bool := (s.handlers h).any Handler.isSubscribing

def unsubscribing (s : Channel H) (h : H) : Bool := (s.handlers h).any Handler.isUnsubscribing

def NoneSubscribing (s : Channel H) : Prop := ∀ h, s.subscribing h = false

def NoneUnsubscribing (s : Channel H) : Prop := ∀ h, s.unsubscribing h = false

/-- The disconnect of a socket empties the room and cleans it up at once. -/
def emptiesRoom (s : Channel H) (socket : ℕ) : Bool :=
  s.roomsMap.any fun room => (s.rooms room).erase socket = ∅ ∧ socket ∉ s.presenceCounted

/-- The disconnect that a handler is running will find its room empty. -/
def leavesEmpty (s : Channel H) (h : H) : Bool :=
  match s.handlers h with
  | some (.leaving room) => s.rooms room = ∅
  | _ => false

/-- No subscribe call fails, a join enters the room while no other handler subscribes or
unsubscribes, and a disconnect finds its room empty while no join subscribes. -/
def Alone (s : Channel H) : ChannelAction H → Prop
  | .subscribeDoc _ succeeds | .subscribePresence _ succeeds => succeeds = true
  | .enterRoom _ => s.NoneSubscribing ∧ s.NoneUnsubscribing
  | .handleDisconnect _ socket => s.emptiesRoom socket = true → s.NoneSubscribing
  | .presenceLeave h => s.leavesEmpty h = true → s.NoneSubscribing
  | _ => True

/-- Where the two channels stand, seen from the handlers in flight. -/
inductive Phase (s : Channel H) : Prop
  | idle (hs : s.NoneSubscribing) (hu : s.NoneUnsubscribing) (hroom : s.roomsMap = none)
      (hmark : s.subscribedChannels = false) (hdoc : s.docListeners = 0)
      (hpresence : s.presenceListeners = 0)
  | opening (h : H) (hs : ∀ i, i ≠ h → s.subscribing i = false) (hu : s.NoneUnsubscribing)
      (hh : (∃ k, s.handlers h = some (.subscribingDoc k)) ∧ s.docListeners = 0 ∨
        (∃ k, s.handlers h = some (.subscribingPresence k)) ∧ s.docListeners = 1)
      (hroom : s.roomsMap.isSome = true) (hmark : s.subscribedChannels = false)
      (hpresence : s.presenceListeners = 0)
  | opened (hs : s.NoneSubscribing) (hu : s.NoneUnsubscribing) (hroom : s.roomsMap.isSome = true)
      (hmark : s.subscribedChannels = true) (hdoc : s.docListeners = 1)
      (hpresence : s.presenceListeners = 1)
  | closing (h : H) (hs : s.NoneSubscribing) (hh : s.unsubscribing h = true)
      (hroom : s.roomsMap = none)
      (hdoc : ∀ i, s.handlers i = some .unsubscribingPresence → s.docListeners = 0)

def Neutral (x : Option Handler) : Prop :=
  x.any Handler.isSubscribing = false ∧ x.any Handler.isUnsubscribing = false

/-- A step between neutral points of a handler, with the channels and the map left alone,
stays in its phase. -/
theorem Phase.neutral {s s' : Channel H} (hp : Phase s) {h : H} {x : Option Handler}
    (hbefore : Neutral (s.handlers h)) (hx : Neutral x)
    (hhandlers : s'.handlers = Function.update s.handlers h x)
    (hroom : s'.roomsMap = s.roomsMap) (hmark : s'.subscribedChannels = s.subscribedChannels)
    (hdoc : s'.docListeners = s.docListeners)
    (hpresence : s'.presenceListeners = s.presenceListeners) : Phase s' := by
  have hsub : ∀ i, s'.subscribing i = s.subscribing i := by
    intro i
    by_cases hi : i = h
    · simp [subscribing, hhandlers, hi, hbefore.1, hx.1]
    · simp [subscribing, hhandlers, hi]
  have hunsub : ∀ i, s'.unsubscribing i = s.unsubscribing i := by
    intro i
    by_cases hi : i = h
    · simp [unsubscribing, hhandlers, hi, hbefore.2, hx.2]
    · simp [unsubscribing, hhandlers, hi]
  have hother : ∀ i y, ¬ Neutral (some y) → (s'.handlers i = some y ↔ s.handlers i = some y) := by
    intro i y hy
    by_cases hi : i = h
    · subst hi
      constructor
      · intro he
        exact (hy (he ▸ by simpa [hhandlers] using hx)).elim
      · intro he
        exact (hy (he ▸ hbefore)).elim
    · simp [hhandlers, hi]
  have hdocPhase : ∀ k, ¬ Neutral (some (.subscribingDoc k)) := fun k hn => by
    simp [Neutral, Handler.isSubscribing] at hn
  have hpresencePhase : ∀ k, ¬ Neutral (some (.subscribingPresence k)) := fun k hn => by
    simp [Neutral, Handler.isSubscribing] at hn
  have hlastPhase : ¬ Neutral (some .unsubscribingPresence) := fun hn => by
    simp [Neutral, Handler.isUnsubscribing] at hn
  cases hp with
  | idle hs hu hr hm hd hp =>
    exact .idle (fun i => (hsub i).trans (hs i)) (fun i => (hunsub i).trans (hu i))
      (hroom.trans hr) (hmark.trans hm) (hdoc.trans hd) (hpresence.trans hp)
  | opening i hs hu hh hr hm hp =>
    refine .opening i (fun j hj => (hsub j).trans (hs j hj)) (fun j => (hunsub j).trans (hu j)) ?_
      (hroom ▸ hr) (hmark.trans hm) (hpresence.trans hp)
    rw [hdoc]
    exact hh.imp (.imp_left fun ⟨k, hk⟩ => ⟨k, (hother i _ (hdocPhase k)).mpr hk⟩)
      (.imp_left fun ⟨k, hk⟩ => ⟨k, (hother i _ (hpresencePhase k)).mpr hk⟩)
  | opened hs hu hr hm hd hp =>
    exact .opened (fun i => (hsub i).trans (hs i)) (fun i => (hunsub i).trans (hu i))
      (hroom ▸ hr) (hmark.trans hm) (hdoc.trans hd) (hpresence.trans hp)
  | closing i hs hh hr hd =>
    exact .closing i (fun j => (hsub j).trans (hs j)) ((hunsub i).trans hh) (hroom.trans hr)
      fun j hj => hdoc.trans (hd j ((hother j _ hlastPhase).mp hj))

theorem NoneSubscribing.update {s s' : Channel H} {h : H} {x : Option Handler}
    (hs : ∀ i, i ≠ h → s.subscribing i = false) (hx : x.any Handler.isSubscribing = false)
    (hhandlers : s'.handlers = Function.update s.handlers h x) : s'.NoneSubscribing := by
  intro i
  by_cases hi : i = h
  · simp [subscribing, hhandlers, hi, hx]
  · simpa [subscribing, hhandlers, hi] using hs i hi

theorem NoneUnsubscribing.update {s s' : Channel H} {h : H} {x : Option Handler}
    (hu : ∀ i, i ≠ h → s.unsubscribing i = false) (hx : x.any Handler.isUnsubscribing = false)
    (hhandlers : s'.handlers = Function.update s.handlers h x) : s'.NoneUnsubscribing := by
  intro i
  by_cases hi : i = h
  · simp [unsubscribing, hhandlers, hi, hx]
  · simpa [unsubscribing, hhandlers, hi] using hu i hi

omit [DecidableEq H] in
theorem subscribing_of_opening {s : Channel H} {h : H} {a b : Prop}
    (hh : (∃ k, s.handlers h = some (.subscribingDoc k)) ∧ a ∨
      (∃ k, s.handlers h = some (.subscribingPresence k)) ∧ b) : s.subscribing h = true := by
  rcases hh with ⟨⟨k, hk⟩, -⟩ | ⟨⟨k, hk⟩, -⟩ <;> simp [subscribing, hk, Handler.isSubscribing]

theorem Phase.enterRoom {s : Channel H} (hp : Phase s) {h : H} {k : ℕ}
    (hh : s.handlers h = some (.authorizing k)) (hs : s.NoneSubscribing)
    (hu : s.NoneUnsubscribing) : Phase (s.enterRoom h k) := by
  cases hp with
  | idle _ _ hroom hmark hdoc hpresence =>
    refine .opening h (fun i hi => ?_) (.update (fun i _ => hu i) ?_ rfl) (.inl ⟨⟨k, ?_⟩, hdoc⟩)
      rfl hmark hpresence
    · simpa [Channel.enterRoom, subscribing, setHandler, hi] using hs i
    · simp [hmark, Handler.isUnsubscribing]
    · simp [Channel.enterRoom, setHandler, hmark]
  | opening i _ _ hi =>
    have := subscribing_of_opening hi
    simp [hs i] at this
  | opened _ _ hroom hmark hdoc hpresence =>
    obtain ⟨room, hroom⟩ := Option.isSome_iff_exists.mp hroom
    have hbefore : Neutral (s.handlers h) := hh ▸ ⟨rfl, rfl⟩
    have hafter : Neutral (some (.counting k)) := ⟨rfl, rfl⟩
    exact (Phase.opened hs hu (by simp [hroom]) hmark hdoc hpresence).neutral hbefore hafter
      (by simp [Channel.enterRoom, setHandler, hmark]) (by simp [Channel.enterRoom, hroom])
      rfl rfl rfl
  | closing i _ hi =>
    simp [hu i] at hi

/-- A disconnect that finds its room empty closes the channels of an open document, and
leaves a closed one as it is. -/
theorem Phase.cleanup {s : Channel H} (hp : Phase s) {h : H} {room : ℕ}
    (hbefore : Neutral (s.handlers h)) (hs : s.rooms room = ∅ → s.NoneSubscribing) :
    Phase (s.cleanup h room) := by
  have hreturning : Neutral (some .returning) := ⟨rfl, rfl⟩
  unfold Channel.cleanup
  split
  · next hempty =>
    have hnone := hs hempty
    cases hp with
    | idle _ hu hroom hmark hdoc hpresence =>
      exact (Phase.idle hnone hu hroom hmark hdoc hpresence).neutral hbefore hreturning
        (by simp [setHandler, hmark]) hroom.symm rfl rfl rfl
    | opening i _ _ hi =>
      have := subscribing_of_opening hi
      simp [hnone i] at this
    | opened _ hu _ hmark _ _ =>
      refine .closing h (.update (fun i _ => hnone i) ?_ rfl) ?_ rfl fun i hi => ?_
      · simp [hmark, Handler.isSubscribing]
      · simp [unsubscribing, setHandler, hmark, Handler.isUnsubscribing]
      · by_cases hih : i = h
        · simp [setHandler, hih, hmark] at hi
        · have := hu i
          simp [unsubscribing, show s.handlers i = some .unsubscribingPresence by
            simpa [setHandler, hih] using hi, Handler.isUnsubscribing] at this
    | closing i _ hi _ hdoc =>
      have hih : i ≠ h := by
        rintro rfl
        simp [unsubscribing, hbefore.2] at hi
      refine .closing i (.update (fun j _ => hnone j) ?_ rfl) ?_ rfl fun j hj => ?_
      · cases s.subscribedChannels <;> rfl
      · simpa [unsubscribing, setHandler, hih] using hi
      · by_cases hjh : j = h
        · cases hmark : s.subscribedChannels <;> simp [setHandler, hjh, hmark] at hj
        · exact hdoc j (by simpa [setHandler, hjh] using hj)
  · exact hp.neutral hbefore hreturning rfl rfl rfl rfl rfl

theorem Phase.opening_of_subscribing {s : Channel H} (hp : Phase s) {h : H}
    (hh : s.subscribing h = true) :
    (∀ i, i ≠ h → s.subscribing i = false) ∧ s.NoneUnsubscribing ∧
      ((∃ k, s.handlers h = some (.subscribingDoc k)) ∧ s.docListeners = 0 ∨
        (∃ k, s.handlers h = some (.subscribingPresence k)) ∧ s.docListeners = 1) ∧
      s.roomsMap.isSome = true ∧ s.subscribedChannels = false ∧ s.presenceListeners = 0 := by
  cases hp with
  | idle hs => simp [hs h] at hh
  | opening i hs hu hi hroom hmark hpresence =>
    obtain rfl : h = i := by
      by_contra hne
      simp [hs h hne] at hh
    exact ⟨hs, hu, hi, hroom, hmark, hpresence⟩
  | opened hs => simp [hs h] at hh
  | closing i hs => simp [hs h] at hh

omit [DecidableEq H] in
theorem Phase.closing_of_unsubscribing {s : Channel H} (hp : Phase s) {h : H}
    (hh : s.unsubscribing h = true) :
    s.NoneSubscribing ∧ s.roomsMap = none ∧
      ∀ i, s.handlers i = some .unsubscribingPresence → s.docListeners = 0 := by
  cases hp with
  | idle _ hu => simp [hu h] at hh
  | opening _ _ hu => simp [hu h] at hh
  | opened _ hu => simp [hu h] at hh
  | closing i hs _ hroom hdoc => exact ⟨hs, hroom, hdoc⟩

theorem Phase.subscribeDoc {s : Channel H} (hp : Phase s) {h : H} {k : ℕ}
    (hh : s.handlers h = some (.subscribingDoc k)) :
    Phase { s.setHandler h (some (.subscribingPresence k)) with
      docListeners := s.docListeners + 1 } := by
  obtain ⟨hs, hu, hdoc, hroom, hmark, hpresence⟩ := hp.opening_of_subscribing (h := h)
    (by simp [subscribing, hh, Handler.isSubscribing])
  have hdoc : s.docListeners = 0 := by simpa [hh] using hdoc
  refine .opening h (fun i hi => ?_) (.update (fun i _ => hu i) rfl rfl) (.inr ⟨⟨k, ?_⟩, ?_⟩) hroom
    hmark hpresence
  · simpa [subscribing, setHandler, hi] using hs i hi
  · simp [setHandler]
  · simp [hdoc]

theorem Phase.subscribePresence {s : Channel H} (hp : Phase s) {h : H} {k : ℕ}
    (hh : s.handlers h = some (.subscribingPresence k)) :
    Phase { s.setHandler h (some (.counting k)) with
      presenceListeners := s.presenceListeners + 1, subscribedChannels := true } := by
  obtain ⟨hs, hu, hdoc, hroom, hmark, hpresence⟩ := hp.opening_of_subscribing (h := h)
    (by simp [subscribing, hh, Handler.isSubscribing])
  have hdoc : s.docListeners = 1 := by simpa [hh] using hdoc
  exact .opened (.update hs rfl rfl) (.update (fun i _ => hu i) rfl rfl) hroom rfl hdoc
    (by simp [hpresence])

theorem Phase.unsubscribeDoc {s : Channel H} (hp : Phase s) {h : H}
    (hh : s.handlers h = some .unsubscribingDoc) :
    Phase { s.setHandler h (some .unsubscribingPresence) with docListeners := 0 } := by
  obtain ⟨hs, hroom, -⟩ := hp.closing_of_unsubscribing (h := h)
    (by simp [unsubscribing, hh, Handler.isUnsubscribing])
  refine .closing h (.update (fun i _ => hs i) rfl rfl) ?_ hroom fun _ _ => rfl
  simp [unsubscribing, setHandler, Handler.isUnsubscribing]

theorem Phase.unsubscribePresence {s : Channel H} (hp : Phase s) {h : H}
    (hh : s.handlers h = some .unsubscribingPresence) :
    Phase { s.setHandler h (some .returning) with
      presenceListeners := 0, subscribedChannels := false } := by
  obtain ⟨hs, hroom, hdoc⟩ := hp.closing_of_unsubscribing (h := h)
    (by simp [unsubscribing, hh, Handler.isUnsubscribing])
  have hnone : ∀ i, ({ s.setHandler h (some .returning) with
      presenceListeners := 0, subscribedChannels := false } : Channel H).subscribing i = false :=
    NoneSubscribing.update (fun i _ => hs i) rfl rfl
  by_cases hlast : ∃ i, i ≠ h ∧ s.unsubscribing i = true
  · obtain ⟨i, hi, hui⟩ := hlast
    exact .closing i hnone (by simpa [unsubscribing, setHandler, hi] using hui) hroom
      fun _ _ => hdoc h hh
  · refine .idle hnone (.update (fun i hi => ?_) rfl rfl) hroom rfl (hdoc h hh) rfl
    simpa using fun hu => hlast ⟨i, hi, hu⟩

def EmptyOk (s : Channel H) : Prop :=
  ∀ room, s.roomsMap = some room → s.rooms room = ∅ → ∃ h, s.handlers h = some (.leaving room)

theorem EmptyOk.other {s s' : Channel H} (he : EmptyOk s) {h : H} {x : Option Handler}
    (hh : ∀ room, s.handlers h ≠ some (.leaving room))
    (hhandlers : s'.handlers = Function.update s.handlers h x)
    (hmap : s'.roomsMap = s.roomsMap) (hrooms : s'.rooms = s.rooms) : EmptyOk s' := by
  intro room hroom hempty
  obtain ⟨i, hi⟩ := he room (hmap ▸ hroom) (hrooms ▸ hempty)
  refine ⟨i, ?_⟩
  have hih : i ≠ h := by
    rintro rfl
    exact hh room hi
  simpa [hhandlers, hih] using hi

theorem EmptyOk.enterRoom (s : Channel H) (h : H) (k : ℕ) : EmptyOk (s.enterRoom h k) := by
  intro room hroom hempty
  obtain rfl : s.roomsMap.getD s.nextRoom = room := Option.some.inj hroom
  have : k ∈ (s.enterRoom h k).rooms (s.roomsMap.getD s.nextRoom) := by simp [Channel.enterRoom]
  simp [hempty] at this

/-- The clean-up removes the map entry when it finds its room empty, and otherwise the
handlers that still have to look at an empty room are other ones. -/
theorem EmptyOk.cleanup {s : Channel H} {h : H} {room : ℕ}
    (he : ∀ r, r ≠ room → s.roomsMap = some r → s.rooms r = ∅ →
      ∃ i, i ≠ h ∧ s.handlers i = some (.leaving r)) : EmptyOk (s.cleanup h room) := by
  unfold Channel.cleanup
  split
  · intro r hr
    cases hr
  · next hne =>
    intro r hr hempty
    have hroom : r ≠ room := by
      rintro rfl
      exact hne hempty
    obtain ⟨i, hi, hleaving⟩ := he r hroom hr hempty
    exact ⟨i, by simpa [setHandler, hi] using hleaving⟩

structure Inv (s : Channel H) : Prop where
  phase : Phase s
  empty : EmptyOk s

omit [DecidableEq H] in
theorem inv_initial : Inv (initial : Channel H) where
  phase := .idle (fun _ => rfl) (fun _ => rfl) rfl rfl rfl rfl
  empty _ hroom := by cases hroom

theorem Inv.neutral {s : Channel H} (hi : Inv s) {h : H} {x : Option Handler}
    (hbefore : Neutral (s.handlers h)) (hx : Neutral x)
    (hh : ∀ room, s.handlers h ≠ some (.leaving room)) : Inv (s.setHandler h x) where
  phase := hi.phase.neutral hbefore hx rfl rfl rfl rfl rfl
  empty := hi.empty.other hh rfl rfl rfl

/-- A socket that goes leaves its room; the last one takes the room along. -/
theorem Inv.handleDisconnect {s s' : Channel H} (hi : Inv s) {h : H} {k : ℕ}
    (hok : Alone s (.handleDisconnect h k)) (hs : step s (.handleDisconnect h k) = some s') :
    Inv s' := by
  have hreturning : Neutral (some .returning) := ⟨rfl, rfl⟩
  simp only [step] at hs
  split at hs
  · next hh =>
    split at hs
    · split at hs
      · obtain rfl := Option.some.inj hs
        exact hi.neutral (hh ▸ ⟨rfl, rfl⟩) hreturning (by simp [hh])
      · next room hroom =>
        have hnone : Neutral none := ⟨rfl, rfl⟩
        have hbefore : Neutral (s.handlers h) := hh ▸ hnone
        have hsame : (s.leave room k).handlers = Function.update s.handlers h none := by
          rw [← hh, Function.update_eq_self]
          rfl
        have hleave : Phase (s.leave room k) :=
          hi.phase.neutral hbefore hnone hsame rfl rfl rfl rfl
        have honly : ∀ r, r ≠ room → (s.leave room k).roomsMap ≠ some r := by
          intro r hr hmap
          exact hr (Option.some.inj (hmap.symm.trans hroom))
        split at hs
        · obtain rfl := Option.some.inj hs
          refine ⟨hleave.neutral hbefore (x := some (.leaving room)) ⟨rfl, rfl⟩ rfl rfl rfl rfl
            rfl, fun r hr _ => ?_⟩
          obtain rfl : room = r := Option.some.inj (hroom.symm.trans hr)
          exact ⟨h, by simp [setHandler]⟩
        · next hcounted =>
          obtain rfl := Option.some.inj hs
          refine ⟨hleave.cleanup hbefore fun hempty => ?_, .cleanup fun r hr hmap =>
            (honly r hr hmap).elim⟩
          have hlast : (s.rooms room).erase k = ∅ := by simpa [leave] using hempty
          exact hok (by simp [emptiesRoom, hroom, hlast, hcounted])
    · cases hs
  · cases hs

theorem Inv.presenceLeave {s s' : Channel H} (hi : Inv s) {h : H}
    (hok : Alone s (.presenceLeave h)) (hs : step s (.presenceLeave h) = some s') : Inv s' := by
  simp only [step] at hs
  split at hs
  · next room hh =>
    obtain rfl := Option.some.inj hs
    refine ⟨hi.phase.cleanup (hh ▸ ⟨rfl, rfl⟩)
        fun hempty => hok (by simp [leavesEmpty, hh, hempty]),
      .cleanup fun r hr hmap hempty => ?_⟩
    obtain ⟨i, hleaving⟩ := hi.empty r hmap hempty
    refine ⟨i, ?_, hleaving⟩
    rintro rfl
    simp [hh, Ne.symm hr] at hleaving
  · cases hs

theorem inv_step {s s' : Channel H} {a : ChannelAction H} (hi : Inv s) (hok : Alone s a)
    (hs : step s a = some s') : Inv s' := by
  have hreturning : Neutral (some .returning) := ⟨rfl, rfl⟩
  cases a with
  | handleJoin h k =>
    simp only [step] at hs
    split at hs
    · next hh =>
      obtain rfl := Option.some.inj hs
      exact hi.neutral (hh ▸ ⟨rfl, rfl⟩) ⟨rfl, rfl⟩ (by simp [hh])
    · cases hs
  | forbid h =>
    simp only [step] at hs
    split at hs
    · next hh =>
      obtain rfl := Option.some.inj hs
      exact hi.neutral (hh ▸ ⟨rfl, rfl⟩) ⟨rfl, rfl⟩ (by simp [hh])
    · cases hs
  | enterRoom h =>
    simp only [step] at hs
    split at hs
    · next k hh =>
      obtain rfl := Option.some.inj hs
      exact ⟨hi.phase.enterRoom hh hok.1 hok.2, .enterRoom s h k⟩
    · cases hs
  | subscribeDoc h succeeds =>
    simp only [step] at hs
    split at hs
    · next k hh =>
      cases succeeds with
      | true =>
        obtain rfl := Option.some.inj hs
        exact ⟨hi.phase.subscribeDoc hh, hi.empty.other (by simp [hh]) rfl rfl rfl⟩
      | false => cases hok
    · cases hs
  | subscribePresence h succeeds =>
    simp only [step] at hs
    split at hs
    · next k hh =>
      cases succeeds with
      | true =>
        obtain rfl := Option.some.inj hs
        exact ⟨hi.phase.subscribePresence hh, hi.empty.other (by simp [hh]) rfl rfl rfl⟩
      | false => cases hok
    · cases hs
  | presenceJoin h =>
    simp only [step] at hs
    split at hs
    · next k hh =>
      obtain rfl := Option.some.inj hs
      exact ⟨hi.phase.neutral (hh ▸ ⟨rfl, rfl⟩) hreturning rfl rfl rfl rfl rfl,
        hi.empty.other (by simp [hh]) rfl rfl rfl⟩
    · cases hs
  | handleDisconnect h k => exact hi.handleDisconnect hok hs
  | presenceLeave h => exact hi.presenceLeave hok hs
  | unsubscribeDoc h =>
    simp only [step] at hs
    split at hs
    · next hh =>
      obtain rfl := Option.some.inj hs
      exact ⟨hi.phase.unsubscribeDoc hh, hi.empty.other (by simp [hh]) rfl rfl rfl⟩
    · cases hs
  | unsubscribePresence h =>
    simp only [step] at hs
    split at hs
    · next hh =>
      obtain rfl := Option.some.inj hs
      exact ⟨hi.phase.unsubscribePresence hh, hi.empty.other (by simp [hh]) rfl rfl rfl⟩
    · cases hs
  | finish h =>
    simp only [step] at hs
    split at hs
    · next hh =>
      obtain rfl := Option.some.inj hs
      exact hi.neutral (hh ▸ ⟨rfl, rfl⟩) ⟨rfl, rfl⟩ (by simp [hh])
    · cases hs

/-- Whatever the interleaving, as long as its steps keep out of each other's way: when no
handler is in flight, a non-empty room has one listener on each channel, an empty one none. -/
theorem relays_of_alone {s : Channel H} (h : Runs.Reach step (fun s => s = initial) Alone s)
    (hsettled : s.Settled) : s.Relays := by
  have hi : Inv s :=
    Runs.Reach.invariant (fun _ hs => hs ▸ inv_initial)
      (fun _ _ _ hi hok hs => inv_step hi hok hs) h
  cases hi.phase with
  | idle _ _ hroom _ hdoc hpresence =>
    have hsockets : s.sockets = ∅ := by simp [sockets, hroom]
    exact ⟨fun hne => by simp [hsockets] at hne, fun _ => ⟨hdoc, hpresence⟩⟩
  | opening i _ _ hi =>
    have := subscribing_of_opening hi
    simp [subscribing, hsettled i] at this
  | opened _ _ hroom _ hdoc hpresence =>
    obtain ⟨room, hroom⟩ := Option.isSome_iff_exists.mp hroom
    refine ⟨fun _ => ⟨hdoc, hpresence⟩, fun hempty => ?_⟩
    obtain ⟨i, hleaving⟩ := hi.empty room hroom (by simpa [sockets, hroom] using hempty)
    simp [hsettled i] at hleaving
  | closing i _ hunsub =>
    simp [unsubscribing, hsettled i] at hunsub

instance [Fintype H] (s : Channel H) : Decidable s.NoneSubscribing :=
  inferInstanceAs (Decidable (∀ h, s.subscribing h = false))

instance [Fintype H] (s : Channel H) : Decidable s.NoneUnsubscribing :=
  inferInstanceAs (Decidable (∀ h, s.unsubscribing h = false))

instance [Fintype H] (s : Channel H) : (a : ChannelAction H) → Decidable (Alone s a)
  | .subscribeDoc _ b | .subscribePresence _ b => inferInstanceAs (Decidable (b = true))
  | .enterRoom _ => inferInstanceAs (Decidable (s.NoneSubscribing ∧ s.NoneUnsubscribing))
  | .handleDisconnect _ k =>
    inferInstanceAs (Decidable (s.emptiesRoom k = true → s.NoneSubscribing))
  | .presenceLeave h => inferInstanceAs (Decidable (s.leavesEmpty h = true → s.NoneSubscribing))
  | .handleJoin _ _ | .forbid _ | .presenceJoin _ | .unsubscribeDoc _ | .unsubscribePresence _
  | .finish _ => isTrue trivial

def oneAfterTheOther : List (ChannelAction (Fin 3)) :=
  [.handleJoin 0 5, .enterRoom 0, .subscribeDoc 0 true, .handleJoin 1 6, .subscribePresence 0 true,
    .enterRoom 1, .presenceJoin 0, .finish 0, .handleDisconnect 2 5, .presenceJoin 1,
    .presenceLeave 2, .finish 1, .finish 2]

theorem relays_oneAfterTheOther : ∃ s, Runs.exec step initial oneAfterTheOther = some s ∧
    s.sockets = {6} ∧ s.Relays := by
  have hf : Runs.Follows step Alone initial oneAfterTheOther := by decide
  obtain ⟨s, hs, hsockets, hhandlers⟩ : ∃ s, Runs.exec step initial oneAfterTheOther = some s ∧
      s.sockets = {6} ∧ ∀ h, (s.handlers h).isNone = true := ⟨_, rfl, by decide, by decide⟩
  exact ⟨s, hs, hsockets, relays_of_alone (Runs.Reach.exec (.start rfl) hf hs) fun h =>
    Option.isNone_iff_eq_none.mp (hhandlers h)⟩

/-- Two first joins overlap: each subscribes, and every frame arrives twice. -/
def twoFirstJoins : List (ChannelAction (Fin 2)) :=
  [.handleJoin 0 5, .handleJoin 1 6, .enterRoom 0, .enterRoom 1, .subscribeDoc 0 true,
    .subscribeDoc 1 true, .subscribePresence 0 true, .subscribePresence 1 true, .presenceJoin 0,
    .presenceJoin 1, .finish 0, .finish 1]

theorem relays_fails : ¬ ∀ s : Channel (Fin 2), Reachable s → s.Settled → s.Relays := by
  intro h
  obtain ⟨s, hs, hsockets, hhandlers, hdoc⟩ : ∃ s, Runs.exec step initial twoFirstJoins = some s ∧
      s.sockets.Nonempty ∧ (∀ h, (s.handlers h).isNone = true) ∧ s.docListeners = 2 :=
    ⟨_, rfl, by decide, by decide, rfl⟩
  have := (h s (Runs.reachable_exec rfl hs) fun h => Option.isNone_iff_eq_none.mp (hhandlers h)).1
    hsockets
  omega

end Channel

end Meridian
