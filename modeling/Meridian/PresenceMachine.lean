import Meridian.Lib.Runs
import Meridian.Lib.Tables
import Mathlib

/-! Who is present: the rooms of the gateway instances and the counts in redis, under joins and
disconnects that interleave at their awaits. A disconnect looks only at what the socket holds
by then, and a join does not look at what it held before. -/
namespace Meridian

/-- A handler between two of its awaits. `entered` waits for the subscriptions and then for
`presenceJoin`, `incremented` has been counted, `naming` has been marked so and looks the name
up; `joined` has only to send the initial state. `leaving` has captured the `Set` of the room. -/
inductive PresenceHandler (I D K : Type)
  | authorizing (socket : K) (documentId : D)
  | entered (socket : K) (documentId : D)
  | incremented (socket : K) (documentId : D) (isFirst : Bool)
  | naming (socket : K) (documentId : D)
  | joined (socket : K) (documentId : D)
  | leaving (socket : K) (documentId : D) (room : ℕ)
  | left (serverInstance : I) (documentId : D) (room : ℕ)
  | returning

namespace PresenceHandler

variable {I D K : Type}

def joining? : PresenceHandler I D K → Option (K × D)
  | .entered k d | .incremented k d _ | .naming k d | .joined k d => some (k, d)
  | _ => none

def unmarked? : PresenceHandler I D K → Option K
  | .entered k _ | .incremented k _ _ => some k
  | _ => none

def entering? : PresenceHandler I D K → Option K
  | .entered k _ => some k
  | _ => none

def naming? : PresenceHandler I D K → Option (K × D)
  | .incremented k d true | .naming k d => some (k, d)
  | _ => none

def leaving? : PresenceHandler I D K → Option (K × D)
  | .leaving k d _ => some (k, d)
  | _ => none

end PresenceHandler

/-- Instances `I`, documents `D`, users `U`, sockets `K` and handlers `H`. A socket is open until
it is `closed`. `rooms` is the heap of `Set` objects, of which `roomsMap` holds some; `counts`
and `identities` are the two hashes of redis. `lastJoin`, and the sockets `counted` by now, are
kept for the statements. -/
structure Presence (I D U K H : Type) where
  closed : Finset K
  documentId : K → Option D
  presenceCounted : K → Bool
  roomsMap : I → D → Option ℕ
  rooms : ℕ → Finset K
  nextRoom : ℕ
  counts : D → U → ℕ
  identities : D → U → Bool
  handlers : H → Option (PresenceHandler I D K)
  lastJoin : K → Option D
  counted : Finset K

inductive PresenceAction (D K H : Type)
  | handleJoin (handler : H) (socket : K) (documentId : D)
  | forbid (handler : H)
  | enterRoom (handler : H)
  | presenceJoin (handler : H)
  | setCounted (handler : H)
  | setPresenceIdentity (handler : H)
  | finishJoin (handler : H)
  | handleDisconnect (handler : H) (socket : K)
  | presenceLeave (handler : H)
  | cleanup (handler : H)
  | finish (handler : H)

namespace Presence

variable {I D U K H : Type}

def initial : Presence I D U K H where
  closed := ∅
  documentId _ := none
  presenceCounted _ := false
  roomsMap _ _ := none
  rooms _ := ∅
  nextRoom := 0
  counts _ _ := 0
  identities _ _ := false
  handlers _ := none
  lastJoin _ := none
  counted := ∅

def setHandler [DecidableEq H] (s : Presence I D U K H) (h : H)
    (x : Option (PresenceHandler I D K)) : Presence I D U K H :=
  { s with handlers := Function.update s.handlers h x }

def setRoomsMap [DecidableEq I] [DecidableEq D] (s : Presence I D U K H) (i : I) (d : D)
    (room : Option ℕ) : Presence I D U K H :=
  { s with roomsMap := Tables.set s.roomsMap i d room }

def setCount [DecidableEq D] [DecidableEq U] (s : Presence I D U K H) (d : D) (u : U) (n : ℕ) :
    Presence I D U K H :=
  { s with counts := Tables.set s.counts d u n }

def setIdentity [DecidableEq D] [DecidableEq U] (s : Presence I D U K H) (d : D) (u : U)
    (named : Bool) : Presence I D U K H :=
  { s with identities := Tables.set s.identities d u named }

section Steps

variable [DecidableEq I] [DecidableEq D] [DecidableEq U] [DecidableEq K] [DecidableEq H]
  (instanceOf : K → I) (userOf : K → U)

def cleanupRoom (s : Presence I D U K H) (h : H) (i : I) (d : D) (room : ℕ) :
    Presence I D U K H :=
  { s.setHandler h (some .returning) with
    roomsMap := if s.rooms room = ∅ then Tables.set s.roomsMap i d none else s.roomsMap }

/-- The room that a join enters, which is a new `Set` if the map has none. -/
def roomFor (s : Presence I D U K H) (k : K) (d : D) : ℕ :=
  (s.roomsMap (instanceOf k) d).getD s.nextRoom

def enter (s : Presence I D U K H) (h : H) (k : K) (d : D) : Presence I D U K H :=
  let room := s.roomFor instanceOf k d
  { (s.setRoomsMap (instanceOf k) d (some room)).setHandler h (some (.entered k d)) with
    rooms := Function.update s.rooms room (insert k (s.rooms room))
    nextRoom := if (s.roomsMap (instanceOf k) d).isNone then s.nextRoom + 1 else s.nextRoom
    documentId := Function.update s.documentId k (some d) }

def disconnect (s : Presence I D U K H) (h : H) (k : K) : Presence I D U K H :=
  let t := { s with closed := insert k s.closed }
  match s.documentId k with
  | none => t.setHandler h (some .returning)
  | some d =>
    match s.roomsMap (instanceOf k) d with
    | none => t.setHandler h (some .returning)
    | some room =>
      let t := { t with rooms := Function.update s.rooms room ((s.rooms room).erase k) }
      if s.presenceCounted k then t.setHandler h (some (.leaving k d room))
      else t.cleanupRoom h (instanceOf k) d room

/-- The script that takes one connection away, and the name with the last. -/
def leave (s : Presence I D U K H) (h : H) (k : K) (d : D) (room : ℕ) : Presence I D U K H :=
  let n := s.counts d (userOf k) - 1
  { (s.setCount d (userOf k) n).setHandler h (some (.left (instanceOf k) d room)) with
    identities := if n = 0 then Tables.set s.identities d (userOf k) false else s.identities
    counted := s.counted.erase k }

def step (s : Presence I D U K H) : PresenceAction D K H → Option (Presence I D U K H)
  | .handleJoin h k d =>
    if k ∉ s.closed ∧ (s.handlers h).isNone then
      some (s.setHandler h (some (.authorizing k d)))
    else none
  | .forbid h =>
    match s.handlers h with
    | some (.authorizing _ _) => some (s.setHandler h none)
    | _ => none
  | .enterRoom h =>
    match s.handlers h with
    | some (.authorizing k d) => some (s.enter instanceOf h k d)
    | _ => none
  | .presenceJoin h =>
    match s.handlers h with
    | some (.entered k d) =>
      let n := s.counts d (userOf k) + 1
      some { (s.setCount d (userOf k) n).setHandler h (some (.incremented k d (n == 1))) with
        counted := insert k s.counted }
    | _ => none
  | .setCounted h =>
    match s.handlers h with
    | some (.incremented k d isFirst) =>
      some { s.setHandler h (some (if isFirst then .naming k d else .joined k d)) with
        presenceCounted := Function.update s.presenceCounted k true }
    | _ => none
  | .setPresenceIdentity h =>
    match s.handlers h with
    | some (.naming k d) =>
      some ((s.setIdentity d (userOf k) true).setHandler h (some (.joined k d)))
    | _ => none
  | .finishJoin h =>
    match s.handlers h with
    | some (.joined k d) =>
      some { s.setHandler h none with lastJoin := Function.update s.lastJoin k (some d) }
    | _ => none
  | .handleDisconnect h k =>
    if k ∉ s.closed ∧ (s.handlers h).isNone then some (s.disconnect instanceOf h k) else none
  | .presenceLeave h =>
    match s.handlers h with
    | some (.leaving k d room) => some (s.leave instanceOf userOf h k d room)
    | _ => none
  | .cleanup h =>
    match s.handlers h with
    | some (.left i d room) => some (s.cleanupRoom h i d room)
    | _ => none
  | .finish h =>
    match s.handlers h with
    | some .returning => some (s.setHandler h none)
    | _ => none

end Steps

/-- What the handlers are in the middle of, as a classifier of handlers tells it. -/
def doing {X : Type} (c : PresenceHandler I D K → Option X) (s : Presence I D U K H) (h : H) :
    Option X :=
  (s.handlers h).bind c

abbrev joining (s : Presence I D U K H) : H → Option (K × D) := s.doing PresenceHandler.joining?

abbrev unmarked (s : Presence I D U K H) : H → Option K := s.doing PresenceHandler.unmarked?

abbrev entering (s : Presence I D U K H) : H → Option K := s.doing PresenceHandler.entering?

abbrev naming (s : Presence I D U K H) : H → Option (K × D) := s.doing PresenceHandler.naming?

abbrev leaving (s : Presence I D U K H) : H → Option (K × D) := s.doing PresenceHandler.leaving?

def Settled (s : Presence I D U K H) : Prop := ∀ h, s.handlers h = none

def InRoom (s : Presence I D U K H) (k : K) (d : D) : Prop :=
  ∃ i room, s.roomsMap i d = some room ∧ k ∈ s.rooms room

/-- The open sockets of a user whose last join was to the document. -/
def present (userOf : K → U) (s : Presence I D U K H) (d : D) (u : U) : Set K :=
  {k | k ∉ s.closed ∧ s.lastJoin k = some d ∧ userOf k = u}

/-- A join enters the room only with an open socket that has not entered one before, a socket
disconnects only when its join has been counted and marked so, a name is written only while its
user is counted, and a clean-up that finds its room empty takes no other room with sockets
away. -/
def OneJoin (userOf : K → U) (s : Presence I D U K H) : PresenceAction D K H → Prop
  | .enterRoom h => ∀ k d, s.handlers h = some (.authorizing k d) →
    k ∉ s.closed ∧ s.documentId k = none
  | .handleDisconnect _ k => ∀ h, s.unmarked h ≠ some k
  | .setPresenceIdentity h => ∀ k d, s.handlers h = some (.naming k d) →
    0 < s.counts d (userOf k)
  | .cleanup h => ∀ i d room, s.handlers h = some (.left i d room) → s.rooms room = ∅ →
    ∀ other, s.roomsMap i d = some other → s.rooms other = ∅
  | _ => True

def connections [DecidableEq D] [DecidableEq U] (userOf : K → U) (s : Presence I D U K H) (d : D)
    (u : U) : Finset K :=
  s.counted.filter fun k => s.documentId k = some d ∧ userOf k = u

section Handlers

variable {s t : Presence I D U K H} {h : H} {X : Type}

theorem doing_eq (c : PresenceHandler I D K → Option X) {x : PresenceHandler I D K}
    (hx : s.handlers h = some x) : s.doing c h = c x := by
  simp [doing, hx]

theorem doing_update [DecidableEq H] (c : PresenceHandler I D K → Option X)
    {x : Option (PresenceHandler I D K)} (ht : t.handlers = Function.update s.handlers h x) :
    t.doing c = Function.update (s.doing c) h (x.bind c) := by
  funext h'
  by_cases hh : h' = h
  · subst hh
    simp [doing, ht]
  · simp [doing, ht, hh]

theorem doing_of_eq [DecidableEq H] (c : PresenceHandler I D K → Option X)
    {x : Option (PresenceHandler I D K)} (ht : t.handlers = Function.update s.handlers h x)
    (hx : x.bind c = s.doing c h) : t.doing c = s.doing c := by
  rw [doing_update c ht, hx, Function.update_eq_self]

theorem doing_move [DecidableEq H] (c : PresenceHandler I D K → Option X)
    {x : Option (PresenceHandler I D K)} {y : PresenceHandler I D K}
    (hy : s.handlers h = some y) (ht : t.handlers = Function.update s.handlers h x)
    (hx : x.bind c = c y) : t.doing c = s.doing c :=
  doing_of_eq c ht (hx.trans (doing_eq c hy).symm)

theorem joining_of_unmarked {k : K} (hk : s.unmarked h = some k) :
    ∃ d, s.joining h = some (k, d) := by
  obtain ⟨x, hx, hk⟩ := Option.bind_eq_some_iff.mp hk
  rw [joining, doing_eq _ hx]
  cases x <;> simp_all [PresenceHandler.unmarked?, PresenceHandler.joining?]

theorem unmarked_of_entering {k : K} (hk : s.entering h = some k) : s.unmarked h = some k := by
  obtain ⟨x, hx, hk⟩ := Option.bind_eq_some_iff.mp hk
  rw [unmarked, doing_eq _ hx]
  cases x <;> simp_all [PresenceHandler.entering?, PresenceHandler.unmarked?]

end Handlers

/-- The map holds rooms of its own for each document of each instance, and in a room are the
open sockets of its instance that have entered it. -/
structure RoomsOk (instanceOf : K → I) (s : Presence I D U K H) : Prop where
  fresh : ∀ i d room, s.roomsMap i d = some room → room < s.nextRoom
  injective : ∀ i d i' d' room, s.roomsMap i d = some room → s.roomsMap i' d' = some room →
    i' = i ∧ d' = d
  member : ∀ k room, k ∈ s.rooms room →
    k ∉ s.closed ∧ ∃ d, s.documentId k = some d ∧ s.roomsMap (instanceOf k) d = some room
  inRoom : ∀ k d, k ∉ s.closed → s.documentId k = some d →
    ∃ room, s.roomsMap (instanceOf k) d = some room ∧ k ∈ s.rooms room

namespace RoomsOk

variable {instanceOf : K → I} {s t : Presence I D U K H} {h : H} {k : K} {d : D}

theorem of_eq (hs : RoomsOk instanceOf s) (hclosed : t.closed = s.closed)
    (hdoc : t.documentId = s.documentId) (hmap : t.roomsMap = s.roomsMap)
    (hrooms : t.rooms = s.rooms) (hnext : t.nextRoom = s.nextRoom) : RoomsOk instanceOf t := by
  refine ⟨?_, ?_, ?_, ?_⟩
  · rw [hmap, hnext]
    exact hs.fresh
  · rw [hmap]
    exact hs.injective
  · rw [hclosed, hdoc, hmap, hrooms]
    exact hs.member
  · rw [hclosed, hdoc, hmap, hrooms]
    exact hs.inRoom

theorem notMem_of_documentId (hs : RoomsOk instanceOf s) (hk : s.documentId k = none)
    (room : ℕ) : k ∉ s.rooms room := by
  intro hmem
  obtain ⟨-, d, hd, -⟩ := hs.member k room hmem
  rw [hk] at hd
  cases hd

theorem roomFor_of_some {room : ℕ} (hroom : s.roomsMap (instanceOf k) d = some room) :
    s.roomFor instanceOf k d = room := by
  rw [roomFor, hroom, Option.getD_some]

/-- No other entry of the map holds the room that a join enters. -/
theorem eq_of_roomFor (hs : RoomsOk instanceOf s) {i : I} {d' : D}
    (hi : s.roomsMap i d' = some (s.roomFor instanceOf k d)) : i = instanceOf k ∧ d' = d := by
  cases hold : s.roomsMap (instanceOf k) d with
  | none =>
    rw [roomFor, hold, Option.getD_none] at hi
    exact absurd (hs.fresh i d' _ hi) (lt_irrefl _)
  | some room =>
    rw [roomFor_of_some hold] at hi
    exact hs.injective _ _ _ _ room hold hi

theorem close [DecidableEq K] (hs : RoomsOk instanceOf s) {room : ℕ}
    (hroom : s.roomsMap (instanceOf k) d = some room) (hd : s.documentId k = some d) :
    RoomsOk instanceOf { s with
      closed := insert k s.closed
      rooms := Function.update s.rooms room ((s.rooms room).erase k) } := by
  have hmem : ∀ k' other, k' ∈ Function.update s.rooms room ((s.rooms room).erase k) other ↔
      k' ∈ s.rooms other ∧ (other = room → k' ≠ k) := by
    intro k' other
    by_cases ho : other = room
    · subst ho
      simp [and_comm]
    · simp [ho]
  refine ⟨hs.fresh, hs.injective, ?_, ?_⟩
  · intro k' other hk'
    obtain ⟨hin, hne⟩ := (hmem k' other).mp hk'
    obtain ⟨hopen, d', hd', hother⟩ := hs.member k' other hin
    refine ⟨?_, d', hd', hother⟩
    rw [Finset.mem_insert, not_or]
    refine ⟨?_, hopen⟩
    rintro rfl
    rw [hd] at hd'
    cases hd'
    exact hne (Option.some.inj (hother.symm.trans hroom)) rfl
  · intro k' d' hopen hd'
    rw [Finset.mem_insert, not_or] at hopen
    obtain ⟨other, hother, hin⟩ := hs.inRoom k' d' hopen.2 hd'
    exact ⟨other, hother, (hmem k' other).mpr ⟨hin, fun _ => hopen.1⟩⟩

section Steps

variable [DecidableEq I] [DecidableEq D] [DecidableEq K] [DecidableEq H]

theorem roomFor_lt (hs : RoomsOk instanceOf s) :
    s.roomFor instanceOf k d < (s.enter instanceOf h k d).nextRoom ∧
      s.nextRoom ≤ (s.enter instanceOf h k d).nextRoom := by
  cases hold : s.roomsMap (instanceOf k) d with
  | none => simp [enter, roomFor, hold]
  | some room => simp [enter, roomFor, hold, hs.fresh _ _ room hold]

theorem enter_keeps {i : I} {d' : D} {room : ℕ} (hroom : s.roomsMap i d' = some room) :
    (s.enter instanceOf h k d).roomsMap i d' = some room := by
  rcases Tables.set_cases s.roomsMap (instanceOf k) d (some (s.roomFor instanceOf k d)) i d' with
    ⟨rfl, rfl, hset⟩ | ⟨-, hset⟩
  · rw [← roomFor_of_some hroom]
    exact hset
  · rw [← hroom]
    exact hset

theorem enter_cases {i : I} {d' : D} {room : ℕ}
    (hroom : (s.enter instanceOf h k d).roomsMap i d' = some room) :
    (i = instanceOf k ∧ d' = d ∧ room = s.roomFor instanceOf k d) ∨
      s.roomsMap i d' = some room := by
  rcases Tables.set_cases s.roomsMap (instanceOf k) d (some (s.roomFor instanceOf k d)) i d' with
    ⟨hi, hd, hset⟩ | ⟨-, hset⟩
  · exact .inl ⟨hi, hd, Option.some.inj (hroom.symm.trans hset)⟩
  · exact .inr (hset.symm.trans hroom)

theorem mem_enter {k' : K} {room : ℕ} :
    k' ∈ (s.enter instanceOf h k d).rooms room ↔
      (k' = k ∧ room = s.roomFor instanceOf k d) ∨ k' ∈ s.rooms room := by
  change k' ∈ Function.update s.rooms _ (insert k _) room ↔ _
  by_cases hroom : room = s.roomFor instanceOf k d
  · subst hroom
    simp
  · simp [hroom]

protected theorem enter (hs : RoomsOk instanceOf s) (hopen : k ∉ s.closed)
    (hnew : s.documentId k = none) : RoomsOk instanceOf (s.enter instanceOf h k d) := by
  have hdoc : (s.enter instanceOf h k d).documentId = Function.update s.documentId k (some d) :=
    rfl
  have hself : (s.enter instanceOf h k d).roomsMap (instanceOf k) d =
      some (s.roomFor instanceOf k d) := Tables.set_self ..
  refine ⟨?_, ?_, ?_, ?_⟩
  · intro i d' room hroom
    rcases enter_cases hroom with ⟨-, -, rfl⟩ | hold
    · exact hs.roomFor_lt.1
    · exact (hs.fresh i d' room hold).trans_le hs.roomFor_lt.2
  · intro i d' i' d'' room hroom hroom'
    rcases enter_cases hroom with ⟨rfl, rfl, rfl⟩ | hold <;>
      rcases enter_cases hroom' with ⟨rfl, rfl, hr⟩ | hold'
    · exact ⟨rfl, rfl⟩
    · exact hs.eq_of_roomFor hold'
    · obtain ⟨rfl, rfl⟩ := hs.eq_of_roomFor (hr ▸ hold)
      exact ⟨rfl, rfl⟩
    · exact hs.injective _ _ _ _ room hold hold'
  · intro k' room hmem
    rcases mem_enter.mp hmem with ⟨rfl, rfl⟩ | hold
    · exact ⟨hopen, d, by rw [hdoc, Function.update_self], hself⟩
    · obtain ⟨hopen', d', hd', hroom⟩ := hs.member k' room hold
      have hne : k' ≠ k := fun h => hs.notMem_of_documentId hnew room (h ▸ hold)
      exact ⟨hopen', d', by rw [hdoc, Function.update_of_ne hne, hd'], enter_keeps hroom⟩
  · intro k' d' hopen' hd'
    rw [hdoc] at hd'
    by_cases hk : k' = k
    · subst hk
      rw [Function.update_self] at hd'
      cases hd'
      exact ⟨_, hself, mem_enter.mpr (.inl ⟨rfl, rfl⟩)⟩
    · rw [Function.update_of_ne hk] at hd'
      obtain ⟨room, hroom, hmem⟩ := hs.inRoom k' d' hopen' hd'
      exact ⟨room, enter_keeps hroom, mem_enter.mpr (.inr hmem)⟩

theorem cleanupRoom (hs : RoomsOk instanceOf s) {i : I} {room : ℕ}
    (hroom : s.rooms room = ∅ → ∀ other, s.roomsMap i d = some other → s.rooms other = ∅) :
    RoomsOk instanceOf (s.cleanupRoom h i d room) := by
  by_cases hempty : s.rooms room = ∅
  · refine of_eq (s := s.setRoomsMap i d none) ?_ rfl rfl (if_pos hempty) rfl rfl
    have hkeep : ∀ i' d' other, s.roomsMap i' d' = some other → s.rooms other ≠ ∅ →
        (s.setRoomsMap i d none).roomsMap i' d' = some other := by
      intro i' d' other hother hne
      rcases Tables.set_cases s.roomsMap i d none i' d' with ⟨rfl, rfl, -⟩ | ⟨-, hset⟩
      · exact absurd (hroom hempty other hother) hne
      · exact hset.trans hother
    have hold : ∀ i' d' other, (s.setRoomsMap i d none).roomsMap i' d' = some other →
        s.roomsMap i' d' = some other := by
      intro i' d' other hother
      rcases Tables.set_cases s.roomsMap i d none i' d' with ⟨-, -, hset⟩ | ⟨-, hset⟩
      · exact absurd (hset.symm.trans hother) (by simp)
      · exact hset.symm.trans hother
    refine ⟨?_, ?_, ?_, ?_⟩
    · intro i' d' other hother
      exact hs.fresh i' d' other (hold i' d' other hother)
    · intro i' d' i'' d'' other hother hother'
      exact hs.injective _ _ _ _ other (hold _ _ _ hother) (hold _ _ _ hother')
    · intro k' other hmem
      obtain ⟨hopen, d', hd', hother⟩ := hs.member k' other hmem
      exact ⟨hopen, d', hd', hkeep _ _ other hother (Finset.ne_empty_of_mem hmem)⟩
    · intro k' d' hopen hd'
      obtain ⟨other, hother, hmem⟩ := hs.inRoom k' d' hopen hd'
      exact ⟨other, hkeep _ _ other hother (Finset.ne_empty_of_mem hmem), hmem⟩
  · exact hs.of_eq rfl rfl (if_neg hempty) rfl rfl

theorem disconnect (hs : RoomsOk instanceOf s) (hopen : k ∉ s.closed) :
    RoomsOk instanceOf (s.disconnect instanceOf h k) := by
  unfold Presence.disconnect
  split
  next hnone =>
    refine ⟨hs.fresh, hs.injective, ?_, ?_⟩
    · intro k' room hmem
      obtain ⟨hopen', d', hd', hroom⟩ := hs.member k' room hmem
      have hne : k' ≠ k := fun h => hs.notMem_of_documentId hnone room (h ▸ hmem)
      exact ⟨by simp [setHandler, hne, hopen'], d', hd', hroom⟩
    · intro k' d' hopen' hd'
      exact hs.inRoom k' d' (fun h => hopen' (Finset.mem_insert_of_mem h)) hd'
  next d hd =>
    obtain ⟨room, hroom, -⟩ := hs.inRoom k d hopen hd
    simp only [hroom]
    have hclose := hs.close hroom hd
    split
    · exact hclose.of_eq rfl rfl rfl rfl rfl
    · refine hclose.cleanupRoom fun hempty other hother => ?_
      cases hroom.symm.trans hother
      exact hempty

end Steps

end RoomsOk

end Presence

end Meridian
