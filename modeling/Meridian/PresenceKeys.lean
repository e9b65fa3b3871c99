import Meridian.Lib.Runs
import Meridian.Lib.Tables
import Mathlib

/-! The two presence hashes of one document, command by command. A join increments its
user's count and writes the name only if the count was then 1; a leave is one script. The
names follow the counts because the socket that owes a name is counted itself. -/
namespace Meridian

inductive SocketPresence
  | idle | naming | joined | left
  deriving DecidableEq

def SocketPresence.isCounted (p : SocketPresence) : Bool := p = .naming ∨ p = .joined

/-- Users `U`, sockets `K` and display names `N`. `counts` and `identities` are the hashes, a
missing field is `none`. The counted sockets, and the joins and leaves of each user, are kept
for the statements. -/
structure PresenceKeys (U K N : Type) where
  counts : U → Option ℤ
  identities : U → Option N
  sockets : K → SocketPresence
  counted : Finset K
  joins : U → ℕ
  leaves : U → ℕ

inductive PresenceCommand (K N : Type)
  | presenceJoin (socket : K)
  | setPresenceIdentity (socket : K) (name : N)
  | presenceLeave (socket : K)

namespace PresenceKeys

variable {U K N : Type}

def initial : PresenceKeys U K N where
  counts _ := none
  identities _ := none
  sockets _ := .idle
  counted := ∅
  joins _ := 0
  leaves _ := 0

def hIncrBy (counts : U → Option ℤ) (user : U) (increment : ℤ) : ℤ :=
  (counts user).getD 0 + increment

section Hashes

variable [DecidableEq U] {userOf : K → U} {s s' : PresenceKeys U K N}

def connections (userOf : K → U) (counted : Finset K) (u : U) : ℕ :=
  (counted.filter fun k => userOf k = u).card

/-- The field of a count: it is there from the first connection on. -/
def countField (n : ℕ) : Option ℤ := if n = 0 then none else some n

theorem countField_getD (n : ℕ) : (countField n).getD 0 = n := by
  unfold countField
  split <;> simp [*]

theorem countField_eq_some {n : ℕ} {m : ℤ} : countField n = some m ↔ 1 ≤ m ∧ m = n := by
  unfold countField
  split
  · simp
    omega
  · simp
    omega

/-- Some socket of the user has been the first one and has not written the name yet. -/
def Owed (userOf : K → U) (s : PresenceKeys U K N) (u : U) : Prop :=
  ∃ k, userOf k = u ∧ s.sockets k = .naming

structure UserOk (userOf : K → U) (s : PresenceKeys U K N) (u : U) : Prop where
  count : s.counts u = countField (connections userOf s.counted u)
  tally : s.joins u = s.leaves u + connections userOf s.counted u
  named : (s.identities u).isSome → 0 < connections userOf s.counted u
  owed : 0 < connections userOf s.counted u → (s.identities u).isSome ∨ Owed userOf s u

structure Inv (userOf : K → U) (s : PresenceKeys U K N) : Prop where
  counted : ∀ k, k ∈ s.counted ↔ (s.sockets k).isCounted
  user : ∀ u, UserOk userOf s u

theorem inv_initial : Inv userOf (initial : PresenceKeys U K N) where
  counted k := by simp [initial, SocketPresence.isCounted]
  user u := by constructor <;> simp [initial, connections, countField]

theorem Inv.hIncrBy_eq (h : Inv userOf s) (u : U) (increment : ℤ) :
    hIncrBy s.counts u increment = connections userOf s.counted u + increment := by
  rw [hIncrBy, (h.user u).count, countField_getD]

theorem connections_pos {counted : Finset K} {k : K} (hk : k ∈ counted) :
    0 < connections userOf counted (userOf k) :=
  Finset.card_pos.mpr ⟨k, Finset.mem_filter.mpr ⟨hk, rfl⟩⟩

theorem UserOk.other {k : K} {u : U} (h : UserOk userOf s u) (hu : u ≠ userOf k)
    (hcounts : s'.counts u = s.counts u) (hnames : s'.identities u = s.identities u)
    (hsockets : ∀ k', k' ≠ k → s'.sockets k' = s.sockets k')
    (hconn : connections userOf s'.counted u = connections userOf s.counted u)
    (hjoins : s'.joins u = s.joins u) (hleaves : s'.leaves u = s.leaves u) :
    UserOk userOf s' u where
  count := by rw [hcounts, hconn, h.count]
  tally := by rw [hjoins, hleaves, hconn, h.tally]
  named := by simpa only [hnames, hconn] using h.named
  owed hpos := by
    rw [hnames]
    refine (h.owed (hconn ▸ hpos)).imp id ?_
    rintro ⟨k', rfl, hn⟩
    refine ⟨k', rfl, (hsockets k' ?_).trans hn⟩
    rintro rfl
    exact hu rfl

end Hashes

variable [DecidableEq U] [DecidableEq K] {userOf : K → U} {s s' : PresenceKeys U K N}

/-- One command; every socket belongs to a user. -/
def step (userOf : K → U) (s : PresenceKeys U K N) :
    PresenceCommand K N → Option (PresenceKeys U K N)
  | .presenceJoin k =>
    if s.sockets k = .idle then
      let n := hIncrBy s.counts (userOf k) 1
      some { s with
        counts := Function.update s.counts (userOf k) (some n)
        sockets := Function.update s.sockets k (if n = 1 then .naming else .joined)
        counted := insert k s.counted
        joins := Function.update s.joins (userOf k) (s.joins (userOf k) + 1) }
    else none
  | .setPresenceIdentity k name =>
    if s.sockets k = .naming then
      some { s with
        identities := Function.update s.identities (userOf k) (some name)
        sockets := Function.update s.sockets k .joined }
    else none
  | .presenceLeave k =>
    if s.sockets k = .joined then
      let n := hIncrBy s.counts (userOf k) (-1)
      some { s with
        counts := Function.update s.counts (userOf k) (if n ≤ 0 then none else some n)
        identities := if n ≤ 0 then Function.update s.identities (userOf k) none else s.identities
        sockets := Function.update s.sockets k .left
        counted := s.counted.erase k
        leaves := Function.update s.leaves (userOf k) (s.leaves (userOf k) + 1) }
    else none

abbrev Reachable (userOf : K → U) : PresenceKeys U K N → Prop :=
  Runs.Reachable (step userOf) fun s => s = initial

theorem connections_insert {counted : Finset K} {k : K} (hk : k ∉ counted) (u : U) :
    connections userOf (insert k counted) u =
      connections userOf counted u + if userOf k = u then 1 else 0 := by
  unfold connections
  rw [Finset.filter_insert]
  split
  · rw [Finset.card_insert_of_notMem (by simp [hk])]
  · rfl

theorem connections_erase {counted : Finset K} {k : K} (hk : k ∈ counted) (u : U) :
    connections userOf counted u =
      connections userOf (counted.erase k) u + if userOf k = u then 1 else 0 := by
  rw [← connections_insert (Finset.notMem_erase k counted), Finset.insert_erase hk]

/-- A first join is owed a name; a later one finds the name written or owed. -/
theorem Inv.presenceJoin (h : Inv userOf s) {k : K} (hk : s.sockets k = .idle)
    (hs : step userOf s (.presenceJoin k) = some s') : Inv userOf s' := by
  have hnew : k ∉ s.counted := by simp [h.counted, hk, SocketPresence.isCounted]
  have hconn : ∀ u, connections userOf (insert k s.counted) u =
      connections userOf s.counted u + if userOf k = u then 1 else 0 := connections_insert hnew
  simp only [step, hk, if_true, Option.some.injEq, h.hIncrBy_eq] at hs
  subst hs
  refine ⟨fun k' => ?_, fun u => ?_⟩
  · by_cases hk' : k' = k
    · subst hk'
      simp only [Finset.mem_insert_self, Function.update_self, true_iff]
      split <;> rfl
    · simp [hk', h.counted]
  · by_cases hu : u = userOf k
    · subst hu
      have hold := h.user (userOf k)
      refine ⟨?_, ?_, fun _ => ?_, fun _ => ?_⟩
      · simp [hconn, countField]
      · simp only [Function.update_self, hconn, hold.tally, if_true]
        omega
      · simp [hconn]
      · by_cases hzero : connections userOf s.counted (userOf k) = 0
        · exact .inr ⟨k, rfl, by simp [hzero]⟩
        · refine (hold.owed (Nat.pos_of_ne_zero hzero)).imp id ?_
          rintro ⟨k', hk', hn⟩
          refine ⟨k', hk', ?_⟩
          have hne : k' ≠ k := by
            rintro rfl
            rw [hk] at hn
            cases hn
          simpa [hne] using hn
    · exact (h.user u).other hu (by simp [hu]) rfl (fun k' hk' => by simp [hk'])
        (by simp [hconn, Ne.symm hu]) (by simp [hu]) rfl

theorem Inv.setPresenceIdentity (h : Inv userOf s) {k : K} (hk : s.sockets k = .naming) (name : N) :
    Inv userOf { s with
      identities := Function.update s.identities (userOf k) (some name)
      sockets := Function.update s.sockets k .joined } := by
  have hcounted : k ∈ s.counted := by simp [h.counted, hk, SocketPresence.isCounted]
  refine ⟨fun k' => ?_, fun u => ?_⟩
  · by_cases hk' : k' = k
    · subst hk'
      simp [hcounted, SocketPresence.isCounted]
    · simp [hk', h.counted]
  · by_cases hu : u = userOf k
    · subst hu
      have hold := h.user (userOf k)
      exact ⟨hold.count, hold.tally, fun _ => connections_pos hcounted, fun _ => .inl (by simp)⟩
    · exact (h.user u).other hu rfl (by simp [hu]) (fun k' hk' => by simp [hk']) rfl rfl rfl

/-- The last leave takes the name away; before it, whoever owes the name stays. -/
theorem Inv.presenceLeave (h : Inv userOf s) {k : K} (hk : s.sockets k = .joined)
    (hs : step userOf s (.presenceLeave k) = some s') : Inv userOf s' := by
  have hcounted : k ∈ s.counted := by simp [h.counted, hk, SocketPresence.isCounted]
  have hconn : ∀ u, connections userOf s.counted u =
      connections userOf (s.counted.erase k) u + if userOf k = u then 1 else 0 :=
    connections_erase hcounted
  have hlast : connections userOf s.counted (userOf k) + (-1 : ℤ) =
      connections userOf (s.counted.erase k) (userOf k) := by
    simp [hconn (userOf k)]
  simp only [step, hk, if_true, Option.some.injEq, h.hIncrBy_eq, hlast] at hs
  subst hs
  refine ⟨fun k' => ?_, fun u => ?_⟩
  · by_cases hk' : k' = k
    · subst hk'
      simp [SocketPresence.isCounted]
    · simp [hk', h.counted]
  · by_cases hu : u = userOf k
    · subst hu
      have hold := h.user (userOf k)
      have hone := hconn (userOf k)
      rw [if_pos rfl] at hone
      refine ⟨?_, ?_, fun hn => ?_, fun hpos => ?_⟩
      · simp [countField]
      · simp only [Function.update_self, hold.tally]
        omega
      · by_contra hzero
        simp [Nat.eq_zero_of_not_pos hzero] at hn
      · have hne : ¬ (connections userOf (s.counted.erase k) (userOf k) : ℤ) ≤ 0 := by
          dsimp only at hpos
          omega
        simp only [hne, if_false]
        refine (hold.owed (by omega)).imp id ?_
        rintro ⟨k', hk', hn⟩
        refine ⟨k', hk', ?_⟩
        have hne' : k' ≠ k := by
          rintro rfl
          rw [hk] at hn
          cases hn
        simpa [hne'] using hn
    · refine (h.user u).other hu (by simp [hu]) ?_ (fun k' hk' => by simp [hk'])
        (by simp [hconn u, Ne.symm hu]) rfl (by simp [hu])
      dsimp only
      split <;> simp [hu]

theorem inv_step {a : PresenceCommand K N} (h : Inv userOf s)
    (hs : step userOf s a = some s') : Inv userOf s' := by
  cases a with
  | presenceJoin k => exact h.presenceJoin (Option.ite_none_right_eq_some.mp hs).1 hs
  | setPresenceIdentity k name =>
    obtain ⟨hk, hs⟩ := Option.ite_none_right_eq_some.mp hs
    cases hs
    exact h.setPresenceIdentity hk name
  | presenceLeave k => exact h.presenceLeave (Option.ite_none_right_eq_some.mp hs).1 hs

theorem Reachable.inv (h : Reachable userOf s) : Inv userOf s :=
  Runs.Reach.invariant (fun _ hs => hs ▸ inv_initial) (fun _ _ _ hi _ hs => inv_step hi hs) h

/-- Whatever the order of the commands: the count of a user is its joins less its leaves and
its field is never zero or negative; and while no join is between its two commands, exactly
the users with a count have a name. -/
theorem identities_lockstep (h : Reachable userOf s) (u : U) :
    (s.counts u).getD 0 = s.joins u - s.leaves u ∧ (∀ n, s.counts u = some n → 1 ≤ n) ∧
    ((∀ k, s.sockets k ≠ .naming) →
      ((s.identities u).isSome ↔ ∃ n, s.counts u = some n ∧ 1 ≤ n)) := by
  obtain ⟨hcount, htally, hnamed, howed⟩ := h.inv.user u
  refine ⟨?_, ?_, fun hnone => ⟨fun hn => ?_, ?_⟩⟩
  · rw [hcount, countField_getD, htally]
    omega
  · intro n hn
    exact (countField_eq_some.mp (hcount.symm.trans hn)).1
  · have hpos := hnamed hn
    refine ⟨connections userOf s.counted u, ?_, by omega⟩
    rw [hcount, countField_eq_some]
    omega
  · rintro ⟨n, hn, -⟩
    have hn' := countField_eq_some.mp (hcount.symm.trans hn)
    rcases howed (by omega) with hi | ⟨k, -, hk⟩
    · exact hi
    · exact absurd hk (hnone k)

/-- Sockets 0 and 2 are two tabs of one user; the second joins before the first has written
the name, and the first leaves. Socket 1 is another user, who comes and goes. -/
def crossingTabs : List (PresenceCommand ℕ String) :=
  [.presenceJoin 0, .presenceJoin 2, .presenceJoin 1, .setPresenceIdentity 0 "author",
    .presenceLeave 0, .setPresenceIdentity 1 "editor", .presenceLeave 1]

theorem identities_lockstep_crossingTabs :
    ∃ s, Runs.exec (step (· % 2)) initial crossingTabs = some s ∧
      s.counts 0 = some 1 ∧ s.counts 1 = none ∧ (s.identities 0).isSome ∧
      (s.counts 0).getD 0 = s.joins 0 - s.leaves 0 ∧ (∀ n, s.counts 0 = some n → 1 ≤ n) ∧
      ((∀ k, s.sockets k ≠ .naming) →
        ((s.identities 0).isSome ↔ ∃ n, s.counts 0 = some n ∧ 1 ≤ n)) := by
  obtain ⟨s, hs⟩ : ∃ s, Runs.exec (step (U := ℕ) (· % 2)) initial crossingTabs = some s := ⟨_, rfl⟩
  refine ⟨s, hs, ?_, ?_, ?_, identities_lockstep (Runs.reachable_exec rfl hs) 0⟩ <;>
    · cases hs
      rfl

end PresenceKeys

end Meridian
