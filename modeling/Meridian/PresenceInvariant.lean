import Meridian.PresenceMachine
import Mathlib

/-! The rooms, the counts and the names are right whenever nothing is in flight, as long as each
socket joins once and leaves afterwards. The sockets that are counted are the open ones whose
join has got that far and the closed ones that are not taken away yet. -/
namespace Meridian

namespace Presence

variable {I D U K H : Type}

/-- Every open socket that has entered a room is in the middle of its one join, or has finished
it. -/
structure Joins (s : Presence I D U K H) : Prop where
  entered : ∀ h k d, s.joining h = some (k, d) → s.documentId k = some d
  once : Tables.Once s.joining
  last : ∀ k d, s.lastJoin k = some d → s.documentId k = some d
  done : ∀ k d, k ∉ s.closed → s.documentId k = some d →
    s.lastJoin k = some d ∨ ∃ h, s.joining h = some (k, d)

/-- Every open socket that has entered a room is marked as counted, or will be. -/
structure Marks (s : Presence I D U K H) : Prop where
  isOpen : ∀ h k, s.unmarked h = some k → k ∉ s.closed
  marked : ∀ k d, k ∉ s.closed → s.documentId k = some d →
    s.presenceCounted k = true ∨ ∃ h, s.unmarked h = some k

structure Leaves (s : Presence I D U K H) : Prop where
  closed : ∀ h k d, s.leaving h = some (k, d) → k ∈ s.closed ∧ s.documentId k = some d
  once : Tables.Once s.leaving

section Sockets

variable {s t : Presence I D U K H} {h : H} {k : K} {d : D}

theorem Joins.of_eq (hs : Joins s) (hclosed : s.closed ⊆ t.closed)
    (hdoc : t.documentId = s.documentId) (hlast : t.lastJoin = s.lastJoin)
    (hjoining : t.joining = s.joining) : Joins t := by
  refine ⟨?_, ?_, ?_, ?_⟩
  · rw [hjoining, hdoc]
    exact hs.entered
  · rw [hjoining]
    exact hs.once
  · rw [hlast, hdoc]
    exact hs.last
  · rw [hdoc, hlast, hjoining]
    exact fun k d hopen => hs.done k d fun hin => hopen (hclosed hin)

theorem Marks.of_eq (hs : Marks s) (hclosed : t.closed = s.closed)
    (hdoc : t.documentId = s.documentId) (hcounted : t.presenceCounted = s.presenceCounted)
    (hunmarked : t.unmarked = s.unmarked) : Marks t := by
  refine ⟨?_, ?_⟩
  · rw [hunmarked, hclosed]
    exact hs.isOpen
  · rw [hclosed, hdoc, hcounted, hunmarked]
    exact hs.marked

theorem Leaves.of_eq (hs : Leaves s) (hclosed : s.closed ⊆ t.closed)
    (hdoc : ∀ k d, s.documentId k = some d → t.documentId k = some d)
    (hleaving : t.leaving = s.leaving) : Leaves t := by
  refine ⟨?_, ?_⟩
  · rw [hleaving]
    exact fun h k d hl => (hs.closed h k d hl).imp (@hclosed k) (hdoc k d)
  · rw [hleaving]
    exact hs.once

theorem documentId_update [DecidableEq K] (hnew : s.documentId k = none)
    (hdoc : t.documentId = Function.update s.documentId k (some d)) (k' : K) (d' : D)
    (hd' : s.documentId k' = some d') : t.documentId k' = some d' := by
  rw [hdoc, Function.update_of_ne, hd']
  rintro rfl
  simp [hnew] at hd'

theorem Marks.close [DecidableEq K] (hs : Marks s) (hu : ∀ h, s.unmarked h ≠ some k)
    (hclosed : t.closed = insert k s.closed) (hdoc : t.documentId = s.documentId)
    (hcounted : t.presenceCounted = s.presenceCounted) (hunmarked : t.unmarked = s.unmarked) :
    Marks t := by
  refine ⟨?_, ?_⟩
  · intro h' k' hu'
    rw [hunmarked] at hu'
    rw [hclosed, Finset.mem_insert, not_or]
    refine ⟨?_, hs.isOpen h' k' hu'⟩
    rintro rfl
    exact hu h' hu'
  · rw [hclosed, hdoc, hcounted, hunmarked]
    exact fun k' d' hopen => hs.marked k' d' fun hin => hopen (Finset.mem_insert_of_mem hin)

theorem Leaves.leave [DecidableEq H] (hs : Leaves s) (hclosed : t.closed = s.closed)
    (hdoc : t.documentId = s.documentId) (hleaving : t.leaving = Function.update s.leaving h none) :
    Leaves t := by
  refine ⟨?_, ?_⟩
  · rw [hclosed, hdoc, hleaving]
    exact fun h' k' d' hl => hs.closed h' k' d' (Tables.update_none_eq_some.mp hl).2
  · rw [hleaving]
    exact hs.once.update_none

variable [DecidableEq K] [DecidableEq H]

theorem Joins.enter (hs : Joins s) (hnone : s.joining h = none) (hnew : s.documentId k = none)
    (hclosed : t.closed = s.closed) (hdoc : t.documentId = Function.update s.documentId k (some d))
    (hlast : t.lastJoin = s.lastJoin)
    (hjoining : t.joining = Function.update s.joining h (some (k, d))) : Joins t := by
  have hnever : ∀ h' d', s.joining h' ≠ some (k, d') := by
    intro h' d' hj
    simpa [hnew] using hs.entered h' k d' hj
  refine ⟨?_, ?_, ?_, ?_⟩
  · intro h' k' d' hj
    rw [hjoining] at hj
    rcases Tables.update_eq_some.mp hj with ⟨-, he⟩ | ⟨-, hj⟩
    · cases he
      rw [hdoc, Function.update_self]
    · exact documentId_update hnew hdoc k' d' (hs.entered h' k' d' hj)
  · rw [hjoining]
    exact hs.once.update_some hnever
  · intro k' d' hl
    rw [hlast] at hl
    exact documentId_update hnew hdoc k' d' (hs.last k' d' hl)
  · intro k' d' hopen hd
    rw [hclosed] at hopen
    rw [hdoc] at hd
    rw [hlast, hjoining]
    rcases Tables.update_eq_some.mp hd with ⟨rfl, he⟩ | ⟨-, hd⟩
    · cases he
      exact .inr ⟨h, Function.update_self ..⟩
    · refine (hs.done k' d' hopen hd).imp_right (Tables.exists_update ?_)
      simp [hnone]

theorem Joins.finish (hs : Joins s) (hj : s.joining h = some (k, d)) (hclosed : t.closed = s.closed)
    (hdoc : t.documentId = s.documentId)
    (hlast : t.lastJoin = Function.update s.lastJoin k (some d))
    (hjoining : t.joining = Function.update s.joining h none) : Joins t := by
  have hd := hs.entered h k d hj
  refine ⟨?_, ?_, ?_, ?_⟩
  · rw [hdoc, hjoining]
    exact fun h' k' d' hj' => hs.entered h' k' d' (Tables.update_none_eq_some.mp hj').2
  · rw [hjoining]
    exact hs.once.update_none
  · intro k' d' hl
    rw [hlast] at hl
    rw [hdoc]
    rcases Tables.update_eq_some.mp hl with ⟨rfl, he⟩ | ⟨-, hl⟩
    · cases he
      exact hd
    · exact hs.last k' d' hl
  · intro k' d' hopen hd'
    rw [hclosed] at hopen
    rw [hdoc] at hd'
    rw [hlast, hjoining]
    by_cases hk : k' = k
    · subst hk
      rw [Function.update_self]
      exact .inl (hd.symm.trans hd')
    · rw [Function.update_of_ne hk]
      refine (hs.done k' d' hopen hd').imp_right (Tables.exists_update ?_)
      rw [hj]
      exact fun he => hk (congrArg Prod.fst (Option.some.inj he)).symm

theorem Marks.enter (hs : Marks s) (hnone : s.unmarked h = none) (hopen : k ∉ s.closed)
    (hclosed : t.closed = s.closed) (hdoc : t.documentId = Function.update s.documentId k (some d))
    (hcounted : t.presenceCounted = s.presenceCounted)
    (hunmarked : t.unmarked = Function.update s.unmarked h (some k)) : Marks t := by
  refine ⟨?_, ?_⟩
  · intro h' k' hu
    rw [hunmarked] at hu
    rw [hclosed]
    rcases Tables.update_eq_some.mp hu with ⟨-, he⟩ | ⟨-, hu⟩
    · cases he
      exact hopen
    · exact hs.isOpen h' k' hu
  · intro k' d' hopen' hd
    rw [hclosed] at hopen'
    rw [hdoc] at hd
    rw [hcounted, hunmarked]
    rcases Tables.update_eq_some.mp hd with ⟨rfl, -⟩ | ⟨-, hd⟩
    · exact .inr ⟨h, Function.update_self ..⟩
    · refine (hs.marked k' d' hopen' hd).imp_right (Tables.exists_update ?_)
      simp [hnone]

theorem Marks.mark (hs : Marks s) (hu : s.unmarked h = some k) (hclosed : t.closed = s.closed)
    (hdoc : t.documentId = s.documentId)
    (hcounted : t.presenceCounted = Function.update s.presenceCounted k true)
    (hunmarked : t.unmarked = Function.update s.unmarked h none) : Marks t := by
  refine ⟨?_, ?_⟩
  · rw [hunmarked, hclosed]
    exact fun h' k' hu' => hs.isOpen h' k' (Tables.update_none_eq_some.mp hu').2
  · intro k' d' hopen hd
    rw [hclosed] at hopen
    rw [hdoc] at hd
    rw [hcounted, hunmarked]
    by_cases hk : k' = k
    · subst hk
      exact .inl (Function.update_self ..)
    · rw [Function.update_of_ne hk]
      refine (hs.marked k' d' hopen hd).imp_right (Tables.exists_update ?_)
      rw [hu]
      exact fun he => hk (Option.some.inj he).symm

theorem Leaves.close (hs : Leaves s) (hopen : k ∉ s.closed) (hd : s.documentId k = some d)
    (hclosed : t.closed = insert k s.closed) (hdoc : t.documentId = s.documentId)
    (hleaving : t.leaving = Function.update s.leaving h (some (k, d))) : Leaves t := by
  have hnever : ∀ h' d', s.leaving h' ≠ some (k, d') :=
    fun h' d' hl => hopen (hs.closed h' k d' hl).1
  refine ⟨?_, ?_⟩
  · intro h' k' d' hl
    rw [hleaving] at hl
    rw [hclosed, hdoc]
    rcases Tables.update_eq_some.mp hl with ⟨-, he⟩ | ⟨-, hl⟩
    · cases he
      exact ⟨Finset.mem_insert_self .., hd⟩
    · exact (hs.closed h' k' d' hl).imp_left Finset.mem_insert_of_mem
  · rw [hleaving]
    exact hs.once.update_some hnever

end Sockets

/-- The sockets that are to be counted: the open ones whose join has got that far, and the closed
ones that are not taken away yet. -/
def Connected (s : Presence I D U K H) (k : K) : Prop :=
  (k ∉ s.closed ∧ s.documentId k ≠ none ∧ ∀ h, s.entering h ≠ some k) ∨
    ∃ h d, s.leaving h = some (k, d)

structure Counts [DecidableEq D] [DecidableEq U] (userOf : K → U) (s : Presence I D U K H) :
    Prop where
  counted : ∀ k, k ∈ s.counted ↔ s.Connected k
  counts : ∀ d u, s.counts d u = (s.connections userOf d u).card

/-- A user has a name if counted, except while the join that counted him first is on its way. -/
structure Names (userOf : K → U) (s : Presence I D U K H) : Prop where
  named : ∀ d u, s.identities d u = true → 0 < s.counts d u
  unnamed : ∀ d u, 0 < s.counts d u →
    s.identities d u = true ∨ ∃ h k, s.naming h = some (k, d) ∧ userOf k = u

section Users

variable {s t : Presence I D U K H} {h : H} {k : K} {d : D} {userOf : K → U}

theorem connected_congr {k' : K} (hclosed : k' ∈ t.closed ↔ k' ∈ s.closed)
    (hdoc : t.documentId k' = s.documentId k')
    (hentering : ∀ h, t.entering h = some k' ↔ s.entering h = some k')
    (hleaving : ∀ h d, t.leaving h = some (k', d) ↔ s.leaving h = some (k', d)) :
    t.Connected k' ↔ s.Connected k' := by
  simp only [Connected, hclosed, hdoc, hentering, hleaving, ne_eq]

theorem update_iff_of_ne [DecidableEq H] {X Y : Type} {f : H → Option X} {g : X → Y} {h' : H}
    {x : Option X} {y : X} (hx : ∀ z ∈ x, g z ≠ g y) (hf : ∀ z ∈ f h, g z ≠ g y) :
    Function.update f h x h' = some y ↔ f h' = some y := by
  rw [Tables.update_eq_some]
  constructor
  · rintro (⟨-, he⟩ | ⟨-, he⟩)
    · exact absurd rfl (hx y he)
    · exact he
  · intro he
    refine .inr ⟨?_, he⟩
    rintro rfl
    exact hf y he rfl

section Counts

variable [DecidableEq D] [DecidableEq U]

theorem Counts.of_eq (hs : Counts userOf s) (hclosed : t.closed = s.closed)
    (hdoc : t.documentId = s.documentId) (hcounted : t.counted = s.counted)
    (hcounts : t.counts = s.counts) (hentering : t.entering = s.entering)
    (hleaving : t.leaving = s.leaving) : Counts userOf t := by
  refine ⟨?_, ?_⟩
  · intro k'
    rw [hcounted, hs.counted, connected_congr] <;> simp [*]
  · simpa only [connections, hcounts, hcounted, hdoc] using hs.counts

/-- A socket that is counted, or no longer, changes no count but one. -/
theorem counts_set (hs : Counts userOf s) (hd : s.documentId k = some d)
    (hdoc : t.documentId = s.documentId)
    (hcounted : ∀ k', k' ≠ k → (k' ∈ t.counted ↔ k' ∈ s.counted))
    (hcounts : t.counts =
      Tables.set s.counts d (userOf k) (t.connections userOf d (userOf k)).card) (d' : D) (u : U) :
    t.counts d' u = (t.connections userOf d' u).card := by
  rw [hcounts]
  rcases Tables.set_cases s.counts d (userOf k) (t.connections userOf d (userOf k)).card d' u with
    ⟨rfl, rfl, h⟩ | ⟨hne, h⟩
  · rw [h]
  · rw [h, hs.counts]
    congr 1
    ext k'
    simp only [connections, Finset.mem_filter, hdoc]
    refine and_congr_left fun hk' => (hcounted k' ?_).symm
    rintro rfl
    rw [hd] at hk'
    exact hne ⟨(Option.some.inj hk'.1).symm, hk'.2.symm⟩

theorem Counts.closeOutside [DecidableEq K] (hs : Counts userOf s) (hnew : s.documentId k = none)
    (hclosed : t.closed = insert k s.closed) (hdoc : t.documentId = s.documentId)
    (hcounted : t.counted = s.counted) (hcounts : t.counts = s.counts)
    (hentering : t.entering = s.entering) (hleaving : t.leaving = s.leaving) :
    Counts userOf t := by
  refine ⟨?_, by simpa only [connections, hcounts, hcounted, hdoc] using hs.counts⟩
  intro k'
  rw [hcounted, hs.counted]
  by_cases hk : k' = k
  · subst hk
    simp [Connected, hclosed, hdoc, hnew, hleaving]
  · exact (connected_congr (by simp [hclosed, hk]) (by rw [hdoc]) (by simp [hentering])
      (by simp [hleaving])).symm

variable [DecidableEq K] [DecidableEq H]

theorem Counts.enter (hs : Counts userOf s) (hl : Leaves s) (hx : s.entering h = none)
    (hnew : s.documentId k = none) (hclosed : t.closed = s.closed)
    (hdoc : t.documentId = Function.update s.documentId k (some d))
    (hcounted : t.counted = s.counted) (hcounts : t.counts = s.counts)
    (hentering : t.entering = Function.update s.entering h (some k))
    (hleaving : t.leaving = s.leaving) : Counts userOf t := by
  have hnever : ∀ h' d', s.leaving h' ≠ some (k, d') := by
    intro h' d' hl'
    simpa [hnew] using (hl.closed h' k d' hl').2
  have hno : k ∉ s.counted := by
    rw [hs.counted]
    rintro (⟨-, hne, -⟩ | ⟨h', d', hl'⟩)
    · exact hne hnew
    · exact hnever h' d' hl'
  refine ⟨?_, ?_⟩
  · intro k'
    rw [hcounted]
    by_cases hk : k' = k
    · subst hk
      refine iff_of_false hno ?_
      rintro (⟨-, -, he⟩ | ⟨h', d', hl'⟩)
      · exact he h (by rw [hentering, Function.update_self])
      · exact hnever h' d' (hleaving ▸ hl')
    · rw [hs.counted]
      refine (connected_congr (by rw [hclosed]) ?_ (fun h' => ?_) (by simp [hleaving])).symm
      · rw [hdoc, Function.update_of_ne hk]
      · rw [hentering]
        refine update_iff_of_ne (g := id) ?_ (by simp [hx])
        rintro _ ⟨⟩
        exact fun he => hk he.symm
  · intro d' u
    rw [hcounts, hs.counts]
    congr 1
    ext k'
    simp only [connections, Finset.mem_filter, hcounted, hdoc]
    refine and_congr_right fun hk' => ?_
    rw [Function.update_of_ne]
    rintro rfl
    exact hno hk'

theorem Counts.presenceJoin (hs : Counts userOf s) (hj : Joins s) (hm : Marks s) (hl : Leaves s)
    (hx : s.entering h = some k) (hd : s.documentId k = some d) (hclosed : t.closed = s.closed)
    (hdoc : t.documentId = s.documentId) (hcounted : t.counted = insert k s.counted)
    (hcounts : t.counts = Tables.set s.counts d (userOf k) (s.counts d (userOf k) + 1))
    (hentering : t.entering = Function.update s.entering h none)
    (hleaving : t.leaving = s.leaving) : Counts userOf t := by
  have hopen := hm.isOpen h k (unmarked_of_entering hx)
  have honly : ∀ h', s.entering h' = some k → h' = h := by
    intro h' he
    obtain ⟨d₁, hj₁⟩ := joining_of_unmarked (unmarked_of_entering hx)
    obtain ⟨d₂, hj₂⟩ := joining_of_unmarked (unmarked_of_entering he)
    exact hj.once h h' k d₁ d₂ hj₁ hj₂
  have hno : k ∉ s.counted := by
    rw [hs.counted]
    rintro (⟨-, -, he⟩ | ⟨h', d', hl'⟩)
    · exact he h hx
    · exact hopen (hl.closed h' k d' hl').1
  refine ⟨?_, ?_⟩
  · intro k'
    rw [hcounted, Finset.mem_insert]
    by_cases hk : k' = k
    · subst hk
      refine iff_of_true (.inl rfl) (.inl ⟨hclosed ▸ hopen, by simp [hdoc, hd], fun h' he => ?_⟩)
      rw [hentering] at he
      obtain ⟨hne, he⟩ := Tables.update_none_eq_some.mp he
      exact hne (honly h' he)
    · rw [or_iff_right hk, hs.counted]
      refine (connected_congr (by rw [hclosed]) (by rw [hdoc]) (fun h' => ?_)
        (by simp [hleaving])).symm
      rw [hentering]
      refine update_iff_of_ne (g := id) (by simp) ?_
      rw [hx]
      rintro _ ⟨⟩
      exact fun he => hk he.symm
  · refine counts_set hs hd hdoc (fun k' hk => by simp [hcounted, hk]) ?_
    have : t.connections userOf d (userOf k) = insert k (s.connections userOf d (userOf k)) := by
      rw [connections, hcounted, hdoc, Finset.filter_insert, if_pos ⟨hd, rfl⟩, connections]
    rw [hcounts, this, Finset.card_insert_of_notMem, ← hs.counts]
    exact fun hk => hno (Finset.mem_filter.mp hk).1

theorem Counts.close (hs : Counts userOf s) (hx : s.leaving h = none) (hopen : k ∉ s.closed)
    (hd : s.documentId k = some d) (hu : ∀ h, s.entering h ≠ some k)
    (hclosed : t.closed = insert k s.closed)
    (hdoc : t.documentId = s.documentId) (hcounted : t.counted = s.counted)
    (hcounts : t.counts = s.counts) (hentering : t.entering = s.entering)
    (hleaving : t.leaving = Function.update s.leaving h (some (k, d))) : Counts userOf t := by
  refine ⟨?_, by simpa only [connections, hcounts, hcounted, hdoc] using hs.counts⟩
  intro k'
  rw [hcounted, hs.counted]
  by_cases hk : k' = k
  · subst hk
    refine iff_of_true (.inl ⟨hopen, by simp [hd], hu⟩) (.inr ⟨h, d, ?_⟩)
    rw [hleaving, Function.update_self]
  · refine (connected_congr (by simp [hclosed, hk]) (by rw [hdoc]) (by simp [hentering])
      fun h' d' => ?_).symm
    rw [hleaving]
    refine update_iff_of_ne (g := Prod.fst) ?_ (by simp [hx])
    rintro _ ⟨⟩
    exact fun he => hk he.symm

theorem Counts.leave (hs : Counts userOf s) (hl : Leaves s) (hx : s.leaving h = some (k, d))
    (hclosed : t.closed = s.closed) (hdoc : t.documentId = s.documentId)
    (hcounted : t.counted = s.counted.erase k)
    (hcounts : t.counts = Tables.set s.counts d (userOf k) (s.counts d (userOf k) - 1))
    (hentering : t.entering = s.entering)
    (hleaving : t.leaving = Function.update s.leaving h none) : Counts userOf t := by
  obtain ⟨hin, hd⟩ := hl.closed h k d hx
  have hk : k ∈ s.counted := (hs.counted k).mpr (.inr ⟨h, d, hx⟩)
  refine ⟨?_, ?_⟩
  · intro k'
    rw [hcounted, Finset.mem_erase]
    by_cases hk : k' = k
    · subst hk
      refine iff_of_false (fun h => h.1 rfl) ?_
      rintro (⟨hopen, -, -⟩ | ⟨h', d', hl'⟩)
      · exact hopen (hclosed ▸ hin)
      · rw [hleaving] at hl'
        obtain ⟨hne, hl'⟩ := Tables.update_none_eq_some.mp hl'
        exact hne (hl.once h h' k' d d' hx hl')
    · rw [and_iff_right hk, hs.counted]
      refine (connected_congr (by rw [hclosed]) (by rw [hdoc]) (by simp [hentering])
        fun h' d' => ?_).symm
      rw [hleaving]
      refine update_iff_of_ne (g := Prod.fst) (by simp) ?_
      rw [hx]
      rintro _ ⟨⟩
      exact fun he => hk he.symm
  · refine counts_set hs hd hdoc (fun k' hk => by simp [hcounted, hk]) ?_
    have : t.connections userOf d (userOf k) = (s.connections userOf d (userOf k)).erase k := by
      rw [connections, hcounted, hdoc, Finset.filter_erase, connections]
    rw [hcounts, this, Finset.card_erase_of_mem, ← hs.counts]
    exact Finset.mem_filter.mpr ⟨hk, hd, rfl⟩

end Counts

theorem Names.of_eq (hs : Names userOf s) (hnames : t.identities = s.identities)
    (hcounts : t.counts = s.counts) (hnaming : t.naming = s.naming) : Names userOf t := by
  refine ⟨?_, ?_⟩
  · rw [hnames, hcounts]
    exact hs.named
  · rw [hnames, hcounts, hnaming]
    exact hs.unnamed

variable [DecidableEq D] [DecidableEq U]

theorem Names.leave (hs : Names userOf s) (hnaming : t.naming = s.naming) {u : U} {n : ℕ}
    (hn : n ≤ s.counts d u) (hcounts : t.counts = Tables.set s.counts d u n)
    (hnames : t.identities = if n = 0 then Tables.set s.identities d u false else s.identities) :
    Names userOf t := by
  have hof : ∀ d' u', t.identities d' u' = true → s.identities d' u' = true := by
    intro d' u' h
    rw [hnames] at h
    split at h
    · rcases Tables.set_cases s.identities d u false d' u' with ⟨-, -, he⟩ | ⟨-, he⟩
      · cases he.symm.trans h
      · exact he.symm.trans h
    · exact h
  refine ⟨?_, ?_⟩
  · intro d' u' h
    rw [hcounts]
    rcases Tables.set_cases s.counts d u n d' u' with ⟨rfl, rfl, he⟩ | ⟨-, he⟩
    · rw [he]
      by_contra h0
      rw [hnames, if_pos (by omega), Tables.set_self] at h
      cases h
    · rw [he]
      exact hs.named d' u' (hof d' u' h)
  · intro d' u' hpos
    rw [hcounts] at hpos
    rw [hnaming]
    rcases Tables.set_cases s.counts d u n d' u' with ⟨rfl, rfl, he⟩ | ⟨hne, he⟩
    · rw [he] at hpos
      rw [hnames, if_neg (by omega)]
      exact hs.unnamed d' u' (by omega)
    · rw [he] at hpos
      refine (hs.unnamed d' u' hpos).imp_left fun h => ?_
      rw [hnames]
      split
      · rwa [Tables.set_of_ne _ _ hne]
      · exact h

variable [DecidableEq H]

theorem Names.presenceJoin (hs : Names userOf s) (hx : s.naming h = none)
    (hnames : t.identities = s.identities)
    (hcounts : t.counts = Tables.set s.counts d (userOf k) (s.counts d (userOf k) + 1))
    (hnaming : t.naming = Function.update s.naming h
      (if s.counts d (userOf k) = 0 then some (k, d) else none)) : Names userOf t := by
  refine ⟨?_, ?_⟩
  · intro d' u h
    rw [hcounts]
    rw [hnames] at h
    rcases Tables.set_cases s.counts d (userOf k) (s.counts d (userOf k) + 1) d' u with
      ⟨rfl, rfl, he⟩ | ⟨-, he⟩
    · rw [he]
      omega
    · rw [he]
      exact hs.named d' u h
  · intro d' u hpos
    have hold : 0 < s.counts d' u → t.identities d' u = true ∨
        ∃ h' k', t.naming h' = some (k', d') ∧ userOf k' = u := by
      intro hpos
      rw [hnames]
      refine (hs.unnamed d' u hpos).imp_right ?_
      rintro ⟨h', k', hn, hu⟩
      refine ⟨h', k', ?_, hu⟩
      rw [hnaming, Function.update_of_ne, hn]
      rintro rfl
      simp [hx] at hn
    rw [hcounts] at hpos
    rcases Tables.set_cases s.counts d (userOf k) (s.counts d (userOf k) + 1) d' u with
      ⟨rfl, rfl, -⟩ | ⟨-, he⟩
    · by_cases h0 : s.counts d' (userOf k) = 0
      · refine .inr ⟨h, k, ?_, rfl⟩
        rw [hnaming, Function.update_self, if_pos h0]
      · exact hold (by omega)
    · exact hold (he ▸ hpos)

theorem Names.setPresenceIdentity (hs : Names userOf s) (hx : s.naming h = some (k, d))
    (hpos : 0 < s.counts d (userOf k)) (hcounts : t.counts = s.counts)
    (hnames : t.identities = Tables.set s.identities d (userOf k) true)
    (hnaming : t.naming = Function.update s.naming h none) : Names userOf t := by
  refine ⟨?_, ?_⟩
  · intro d' u h
    rw [hcounts]
    rw [hnames] at h
    rcases Tables.set_cases s.identities d (userOf k) true d' u with ⟨rfl, rfl, -⟩ | ⟨-, he⟩
    · exact hpos
    · exact hs.named d' u (he.symm.trans h)
  · intro d' u hpos'
    rw [hcounts] at hpos'
    rw [hnames]
    rcases Tables.set_cases s.identities d (userOf k) true d' u with ⟨-, -, he⟩ | ⟨hne, he⟩
    · exact .inl he
    · rw [he]
      refine (hs.unnamed d' u hpos').imp_right ?_
      rintro ⟨h', k', hn, hu⟩
      refine ⟨h', k', ?_, hu⟩
      rw [hnaming, Function.update_of_ne, hn]
      rintro rfl
      rw [hx] at hn
      cases hn
      exact hne ⟨rfl, hu.symm⟩

end Users

structure Idle (x : Option (PresenceHandler I D K)) : Prop where
  joining : x.bind PresenceHandler.joining? = none
  unmarked : x.bind PresenceHandler.unmarked? = none
  entering : x.bind PresenceHandler.entering? = none
  naming : x.bind PresenceHandler.naming? = none
  leaving : x.bind PresenceHandler.leaving? = none

theorem idle_none : Idle (none : Option (PresenceHandler I D K)) := ⟨rfl, rfl, rfl, rfl, rfl⟩

theorem idle_authorizing (k : K) (d : D) :
    Idle (some (.authorizing k d : PresenceHandler I D K)) := ⟨rfl, rfl, rfl, rfl, rfl⟩

theorem idle_left (i : I) (d : D) (room : ℕ) :
    Idle (some (.left i d room : PresenceHandler I D K)) := ⟨rfl, rfl, rfl, rfl, rfl⟩

theorem idle_returning : Idle (some (.returning : PresenceHandler I D K)) :=
  ⟨rfl, rfl, rfl, rfl, rfl⟩

structure Sound [DecidableEq D] [DecidableEq U] (instanceOf : K → I) (userOf : K → U)
    (s : Presence I D U K H) : Prop where
  rooms : RoomsOk instanceOf s
  joins : Joins s
  marks : Marks s
  leaves : Leaves s
  counts : Counts userOf s
  names : Names userOf s

namespace Sound

variable {instanceOf : K → I} {userOf : K → U} {s t : Presence I D U K H} {h : H} {k : K} {d : D}

variable [DecidableEq D] [DecidableEq U]

theorem initial : Sound instanceOf userOf (initial : Presence I D U K H) where
  rooms := ⟨by simp [Presence.initial], by simp [Presence.initial], by simp [Presence.initial],
    by simp [Presence.initial]⟩
  joins := ⟨by simp [Presence.initial, doing], by simp [Presence.initial, doing, Tables.Once],
    by simp [Presence.initial], by simp [Presence.initial]⟩
  marks := ⟨by simp [Presence.initial, doing], by simp [Presence.initial]⟩
  leaves := ⟨by simp [Presence.initial, doing], by simp [Presence.initial, doing, Tables.Once]⟩
  counts := ⟨by simp [Presence.initial, doing, Connected], by simp [Presence.initial, connections]⟩
  names := ⟨by simp [Presence.initial], by simp [Presence.initial]⟩

variable [DecidableEq H]

theorem idle (hs : Sound instanceOf userOf s) {x : Option (PresenceHandler I D K)}
    (hold : Idle (s.handlers h)) (hx : Idle x)
    (ht : t.handlers = Function.update s.handlers h x) (hrooms : RoomsOk instanceOf t)
    (hclosed : t.closed = s.closed) (hdoc : t.documentId = s.documentId)
    (hmarked : t.presenceCounted = s.presenceCounted) (hcounts : t.counts = s.counts)
    (hnames : t.identities = s.identities) (hlast : t.lastJoin = s.lastJoin)
    (hcounted : t.counted = s.counted) : Sound instanceOf userOf t where
  rooms := hrooms
  joins := hs.joins.of_eq hclosed.superset hdoc hlast
    (doing_of_eq _ ht (hx.joining.trans hold.joining.symm))
  marks := hs.marks.of_eq hclosed hdoc hmarked
    (doing_of_eq _ ht (hx.unmarked.trans hold.unmarked.symm))
  leaves := hs.leaves.of_eq hclosed.superset (by simp [hdoc])
    (doing_of_eq _ ht (hx.leaving.trans hold.leaving.symm))
  counts := hs.counts.of_eq hclosed hdoc hcounted hcounts
    (doing_of_eq _ ht (hx.entering.trans hold.entering.symm))
    (doing_of_eq _ ht (hx.leaving.trans hold.leaving.symm))
  names := hs.names.of_eq hnames hcounts (doing_of_eq _ ht (hx.naming.trans hold.naming.symm))

theorem setHandler (hs : Sound instanceOf userOf s) {x : Option (PresenceHandler I D K)}
    (hold : Idle (s.handlers h)) (hx : Idle x) : Sound instanceOf userOf (s.setHandler h x) :=
  hs.idle hold hx rfl (hs.rooms.of_eq rfl rfl rfl rfl rfl) rfl rfl rfl rfl rfl rfl rfl

theorem setPresenceIdentity (hs : Sound instanceOf userOf s)
    (hx : s.handlers h = some (.naming k d)) (hpos : 0 < s.counts d (userOf k)) :
    Sound instanceOf userOf
      ((s.setIdentity d (userOf k) true).setHandler h (some (.joined k d))) := by
  set t := (s.setIdentity d (userOf k) true).setHandler h (some (.joined k d))
  have ht : t.handlers = Function.update s.handlers h (some (.joined k d)) := rfl
  have hleaving := doing_move PresenceHandler.leaving? hx ht rfl
  refine ⟨hs.rooms.of_eq rfl rfl rfl rfl rfl, ?_, ?_, ?_, ?_, ?_⟩
  · exact hs.joins.of_eq subset_rfl rfl rfl
      (doing_move PresenceHandler.joining? hx ht rfl)
  · exact hs.marks.of_eq rfl rfl rfl (doing_move PresenceHandler.unmarked? hx ht rfl)
  · exact hs.leaves.of_eq subset_rfl (fun _ _ => id) hleaving
  · exact hs.counts.of_eq rfl rfl rfl rfl
      (doing_move PresenceHandler.entering? hx ht rfl) hleaving
  · exact hs.names.setPresenceIdentity (doing_eq _ hx) hpos rfl rfl (doing_update _ ht)

variable [DecidableEq K]

theorem presenceJoin (hs : Sound instanceOf userOf s) (hx : s.handlers h = some (.entered k d))
    {n : ℕ} (hn : n = s.counts d (userOf k) + 1) :
    Sound instanceOf userOf
      { (s.setCount d (userOf k) n).setHandler h (some (.incremented k d (n == 1))) with
        counted := insert k s.counted } := by
  subst hn
  set y : PresenceHandler I D K := .incremented k d (s.counts d (userOf k) + 1 == 1) with hy
  set t : Presence I D U K H :=
    { (s.setCount d (userOf k) (s.counts d (userOf k) + 1)).setHandler h (some y) with
      counted := insert k s.counted }
  have ht : t.handlers = Function.update s.handlers h (some y) := rfl
  have hleaving := doing_move PresenceHandler.leaving? hx ht rfl
  have hjoining := doing_move PresenceHandler.joining? hx ht rfl
  have hnaming : (some y).bind PresenceHandler.naming? =
      if s.counts d (userOf k) = 0 then some (k, d) else none := by
    by_cases h0 : s.counts d (userOf k) = 0 <;> simp [hy, PresenceHandler.naming?, h0]
  have hd := hs.joins.entered h k d (doing_eq _ hx)
  refine ⟨hs.rooms.of_eq rfl rfl rfl rfl rfl, ?_, ?_, ?_, ?_, ?_⟩
  · exact hs.joins.of_eq subset_rfl rfl rfl hjoining
  · exact hs.marks.of_eq rfl rfl rfl (doing_move PresenceHandler.unmarked? hx ht rfl)
  · exact hs.leaves.of_eq subset_rfl (fun _ _ => id) hleaving
  · exact hs.counts.presenceJoin hs.joins hs.marks hs.leaves (doing_eq _ hx) hd rfl rfl rfl rfl
      (doing_update _ ht) hleaving
  · exact hs.names.presenceJoin (doing_eq _ hx) rfl rfl (hnaming ▸ doing_update _ ht)

theorem setCounted (hs : Sound instanceOf userOf s) {isFirst : Bool}
    (hx : s.handlers h = some (.incremented k d isFirst)) :
    Sound instanceOf userOf
      { s.setHandler h (some (if isFirst then .naming k d else .joined k d)) with
        presenceCounted := Function.update s.presenceCounted k true } := by
  set y : PresenceHandler I D K := if isFirst then .naming k d else .joined k d with hy
  set t : Presence I D U K H := { s.setHandler h (some y) with
    presenceCounted := Function.update s.presenceCounted k true }
  have ht : t.handlers = Function.update s.handlers h (some y) := rfl
  have hsame : y.joining? = some (k, d) ∧ y.unmarked? = none ∧ y.entering? = none ∧
      y.naming? = (PresenceHandler.incremented k d isFirst : PresenceHandler I D K).naming? ∧
      y.leaving? = none := by
    cases isFirst <;> exact ⟨rfl, rfl, rfl, rfl, rfl⟩
  obtain ⟨hj, hu, he, hn, hl⟩ := hsame
  have hleaving := doing_move PresenceHandler.leaving? hx ht hl
  refine ⟨hs.rooms.of_eq rfl rfl rfl rfl rfl, ?_, ?_, ?_, ?_, ?_⟩
  · exact hs.joins.of_eq subset_rfl rfl rfl (doing_move _ hx ht hj)
  · exact hs.marks.mark (doing_eq _ hx) rfl rfl rfl (hu ▸ doing_update _ ht)
  · exact hs.leaves.of_eq subset_rfl (fun _ _ => id) hleaving
  · exact hs.counts.of_eq rfl rfl rfl rfl (doing_move _ hx ht he)
      hleaving
  · exact hs.names.of_eq rfl rfl (doing_move _ hx ht hn)

theorem finishJoin (hs : Sound instanceOf userOf s) (hx : s.handlers h = some (.joined k d)) :
    Sound instanceOf userOf
      { s.setHandler h none with lastJoin := Function.update s.lastJoin k (some d) } := by
  set t : Presence I D U K H :=
    { s.setHandler h none with lastJoin := Function.update s.lastJoin k (some d) }
  have ht : t.handlers = Function.update s.handlers h none := rfl
  have hleaving := doing_move PresenceHandler.leaving? hx ht rfl
  refine ⟨hs.rooms.of_eq rfl rfl rfl rfl rfl, ?_, ?_, ?_, ?_, ?_⟩
  · exact hs.joins.finish (doing_eq _ hx) rfl rfl rfl (doing_update _ ht)
  · exact hs.marks.of_eq rfl rfl rfl (doing_move PresenceHandler.unmarked? hx ht rfl)
  · exact hs.leaves.of_eq subset_rfl (fun _ _ => id) hleaving
  · exact hs.counts.of_eq rfl rfl rfl rfl
      (doing_move PresenceHandler.entering? hx ht rfl) hleaving
  · exact hs.names.of_eq rfl rfl (doing_move PresenceHandler.naming? hx ht rfl)

theorem leave (hs : Sound instanceOf userOf s) {room : ℕ}
    (hx : s.handlers h = some (.leaving k d room)) :
    Sound instanceOf userOf (s.leave instanceOf userOf h k d room) := by
  set t := s.leave instanceOf userOf h k d room
  have ht : t.handlers = Function.update s.handlers h (some (.left (instanceOf k) d room)) := rfl
  have hleaving : t.leaving = Function.update s.leaving h none := doing_update _ ht
  refine ⟨hs.rooms.of_eq rfl rfl rfl rfl rfl, ?_, ?_, ?_, ?_, ?_⟩
  · exact hs.joins.of_eq subset_rfl rfl rfl (doing_move PresenceHandler.joining? hx ht rfl)
  · exact hs.marks.of_eq rfl rfl rfl (doing_move PresenceHandler.unmarked? hx ht rfl)
  · exact hs.leaves.leave rfl rfl hleaving
  · exact hs.counts.leave hs.leaves (doing_eq _ hx) rfl rfl rfl rfl
      (doing_move PresenceHandler.entering? hx ht rfl) hleaving
  · exact hs.names.leave (doing_move PresenceHandler.naming? hx ht rfl) (Nat.sub_le _ _) rfl rfl

variable [DecidableEq I]

theorem enter (hs : Sound instanceOf userOf s) (hx : s.handlers h = some (.authorizing k d))
    (hopen : k ∉ s.closed) (hnew : s.documentId k = none) :
    Sound instanceOf userOf (s.enter instanceOf h k d) := by
  have hold : Idle (s.handlers h) := hx ▸ idle_authorizing k d
  have ht : (s.enter instanceOf h k d).handlers =
      Function.update s.handlers h (some (.entered k d)) := rfl
  have hleaving := doing_of_eq PresenceHandler.leaving? ht hold.leaving.symm
  refine ⟨hs.rooms.enter hopen hnew, ?_, ?_, ?_, ?_, ?_⟩
  · exact hs.joins.enter hold.joining hnew rfl rfl rfl (doing_update _ ht)
  · exact hs.marks.enter hold.unmarked hopen rfl rfl rfl (doing_update _ ht)
  · exact hs.leaves.of_eq subset_rfl (documentId_update hnew rfl) hleaving
  · exact hs.counts.enter hs.leaves hold.entering hnew rfl rfl rfl rfl (doing_update _ ht) hleaving
  · exact hs.names.of_eq rfl rfl (doing_of_eq _ ht hold.naming.symm)

theorem disconnect (hs : Sound instanceOf userOf s) (hx : s.handlers h = none)
    (hopen : k ∉ s.closed) (hu : ∀ h, s.unmarked h ≠ some k) :
    Sound instanceOf userOf (s.disconnect instanceOf h k) := by
  have hold : Idle (s.handlers h) := hx ▸ idle_none
  have hsub : s.closed ⊆ insert k s.closed := Finset.subset_insert k s.closed
  have hrooms := hs.rooms.disconnect (h := h) hopen
  cases hd : s.documentId k with
  | none =>
    set t := { s with closed := insert k s.closed }.setHandler h (some .returning) with hdef
    have hs' : s.disconnect instanceOf h k = t := by simp only [Presence.disconnect, hd, hdef]
    have ht : t.handlers = Function.update s.handlers h (some .returning) := rfl
    have hleaving := doing_of_eq PresenceHandler.leaving? ht hold.leaving.symm
    rw [hs'] at hrooms ⊢
    refine ⟨hrooms, ?_, ?_, ?_, ?_, ?_⟩
    · exact hs.joins.of_eq hsub rfl rfl (doing_of_eq _ ht hold.joining.symm)
    · exact hs.marks.close hu rfl rfl rfl (doing_of_eq _ ht hold.unmarked.symm)
    · exact hs.leaves.of_eq hsub (fun _ _ => id) hleaving
    · exact hs.counts.closeOutside hd rfl rfl rfl rfl (doing_of_eq _ ht hold.entering.symm)
        hleaving
    · exact hs.names.of_eq rfl rfl (doing_of_eq _ ht hold.naming.symm)
  | some d =>
    obtain ⟨room, hroom, -⟩ := hs.rooms.inRoom k d hopen hd
    have hmarked : s.presenceCounted k = true :=
      (hs.marks.marked k d hopen hd).resolve_right fun ⟨h', hu'⟩ => hu h' hu'
    set t := { s with
      closed := insert k s.closed
      rooms := Function.update s.rooms room ((s.rooms room).erase k) }.setHandler h
        (some (.leaving k d room)) with hdef
    have hs' : s.disconnect instanceOf h k = t := by
      simp only [Presence.disconnect, hd, hroom, hmarked, if_true, hdef]
    have ht : t.handlers = Function.update s.handlers h (some (.leaving k d room)) := rfl
    have hleaving : t.leaving = Function.update s.leaving h (some (k, d)) := doing_update _ ht
    rw [hs'] at hrooms ⊢
    refine ⟨hrooms, ?_, ?_, ?_, ?_, ?_⟩
    · exact hs.joins.of_eq hsub rfl rfl (doing_of_eq _ ht hold.joining.symm)
    · exact hs.marks.close hu rfl rfl rfl (doing_of_eq _ ht hold.unmarked.symm)
    · exact hs.leaves.close hopen hd rfl rfl hleaving
    · exact hs.counts.close hold.leaving hopen hd (fun h' he => hu h' (unmarked_of_entering he))
        rfl rfl rfl rfl (doing_of_eq _ ht hold.entering.symm) hleaving
    · exact hs.names.of_eq rfl rfl (doing_of_eq _ ht hold.naming.symm)

theorem step (hs : Sound instanceOf userOf s) {a : PresenceAction D K H} (hok : OneJoin userOf s a)
    (ht : s.step instanceOf userOf a = some t) : Sound instanceOf userOf t := by
  cases a with
  | handleJoin h k d =>
    obtain ⟨⟨-, hx⟩, ht⟩ := Option.ite_none_right_eq_some.mp ht
    cases ht
    exact hs.setHandler (Option.isNone_iff_eq_none.mp hx ▸ idle_none) (idle_authorizing k d)
  | handleDisconnect h k =>
    obtain ⟨⟨hopen, hx⟩, ht⟩ := Option.ite_none_right_eq_some.mp ht
    cases ht
    exact hs.disconnect (Option.isNone_iff_eq_none.mp hx) hopen hok
  | forbid h =>
    simp only [Presence.step] at ht
    split at ht
    next k d hx =>
      cases ht
      exact hs.setHandler (hx ▸ idle_authorizing k d) idle_none
    next => cases ht
  | enterRoom h =>
    simp only [Presence.step] at ht
    split at ht
    next k d hx =>
      cases ht
      obtain ⟨hopen, hnew⟩ := hok k d hx
      exact hs.enter hx hopen hnew
    next => cases ht
  | presenceJoin h =>
    simp only [Presence.step] at ht
    split at ht
    next k d hx =>
      cases ht
      exact hs.presenceJoin hx rfl
    next => cases ht
  | setCounted h =>
    simp only [Presence.step] at ht
    split at ht
    next k d isFirst hx =>
      cases ht
      exact hs.setCounted hx
    next => cases ht
  | setPresenceIdentity h =>
    simp only [Presence.step] at ht
    split at ht
    next k d hx =>
      cases ht
      exact hs.setPresenceIdentity hx (hok k d hx)
    next => cases ht
  | finishJoin h =>
    simp only [Presence.step] at ht
    split at ht
    next k d hx =>
      cases ht
      exact hs.finishJoin hx
    next => cases ht
  | presenceLeave h =>
    simp only [Presence.step] at ht
    split at ht
    next k d room hx =>
      cases ht
      exact hs.leave hx
    next => cases ht
  | cleanup h =>
    simp only [Presence.step] at ht
    split at ht
    next i d room hx =>
      cases ht
      exact hs.idle (hx ▸ idle_left i d room) idle_returning rfl
        (hs.rooms.cleanupRoom (hok i d room hx)) rfl rfl rfl rfl rfl rfl rfl
    next => cases ht
  | finish h =>
    simp only [Presence.step] at ht
    split at ht
    next hx =>
      cases ht
      exact hs.setHandler (hx ▸ idle_returning) idle_none
    next => cases ht

theorem of_reach (hs : Runs.Reach (Presence.step instanceOf userOf) (· = Presence.initial)
    (OneJoin userOf) s) : Sound instanceOf userOf s := by
  refine hs.invariant (P := Sound instanceOf userOf) ?_ fun _ _ _ h hok ht => h.step hok ht
  rintro _ rfl
  exact initial

end Sound

/-- The rooms, the counts and the names are those of the open sockets. -/
def Truthful (userOf : K → U) (s : Presence I D U K H) : Prop :=
  (∀ k d, s.InRoom k d ↔ k ∉ s.closed ∧ s.lastJoin k = some d) ∧
    ∀ d u, s.counts d u = (s.present userOf d u).ncard ∧
      (s.identities d u = true ↔ (s.present userOf d u).Nonempty)

section Settled

variable {s : Presence I D U K H}

theorem Settled.doing (hs : Settled s) {X : Type} (c : PresenceHandler I D K → Option X) (h : H) :
    s.doing c h = none := by
  simp [Presence.doing, hs h]

/-- With nothing in flight the open sockets in rooms are those whose join has finished. -/
theorem Settled.lastJoin_iff (hs : Settled s) (hj : Joins s) {k : K} (hopen : k ∉ s.closed)
    (d : D) : s.lastJoin k = some d ↔ s.documentId k = some d := by
  refine ⟨hj.last k d, fun hd => (hj.done k d hopen hd).resolve_right ?_⟩
  rintro ⟨h, hh⟩
  rw [joining, hs.doing] at hh
  cases hh

variable [DecidableEq D] [DecidableEq U] {instanceOf : K → I} {userOf : K → U}

theorem Settled.inRoom_iff (hs : Settled s) (hsound : Sound instanceOf userOf s) (k : K) (d : D) :
    s.InRoom k d ↔ k ∉ s.closed ∧ s.lastJoin k = some d := by
  constructor
  · rintro ⟨i, room, hroom, hk⟩
    obtain ⟨hopen, d', hd', hroom'⟩ := hsound.rooms.member k room hk
    obtain ⟨-, rfl⟩ := hsound.rooms.injective _ _ _ _ room hroom hroom'
    exact ⟨hopen, (hs.lastJoin_iff hsound.joins hopen _).mpr hd'⟩
  · rintro ⟨hopen, hl⟩
    obtain ⟨room, hroom, hk⟩ := hsound.rooms.inRoom k d hopen (hsound.joins.last k d hl)
    exact ⟨instanceOf k, room, hroom, hk⟩

theorem Settled.coe_connections (hs : Settled s) (hsound : Sound instanceOf userOf s) (d : D)
    (u : U) : (s.connections userOf d u : Set K) = s.present userOf d u := by
  ext k
  rw [Finset.mem_coe, connections, Finset.mem_filter, hsound.counts.counted]
  constructor
  · rintro ⟨⟨hopen, -, -⟩ | ⟨h, d', hl⟩, hd, hu⟩
    · exact ⟨hopen, (hs.lastJoin_iff hsound.joins hopen d).mpr hd, hu⟩
    · rw [leaving, hs.doing] at hl
      cases hl
  · rintro ⟨hopen, hl, hu⟩
    have hd := hsound.joins.last k d hl
    refine ⟨.inl ⟨hopen, by simp [hd], fun h he => ?_⟩, hd, hu⟩
    rw [entering, hs.doing] at he
    cases he

theorem Settled.identities_iff (hs : Settled s) (hsound : Sound instanceOf userOf s) (d : D)
    (u : U) : s.identities d u = true ↔ (s.present userOf d u).Nonempty := by
  rw [← hs.coe_connections hsound, Finset.coe_nonempty, ← Finset.card_pos, ← hsound.counts.counts]
  refine ⟨hsound.names.named d u, fun hpos => (hsound.names.unnamed d u hpos).resolve_right ?_⟩
  rintro ⟨h, k, hn, -⟩
  rw [naming, hs.doing] at hn
  cases hn

theorem Settled.truthful (hs : Settled s) (hsound : Sound instanceOf userOf s) :
    s.Truthful userOf := by
  refine ⟨hs.inRoom_iff hsound, fun d u => ⟨?_, hs.identities_iff hsound d u⟩⟩
  rw [hsound.counts.counts, ← Set.ncard_coe_finset, hs.coe_connections hsound]

end Settled

/-- In a run where each socket joins once and leaves afterwards, the rooms, the counts and the
names are those of the open sockets whenever nothing is in flight. -/
theorem truthful_of_reach [DecidableEq I] [DecidableEq D] [DecidableEq U] [DecidableEq K]
    [DecidableEq H] (instanceOf : K → I) (userOf : K → U) {s : Presence I D U K H}
    (hs : Runs.Reach (step instanceOf userOf) (· = initial) (OneJoin userOf) s)
    (hsettled : Settled s) : s.Truthful userOf :=
  hsettled.truthful (Sound.of_reach hs)

abbrev Pair : Type := Presence Bool Unit Unit Bool Bool

abbrev Pair.step (s : Pair) : PresenceAction Unit Bool Bool → Option Pair :=
  Presence.step id (fun _ => ()) s

abbrev Pair.ok (s : Pair) (a : PresenceAction Unit Bool Bool) : Prop := OneJoin (fun _ => ()) s a

/-- Both sockets join, one in the middle of the other's join, and the first one leaves. -/
theorem truthful_joined : ∃ s : Pair, s.closed = {false} ∧ s.lastJoin = (fun _ => some ()) ∧
    s.counts () () = 1 ∧ s.Truthful (fun _ => ()) := by
  have h₀ : Runs.Reach Pair.step (· = initial) Pair.ok initial := .start rfl
  have h₁ := h₀.next (a := PresenceAction.handleJoin false false ()) trivial rfl
  have h₂ := h₁.next (a := PresenceAction.enterRoom false)
    (fun k _ _ => ⟨Finset.notMem_empty k, rfl⟩) rfl
  have h₃ := h₂.next (a := PresenceAction.handleJoin true true ()) trivial rfl
  have h₄ := h₃.next (a := PresenceAction.presenceJoin false) trivial rfl
  have h₅ := h₄.next (a := PresenceAction.setCounted false) trivial rfl
  have h₆ := h₅.next (a := PresenceAction.enterRoom true) (fun k _ hk => by
    cases hk
    exact ⟨Finset.notMem_empty _, rfl⟩) rfl
  have h₇ := h₆.next (a := PresenceAction.presenceJoin true) trivial rfl
  have h₈ := h₇.next (a := PresenceAction.setPresenceIdentity false)
    (fun _ _ _ => Nat.two_pos) rfl
  have h₉ := h₈.next (a := PresenceAction.finishJoin false) trivial rfl
  have h₁₀ := h₉.next (a := PresenceAction.setCounted true) trivial rfl
  have h₁₁ := h₁₀.next (a := PresenceAction.handleDisconnect false false) (fun h => by
    cases h <;> exact (Option.some_ne_none false).symm) rfl
  have h₁₂ := h₁₁.next (a := PresenceAction.finishJoin true) trivial rfl
  have h₁₃ := h₁₂.next (a := PresenceAction.presenceLeave false) trivial rfl
  have h₁₄ := h₁₃.next (a := PresenceAction.cleanup false) (fun i d room hroom _ other hother => by
    cases hroom
    cases hother
    rfl) rfl
  have h₁₅ := h₁₄.next (a := PresenceAction.finish false) trivial rfl
  refine ⟨_, rfl, ?_, rfl, truthful_of_reach id (fun _ => ()) h₁₅ ?_⟩
  · funext k
    cases k <;> rfl
  · rintro (_ | _) <;> rfl

abbrev Single : Type := Presence Unit Unit Unit Unit Bool

abbrev Single.step (s : Single) : PresenceAction Unit Unit Bool → Option Single :=
  Presence.step id id s

/-- A socket that closes before its join is counted stays a participant. -/
theorem truthful_fails : ¬ ∀ s : Single, Runs.Reachable Single.step (· = initial) s → Settled s →
    s.Truthful id := by
  intro h
  obtain ⟨s, hs, hsettled, hclosed, hcounts⟩ : ∃ s : Single,
      Runs.exec Single.step initial [.handleJoin false () (), .enterRoom false,
        .handleDisconnect true (), .presenceJoin false, .setCounted false,
        .setPresenceIdentity false, .finishJoin false, .finish true] = some s ∧
      Settled s ∧ () ∈ s.closed ∧ s.counts () () = 1 := by
    refine ⟨_, rfl, ?_, by decide, rfl⟩
    rintro (_ | _) <;> rfl
  have hnone : s.present id () () = ∅ := by
    refine Set.eq_empty_of_forall_notMem fun k hk => hk.1 hclosed
  have := ((h s (Runs.reachable_exec rfl hs) hsettled).2 () ()).1
  rw [hcounts, hnone, Set.ncard_empty] at this
  cases this

end Presence

end Meridian
