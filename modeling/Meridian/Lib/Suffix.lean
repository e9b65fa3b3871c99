import Meridian.Lib.Splice
import Mathlib

/-! Edits that leave the end of a list alone. The list is a front, the part that is to stay, and
a tail that edits have put behind it; an edit may change the front or the tail, and at the end
nothing may be left of the tail. When deletions go from the back to the front, an insertion that
splits the part cannot be taken back. -/
namespace Splice

variable {α : Type*}

/-- No edit meets the part of `b` elements between a front and a tail, whose lengths these are,
and in the end there is no tail. -/
def PassesBy (b : ℕ) : ℕ → ℕ → List (Edit α) → Prop
  | _, tail, [] => tail = 0
  | front, tail, .insert p t :: edits =>
    if p ≤ front then PassesBy b (front + t.length) tail edits
    else front + b ≤ p ∧ PassesBy b front (tail + t.length) edits
  | front, tail, .delete s m :: edits =>
    if s + m ≤ front then PassesBy b (front - m) tail edits
    else if front + b ≤ s then PassesBy b front (tail - min m (front + b + tail - s)) edits
    else m = 0 ∧ PassesBy b front tail edits

instance PassesBy.decidable (b : ℕ) :
    ∀ front tail (edits : List (Edit α)), Decidable (PassesBy b front tail edits)
  | _, tail, [] => inferInstanceAs (Decidable (tail = 0))
  | front, tail, .insert p t :: edits =>
    have := PassesBy.decidable b (front + t.length) tail edits
    have := PassesBy.decidable b front (tail + t.length) edits
    inferInstanceAs (Decidable (if p ≤ front then _ else _ ∧ _))
  | front, tail, .delete s m :: edits =>
    have := PassesBy.decidable b (front - m) tail edits
    have := PassesBy.decidable b front (tail - min m (front + b + tail - s)) edits
    have := PassesBy.decidable b front tail edits
    inferInstanceAs (Decidable (if s + m ≤ front then _ else if front + b ≤ s then _ else _ ∧ _))

/-- No deletion lies behind an earlier deletion, or at or behind an earlier insertion. -/
def DeletesDown (edits : List (Edit α)) : Prop :=
  edits.Pairwise fun a b => b.isInsert = false → b.position ≤ a.position ∧
    (a.isInsert = true → b.position < a.position ∨ a.position = 0)

section Parts

variable {x y t : List α} {p s m : ℕ}

theorem insertAt_append_left (h : p ≤ x.length) :
    insertAt (x ++ y) p t = insertAt x p t ++ y := by
  simp [insertAt, List.take_append_of_le_length h, List.drop_append_of_le_length h]

theorem insertAt_append_right (h : x.length ≤ p) :
    insertAt (x ++ y) p t = x ++ insertAt y (p - x.length) t := by
  simp [insertAt, List.take_append, List.drop_append, List.take_of_length_le h,
    List.drop_of_length_le h]

theorem deleteAt_append_left (h : s + m ≤ x.length) :
    deleteAt (x ++ y) s m = deleteAt x s m ++ y := by
  simp [deleteAt, List.take_append_of_le_length ((Nat.le_add_right s m).trans h),
    List.drop_append_of_le_length h]

theorem deleteAt_append_right (h : x.length ≤ s) :
    deleteAt (x ++ y) s m = x ++ deleteAt y (s - x.length) m := by
  simp [deleteAt, List.take_append, List.drop_append, List.take_of_length_le h,
    List.drop_of_length_le (h.trans (Nat.le_add_right s m)), Nat.sub_add_comm h]

end Parts

section Runs

variable {k : ℕ}

theorem nodup_run (edits : List (Edit α)) {t : List Origin} (h : Fresh k t) :
    (run (tag k edits) t).Nodup := by
  induction edits generalizing k t with
  | nil => exact h.nodup
  | cons e edits ih =>
    cases e with
    | insert p text => exact ih h.insertAt
    | delete s m => exact ih h.deleteAt

theorem notMem_run_deleteAt (edits : List (Edit α)) {s m : ℕ} {x y : List Origin} {o : Origin}
    (h : Fresh k (x ++ o :: y)) (hs : s ≤ x.length) (hm : x.length < s + m) :
    o ∉ run (tag (k + 1) edits) (deleteAt (x ++ o :: y) s m) := by
  intro hrun
  have hmem := h.mem_of_run (by simp) hrun
  have hnodup := h.nodup
  rw [deleteAt, List.take_append_of_le_length hs, List.drop_append] at hmem
  rcases List.mem_append.mp hmem with hmem | hmem
  · exact List.disjoint_of_nodup_append hnodup (List.mem_of_mem_take hmem) List.mem_cons_self
  · rw [List.drop_of_length_le hm.le, List.nil_append,
      show s + m - x.length = s + m - x.length - 1 + 1 by omega, List.drop_succ_cons] at hmem
    exact (List.nodup_cons.mp hnodup.of_append_right).1 (List.mem_of_mem_drop hmem)

/-- An element before which all deletions start is taken away before what stands behind it. -/
theorem notMem_or_pair_sublist {edits : List (Edit α)} {x y : List Origin} {o o' : Origin}
    (h : Fresh k (x ++ o :: y)) (ho' : o' ∈ y) (horder : DeletesDown edits)
    (hstart : ∀ e ∈ edits, e.isInsert = false → e.position ≤ x.length) :
    o ∉ run (tag k edits) (x ++ o :: y) ∨ [o, o'].Sublist (run (tag k edits) (x ++ o :: y)) := by
  induction edits generalizing k x y with
  | nil =>
    refine .inr ((List.Sublist.cons_cons o ?_).trans (List.sublist_append_right _ _))
    exact List.singleton_sublist.mpr ho'
  | cons e edits ih =>
    obtain ⟨hfirst, hrest⟩ := List.pairwise_cons.mp horder
    rw [List.forall_mem_cons] at hstart
    cases e with
    | insert p text =>
      have hnext := h.insertAt (p := p) (m := text.length)
      change o ∉ run (tag (k + 1) edits) (insertAt _ p _) ∨
        [o, o'].Sublist (run (tag (k + 1) edits) (insertAt _ p _))
      rcases le_or_gt p x.length with hp | hp
      · rw [insertAt_append_left hp] at hnext ⊢
        refine ih hnext ho' hrest fun b hb hkind => (hstart.2 b hb hkind).trans ?_
        simp
      · have hsplit : insertAt (x ++ o :: y) p (insertedText k text.length) =
            x ++ o :: insertAt y (p - x.length - 1) (insertedText k text.length) := by
          rw [insertAt_append_right hp.le, ← List.singleton_append,
            insertAt_append_right (by simp; omega)]
          rfl
        rw [hsplit] at hnext ⊢
        exact ih hnext (mem_insertAt.mpr (.inl ho')) hrest hstart.2
    | delete s m =>
      have hnext := h.deleteAt (s := s) (n := m)
      have hs : s ≤ x.length := hstart.1 rfl
      change o ∉ run (tag (k + 1) edits) (deleteAt _ s m) ∨
        [o, o'].Sublist (run (tag (k + 1) edits) (deleteAt _ s m))
      rcases le_or_gt (s + m) x.length with hm | hm
      · rw [deleteAt_append_left hm] at hnext ⊢
        refine ih hnext ho' hrest fun b hb hkind => (hfirst b hb hkind).1.trans ?_
        change s ≤ _
        simp
        omega
      · exact .inl (notMem_run_deleteAt edits h hs hm)

theorem exists_split {l : List α} {i : ℕ} (h : i < l.length) :
    ∃ x o y, l = x ++ o :: y ∧ x.length = i := by
  refine ⟨l.take i, l[i], l.drop (i + 1), ?_, List.length_take_of_le h.le⟩
  rw [← List.drop_eq_getElem_cons h, List.take_append_drop]

theorem not_suffix_of_delete {edits : List (Edit α)} {front part tail : List Origin} {s m : ℕ}
    (h : Fresh k (front ++ part ++ tail)) (hne : part ≠ []) (hfront : front.length < s + m)
    (hpart : s < front.length + part.length) (hm : 0 < m) :
    ¬ ∃ front', run (tag (k + 1) edits) (deleteAt (front ++ part ++ tail) s m) =
      front' ++ part := by
  rintro ⟨front', hrun⟩
  have hpos := List.length_pos_iff.mpr hne
  obtain ⟨x, o, y, rfl, hx⟩ := exists_split (l := part) (i := s - front.length) (by omega)
  have hsplit : front ++ (x ++ o :: y) ++ tail = (front ++ x) ++ o :: (y ++ tail) := by simp
  rw [hsplit] at h hrun
  have hs : s ≤ (front ++ x).length := by
    rw [List.length_append]
    omega
  have hm' : (front ++ x).length < s + m := by
    rw [List.length_append]
    omega
  have hgone := notMem_run_deleteAt edits h hs hm'
  rw [hrun] at hgone
  simp at hgone

theorem not_suffix_of_split {edits : List (Edit α)} {front part tail : List Origin} {p m : ℕ}
    (h : Fresh k (front ++ part ++ tail)) (horder : DeletesDown edits)
    (hstart : ∀ e ∈ edits, e.isInsert = false → e.position < p) (hm : 0 < m)
    (hfront : front.length < p) (hpart : p < front.length + part.length) :
    ¬ ∃ front', run (tag (k + 1) edits)
      (insertAt (front ++ part ++ tail) p (insertedText k m)) = front' ++ part := by
  rintro ⟨front', hrun⟩
  obtain ⟨x, o, y, hxy, hx⟩ := exists_split (l := part) (i := p - front.length - 1) (by omega)
  have hsplit : insertAt (front ++ part ++ tail) p (insertedText k m) =
      (front ++ x) ++ o :: (insertedText k m ++ (y ++ tail)) := by
    rw [hxy, show front ++ (x ++ o :: y) ++ tail = (front ++ x ++ [o]) ++ (y ++ tail) by simp,
      insertAt_append_right (by simp; omega)]
    have hzero : p - (front ++ x ++ [o]).length = 0 := by
      simp
      omega
    rw [hzero]
    simp [insertAt]
  have hfresh := h.insertAt (p := p) (m := m)
  rw [hsplit] at hfresh hrun
  have hnew : Origin.inserted k 0 ∈ insertedText k m := mem_insertedText.mpr ⟨0, hm, rfl⟩
  have hold : Origin.inserted k 0 ∉ part := by
    intro hmem
    exact absurd (h.lt k 0 (by simp [hmem])) (lt_irrefl k)
  have ho : o ∈ part := by simp [hxy]
  rcases notMem_or_pair_sublist hfresh (List.mem_append_left _ hnew) horder
    (fun e he hkind => by have := hstart e he hkind; simp; omega) with hgone | hpair
  · exact hgone (hrun ▸ List.mem_append_right _ ho)
  · have hnodup := nodup_run edits hfresh
    rw [hrun] at hpair hnodup
    have hin : Origin.inserted k 0 ∈ front' ++ part := hpair.subset (by simp)
    exact not_swapped hnodup ((List.mem_append.mp hin).resolve_right hold) ho hpair

/-- Edits with deletions from the back to the front leave the part where it is, with nothing
behind it, exactly if none of them meets it and what they put behind it is taken away again. -/
theorem suffix_run_iff {edits : List (Edit α)} {front part tail : List Origin}
    (h : Fresh k (front ++ part ++ tail)) (hpart : part ≠ []) (horder : DeletesDown edits)
    (hne : ∀ p t, .insert p t ∈ edits → t ≠ []) :
    (∃ front', run (tag k edits) (front ++ part ++ tail) = front' ++ part) ↔
      PassesBy part.length front.length tail.length edits := by
  induction edits generalizing k front tail with
  | nil =>
    change (∃ front', front ++ part ++ tail = front' ++ part) ↔ tail.length = 0
    rw [List.length_eq_zero_iff]
    constructor
    · rintro ⟨front', heq⟩
      rcases List.eq_nil_or_concat' tail with rfl | ⟨l, o, rfl⟩
      · rfl
      · have hlast := congrArg List.getLast? heq
        rw [← List.append_assoc, List.getLast?_concat, List.getLast?_append_of_ne_nil _ hpart]
          at hlast
        exact absurd (List.mem_append_right _ (by simp))
          (List.disjoint_of_nodup_append h.nodup
            (List.mem_append_right _ (List.mem_of_getLast? hlast.symm)))
    · rintro rfl
      exact ⟨front, List.append_nil _⟩
  | cons e edits ih =>
    obtain ⟨hfirst, hrest⟩ := List.pairwise_cons.mp horder
    have hne' : ∀ p t, .insert p t ∈ edits → t ≠ [] :=
      fun p t hmem => hne p t (List.mem_cons_of_mem _ hmem)
    cases e with
    | insert p t =>
      have hnext := h.insertAt (p := p) (m := t.length)
      change (∃ front', run (tag (k + 1) edits) (insertAt _ p _) = _) ↔ ite _ _ _
      split
      next hp =>
        rw [List.append_assoc, insertAt_append_left hp, ← List.append_assoc] at hnext ⊢
        simpa [insertedText] using ih hnext hrest hne'
      next hp =>
        rcases le_or_gt (front.length + part.length) p with hback | hinside
        · have hlen : (front ++ part).length ≤ p := by simpa using hback
          rw [insertAt_append_right hlen] at hnext ⊢
          rw [and_iff_right hback]
          simpa [insertedText] using ih hnext hrest hne'
        · refine iff_of_false ?_ fun hpasses => absurd hpasses.1 (by omega)
          refine not_suffix_of_split h hrest (fun b hb hkind => ?_)
            (List.length_pos_iff.mpr (hne p t List.mem_cons_self)) (by omega) hinside
          exact ((hfirst b hb hkind).2 rfl).resolve_right (by change p ≠ 0; omega)
    | delete s m =>
      have hnext := h.deleteAt (s := s) (n := m)
      change (∃ front', run (tag (k + 1) edits) (deleteAt _ s m) = _) ↔ ite _ _ (ite _ _ _)
      split
      next hs =>
        rw [List.append_assoc, deleteAt_append_left hs, ← List.append_assoc] at hnext ⊢
        have := ih hnext hrest hne'
        rw [length_deleteAt, show min m (front.length - s) = m by omega] at this
        exact this
      next hs =>
        split
        next hback =>
          have hlen : (front ++ part).length ≤ s := by simpa using hback
          rw [deleteAt_append_right hlen, List.length_append] at hnext ⊢
          have := ih hnext hrest hne'
          rw [length_deleteAt] at this
          rwa [show front.length + part.length + tail.length - s =
            tail.length - (s - (front.length + part.length)) by omega]
        next hback =>
          rcases Nat.eq_zero_or_pos m with rfl | hm
          · have hsame : deleteAt (front ++ part ++ tail) s 0 = front ++ part ++ tail := by
              rw [deleteAt, Nat.add_zero, List.take_append_drop]
            rw [hsame] at hnext ⊢
            rw [and_iff_right rfl]
            exact ih hnext hrest hne'
          · exact iff_of_false (not_suffix_of_delete h hpart (by omega) (by omega) hm)
              fun hpasses => absurd hpasses.1 hm.ne'

theorem suffix_origins_iff {edits : List (Edit α)} {m n : ℕ} (h : m < n)
    (horder : DeletesDown edits) (hne : ∀ p t, .insert p t ∈ edits → t ≠ []) :
    (∃ front, origins n edits = front ++ (List.range' m (n - m)).map .original) ↔
      PassesBy (n - m) m 0 edits := by
  have hsplit : originalText n =
      (List.range m).map .original ++ (List.range' m (n - m)).map .original ++ [] := by
    rw [List.append_nil, ← List.map_append, originalText, List.range_eq_range',
      List.range_eq_range']
    have := @List.range'_append_1 0 m (n - m)
    rw [Nat.zero_add, Nat.add_sub_cancel' h.le] at this
    rw [this]
  have hfresh := fresh_originalText n
  rw [origins, hsplit]
  rw [hsplit] at hfresh
  have hpart : (List.range' m (n - m)).map Origin.original ≠ [] := by
    simp
    omega
  simpa using suffix_run_iff hfresh hpart horder hne

end Runs

/-- A list that is read off the origins ends as the first one does if its last origins are those
of the first one and read as there. -/
theorem drop_suffix_iff {l after : List α} {m : ℕ} {front : List Origin}
    {read : Origin → Option α}
    (h : (front ++ (List.range' m (l.length - m)).map Origin.original).map read = after.map some) :
    l.drop m <:+ after ↔ ∀ i, m ≤ i → i < l.length → read (.original i) = l[i]? := by
  rw [List.map_append, List.map_map] at h
  obtain ⟨first, rest, rfl, -, hrest⟩ := List.map_eq_append_iff.mp h.symm
  have hlength : (l.drop m).length = rest.length := by
    have := congrArg List.length hrest
    simpa using this.symm
  have hdrop : (l.drop m).map some =
      (List.range' m (l.length - m)).map fun i => l[i]? := by
    rw [← map_getElem?_range (l.drop m), List.length_drop, List.range'_eq_map_range,
      List.map_map]
    exact List.map_congr_left fun i _ => List.getElem?_drop
  have hsuffix : l.drop m <:+ first ++ rest ↔ l.drop m = rest := by
    refine ⟨fun h => ?_, fun h => h ▸ List.suffix_append first _⟩
    exact (List.suffix_of_suffix_length_le h (List.suffix_append first rest)
      hlength.le).eq_of_length hlength
  rw [hsuffix, ← List.map_inj_right fun _ _ => Option.some.inj, hdrop, hrest, List.map_inj_left]
  constructor
  · intro hall i hm hi
    exact (hall i (List.mem_range'_1.mpr ⟨hm, by omega⟩)).symm
  · intro hall i hi
    obtain ⟨hm, hlt⟩ := List.mem_range'_1.mp hi
    exact (hall i hm (by omega)).symm

end Splice
