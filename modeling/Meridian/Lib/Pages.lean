import Mathlib

/-! A list read in pages. Each page is cut out of the list sorted by a key, and elements with
equal keys may stand in another order for every page. All pages together give the list exactly
when no elements with equal keys stand on both sides of a page's end. -/
namespace Pages

variable {A K : Type*} [LinearOrder K] {key : A → K} {rows l l' : List A}

/-- An order of the rows in which the keys do not go up. -/
structure Arrangement (key : A → K) (rows l : List A) : Prop where
  perm : l.Perm rows
  sorted : l.Pairwise fun a b => key b ≤ key a

def page (limit k : ℕ) (l : List A) : List A := (l.drop (k * limit)).take limit

def pages (limit : ℕ) (arranged : ℕ → List A) (n : ℕ) : List A :=
  (List.range n).flatMap fun k => page limit k (arranged k)

/-- No rows with equal keys stand on both sides of a place. -/
def Steady (key : A → K) (rows : List A) (b : ℕ) : Prop :=
  ∀ x ∈ rows, b ≤ rows.countP (fun y => key x < key y) ∨
    rows.countP (fun y => key x ≤ key y) ≤ b

instance (key : A → K) (rows : List A) (b : ℕ) : Decidable (Steady key rows b) :=
  inferInstanceAs (Decidable (∀ x ∈ rows, _ ∨ _))

theorem exists_arrangement (key : A → K) (rows : List A) : ∃ l, Arrangement key rows l := by
  have : Std.Total fun a b : A => key b ≤ key a := ⟨fun a b => le_total _ _⟩
  have : IsTrans A fun a b => key b ≤ key a := ⟨fun a b c hab hbc => hbc.trans hab⟩
  exact ⟨rows.insertionSort fun a b => key b ≤ key a, List.perm_insertionSort _ _,
    List.pairwise_insertionSort _ _⟩

section Sorted

variable {p : A → Bool}

theorem filter_eq_take (h : l.Pairwise fun a b => p b → p a) :
    l.filter p = l.take (l.countP p) := by
  induction l with
  | nil => rfl
  | cons a l ih =>
    obtain ⟨hfirst, hrest⟩ := List.pairwise_cons.mp h
    by_cases ha : p a
    · rw [List.filter_cons_of_pos ha, List.countP_cons_of_pos ha, List.take_succ_cons, ih hrest]
    · have hnone : ∀ b ∈ l, ¬ p b := fun b hb hp => ha (hfirst b hb hp)
      rw [List.filter_cons_of_neg ha, List.countP_cons_of_neg ha, List.filter_eq_nil_iff.mpr hnone,
        List.countP_eq_zero.mpr hnone, List.take_zero]

theorem getElem_iff_lt_countP (h : l.Pairwise fun a b => p b → p a) {i : ℕ} (hi : i < l.length) :
    p l[i] ↔ i < l.countP p := by
  induction l generalizing i with
  | nil => cases hi
  | cons a l ih =>
    obtain ⟨hfirst, hrest⟩ := List.pairwise_cons.mp h
    cases i with
    | zero =>
      refine ⟨fun ha => List.countP_pos_iff.mpr ⟨a, List.mem_cons_self, ha⟩, fun hpos => ?_⟩
      obtain ⟨b, hb, hp⟩ := List.countP_pos_iff.mp hpos
      rcases List.mem_cons.mp hb with rfl | hb
      · exact hp
      · exact hfirst b hb hp
    | succ i =>
      have hi : i < l.length := Nat.lt_of_succ_lt_succ hi
      rw [List.getElem_cons_succ, ih hrest hi]
      by_cases ha : p a
      · rw [List.countP_cons_of_pos ha, Nat.succ_lt_succ_iff]
      · have hnone : ∀ b ∈ l, ¬ p b := fun b hb hp => ha (hfirst b hb hp)
        rw [List.countP_cons_of_neg ha, List.countP_eq_zero.mpr hnone]
        simp

end Sorted

namespace Arrangement

theorem monotone_le (h : Arrangement key rows l) (k : K) :
    l.Pairwise fun a b => decide (k ≤ key b) → decide (k ≤ key a) :=
  h.sorted.imp fun hab hb => decide_eq_true ((of_decide_eq_true hb).trans hab)

theorem monotone_lt (h : Arrangement key rows l) (k : K) :
    l.Pairwise fun a b => decide (k < key b) → decide (k < key a) :=
  h.sorted.imp fun hab hb => decide_eq_true ((of_decide_eq_true hb).trans_le hab)

/-- The first part of a list up to a place without a tie is given by a bound on the key. -/
theorem exists_bound (h : Arrangement key rows l) {b : ℕ} (hb : 0 < b) (hlen : b ≤ rows.length)
    (hsteady : Steady key rows b) : ∃ k, rows.countP (fun y => k ≤ key y) = b := by
  have hlt : b - 1 < l.length := by
    rw [h.perm.length_eq]
    omega
  have habove := getElem_iff_lt_countP (h.monotone_lt (key l[b - 1])) hlt
  have hfrom := getElem_iff_lt_countP (h.monotone_le (key l[b - 1])) hlt
  simp only [lt_irrefl, le_refl, decide_true, decide_false, h.perm.countP_eq] at habove hfrom
  refine ⟨key l[b - 1], le_antisymm ?_ ?_⟩
  · refine (hsteady _ (h.perm.subset (List.getElem_mem hlt))).resolve_left fun hle => ?_
    exact absurd (habove.mpr (by omega)) (by simp)
  · have := hfrom.mp trivial
    omega

theorem take_perm (h : Arrangement key rows l) (h' : Arrangement key rows l') {b : ℕ}
    (hsteady : Steady key rows b) : (l.take b).Perm (l'.take b) := by
  have hperm := h.perm.trans h'.perm.symm
  rcases Nat.eq_zero_or_pos b with rfl | hb
  · exact .refl _
  rcases le_or_gt rows.length b with hlen | hlen
  · rwa [List.take_of_length_le (h.perm.length_eq.trans_le hlen),
      List.take_of_length_le (h'.perm.length_eq.trans_le hlen)]
  · obtain ⟨k, rfl⟩ := h.exists_bound hb hlen.le hsteady
    rw [← h.perm.countP_eq, ← filter_eq_take (h.monotone_le k), h.perm.countP_eq,
      ← h'.perm.countP_eq, ← filter_eq_take (h'.monotone_le k)]
    exact hperm.filter _

end Arrangement

theorem Arrangement.swap {u v : List A} {y z : A} (h : Arrangement key rows (u ++ y :: z :: v))
    (hkey : key y = key z) : Arrangement key rows (u ++ z :: y :: v) := by
  refine ⟨((List.Perm.swap y z v).append_left u).trans h.perm, ?_⟩
  have hmap : (u ++ z :: y :: v).map key = (u ++ y :: z :: v).map key := by simp [hkey]
  have hsorted : ((u ++ y :: z :: v).map key).Pairwise fun a b => b ≤ a :=
    List.pairwise_map.mpr h.sorted
  rw [← hmap] at hsorted
  exact List.pairwise_map.mp hsorted

/-- Where there is a tie, some order has neighbours with equal keys on both sides. -/
theorem exists_tie {b : ℕ} (h : ¬ Steady key rows b) : ∃ u y z v,
    Arrangement key rows (u ++ y :: z :: v) ∧ u.length + 1 = b ∧ key y = key z := by
  obtain ⟨l, hl⟩ := exists_arrangement key rows
  obtain ⟨x, hx, hlow, hhigh⟩ : ∃ x ∈ rows, rows.countP (fun y => key x < key y) < b ∧
      b < rows.countP (fun y => key x ≤ key y) := by
    unfold Steady at h
    push Not at h
    exact h
  have hlength : b < l.length := by
    rw [hl.perm.length_eq]
    exact hhigh.trans_le List.countP_le_length
  have hequal : ∀ i (hi : i < l.length), b ≤ i + 1 → i ≤ b → key l[i] = key x := by
    intro i hi hle hge
    have habove := getElem_iff_lt_countP (hl.monotone_lt (key x)) hi
    have hfrom := getElem_iff_lt_countP (hl.monotone_le (key x)) hi
    rw [hl.perm.countP_eq, decide_eq_true_eq] at habove hfrom
    refine le_antisymm (not_lt.mp fun hlt => ?_) (hfrom.mpr (hge.trans_lt hhigh))
    have := habove.mp hlt
    omega
  obtain ⟨i, rfl⟩ : ∃ i, b = i + 1 := Nat.exists_eq_succ_of_ne_zero (by omega)
  refine ⟨l.take i, l[i], l[i + 1], l.drop (i + 2), ?_, ?_, ?_⟩
  · rwa [← List.drop_eq_getElem_cons hlength, ← List.drop_eq_getElem_cons, List.take_append_drop]
  · rw [List.length_take]
    omega
  · exact (hequal i (by omega) le_rfl (by omega)).trans
      (hequal (i + 1) hlength (by omega) le_rfl).symm

theorem take_append_page (limit k : ℕ) (l : List A) :
    l.take (k * limit) ++ page limit k l = l.take ((k + 1) * limit) := by
  rw [page, Nat.succ_mul, List.take_add]

section Pages

variable {limit n : ℕ} {arranged : ℕ → List A}

theorem pages_succ (limit : ℕ) (arranged : ℕ → List A) (n : ℕ) :
    pages limit arranged (n + 1) = pages limit arranged n ++ page limit n (arranged n) := by
  rw [pages, List.range_succ, List.flatMap_append, List.flatMap_singleton, ← pages]

theorem pages_const (limit : ℕ) (l : List A) (n : ℕ) :
    pages limit (fun _ => l) n = l.take (n * limit) := by
  induction n with
  | zero => rw [Nat.zero_mul, List.take_zero, pages, List.range_zero, List.flatMap_nil]
  | succ n ih => rw [pages_succ, ih, take_append_page]

/-- Without ties at their ends the pages have the rows of any one order. -/
theorem pages_perm_take (harranged : ∀ k, Arrangement key rows (arranged k))
    (h : Arrangement key rows l) (hsteady : ∀ k, Steady key rows (k * limit)) (n : ℕ) :
    (pages limit arranged n).Perm (l.take (n * limit)) := by
  induction n with
  | zero =>
    rw [Nat.zero_mul, List.take_zero]
    exact .refl _
  | succ n ih =>
    rw [pages_succ]
    have hfirst := ih.trans (h.take_perm (harranged n) (hsteady n))
    refine (hfirst.append_right _).trans ?_
    rw [take_append_page]
    exact (harranged n).take_perm h (hsteady (n + 1))

theorem pages_perm (harranged : ∀ k, Arrangement key rows (arranged k))
    (hsteady : ∀ k, Steady key rows (k * limit)) (hn : rows.length ≤ n * limit) :
    (pages limit arranged n).Perm rows := by
  obtain ⟨l, h⟩ := exists_arrangement key rows
  have := pages_perm_take harranged h hsteady n
  rw [List.take_of_length_le (h.perm.length_eq.trans_le hn)] at this
  exact this.trans h.perm

theorem pages_sorted (harranged : ∀ k, Arrangement key rows (arranged k))
    (hsteady : ∀ k, Steady key rows (k * limit)) (n : ℕ) :
    (pages limit arranged n).Pairwise fun a b => key b ≤ key a := by
  induction n with
  | zero => exact List.Pairwise.nil
  | succ n ih =>
    rw [pages_succ]
    have hsorted := (harranged n).sorted
    rw [← List.take_append_drop (n * limit) (arranged n)] at hsorted
    obtain ⟨-, hrest, hcross⟩ := List.pairwise_append.mp hsorted
    refine List.pairwise_append.mpr ⟨ih, hrest.sublist (List.take_sublist _ _),
      fun a ha b hb => hcross a ?_ b (List.mem_of_mem_take hb)⟩
    exact (pages_perm_take harranged (harranged n) hsteady n).subset ha

theorem exists_repeated {k : ℕ} (hlimit : 0 < limit) (hn : rows.length ≤ n * limit)
    (h : ¬ Steady key rows (k * limit)) : ∃ arranged : ℕ → List A,
      (∀ k, Arrangement key rows (arranged k)) ∧ ¬ (pages limit arranged n).Nodup := by
  obtain ⟨u, y, z, v, harranged, hlen, hkey⟩ := exists_tie h
  refine ⟨fun j => if j < k then u ++ y :: z :: v else u ++ z :: y :: v, fun j => ?_,
    fun hnodup => ?_⟩
  · dsimp only
    split
    · exact harranged
    · exact harranged.swap hkey
  · have hkn : k < n := by
      have hrows := harranged.perm.length_eq
      simp only [List.length_append, List.length_cons] at hrows
      exact Nat.lt_of_mul_lt_mul_right (a := limit) (by omega)
    have hbefore : pages limit (fun j => if j < k then u ++ y :: z :: v else u ++ z :: y :: v) k =
        (u ++ y :: z :: v).take (k * limit) := by
      rw [← pages_const]
      refine List.flatMap_congr fun j hj => ?_
      dsimp only
      rw [if_pos (List.mem_range.mp hj)]
    have hsub := (List.range_sublist.mpr (Nat.succ_le_of_lt hkn)).flatMap fun j =>
      page limit j (if j < k then u ++ y :: z :: v else u ++ z :: y :: v)
    have htwo := hnodup.sublist hsub
    rw [← pages, pages_succ, hbefore, if_neg (lt_irrefl k)] at htwo
    refine List.disjoint_of_nodup_append htwo (a := y) ?_ ?_
    · rw [← hlen, List.take_append]
      simp
    · have hdrop : (u ++ z :: y :: v).drop (u.length + 1) = y :: v := by
        rw [List.append_cons, List.drop_left' (by simp)]
      obtain ⟨m, rfl⟩ : ∃ m, limit = m + 1 := Nat.exists_eq_succ_of_ne_zero hlimit.ne'
      rw [page, ← hlen, hdrop, List.take_succ_cons]
      exact List.mem_cons_self

end Pages

end Pages
