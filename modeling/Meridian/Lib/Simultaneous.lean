import Meridian.Lib.Splice

/-! Edits of a list that are all meant for the same list. Done at once, they put every inserted
text at its position and leave out what a deletion covers; from the back of the list to its
front they can be done one by one, because an edit does not move what stands before it. -/
namespace Splice

variable {α : Type*}

/-- Where an edit ends in the list that it is meant for. -/
def Edit.stop : Edit α → ℕ
  | .insert position _ => position
  | .delete start length => start + length

def insertedAt (edits : List (Edit α)) (i : ℕ) : List α :=
  edits.flatMap fun
    | .insert position text => if position = i then text else []
    | .delete _ _ => []

def deletedAt (edits : List (Edit α)) (i : ℕ) : Bool :=
  edits.any fun
    | .insert _ _ => false
    | .delete start length => decide (start ≤ i) && decide (i < start + length)

/-- What is left of some elements, of which the first stands at a position. -/
def keptFrom (edits : List (Edit α)) : ℕ → List α → List α
  | _, [] => []
  | i, c :: l => (if deletedAt edits i then [] else [c]) ++ keptFrom edits (i + 1) l

/-- The same with what is inserted before each of them. -/
def editedFrom (edits : List (Edit α)) : ℕ → List α → List α
  | _, [] => []
  | i, c :: l =>
    insertedAt edits i ++ (if deletedAt edits i then [] else [c]) ++ editedFrom edits (i + 1) l

def simultaneous (edits : List (Edit α)) (l : List α) : List α :=
  editedFrom edits 0 l ++ insertedAt edits l.length

def DistinctInserts (edits : List (Edit α)) : Prop :=
  edits.Pairwise fun a b => a.isInsert = true → b.isInsert = true → a.position ≠ b.position

/-- An edit that ends before another one, and is no insertion at the position of one. -/
structure InFront (b a : Edit α) : Prop where
  stop_le : b.stop ≤ a.position
  distinct : a.isInsert = true → b.isInsert = true → a.position ≠ b.position

section Slots

variable {edits edits' : List (Edit α)} {i : ℕ}

theorem Edit.position_le_stop (e : Edit α) : e.position ≤ e.stop := by
  cases e with
  | insert position text => exact le_rfl
  | delete start length => exact Nat.le_add_right _ _

theorem mem_insertedAt_ne_nil (h : insertedAt edits i ≠ []) :
    ∃ text, .insert i text ∈ edits := by
  obtain ⟨c, hc⟩ := List.exists_mem_of_ne_nil _ h
  obtain ⟨e, he, hce⟩ := List.mem_flatMap.mp hc
  cases e with
  | insert position text =>
    dsimp only at hce
    split at hce
    · next hi => exact ⟨text, hi ▸ he⟩
    · cases hce
  | delete start length => cases hce

theorem insertedAt_eq_nil (h : ∀ text, .insert i text ∉ edits) : insertedAt edits i = [] := by
  by_contra hne
  obtain ⟨text, hmem⟩ := mem_insertedAt_ne_nil hne
  exact h text hmem

theorem deletedAt_iff :
    deletedAt edits i = true ↔ ∃ start length, .delete start length ∈ edits ∧
      start ≤ i ∧ i < start + length := by
  rw [deletedAt, List.any_eq_true]
  constructor
  · rintro ⟨e, he, hi⟩
    cases e with
    | insert position text => cases hi
    | delete start length =>
      simp only [Bool.and_eq_true, decide_eq_true_eq] at hi
      exact ⟨start, length, he, hi⟩
  · rintro ⟨start, length, he, hi⟩
    exact ⟨_, he, by simpa using hi⟩

theorem insertedAt_eq (hdistinct : DistinctInserts edits) {text : List α}
    (h : .insert i text ∈ edits) : insertedAt edits i = text := by
  induction edits with
  | nil => cases h
  | cons e edits ih =>
    obtain ⟨hhead, htail⟩ := List.pairwise_cons.mp hdistinct
    rw [insertedAt, List.flatMap_cons]
    rcases List.mem_cons.mp h with rfl | hmem
    · have hrest : insertedAt edits i = [] :=
        insertedAt_eq_nil fun text' hmem => hhead _ hmem rfl rfl rfl
      rw [insertedAt] at hrest
      simp [hrest]
    · have hfirst : (match e with
          | .insert position text => if position = i then text else []
          | .delete _ _ => []) = [] := by
        cases e with
        | insert position text' => exact if_neg fun hi => hhead _ hmem rfl rfl hi
        | delete start length => rfl
      rw [hfirst, List.nil_append]
      exact ih htail hmem

theorem simultaneous_perm (hdistinct : DistinctInserts edits) (hperm : edits.Perm edits')
    (l : List α) : simultaneous edits l = simultaneous edits' l := by
  have hdistinct' : DistinctInserts edits' :=
    hperm.pairwise hdistinct fun h ha hb => (h hb ha).symm
  have hinserted : insertedAt edits = insertedAt edits' := by
    funext i
    by_cases h : ∃ text, .insert i text ∈ edits
    · obtain ⟨text, hmem⟩ := h
      rw [insertedAt_eq hdistinct hmem, insertedAt_eq hdistinct' (hperm.subset hmem)]
    · rw [insertedAt_eq_nil fun text hmem => h ⟨text, hmem⟩,
        insertedAt_eq_nil fun text hmem => h ⟨text, hperm.mem_iff.mpr hmem⟩]
  have hdeleted : deletedAt edits = deletedAt edits' := by
    funext i
    rw [Bool.eq_iff_iff, deletedAt_iff, deletedAt_iff]
    simp only [hperm.mem_iff]
  have hedited : ∀ i l, editedFrom edits i l = editedFrom edits' i l := by
    intro i l
    induction l generalizing i with
    | nil => rfl
    | cons c l ih => rw [editedFrom, editedFrom, hinserted, hdeleted, ih]
  rw [simultaneous, simultaneous, hedited, hinserted]

end Slots

section Windows

variable {edits edits' : List (Edit α)} {i : ℕ}

theorem keptFrom_append (x y : List α) :
    keptFrom edits i (x ++ y) = keptFrom edits i x ++ keptFrom edits (i + x.length) y := by
  induction x generalizing i with
  | nil => rfl
  | cons c x ih =>
    rw [List.cons_append, keptFrom, keptFrom, ih, List.append_assoc, List.length_cons,
      Nat.add_right_comm, Nat.add_assoc]

theorem editedFrom_append (x y : List α) :
    editedFrom edits i (x ++ y) = editedFrom edits i x ++ editedFrom edits (i + x.length) y := by
  induction x generalizing i with
  | nil => rfl
  | cons c x ih =>
    rw [List.cons_append, editedFrom, editedFrom, ih, List.append_assoc _ (editedFrom edits _ x),
      List.length_cons, Nat.add_right_comm, Nat.add_assoc]

theorem keptFrom_eq_self {l : List α}
    (h : ∀ j, i ≤ j → j < i + l.length → deletedAt edits j = false) : keptFrom edits i l = l := by
  induction l generalizing i with
  | nil => rfl
  | cons c l ih =>
    rw [List.length_cons] at h
    rw [keptFrom, h i le_rfl (by omega), ih fun j hj hlt => h j (by omega) (by omega)]
    rfl

theorem keptFrom_eq_nil {l : List α}
    (h : ∀ j, i ≤ j → j < i + l.length → deletedAt edits j = true) : keptFrom edits i l = [] := by
  induction l generalizing i with
  | nil => rfl
  | cons c l ih =>
    rw [List.length_cons] at h
    rw [keptFrom, h i le_rfl (by omega), ih fun j hj hlt => h j (by omega) (by omega)]
    rfl

theorem editedFrom_eq_keptFrom {l : List α}
    (h : ∀ j, i ≤ j → j < i + l.length → insertedAt edits j = []) :
    editedFrom edits i l = keptFrom edits i l := by
  induction l generalizing i with
  | nil => rfl
  | cons c l ih =>
    rw [List.length_cons] at h
    rw [editedFrom, keptFrom, h i le_rfl (by omega), List.nil_append,
      ih fun j hj hlt => h j (by omega) (by omega)]

theorem editedFrom_congr {l : List α} (h : ∀ j, i ≤ j → j < i + l.length →
    insertedAt edits j = insertedAt edits' j ∧ deletedAt edits j = deletedAt edits' j) :
    editedFrom edits i l = editedFrom edits' i l := by
  induction l generalizing i with
  | nil => rfl
  | cons c l ih =>
    rw [List.length_cons] at h
    obtain ⟨hinserted, hdeleted⟩ := h i le_rfl (by omega)
    rw [editedFrom, editedFrom, hinserted, hdeleted, ih fun j hj hlt => h j (by omega) (by omega)]

theorem editedFrom_tail (h : ∀ j, i < j → insertedAt edits j = []) (l : List α) :
    editedFrom edits i l ++ insertedAt edits (i + l.length) =
      insertedAt edits i ++ keptFrom edits i l := by
  cases l with
  | nil => simp [editedFrom, keptFrom]
  | cons c l =>
    rw [List.length_cons, h (i + (l.length + 1)) (by omega), List.append_nil, editedFrom, keptFrom,
      editedFrom_eq_keptFrom fun j hj _ => h j (by omega), List.append_assoc]

theorem simultaneous_ne_nil {l : List α} {k : ℕ} (hk : k < l.length)
    (h : deletedAt edits k = false) : simultaneous edits l ≠ [] := by
  have hedited : ∀ (i : ℕ) (l : List α) (k : ℕ), k < l.length → deletedAt edits (i + k) = false →
      editedFrom edits i l ≠ [] := by
    intro i l
    induction l generalizing i with
    | nil => exact fun k hk => absurd hk (Nat.not_lt_zero k)
    | cons c l ih =>
      intro k hk hkept
      rw [editedFrom]
      cases k with
      | zero =>
        rw [Nat.add_zero] at hkept
        simp [hkept]
      | succ k =>
        have hrest := ih (i + 1) k (Nat.lt_of_succ_lt_succ hk) (by rwa [Nat.add_right_comm])
        exact List.append_ne_nil_of_right_ne_nil _ hrest
  exact List.append_ne_nil_of_left_ne_nil (hedited 0 l k hk (by rwa [Nat.zero_add])) _

end Windows

section Trails

variable {edits : List (Edit α)} {i : ℕ}

/-- What is left of some elements, with what is inserted behind each of them. -/
def trailFrom (edits : List (Edit α)) : ℕ → List α → List α
  | _, [] => []
  | i, c :: l => (if deletedAt edits i then [] else [c]) ++ insertedAt edits (i + 1) ++
      trailFrom edits (i + 1) l

theorem editedFrom_trail (i : ℕ) (l : List α) :
    editedFrom edits i l ++ insertedAt edits (i + l.length) =
      insertedAt edits i ++ trailFrom edits i l := by
  induction l generalizing i with
  | nil => simp [editedFrom, trailFrom]
  | cons c l ih =>
    have hrest := ih (i + 1)
    rw [Nat.add_right_comm, Nat.add_assoc] at hrest
    rw [editedFrom, trailFrom, List.length_cons, List.append_assoc, hrest]
    simp only [List.append_assoc]

theorem simultaneous_eq_trail (edits : List (Edit α)) (l : List α) :
    simultaneous edits l = insertedAt edits 0 ++ trailFrom edits 0 l := by
  rw [← editedFrom_trail, Nat.zero_add, simultaneous]

theorem trailFrom_append (x y : List α) :
    trailFrom edits i (x ++ y) = trailFrom edits i x ++ trailFrom edits (i + x.length) y := by
  induction x generalizing i with
  | nil => rfl
  | cons c x ih =>
    rw [List.cons_append, trailFrom, trailFrom, ih, List.append_assoc _ (trailFrom edits _ x),
      List.length_cons, Nat.add_right_comm, Nat.add_assoc]

theorem trailFrom_map {β : Type*} (g : α → β) {edits' : List (Edit β)} {i' : ℕ} {l : List α}
    (h : ∀ j, j < l.length → deletedAt edits' (i' + j) = deletedAt edits (i + j) ∧
      insertedAt edits' (i' + (j + 1)) = (insertedAt edits (i + (j + 1))).map g) :
    trailFrom edits' i' (l.map g) = (trailFrom edits i l).map g := by
  induction l generalizing i i' with
  | nil => rfl
  | cons c l ih =>
    obtain ⟨hdeleted, hinserted⟩ := h 0 (Nat.zero_lt_succ _)
    have hrest : trailFrom edits' (i' + 1) (l.map g) = (trailFrom edits (i + 1) l).map g :=
      ih fun j hj => by
        have := h (j + 1) (Nat.succ_lt_succ hj)
        simpa only [Nat.add_assoc, Nat.add_comm 1] using this
    simp only [Nat.add_zero, Nat.zero_add] at hdeleted hinserted
    rw [List.map_cons, trailFrom, trailFrom, hdeleted, hinserted, hrest]
    cases deletedAt edits i <;> simp

end Trails

section Fronts

variable {edits : List (Edit α)} {e : Edit α} {p j : ℕ}

theorem insertedAt_behind (h : ∀ b ∈ edits, b.stop ≤ p) (hj : p < j) : insertedAt edits j = [] :=
  insertedAt_eq_nil fun _ hmem => absurd (h _ hmem) (not_le.mpr hj)

theorem deletedAt_behind (h : ∀ b ∈ edits, b.stop ≤ p) (hj : p ≤ j) :
    deletedAt edits j = false := by
  rw [Bool.eq_false_iff, Ne, deletedAt_iff]
  rintro ⟨start, length, hmem, -, hlt⟩
  have : start + length ≤ p := h _ hmem
  omega

theorem slot_cons_front (hj : j < e.position) :
    insertedAt (e :: edits) j = insertedAt edits j ∧
      deletedAt (e :: edits) j = deletedAt edits j := by
  cases e with
  | insert position text =>
    have hne : ¬ position = j := by
      rintro rfl
      exact lt_irrefl _ hj
    simp [insertedAt, deletedAt, hne]
  | delete start length =>
    have hnot : ¬ start ≤ j := not_le.mpr hj
    simp [insertedAt, deletedAt, hnot]

theorem insertedAt_cons_behind (hj : e.position < j) :
    insertedAt (e :: edits) j = insertedAt edits j := by
  cases e with
  | insert position text =>
    have hne : ¬ position = j := hj.ne
    simp [insertedAt, hne]
  | delete start length => rfl

theorem insertedAt_cons_self (position : ℕ) (text : List α) :
    insertedAt (.insert position text :: edits) position = text ++ insertedAt edits position := by
  simp [insertedAt]

theorem deletedAt_cons_behind {start length : ℕ} (hj : start + length ≤ j) :
    deletedAt (.delete start length :: edits) j = deletedAt edits j := by
  have hnot : ¬ j < start + length := not_lt.mpr hj
  simp [deletedAt, hnot]

theorem simultaneous_split {x y : List α} (h : ∀ j, x.length < j → insertedAt edits j = []) :
    simultaneous edits (x ++ y) =
      editedFrom edits 0 x ++ (insertedAt edits x.length ++ keptFrom edits x.length y) := by
  rw [simultaneous, editedFrom_append, List.append_assoc, Nat.zero_add, List.length_append,
    editedFrom_tail h]

/-- Edits that all end at a position leave alone what stands behind it. -/
theorem simultaneous_front {x y : List α} (h : ∀ b ∈ edits, b.stop ≤ x.length) :
    simultaneous edits (x ++ y) =
      editedFrom edits 0 x ++ (insertedAt edits x.length ++ y) := by
  rw [simultaneous_split fun j hj => insertedAt_behind h hj,
    keptFrom_eq_self fun j hj _ => deletedAt_behind h hj]

@[simp] theorem simultaneous_nil (l : List α) : simultaneous [] l = l :=
  simultaneous_front (x := []) (by simp)

end Fronts

/-- An edit that all others stand in front of can be done before them. -/
theorem simultaneous_cons {edits : List (Edit α)} {e : Edit α} {l : List α}
    (hfront : ∀ b ∈ edits, InFront b e) (he : e.stop ≤ l.length) :
    simultaneous (e :: edits) l = simultaneous edits (e.apply l) := by
  have hlen : (l.take e.position).length = e.position :=
    List.length_take_of_le (e.position_le_stop.trans he)
  have hstop : ∀ b ∈ edits, b.stop ≤ e.position := fun b hb => (hfront b hb).stop_le
  have hfirst : editedFrom (e :: edits) 0 (l.take e.position) =
      editedFrom edits 0 (l.take e.position) :=
    editedFrom_congr fun j _ hj => slot_cons_front (by omega)
  have hrest : ∀ y, simultaneous edits (l.take e.position ++ y) =
      editedFrom edits 0 (l.take e.position) ++ (insertedAt edits e.position ++ y) := by
    intro y
    rw [simultaneous_front (by rwa [hlen]), hlen]
  have hall : simultaneous (e :: edits) l = editedFrom edits 0 (l.take e.position) ++
      (insertedAt (e :: edits) e.position ++
        keptFrom (e :: edits) e.position (l.drop e.position)) := by
    conv_lhs => rw [← List.take_append_drop e.position l]
    rw [simultaneous_split, hfirst, hlen]
    intro j hj
    rw [hlen] at hj
    rw [insertedAt_cons_behind hj, insertedAt_behind hstop hj]
  rw [hall]
  cases e with
  | insert position text =>
    have hnone : insertedAt edits position = [] :=
      insertedAt_eq_nil fun text' hmem => (hfront _ hmem).distinct rfl rfl rfl
    have hkept : keptFrom (.insert position text :: edits) position (l.drop position) =
        l.drop position := by
      refine keptFrom_eq_self fun j hj _ => ?_
      have hnone : deletedAt edits j = false := deletedAt_behind hstop hj
      exact hnone
    simp only [Edit.position] at *
    rw [Edit.apply, insertAt, List.append_assoc, hrest, hnone, insertedAt_cons_self, hnone, hkept,
      List.append_nil, List.nil_append]
  | delete start length =>
    have hwindow : ((l.drop start).take length).length = length := by
      have : start + length ≤ l.length := he
      rw [List.length_take, List.length_drop]
      omega
    have hgone : keptFrom (.delete start length :: edits) start ((l.drop start).take length) =
        [] := by
      refine keptFrom_eq_nil fun j hj hlt => ?_
      rw [hwindow] at hlt
      exact deletedAt_iff.mpr ⟨start, length, List.mem_cons_self, hj, hlt⟩
    have hkept : keptFrom (.delete start length :: edits) (start + length)
        (l.drop (start + length)) = l.drop (start + length) := by
      refine keptFrom_eq_self fun j hj _ => ?_
      rw [deletedAt_cons_behind hj, deletedAt_behind hstop]
      exact (Nat.le_add_right _ _).trans hj
    have hsplit : l.drop start = (l.drop start).take length ++ l.drop (start + length) := by
      rw [← List.drop_drop, List.take_append_drop]
    simp only [Edit.position] at *
    rw [Edit.apply, deleteAt, hrest, hsplit, keptFrom_append, hwindow, hgone, hkept]
    rfl

/-- Edits done one by one, each in front of those before it, do what they do at once. -/
theorem run_eq_simultaneous {edits : List (Edit α)} {l : List α}
    (h : edits.Pairwise fun a b => InFront b a) (hle : ∀ e ∈ edits, e.stop ≤ l.length) :
    run edits l = simultaneous edits l := by
  induction edits generalizing l with
  | nil =>
    have hnil : ∀ b ∈ ([] : List (Edit α)), b.stop ≤ ([] : List α).length := by simp
    exact (simultaneous_front hnil).symm
  | cons e edits ih =>
    obtain ⟨hfront, hrest⟩ := List.pairwise_cons.mp h
    obtain ⟨he, hle⟩ := List.forall_mem_cons.mp hle
    rw [run_cons, simultaneous_cons hfront he]
    refine ih hrest fun b hb => ?_
    have hpos : e.position ≤ (e.apply l).length := by
      cases e with
      | insert position text =>
        rw [Edit.apply, length_insertAt]
        exact he.trans (Nat.le_add_right _ _)
      | delete start length =>
        have : start + length ≤ l.length := he
        rw [Edit.apply, length_deleteAt, Edit.position]
        omega
    exact (hfront b hb).stop_le.trans hpos

end Splice
