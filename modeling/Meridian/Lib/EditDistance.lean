import Mathlib

/-! The distance of two lists: the least number of single edits that turn one into the other. A
sequence of edits may go back and forth in the list; it costs no less than an alignment of the two
lists, which goes through both once, and of these the recursion finds the cheapest. -/
namespace EditDistance

variable {α : Type*}

/-- One element inserted, deleted or substituted. -/
inductive SingleEdit : List α → List α → Prop
  | insert (before after : List α) (c : α) : SingleEdit (before ++ after) (before ++ c :: after)
  | delete (before after : List α) (c : α) : SingleEdit (before ++ c :: after) (before ++ after)
  | substitute (before after : List α) (c d : α) :
      SingleEdit (before ++ c :: after) (before ++ d :: after)

inductive Edits : ℕ → List α → List α → Prop
  | refl (a : List α) : Edits 0 a a
  | step {n : ℕ} {a a' b : List α} (h : SingleEdit a a') (rest : Edits n a' b) : Edits (n + 1) a b

/-- Two lists are gone through together, at the cost of what is not kept. -/
inductive Alignment : ℕ → List α → List α → Prop
  | nil : Alignment 0 [] []
  | insert {n : ℕ} {a b : List α} (d : α) (h : Alignment n a b) : Alignment (n + 1) a (d :: b)
  | delete {n : ℕ} {a b : List α} (c : α) (h : Alignment n a b) : Alignment (n + 1) (c :: a) b
  | substitute {n : ℕ} {a b : List α} (c d : α) (h : Alignment n a b) :
      Alignment (n + 1) (c :: a) (d :: b)
  | keep {n : ℕ} {a b : List α} (c : α) (h : Alignment n a b) : Alignment n (c :: a) (c :: b)

/-- The cheapest alignment, when equal elements are kept. -/
def editDistance [DecidableEq α] : List α → List α → ℕ
  | [], b => b.length
  | c :: a, [] => (c :: a).length
  | c :: a, d :: b =>
    if c = d then editDistance a b
    else 1 + min (editDistance a (d :: b)) (min (editDistance (c :: a) b) (editDistance a b))
  termination_by a b => a.length + b.length

section SingleEdits

variable {a a' b b' : List α} {m n : ℕ}

theorem SingleEdit.symm (h : SingleEdit a b) : SingleEdit b a := by
  cases h with
  | insert before after c => exact .delete before after c
  | delete before after c => exact .insert before after c
  | substitute before after c d => exact .substitute before after d c

theorem SingleEdit.cons (c : α) (h : SingleEdit a b) : SingleEdit (c :: a) (c :: b) := by
  cases h with
  | insert before after d => exact .insert (c :: before) after d
  | delete before after d => exact .delete (c :: before) after d
  | substitute before after d e => exact .substitute (c :: before) after d e

theorem SingleEdit.reverse (h : SingleEdit a b) : SingleEdit a.reverse b.reverse := by
  cases h with
  | insert before after c =>
    simpa using SingleEdit.insert after.reverse before.reverse c
  | delete before after c =>
    simpa using SingleEdit.delete after.reverse before.reverse c
  | substitute before after c d =>
    simpa using SingleEdit.substitute after.reverse before.reverse c d

/-- An edit that leaves an element in front has put it there, or has been made behind it, or has
taken away what was before it. -/
theorem SingleEdit.of_cons {c : α} (h : SingleEdit a' (c :: a)) :
    a' = a ∨ (∃ e, a' = e :: c :: a) ∨ (∃ e, a' = e :: a) ∨
      ∃ tail, a' = c :: tail ∧ SingleEdit tail a := by
  generalize hb : c :: a = b at h
  cases h with
  | insert before after d =>
    cases before with
    | nil =>
      obtain ⟨-, rfl⟩ := List.cons.inj hb
      exact .inl rfl
    | cons e before =>
      obtain ⟨rfl, rfl⟩ := List.cons.inj hb
      exact .inr (.inr (.inr ⟨_, rfl, .insert before after d⟩))
  | delete before after d =>
    cases before with
    | nil =>
      obtain rfl : c :: a = after := hb
      exact .inr (.inl ⟨d, rfl⟩)
    | cons e before =>
      obtain ⟨rfl, rfl⟩ := List.cons.inj hb
      exact .inr (.inr (.inr ⟨_, rfl, .delete before after d⟩))
  | substitute before after d e =>
    cases before with
    | nil =>
      obtain ⟨-, rfl⟩ := List.cons.inj hb
      exact .inr (.inr (.inl ⟨d, rfl⟩))
    | cons f before =>
      obtain ⟨rfl, rfl⟩ := List.cons.inj hb
      exact .inr (.inr (.inr ⟨_, rfl, .substitute before after d e⟩))

theorem SingleEdit.of_nil (h : SingleEdit a' ([] : List α)) : ∃ e, a' = [e] := by
  generalize hb : ([] : List α) = b at h
  cases h with
  | insert before after d => simp at hb
  | delete before after d =>
    obtain ⟨rfl, rfl⟩ := List.append_eq_nil_iff.mp hb.symm
    exact ⟨d, rfl⟩
  | substitute before after d e => simp at hb

theorem Edits.cons (c : α) (h : Edits n a b) : Edits n (c :: a) (c :: b) := by
  induction h with
  | refl a => exact .refl _
  | step h rest ih => exact .step (h.cons c) ih

theorem Edits.concat (h : Edits n a b) (hlast : SingleEdit b b') : Edits (n + 1) a b' := by
  induction h with
  | refl a => exact .step hlast (.refl _)
  | step h rest ih => exact .step h (ih hlast)

theorem Edits.symm (h : Edits n a b) : Edits n b a := by
  induction h with
  | refl a => exact .refl a
  | step h rest ih => exact ih.concat h.symm

theorem Edits.reverse (h : Edits n a b) : Edits n a.reverse b.reverse := by
  induction h with
  | refl a => exact .refl _
  | step h rest ih => exact .step h.reverse ih

theorem edits_reverse_iff : Edits n a.reverse b.reverse ↔ Edits n a b :=
  ⟨fun h => by simpa using h.reverse, Edits.reverse⟩

end SingleEdits

section Alignments

variable {a a' b b' : List α} {m n : ℕ}

theorem Alignment.edits (h : Alignment n a b) : Edits n a b := by
  induction h with
  | nil => exact .refl _
  | insert d h ih => exact .step (.insert [] _ d) (ih.cons d)
  | delete c h ih => exact .step (.delete [] _ c) ih
  | substitute c d h ih => exact .step (.substitute [] _ c d) (ih.cons d)
  | keep c h ih => exact ih.cons c

theorem Alignment.refl (a : List α) : Alignment 0 a a := by
  induction a with
  | nil => exact .nil
  | cons c a ih => exact .keep c ih

theorem Alignment.symm (h : Alignment n a b) : Alignment n b a := by
  induction h with
  | nil => exact .nil
  | insert d h ih => exact .delete d ih
  | delete c h ih => exact .insert c ih
  | substitute c d h ih => exact .substitute d c ih
  | keep c h ih => exact .keep c ih

/-- A single edit before an alignment costs it one more at most. -/
theorem Alignment.edited (h : Alignment m a b) (hedit : SingleEdit a' a) :
    ∃ n ≤ m + 1, Alignment n a' b := by
  induction h generalizing a' with
  | nil =>
    obtain ⟨e, rfl⟩ := hedit.of_nil
    exact ⟨1, le_rfl, .delete e .nil⟩
  | insert d h ih =>
    obtain ⟨n, hn, haligned⟩ := ih hedit
    exact ⟨n + 1, Nat.succ_le_succ hn, .insert d haligned⟩
  | delete c h ih =>
    rcases hedit.of_cons with rfl | ⟨e, rfl⟩ | ⟨e, rfl⟩ | ⟨tail, rfl, htail⟩
    · exact ⟨_, by omega, h⟩
    · exact ⟨_, le_rfl, .delete e (.delete c h)⟩
    · exact ⟨_, Nat.le_succ _, .delete e h⟩
    · obtain ⟨n, hn, haligned⟩ := ih htail
      exact ⟨n + 1, Nat.succ_le_succ hn, .delete c haligned⟩
  | substitute c d h ih =>
    rcases hedit.of_cons with rfl | ⟨e, rfl⟩ | ⟨e, rfl⟩ | ⟨tail, rfl, htail⟩
    · exact ⟨_, Nat.le_succ _, .insert d h⟩
    · exact ⟨_, le_rfl, .delete e (.substitute c d h)⟩
    · exact ⟨_, Nat.le_succ _, .substitute e d h⟩
    · obtain ⟨n, hn, haligned⟩ := ih htail
      exact ⟨n + 1, Nat.succ_le_succ hn, .substitute c d haligned⟩
  | keep c h ih =>
    rcases hedit.of_cons with rfl | ⟨e, rfl⟩ | ⟨e, rfl⟩ | ⟨tail, rfl, htail⟩
    · exact ⟨_, le_rfl, .insert c h⟩
    · exact ⟨_, le_rfl, .delete e (.keep c h)⟩
    · exact ⟨_, le_rfl, .substitute e c h⟩
    · obtain ⟨n, hn, haligned⟩ := ih htail
      exact ⟨n, hn, .keep c haligned⟩

theorem Edits.alignment (h : Edits n a b) : ∃ m ≤ n, Alignment m a b := by
  induction h with
  | refl a => exact ⟨0, le_rfl, .refl a⟩
  | step h rest ih =>
    obtain ⟨m, hm, haligned⟩ := ih
    obtain ⟨m', hm', haligned'⟩ := haligned.edited h
    exact ⟨m', hm'.trans (Nat.succ_le_succ hm), haligned'⟩

theorem Alignment.of_cons {c : α} (h : Alignment n (c :: a) (c :: b)) :
    ∃ m ≤ n, Alignment m a b := by
  cases h with
  | insert d h => exact h.edited (.insert [] a c)
  | delete c h =>
    obtain ⟨m, hm, haligned⟩ := h.symm.edited (.insert [] b c)
    exact ⟨m, hm, haligned.symm⟩
  | substitute c d h => exact ⟨_, Nat.le_succ _, h⟩
  | keep c h => exact ⟨_, le_rfl, h⟩

theorem alignment_inserts (b : List α) : Alignment b.length [] b := by
  induction b with
  | nil => exact .nil
  | cons d b ih => exact .insert d ih

theorem Alignment.le_length (h : Alignment n [] b) : b.length ≤ n := by
  generalize ha : ([] : List α) = a at h
  induction h with
  | nil => exact le_rfl
  | insert d h ih => exact Nat.succ_le_succ (ih ha)
  | delete c h ih => simp at ha
  | substitute c d h ih => simp at ha
  | keep c h ih => simp at ha

end Alignments

section Distance

variable [DecidableEq α]

@[simp] theorem editDistance_nil (b : List α) : editDistance [] b = b.length := by rw [editDistance]

@[simp] theorem editDistance_nil_right (a : List α) : editDistance a [] = a.length := by
  cases a with
  | nil => rw [editDistance]
  | cons c a => rw [editDistance]

theorem editDistance_cons (c d : α) (a b : List α) : editDistance (c :: a) (d :: b) =
    if c = d then editDistance a b
    else 1 + min (editDistance a (d :: b)) (min (editDistance (c :: a) b) (editDistance a b)) := by
  rw [editDistance]

theorem alignment_editDistance (a b : List α) : Alignment (editDistance a b) a b := by
  induction a, b using editDistance.induct with
  | case1 b => rw [editDistance_nil]; exact alignment_inserts b
  | case2 c a => rw [editDistance_nil_right]; exact (alignment_inserts (c :: a)).symm
  | case3 a c b ih =>
    rw [editDistance_cons, if_pos rfl]
    exact .keep c ih
  | case4 c a d b hne ih1 ih2 ih3 =>
    rw [editDistance_cons, if_neg hne, Nat.add_comm]
    rcases min_choice (editDistance a (d :: b))
      (min (editDistance (c :: a) b) (editDistance a b)) with h | h
    · rw [h]
      exact .delete c ih1
    · rw [h]
      rcases min_choice (editDistance (c :: a) b) (editDistance a b) with h' | h'
      · rw [h']
        exact .insert d ih2
      · rw [h']
        exact .substitute c d ih3

theorem editDistance_le_of_alignment {n : ℕ} {a b : List α} (h : Alignment n a b) :
    editDistance a b ≤ n := by
  induction a, b using editDistance.induct generalizing n with
  | case1 b => rw [editDistance_nil]; exact h.le_length
  | case2 c a => rw [editDistance_nil_right]; exact h.symm.le_length
  | case3 a c b ih =>
    rw [editDistance_cons, if_pos rfl]
    obtain ⟨m, hm, haligned⟩ := h.of_cons
    exact (ih haligned).trans hm
  | case4 c a d b hne ih1 ih2 ih3 =>
    rw [editDistance_cons, if_neg hne]
    cases h with
    | insert _ h =>
      have := ih2 h
      omega
    | delete _ h =>
      have := ih1 h
      omega
    | substitute _ _ h =>
      have := ih3 h
      omega
    | keep _ h => exact absurd rfl hne

theorem isLeast_editDistance (a b : List α) : IsLeast {n | Edits n a b} (editDistance a b) := by
  refine ⟨(alignment_editDistance a b).edits, ?_⟩
  rintro n h
  obtain ⟨m, hm, haligned⟩ := Edits.alignment h
  exact (editDistance_le_of_alignment haligned).trans hm

theorem editDistance_comm (a b : List α) : editDistance a b = editDistance b a := by
  refine (isLeast_editDistance a b).unique ⟨(isLeast_editDistance b a).1.symm, ?_⟩
  rintro n h
  exact (isLeast_editDistance b a).2 (Edits.symm h)

theorem editDistance_reverse (a b : List α) :
    editDistance a.reverse b.reverse = editDistance a b := by
  have h := isLeast_editDistance a.reverse b.reverse
  simp only [edits_reverse_iff] at h
  exact h.unique (isLeast_editDistance a b)

theorem editDistance_le_max (a b : List α) : editDistance a b ≤ max a.length b.length := by
  induction a generalizing b with
  | nil => simp
  | cons c a ih =>
    cases b with
    | nil => simp
    | cons d b =>
      have htail := ih b
      rw [editDistance_cons, List.length_cons, List.length_cons]
      split <;> omega

end Distance

end EditDistance
