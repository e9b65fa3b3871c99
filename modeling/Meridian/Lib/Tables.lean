import Mathlib

/-! Functions of one key and of two keys, changed at one entry. -/
namespace Tables

variable {A B C : Type*} [DecidableEq A] [DecidableEq B]

/-- The table with another value at one entry. -/
def set (f : A → B → C) (a : A) (b : B) (x : C) : A → B → C :=
  Function.update f a (Function.update (f a) b x)

theorem set_apply (f : A → B → C) (a : A) (b : B) (x : C) (a' : A) (b' : B) :
    set f a b x a' b' = if a' = a ∧ b' = b then x else f a' b' := by
  unfold set
  by_cases ha : a' = a
  · subst ha
    by_cases hb : b' = b
    · simp [hb]
    · simp [hb]
  · simp [ha]

@[simp] theorem set_self (f : A → B → C) (a : A) (b : B) (x : C) : set f a b x a b = x := by
  simp [set_apply]

theorem set_of_ne (f : A → B → C) {a a' : A} {b b' : B} (x : C) (h : ¬ (a' = a ∧ b' = b)) :
    set f a b x a' b' = f a' b' := by
  rw [set_apply, if_neg h]

theorem set_cases (f : A → B → C) (a : A) (b : B) (x : C) (a' : A) (b' : B) :
    (a' = a ∧ b' = b ∧ set f a b x a' b' = x) ∨
      (¬ (a' = a ∧ b' = b) ∧ set f a b x a' b' = f a' b') := by
  by_cases h : a' = a ∧ b' = b
  · obtain ⟨rfl, rfl⟩ := h
    exact .inl ⟨rfl, rfl, set_self f a' b' x⟩
  · exact .inr ⟨h, set_of_ne f x h⟩

theorem update_eq_some {f : A → Option C} {a a' : A} {x : Option C} {y : C} :
    Function.update f a x a' = some y ↔ (a' = a ∧ x = some y) ∨ (a' ≠ a ∧ f a' = some y) := by
  by_cases h : a' = a
  · subst h
    simp
  · simp [h]

theorem update_none_eq_some {f : A → Option C} {a a' : A} {y : C} :
    Function.update f a none a' = some y ↔ a' ≠ a ∧ f a' = some y := by
  simp [update_eq_some]

theorem exists_update {f : A → Option C} {a : A} {x : Option C} {y : C} (ha : f a ≠ some y)
    (h : ∃ a', f a' = some y) : ∃ a', Function.update f a x a' = some y := by
  obtain ⟨a', h⟩ := h
  refine ⟨a', update_eq_some.mpr (.inr ⟨?_, h⟩)⟩
  rintro rfl
  exact ha h

def Once {K D : Type*} (f : A → Option (K × D)) : Prop :=
  ∀ a a' k d d', f a = some (k, d) → f a' = some (k, d') → a' = a

theorem Once.update_some {K D : Type*} {f : A → Option (K × D)} (hf : Once f) {a : A} {k : K}
    {d : D} (hnever : ∀ a' d', f a' ≠ some (k, d')) :
    Once (Function.update f a (some (k, d))) := by
  intro a₁ a₂ k' d₁ d₂ h₁ h₂
  rcases update_eq_some.mp h₁ with ⟨h₁, he₁⟩ | ⟨-, h₁⟩ <;>
    rcases update_eq_some.mp h₂ with ⟨h₂, he₂⟩ | ⟨-, h₂⟩
  · rw [h₁, h₂]
  · cases he₁
    exact absurd h₂ (hnever _ d₂)
  · cases he₂
    exact absurd h₁ (hnever _ d₁)
  · exact hf _ _ k' d₁ d₂ h₁ h₂

theorem Once.update_none {K D : Type*} {f : A → Option (K × D)} (hf : Once f) {a : A} :
    Once (Function.update f a none) :=
  fun a₁ a₂ k d₁ d₂ h₁ h₂ =>
    hf a₁ a₂ k d₁ d₂ (update_none_eq_some.mp h₁).2 (update_none_eq_some.mp h₂).2

end Tables
