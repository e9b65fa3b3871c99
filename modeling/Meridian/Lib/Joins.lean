import Mathlib

/-! Joins of lists in a semilattice with a least element: the state that a set of
commutative, associative and idempotent merges builds, whatever their order. -/
namespace Joins

variable {Y A : Type*} [SemilatticeSup Y] [OrderBot Y]

def joinOf (f : A → Y) (l : List A) : Y := (Multiset.ofList (l.map f)).sup

@[simp] theorem joinOf_nil (f : A → Y) : joinOf f [] = ⊥ := rfl

@[simp] theorem joinOf_cons (f : A → Y) (a : A) (l : List A) :
    joinOf f (a :: l) = f a ⊔ joinOf f l := by
  simp only [joinOf, List.map_cons, ← Multiset.cons_coe, Multiset.sup_cons]

@[simp] theorem joinOf_append (f : A → Y) (l k : List A) :
    joinOf f (l ++ k) = joinOf f l ⊔ joinOf f k := by
  simp only [joinOf, List.map_append, ← Multiset.coe_add, Multiset.sup_add]

theorem joinOf_perm (f : A → Y) {l k : List A} (h : l.Perm k) : joinOf f l = joinOf f k := by
  rw [joinOf, joinOf, Multiset.coe_eq_coe.mpr (h.map f)]

theorem le_joinOf (f : A → Y) {l : List A} {a : A} (h : a ∈ l) : f a ≤ joinOf f l :=
  Multiset.le_sup (Multiset.mem_coe.mpr (List.mem_map_of_mem h))

theorem joinOf_le {f : A → Y} {l : List A} {y : Y} (h : ∀ a ∈ l, f a ≤ y) : joinOf f l ≤ y :=
  Multiset.sup_le.mpr fun b hb => by
    obtain ⟨a, ha, rfl⟩ := List.mem_map.mp (Multiset.mem_coe.mp hb)
    exact h a ha

/-- Merging one after the other is one join, in whatever order the list stands. -/
theorem foldl_eq (f : A → Y) (l : List A) (y : Y) :
    l.foldl (fun acc a => acc ⊔ f a) y = y ⊔ joinOf f l := by
  induction l generalizing y with
  | nil => simp
  | cons a l ih => rw [List.foldl_cons, ih, joinOf_cons, sup_assoc]

theorem joinOf_filter_sup (f : A → Y) (p : A → Bool) (l : List A) :
    joinOf f (l.filter p) ⊔ joinOf f (l.filter fun a => !p a) = joinOf f l := by
  rw [← joinOf_append]
  exact joinOf_perm f (List.filter_append_perm p l)

end Joins
