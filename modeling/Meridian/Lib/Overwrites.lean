import Meridian.Lib.Splice

/-! Edits that damage what stands beside them. Before each group of edits some places of the list
are overwritten with a filler. The result is what the edits alone make of the list, except that
an element that was overwritten and is still there reads as the filler. -/
namespace Splice

variable {α : Type*}

/-- The list with the filler at the marked places. -/
def overwrite (x : α) (marked : ℕ → Bool) (l : List α) : List α :=
  l.mapIdx fun i a => if marked i then x else a

@[simp] theorem length_overwrite (x : α) (marked : ℕ → Bool) (l : List α) :
    (overwrite x marked l).length = l.length := List.length_mapIdx

theorem getElem?_overwrite (x : α) (marked : ℕ → Bool) (l : List α) (i : ℕ) :
    (overwrite x marked l)[i]? = l[i]?.map fun a => if marked i then x else a :=
  List.getElem?_mapIdx

theorem overwrite_eq_self {x : α} {marked : ℕ → Bool} {l : List α}
    (h : ∀ i, i < l.length → marked i = false) : overwrite x marked l = l := by
  apply List.ext_getElem
  · simp
  · intro i _ hi
    simp [overwrite, h i hi]

theorem overwrite_overwrite (x : α) (marked marked' : ℕ → Bool) (l : List α) :
    overwrite x marked' (overwrite x marked l) =
      overwrite x (fun i => marked i || marked' i) l := by
  apply List.ext_getElem
  · simp
  · intro i _ _
    simp only [overwrite, List.getElem_mapIdx]
    by_cases h : marked i = true <;> by_cases h' : marked' i = true <;> simp [h, h']

/-- One call: what it overwrites in the list that it finds, and what it edits then. -/
structure Pass (α : Type*) where
  marked : ℕ → Bool
  edits : List (Edit α)

def runPasses (x : α) : List (Pass α) → List α → List α
  | [], l => l
  | pass :: passes, l => runPasses x passes (run pass.edits (overwrite x pass.marked l))

def passEdits (passes : List (Pass α)) : List (Edit α) := passes.flatMap Pass.edits

def markedOf {β : Type*} (marked : ℕ → Bool) (t : List β) : List β :=
  (t.zipIdx.filter fun a => marked a.2).map Prod.fst

/-- The origins of what the passes overwrite, with repetitions. -/
def overwritten : ℕ → List (Pass α) → List Origin → List Origin
  | _, [], _ => []
  | k, pass :: passes, t => markedOf pass.marked t ++
      overwritten (k + pass.edits.length) passes (run (tag k pass.edits) t)

theorem mem_markedOf {β : Type*} {marked : ℕ → Bool} {t : List β} {b : β} :
    b ∈ markedOf marked t ↔ ∃ i, marked i = true ∧ t[i]? = some b := by
  simp only [markedOf, List.mem_map, List.mem_filter, Prod.exists, List.mem_zipIdx_iff_getElem?]
  constructor
  · rintro ⟨a, i, ⟨hi, hmarked⟩, rfl⟩
    exact ⟨i, hmarked, hi⟩
  · rintro ⟨i, hmarked, hi⟩
    exact ⟨b, i, ⟨hi, hmarked⟩, rfl⟩

@[simp] theorem length_tag (k : ℕ) (edits : List (Edit α)) :
    (tag k edits).length = edits.length := by
  induction edits generalizing k with
  | nil => rfl
  | cons e edits ih => cases e <;> simp [tag, ih]

theorem tag_append (k : ℕ) (edits edits' : List (Edit α)) :
    tag k (edits ++ edits') = tag k edits ++ tag (k + edits.length) edits' := by
  induction edits generalizing k with
  | nil => rfl
  | cons e edits ih =>
    cases e <;> simp [tag, ih, Nat.add_assoc, Nat.add_comm 1]

theorem map_tag_congr {β : Type*} {v v' : Origin → β} {k : ℕ} (edits : List (Edit α))
    (h : ∀ j i, k ≤ j → v (.inserted j i) = v' (.inserted j i)) :
    (tag k edits).map (Edit.map v) = (tag k edits).map (Edit.map v') := by
  induction edits generalizing k with
  | nil => rfl
  | cons e edits ih =>
    have hrest := ih (k := k + 1) fun j i hj => h j i (by omega)
    cases e with
    | insert position text =>
      have htext : (insertedText k text.length).map v = (insertedText k text.length).map v' := by
        refine List.map_congr_left fun o ho => ?_
        obtain ⟨i, -, rfl⟩ := mem_insertedText.mp ho
        exact h k i le_rfl
      rw [tag, List.map_cons, List.map_cons, hrest, Edit.map, Edit.map, htext]
    | delete start length =>
      rw [tag, List.map_cons, List.map_cons, hrest]
      rfl

theorem Fresh.after_run {k : ℕ} {t : List Origin} (h : Fresh k t) (edits : List (Edit α)) :
    Fresh (k + edits.length) (run (tag k edits) t) := by
  induction edits generalizing k t with
  | nil => exact h
  | cons e edits ih =>
    rw [List.length_cons, Nat.add_comm edits.length, ← Nat.add_assoc]
    cases e with
    | insert position text => exact ih h.insertAt
    | delete start length => exact ih h.deleteAt

theorem map_some_overwrite {x : α} {marked : ℕ → Bool} {l : List α} {t : List Origin}
    {v : Origin → Option α} (hl : l.map some = t.map v) (ht : t.Nodup) :
    (overwrite x marked l).map some =
      t.map fun o => if o ∈ markedOf marked t then some x else v o := by
  apply List.ext_getElem?
  intro i
  have hi := congrArg (fun l => l[i]?) hl
  simp only [List.getElem?_map] at hi
  rw [List.getElem?_map, List.getElem?_map, getElem?_overwrite]
  cases hto : t[i]? with
  | none =>
    rw [hto, Option.map_none, Option.map_eq_none_iff] at hi
    rw [hi]
    rfl
  | some o =>
    rw [hto, Option.map_some] at hi
    obtain ⟨a, ha, hao⟩ := Option.map_eq_some_iff.mp hi
    have hmarked : o ∈ markedOf marked t ↔ marked i = true := by
      rw [mem_markedOf]
      refine ⟨fun ⟨j, hj, htj⟩ => ?_, fun h => ⟨i, h, hto⟩⟩
      obtain ⟨hlt, rfl⟩ := List.getElem?_eq_some_iff.mp hto
      obtain ⟨hlt', heq⟩ := List.getElem?_eq_some_iff.mp htj
      rwa [(List.Nodup.getElem_inj_iff ht).mp heq] at hj
    rw [ha, Option.map_some, Option.map_some, Option.map_some, ← hao]
    simp only [hmarked]
    split <;> rfl

theorem map_some_runPasses {x : α} {passes : List (Pass α)} {k : ℕ} {l : List α} {t : List Origin}
    {v : Origin → Option α} (hl : l.map some = t.map v) (hfresh : Fresh k t)
    (hv : (tag k (passEdits passes)).map (Edit.map v) = (passEdits passes).map (Edit.map some)) :
    (runPasses x passes l).map some = (run (tag k (passEdits passes)) t).map
      fun o => if o ∈ overwritten k passes t then some x else v o := by
  induction passes generalizing k l t v with
  | nil => simpa [runPasses, overwritten, passEdits, tag] using hl
  | cons pass passes ih =>
    have hcons : passEdits (pass :: passes) = pass.edits ++ passEdits passes := List.flatMap_cons
    -- what the first pass overwrites was there before its edits, so no inserted text is meant
    let v' : Origin → Option α := fun o => if o ∈ markedOf pass.marked t then some x else v o
    have hsame : ∀ j i, k ≤ j → v' (.inserted j i) = v (.inserted j i) := by
      intro j i hj
      refine if_neg fun hmem => ?_
      obtain ⟨n, -, hn⟩ := mem_markedOf.mp hmem
      exact absurd (hfresh.lt j i (List.mem_of_getElem? hn)) (by omega)
    have hv' : (tag k (passEdits (pass :: passes))).map (Edit.map v') =
        (passEdits (pass :: passes)).map (Edit.map some) :=
      (map_tag_congr _ hsame).trans hv
    rw [hcons, tag_append, List.map_append, List.map_append] at hv'
    obtain ⟨hfirst, hrest⟩ := List.append_inj hv' (by simp)
    have hrun : (run pass.edits (overwrite x pass.marked l)).map some =
        (run (tag k pass.edits) t).map v' := by
      rw [← run_map, map_some_overwrite hl hfresh.nodup, ← hfirst, run_map]
    rw [hcons, tag_append, runPasses, ih hrun (hfresh.after_run pass.edits) hrest, run, run, run,
      List.foldl_append]
    refine List.map_congr_left fun o _ => ?_
    simp only [overwritten, List.mem_append, v']
    by_cases h₁ : o ∈ markedOf pass.marked t
    · simp [h₁]
    · simp only [h₁, false_or, if_false]
      rfl

/-- The origin stands for the filler, if what it stands for has been overwritten. -/
def lookOver (x : α) (l : List α) (passes : List (Pass α)) (o : Origin) : Option α :=
  if o ∈ overwritten 0 passes (originalText l.length) then some x
  else look l (passEdits passes) o

theorem origins_lookOver (x : α) (l : List α) (passes : List (Pass α)) :
    (origins l.length (passEdits passes)).map (lookOver x l passes) =
      (runPasses x passes l).map some := by
  have htext : l.map some = (originalText l.length).map (look l (passEdits passes)) := by
    rw [originalText, List.map_map, ← map_getElem?_range]
    rfl
  rw [map_some_runPasses htext (fresh_originalText _) (tag_look l [] _ rfl)]
  rfl

/-- The result is what the edits alone make of the list exactly if everything that is overwritten
is gone at the end or was a filler before. -/
theorem origins_look_iff (x : α) (l : List α) (passes : List (Pass α)) :
    (origins l.length (passEdits passes)).map (look l (passEdits passes)) =
        (runPasses x passes l).map some ↔
      ∀ o ∈ origins l.length (passEdits passes),
        o ∈ overwritten 0 passes (originalText l.length) →
          look l (passEdits passes) o = some x := by
  rw [← origins_lookOver, List.map_inj_left]
  refine forall₂_congr fun o _ => ?_
  unfold lookOver
  split
  · next hmem => exact ⟨fun h _ => h, fun h => h hmem⟩
  · next hmem => exact ⟨fun _ h => absurd h hmem, fun _ => rfl⟩

theorem length_runPasses (x : α) (l : List α) (passes : List (Pass α)) :
    (runPasses x passes l).length = (origins l.length (passEdits passes)).length := by
  have h := congrArg List.length (origins_lookOver x l passes)
  rw [List.length_map, List.length_map] at h
  exact h.symm

end Splice
