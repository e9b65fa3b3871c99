import Meridian.Lib.BackToFront
import Meridian.Lib.Layout
import Meridian.Lib.Suffix
import Mathlib

/-! Insertions at one position. In the result their texts stand one behind the other, in the
order of the insertions, exactly when each of them lands at the end of those before it, and
nothing else lands inside them or takes a part of them away. Whether it is so is a matter of
positions and lengths. -/
namespace Splice

variable {α : Type*}

/-- In a list of `n` elements a stretch of `m` stands at `s`. Every insertion at `p` lands at
its end and lengthens it, and no other edit meets it. -/
def Gathers (p : ℕ) : ℕ → ℕ → ℕ → List (Edit α) → Prop
  | _, _, _, [] => True
  | n, s, m, .insert q t :: edits =>
    if q = p then min p n = s + m ∧ Gathers p (n + t.length) s (m + t.length) edits
    else if min q n ≤ s then Gathers p (n + t.length) (s + t.length) m edits
    else s + m ≤ min q n ∧ Gathers p (n + t.length) s m edits
  | n, s, m, .delete q d :: edits =>
    if q + d ≤ s then Gathers p (n - d) (s - d) m edits
    else (s + m ≤ q ∨ d = 0) ∧ Gathers p (n - min d (n - q)) s m edits

/-- The same from the first insertion at `p` on, which opens the stretch. -/
def GatheredAt (p : ℕ) : ℕ → List (Edit α) → Prop
  | _, [] => True
  | n, .insert q t :: edits =>
    if q = p then Gathers p (n + t.length) (min p n) t.length edits
    else GatheredAt p (n + t.length) edits
  | n, .delete q d :: edits => GatheredAt p (n - min d (n - q)) edits

instance Gathers.decidable (p : ℕ) :
    ∀ n s m (edits : List (Edit α)), Decidable (Gathers p n s m edits)
  | _, _, _, [] => isTrue trivial
  | n, s, m, .insert q t :: edits =>
    have := Gathers.decidable p (n + t.length) s (m + t.length) edits
    have := Gathers.decidable p (n + t.length) (s + t.length) m edits
    have := Gathers.decidable p (n + t.length) s m edits
    inferInstanceAs (Decidable (if q = p then _ ∧ _ else if min q n ≤ s then _ else _ ∧ _))
  | n, s, m, .delete q d :: edits =>
    have := Gathers.decidable p (n - d) (s - d) m edits
    have := Gathers.decidable p (n - min d (n - q)) s m edits
    inferInstanceAs (Decidable (if q + d ≤ s then _ else _ ∧ _))

instance GatheredAt.decidable (p : ℕ) :
    ∀ n (edits : List (Edit α)), Decidable (GatheredAt p n edits)
  | _, [] => isTrue trivial
  | n, .insert q t :: edits =>
    have := GatheredAt.decidable p (n + t.length) edits
    inferInstanceAs (Decidable (if q = p then Gathers _ _ _ _ _ else _))
  | n, .delete q d :: edits => GatheredAt.decidable p (n - min d (n - q)) edits

def Gathered (n : ℕ) (edits : List (Edit α)) : Prop :=
  ∀ e ∈ edits, e.isInsert = true → GatheredAt e.position n edits

instance (n : ℕ) (edits : List (Edit α)) : Decidable (Gathered n edits) :=
  inferInstanceAs (Decidable (∀ e ∈ edits, e.isInsert = true → GatheredAt e.position n edits))

/-- No deletion comes between two insertions at one position. -/
def Undivided (edits : List (Edit α)) : Prop :=
  ∀ p t s m t', ¬ [.insert p t, .delete s m, .insert p t'].Sublist edits

def textsAt (p : ℕ) : List (Edit α) → List α
  | [] => []
  | .insert q t :: edits => (if q = p then t else []) ++ textsAt p edits
  | .delete _ _ :: edits => textsAt p edits

theorem map_look_placedFrom (l : List α) {edits : List (Edit α)} (p : ℕ)
    (before after : List (Edit α)) (h : edits = before ++ after) :
    (placedFrom p before.length after).map (look l edits) = (textsAt p after).map some := by
  induction after generalizing before with
  | nil => rfl
  | cons e after ih =>
    have hrest := ih (before ++ [e]) (by simp [h])
    rw [List.length_append, List.length_singleton] at hrest
    cases e with
    | insert q t =>
      have htext : (insertedText before.length t.length).map (look l edits) = t.map some := by
        rw [insertedText, List.map_map, ← map_getElem?_range]
        refine List.map_congr_left fun i _ => ?_
        simp [look, h]
      rw [placedFrom, List.map_append, hrest, textsAt, List.map_append]
      split
      · rw [htext]
      · rfl
    | delete q d => exact hrest

theorem textsAt_infix {l after : List α} {edits : List (Edit α)} {p : ℕ}
    (h : placedFrom p 0 edits <:+: origins l.length edits)
    (hreads : (origins l.length edits).map (look l edits) = after.map some) :
    textsAt p edits <:+: after := by
  have hmap := h.map (look l edits)
  have htexts : (placedFrom p 0 edits).map (look l edits) = (textsAt p edits).map some :=
    map_look_placedFrom l p [] edits rfl
  rw [hreads, htexts] at hmap
  simpa using hmap.filterMap id

section Landing

variable {x b y t : List α} {q : ℕ}

theorem insertAt_front (h : min q (x ++ b ++ y).length ≤ x.length) :
    insertAt (x ++ b ++ y) q t = insertAt x (min q (x ++ b ++ y).length) t ++ b ++ y := by
  rw [insertAt_clip]
  generalize min q (x ++ b ++ y).length = r at h
  rw [List.append_assoc, insertAt_append_left h, List.append_assoc]

theorem insertAt_back (h : (x ++ b).length ≤ min q (x ++ b ++ y).length) :
    insertAt (x ++ b ++ y) q t =
      x ++ b ++ insertAt y (min q (x ++ b ++ y).length - (x ++ b).length) t := by
  rw [insertAt_clip, insertAt_append_right h]

theorem insertAt_end (h : min q (x ++ b ++ y).length = x.length + b.length) :
    insertAt (x ++ b ++ y) q t = x ++ (b ++ t) ++ y := by
  have hlen : (x ++ b).length = min q (x ++ b ++ y).length := by rw [h, List.length_append]
  rw [insertAt_back hlen.le, ← hlen, Nat.sub_self]
  simp [insertAt]

theorem insertAt_inside (hlow : x.length < min q (x ++ b ++ y).length)
    (hhigh : min q (x ++ b ++ y).length < x.length + b.length) :
    ∃ b₁ a c b₂, b = b₁ ++ [a, c] ++ b₂ ∧
      insertAt (x ++ b ++ y) q t = (x ++ b₁ ++ [a]) ++ t ++ ([c] ++ b₂ ++ y) := by
  generalize hr : min q (x ++ b ++ y).length = r at hlow hhigh
  obtain ⟨b₁, a, rest, rfl, hb₁⟩ := exists_split (l := b) (i := r - x.length - 1) (by omega)
  cases rest with
  | nil =>
    simp at hhigh
    omega
  | cons c b₂ =>
    refine ⟨b₁, a, c, b₂, by simp, ?_⟩
    have hlen : (x ++ b₁ ++ [a]).length = r := by
      simp
      omega
    have hsplit : x ++ (b₁ ++ a :: c :: b₂) ++ y = (x ++ b₁ ++ [a]) ++ ([c] ++ b₂ ++ y) := by simp
    rw [insertAt_clip, hr, hsplit, insertAt_append_right hlen.le, hlen, Nat.sub_self]
    simp [insertAt]

end Landing

section Order

variable {l : List α} {a c : α}

theorem not_pair_swap (h : l.Nodup) (hac : [a, c].Sublist l) : ¬ [c, a].Sublist l := by
  obtain ⟨l₁, l₂, rfl, ha, hc⟩ := List.append_sublist_iff.mp (show ([a] ++ [c]).Sublist l from hac)
  exact not_swapped h (List.singleton_sublist.mp ha) (List.singleton_sublist.mp hc)

variable {edits : List (Edit α)} {k : ℕ} {t : List Origin} {o o' : Origin}

theorem Fresh.not_between (h : Fresh k t) {i : Origin} (hsub : [o, i, o'].Sublist t)
    (hnext : [o, o'] <:+: run (tag k edits) t) : i ∉ run (tag k edits) t := by
  intro hi
  have ho : o ∈ t := hsub.subset (by simp)
  have hi' : i ∈ t := hsub.subset (by simp)
  have ho' : o' ∈ t := hsub.subset (by simp)
  have hfirst : [o, i].Sublist t := (show [o, i].Sublist [o, i, o'] by simp).trans hsub
  have hlast : [i, o'].Sublist t := (List.sublist_cons_self o [i, o']).trans hsub
  obtain ⟨u, v, huv⟩ := hnext
  rw [← huv] at hi
  rcases List.mem_append.mp hi with hi | hi
  · rcases List.mem_append.mp hi with hi | hi
    · have hbefore : [i, o].Sublist (run (tag k edits) t) := by
        rw [← huv, List.append_assoc]
        exact (List.singleton_sublist.mpr hi).append (by simp)
      exact not_pair_swap h.nodup hfirst (h.pair_sublist hi' ho hbefore)
    · rcases List.mem_pair.mp hi with rfl | rfl
      · exact not_pair_swap h.nodup hfirst hfirst
      · exact not_pair_swap h.nodup hlast hlast
  · have hafter : [o', i].Sublist (run (tag k edits) t) := by
      rw [← huv]
      exact (show [o'].Sublist (u ++ [o, o']) by simp).append (List.singleton_sublist.mpr hi)
    exact not_pair_swap h.nodup hlast (h.pair_sublist ho' hi' hafter)

end Order

section Runs

variable {edits : List (Edit α)} {k p : ℕ} {x b y : List Origin}

/-- A stretch that gathers what is inserted at its position has all of it at the end. -/
theorem infix_of_gathers (h : Gathers p (x ++ b ++ y).length x.length b.length edits) :
    b ++ placedFrom p k edits <:+: run (tag k edits) (x ++ b ++ y) := by
  induction edits generalizing k x b y with
  | nil => exact ⟨x, y, by simp [placedFrom, tag]⟩
  | cons e edits ih =>
    cases e with
    | insert q t =>
      have hlen : (insertedText k t.length).length = t.length := by simp [insertedText]
      have hlength : (insertAt (x ++ b ++ y) q (insertedText k t.length)).length =
          (x ++ b ++ y).length + t.length := by rw [length_insertAt, hlen]
      change _ <:+: run (tag (k + 1) edits) (insertAt _ q _)
      rw [Gathers, ← hlength] at h
      split at h
      next hq =>
        obtain ⟨hend, h⟩ := h
        rw [insertAt_end (hq ▸ hend)] at h ⊢
        rw [placedFrom, if_pos hq, ← List.append_assoc]
        exact ih (by simpa [hlen] using h)
      next hq =>
        rw [placedFrom, if_neg hq, List.nil_append]
        split at h
        next hfront =>
          rw [insertAt_front hfront] at h ⊢
          refine ih ?_
          rwa [length_insertAt, hlen]
        next hfront =>
          obtain ⟨hback, h⟩ := h
          rw [insertAt_back (by simpa using hback)] at h ⊢
          exact ih h
    | delete q d =>
      change _ <:+: run (tag (k + 1) edits) (deleteAt _ q d)
      have hlength := length_deleteAt (x ++ b ++ y) q d
      rw [Gathers] at h
      rw [placedFrom]
      split at h
      next hfront =>
        have hsame : min d ((x ++ b ++ y).length - q) = d := by
          simp only [List.length_append]
          omega
        rw [hsame] at hlength
        rw [← hlength] at h
        rw [List.append_assoc, deleteAt_append_left hfront, ← List.append_assoc] at h ⊢
        refine ih ?_
        rwa [length_deleteAt, show min d (x.length - q) = d by omega]
      next hfront =>
        obtain ⟨hout, h⟩ := h
        rw [← hlength] at h
        rcases hout with hback | rfl
        · rw [deleteAt_append_right (by simpa using hback)] at h ⊢
          exact ih h
        · have hsame : deleteAt (x ++ b ++ y) q 0 = x ++ b ++ y := by
            rw [deleteAt, Nat.add_zero, List.take_append_drop]
          rw [hsame] at h ⊢
          exact ih h

theorem exists_cons_insertedText {t : List α} (h : t ≠ []) :
    ∃ o rest, insertedText k t.length = o :: rest :=
  List.exists_cons_of_ne_nil (by simpa [insertedText] using h)

/-- An insertion at the position of a stretch, behind which its text stands at the end, lands
there at once: nothing that an earlier insertion has put between them goes again. -/
theorem landing_of_infix {q : ℕ} {t : List α} {rest : List Origin}
    (h : Fresh k (x ++ b ++ y)) (hb : b ≠ []) (ht : t ≠ [])
    (hgap : q ≤ x.length ∨ ∀ o ∈ y, ∃ j i, o = .inserted j i)
    (hkept : ∀ j i, .inserted j i ∈ x ++ b ++ y →
      .inserted j i ∈ run (tag (k + 1) edits)
        (insertAt (x ++ b ++ y) q (insertedText k t.length)))
    (hblock : b ++ (insertedText k t.length ++ rest) <:+:
      run (tag (k + 1) edits) (insertAt (x ++ b ++ y) q (insertedText k t.length))) :
    min q (x ++ b ++ y).length = x.length + b.length := by
  have hfresh := h.insertAt (p := q) (m := t.length)
  obtain ⟨first, others, hfirst⟩ := exists_cons_insertedText (k := k) ht
  obtain ⟨b, last, rfl⟩ := (List.eq_nil_or_concat' b).resolve_left hb
  have hnext : [last, first] <:+: run (tag (k + 1) edits)
      (insertAt (x ++ (b ++ [last]) ++ y) q (insertedText k t.length)) :=
    List.IsInfix.trans ⟨b, others ++ rest, by simp [hfirst]⟩ hblock
  have hlast : last ∈ x ++ (b ++ [last]) ++ y := by simp
  have hmem : first ∈ insertedText k t.length := by simp [hfirst]
  rcases lt_trichotomy (min q (x ++ (b ++ [last]) ++ y).length) (x.length + (b ++ [last]).length)
    with hlow | heq | hhigh
  · -- the new text stands in front of the last element of the stretch
    exfalso
    have hpair := hfresh.pair_sublist (mem_insertAt.mpr (.inl hlast))
      (mem_insertAt.mpr (.inr hmem)) hnext.sublist
    have hnodup := hfresh.nodup
    rw [insertAt_clip] at hpair hnodup
    generalize min q (x ++ (b ++ [last]) ++ y).length = r at *
    refine not_swapped hnodup (List.mem_append_right _ hmem) ?_ hpair
    have hsplit : x ++ (b ++ [last]) ++ y = (x ++ b) ++ (last :: y) := by simp
    rw [hsplit, List.drop_append_of_le_length (by simp at hlow ⊢; omega)]
    simp
  · exact heq
  · -- an element behind the stretch would stand between it and the new text
    exfalso
    cases y with
    | nil =>
      simp at hhigh
    | cons o y =>
      obtain ⟨j, i, rfl⟩ := (hgap.resolve_left (by omega)) o List.mem_cons_self
      refine hfresh.not_between ?_ hnext (hkept j i (by simp))
      obtain ⟨r, hr⟩ := Nat.exists_eq_add_of_lt hhigh
      have hlen : x.length + (b ++ [last]).length = (x ++ (b ++ [last])).length := by simp
      rw [insertAt_back (by omega), hr, hlen, Nat.add_assoc, Nat.add_sub_cancel_left,
        show (x ++ (b ++ [last])) ++ insertAt (.inserted j i :: y) (r + 1)
          (insertedText k t.length) = (x ++ b) ++ ([last, .inserted j i] ++
            (y.take r ++ (first :: others) ++ y.drop r)) by simp [insertAt, hfirst]]
      refine List.Sublist.trans ?_ (List.sublist_append_right _ _)
      exact (List.Sublist.refl [last, _]).append (by simp)

theorem not_inside_of_infix {q : ℕ} {t : List α} {rest : List Origin}
    (h : Fresh k (x ++ b ++ y)) (ht : t ≠ [])
    (hkept : ∀ o ∈ insertedText k t.length, o ∈ run (tag (k + 1) edits)
      (insertAt (x ++ b ++ y) q (insertedText k t.length)))
    (hblock : b ++ rest <:+: run (tag (k + 1) edits)
      (insertAt (x ++ b ++ y) q (insertedText k t.length)))
    (hlow : x.length < min q (x ++ b ++ y).length) :
    x.length + b.length ≤ min q (x ++ b ++ y).length := by
  by_contra hhigh
  obtain ⟨first, others, hfirst⟩ := exists_cons_insertedText (k := k) ht
  -- the text parts the neighbours `a` and `c` of the stretch
  obtain ⟨b₁, a, c, b₂, hsplit, hinsert⟩ := insertAt_inside
    (t := insertedText k t.length) hlow (not_le.mp hhigh)
  have hnext : [a, c] <:+: b := ⟨b₁, b₂, hsplit.symm⟩
  have ha : [a].Sublist (x ++ b₁ ++ [a]) := List.sublist_append_right _ _
  have hc : [c].Sublist ([c] ++ b₂ ++ y) := by simp
  have hsub : [a, first, c].Sublist
      (insertAt (x ++ b ++ y) q (insertedText k t.length)) := by
    rw [hinsert, hfirst]
    exact (ha.append (show [first].Sublist (first :: others) by simp)).append hc
  exact h.insertAt.not_between hsub
    ((hnext.trans (List.prefix_append b _).isInfix).trans hblock)
    (hkept first (by simp [hfirst]))

theorem delete_outside_of_infix {q d : ℕ} {rest : List Origin} (h : Fresh k (x ++ b ++ y))
    (hb : b ≠ [])
    (hblock : b ++ rest <:+: run (tag (k + 1) edits) (deleteAt (x ++ b ++ y) q d))
    (hfront : ¬ q + d ≤ x.length) : x.length + b.length ≤ q ∨ d = 0 := by
  by_contra hin
  have hpos := List.length_pos_iff.mpr hb
  obtain ⟨b₁, o, b₂, rfl, hb₁⟩ :=
    exists_split (l := b) (i := max q x.length - x.length) (by omega)
  have hsplit : x ++ (b₁ ++ o :: b₂) ++ y = (x ++ b₁) ++ o :: (b₂ ++ y) := by simp
  rw [hsplit] at h hblock
  refine notMem_run_deleteAt edits h ?_ ?_ (hblock.subset (by simp))
  all_goals
    rw [List.length_append]
    omega

/-- A stretch that has at its end all that is inserted at its position gathers it, if no inserted
text is taken away. -/
theorem gathers_of_infix (h : Fresh k (x ++ b ++ y)) (hb : b ≠ [])
    (hne : ∀ q t, .insert q t ∈ edits → t ≠ [])
    (hlast : ∀ s m t, ¬ [.delete s m, .insert p t].Sublist edits)
    (hgap : (∃ t, .insert p t ∈ edits) → p ≤ x.length ∨ ∀ o ∈ y, ∃ j i, o = .inserted j i)
    (hkept : ∀ j i, .inserted j i ∈ x ++ b ++ y →
      .inserted j i ∈ run (tag k edits) (x ++ b ++ y))
    (hplaced : ∀ q, ∀ o ∈ placedFrom q k edits, o ∈ run (tag k edits) (x ++ b ++ y))
    (hblock : b ++ placedFrom p k edits <:+: run (tag k edits) (x ++ b ++ y)) :
    Gathers p (x ++ b ++ y).length x.length b.length edits := by
  induction edits generalizing k x b y with
  | nil => trivial
  | cons e edits ih =>
    have hne' : ∀ q t, .insert q t ∈ edits → t ≠ [] :=
      fun q t hmem => hne q t (List.mem_cons_of_mem _ hmem)
    have hlast' : ∀ s m t, ¬ [.delete s m, .insert p t].Sublist edits :=
      fun s m t hsub => hlast s m t (hsub.trans (List.sublist_cons_self _ _))
    cases e with
    | insert q t =>
      have ht := hne q t List.mem_cons_self
      have hlen : (insertedText k t.length).length = t.length := by simp [insertedText]
      have hlength : (insertAt (x ++ b ++ y) q (insertedText k t.length)).length =
          (x ++ b ++ y).length + t.length := by rw [length_insertAt, hlen]
      have hfresh := h.insertAt (p := q) (m := t.length)
      change ∀ j i, _ → _ ∈ run (tag (k + 1) edits) (insertAt _ q _) at hkept
      change ∀ q', ∀ o ∈ _, o ∈ run (tag (k + 1) edits) (insertAt _ q _) at hplaced
      change _ <:+: run (tag (k + 1) edits) (insertAt _ q _) at hblock
      have hnew : ∀ o ∈ insertedText k t.length,
          o ∈ run (tag (k + 1) edits) (insertAt (x ++ b ++ y) q (insertedText k t.length)) :=
        fun o ho => hplaced q o (by simp [placedFrom, ho])
      have hkept' : ∀ j i, .inserted j i ∈ insertAt (x ++ b ++ y) q (insertedText k t.length) →
          .inserted j i ∈
            run (tag (k + 1) edits) (insertAt (x ++ b ++ y) q (insertedText k t.length)) :=
        fun j i hmem => (mem_insertAt.mp hmem).elim (hkept j i) (hnew _)
      have hplaced' : ∀ q', ∀ o ∈ placedFrom q' (k + 1) edits,
          o ∈ run (tag (k + 1) edits) (insertAt (x ++ b ++ y) q (insertedText k t.length)) :=
        fun q' o ho => hplaced q' o (by simp [placedFrom, ho])
      rw [Gathers, ← hlength]
      rw [placedFrom] at hblock
      split
      next hq =>
        subst hq
        rw [if_pos rfl] at hblock
        have hgap' := hgap ⟨t, List.mem_cons_self⟩
        have hend := landing_of_infix h hb ht hgap' hkept hblock
        refine ⟨hend, ?_⟩
        rw [insertAt_end hend] at hfresh hkept' hplaced' hblock ⊢
        rw [← List.append_assoc] at hblock
        have := ih hfresh (by simp [hb]) hne' hlast' (fun _ => hgap') hkept' hplaced' hblock
        simpa [hlen] using this
      next hq =>
        rw [if_neg hq, List.nil_append] at hblock
        have hgap' : (∃ t, .insert p t ∈ edits) →
            p ≤ x.length ∨ ∀ o ∈ y, ∃ j i, o = .inserted j i := by
          rintro ⟨t, hmem⟩
          exact hgap ⟨t, List.mem_cons_of_mem _ hmem⟩
        split
        next hfront =>
          rw [insertAt_front hfront] at hfresh hkept' hplaced' hblock ⊢
          have := ih hfresh hb hne' hlast'
            (fun hmem => (hgap' hmem).imp_left fun hp => hp.trans (by simp)) hkept' hplaced' hblock
          rwa [length_insertAt, hlen] at this
        next hfront =>
          have hback := not_inside_of_infix h ht hnew hblock (not_le.mp hfront)
          refine ⟨hback, ?_⟩
          rw [insertAt_back (by simpa using hback)] at hfresh hkept' hplaced' hblock ⊢
          refine ih hfresh hb hne' hlast' (fun hmem => (hgap' hmem).imp_right fun hy o ho => ?_)
            hkept' hplaced' hblock
          rcases mem_insertAt.mp ho with ho | ho
          · exact hy o ho
          · obtain ⟨i, -, rfl⟩ := mem_insertedText.mp ho
            exact ⟨k, i, rfl⟩
    | delete q d =>
      have hfresh := h.deleteAt (s := q) (n := d)
      have hnone : ¬ ∃ t, .insert p t ∈ edits := by
        rintro ⟨t, hmem⟩
        exact hlast q d t (List.cons_sublist_cons.mpr (List.singleton_sublist.mpr hmem))
      have hlength := length_deleteAt (x ++ b ++ y) q d
      change ∀ j i, _ → _ ∈ run (tag (k + 1) edits) (deleteAt _ q d) at hkept
      change ∀ q', ∀ o ∈ placedFrom q' (k + 1) edits,
        o ∈ run (tag (k + 1) edits) (deleteAt _ q d) at hplaced
      change b ++ placedFrom p (k + 1) edits <:+:
        run (tag (k + 1) edits) (deleteAt _ q d) at hblock
      have hkept' : ∀ j i, .inserted j i ∈ deleteAt (x ++ b ++ y) q d →
          .inserted j i ∈ run (tag (k + 1) edits) (deleteAt (x ++ b ++ y) q d) :=
        fun j i hmem => hkept j i ((deleteAt_sublist _ q d).subset hmem)
      rw [Gathers]
      split
      next hfront =>
        have hsame : min d ((x ++ b ++ y).length - q) = d := by
          simp only [List.length_append]
          omega
        rw [hsame] at hlength
        rw [← hlength]
        rw [List.append_assoc, deleteAt_append_left hfront, ← List.append_assoc]
          at hfresh hkept' hplaced hblock ⊢
        have := ih hfresh hb hne' hlast' (fun hmem => absurd hmem hnone) hkept' hplaced hblock
        rwa [length_deleteAt, show min d (x.length - q) = d by omega] at this
      next hfront =>
        have hout := delete_outside_of_infix h hb hblock hfront
        refine ⟨hout, ?_⟩
        rw [← hlength]
        rcases hout with hback | rfl
        · rw [deleteAt_append_right (by simpa using hback)] at hfresh hkept' hplaced hblock ⊢
          exact ih hfresh hb hne' hlast' (fun hmem => absurd hmem hnone) hkept' hplaced hblock
        · have hsame : deleteAt (x ++ b ++ y) q 0 = x ++ b ++ y := by
            rw [deleteAt, Nat.add_zero, List.take_append_drop]
          rw [hsame] at hfresh hkept' hplaced hblock ⊢
          exact ih hfresh hb hne' hlast' (fun hmem => absurd hmem hnone) hkept' hplaced hblock

theorem insertAt_opens (l t : List α) (q : ℕ) : insertAt l q t = l.take q ++ t ++ l.drop q := rfl

theorem infix_of_gatheredAt {t : List Origin} (h : GatheredAt p t.length edits) :
    placedFrom p k edits <:+: run (tag k edits) t := by
  induction edits generalizing k t with
  | nil => exact List.nil_infix
  | cons e edits ih =>
    cases e with
    | insert q u =>
      have hlen : (insertedText k u.length).length = u.length := by simp [insertedText]
      have hlength := length_insertAt t (insertedText k u.length) q
      change _ <:+: run (tag (k + 1) edits) (insertAt t q _)
      rw [GatheredAt] at h
      rw [hlen] at hlength
      rw [placedFrom]
      rw [← hlength] at h
      split at h
      next hq =>
        subst hq
        rw [insertAt_opens] at h ⊢
        rw [if_pos rfl]
        refine infix_of_gathers ?_
        rwa [List.length_take, hlen]
      next hq =>
        rw [if_neg hq, List.nil_append]
        exact ih h
    | delete q d =>
      rw [GatheredAt, ← length_deleteAt] at h
      exact ih h

theorem gatheredAt_of_infix {t : List Origin} (h : Fresh k t)
    (hne : ∀ q t, .insert q t ∈ edits → t ≠ []) (hundivided : Undivided edits)
    (hkept : ∀ j i, .inserted j i ∈ t → .inserted j i ∈ run (tag k edits) t)
    (hplaced : ∀ q, placedFrom q k edits <:+: run (tag k edits) t) :
    GatheredAt p t.length edits := by
  induction edits generalizing k t with
  | nil => trivial
  | cons e edits ih =>
    have hne' : ∀ q t, .insert q t ∈ edits → t ≠ [] :=
      fun q t hmem => hne q t (List.mem_cons_of_mem _ hmem)
    have hundivided' : Undivided edits :=
      fun p t s m t' hsub => hundivided p t s m t' (hsub.trans (List.sublist_cons_self _ _))
    cases e with
    | insert q u =>
      have hlen : (insertedText k u.length).length = u.length := by simp [insertedText]
      have hlength := length_insertAt t (insertedText k u.length) q
      rw [hlen] at hlength
      change ∀ j i, _ → _ ∈ run (tag (k + 1) edits) (insertAt t q _) at hkept
      change ∀ q', _ <:+: run (tag (k + 1) edits) (insertAt t q _) at hplaced
      have hfresh := h.insertAt (p := q) (m := u.length)
      have hnew : ∀ o ∈ insertedText k u.length,
          o ∈ run (tag (k + 1) edits) (insertAt t q (insertedText k u.length)) :=
        fun o ho => (hplaced q).subset (by simp [placedFrom, ho])
      have hkept' : ∀ j i, .inserted j i ∈ insertAt t q (insertedText k u.length) →
          .inserted j i ∈ run (tag (k + 1) edits) (insertAt t q (insertedText k u.length)) :=
        fun j i hmem => (mem_insertAt.mp hmem).elim (hkept j i) (hnew _)
      have hplaced' : ∀ q', placedFrom q' (k + 1) edits <:+:
          run (tag (k + 1) edits) (insertAt t q (insertedText k u.length)) :=
        fun q' => (List.suffix_append _ _).isInfix.trans (hplaced q')
      rw [GatheredAt, ← hlength]
      split
      next hq =>
        subst hq
        have hblock := hplaced q
        rw [placedFrom, if_pos rfl] at hblock
        rw [insertAt_opens] at hfresh hkept' hplaced' hblock ⊢
        have hopen : (∃ u', .insert q u' ∈ edits) →
            q ≤ (t.take q).length ∨ ∀ o ∈ t.drop q, ∃ j i, o = .inserted j i := by
          intro _
          rcases le_or_gt q t.length with hle | hgt
          · exact .inl (by simp [hle])
          · exact .inr (by simp [List.drop_eq_nil_of_le hgt.le])
        have hlast : ∀ s m u', ¬ [.delete s m, .insert q u'].Sublist edits :=
          fun s m u' hsub => hundivided q u s m u' (List.cons_sublist_cons.mpr hsub)
        have hu := hne q u List.mem_cons_self
        have := gathers_of_infix hfresh (by simpa [insertedText] using hu) hne' hlast hopen hkept'
          (fun q' o ho => (hplaced' q').subset ho) hblock
        rwa [List.length_take, hlen] at this
      next hq => exact ih hfresh hne' hundivided' hkept' hplaced'
    | delete q d =>
      rw [GatheredAt, ← length_deleteAt]
      exact ih h.deleteAt hne' hundivided'
        (fun j i hmem => hkept j i ((deleteAt_sublist _ q d).subset hmem)) hplaced

theorem placedFrom_eq_nil_of_inserts (h : ∀ e ∈ edits, e.isInsert = true → e.position ≠ p) :
    placedFrom p k edits = [] := by
  induction edits generalizing k with
  | nil => rfl
  | cons e edits ih =>
    obtain ⟨hfirst, hrest⟩ := List.forall_mem_cons.mp h
    cases e with
    | insert q t =>
      have hq : q ≠ p := hfirst rfl
      rw [placedFrom, if_neg hq, List.nil_append, ih hrest]
    | delete q d => exact ih hrest

/-- The texts of the insertions at every position stand one behind the other at the end exactly
when every position gathers them. -/
theorem placedFrom_infix_iff {n : ℕ} (hne : ∀ q t, .insert q t ∈ edits → t ≠ [])
    (hundivided : Undivided edits) :
    (∀ p, placedFrom p 0 edits <:+: origins n edits) ↔ Gathered n edits := by
  have hlen : (originalText n).length = n := by simp [originalText]
  constructor
  · intro h e he hkind
    have horiginal : ∀ j i, Origin.inserted j i ∉ originalText n := by simp [originalText]
    have := gatheredAt_of_infix (p := e.position) (fresh_originalText n) hne hundivided
      (fun j i hmem => absurd hmem (horiginal j i)) h
    rwa [hlen] at this
  · intro h p
    by_cases hp : ∃ e ∈ edits, e.isInsert = true ∧ e.position = p
    · obtain ⟨e, he, hkind, rfl⟩ := hp
      refine infix_of_gatheredAt ?_
      rw [hlen]
      exact h e he hkind
    · rw [placedFrom_eq_nil_of_inserts fun e he hkind heq => hp ⟨e, he, hkind, heq⟩]
      exact List.nil_infix

end Runs

section Pairs

variable {edits : List (Edit α)} {n p : ℕ} {t t' : List α}

theorem not_gathers {s m : ℕ} (hp : p ≤ s) (hm : 0 < m) (hmem : .insert p t ∈ edits)
    (hlast : ∀ q d t, ¬ [.delete q d, .insert p t].Sublist edits) : ¬ Gathers p n s m edits := by
  intro h
  induction edits generalizing n s m with
  | nil => cases hmem
  | cons e edits ih =>
    have hlast' : ∀ q d t, ¬ [.delete q d, .insert p t].Sublist edits :=
      fun q d t hsub => hlast q d t (hsub.trans (List.sublist_cons_self _ _))
    cases e with
    | insert q u =>
      rw [Gathers] at h
      split at h
      next hq => omega
      next hq =>
        have hmem' : .insert p t ∈ edits := by
          refine (List.mem_cons.mp hmem).resolve_left fun heq => hq ?_
          cases heq
          rfl
        split at h
        · exact ih (hp.trans (Nat.le_add_right s _)) hm hmem' hlast' h
        · exact ih hp hm hmem' hlast' h.2
    | delete q d =>
      have hmem' := (List.mem_cons.mp hmem).resolve_left (by simp)
      exact hlast q d t (List.cons_sublist_cons.mpr (List.singleton_sublist.mpr hmem'))

theorem not_gatheredAt_of_pair (hp : p ≤ n) (hpair : [.insert p t, .insert p t'].Sublist edits)
    (hne : ∀ q t, .insert q t ∈ edits → t ≠ []) (hundivided : Undivided edits)
    (hbehind : ∀ s m t, [.delete s m, .insert p t].Sublist edits → p ≤ s) :
    ¬ GatheredAt p n edits := by
  induction edits generalizing n with
  | nil => cases hpair
  | cons e edits ih =>
    have hne' : ∀ q t, .insert q t ∈ edits → t ≠ [] :=
      fun q t hmem => hne q t (List.mem_cons_of_mem _ hmem)
    have hundivided' : Undivided edits :=
      fun p t s m t' hsub => hundivided p t s m t' (hsub.trans (List.sublist_cons_self _ _))
    have hbehind' : ∀ s m t, [.delete s m, .insert p t].Sublist edits → p ≤ s :=
      fun s m t hsub => hbehind s m t (hsub.trans (List.sublist_cons_self _ _))
    have hsecond : .insert p t' ∈ edits := by
      cases hpair with
      | cons _ h => exact h.subset (by simp)
      | cons_cons _ h => exact h.subset (by simp)
    cases e with
    | insert q u =>
      rw [GatheredAt]
      split
      next hq =>
        subst hq
        refine not_gathers (le_min le_rfl hp) (List.length_pos_iff.mpr ?_) hsecond ?_
        · exact hne q u List.mem_cons_self
        · exact fun s m t hsub => hundivided q u s m t (List.cons_sublist_cons.mpr hsub)
      next hq =>
        refine ih (hp.trans (Nat.le_add_right n _)) ?_ hne' hundivided' hbehind'
        cases hpair with
        | cons _ h => exact h
        | cons_cons _ h => exact absurd rfl hq
    | delete q d =>
      have hq : p ≤ q :=
        hbehind q d t' (List.cons_sublist_cons.mpr (List.singleton_sublist.mpr hsecond))
      cases hpair with
      | cons _ h => exact ih (by omega) h hne' hundivided' hbehind'

end Pairs

end Splice
