import Meridian.Lib.Splice

/-! Edits applied from the back of a text to its front. Then an edit meets the text before
its place as it was, and whether a deletion covers something that must stay is a matter of
the positions and the lengths: between the start of a deletion and a place that stays, the
deletions must not remove more than there is. -/
namespace Splice

variable {α : Type*}

namespace Edit

def marks : Edit α → Edit Mark
  | .insert position text => .insert position (textMarks text.length)
  | .delete start length => .delete start length

def deleted (s q : ℕ) : Edit α → ℕ
  | .insert _ _ => 0
  | .delete start length => if s ≤ start ∧ start < q then length else 0

def added (s : ℕ) : Edit α → ℕ
  | .insert position text => if s < position then text.length else 0
  | .delete _ _ => 0

end Edit

def load (edits : List (Edit α)) (s q : ℕ) : ℕ := (edits.map (Edit.deleted s q)).sum

def added (edits : List (Edit α)) (s : ℕ) : ℕ := (edits.map (Edit.added s)).sum

@[simp] theorem load_concat (edits : List (Edit α)) (e : Edit α) (s q : ℕ) :
    load (edits ++ [e]) s q = load edits s q + e.deleted s q := by
  simp [load]

@[simp] theorem added_concat (edits : List (Edit α)) (e : Edit α) (s : ℕ) :
    added (edits ++ [e]) s = added edits s + e.added s := by
  simp [added]

theorem load_eq_zero {edits : List (Edit α)} {s q : ℕ} (h : ∀ e ∈ edits, q ≤ e.position) :
    load edits s q = 0 := by
  refine List.sum_eq_zero fun x hx => ?_
  obtain ⟨e, he, rfl⟩ := List.mem_map.mp hx
  have := h e he
  cases e with
  | insert position text => rfl
  | delete start length => exact if_neg (by simp only [Edit.position] at this; omega)

theorem load_start {edits : List (Edit α)} {s q : ℕ} (h : ∀ e ∈ edits, s ≤ e.position) :
    load edits s q = load edits 0 q := by
  refine congrArg List.sum (List.map_congr_left fun e he => ?_)
  have := h e he
  cases e with
  | insert position text => rfl
  | delete start length =>
    simp only [Edit.position] at this
    simp [Edit.deleted, this]

section Room

variable (named : ℕ → Bool) (n : ℕ)

/-- A place that stays: an unnamed one of the first text, or one of an insertion. -/
def Obstacle (edits : List (Edit α)) (q : ℕ) : Prop :=
  (q < n ∧ named q = false) ∨ ∃ position text, .insert position text ∈ edits ∧ q = min position n

/-- The deletions leave room for what stays: none starts at an unnamed place or where an
insertion came first, those that start between the start of one and a later place that stays
remove no more than there is, and none reaches what is inserted behind the end of the first
text. -/
structure Spared (edits : List (Edit α)) : Prop where
  start : ∀ s m, .delete s m ∈ edits → s < n →
    (named s = false ∨ ∃ text, [.insert s text, .delete s m].Sublist edits) → m = 0
  between : ∀ s m, .delete s m ∈ edits → ∀ q, s < q → Obstacle named n edits q →
    load edits s q ≤ q - s
  beyond : ∀ s m, .delete s m ∈ edits → n ≤ s → m = 0 ∨ n + added edits s ≤ s

end Room

/-- No edit lies behind an earlier one; and behind the end of the first text, which has `n`
places, the deletions at a place come first. -/
def BackToFront (n : ℕ) (edits : List (Edit α)) : Prop :=
  edits.Pairwise fun a b => b.position ≤ a.position ∧
    (a.isInsert = true → b.isInsert = false → b.position < a.position ∨ b.position < n)

theorem backToFront_concat {n : ℕ} {edits : List (Edit α)} {e : Edit α} :
    BackToFront n (edits ++ [e]) ↔ BackToFront n edits ∧ ∀ a ∈ edits, e.position ≤ a.position ∧
      (a.isInsert = true → e.isInsert = false → e.position < a.position ∨ e.position < n) := by
  simp [BackToFront, List.pairwise_append]

theorem pair_sublist_concat {a b x : α} {l : List α} :
    [a, b].Sublist (l ++ [x]) ↔ [a, b].Sublist l ∨ (a ∈ l ∧ b = x) := by
  constructor
  · intro h
    obtain ⟨l₁, l₂, heq, h₁, h₂⟩ := List.sublist_append_iff.mp h
    rcases List.sublist_singleton.mp h₂ with rfl | rfl
    · rw [List.append_nil] at heq
      exact .inl (heq ▸ h₁)
    · obtain ⟨rfl, hb⟩ := List.append_inj' (show [a] ++ [b] = l₁ ++ [x] from heq) rfl
      exact .inr ⟨List.singleton_sublist.mp h₁, List.singleton_inj.mp hb⟩
  · rintro (h | ⟨h, rfl⟩)
    · exact h.trans (List.sublist_append_left _ _)
    · exact (List.singleton_sublist.mpr h).append (List.Sublist.refl [b])

section Lookup

theorem take_insertAt {l : List α} {p m : ℕ} (hp : p ≤ l.length) (hm : m ≤ p) (t : List α) :
    (insertAt l p t).take m = l.take m := by
  rw [insertAt, List.append_assoc, List.take_append_of_le_length (by rw [List.length_take]; omega),
    List.take_take, min_eq_left hm]

theorem take_deleteAt {l : List α} {s m : ℕ} (hm : m ≤ s) (n : ℕ) :
    (deleteAt l s n).take m = l.take m := by
  refine List.ext_getElem? fun j => ?_
  rw [List.getElem?_take, List.getElem?_take, getElem?_deleteAt]
  split
  · rw [if_pos (by omega)]
  · rfl

/-- A change of the elements in front of an edit can be made before it or after it. -/
theorem mapIdx_apply {f : ℕ → α → α} {e : Edit α} {l : List α} (he : e.position ≤ l.length)
    (hf : ∀ k, e.position ≤ k → ∀ a, f k a = a) :
    (e.apply l).mapIdx f = e.apply (l.mapIdx f) := by
  refine List.ext_getElem? fun j => ?_
  have hsame : ∀ k, e.position ≤ k → ∀ o : Option α, o.map (f k) = o := by
    intro k hk o
    rw [funext (hf k hk), Option.map_id']
  cases e with
  | insert position text =>
    simp only [Edit.position] at he hsame
    have hlen : position ≤ (l.mapIdx f).length := he.trans_eq List.length_mapIdx.symm
    rw [List.getElem?_mapIdx, Edit.apply, Edit.apply, getElem?_insertAt he, getElem?_insertAt hlen]
    split
    · rw [List.getElem?_mapIdx]
    · split
      · rw [hsame j (by omega)]
      · rw [List.getElem?_mapIdx, hsame j (by omega), hsame _ (by omega)]
  | delete start length =>
    rw [List.getElem?_mapIdx, Edit.apply, Edit.apply, getElem?_deleteAt, getElem?_deleteAt]
    simp only [Edit.position] at hsame
    split
    · rw [List.getElem?_mapIdx]
    · rw [List.getElem?_mapIdx, hsame j (by omega), hsame _ (by omega)]

theorem mem_window {l : List α} {s m : ℕ} {x : α} :
    x ∈ (l.drop s).take m ↔ ∃ j, s ≤ j ∧ j < s + m ∧ l[j]? = some x := by
  rw [List.mem_iff_getElem?]
  constructor
  · rintro ⟨i, hi⟩
    have him : i < m := by
      by_contra hge
      rw [List.getElem?_take_eq_none (by omega)] at hi
      cases hi
    rw [List.getElem?_take_of_lt him, List.getElem?_drop] at hi
    exact ⟨s + i, by omega, by omega, hi⟩
  · rintro ⟨j, hs, hm, hj⟩
    refine ⟨j - s, ?_⟩
    rw [List.getElem?_take_of_lt (by omega), List.getElem?_drop, show s + (j - s) = j by omega, hj]

@[simp] theorem length_textMarks (m : ℕ) : (textMarks m).length = m := by
  cases m <;> simp [textMarks]

theorem getElem?_textMarks {m i : ℕ} (h : i < m) :
    (textMarks m)[i]? = some (if i = 0 then .kept else .inside) := by
  cases m with
  | zero => omega
  | succ m =>
    cases i with
    | zero => rfl
    | succ i => simp [textMarks, List.getElem?_replicate]; omega

end Lookup

section Marks

variable (named : ℕ → Bool) (n : ℕ)

def marksAfter (edits : List (Edit α)) : List Mark :=
  run (edits.map Edit.marks) ((originalText n).map (mark named))

def SafeAt (m : List Mark) : Edit α → Prop
  | .insert position _ => m[position]? ≠ some .inside
  | .delete start length => ∀ x ∈ (m.drop start).take length, x = .free

variable {named n}

theorem marksAfter_concat (edits : List (Edit α)) (e : Edit α) :
    marksAfter named n (edits ++ [e]) = e.marks.apply (marksAfter named n edits) := by
  simp [marksAfter, run]

theorem safe_concat {m : List Mark} {edits : List (Edit α)} {e : Edit α} :
    Safe m (edits ++ [e]) ↔ Safe m edits ∧ SafeAt (run (edits.map Edit.marks) m) e := by
  induction edits generalizing m with
  | nil => cases e <;> simp [Safe, SafeAt]
  | cons a edits ih =>
    cases a with
    | insert position text =>
      rw [List.cons_append, Safe, ih, Safe, and_assoc]
      rfl
    | delete start length =>
      rw [List.cons_append, Safe, ih, Safe, and_assoc]
      rfl

end Marks

section Tracks

variable (named : ℕ → Bool) (n : ℕ)

/-- What is known of the marks `m` after safe edits, all at `bound` or behind it. -/
structure Tracks (edits : List (Edit α)) (m : List Mark) (bound : ℕ) : Prop where
  front : ∀ i < bound, i < n → m[i]? = some (if named i then .free else .kept)
  joined : ∀ i, m[i]? = some .inside → 0 < i ∧ m[i - 1]? ≠ some .free
  entry : ∀ p ≤ bound, p < n → m[p]? ≠ some .inside
  /-- What must stay marks an obstacle, moved by no more than the deletions before it. -/
  reach : ∀ j x, min bound n ≤ j → m[j]? = some x → x ≠ .free →
    ∃ q, min bound n ≤ q ∧ Obstacle named n edits q ∧ q ≤ j + load edits 0 q
  /-- Up to an obstacle something must stay, moved by all the deletions before it. -/
  hold : ∀ q, min bound n ≤ q → Obstacle named n edits q →
    ∃ j x, min bound n ≤ j ∧ m[j]? = some x ∧ x ≠ .free ∧ j + load edits 0 q ≤ q
  length : n ≤ bound → ∀ s, (∀ e ∈ edits, e.isInsert = true → s < e.position) →
    m.length = n + added edits s
  stays : n ≤ bound → ∀ j x, n ≤ j → m[j]? = some x → x ≠ .free

variable {named n}

theorem Tracks.initial (bound : ℕ) :
    Tracks named n ([] : List (Edit α)) ((originalText n).map (mark named)) bound := by
  have hget : ∀ i, ((originalText n).map (mark named))[i]? =
      if i < n then some (if named i then .free else .kept) else none := by
    intro i
    by_cases hi : i < n <;> simp [originalText, hi, mark]
  constructor
  case front =>
    intro i _ hi
    rw [hget, if_pos hi]
  case joined =>
    intro i hi
    rw [hget] at hi
    split at hi
    · split at hi <;> cases hi
    · cases hi
  case entry =>
    intro p _ hp
    rw [hget, if_pos hp]
    split <;> simp
  case reach =>
    intro j x hj hx hfree
    rw [hget] at hx
    split at hx
    · next hjn =>
      refine ⟨j, hj, .inl ⟨hjn, ?_⟩, by simp⟩
      cases hnamed : named j <;> simp_all
    · cases hx
  case hold =>
    rintro q hq (⟨hqn, hnamed⟩ | ⟨_, _, hmem, _⟩)
    · exact ⟨q, .kept, hq, by simp [hget, hqn, hnamed], by simp, by simp [load]⟩
    · cases hmem
  case length =>
    intro _ s _
    simp [originalText, added]
  case stays =>
    intro _ j x hj hx
    rw [hget, if_neg (by omega)] at hx
    cases hx

theorem Tracks.lower {edits : List (Edit α)} {m : List Mark} {bound lower : ℕ}
    (h : Tracks named n edits m bound) (hle : lower ≤ bound)
    (hedits : ∀ e ∈ edits, bound ≤ e.position) : Tracks named n edits m lower where
  front i hi hn := h.front i (hi.trans_le hle) hn
  joined := h.joined
  entry p hp hn := h.entry p (hp.trans hle) hn
  reach j x hj hx hfree := by
    by_cases hjb : min bound n ≤ j
    · obtain ⟨q, hq, hobstacle, hreach⟩ := h.reach j x hjb hx hfree
      exact ⟨q, by omega, hobstacle, hreach⟩
    · have hfront := h.front j (by omega) (by omega)
      rw [hx] at hfront
      refine ⟨j, hj, .inl ⟨by omega, ?_⟩, by omega⟩
      cases hnamed : named j <;> simp_all
  hold q hq hobstacle := by
    by_cases hqb : min bound n ≤ q
    · obtain ⟨j, x, hj, hx⟩ := h.hold q hqb hobstacle
      exact ⟨j, x, by omega, hx⟩
    · rcases hobstacle with ⟨hqn, hnamed⟩ | ⟨position, text, hmem, rfl⟩
      · refine ⟨q, .kept, hq, by simp [h.front q (by omega) hqn, hnamed], by simp, ?_⟩
        rw [load_eq_zero fun e he => (show q ≤ bound by omega).trans (hedits e he)]
        omega
      · have := hedits _ hmem
        simp only [Edit.position] at this
        omega
  length hn := h.length (hn.trans hle)
  stays hn := h.stays (hn.trans hle)

theorem Tracks.le_length {edits : List (Edit α)} {m : List Mark} {bound : ℕ}
    (h : Tracks named n edits m bound) : min bound n ≤ m.length := by
  by_contra hlt
  have := h.front (min bound n - 1) (by omega) (by omega)
  rw [List.getElem?_eq_none (by omega)] at this
  cases this

theorem Obstacle.concat_insert {edits : List (Edit α)} {p q : ℕ} {t : List α} :
    Obstacle named n (edits ++ [.insert p t]) q ↔ Obstacle named n edits q ∨ q = min p n := by
  simp only [Obstacle, List.mem_append, List.mem_singleton]
  constructor
  · rintro (h | ⟨p', t', hmem | heq, hq⟩)
    · exact .inl (.inl h)
    · exact .inl (.inr ⟨p', t', hmem, hq⟩)
    · cases heq
      exact .inr hq
  · rintro ((h | ⟨p', t', hmem, hq⟩) | hq)
    · exact .inl h
    · exact .inr ⟨p', t', .inl hmem, hq⟩
    · exact .inr ⟨p, t, .inr rfl, hq⟩

theorem Obstacle.concat_delete {edits : List (Edit α)} {s l q : ℕ} :
    Obstacle named n (edits ++ [.delete s l]) q ↔ Obstacle named n edits q := by
  simp [Obstacle]

theorem Tracks.getElem?_insert {edits : List (Edit α)} {m : List Mark} {p : ℕ}
    (h : Tracks named n edits m p) (l : ℕ) :
    ∃ p' ≤ p, (p ≤ n → p' = p) ∧ (n ≤ p → n ≤ p') ∧ (p' = p ∨ m.length ≤ p') ∧
      ∀ j, (insertAt m p (textMarks l))[j]? =
        if j < p' then m[j]? else
          if j < p' + l then some (if j = p' then .kept else .inside) else m[j - l]? := by
  have hlen := h.le_length
  refine ⟨min p m.length, by omega, by omega, by omega, by omega, fun j => ?_⟩
  rw [insertAt_clip, getElem?_insertAt (by omega), length_textMarks]
  split
  · rfl
  · next hj =>
    split
    · rw [getElem?_textMarks (by omega)]
      simp only [Nat.sub_eq_zero_iff_le]
      congr 1
      simp only [show j ≤ min p m.length ↔ j = min p m.length by omega]
    · rfl

theorem Tracks.insert {edits : List (Edit α)} {m : List Mark} {p : ℕ} {t : List α}
    (h : Tracks named n edits m p) (hedits : ∀ e ∈ edits, p ≤ e.position) (ht : 0 < t.length)
    (hat : m[p]? ≠ some .inside) :
    Tracks named n (edits ++ [.insert p t]) (insertAt m p (textMarks t.length)) p := by
  obtain ⟨p', hle, hinner, houter, hclip, hget⟩ := h.getElem?_insert t.length
  have hload : ∀ q, load (edits ++ [.insert p t]) 0 q = load edits 0 q := fun q => by
    simp [Edit.deleted]
  have hstays : n ≤ p → ∀ j x, n ≤ j → (insertAt m p (textMarks t.length))[j]? = some x →
      x ≠ .free := by
    intro hn j x hj hx
    rw [hget] at hx
    split at hx
    · exact h.stays hn j x hj hx
    · split at hx
      · split at hx <;> cases hx <;> simp
      · exact h.stays hn _ x (by have := houter hn; omega) hx
  constructor
  case front =>
    intro i hi hin
    rw [hget, if_pos (by omega), h.front i hi hin]
  case joined =>
    intro i hi
    rw [hget] at hi
    rw [hget]
    split at hi
    · obtain ⟨hpos, hprev⟩ := h.joined i hi
      exact ⟨hpos, by rwa [if_pos (by omega)]⟩
    · split at hi
      · have hne : i ≠ p' := by
          rintro rfl
          simp at hi
        refine ⟨by omega, ?_⟩
        rw [if_neg (by omega), if_pos (by omega)]
        split <;> simp
      · obtain ⟨hpos, hprev⟩ := h.joined _ hi
        have hne : i ≠ p' + t.length := by
          rintro rfl
          rw [Nat.add_sub_cancel] at hi
          rcases hclip with rfl | hend
          · exact hat hi
          · rw [List.getElem?_eq_none hend] at hi
            cases hi
        refine ⟨by omega, ?_⟩
        rw [if_neg (by omega), if_neg (by omega), show i - 1 - t.length = i - t.length - 1 by omega]
        exact hprev
  case entry =>
    intro j hj hjn
    rw [hget]
    split
    · exact h.entry j hj hjn
    · rw [if_pos (by omega), if_pos (by omega)]
      simp
  case reach =>
    intro j x hj hx hfree
    rw [hget] at hx
    simp only [hload]
    by_cases hin : j < p' + t.length ∨ n ≤ p
    · exact ⟨min p n, le_rfl, Obstacle.concat_insert.mpr (.inr rfl), by omega⟩
    · rw [if_neg (by omega), if_neg (by omega)] at hx
      obtain ⟨q, hq, hobstacle, hreach⟩ := h.reach _ x (by omega) hx hfree
      exact ⟨q, hq, Obstacle.concat_insert.mpr (.inl hobstacle), by omega⟩
  case hold =>
    intro q hq hobstacle
    have hroom : min p n + load edits 0 q ≤ q := by
      rcases Obstacle.concat_insert.mp hobstacle with hold | rfl
      · obtain ⟨j, -, hj, -, -, hroom⟩ := h.hold q hq hold
        omega
      · rw [load_eq_zero fun e he => (min_le_left p n).trans (hedits e he)]
        omega
    simp only [hload]
    by_cases hpn : p ≤ n
    · refine ⟨p, .kept, by omega, ?_, by simp, by omega⟩
      rw [hget, if_neg (by omega), if_pos (by omega), if_pos (by omega)]
    · have hlen := h.le_length
      have hin : n < (insertAt m p (textMarks t.length)).length := by simp; omega
      have hx := List.getElem?_eq_getElem hin
      exact ⟨n, _, by omega, hx, hstays (by omega) n _ le_rfl hx, by omega⟩
  case length =>
    intro hn s hs
    have hold := h.length hn s fun e he => hs e (List.mem_append_left _ he)
    have hnew := hs (.insert p t) (by simp) rfl
    simp only [Edit.position] at hnew
    simp [hold, Edit.added, hnew]
    omega
  case stays =>
    exact hstays

theorem Tracks.deleteAt_eq {edits : List (Edit α)} {m : List Mark} {s l : ℕ}
    (h : Tracks named n edits m s) (hat : ∀ x ∈ (m.drop s).take l, x = .free) (hn : n ≤ s) :
    deleteAt m s l = m := by
  refine List.ext_getElem? fun j => ?_
  rw [getElem?_deleteAt]
  split
  · rfl
  · rcases Nat.eq_zero_or_pos l with rfl | hl
    · rfl
    · have hend : m.length ≤ s := by
        by_contra hlt
        have hx := List.getElem?_eq_getElem (not_le.mp hlt)
        exact h.stays hn s _ hn hx (hat _ (mem_window.mpr ⟨s, le_rfl, by omega, hx⟩))
      rw [List.getElem?_eq_none (by omega), List.getElem?_eq_none (by omega)]

theorem Tracks.delete {edits : List (Edit α)} {m : List Mark} {s l : ℕ}
    (h : Tracks named n edits m s) (hat : ∀ x ∈ (m.drop s).take l, x = .free) :
    Tracks named n (edits ++ [.delete s l]) (deleteAt m s l) s := by
  have hget := getElem?_deleteAt m s l
  have hload : ∀ q, load (edits ++ [.delete s l]) 0 q = load edits 0 q + if s < q then l else 0 :=
    fun q => by simp [Edit.deleted]
  have hedge : m[s + l]? = some .inside → l = 0 := by
    intro hin
    by_contra hl
    -- the character before one inside a text is of that text, and not in the window
    obtain ⟨-, hprev⟩ := h.joined _ hin
    obtain ⟨hlt, -⟩ := List.getElem?_eq_some_iff.mp hin
    have hx := List.getElem?_eq_getElem (show s + l - 1 < m.length by omega)
    exact hprev (hx.trans (congrArg some (hat _ (mem_window.mpr ⟨_, by omega, by omega, hx⟩))))
  constructor
  case front =>
    intro i hi hin
    rw [hget, if_pos hi, h.front i hi hin]
  case joined =>
    intro i hi
    rw [hget] at hi
    rw [hget]
    split at hi
    · obtain ⟨hpos, hprev⟩ := h.joined i hi
      exact ⟨hpos, by rwa [if_pos (by omega)]⟩
    · obtain ⟨hpos, hprev⟩ := h.joined _ hi
      rcases Nat.lt_or_ge s i with hlt | hge
      · refine ⟨by omega, ?_⟩
        rwa [if_neg (by omega), show i - 1 + l = i + l - 1 by omega]
      · obtain rfl : i = s := by omega
        obtain rfl := hedge hi
        exact ⟨by omega, by rwa [if_pos (by omega)]⟩
  case entry =>
    intro p hp hpn hin
    rw [hget] at hin
    split at hin
    · exact h.entry p hp hpn hin
    · obtain rfl : p = s := by omega
      obtain rfl := hedge hin
      exact h.entry p hp hpn hin
  case reach =>
    intro j x hj hx hfree
    simp only [Obstacle.concat_delete, hload]
    by_cases hn : n ≤ s
    · rw [h.deleteAt_eq hat hn] at hx
      obtain ⟨q, hq, hobstacle, hreach⟩ := h.reach j x hj hx hfree
      exact ⟨q, hq, hobstacle, by omega⟩
    · rw [hget, if_neg (by omega)] at hx
      obtain ⟨q, hq, hobstacle, hreach⟩ := h.reach _ x (by omega) hx hfree
      refine ⟨q, hq, hobstacle, ?_⟩
      split <;> omega
  case hold =>
    intro q hq hobstacle
    rw [Obstacle.concat_delete] at hobstacle
    obtain ⟨j, x, hj, hx, hfree, hroom⟩ := h.hold q hq hobstacle
    simp only [hload]
    by_cases hn : n ≤ s
    · have hqn : q ≤ n := by
        rcases hobstacle with ⟨hlt, -⟩ | ⟨_, _, -, rfl⟩ <;> omega
      rw [h.deleteAt_eq hat hn]
      refine ⟨j, x, hj, hx, hfree, ?_⟩
      rw [if_neg (by omega)]
      exact hroom
    · have hpast : s + l ≤ j := by
        by_contra hlt
        exact hfree (hat x (mem_window.mpr ⟨j, by omega, by omega, hx⟩))
      refine ⟨j - l, x, by omega, ?_, hfree, by split <;> omega⟩
      rw [hget, if_neg (by omega), Nat.sub_add_cancel (by omega)]
      exact hx
  case length =>
    intro hn s' hs'
    rw [h.deleteAt_eq hat hn, h.length hn s' fun e he => hs' e (List.mem_append_left _ he)]
    simp [Edit.added]
  case stays =>
    intro hn
    rw [h.deleteAt_eq hat hn]
    exact h.stays hn

theorem tracks_of_safe {edits : List (Edit α)} (horder : BackToFront n edits)
    (hne : ∀ position text, .insert position text ∈ edits → 0 < text.length)
    (hsafe : Safe ((originalText n).map (mark named)) edits) {bound : ℕ}
    (hbound : ∀ e ∈ edits, bound ≤ e.position) :
    Tracks named n edits (marksAfter named n edits) bound := by
  induction edits using List.reverseRecOn generalizing bound with
  | nil => exact Tracks.initial bound
  | append_singleton edits e ih =>
    obtain ⟨horder, hlast⟩ := backToFront_concat.mp horder
    obtain ⟨hsafe, hat⟩ := safe_concat.mp hsafe
    have hbefore := ih horder (fun p t h => hne p t (List.mem_append_left _ h)) hsafe
      fun a ha => (hlast a ha).1
    have hnext : Tracks named n (edits ++ [e]) (marksAfter named n (edits ++ [e])) e.position := by
      rw [marksAfter_concat]
      cases e with
      | insert p t => exact hbefore.insert (fun a ha => (hlast a ha).1) (hne p t (by simp)) hat
      | delete s l => exact hbefore.delete hat
    refine hnext.lower (hbound e (by simp)) fun a ha => ?_
    rcases List.mem_append.mp ha with ha | ha
    · exact (hlast a ha).1
    · rw [List.mem_singleton.mp ha]

theorem spared_concat_insert {edits : List (Edit α)} {p : ℕ} {t : List α}
    (h : ∀ a ∈ edits, p ≤ a.position) :
    Spared named n (edits ++ [.insert p t]) ↔ Spared named n edits := by
  have hload : ∀ s q, load (edits ++ [.insert p t]) s q = load edits s q := fun s q => by
    simp [Edit.deleted]
  have hdel : ∀ s l, Edit.delete s l ∈ edits ++ [.insert p t] ↔ .delete s l ∈ edits := fun s l => by
    simp
  have hpair : ∀ s l t', [Edit.insert s t', .delete s l].Sublist (edits ++ [.insert p t]) ↔
      [Edit.insert s t', .delete s l].Sublist edits := by
    intro s l t'
    simp [pair_sublist_concat]
  have hadded : ∀ s l, .delete s l ∈ edits → added (edits ++ [.insert p t]) s = added edits s := by
    intro s l hs
    have := h _ hs
    simp only [Edit.position] at this
    simp [Edit.added, this]
  constructor
  · intro hs
    refine ⟨fun s l hd hn ho => hs.start s l ((hdel s l).mpr hd) hn (by simpa only [hpair]),
      fun s l hd q hq ho => ?_, fun s l hd hn => ?_⟩
    · rw [← hload]
      exact hs.between s l ((hdel s l).mpr hd) q hq (Obstacle.concat_insert.mpr (.inl ho))
    · rw [← hadded s l hd]
      exact hs.beyond s l ((hdel s l).mpr hd) hn
  · intro hs
    refine ⟨fun s l hd hn ho => hs.start s l ((hdel s l).mp hd) hn (by simpa only [hpair] using ho),
      fun s l hd q hq ho => ?_, fun s l hd hn => ?_⟩
    · rw [hdel] at hd
      rw [hload]
      rcases Obstacle.concat_insert.mp ho with ho | rfl
      · exact hs.between s l hd q hq ho
      · have := h _ hd
        simp only [Edit.position] at this
        omega
    · rw [hdel] at hd
      rw [hadded s l hd]
      exact hs.beyond s l hd hn

/-- What one more deletion, before all others, must leave. -/
structure Spares (named : ℕ → Bool) (n : ℕ) (edits : List (Edit α)) (s l : ℕ) : Prop where
  start : s < n → (named s = false ∨ ∃ text, .insert s text ∈ edits) → l = 0
  between : ∀ q, s < q → Obstacle named n edits q → load edits s q + l ≤ q - s
  beyond : n ≤ s → l = 0 ∨ n + added edits s ≤ s

theorem spared_concat_delete {edits : List (Edit α)} {s l : ℕ}
    (h : ∀ a ∈ edits, s ≤ a.position) :
    Spared named n (edits ++ [.delete s l]) ↔ Spared named n edits ∧ Spares named n edits s l := by
  have hadded : ∀ s', added (edits ++ [.delete s l]) s' = added edits s' := fun s' => by
    simp [Edit.added]
  have hload : ∀ s' q, load (edits ++ [.delete s l]) s' q =
      load edits s' q + if s' ≤ s ∧ s < q then l else 0 := fun s' q => by simp [Edit.deleted]
  have hpair : ∀ s' l' t, [Edit.insert s' t, .delete s' l'].Sublist (edits ++ [.delete s l]) ↔
      [Edit.insert s' t, .delete s' l'].Sublist edits ∨
        (.insert s' t ∈ edits ∧ s' = s ∧ l' = l) := fun s' l' t => by simp [pair_sublist_concat]
  constructor
  · intro hs
    refine ⟨⟨fun s' l' hd hn ho => ?_, fun s' l' hd q hq ho => ?_, fun s' l' hd hn => ?_⟩,
      fun hn ho => ?_, fun q hq ho => ?_, fun hn => ?_⟩
    · exact hs.start s' l' (List.mem_append_left _ hd) hn
        (ho.imp_right fun ⟨t, ht⟩ => ⟨t, (hpair s' l' t).mpr (.inl ht)⟩)
    · have := hs.between s' l' (List.mem_append_left _ hd) q hq (Obstacle.concat_delete.mpr ho)
      rw [hload] at this
      omega
    · have := hs.beyond s' l' (List.mem_append_left _ hd) hn
      rwa [hadded] at this
    · exact hs.start s l (by simp) hn
        (ho.imp_right fun ⟨t, ht⟩ => ⟨t, (hpair s l t).mpr (.inr ⟨ht, rfl, rfl⟩)⟩)
    · have := hs.between s l (by simp) q hq (Obstacle.concat_delete.mpr ho)
      rwa [hload, if_pos ⟨le_rfl, hq⟩] at this
    · have := hs.beyond s l (by simp) hn
      rwa [hadded] at this
  · rintro ⟨hs, hnew⟩
    have hcases : ∀ s' l', Edit.delete s' l' ∈ edits ++ [.delete s l] →
        .delete s' l' ∈ edits ∨ s' = s ∧ l' = l := fun s' l' hd => by simpa using hd
    refine ⟨fun s' l' hd hn ho => ?_, fun s' l' hd q hq ho => ?_, fun s' l' hd hn => ?_⟩
    · rcases ho with hnamed | ⟨t, ht⟩
      · rcases hcases s' l' hd with hd | ⟨rfl, rfl⟩
        · exact hs.start s' l' hd hn (.inl hnamed)
        · exact hnew.start hn (.inl hnamed)
      · rcases (hpair s' l' t).mp ht with hold | ⟨hin, rfl, rfl⟩
        · exact hs.start s' l' (hold.subset (by simp)) hn (.inr ⟨t, hold⟩)
        · exact hnew.start hn (.inr ⟨t, hin⟩)
    · rw [Obstacle.concat_delete] at ho
      rw [hload]
      rcases hcases s' l' hd with hd | ⟨rfl, rfl⟩
      · have hle := h _ hd
        simp only [Edit.position] at hle
        split
        · obtain rfl : s' = s := by omega
          exact hnew.between q hq ho
        · exact hs.between s' l' hd q hq ho
      · rw [if_pos ⟨le_rfl, hq⟩]
        exact hnew.between q hq ho
    · rw [hadded]
      rcases hcases s' l' hd with hd | ⟨rfl, rfl⟩
      · exact hs.beyond s' l' hd hn
      · exact hnew.beyond hn

theorem Tracks.delete_safe_iff {edits : List (Edit α)} {m : List Mark} {s l : ℕ}
    (h : Tracks named n edits m s) (hedits : ∀ a ∈ edits, s ≤ a.position)
    (hinserts : ∀ a ∈ edits, a.isInsert = true → s < a.position ∨ s < n) :
    (∀ x ∈ (m.drop s).take l, x = .free) ↔ Spares named n edits s l := by
  have hlen := fun hn : n ≤ s => h.length hn s fun a ha hin =>
    (hinserts a ha hin).resolve_right (not_lt.mpr hn)
  constructor
  · intro hat
    have hpast : ∀ j x, s ≤ j → m[j]? = some x → x ≠ .free → s + l ≤ j := by
      intro j x hj hx hfree
      by_contra hlt
      exact hfree (hat x (mem_window.mpr ⟨j, hj, by omega, hx⟩))
    refine ⟨fun hs ho => ?_, fun q hq ho => ?_, fun hn => ?_⟩
    · have hobstacle : Obstacle named n edits s :=
        ho.imp (fun hnamed => ⟨hs, hnamed⟩) fun ⟨t, ht⟩ => ⟨s, t, ht, (min_eq_left hs.le).symm⟩
      obtain ⟨j, x, hj, hx, hfree, hroom⟩ := h.hold s (by omega) hobstacle
      have := hpast j x (by omega) hx hfree
      omega
    · have hqn : q ≤ n := by
        rcases ho with ⟨hlt, -⟩ | ⟨_, _, -, rfl⟩ <;> omega
      obtain ⟨j, x, hj, hx, hfree, hroom⟩ := h.hold q (by omega) ho
      have := hpast j x (by omega) hx hfree
      rw [load_start hedits]
      omega
    · by_contra hneither
      have hlt : s < m.length := by rw [hlen hn]; omega
      have hx := List.getElem?_eq_getElem hlt
      have := hpast s _ le_rfl hx (h.stays hn s _ hn hx)
      omega
  · intro hs x hx
    obtain ⟨j, hj, hjl, hget⟩ := mem_window.mp hx
    by_contra hfree
    by_cases hn : n ≤ s
    · rcases hs.beyond hn with rfl | hend
      · omega
      · rw [List.getElem?_eq_none (by rw [hlen hn]; omega)] at hget
        cases hget
    · obtain ⟨q, hq, ho, hreach⟩ := h.reach j x (by omega) hget hfree
      rcases Nat.lt_or_ge s q with hlt | hge
      · have := hs.between q hlt ho
        rw [load_start hedits] at this
        omega
      · have hempty : l = 0 := by
          refine hs.start (by omega) (ho.imp (fun ⟨_, hnamed⟩ => ?_) fun ⟨p, t, hmem, heq⟩ => ?_)
          · rwa [show s = q by omega]
          · exact ⟨t, by rwa [show s = p by omega]⟩
        omega

theorem marksAfter_beyond {edits : List (Edit α)} (horder : BackToFront n edits)
    (hne : ∀ position text, .insert position text ∈ edits → 0 < text.length)
    (hsafe : Safe ((originalText n).map (mark named)) edits)
    (hbound : ∀ e ∈ edits, n ≤ e.position) :
    (marksAfter named n edits).length =
      (marksAfter (fun _ => false) n (edits.filter Edit.isInsert)).length ∧
    ∀ j, n ≤ j → (marksAfter named n edits)[j]? =
      (marksAfter (fun _ => false) n (edits.filter Edit.isInsert))[j]? := by
  induction edits using List.reverseRecOn with
  | nil =>
    refine ⟨by simp [marksAfter], fun j hj => ?_⟩
    rw [List.getElem?_eq_none (by simpa [marksAfter, originalText]),
      List.getElem?_eq_none (by simpa [marksAfter, originalText])]
  | append_singleton edits e ih =>
    obtain ⟨hbefore, hlast⟩ := backToFront_concat.mp horder
    obtain ⟨hsafe', hat⟩ := safe_concat.mp hsafe
    have htracks : Tracks named n edits (marksAfter named n edits) e.position :=
      tracks_of_safe hbefore (fun p t h => hne p t (List.mem_append_left _ h)) hsafe'
        fun a ha => (hlast a ha).1
    have hn : n ≤ e.position := hbound e (by simp)
    obtain ⟨hlen, hsame⟩ := ih hbefore (fun p t h => hne p t (List.mem_append_left _ h)) hsafe'
      fun a ha => hbound a (List.mem_append_left _ ha)
    rw [marksAfter_concat]
    cases e with
    | insert p t =>
      rw [List.filter_append, List.filter_cons_of_pos rfl, List.filter_nil, marksAfter_concat]
      simp only [Edit.marks, Edit.apply, Edit.position] at hn ⊢
      have hlong := htracks.le_length
      simp only [Edit.position] at hlong
      refine ⟨by simp [hlen], fun j hj => ?_⟩
      rw [insertAt_clip, insertAt_clip _ _ p, ← hlen, getElem?_insertAt (by omega),
        getElem?_insertAt (by omega), length_textMarks]
      split
      · exact hsame j hj
      · split
        · rfl
        · exact hsame _ (by omega)
    | delete s l =>
      have hnone : deleteAt (marksAfter named n edits) s l = _ := htracks.deleteAt_eq hat hn
      rw [List.filter_append, List.filter_cons_of_neg (by simp [Edit.isInsert]), List.filter_nil,
        List.append_nil, Edit.marks, Edit.apply, hnone]
      exact ⟨hlen, hsame⟩

/-- Taken alone, no insertion lands strictly inside the text of an earlier one. -/
def Apart (n : ℕ) (edits : List (Edit α)) : Prop :=
  Safe (List.replicate n .kept) (edits.filter Edit.isInsert)

instance (n : ℕ) (edits : List (Edit α)) : Decidable (Apart n edits) :=
  inferInstanceAs (Decidable (Safe _ _))

theorem map_mark_unnamed (n : ℕ) :
    (originalText n).map (mark fun _ => false) = List.replicate n .kept := by
  simp [originalText, List.eq_replicate_iff, mark]

/-- From the back to the front, edits are safe exactly when their insertions alone are, and
the deletions leave room for what stays. -/
theorem safe_iff_spared {edits : List (Edit α)} (horder : BackToFront n edits)
    (hne : ∀ position text, .insert position text ∈ edits → 0 < text.length) :
    Safe ((originalText n).map (mark named)) edits ↔ Apart n edits ∧ Spared named n edits := by
  rw [Apart, ← map_mark_unnamed]
  induction edits using List.reverseRecOn with
  | nil => exact ⟨fun _ => ⟨trivial, ⟨by simp, by simp, by simp⟩⟩, fun _ => trivial⟩
  | append_singleton edits e ih =>
    obtain ⟨hbefore, hlast⟩ := backToFront_concat.mp horder
    have hne' : ∀ p t, .insert p t ∈ edits → 0 < t.length :=
      fun p t h => hne p t (List.mem_append_left _ h)
    have hposition := fun a ha => (hlast a ha).1
    have htracks (hsafe : Safe ((originalText n).map (mark named)) edits) :=
      tracks_of_safe hbefore hne' hsafe hposition
    rw [safe_concat, List.filter_append]
    cases e with
    | insert p t =>
      have hinside (hsafe : Safe ((originalText n).map (mark named)) edits)
          (hinserts : Safe ((originalText n).map (mark fun _ => false))
            (edits.filter Edit.isInsert)) :
          (marksAfter named n edits)[p]? ≠ some .inside ↔
            (marksAfter (fun _ => false) n (edits.filter Edit.isInsert))[p]? ≠ some .inside := by
        have htracks' := tracks_of_safe (List.Pairwise.filter _ hbefore)
          (fun p t h => hne' p t (List.mem_of_mem_filter h)) hinserts
          fun a ha => hposition a (List.mem_of_mem_filter ha)
        by_cases hp : p < n
        · exact iff_of_true ((htracks hsafe).entry p le_rfl hp) (htracks'.entry p le_rfl hp)
        · rw [(marksAfter_beyond hbefore hne' hsafe
            fun a ha => (not_lt.mp hp).trans (hposition a ha)).2 p (not_lt.mp hp)]
      have hroom : Spared named n (edits ++ [.insert p t]) ↔ Spared named n edits :=
        spared_concat_insert hposition
      rw [List.filter_cons_of_pos rfl, List.filter_nil, safe_concat, hroom, ih hbefore hne']
      constructor
      · rintro ⟨⟨hinserts, hspared⟩, hat⟩
        exact ⟨⟨hinserts, (hinside ((ih hbefore hne').mpr ⟨hinserts, hspared⟩) hinserts).mp hat⟩,
          hspared⟩
      · rintro ⟨⟨hinserts, hat⟩, hspared⟩
        exact ⟨⟨hinserts, hspared⟩,
          (hinside ((ih hbefore hne').mpr ⟨hinserts, hspared⟩) hinserts).mpr hat⟩
    | delete s l =>
      have hinserts : ∀ a ∈ edits, a.isInsert = true → s < a.position ∨ s < n :=
        fun a ha hin => (hlast a ha).2 hin rfl
      have hroom : Spared named n (edits ++ [.delete s l]) ↔
          Spared named n edits ∧ Spares named n edits s l := spared_concat_delete hposition
      rw [List.filter_cons_of_neg (by simp [Edit.isInsert]), List.filter_nil, List.append_nil,
        hroom, ← and_assoc, ← ih hbefore hne']
      exact and_congr_right fun hsafe => (htracks hsafe).delete_safe_iff hposition hinserts

theorem spared_of_inserts {edits : List (Edit α)} (h : ∀ e ∈ edits, e.isInsert = true) :
    Spared named n edits := by
  constructor <;> intro s m hmem <;> cases h _ hmem

/-- Insertions alone, in any order, are safe exactly when they are apart. -/
theorem safe_iff_apart {edits : List (Edit α)} (h : ∀ e ∈ edits, e.isInsert = true) :
    Safe ((originalText n).map (mark fun _ => false)) edits ↔ Apart n edits := by
  rw [Apart, ← map_mark_unnamed, List.filter_eq_self.mpr h]

end Tracks

end Splice
