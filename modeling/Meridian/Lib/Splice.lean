import Mathlib

/-! Edits of a list by position, and where the elements of the result come from. An edit
that reaches past the end of the list is clipped. A sequence of edits keeps what it should
keep exactly when, step by step, no insertion lands strictly inside an inserted text and no
deletion covers anything that is not meant to go. -/
namespace Splice

variable {α β : Type*}

def insertAt (l : List α) (position : ℕ) (text : List α) : List α :=
  l.take position ++ text ++ l.drop position

def deleteAt (l : List α) (start length : ℕ) : List α :=
  l.take start ++ l.drop (start + length)

theorem insertAt_clip (l t : List α) (p : ℕ) : insertAt l p t = insertAt l (min p l.length) t := by
  rcases le_total p l.length with h | h
  · rw [min_eq_left h]
  · rw [min_eq_right h, insertAt, insertAt, List.take_of_length_le h, List.drop_eq_nil_of_le h,
      List.take_length, List.drop_length]

theorem getElem?_insertAt {l t : List α} {p : ℕ} (h : p ≤ l.length) (j : ℕ) :
    (insertAt l p t)[j]? =
      if j < p then l[j]? else if j < p + t.length then t[j - p]? else l[j - t.length]? := by
  have hlen : (l.take p).length = p := by simpa using h
  rw [insertAt, List.append_assoc]
  split
  · next hj => rw [List.getElem?_append_left (by omega), List.getElem?_take_of_lt hj]
  · rw [List.getElem?_append_right (by omega), hlen]
    split
    · rw [List.getElem?_append_left (by omega)]
    · rw [List.getElem?_append_right (by omega), List.getElem?_drop]
      congr 1
      omega

theorem getElem?_deleteAt (l : List α) (s m j : ℕ) :
    (deleteAt l s m)[j]? = if j < s then l[j]? else l[j + m]? := by
  unfold deleteAt
  by_cases hs : s ≤ l.length
  · have hlen : (l.take s).length = s := by simpa using hs
    split
    · next hj => rw [List.getElem?_append_left (by omega), List.getElem?_take_of_lt hj]
    · rw [List.getElem?_append_right (by omega), hlen, List.getElem?_drop]
      congr 1
      omega
  · rw [List.take_of_length_le (by omega), List.drop_eq_nil_of_le (by omega), List.append_nil]
    split
    · rfl
    · rw [List.getElem?_eq_none (by omega), List.getElem?_eq_none (by omega)]

inductive Edit (α : Type*)
  | insert (position : ℕ) (text : List α)
  | delete (start length : ℕ)
  deriving DecidableEq

namespace Edit

def position : Edit α → ℕ
  | .insert position _ => position
  | .delete start _ => start

def isInsert : Edit α → Bool
  | .insert _ _ => true
  | .delete _ _ => false

def apply : Edit α → List α → List α
  | .insert position text, l => insertAt l position text
  | .delete start length, l => deleteAt l start length

def map (f : α → β) : Edit α → Edit β
  | .insert position text => .insert position (text.map f)
  | .delete start length => .delete start length

theorem apply_map (f : α → β) (e : Edit α) (l : List α) :
    (e.map f).apply (l.map f) = (e.apply l).map f := by
  cases e <;> simp [map, apply, insertAt, deleteAt]

end Edit

def run (edits : List (Edit α)) (l : List α) : List α :=
  edits.foldl (fun l e => e.apply l) l

@[simp] theorem run_nil (l : List α) : run [] l = l := rfl

@[simp] theorem run_cons (e : Edit α) (edits : List (Edit α)) (l : List α) :
    run (e :: edits) l = run edits (e.apply l) := rfl

theorem run_map (f : α → β) (edits : List (Edit α)) (l : List α) :
    run (edits.map (Edit.map f)) (l.map f) = (run edits l).map f := by
  induction edits generalizing l with
  | nil => rfl
  | cons e edits ih => rw [List.map_cons, run_cons, Edit.apply_map, ih, run_cons]

/-- Where an element comes from: a place of the first list, or one of an inserted text. -/
inductive Origin
  | original (index : ℕ)
  | inserted (edit offset : ℕ)
  deriving DecidableEq

def originalText (n : ℕ) : List Origin := (List.range n).map .original

def insertedText (edit length : ℕ) : List Origin := (List.range length).map (.inserted edit)

/-- The edits on origins, numbered from an index on. -/
def tag : ℕ → List (Edit α) → List (Edit Origin)
  | _, [] => []
  | k, .insert position text :: edits =>
    .insert position (insertedText k text.length) :: tag (k + 1) edits
  | k, .delete start length :: edits => .delete start length :: tag (k + 1) edits

def origins (n : ℕ) (edits : List (Edit α)) : List Origin := run (tag 0 edits) (originalText n)

def look (l : List α) (edits : List (Edit α)) : Origin → Option α
  | .original index => l[index]?
  | .inserted edit offset =>
    match edits[edit]? with
    | some (.insert _ text) => text[offset]?
    | _ => none

theorem map_getElem?_range (l : List α) :
    (List.range l.length).map (fun i => l[i]?) = l.map some := by
  apply List.ext_getElem <;> simp

theorem tag_look (l : List α) {edits : List (Edit α)} (before after : List (Edit α))
    (h : edits = before ++ after) :
    (tag before.length after).map (Edit.map (look l edits)) = after.map (Edit.map some) := by
  induction after generalizing before with
  | nil => rfl
  | cons e after ih =>
    have hrest := ih (before ++ [e]) (by simp [h])
    rw [List.length_append, List.length_singleton] at hrest
    cases e with
    | insert position text =>
      have htext : (insertedText before.length text.length).map (look l edits) = text.map some := by
        rw [insertedText, List.map_map, ← map_getElem?_range]
        apply List.map_congr_left
        intro i _
        simp [look, h]
      rw [tag, List.map_cons, hrest, Edit.map, htext]
      rfl
    | delete start length =>
      rw [tag, List.map_cons, hrest]
      rfl

theorem origins_look (l : List α) (edits : List (Edit α)) :
    (origins l.length edits).map (look l edits) = (run edits l).map some := by
  have htext : (originalText l.length).map (look l edits) = l.map some := by
    rw [originalText, List.map_map, ← map_getElem?_range]
    rfl
  rw [origins, ← run_map, htext, ← run_map]
  congr 1
  exact tag_look l [] edits rfl

section Safety

/-- What may become of an element: it may go, it must stay, or it must stay next to the one
before it, with which it was inserted. -/
inductive Mark
  | free | kept | inside
  deriving DecidableEq

variable (named : ℕ → Bool)

def mark : Origin → Mark
  | .original index => if named index then .free else .kept
  | .inserted _ 0 => .kept
  | .inserted _ (_ + 1) => .inside

def textMarks : ℕ → List Mark
  | 0 => []
  | n + 1 => .kept :: List.replicate n .inside

theorem map_mark_insertedText (k n : ℕ) : (insertedText k n).map (mark named) = textMarks n := by
  cases n with
  | zero => rfl
  | succ n =>
    rw [insertedText, List.range_succ_eq_map, List.map_cons, List.map_cons, List.map_map,
      List.map_map, textMarks, List.cons.injEq]
    refine ⟨rfl, ?_⟩
    simp [List.eq_replicate_iff, mark]

/-- No insertion lands strictly inside an inserted text, no deletion covers what must stay. -/
def Safe : List Mark → List (Edit α) → Prop
  | _, [] => True
  | m, .insert position text :: edits =>
    m[position]? ≠ some .inside ∧ Safe (insertAt m position (textMarks text.length)) edits
  | m, .delete start length :: edits =>
    (∀ x ∈ (m.drop start).take length, x = .free) ∧ Safe (deleteAt m start length) edits

instance decidableSafe : (m : List Mark) → (edits : List (Edit α)) → Decidable (Safe m edits)
  | _, [] => isTrue trivial
  | m, .insert position text :: edits =>
    haveI := decidableSafe (insertAt m position (textMarks text.length)) edits
    inferInstanceAs (Decidable (_ ∧ _))
  | m, .delete start length :: edits =>
    haveI := decidableSafe (deleteAt m start length) edits
    inferInstanceAs (Decidable (_ ∧ _))

/-- Everything that was not meant to go is still there: the unnamed places in order, and
every inserted text whole. -/
structure Keeps (n : ℕ) (edits : List (Edit α)) : Prop where
  originals : ((originalText n).filter fun o => mark named o = .kept).Sublist (origins n edits)
  texts : ∀ k position text, edits[k]? = some (.insert position text) →
    insertedText k text.length <:+: origins n edits

variable {named}

theorem map_insertAt (f : α → β) (l : List α) (p : ℕ) (t : List α) :
    (insertAt l p t).map f = insertAt (l.map f) p (t.map f) := by
  simp [insertAt]

theorem map_deleteAt (f : α → β) (l : List α) (s n : ℕ) :
    (deleteAt l s n).map f = deleteAt (l.map f) s n := by
  simp [deleteAt]

@[simp] theorem length_insertAt (l t : List α) (p : ℕ) :
    (insertAt l p t).length = l.length + t.length := by
  simp [insertAt]
  omega

@[simp] theorem length_deleteAt (l : List α) (s n : ℕ) :
    (deleteAt l s n).length = l.length - min n (l.length - s) := by
  simp [deleteAt]
  omega

theorem sublist_insertAt (l : List α) (p : ℕ) (t : List α) : l.Sublist (insertAt l p t) := by
  have h : (l.take p ++ l.drop p).Sublist (l.take p ++ t ++ l.drop p) :=
    (List.sublist_append_left _ _).append (List.Sublist.refl _)
  rwa [List.take_append_drop] at h

theorem split_window (l : List α) (s n : ℕ) :
    l = l.take s ++ ((l.drop s).take n ++ l.drop (s + n)) := by
  rw [← List.drop_drop, List.take_append_drop, List.take_append_drop]

/-- An insertion where a deletion was puts its text in the place of what went. -/
theorem insertAt_deleteAt {l : List α} {p : ℕ} (h : p ≤ l.length) (n : ℕ) (t : List α) :
    insertAt (deleteAt l p n) p t = l.take p ++ t ++ l.drop (p + n) := by
  have hlen : (l.take p).length = p := by simpa using h
  rw [insertAt, deleteAt, List.take_left' hlen, List.drop_left' hlen]

/-- Between two other lists the text is put in the place of what went all the same. -/
theorem replace_between (front l behind t : List α) {p n : ℕ} (h : p + n ≤ l.length) :
    (front ++ l ++ behind).take (front.length + p) ++ t ++
        (front ++ l ++ behind).drop (front.length + p + n) =
      front ++ insertAt (deleteAt l p n) p t ++ behind := by
  rw [insertAt_deleteAt (by omega), List.append_assoc front l, List.take_length_add_append,
    Nat.add_assoc, List.drop_length_add_append, List.take_append_of_le_length (by omega),
    List.drop_append_of_le_length h]
  simp only [List.append_assoc]

theorem deleteAt_sublist (l : List α) (s n : ℕ) : (deleteAt l s n).Sublist l := by
  conv_rhs => rw [split_window l s n]
  exact (List.Sublist.refl _).append (List.sublist_append_right _ _)

theorem sublist_of_safe {edits : List (Edit α)} {k : ℕ} {t kept : List Origin}
    (h : Safe (t.map (mark named)) edits) (hk : ∀ o ∈ kept, mark named o ≠ .free)
    (hsub : kept.Sublist t) : kept.Sublist (run (tag k edits) t) := by
  induction edits generalizing k t with
  | nil => exact hsub
  | cons e edits ih =>
    cases e with
    | insert position text =>
      obtain ⟨-, hrest⟩ := h
      rw [← map_mark_insertedText named k, ← map_insertAt] at hrest
      exact ih hrest (hsub.trans (sublist_insertAt _ _ _))
    | delete start length =>
      obtain ⟨hfree, hrest⟩ := h
      rw [← map_deleteAt] at hrest
      refine ih hrest ?_
      have hself : kept.filter (fun o => mark named o ≠ .free) = kept :=
        List.filter_eq_self.mpr fun o ho => by simpa using hk o ho
      have hwindow : ((t.drop start).take length).filter (fun o => mark named o ≠ .free) = [] := by
        refine List.filter_eq_nil_iff.mpr fun o ho => ?_
        have hm : mark named o ∈ ((t.map (mark named)).drop start).take length := by
          rw [← List.map_drop, ← List.map_take]
          exact List.mem_map_of_mem ho
        simp [hfree _ hm]
      have hfilter := hsub.filter fun o => mark named o ≠ .free
      rw [hself, split_window t start length, List.filter_append, List.filter_append, hwindow,
        List.nil_append] at hfilter
      exact hfilter.trans (List.filter_sublist.append List.filter_sublist)

theorem infix_insertAt {x b y t : List α} {p : ℕ} (h : p ≤ x.length ∨ x.length + b.length ≤ p) :
    b <:+: insertAt (x ++ b ++ y) p t := by
  rcases h with h | h
  · refine ⟨insertAt x p t, y, ?_⟩
    simp [insertAt, List.take_append_of_le_length, List.drop_append_of_le_length, h,
      List.append_assoc]
  · obtain ⟨q, rfl⟩ := Nat.exists_eq_add_of_le h
    refine ⟨x, insertAt y q t, ?_⟩
    have htake : (x ++ b ++ y).take (x.length + b.length + q) = x ++ b ++ y.take q := by
      rw [← List.length_append, List.take_length_add_append]
    have hdrop : (x ++ b ++ y).drop (x.length + b.length + q) = y.drop q := by
      rw [← List.length_append, List.drop_length_add_append]
    unfold insertAt
    rw [htake, hdrop]
    simp [List.append_assoc]

theorem infix_deleteAt {x b y : List α} {s n : ℕ}
    (h : s + n ≤ x.length ∨ x.length + b.length ≤ s) : b <:+: deleteAt (x ++ b ++ y) s n := by
  rcases h with h | h
  · refine ⟨deleteAt x s n, y, ?_⟩
    simp [deleteAt, List.take_append_of_le_length (show s ≤ x.length by omega),
      List.drop_append_of_le_length h, List.append_assoc]
  · obtain ⟨q, rfl⟩ := Nat.exists_eq_add_of_le h
    refine ⟨x, deleteAt y q n, ?_⟩
    have htake : (x ++ b ++ y).take (x.length + b.length + q) = x ++ b ++ y.take q := by
      rw [← List.length_append, List.take_length_add_append]
    have hdrop : (x ++ b ++ y).drop (x.length + b.length + q + n) = y.drop (q + n) := by
      rw [Nat.add_assoc, ← List.length_append, List.drop_length_add_append]
    unfold deleteAt
    rw [htake, hdrop]
    simp [List.append_assoc]

theorem getElem?_mark_block (named : ℕ → Bool) (x y : List Origin) (k : ℕ) {m i : ℕ} (hi : i < m) :
    ((x ++ insertedText k m ++ y).map (mark named))[x.length + i]? =
      some (if i = 0 then .kept else .inside) := by
  have hlen : i < (insertedText k m).length := by simpa [insertedText] using hi
  rw [List.map_append, List.map_append, List.append_assoc, List.getElem?_append_right (by simp)]
  simp only [List.length_map, Nat.add_sub_cancel_left]
  rw [List.getElem?_append_left (by simpa using hlen)]
  cases i <;> simp [insertedText, hi, mark]

theorem infix_of_safe {edits : List (Edit α)} {j k m : ℕ} {t : List Origin}
    (h : Safe (t.map (mark named)) edits) (hwhole : insertedText k m <:+: t) :
    insertedText k m <:+: run (tag j edits) t := by
  induction edits generalizing j t with
  | nil => exact hwhole
  | cons e edits ih =>
    obtain ⟨x, y, rfl⟩ := hwhole
    have hlen : (insertedText k m).length = m := by simp [insertedText]
    cases e with
    | insert position text =>
      obtain ⟨hat, hrest⟩ := h
      rw [← map_mark_insertedText named j, ← map_insertAt] at hrest
      refine ih hrest (infix_insertAt ?_)
      by_contra hin
      obtain ⟨i, rfl⟩ := Nat.exists_eq_add_of_le (show x.length ≤ position by omega)
      rw [getElem?_mark_block named x y k (by omega), if_neg (by omega)] at hat
      exact hat rfl
    | delete start length =>
      obtain ⟨hfree, hrest⟩ := h
      rw [← map_deleteAt] at hrest
      refine ih hrest ?_
      by_cases hout : start + length ≤ x.length ∨ x.length + m ≤ start
      · exact infix_deleteAt (by rwa [hlen])
      · -- the window holds the character of the text at the larger of the two starts
        by_cases hm : m = 0
        · subst hm
          exact ⟨[], _, rfl⟩
        · by_cases hl : length = 0
          · subst hl
            exact ⟨x, y, (List.take_append_drop start _).symm⟩
          · obtain ⟨i, hi⟩ := Nat.exists_eq_add_of_le (Nat.le_max_right start x.length)
            have hget := getElem?_mark_block named x y k (show i < m by omega)
            have hmem := List.mem_of_getElem? (l := (((x ++ insertedText k m ++ y).map
              (mark named)).drop start).take length) (i := x.length + i - start) (by
                rw [List.getElem?_take_of_lt (by omega), List.getElem?_drop,
                  show start + (x.length + i - start) = x.length + i by omega, hget])
            have := hfree _ hmem
            split at this <;> cases this

theorem texts_of_safe {edits : List (Edit α)} {i k position : ℕ} {text : List α} {t : List Origin}
    (h : Safe (t.map (mark named)) edits) (hi : edits[i]? = some (.insert position text)) :
    insertedText (k + i) text.length <:+: run (tag k edits) t := by
  induction edits generalizing i k t with
  | nil => simp at hi
  | cons e edits ih =>
    have hrest : Safe (((tag k [e]).foldl (fun l e => e.apply l) t).map (mark named)) edits := by
      cases e with
      | insert p s =>
        have := h.2
        rwa [← map_mark_insertedText named k, ← map_insertAt] at this
      | delete s n =>
        have := h.2
        rwa [← map_deleteAt] at this
    cases i with
    | zero =>
      obtain rfl : e = .insert position text := by simpa using hi
      have hin : insertedText k text.length <:+: insertAt t position (insertedText k text.length) :=
        ⟨_, _, rfl⟩
      have := infix_of_safe (j := k + 1) (t := insertAt t position (insertedText k text.length))
        hrest hin
      exact this
    | succ i =>
      have := ih (k := k + 1) hrest (by simpa using hi)
      rw [show k + (i + 1) = k + 1 + i by omega]
      cases e <;> exact this

/-- A list in which no later edit can produce an element that is already there. -/
structure Fresh (k : ℕ) (t : List Origin) : Prop where
  nodup : t.Nodup
  lt : ∀ j i, .inserted j i ∈ t → j < k

theorem fresh_originalText (n : ℕ) : Fresh 0 (originalText n) where
  nodup := List.nodup_range.map fun _ _ h => Origin.original.inj h
  lt j i hmem := by
    obtain ⟨index, -, h⟩ := List.mem_map.mp hmem
    cases h

theorem nodup_insertedText (k m : ℕ) : (insertedText k m).Nodup :=
  List.nodup_range.map fun _ _ h => (Origin.inserted.inj h).2

theorem mem_insertAt {l t : List α} {p : ℕ} {a : α} : a ∈ insertAt l p t ↔ a ∈ l ∨ a ∈ t := by
  have hl : a ∈ l ↔ a ∈ l.take p ∨ a ∈ l.drop p := by
    rw [← List.mem_append, List.take_append_drop]
  simp only [insertAt, List.mem_append, hl]
  tauto

theorem mem_insertedText {k m : ℕ} {o : Origin} :
    o ∈ insertedText k m ↔ ∃ i, i < m ∧ o = .inserted k i := by
  simp [insertedText, eq_comm]

theorem Fresh.insertAt {k p m : ℕ} {t : List Origin} (h : Fresh k t) :
    Fresh (k + 1) (insertAt t p (insertedText k m)) where
  nodup := by
    have hdisjoint : ∀ o ∈ t, o ∉ insertedText k m := by
      intro o ho hin
      obtain ⟨i, -, rfl⟩ := mem_insertedText.mp hin
      exact absurd (h.lt k i ho) (lt_irrefl k)
    have hperm : (Splice.insertAt t p (insertedText k m)).Perm (t ++ insertedText k m) := by
      have := List.perm_append_comm_assoc (insertedText k m) (t.take p) (t.drop p)
      rw [List.take_append_drop, ← List.append_assoc] at this
      exact this.symm.trans List.perm_append_comm
    refine hperm.nodup_iff.mpr (h.nodup.append (nodup_insertedText k m) ?_)
    exact fun o ho hin => hdisjoint o ho hin
  lt j i hmem := by
    rcases mem_insertAt.mp hmem with hmem | hmem
    · exact Nat.lt_succ_of_lt (h.lt j i hmem)
    · obtain ⟨i', -, heq⟩ := mem_insertedText.mp hmem
      cases heq
      exact Nat.lt_succ_self k

theorem Fresh.deleteAt {k s n : ℕ} {t : List Origin} (h : Fresh k t) :
    Fresh (k + 1) (deleteAt t s n) where
  nodup := h.nodup.sublist (deleteAt_sublist t s n)
  lt j i hmem := Nat.lt_succ_of_lt (h.lt j i ((deleteAt_sublist t s n).subset hmem))

theorem mem_run {edits : List (Edit α)} {k : ℕ} {t : List Origin} {o : Origin}
    (h : o ∈ run (tag k edits) t) :
    o ∈ t ∨ ∃ j i, k ≤ j ∧ j < k + edits.length ∧ o = .inserted j i := by
  induction edits generalizing k t with
  | nil => exact .inl h
  | cons e edits ih =>
    rw [List.length_cons]
    cases e with
    | insert position text =>
      rcases ih h with hmem | ⟨j, i, hj, hlt, rfl⟩
      · rcases mem_insertAt.mp hmem with hmem | hmem
        · exact .inl hmem
        · obtain ⟨i, -, rfl⟩ := mem_insertedText.mp hmem
          exact .inr ⟨k, i, le_rfl, by omega, rfl⟩
      · exact .inr ⟨j, i, by omega, by omega, rfl⟩
    | delete start length =>
      rcases ih h with hmem | ⟨j, i, hj, hlt, rfl⟩
      · exact .inl ((deleteAt_sublist t _ _).subset hmem)
      · exact .inr ⟨j, i, by omega, by omega, rfl⟩

theorem Fresh.mem_of_run {edits : List (Edit α)} {k : ℕ} {t t' : List Origin} (h : Fresh k t)
    {o : Origin} (ho : o ∈ t) (hrun : o ∈ run (tag (k + 1) edits) t') : o ∈ t' := by
  rcases mem_run hrun with hmem | ⟨j, i, hj, -, rfl⟩
  · exact hmem
  · have := h.lt j i ho
    omega

theorem filter_run_sublist {edits : List (Edit α)} {k : ℕ} {t : List Origin} (h : Fresh k t) :
    ((run (tag k edits) t).filter (· ∈ t)).Sublist t := by
  induction edits generalizing k t with
  | nil => exact List.filter_sublist
  | cons e edits ih =>
    cases e with
    | insert position text =>
      have hih := (ih (h.insertAt (p := position) (m := text.length))).filter (· ∈ t)
      have hsame : ((run (tag (k + 1) edits)
          (insertAt t position (insertedText k text.length))).filter
          (· ∈ insertAt t position (insertedText k text.length))).filter (· ∈ t) =
          (run (tag (k + 1) edits) (insertAt t position (insertedText k text.length))).filter
            (· ∈ t) := by
        rw [List.filter_filter]
        apply List.filter_congr
        intro o _
        by_cases ho : o ∈ t <;> simp [ho, mem_insertAt]
      have hnew : (insertedText k text.length).filter (· ∈ t) = [] := by
        refine List.filter_eq_nil_iff.mpr fun o ho => ?_
        obtain ⟨i, -, rfl⟩ := mem_insertedText.mp ho
        simpa using fun hmem => absurd (h.lt k i hmem) (lt_irrefl k)
      have hold : (insertAt t position (insertedText k text.length)).filter (· ∈ t) = t := by
        rw [insertAt, List.filter_append, List.filter_append, hnew, List.append_nil,
          ← List.filter_append, List.take_append_drop]
        exact List.filter_eq_self.mpr fun o ho => by simpa using ho
      rw [hsame, hold] at hih
      exact hih
    | delete start length =>
      have hih := ih (h.deleteAt (s := start) (n := length))
      have hsame : (run (tag (k + 1) edits) (deleteAt t start length)).filter (· ∈ t) =
          (run (tag (k + 1) edits) (deleteAt t start length)).filter
            (· ∈ deleteAt t start length) := by
        apply List.filter_congr
        intro o ho
        rw [decide_eq_decide]
        exact ⟨fun hmem => h.mem_of_run hmem ho, fun hmem => (deleteAt_sublist t _ _).subset hmem⟩
      exact (hsame ▸ hih).trans (deleteAt_sublist t _ _)

theorem not_swapped {x y : List α} (h : (x ++ y).Nodup) {a b : α} (ha : a ∈ x) (hb : b ∈ y) :
    ¬ [b, a].Sublist (x ++ y) := by
  intro hsub
  have hdisjoint := List.disjoint_of_nodup_append h
  obtain ⟨l, r, hlr, hl, hr⟩ := List.sublist_append_iff.mp hsub
  rcases l with _ | ⟨c, l⟩
  · have : a ∈ r := by
      rw [List.nil_append] at hlr
      simp [← hlr]
    exact hdisjoint ha (hr.subset this)
  · obtain rfl : b = c := by
      rw [List.cons_append] at hlr
      exact (List.cons.inj hlr).1
    exact hdisjoint (hl.subset List.mem_cons_self) hb

theorem Fresh.pair_sublist {edits : List (Edit α)} {k : ℕ} {t : List Origin} (h : Fresh k t)
    {a b : Origin} (ha : a ∈ t) (hb : b ∈ t) (hab : [a, b].Sublist (run (tag k edits) t)) :
    [a, b].Sublist t := by
  have hfilter := hab.filter (· ∈ t)
  rw [List.filter_eq_self.mpr (by simp [ha, hb])] at hfilter
  exact hfilter.trans (filter_run_sublist h)

theorem pair_infix_insertedText {k m j : ℕ} (h : j + 1 < m) :
    [Origin.inserted k j, .inserted k (j + 1)] <:+: insertedText k m := by
  obtain ⟨r, rfl⟩ := Nat.exists_eq_add_of_lt h
  refine ⟨insertedText k j, (List.range r).map fun i => .inserted k (j + 2 + i), ?_⟩
  rw [insertedText, insertedText, show j + 1 + r + 1 = j + (1 + (1 + r)) by omega, List.range_add,
    List.range_add, List.range_add]
  simp [Function.comp_def, Nat.add_assoc]
  intro i _
  omega

/-- A list whose neighbours of one text are there together, as they are at the end. -/
def Blocks (t final : List Origin) : Prop :=
  ∀ k j, .inserted k (j + 1) ∈ t →
    .inserted k j ∈ t ∧ [.inserted k j, .inserted k (j + 1)] <:+: final

/-- An insertion whose text is still whole at the end, as are those before it, did not land
strictly inside one of them. -/
theorem not_inside_of_final {edits : List (Edit α)} {k p m : ℕ} {t : List Origin}
    (hfresh : Fresh k t)
    (hblocks : Blocks t (run (tag (k + 1) edits) (insertAt t p (insertedText k m)))) (hm : 0 < m)
    (hnew : insertedText k m <:+: run (tag (k + 1) edits) (insertAt t p (insertedText k m))) :
    (t.map (mark named))[p]? ≠ some .inside := by
  intro hin
  rw [List.getElem?_map] at hin
  obtain ⟨b, hb, hmark⟩ := Option.map_eq_some_iff.mp hin
  obtain ⟨k', j, rfl⟩ : ∃ k' j, b = .inserted k' (j + 1) := by
    rcases b with i | ⟨k', _ | j⟩
    · rw [mark] at hmark
      split at hmark <;> cases hmark
    · cases hmark
    · exact ⟨k', j, rfl⟩
  obtain ⟨hlt, hget⟩ := List.getElem?_eq_some_iff.mp hb
  have hdrop : t.drop p = .inserted k' (j + 1) :: t.drop (p + 1) := by
    rw [← hget, List.getElem_cons_drop]
  obtain ⟨ha, x, y, hxy⟩ := hblocks k' j (List.mem_of_getElem? hb)
  have hfresh' := hfresh.insertAt (p := p) (m := m)
  have hnodup := hfresh'.nodup
  have hmem {o : Origin} (ho : o ∈ t) : o ∈ insertAt t p (insertedText k m) :=
    mem_insertAt.mpr (.inl ho)
  have hfirst : Origin.inserted k 0 ∈ insertedText k m := mem_insertedText.mpr ⟨0, hm, rfl⟩
  have hafter : Origin.inserted k' (j + 1) ∈ t.drop p := by simp [hdrop]
  -- the character before stands before the new text, or it would follow the one after
  have hbefore : Origin.inserted k' j ∈ t.take p := by
    by_contra hnot
    have hrest : Origin.inserted k' j ∈ t.drop (p + 1) := by
      have : Origin.inserted k' j ∈ t.take p ++ t.drop p := by rwa [List.take_append_drop]
      rw [hdrop] at this
      simpa [hnot] using this
    have hsub := hfresh'.pair_sublist (hmem ha) (hmem (List.mem_of_getElem? hb))
      (hxy ▸ (List.infix_append x _ y).sublist)
    have hnodup := hfresh'.nodup
    have heq : insertAt t p (insertedText k m) =
        t.take p ++ insertedText k m ++ [.inserted k' (j + 1)] ++ t.drop (p + 1) := by
      rw [insertAt, hdrop, List.append_cons]
    rw [heq] at hsub hnodup
    exact not_swapped hnodup (by simp) hrest hsub
  have hsplit : Origin.inserted k 0 ∈ x ++ [.inserted k' j, .inserted k' (j + 1)] ++ y :=
    hxy ▸ hnew.subset hfirst
  have hk' := hfresh.lt k' j ha
  rcases List.mem_append.mp hsplit with hleft | hright
  · have hx : Origin.inserted k 0 ∈ x := by simpa [hk'.ne'] using hleft
    have hsub : [Origin.inserted k 0, .inserted k' j].Sublist
        (x ++ [.inserted k' j, .inserted k' (j + 1)] ++ y) := by
      rw [List.append_assoc]
      exact (List.singleton_sublist.mpr hx).append (by simp)
    rw [hxy] at hsub
    have := hfresh'.pair_sublist (mem_insertAt.mpr (.inr hfirst)) (hmem ha) hsub
    rw [insertAt, List.append_assoc] at this hnodup
    exact not_swapped hnodup hbefore (List.mem_append_left _ hfirst) this
  · have hsub : [Origin.inserted k' (j + 1), .inserted k 0].Sublist
        (x ++ [.inserted k' j, .inserted k' (j + 1)] ++ y) :=
      (show [Origin.inserted k' (j + 1)].Sublist _ by simp).append
        (List.singleton_sublist.mpr hright)
    rw [hxy] at hsub
    have := hfresh'.pair_sublist (hmem (List.mem_of_getElem? hb)) (mem_insertAt.mpr (.inr hfirst))
      hsub
    exact not_swapped hnodup (List.mem_append_right _ hfirst) hafter this

/-- If nothing that must stay is gone at the end, every step was safe. -/
theorem safe_of_final {edits : List (Edit α)} {k : ℕ} {t : List Origin} (hfresh : Fresh k t)
    (hkeep : ∀ o ∈ t, mark named o ≠ .free → o ∈ run (tag k edits) t)
    (hblocks : Blocks t (run (tag k edits) t))
    (hnew : ∀ i position text, edits[i]? = some (.insert position text) →
      text ≠ [] ∧ insertedText (k + i) text.length <:+: run (tag k edits) t) :
    Safe (t.map (mark named)) edits := by
  induction edits generalizing k t with
  | nil => trivial
  | cons e edits ih =>
    have hlater : ∀ i position text, edits[i]? = some (.insert position text) →
        text ≠ [] ∧ insertedText (k + 1 + i) text.length <:+: run (tag k (e :: edits)) t := by
      intro i position text hi
      have := hnew (i + 1) position text (by simpa using hi)
      rwa [show k + (i + 1) = k + 1 + i by omega] at this
    cases e with
    | insert position text =>
      obtain ⟨hne, hwhole⟩ := hnew 0 position text rfl
      refine ⟨not_inside_of_final hfresh hblocks (List.length_pos_iff.mpr hne) hwhole, ?_⟩
      rw [← map_mark_insertedText named k, ← map_insertAt]
      refine ih hfresh.insertAt (fun o ho hfree => ?_) (fun k' j hj => ?_) hlater
      · rcases mem_insertAt.mp ho with ho | ho
        · exact hkeep o ho hfree
        · exact hwhole.subset ho
      · rcases mem_insertAt.mp hj with hj | hj
        · exact ⟨mem_insertAt.mpr (.inl (hblocks k' j hj).1), (hblocks k' j hj).2⟩
        · obtain ⟨i, hi, heq⟩ := mem_insertedText.mp hj
          obtain ⟨rfl, rfl⟩ := Origin.inserted.inj heq
          exact ⟨mem_insertAt.mpr (.inr (mem_insertedText.mpr ⟨j, by omega, rfl⟩)),
            (pair_infix_insertedText hi).trans hwhole⟩
    | delete start length =>
      have hstay {o : Origin} (ho : o ∈ t)
          (hrun : o ∈ run (tag k (.delete start length :: edits)) t) :
          o ∈ deleteAt t start length := hfresh.mem_of_run ho hrun
      refine ⟨fun x hx => ?_, ?_⟩
      · by_contra hfree
        rw [← List.map_drop, ← List.map_take] at hx
        obtain ⟨o, ho, rfl⟩ := List.mem_map.mp hx
        have hsplit := split_window t start length
        have hot : o ∈ t := by
          rw [hsplit]
          exact List.mem_append_right _ (List.mem_append_left _ ho)
        have hgone := hstay hot (hkeep o hot hfree)
        have hnodup := hfresh.nodup
        rw [hsplit, ← List.append_assoc] at hnodup
        rcases List.mem_append.mp hgone with hgone | hgone
        · exact List.disjoint_of_nodup_append hnodup.of_append_left hgone ho
        · exact List.disjoint_of_nodup_append hnodup (List.mem_append_right _ ho) hgone
      · rw [← map_deleteAt]
        have hsub := (deleteAt_sublist t start length).subset
        refine ih hfresh.deleteAt (fun o ho hfree => hkeep o (hsub ho) hfree)
          (fun k' j hj => ?_) hlater
        obtain ⟨hprev, hpair⟩ := hblocks k' j (hsub hj)
        exact ⟨hstay hprev (hpair.subset (by simp)), hpair⟩

/-- A sequence of edits keeps everything it should keep exactly when every step is safe. -/
theorem keeps_iff_safe {edits : List (Edit α)} {n : ℕ}
    (hne : ∀ position text, .insert position text ∈ edits → text ≠ []) :
    Keeps named n edits ↔ Safe ((originalText n).map (mark named)) edits := by
  constructor
  · intro h
    have horiginal {o : Origin} (ho : o ∈ originalText n) : ∃ i, o = .original i := by
      obtain ⟨i, -, rfl⟩ := List.mem_map.mp ho
      exact ⟨i, rfl⟩
    refine safe_of_final (fresh_originalText n) (fun o ho hfree => ?_) (fun k j hmem => ?_)
      (fun i position text hi => ⟨hne position text (List.mem_of_getElem? hi), ?_⟩)
    · obtain ⟨i, rfl⟩ := horiginal ho
      refine h.originals.subset (List.mem_filter.mpr ⟨ho, ?_⟩)
      cases hi : named i <;> simp_all [mark]
    · obtain ⟨i', h⟩ := horiginal hmem
      cases h
    · simpa [origins] using h.texts i position text hi
  · intro h
    refine ⟨sublist_of_safe h (fun o ho => ?_) List.filter_sublist, fun k position text hk => ?_⟩
    · have := (List.mem_filter.mp ho).2
      simp_all
    · simpa [origins] using texts_of_safe (k := 0) h hk

end Safety

end Splice
