import Meridian.Lib.Splice

/-! Where inserted texts belong: each at its place of the first text. Insertions that are
applied one after another, at places that differ, end up there exactly when they go from the
back to the front. -/
namespace Splice

variable {α : Type*}

def placedFrom (i : ℕ) : ℕ → List (Edit α) → List Origin
  | _, [] => []
  | k, .insert position text :: edits =>
    (if position = i then insertedText k text.length else []) ++ placedFrom i (k + 1) edits
  | k, .delete _ _ :: edits => placedFrom i (k + 1) edits

/-- A place of the first text, after what is inserted there. -/
def slot (n : ℕ) (edits : List (Edit α)) (i : ℕ) : List Origin :=
  placedFrom i 0 edits ++ if i < n then [.original i] else []

/-- The first text with every inserted text at its place. -/
def layout (n : ℕ) (edits : List (Edit α)) : List Origin :=
  (List.range (n + 1)).flatMap (slot n edits)

section Placed

variable {i k : ℕ} {edits : List (Edit α)}

theorem placedFrom_concat (p : ℕ) (t : List α) :
    placedFrom i k (edits ++ [.insert p t]) =
      placedFrom i k edits ++ if p = i then insertedText (k + edits.length) t.length else [] := by
  induction edits generalizing k with
  | nil => simp [placedFrom]
  | cons e edits ih =>
    cases e <;> simp [placedFrom, ih, Nat.add_assoc, Nat.add_comm 1]

theorem placedFrom_eq_nil (h : ∀ e ∈ edits, e.position ≠ i) : placedFrom i k edits = [] := by
  induction edits generalizing k with
  | nil => rfl
  | cons e edits ih =>
    have hrest := ih (k := k + 1) fun e he => h e (List.mem_cons_of_mem _ he)
    have := h e List.mem_cons_self
    cases e with
    | insert position text => simp_all [placedFrom, Edit.position]
    | delete start length => exact hrest

theorem placedFrom_ne_nil
    (hne : ∀ position text, .insert position text ∈ edits → 0 < text.length)
    (hinserts : ∀ e ∈ edits, e.isInsert = true) {e : Edit α} (he : e ∈ edits) :
    placedFrom e.position k edits ≠ [] := by
  induction edits generalizing k with
  | nil => cases he
  | cons a edits ih =>
    have hrest (he : e ∈ edits) : placedFrom e.position (k + 1) edits ≠ [] :=
      ih (fun p t h => hne p t (List.mem_cons_of_mem _ h))
        (fun a ha => hinserts a (List.mem_cons_of_mem _ ha)) he
    cases a with
    | insert position text =>
      rcases List.mem_cons.mp he with rfl | he
      · have := hne position text List.mem_cons_self
        simp [placedFrom, Edit.position, insertedText, List.ne_nil_of_length_pos this]
      · simp [placedFrom, hrest he]
    | delete start length => cases hinserts _ List.mem_cons_self

theorem mem_placedFrom {o : Origin} (h : o ∈ placedFrom i k edits) :
    ∃ j m, o = .inserted j m ∧ j < k + edits.length := by
  induction edits generalizing k with
  | nil => cases h
  | cons e edits ih =>
    have hrest (h : o ∈ placedFrom i (k + 1) edits) :
        ∃ j m, o = .inserted j m ∧ j < k + (edits.length + 1) := by
      obtain ⟨j, m, rfl, hj⟩ := ih h
      exact ⟨j, m, rfl, by omega⟩
    cases e with
    | insert position text =>
      rcases List.mem_append.mp h with h | h
      · split at h
        · obtain ⟨m, -, rfl⟩ := mem_insertedText.mp h
          exact ⟨k, m, rfl, by simp⟩
        · cases h
      · exact hrest h
    | delete start length => exact hrest h

theorem placedFrom_eq {j p : ℕ} {t : List α}
    (hdistinct : edits.Pairwise fun a b => a.position ≠ b.position)
    (hj : edits[j]? = some (.insert p t)) :
    placedFrom p k edits = insertedText (k + j) t.length := by
  induction edits generalizing j k with
  | nil => cases hj
  | cons e edits ih =>
    obtain ⟨hfirst, hrest⟩ := List.pairwise_cons.mp hdistinct
    cases j with
    | zero =>
      obtain rfl : e = .insert p t := by simpa using hj
      have hnone : placedFrom p (k + 1) edits = [] :=
        placedFrom_eq_nil fun e he => (hfirst e he).symm
      rw [placedFrom, if_pos rfl, hnone, List.append_nil]
      rfl
    | succ j =>
      have hj : edits[j]? = some (.insert p t) := by simpa using hj
      have hne := hfirst _ (List.mem_of_getElem? hj)
      have := ih (k := k + 1) hrest hj
      rw [show k + 1 + j = k + (j + 1) by omega] at this
      cases e with
      | insert position text =>
        have hne : position ≠ p := hne
        rw [placedFrom, if_neg hne, List.nil_append, this]
      | delete start length => exact this

end Placed

theorem tag_concat (k : ℕ) (edits : List (Edit α)) (p : ℕ) (t : List α) :
    tag k (edits ++ [.insert p t]) =
      tag k edits ++ [.insert p (insertedText (k + edits.length) t.length)] := by
  induction edits generalizing k with
  | nil => rfl
  | cons e edits ih => cases e <;> simp [tag, ih, Nat.add_assoc, Nat.add_comm 1]

theorem origins_concat (n : ℕ) (edits : List (Edit α)) (p : ℕ) (t : List α) :
    origins n (edits ++ [.insert p t]) =
      insertAt (origins n edits) p (insertedText edits.length t.length) := by
  simp [origins, tag_concat, run, Edit.apply]

theorem layout_split {n p : ℕ} (edits : List (Edit α)) (h : p ≤ n) :
    layout n edits = (List.range p).flatMap (slot n edits) ++
      (slot n edits p ++ (List.range' (p + 1) (n - p)).flatMap (slot n edits)) := by
  have hrange : List.range (n + 1) = List.range p ++ p :: List.range' (p + 1) (n - p) := by
    have := @List.range'_append_1 0 p (n - p + 1)
    rw [Nat.zero_add, show p + (n - p + 1) = n + 1 by omega] at this
    rw [List.range_eq_range', List.range_eq_range', ← List.range'_succ, this]
  rw [layout, hrange, List.flatMap_append, List.flatMap_cons]

section Insertions

variable {n p : ℕ} {edits : List (Edit α)} {t : List α}

theorem slot_concat_of_ne {i : ℕ} (h : p ≠ i) :
    slot n (edits ++ [.insert p t]) i = slot n edits i := by
  rw [slot, placedFrom_concat, if_neg h, List.append_nil, slot]

theorem slot_concat_self (h : ∀ e ∈ edits, e.position ≠ p) :
    slot n (edits ++ [.insert p t]) p =
      insertedText edits.length t.length ++ slot n edits p := by
  rw [slot, placedFrom_concat, placedFrom_eq_nil h, if_pos rfl, slot, placedFrom_eq_nil h]
  simp

theorem layout_concat (h : ∀ e ∈ edits, e.position ≠ p) (hp : p ≤ n) :
    layout n (edits ++ [.insert p t]) = (List.range p).flatMap (slot n edits) ++
      (insertedText edits.length t.length ++
        (slot n edits p ++ (List.range' (p + 1) (n - p)).flatMap (slot n edits))) := by
  have hbefore : (List.range p).flatMap (slot n (edits ++ [.insert p t])) =
      (List.range p).flatMap (slot n edits) :=
    List.flatMap_congr fun i hi => slot_concat_of_ne (List.mem_range.mp hi).ne'
  have hafter : (List.range' (p + 1) (n - p)).flatMap (slot n (edits ++ [.insert p t])) =
      (List.range' (p + 1) (n - p)).flatMap (slot n edits) :=
    List.flatMap_congr fun i hi => slot_concat_of_ne (by have := List.mem_range'_1.mp hi; omega)
  rw [layout_split _ hp, hbefore, hafter, slot_concat_self h, List.append_assoc]

theorem originals_sublist (n : ℕ) (edits : List (Edit α)) {l : List ℕ} (h : ∀ i ∈ l, i < n) :
    (l.map Origin.original).Sublist (l.flatMap (slot n edits)) := by
  induction l with
  | nil => exact List.Sublist.refl _
  | cons i l ih =>
    rw [List.map_cons, List.flatMap_cons, ← List.singleton_append]
    refine List.Sublist.append ?_ (ih fun j hj => h j (List.mem_cons_of_mem _ hj))
    rw [slot, if_pos (h i List.mem_cons_self)]
    exact List.sublist_append_right _ _

/-- From the back on, an insertion finds its place where it was. -/
theorem insertAt_layout (h : ∀ e ∈ edits, p < e.position) (hp : p ≤ n) :
    insertAt (layout n edits) p (insertedText edits.length t.length) =
      layout n (edits ++ [.insert p t]) := by
  have hfront : (List.range p).flatMap (slot n edits) = (List.range p).map .original := by
    rw [List.map_eq_flatMap]
    refine List.flatMap_congr fun i hi => ?_
    have hi := List.mem_range.mp hi
    rw [slot, placedFrom_eq_nil fun e he => (by have := h e he; omega), if_pos (by omega)]
    rfl
  have hlen : ((List.range p).map Origin.original).length = p := by simp
  rw [layout_concat (fun e he => (h e he).ne') hp, layout_split edits hp, hfront, insertAt,
    List.take_left' hlen, List.drop_left' hlen, List.append_assoc]

/-- An insertion that ends up at its place, as all before it do, is in front of all of them. -/
theorem front_of_layout (hne : ∀ position text, .insert position text ∈ edits → 0 < text.length)
    (hinserts : ∀ e ∈ edits, e.isInsert = true) (ht : 0 < t.length)
    (hdistinct : ∀ e ∈ edits, e.position ≠ p)
    (h : insertAt (origins n edits) p (insertedText edits.length t.length) =
      layout n (edits ++ [.insert p t])) :
    p ≤ n ∧ (∀ e ∈ edits, p < e.position) ∧ origins n edits = layout n edits := by
  obtain ⟨rest, hnew⟩ : ∃ rest, insertedText edits.length t.length =
      .inserted edits.length 0 :: rest ∧ .inserted edits.length 0 ∉ rest := by
    obtain ⟨m, hm⟩ := Nat.exists_eq_succ_of_ne_zero ht.ne'
    rw [hm, insertedText, List.range_succ_eq_map, List.map_cons]
    exact ⟨_, rfl, by simp⟩
  have hslot : ∀ i, .inserted edits.length 0 ∉ slot n edits i := by
    intro i hmem
    rcases List.mem_append.mp hmem with hmem | hmem
    · obtain ⟨j, m, heq, hj⟩ := mem_placedFrom hmem
      obtain ⟨rfl, -⟩ := Origin.inserted.inj heq
      omega
    · split at hmem
      · cases List.mem_singleton.mp hmem
      · cases hmem
  have hold : .inserted edits.length 0 ∉ origins n edits := by
    intro hmem
    rcases mem_run hmem with hmem | ⟨j, i, -, hj, heq⟩
    · obtain ⟨i, -, heq⟩ := List.mem_map.mp hmem
      cases heq
    · obtain ⟨rfl, -⟩ := Origin.inserted.inj heq
      omega
  have hp : p ≤ n := by
    by_contra hgt
    have hmem : .inserted edits.length 0 ∈ layout n (edits ++ [.insert p t]) := by
      rw [← h, mem_insertAt, hnew.1]
      exact .inr List.mem_cons_self
    obtain ⟨i, hi, hmem⟩ := List.mem_flatMap.mp hmem
    have hi := List.mem_range.mp hi
    rw [slot_concat_of_ne (by omega)] at hmem
    exact hslot i hmem
  rw [layout_concat hdistinct hp, insertAt, List.append_assoc, hnew.1, List.cons_append,
    List.cons_append, List.append_cons_inj_of_notMem
      (fun hmem => hold (List.mem_of_mem_take hmem))
      (fun hmem => (List.mem_append.mp hmem).elim hnew.2
        fun hmem => hold (List.mem_of_mem_drop hmem))] at h
  obtain ⟨hfront, -, hback⟩ := h
  have hlayout : origins n edits = layout n edits := by
    rw [layout_split edits hp, ← hfront, ← List.append_cancel_left hback, List.take_append_drop]
  refine ⟨hp, fun e he => ?_, hlayout⟩
  -- before the place there is room for the characters of the first text only
  have horiginals : (List.range p).map Origin.original =
      (List.range p).flatMap (slot n edits) := by
    refine (originals_sublist n edits fun i hi => ?_).eq_of_length_le ?_
    · exact (List.mem_range.mp hi).trans_le hp
    · rw [← hfront]
      simp
  by_contra hle
  have hlt : e.position < p := lt_of_le_of_ne (not_lt.mp hle) (hdistinct e he)
  obtain ⟨o, ho⟩ := List.exists_mem_of_ne_nil _ (placedFrom_ne_nil (k := 0) hne hinserts he)
  have hmem : o ∈ (List.range p).map Origin.original := by
    rw [horiginals]
    exact List.mem_flatMap.mpr ⟨_, List.mem_range.mpr hlt, List.mem_append_left _ ho⟩
  obtain ⟨j, m, rfl, -⟩ := mem_placedFrom ho
  obtain ⟨i, -, heq⟩ := List.mem_map.mp hmem
  cases heq

end Insertions

/-- Insertions at places that differ end up at their places exactly when they go from the
back of the text to its front. -/
theorem origins_eq_layout_iff {n : ℕ} {edits : List (Edit α)}
    (hne : ∀ position text, .insert position text ∈ edits → 0 < text.length)
    (hinserts : ∀ e ∈ edits, e.isInsert = true)
    (hdistinct : edits.Pairwise fun a b => a.position ≠ b.position) :
    origins n edits = layout n edits ↔
      edits.Pairwise (fun a b => b.position < a.position) ∧ ∀ e ∈ edits, e.position ≤ n := by
  induction edits using List.reverseRecOn with
  | nil =>
    refine iff_of_true ?_ ⟨List.Pairwise.nil, by simp⟩
    have hslot : ∀ i, slot n ([] : List (Edit α)) i = if i < n then [.original i] else [] :=
      fun i => by simp [slot, placedFrom]
    rw [layout, List.range_succ, List.flatMap_append, List.flatMap_singleton, hslot,
      if_neg (lt_irrefl n), List.append_nil, origins, originalText, List.map_eq_flatMap]
    exact List.flatMap_congr fun i hi => by rw [hslot, if_pos (List.mem_range.mp hi)]
  | append_singleton edits e ih =>
    have hne' := fun p t h => hne p t (List.mem_append_left _ h)
    have hinserts' := fun a ha => hinserts a (List.mem_append_left _ ha)
    obtain ⟨hbefore, hlast⟩ : edits.Pairwise (fun a b => a.position ≠ b.position) ∧
        ∀ a ∈ edits, a.position ≠ e.position := by
      simpa [List.pairwise_append] using hdistinct
    have ih := ih hne' hinserts' hbefore
    have hkind := hinserts e (by simp)
    cases e with
    | delete s m => cases hkind
    | insert p t =>
      rw [origins_concat]
      constructor
      · intro h
        obtain ⟨hp, hfront, hrest⟩ := front_of_layout hne' hinserts' (hne p t (by simp)) hlast h
        obtain ⟨horder, hle⟩ := ih.mp hrest
        refine ⟨List.pairwise_append.mpr ⟨horder, List.pairwise_singleton _ _, ?_⟩, ?_⟩
        · simpa [Edit.position] using hfront
        · intro a ha
          rcases List.mem_append.mp ha with ha | ha
          · exact hle a ha
          · rw [List.mem_singleton.mp ha]
            exact hp
      · rintro ⟨horder, hle⟩
        obtain ⟨horder, -, hfront⟩ := List.pairwise_append.mp horder
        rw [ih.mpr ⟨horder, fun a ha => hle a (List.mem_append_left _ ha)⟩]
        exact insertAt_layout (fun a ha => hfront a ha _ (List.mem_singleton_self _))
          (hle (.insert p t) (by simp))

theorem beside_of_layout {n j p : ℕ} {edits : List (Edit α)} {t : List α}
    (hdistinct : edits.Pairwise fun a b => a.position ≠ b.position)
    (hj : edits[j]? = some (.insert p t)) (hp : p ≤ n) :
    (if 0 < p then [.original (p - 1)] else []) ++ insertedText j t.length ++
      (if p < n then [.original p] else []) <:+: layout n edits := by
  have hslot : slot n edits p = insertedText j t.length ++ if p < n then [.original p] else [] := by
    rw [slot, placedFrom_eq hdistinct hj, Nat.zero_add]
  rw [layout_split edits hp, hslot]
  cases p with
  | zero =>
    rw [if_neg (lt_irrefl 0), List.nil_append]
    exact ⟨[], _, rfl⟩
  | succ p =>
    have hlt : p < n := hp
    rw [if_pos (Nat.succ_pos p), Nat.add_sub_cancel, List.range_succ, List.flatMap_append,
      List.flatMap_singleton, slot, if_pos hlt]
    refine ⟨(List.range p).flatMap (slot n edits) ++ placedFrom p 0 edits,
      (List.range' (p + 1 + 1) (n - (p + 1))).flatMap (slot n edits), ?_⟩
    simp only [List.append_assoc]

end Splice
