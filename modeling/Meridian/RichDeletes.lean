import Meridian.RichOffsets

/-! Deletes in a rich document. A flat range takes its characters out of every text that it meets,
and of the blocks that it meets those go that are left without a text; only the last block stays
when all would go. A pair of which one half lies in the range is divided, and the other half is
destroyed. -/
namespace Meridian

open Splice

section Pruning

variable [XmlTextCalls]

/-- What stays of `n` things of which some go: when all would, the last one. -/
def keptIndices (goes : ℕ → Bool) (n : ℕ) : List ℕ :=
  let kept := (List.range n).filter fun i => !goes i
  if kept.isEmpty then (List.range n).getLast?.toList else kept

/-- The nodes from an index on that are not marked or not empty. -/
def survivors (marked : ℕ → Bool) : ℕ → XmlFragment → XmlFragment
  | _, [] => []
  | i, node :: nodes =>
    if marked i && blockIsEmpty node then survivors marked (i + 1) nodes
    else node :: survivors marked (i + 1) nodes

variable {marked : ℕ → Bool}

theorem pruneEmptyBlocks_range' (done nodes : XmlFragment) {i : ℕ} (h : done.length ≤ i) :
    pruneEmptyBlocks ((List.range' i nodes.length).filter marked) (i - done.length)
        (done ++ nodes) =
      if done = [] ∧ survivors marked i nodes = [] then nodes.drop (nodes.length - 1)
      else done ++ survivors marked i nodes := by
  induction nodes generalizing done i with
  | nil => cases done <;> rfl
  | cons node nodes ih =>
    have hsplit : done ++ node :: nodes = (done ++ [node]) ++ nodes := by simp
    have hstays := ih (done ++ [node]) (i := i + 1) (by simpa using h)
    rw [if_neg (by simp), List.length_append, List.length_singleton, Nat.add_sub_add_right,
      ← hsplit, List.append_assoc, List.singleton_append] at hstays
    rw [List.length_cons, List.range'_succ, List.filter_cons, survivors]
    cases hmark : marked i with
    | false =>
      rw [if_neg Bool.false_ne_true, Bool.false_and, if_neg Bool.false_ne_true, hstays,
        if_neg (by simp)]
    | true =>
      rw [if_pos rfl, Bool.true_and, pruneEmptyBlocks]
      have hget : (done ++ node :: nodes)[i - (i - done.length)]? = some node := by
        rw [show i - (i - done.length) = done.length by omega]
        simp
      have herase : (done ++ node :: nodes).eraseIdx (i - (i - done.length)) = done ++ nodes := by
        rw [show i - (i - done.length) = done.length by omega,
          List.eraseIdx_append_of_length_le le_rfl]
        simp
      rw [hget, herase, Option.any_some]
      by_cases hshort : (done ++ node :: nodes).length ≤ 1
      · -- the only block of the fragment stays as it is
        obtain ⟨rfl, rfl⟩ : done = [] ∧ nodes = [] := by
          rw [List.length_append, List.length_cons] at hshort
          exact ⟨List.length_eq_zero_iff.mp (by omega), List.length_eq_zero_iff.mp (by omega)⟩
        rw [if_pos hshort]
        cases blockIsEmpty node <;> simp [survivors]
      · rw [if_neg hshort]
        cases hempty : blockIsEmpty node with
        | false =>
          rw [if_neg Bool.false_ne_true, if_neg Bool.false_ne_true, hstays, if_neg (by simp)]
        | true =>
          rw [if_pos rfl, if_pos rfl, show i - done.length + 1 = i + 1 - done.length by omega,
            ih done (by omega)]
          split
          · next hall =>
            obtain ⟨rfl, -⟩ := hall
            have hpos : nodes.length ≠ 0 := by
              intro hzero
              simp [hzero] at hshort
            rw [List.nil_append] at *
            obtain ⟨k, hk⟩ := Nat.exists_eq_succ_of_ne_zero hpos
            rw [hk]
            rfl
          · rfl

theorem survivors_eq (i : ℕ) (nodes : XmlFragment) :
    survivors marked i nodes =
      ((List.range' i nodes.length).filter fun j =>
        !(marked j && nodes[j - i]?.any blockIsEmpty)).filterMap fun j => nodes[j - i]? := by
  induction nodes generalizing i with
  | nil => rfl
  | cons node nodes ih =>
    have hshift : ∀ j ∈ List.range' (i + 1) nodes.length,
        (node :: nodes)[j - i]? = nodes[j - (i + 1)]? := by
      intro j hj
      have hle := (List.mem_range'_1.mp hj).1
      rw [show j - i = j - (i + 1) + 1 by omega, List.getElem?_cons_succ]
    have hrest : ((List.range' (i + 1) nodes.length).filter fun j =>
        !(marked j && (node :: nodes)[j - i]?.any blockIsEmpty)).filterMap
          (fun j => (node :: nodes)[j - i]?) = survivors marked (i + 1) nodes := by
      rw [ih, List.filter_congr fun j hj => by rw [hshift j hj]]
      exact List.filterMap_congr fun j hj => hshift j (List.mem_of_mem_filter hj)
    rw [List.length_cons, List.range'_succ, List.filter_cons, survivors]
    have hself : (node :: nodes)[i - i]? = some node := by simp
    rw [hself, Option.any_some]
    cases marked i && blockIsEmpty node with
    | true => rw [if_pos rfl, Bool.not_true, if_neg Bool.false_ne_true, hrest]
    | false =>
      rw [if_neg Bool.false_ne_true, Bool.not_false, if_pos rfl, List.filterMap_cons, hself, hrest]

theorem pruneEmptyBlocks_eq (fragment : XmlFragment) :
    pruneEmptyBlocks ((List.range fragment.length).filter marked) 0 fragment =
      (keptIndices (fun i => marked i && fragment[i]?.any blockIsEmpty)
        fragment.length).filterMap fun i => fragment[i]? := by
  have hprune := @pruneEmptyBlocks_range' _ marked [] fragment 0 le_rfl
  have hsurvivors := @survivors_eq _ marked 0 fragment
  rw [← List.range_eq_range'] at hprune hsurvivors
  simp only [Nat.sub_zero, List.nil_append, true_and, List.length_nil] at hprune hsurvivors
  rw [hprune, keptIndices]
  split
  · next hnone =>
    rw [hnone] at hsurvivors
    have hempty : (List.range fragment.length).filter
        (fun i => !(marked i && fragment[i]?.any blockIsEmpty)) = [] := by
      refine List.eq_nil_iff_forall_not_mem.mpr fun i hi => ?_
      have hlt := List.mem_range.mp (List.mem_of_mem_filter hi)
      have hmem : fragment[i] ∈ ([] : XmlFragment) := by
        rw [hsurvivors]
        exact List.mem_filterMap.mpr ⟨i, hi, List.getElem?_eq_getElem hlt⟩
      cases hmem
    rw [hempty]
    cases hlength : fragment.length with
    | zero =>
      rw [List.length_eq_zero_iff.mp hlength]
      rfl
    | succ k =>
      have hlast : k < fragment.length := by omega
      rw [List.range_succ, List.getLast?_concat, Nat.add_sub_cancel,
        List.drop_eq_getElem_cons hlast, List.drop_of_length_le (by omega)]
      simp [hlast]
  · next hsome =>
    have hne : ((List.range fragment.length).filter
        (fun i => !(marked i && fragment[i]?.any blockIsEmpty))).isEmpty = false := by
      rw [List.isEmpty_eq_false_iff]
      intro hempty
      rw [hempty] at hsurvivors
      exact hsome hsurvivors
    rw [hne, if_neg Bool.false_ne_true, hsurvivors]

end Pruning

def keepOutside {α : Type*} (start length : ℤ) : ℕ → List α → List α
  | _, [] => []
  | offset, c :: l =>
    if start ≤ offset ∧ (offset : ℤ) < start + length then keepOutside start length (offset + 1) l
    else c :: keepOutside start length (offset + 1) l

def Meets (start length : ℤ) (offset size : ℕ) : Prop :=
  ∃ j < size, start ≤ (offset + j : ℕ) ∧ ((offset + j : ℕ) : ℤ) < start + length

section Windows

variable {α β : Type*} {start length : ℤ} {offset : ℕ}

theorem keepOutside_append (x y : List α) :
    keepOutside start length offset (x ++ y) =
      keepOutside start length offset x ++ keepOutside start length (offset + x.length) y := by
  induction x generalizing offset with
  | nil => rfl
  | cons c x ih =>
    rw [List.cons_append, keepOutside, keepOutside, ih, List.length_cons, Nat.add_right_comm,
      Nat.add_assoc]
    split <;> rfl

theorem map_keepOutside (f : α → β) (l : List α) :
    (keepOutside start length offset l).map f = keepOutside start length offset (l.map f) := by
  induction l generalizing offset with
  | nil => rfl
  | cons c l ih =>
    rw [keepOutside, List.map_cons, keepOutside]
    split
    · exact ih
    · rw [List.map_cons, ih]

theorem keepOutside_of_not_meets {l : List α} (h : ¬ Meets start length offset l.length) :
    keepOutside start length offset l = l := by
  induction l generalizing offset with
  | nil => rfl
  | cons c l ih =>
    rw [keepOutside, if_neg fun hin => h ⟨0, by simp, by simpa using hin⟩, ih]
    rintro ⟨j, hj, hin⟩
    exact h ⟨j + 1, by simpa using hj, by simpa [Nat.add_assoc, Nat.add_comm 1] using hin⟩

theorem length_keepOutside_le (l : List α) :
    (keepOutside start length offset l).length ≤ l.length := by
  induction l generalizing offset with
  | nil => exact le_rfl
  | cons c l ih =>
    rw [keepOutside]
    split
    · exact ih.trans (Nat.le_succ _)
    · exact Nat.succ_le_succ ih

theorem meets_add {a b : ℕ} :
    Meets start length offset (a + b) ↔
      Meets start length offset a ∨ Meets start length (offset + a) b := by
  constructor
  · rintro ⟨j, hj, hin⟩
    by_cases hja : j < a
    · exact .inl ⟨j, hja, hin⟩
    · refine .inr ⟨j - a, by omega, ?_⟩
      rwa [Nat.add_assoc, Nat.add_sub_cancel' (not_lt.mp hja)]
  · rintro (⟨j, hj, hin⟩ | ⟨j, hj, hin⟩)
    · exact ⟨j, by omega, hin⟩
    · exact ⟨a + j, by omega, by rwa [← Nat.add_assoc]⟩

theorem length_keepOutside_lt {l : List α} (h : Meets start length offset l.length) :
    (keepOutside start length offset l).length < l.length := by
  induction l generalizing offset with
  | nil =>
    obtain ⟨j, hj, -⟩ := h
    exact absurd hj (Nat.not_lt_zero j)
  | cons c l ih =>
    rw [keepOutside]
    split
    · exact Nat.lt_succ_of_le (length_keepOutside_le l)
    · next hout =>
      rw [List.length_cons, Nat.add_comm, meets_add] at h
      rcases h with ⟨j, hj, hin⟩ | hrest
      · obtain rfl : j = 0 := by omega
        exact absurd (by simpa using hin) hout
      · exact Nat.succ_lt_succ (ih hrest)

theorem keepOutside_eq (l : List α) :
    keepOutside start length offset l = l.take (start - offset).toNat ++
      l.drop (max (start - offset).toNat (start + length - offset).toNat) := by
  induction l generalizing offset with
  | nil => simp [keepOutside]
  | cons c l ih =>
    rw [keepOutside, ih]
    split
    · next hin =>
      rw [show (start - offset).toNat = 0 by omega,
        show (start - (offset + 1 : ℕ)).toNat = 0 by omega,
        show max 0 (start + length - offset).toNat =
          max 0 (start + length - (offset + 1 : ℕ)).toNat + 1 by omega]
      simp
    · next hout =>
      by_cases hbefore : start ≤ offset
      · rw [show (start - offset).toNat = 0 by omega,
          show (start - (offset + 1 : ℕ)).toNat = 0 by omega,
          show (start + length - offset).toNat = 0 by omega,
          show (start + length - (offset + 1 : ℕ)).toNat = 0 by omega]
        simp
      · obtain ⟨k, hk⟩ : ∃ k, (start - offset).toNat = k + 1 :=
          ⟨(start - offset).toNat - 1, by omega⟩
        rw [hk, show (start - (offset + 1 : ℕ)).toNat = k by omega,
          show max (k + 1) (start + length - offset).toNat =
            max k (start + length - (offset + 1 : ℕ)).toNat + 1 by omega]
        simp

theorem overlap_isSome_iff {size : ℕ} :
    (overlap start length ⟨offset, offset + size⟩).isSome = true ↔
      Meets start length offset size := by
  unfold overlap
  dsimp only
  split
  · next hnone =>
    refine iff_of_false (by simp) ?_
    rintro ⟨j, hj, hin⟩
    omega
  · next hsome =>
    refine iff_of_true rfl ⟨(max start offset - offset).toNat, by omega, by omega, by omega⟩

theorem overlap_eq_some {size : ℕ} {window : ℕ × ℕ}
    (h : overlap start length ⟨offset, offset + size⟩ = some window) :
    window.1 = (start - offset).toNat ∧
      window.1 + window.2 =
        max (start - offset).toNat (min (start + length - offset).toNat size) := by
  unfold overlap at h
  dsimp only at h
  split at h
  · cases h
  · cases h
    dsimp only
    omega

end Windows

theorem overlap_pos {start length : ℤ} {node : LinearXmlText} {window : ℕ × ℕ}
    (h : overlap start length node = some window) : 0 < window.2 := by
  unfold overlap at h
  dsimp only at h
  split at h
  · cases h
  · cases h
    omega

def outsideRange (start length : ℤ) (node : LinearXmlText) (content : XmlText) : XmlText :=
  ⟨keepOutside start length node.start content.chars⟩

section Texts

variable [XmlTextCalls]

variable {start length : ℤ}

/-- The ends of a range divide no pair of a text of which a half is left; a U+FFFD may be. -/
def Undivided (start length : ℤ) (placed : LinearXmlText × XmlText) : Prop :=
  ∀ window, overlap start length placed.1 = some window → placed.2.split window.1 = placed.2 ∧
    (placed.2.split (window.1 + window.2) = placed.2 ∨
      placed.2.text[window.1 + window.2]? = some replacementCharacter)

/-- The numbers of the characters that a delete takes out of a text are those in the range, also
where the formats make the text longer. -/
theorem deleteChars_eq_outsideRange (content : XmlText) {offset : ℕ} {window : ℕ × ℕ}
    (h : overlap start length ⟨offset, offset + content.toString.length⟩ = some window) :
    content.deleteChars window.1 window.2 =
      outsideRange start length ⟨offset, offset + content.toString.length⟩ content := by
  have hsize := content.length_le_toString
  obtain ⟨hfrom, hto⟩ := overlap_eq_some h
  refine congrArg XmlText.mk ?_
  rw [keepOutside_eq, deleteAt, hto, hfrom]
  rcases le_total (start + length - offset).toNat content.toString.length with hle | hle
  · rw [min_eq_left hle]
  · rw [min_eq_right hle, List.drop_of_length_le (le_max_of_le_right hsize),
      List.drop_of_length_le (le_max_of_le_right (hsize.trans hle))]

theorem outsideRange_of_overlap_eq_none {content : XmlText} {offset : ℕ}
    (h : overlap start length ⟨offset, offset + content.toString.length⟩ = none) :
    outsideRange start length ⟨offset, offset + content.toString.length⟩ content = content := by
  have hout : ¬ Meets start length offset content.chars.length := by
    rintro ⟨j, hj, hin⟩
    have hmeets : Meets start length offset content.toString.length :=
      ⟨j, Nat.lt_of_lt_of_le hj content.length_le_toString, hin⟩
    rw [← overlap_isSome_iff, h] at hmeets
    exact Bool.false_ne_true hmeets
  exact congrArg XmlText.mk (keepOutside_of_not_meets hout)

/-- A delete takes exactly the characters out of a text whose numbers are in the range if it
divides no pair. -/
theorem rangeEdit_delete_iff (content : XmlText) (offset : ℕ) :
    rangeEdit start length XmlText.delete ⟨offset, offset + content.toString.length⟩ content =
        outsideRange start length ⟨offset, offset + content.toString.length⟩ content ↔
      Undivided start length (⟨offset, offset + content.toString.length⟩, content) := by
  unfold rangeEdit
  cases hwindow : overlap start length ⟨offset, offset + content.toString.length⟩ with
  | none =>
    refine iff_of_true (outsideRange_of_overlap_eq_none hwindow).symm fun window h => ?_
    rw [hwindow] at h
    cases h
  | some window =>
    have hpos := overlap_pos hwindow
    dsimp only
    rw [← deleteChars_eq_outsideRange content hwindow, XmlText.delete_eq_deleteChars_iff hpos]
    constructor
    · intro h window' hwindow'
      rw [hwindow] at hwindow'
      cases hwindow'
      exact h
    · exact fun h => h window hwindow

theorem length_rangeEdit_delete (content : XmlText) (offset : ℕ) :
    (rangeEdit start length XmlText.delete ⟨offset, offset + content.toString.length⟩
      content).chars.length =
        (outsideRange start length ⟨offset, offset + content.toString.length⟩
          content).chars.length := by
  unfold rangeEdit
  cases hwindow : overlap start length ⟨offset, offset + content.toString.length⟩ with
  | none => rw [outsideRange_of_overlap_eq_none hwindow]
  | some window =>
    dsimp only
    rw [← deleteChars_eq_outsideRange content hwindow,
      XmlText.length_delete _ _ (overlap_pos hwindow)]

theorem plain_rangeEdit_delete {content : XmlText} (h : content.Plain) (node : LinearXmlText) :
    (rangeEdit start length XmlText.delete node content).Plain := by
  unfold rangeEdit
  split
  · exact h.delete _ _
  · exact h

omit [XmlTextCalls] in
theorem plain_outsideRange {content : XmlText} (h : content.Plain) (node : LinearXmlText) :
    (outsideRange start length node content).Plain := by
  intro c hc
  rw [outsideRange, keepOutside_eq] at hc
  exact h c ((List.mem_append.mp hc).elim List.mem_of_mem_take List.mem_of_mem_drop)

omit [XmlTextCalls] in
theorem outsideRange_ofText (text : JsString) (node : LinearXmlText) :
    outsideRange start length node (.ofText text) =
      .ofText (keepOutside start length node.start text) :=
  congrArg XmlText.mk (map_keepOutside _ text).symm

def blockTexts (offset : ℕ) (block : XmlNode) : List (LinearXmlText × XmlText) :=
  (collectXmlText block offset).1.zip block.texts

theorem blockTexts_text (offset : ℕ) (content : XmlText) :
    blockTexts offset (.text content) = [(⟨offset, offset + content.toString.length⟩, content)] :=
  rfl

theorem blockTexts_cons (offset : ℕ) (nodeName : JsString) (child : XmlNode)
    (children : List XmlNode) :
    blockTexts offset (.element nodeName (child :: children)) =
      blockTexts offset child ++
        blockTexts (offset + (extractInlineText child).length) (.element nodeName children) := by
  rw [blockTexts, collectXmlText, collectXmlTexts, XmlNode.texts, textsOf,
    List.zip_append (by rw [length_collectXmlText, length_texts]), collectXmlText_snd]
  rfl

mutual

theorem any_overlap_collectXmlText (offset : ℕ) : ∀ node,
    ((collectXmlText node offset).1.any fun node => (overlap start length node).isSome) = true ↔
      Meets start length offset (extractInlineText node).length
  | .text content => by
    rw [collectXmlText, List.any_cons, List.any_nil, Bool.or_false, overlap_isSome_iff]
    rfl
  | .element _ children => any_overlap_collectXmlTexts offset children

theorem any_overlap_collectXmlTexts (offset : ℕ) : ∀ nodes,
    ((collectXmlTexts nodes offset).1.any fun node => (overlap start length node).isSome) = true ↔
      Meets start length offset (extractInlineTexts nodes).length
  | [] => iff_of_false Bool.false_ne_true fun ⟨j, hj, _⟩ => Nat.not_lt_zero j hj
  | child :: children => by
    rw [collectXmlTexts, collectXmlText_snd, List.any_append, Bool.or_eq_true,
      any_overlap_collectXmlText offset child, any_overlap_collectXmlTexts _ children,
      extractInlineTexts, List.length_append, meets_add]

end

mutual

theorem extractInlineText_outsideRange (offset : ℕ) : ∀ node : XmlNode,
    (∀ content ∈ node.texts, content.Plain) →
      extractInlineText (mapPlaced (outsideRange start length) offset node) =
        keepOutside start length offset (extractInlineText node)
  | .text content, h => by
    have hplain := (h content (.head _)).eq_ofText
    rw [mapPlaced, extractInlineText, extractInlineText, hplain, outsideRange_ofText,
      XmlText.toString_ofText, XmlText.toString_ofText]
  | .element _ children, h => extractInlineTexts_outsideRange offset children h

theorem extractInlineTexts_outsideRange (offset : ℕ) : ∀ nodes : List XmlNode,
    (∀ content ∈ textsOf nodes, content.Plain) →
      extractInlineTexts (mapPlaceds (outsideRange start length) offset nodes) =
        keepOutside start length offset (extractInlineTexts nodes)
  | [], _ => rfl
  | child :: children, h => by
    rw [textsOf, List.forall_mem_append] at h
    rw [mapPlaceds, extractInlineTexts, extractInlineTexts, keepOutside_append,
      extractInlineText_outsideRange offset child h.1,
      extractInlineTexts_outsideRange _ children h.2]

end

mutual

theorem mapPlaced_of_not_meets (offset : ℕ) : ∀ node : XmlNode,
    (∀ content ∈ node.texts, content.Plain) →
      ¬ Meets start length offset (extractInlineText node).length →
        mapPlaced (outsideRange start length) offset node = node
  | .text content, h, hout => by
    rw [extractInlineText, (h content (.head _)).length_toString] at hout
    rw [mapPlaced, outsideRange, keepOutside_of_not_meets hout]
  | .element nodeName children, h, hout =>
    congrArg (XmlNode.element nodeName) (mapPlaceds_of_not_meets offset children h hout)

theorem mapPlaceds_of_not_meets (offset : ℕ) : ∀ nodes : List XmlNode,
    (∀ content ∈ textsOf nodes, content.Plain) →
      ¬ Meets start length offset (extractInlineTexts nodes).length →
        mapPlaceds (outsideRange start length) offset nodes = nodes
  | [], _, _ => rfl
  | child :: children, h, hout => by
    rw [textsOf, List.forall_mem_append] at h
    rw [extractInlineTexts, List.length_append, meets_add, not_or] at hout
    rw [mapPlaceds, mapPlaced_of_not_meets offset child h.1 hout.1,
      mapPlaceds_of_not_meets _ children h.2 hout.2]

end

mutual

theorem mapPlaced_delete (offset : ℕ) : ∀ node : XmlNode,
    (∀ placed ∈ blockTexts offset node, Undivided start length placed) →
      mapPlaced (rangeEdit start length XmlText.delete) offset node =
        mapPlaced (outsideRange start length) offset node
  | .text content, h =>
    congrArg XmlNode.text ((rangeEdit_delete_iff content offset).mpr (h _ (.head _)))
  | .element nodeName children, h =>
    congrArg (XmlNode.element nodeName) (mapPlaceds_delete offset nodeName children h)

theorem mapPlaceds_delete (offset : ℕ) (nodeName : JsString) : ∀ nodes : List XmlNode,
    (∀ placed ∈ blockTexts offset (.element nodeName nodes), Undivided start length placed) →
      mapPlaceds (rangeEdit start length XmlText.delete) offset nodes =
        mapPlaceds (outsideRange start length) offset nodes
  | [], _ => rfl
  | child :: children, h => by
    rw [blockTexts_cons, List.forall_mem_append] at h
    rw [mapPlaceds, mapPlaceds, mapPlaced_delete offset child h.1,
      mapPlaceds_delete _ nodeName children h.2]

end

mutual

theorem length_extractInlineText_delete (offset : ℕ) : ∀ node : XmlNode,
    (∀ content ∈ node.texts, content.Plain) →
      (extractInlineText (mapPlaced (rangeEdit start length XmlText.delete) offset node)).length =
        (keepOutside start length offset (extractInlineText node)).length
  | .text content, h => by
    have hplain := h content (.head _)
    rw [mapPlaced, extractInlineText, (plain_rangeEdit_delete hplain _).length_toString,
      length_rangeEdit_delete, ← extractInlineText_outsideRange offset (.text content) h,
      mapPlaced, extractInlineText, (plain_outsideRange hplain _).length_toString]
  | .element _ children, h => length_extractInlineTexts_delete offset children h

theorem length_extractInlineTexts_delete (offset : ℕ) : ∀ nodes : List XmlNode,
    (∀ content ∈ textsOf nodes, content.Plain) →
      (extractInlineTexts
          (mapPlaceds (rangeEdit start length XmlText.delete) offset nodes)).length =
        (keepOutside start length offset (extractInlineTexts nodes)).length
  | [], _ => rfl
  | child :: children, h => by
    rw [textsOf, List.forall_mem_append] at h
    rw [mapPlaceds, extractInlineTexts, extractInlineTexts, keepOutside_append, List.length_append,
      List.length_append, length_extractInlineText_delete offset child h.1,
      length_extractInlineTexts_delete _ children h.2]

end

mutual

/-- A node shows what is outside the range exactly if no pair of its texts is divided. -/
theorem extractInlineText_delete_iff (offset : ℕ) : ∀ node : XmlNode,
    (∀ content ∈ node.texts, content.Plain) →
      (extractInlineText (mapPlaced (rangeEdit start length XmlText.delete) offset node) =
          keepOutside start length offset (extractInlineText node) ↔
        ∀ placed ∈ blockTexts offset node, Undivided start length placed)
  | .text content, h => by
    have hplain := h content (.head _)
    rw [blockTexts_text, List.forall_mem_singleton, ← rangeEdit_delete_iff,
      ← extractInlineText_outsideRange offset (.text content) h, mapPlaced, mapPlaced,
      extractInlineText, extractInlineText]
    exact (plain_rangeEdit_delete hplain _).toString_inj (plain_outsideRange hplain _)
  | .element nodeName children, h => extractInlineTexts_delete_iff offset nodeName children h

theorem extractInlineTexts_delete_iff (offset : ℕ) (nodeName : JsString) :
    ∀ nodes : List XmlNode, (∀ content ∈ textsOf nodes, content.Plain) →
      (extractInlineTexts (mapPlaceds (rangeEdit start length XmlText.delete) offset nodes) =
          keepOutside start length offset (extractInlineTexts nodes) ↔
        ∀ placed ∈ blockTexts offset (.element nodeName nodes), Undivided start length placed)
  | [], _ => iff_of_true rfl fun _ h => absurd h List.not_mem_nil
  | child :: children, h => by
    rw [textsOf, List.forall_mem_append] at h
    rw [blockTexts_cons, List.forall_mem_append, ← extractInlineText_delete_iff offset child h.1,
      ← extractInlineTexts_delete_iff _ nodeName children h.2, mapPlaceds, extractInlineTexts,
      extractInlineTexts, keepOutside_append]
    constructor
    · intro heq
      exact List.append_inj heq (length_extractInlineText_delete offset child h.1)
    · rintro ⟨hchild, hchildren⟩
      rw [hchild, hchildren]

end

end Texts

section Blocks

variable [XmlTextCalls]

def withoutRange (start length : ℤ) (fragment : XmlFragment) : XmlFragment :=
  mapBlocks (outsideRange start length) 0 fragment

/-- The fragment as a delete of a flat range leaves it, with all of its blocks. -/
def afterDelete (start length : ℤ) (fragment : XmlFragment) : XmlFragment :=
  mapBlocks (rangeEdit start length XmlText.delete) 0 fragment

/-- The ends of a range divide no pair of which a half is left. -/
def PairsWhole (start length : ℤ) (fragment : XmlFragment) : Prop :=
  ∀ placed ∈ placedTexts fragment, Undivided start length placed

def NoPairs (fragment : XmlFragment) : Prop :=
  ∀ content ∈ textsOf fragment, content.text.any isHighSurrogate = false

instance (fragment : XmlFragment) : Decidable (NoPairs fragment) :=
  inferInstanceAs (Decidable (∀ _ ∈ _, _))

def remainingTexts (start length : ℤ) (fragment : XmlFragment) : List JsString :=
  (blockStarts 0 fragment).zipWith
    (fun offset child => keepOutside start length offset (extractInlineText child)) fragment

def emptied (start length : ℤ) (fragment : XmlFragment) (i : ℕ) : Bool :=
  fragment[i]?.any XmlNode.isElement &&
    ((remainingTexts start length fragment)[i]?.any fun remaining =>
      remaining.isEmpty && fragment[i]?.any fun child =>
        decide (remaining.length < (extractInlineText child).length))

variable {start length : ℤ} {fragment : XmlFragment}

omit [XmlTextCalls] in
theorem Unformatted.plain (h : Unformatted fragment) {child : XmlNode} (hchild : child ∈ fragment)
    {content : XmlText} (hcontent : content ∈ child.texts) : content.Plain := by
  refine h content ?_
  clear h
  induction fragment with
  | nil => cases hchild
  | cons first rest ih =>
    rw [textsOf]
    rcases List.mem_cons.mp hchild with rfl | hrest
    · exact List.mem_append_left _ hcontent
    · exact List.mem_append_right _ (ih hrest)

theorem exists_blockStart {i : ℕ} {block : XmlNode} (hblock : fragment[i]? = some block) :
    ∃ offset, (blockStarts 0 fragment)[i]? = some offset := by
  have hlt := (List.getElem?_eq_some_iff.mp hblock).1
  exact ⟨_, List.getElem?_eq_getElem (by rwa [length_blockStarts])⟩

theorem mem_placedTexts_iff {placed : LinearXmlText × XmlText} :
    placed ∈ placedTexts fragment ↔ ∃ (i offset : ℕ) (block : XmlNode),
      (blockStarts 0 fragment)[i]? = some offset ∧ fragment[i]? = some block ∧
        placed ∈ blockTexts offset block := by
  have hall : ∀ (start : ℕ) (blocks : XmlFragment),
      placed ∈ (linearizeBlocks start blocks).flatten.zip (textsOf blocks) ↔
        ∃ (i offset : ℕ) (block : XmlNode), (blockStarts start blocks)[i]? = some offset ∧
          blocks[i]? = some block ∧ placed ∈ blockTexts offset block := by
    intro start blocks
    induction blocks generalizing start with
    | nil => simp [linearizeBlocks]
    | cons first rest ih =>
      rw [linearizeBlocks, List.flatten_cons, textsOf,
        List.zip_append (by rw [length_collectXmlText, length_texts]), collectXmlText_snd,
        List.mem_append, ih]
      constructor
      · rintro (h | ⟨i, offset, block, hoffset, hblock, h⟩)
        · exact ⟨0, start, first, rfl, rfl, h⟩
        · exact ⟨i + 1, offset, block, hoffset, hblock, h⟩
      · rintro ⟨i, offset, block, hoffset, hblock, h⟩
        cases i with
        | zero =>
          cases hoffset
          cases hblock
          exact .inl h
        | succ i => exact .inr ⟨i, offset, block, hoffset, hblock, h⟩
  exact hall 0 fragment

theorem pairsWhole_of_noPairs (h : NoPairs fragment) : PairsWhole start length fragment := by
  intro placed hplaced window _
  have hcontent : placed.2 ∈ textsOf fragment := by
    rw [← map_snd_placedTexts]
    exact List.mem_map_of_mem hplaced
  have hnone : ∀ p, dividesPair placed.2.text p = false := by
    intro p
    rw [dividesPair, Bool.and_eq_false_iff]
    refine .inr (Bool.eq_false_of_not_eq_true fun hany => ?_)
    obtain ⟨c, hc, hhigh⟩ := (Option.any_eq_true _ _).mp hany
    have := List.any_eq_false.mp (h placed.2 hcontent) c (List.mem_of_getElem? hc)
    exact this hhigh
  exact ⟨XmlText.split_of_not_dividesPair (hnone _),
    .inl (XmlText.split_of_not_dividesPair (hnone _))⟩

theorem afterDelete_of_pairsWhole (h : PairsWhole start length fragment) :
    afterDelete start length fragment = withoutRange start length fragment := by
  refine List.ext_getElem? fun i => ?_
  rw [afterDelete, withoutRange, getElem?_mapBlocks, getElem?_mapBlocks]
  cases hblock : fragment[i]? with
  | none => rfl
  | some block =>
    obtain ⟨offset, hoffset⟩ := exists_blockStart hblock
    rw [hoffset, Option.bind_some, Option.bind_some, Option.map_some, Option.map_some,
      mapPlaced_delete offset block fun placed hplaced =>
        h placed (mem_placedTexts_iff.mpr ⟨i, offset, block, hoffset, hblock, hplaced⟩)]

theorem Unformatted.getElem?_withoutRange (h : Unformatted fragment) (i : ℕ) :
    (withoutRange start length fragment)[i]?.map extractInlineText =
      (remainingTexts start length fragment)[i]? := by
  rw [withoutRange, getElem?_mapBlocks, remainingTexts, List.getElem?_zipWith]
  cases hstart : (blockStarts 0 fragment)[i]? with
  | none => rfl
  | some offset =>
    cases hchild : fragment[i]? with
    | none => rfl
    | some child =>
      refine congrArg some ?_
      exact extractInlineText_outsideRange offset child fun content hcontent =>
        h.plain (List.mem_of_getElem? hchild) hcontent

/-- Whatever pairs are divided, as much is left of the blocks as lies outside the range. -/
theorem Unformatted.length_afterDelete (h : Unformatted fragment) (i : ℕ) :
    (afterDelete start length fragment)[i]?.map (List.length ∘ extractInlineText) =
      (remainingTexts start length fragment)[i]?.map List.length := by
  rw [afterDelete, getElem?_mapBlocks, remainingTexts, List.getElem?_zipWith]
  cases hstart : (blockStarts 0 fragment)[i]? with
  | none => rfl
  | some offset =>
    cases hchild : fragment[i]? with
    | none => rfl
    | some child =>
      refine congrArg some ?_
      exact length_extractInlineText_delete offset child fun content hcontent =>
        h.plain (List.mem_of_getElem? hchild) hcontent

theorem Unformatted.pairsWhole_iff (h : Unformatted fragment) :
    PairsWhole start length fragment ↔ ∀ i : ℕ,
      (afterDelete start length fragment)[i]?.map extractInlineText =
        (remainingTexts start length fragment)[i]? := by
  have hblock : ∀ (i offset : ℕ) (block : XmlNode), (blockStarts 0 fragment)[i]? = some offset →
      fragment[i]? = some block →
        ((afterDelete start length fragment)[i]?.map extractInlineText =
          (remainingTexts start length fragment)[i]? ↔
            ∀ placed ∈ blockTexts offset block, Undivided start length placed) := by
    intro i offset block hoffset hblock
    rw [afterDelete, getElem?_mapBlocks, remainingTexts, List.getElem?_zipWith, hoffset, hblock]
    simp only [Option.bind_some, Option.map_some, Option.some.injEq]
    exact extractInlineText_delete_iff offset block fun content hcontent =>
      h.plain (List.mem_of_getElem? hblock) hcontent
  constructor
  · intro hwhole i
    cases hnode : fragment[i]? with
    | none =>
      rw [afterDelete, getElem?_mapBlocks, remainingTexts, List.getElem?_zipWith, hnode]
      cases (blockStarts 0 fragment)[i]? <;> rfl
    | some block =>
      obtain ⟨offset, hoffset⟩ := exists_blockStart hnode
      exact (hblock i offset block hoffset hnode).mpr fun placed hplaced =>
        hwhole placed (mem_placedTexts_iff.mpr ⟨i, offset, block, hoffset, hnode, hplaced⟩)
  · intro hall placed hplaced
    obtain ⟨i, offset, block, hoffset, hnode, hmem⟩ := mem_placedTexts_iff.mp hplaced
    exact (hblock i offset block hoffset hnode).mp (hall i) placed hmem

def affected (start length : ℤ) (fragment : XmlFragment) (i : ℕ) : Bool :=
  ((blockStarts 0 fragment)[i]?.bind fun offset => fragment[i]?.map fun child =>
    child.isElement &&
      decide ((keepOutside start length offset (extractInlineText child)).length <
        (extractInlineText child).length)).getD false

theorem affectedBlocks_eq :
    affectedBlocks start length fragment =
      (List.range fragment.length).filter (affected start length fragment) := by
  rw [affectedBlocks]
  refine List.filter_congr fun i _ => ?_
  rw [List.getElem?_zipWith, getElem?_linearizeBlocks, affected]
  cases hstart : (blockStarts 0 fragment)[i]? with
  | none => cases fragment[i]? <;> rfl
  | some offset =>
    cases fragment[i]? with
    | none => rfl
    | some child =>
      refine congrArg (child.isElement && ·) ?_
      rw [Bool.eq_iff_iff, any_overlap_collectXmlText, decide_eq_true_eq]
      refine ⟨length_keepOutside_lt, fun hlt => not_not.mp fun hout => hlt.ne ?_⟩
      rw [keepOutside_of_not_meets hout]

theorem deleteText_eq_filterMap :
    deleteText fragment start length =
      (keptIndices (fun i => affected start length fragment i &&
        (afterDelete start length fragment)[i]?.any blockIsEmpty) fragment.length).filterMap
          fun i => (afterDelete start length fragment)[i]? := by
  have hlength : (afterDelete start length fragment).length = fragment.length :=
    length_mapBlocks 0 fragment
  rw [deleteText, forEachXmlTextRange_eq, ← afterDelete, affectedBlocks_eq, ← hlength,
    pruneEmptyBlocks_eq]

theorem Unformatted.affected_and_empty (h : Unformatted fragment) (i : ℕ) :
    (affected start length fragment i &&
      (afterDelete start length fragment)[i]?.any blockIsEmpty) =
        emptied start length fragment i := by
  have hsize : ∀ l : JsString, l.isEmpty = decide (l.length = 0) := by
    intro l
    cases l <;> rfl
  have hempty : (afterDelete start length fragment)[i]?.any blockIsEmpty =
      (remainingTexts start length fragment)[i]?.any List.isEmpty := by
    have hleft : (afterDelete start length fragment)[i]?.any blockIsEmpty =
        ((afterDelete start length fragment)[i]?.map (List.length ∘ extractInlineText)).any
          fun n => decide (n = 0) := by
      rw [Option.any_map]
      exact congrArg (Option.any · _) (funext fun node => hsize _)
    rw [hleft, h.length_afterDelete, Option.any_map]
    exact congrArg (Option.any · _) (funext fun l => (hsize l).symm)
  rw [hempty, affected, emptied, remainingTexts, List.getElem?_zipWith]
  cases (blockStarts 0 fragment)[i]? with
  | none => simp
  | some offset =>
    cases fragment[i]? with
    | none => rfl
    | some child =>
      simp only [Option.bind_some, Option.map_some, Option.getD_some, Option.any_some]
      rw [Bool.and_assoc, Bool.and_comm (decide _)]

theorem Unformatted.deleteText_eq_filterMap (h : Unformatted fragment) :
    deleteText fragment start length =
      (keptIndices (emptied start length fragment) fragment.length).filterMap fun i =>
        (afterDelete start length fragment)[i]? := by
  rw [Meridian.deleteText_eq_filterMap, funext h.affected_and_empty]

theorem untouched {i offset : ℕ} {child : XmlNode} (hchild : fragment[i]? = some child)
    (hoffset : (blockStarts 0 fragment)[i]? = some offset)
    (hout : ¬ Meets start length offset (extractInlineText child).length)
    (h : Unformatted fragment) :
    emptied start length fragment i = false ∧
      (withoutRange start length fragment)[i]? = some child := by
  have hkeep := keepOutside_of_not_meets hout
  refine ⟨?_, ?_⟩
  · rw [emptied, remainingTexts, List.getElem?_zipWith, hchild, hoffset]
    simp [hkeep]
  · have hplain : ∀ content ∈ child.texts, content.Plain := fun content hcontent =>
      h.plain (List.mem_of_getElem? hchild) hcontent
    rw [withoutRange, getElem?_mapBlocks, hchild, hoffset, Option.bind_some, Option.map_some,
      mapPlaced_of_not_meets offset child hplain hout]

end Blocks

section Joined

theorem eq_of_intercalate_eq {α : Type*} {sep : List α} {l l' : List (List α)}
    (h : l.map List.length = l'.map List.length)
    (heq : sep.intercalate l = sep.intercalate l') : l = l' := by
  induction l generalizing l' with
  | nil => exact (List.map_eq_nil_iff.mp h.symm).symm
  | cons a l ih =>
    obtain ⟨b, l', rfl, hab, hrest⟩ := List.map_eq_cons_iff.mp h.symm
    cases l with
    | nil =>
      obtain rfl := List.map_eq_nil_iff.mp hrest
      simpa using heq
    | cons c l =>
      obtain ⟨d, l', rfl, -, -⟩ := List.map_eq_cons_iff.mp hrest
      rw [List.intercalate_cons_cons, List.intercalate_cons_cons, List.append_assoc,
        List.append_assoc] at heq
      obtain ⟨rfl, htail⟩ := List.append_inj heq hab.symm
      rw [ih hrest.symm (List.append_cancel_left htail)]

theorem eq_of_filterMap_eq {α β : Type*} {f g : α → Option β} {l : List α}
    (h : ∀ a ∈ l, (f a).isSome = true ∧ (g a).isSome = true)
    (heq : l.filterMap f = l.filterMap g) : ∀ a ∈ l, f a = g a := by
  induction l with
  | nil => simp
  | cons a l ih =>
    obtain ⟨⟨hf, hg⟩, hrest⟩ := List.forall_mem_cons.mp h
    obtain ⟨b, hb⟩ := Option.isSome_iff_exists.mp hf
    obtain ⟨c, hc⟩ := Option.isSome_iff_exists.mp hg
    rw [List.filterMap_cons_some hb, List.filterMap_cons_some hc, List.cons.injEq] at heq
    refine List.forall_mem_cons.mpr ⟨by rw [hb, hc, heq.1], ih hrest heq.2⟩

end Joined

section Deletes

variable [XmlTextCalls]

variable {fragment : XmlFragment} {start length : ℤ}

omit [XmlTextCalls] in
theorem mem_keptIndices_of_stays {goes : ℕ → Bool} {n i : ℕ} (hi : i < n) (h : goes i = false) :
    i ∈ keptIndices goes n := by
  have hmem : i ∈ (List.range n).filter fun i => !goes i :=
    List.mem_filter.mpr ⟨List.mem_range.mpr hi, by rw [h, Bool.not_false]⟩
  unfold keptIndices
  dsimp only
  rwa [if_neg fun hempty => List.ne_nil_of_mem hmem (List.isEmpty_iff.mp hempty)]

omit [XmlTextCalls] in
theorem lt_of_mem_keptIndices {goes : ℕ → Bool} {n i : ℕ} (h : i ∈ keptIndices goes n) :
    i < n := by
  unfold keptIndices at h
  dsimp only at h
  split at h
  · exact List.mem_range.mp (List.mem_of_getLast? (Option.mem_toList.mp h))
  · exact List.mem_range.mp (List.mem_of_mem_filter h)

/-- The flat text after a delete is what lies outside the range only if no pair is divided. -/
theorem Unformatted.pairsWhole_of_deleteText (h : Unformatted fragment)
    (heq : extractFragmentText (deleteText fragment start length) = blockSeparator.intercalate
      ((keptIndices (emptied start length fragment) fragment.length).filterMap fun i =>
        (remainingTexts start length fragment)[i]?)) : PairsWhole start length fragment := by
  rw [extractFragmentText, h.deleteText_eq_filterMap, List.map_filterMap] at heq
  have hlengths : ∀ i : ℕ, ((afterDelete start length fragment)[i]?.map extractInlineText).map
      List.length = (remainingTexts start length fragment)[i]?.map List.length := fun i => by
    rw [Option.map_map]
    exact h.length_afterDelete i
  have hsome : ∀ i ∈ keptIndices (emptied start length fragment) fragment.length,
      ((afterDelete start length fragment)[i]?.map extractInlineText).isSome = true ∧
        ((remainingTexts start length fragment)[i]?).isSome = true := by
    intro i hi
    have hlt : i < (afterDelete start length fragment).length := by
      rw [afterDelete, length_mapBlocks]
      exact lt_of_mem_keptIndices hi
    have hleft : ((afterDelete start length fragment)[i]?.map extractInlineText).isSome = true := by
      rw [List.getElem?_eq_getElem hlt]
      rfl
    refine ⟨hleft, ?_⟩
    have := congrArg Option.isSome (hlengths i)
    rw [Option.isSome_map, hleft, Option.isSome_map] at this
    exact this.symm
  have hkept := eq_of_filterMap_eq hsome (eq_of_intercalate_eq (by
    rw [List.map_filterMap, List.map_filterMap]
    exact List.filterMap_congr fun i _ => hlengths i) heq)
  refine h.pairsWhole_iff.mpr fun i => ?_
  by_cases hi : i ∈ keptIndices (emptied start length fragment) fragment.length
  · exact hkept i hi
  · -- of a block that goes nothing is left, so nothing in it can be divided
    rcases Nat.lt_or_ge i fragment.length with hlt | hge
    · have hemptied : emptied start length fragment i = true :=
        Bool.of_not_eq_false fun hstays => hi (mem_keptIndices_of_stays hlt hstays)
      have hlength := hlengths i
      rw [emptied, Bool.and_eq_true] at hemptied
      obtain ⟨remaining, hremaining, hnil⟩ := (Option.any_eq_true _ _).mp hemptied.2
      obtain rfl : remaining = [] := by simpa using (Bool.and_eq_true_iff.mp hnil).1
      rw [hremaining] at hlength ⊢
      obtain ⟨l, hl, hzero⟩ := Option.map_eq_some_iff.mp hlength
      rw [hl, List.length_eq_zero_iff.mp hzero]
    · have hnone : (afterDelete start length fragment)[i]? = none :=
        List.getElem?_eq_none (by rwa [afterDelete, length_mapBlocks])
      have hlength := hlengths i
      rw [hnone] at hlength ⊢
      exact (Option.map_eq_none_iff.mp hlength.symm).symm

/-- A delete takes the characters in its range out of the blocks and then the elements that it
has emptied, of all the last one excepted, and leaves every other block as it is, exactly if it
divides no pair. -/
theorem deleteText_eq_iff (h : Unformatted fragment) (start length : ℤ) :
    let kept := keptIndices (emptied start length fragment) fragment.length
    (extractFragmentText (deleteText fragment start length) =
        blockSeparator.intercalate
          (kept.filterMap fun i => (remainingTexts start length fragment)[i]?) ∧
      deleteText fragment start length =
        kept.filterMap (fun i => (withoutRange start length fragment)[i]?) ∧
      ∀ (i : ℕ) (child : XmlNode) (offset : ℕ), fragment[i]? = some child →
        (blockStarts 0 fragment)[i]? = some offset →
        ¬ Meets start length offset (extractInlineText child).length →
          i ∈ kept ∧ (withoutRange start length fragment)[i]? = some child) ↔
      PairsWhole start length fragment := by
  refine ⟨fun hall => h.pairsWhole_of_deleteText hall.1, fun hwhole => ?_⟩
  have hblocks : deleteText fragment start length = _ := h.deleteText_eq_filterMap
  rw [afterDelete_of_pairsWhole hwhole] at hblocks
  refine ⟨?_, hblocks, fun i child offset hchild hoffset hout => ?_⟩
  · rw [extractFragmentText, hblocks, List.map_filterMap]
    simp only [h.getElem?_withoutRange]
  · obtain ⟨hstays, hsame⟩ := untouched hchild hoffset hout h
    exact ⟨mem_keptIndices_of_stays (List.getElem?_eq_some_iff.mp hchild).1 hstays, hsame⟩

end Deletes

def nestedDocument : XmlFragment :=
  [.element (js "paragraph") [.text (.ofText (js "ab")),
      .element (js "bold") [.text (.ofText (js "cd"))]],
    .text (.ofText (js "ef")),
    .element (js "heading") [.text (.ofText (js "gh"))]]

/-- The heading goes, and the text at the root stays without a character. -/
theorem deleteText_nestedDocument :
    letI := itemTexts
    extractFragmentText (deleteText nestedDocument 1 11) = js "a\n\n" ∧
      deleteText nestedDocument 1 11 = (withoutRange 1 11 nestedDocument).take 2 := by
  have hplain : Unformatted nestedDocument := unformatted_of_all (by decide)
  obtain ⟨htext, hblocks, -⟩ := (@deleteText_eq_iff itemTexts _ hplain 1 11).mpr
    (@pairsWhole_of_noPairs itemTexts _ _ _ (by decide))
  exact ⟨htext.trans (by decide), hblocks.trans rfl⟩

/-- Of an emoji in front of a letter the first half is deleted, and the second is destroyed. -/
theorem deleteText_dividedPair :
    letI := itemTexts
    ¬ ∀ (fragment : XmlFragment) (start length : ℤ), Unformatted fragment → 0 ≤ length →
      extractFragmentText (deleteText fragment start length) = blockSeparator.intercalate
        ((keptIndices (emptied start length fragment) fragment.length).filterMap fun i =>
          (remainingTexts start length fragment)[i]?) := by
  intro h
  have htext := h [.element (js "paragraph") [.text (.ofText [0xd83d, 0xde00, 0x62])]] 0 1
    (unformatted_of_all (by decide)) (by decide)
  exact absurd htext (by decide)

end Meridian
