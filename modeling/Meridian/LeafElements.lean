import Meridian.RichDeletes

/-! What a delete takes from a rich document besides characters. Whether a block goes is told by
its text alone, so a block goes also with the elements in it that never hold a text, an image or
a hard break. -/
namespace Meridian

mutual

/-- The names of the elements without children under a node, in order. -/
def leafElements : XmlNode → List JsString
  | .text _ => []
  | .element nodeName children =>
    if children.isEmpty then [nodeName] else leafElementsOf children

def leafElementsOf : List XmlNode → List JsString
  | [] => []
  | child :: children => leafElements child ++ leafElementsOf children

end

section Losing

variable [XmlTextCalls]

abbrev InRange (start length : ℤ) (p : ℕ) : Prop := start ≤ p ∧ (p : ℤ) < start + length

/-- Some characters of a text at an offset go, and all of them are shown in the range. -/
def Loses (start length : ℤ) (offset : ℕ) (content remaining : XmlText) : Prop :=
  ∃ gone : ℕ → Bool,
    remaining.chars = (content.chars.zipIdx.filter fun c => !gone c.2).map Prod.fst ∧
      ∀ k j : ℕ, gone k = true → content.shown[k]? = some j → InRange start length (offset + j)

/-- A block that starts at an offset becomes another by a change of its texts alone, from which
only characters go that are shown in the range. -/
def LosesText (start length : ℤ) (offset : ℕ) (block changed : XmlNode) : Prop :=
  ∃ f : LinearXmlText → XmlText → XmlText, changed = mapPlaced f offset block ∧
    ∀ placed ∈ blockTexts offset block,
      Loses start length placed.1.start placed.2 (f placed.1 placed.2)

/-- All characters of a block are shown in the range, and it holds nothing but texts and the
elements around them. -/
def HoldsOnlyText (start length : ℤ) (offset : ℕ) (block : XmlNode) : Prop :=
  block.isElement = true ∧ leafElements block = [] ∧
    ∀ placed ∈ blockTexts offset block, ∀ j ∈ placed.2.shown,
      InRange start length (placed.1.start + j)

/-- From one fragment to another nothing goes but characters in a flat range and blocks of which
these were everything. -/
structure OnlyTextGoes (start length : ℤ) (fragment result : XmlFragment) : Prop where
  /-- no element goes that holds something else than text -/
  elements : leafElementsOf result = leafElementsOf fragment
  blocks : ∃ kept : List ℕ, kept.Sublist (List.range fragment.length) ∧
    List.Forall₂ (fun i changed => ∃ (offset : ℕ) (block : XmlNode),
      (blockStarts 0 fragment)[i]? = some offset ∧ fragment[i]? = some block ∧
        LosesText start length offset block changed) kept result ∧
    ∀ (i offset : ℕ) (block : XmlNode), i ∉ kept → (blockStarts 0 fragment)[i]? = some offset →
      fragment[i]? = some block → HoldsOnlyText start length offset block

/-- A block is an element with a character, and the numbers of all its characters, counted in
each text from its start on, lie in the range. -/
def covered (start length : ℤ) (fragment : XmlFragment) (i : ℕ) : Bool :=
  ((blockStarts 0 fragment)[i]?.bind fun offset => fragment[i]?.map fun block =>
    block.isElement && (blockTexts offset block).any (fun placed => !placed.2.chars.isEmpty) &&
      (blockTexts offset block).all fun placed =>
        (List.range placed.2.chars.length).all fun k =>
          decide (InRange start length (placed.1.start + k))).getD false

/-- A block that holds more than text is not covered by the range, unless it is the last one and
all are. -/
def LeafBlocksStay (start length : ℤ) (fragment : XmlFragment) : Prop :=
  ∀ (i : ℕ) (block : XmlNode), i ∉ keptIndices (covered start length fragment) fragment.length →
    fragment[i]? = some block → leafElements block = []

/-- A character whose number lies in the range is also shown there. -/
def CharactersAddressed (start length : ℤ) (fragment : XmlFragment) : Prop :=
  ∀ placed ∈ placedTexts fragment, ∀ k j : ℕ, placed.2.shown[k]? = some j →
    InRange start length (placed.1.start + k) → InRange start length (placed.1.start + j)

end Losing

section Lists

variable {α β : Type*} {kept l : List α}

theorem flatMap_sublist_eq_iff {g : α → List β} (h : kept.Sublist l) (hnodup : l.Nodup) :
    kept.flatMap g = l.flatMap g ↔ ∀ a ∈ l, a ∉ kept → g a = [] := by
  induction h with
  | slnil => simp
  | @cons kept l a hsub ih =>
    obtain ⟨ha, hnodup⟩ := List.nodup_cons.mp hnodup
    have hkept : a ∉ kept := fun hmem => ha (hsub.subset hmem)
    rw [List.flatMap_cons, List.forall_mem_cons, ← ih hnodup]
    constructor
    · intro heq
      have hle := (hsub.flatMap g).length_le
      have hlength := congrArg List.length heq
      rw [List.length_append] at hlength
      have hnil : g a = [] := List.length_eq_zero_iff.mp (by omega)
      exact ⟨fun _ => hnil, by rwa [hnil, List.nil_append] at heq⟩
    · rintro ⟨hnil, heq⟩
      rw [hnil hkept, List.nil_append, heq]
  | @cons_cons kept l a hsub ih =>
    obtain ⟨ha, hnodup⟩ := List.nodup_cons.mp hnodup
    rw [List.flatMap_cons, List.flatMap_cons, List.append_cancel_left_eq, ih hnodup,
      List.forall_mem_cons]
    refine ⟨fun h => ⟨fun hnot => absurd (.head _) hnot, fun b hb hnot => h b hb ?_⟩,
      fun h b hb hnot => h.2 b hb ?_⟩
    · exact fun hmem => hnot (.tail _ hmem)
    · intro hmem
      rcases List.mem_cons.mp hmem with rfl | hmem
      · exact ha hb
      · exact hnot hmem

theorem forall₂_filterMap {g : α → Option β} {R : α → β → Prop}
    (h : ∀ a ∈ l, ∃ b, g a = some b ∧ R a b) : List.Forall₂ R l (l.filterMap g) := by
  induction l with
  | nil => exact .nil
  | cons a l ih =>
    rw [List.forall_mem_cons] at h
    obtain ⟨⟨b, hb, hR⟩, hrest⟩ := h
    rw [List.filterMap_cons_some hb]
    exact .cons hR (ih hrest)

theorem keepOutside_eq_filter (start length : ℤ) (offset : ℕ) (l : List α) :
    keepOutside start length offset l =
      (l.zipIdx.filter fun c => !decide (InRange start length (offset + c.2))).map Prod.fst := by
  have hgo : ∀ k, keepOutside start length (offset + k) l =
      ((l.zipIdx k).filter fun c => !decide (InRange start length (offset + c.2))).map
        Prod.fst := by
    induction l with
    | nil => exact fun _ => rfl
    | cons c l ih =>
      intro k
      rw [keepOutside, List.zipIdx_cons, List.filter_cons, Nat.add_assoc, ih (k + 1)]
      by_cases hin : InRange start length (offset + k)
      · rw [if_pos hin, decide_eq_true hin]
        rfl
      · rw [if_neg hin, decide_eq_false hin]
        rfl
  exact hgo 0

end Lists

section Trees

variable [XmlTextCalls]

variable {start length : ℤ} {f : LinearXmlText → XmlText → XmlText}

theorem mapPlaceds_isEmpty (offset : ℕ) (nodes : List XmlNode) :
    (mapPlaceds f offset nodes).isEmpty = nodes.isEmpty := by
  cases nodes <;> rfl

mutual

theorem leafElements_mapPlaced (offset : ℕ) : ∀ node,
    leafElements (mapPlaced f offset node) = leafElements node
  | .text _ => rfl
  | .element nodeName children => by
    rw [mapPlaced, leafElements, leafElements, mapPlaceds_isEmpty,
      leafElementsOf_mapPlaceds offset children]

theorem leafElementsOf_mapPlaceds (offset : ℕ) : ∀ nodes,
    leafElementsOf (mapPlaceds f offset nodes) = leafElementsOf nodes
  | [] => rfl
  | child :: children => by
    rw [mapPlaceds, leafElementsOf, leafElementsOf, leafElements_mapPlaced offset child,
      leafElementsOf_mapPlaceds _ children]

end

theorem toString_eq_nil {content : XmlText} : content.toString = [] ↔ content.chars = [] := by
  constructor
  · intro h
    have hle := content.length_le_toString
    rw [h] at hle
    exact List.length_eq_zero_iff.mp (Nat.le_zero.mp hle)
  · intro h
    have hplain : content.Plain := by
      intro c hc
      rw [h] at hc
      cases hc
    rw [hplain.eq_ofText, XmlText.toString_ofText, XmlText.text, h]
    rfl

omit [XmlTextCalls] in
theorem keepOutside_eq_nil {α : Type*} {offset : ℕ} (l : List α) :
    keepOutside start length offset l = [] ↔
      ∀ k < l.length, InRange start length (offset + k) := by
  induction l generalizing offset with
  | nil => simp [keepOutside]
  | cons c l ih =>
    have hsplit : (∀ k < (c :: l).length, InRange start length (offset + k)) ↔
        InRange start length offset ∧ ∀ k < l.length, InRange start length (offset + 1 + k) := by
      rw [List.length_cons, Nat.forall_lt_succ_left']
      simp only [Nat.add_zero, Nat.add_right_comm, Nat.add_assoc]
    rw [hsplit, ← ih, keepOutside]
    by_cases hin : InRange start length offset
    · rw [if_pos hin]
      exact (and_iff_right hin).symm
    · rw [if_neg hin]
      exact iff_of_false (List.cons_ne_nil _ _) fun h => hin h.1

mutual

theorem extractInlineText_eq_nil (offset : ℕ) : ∀ node,
    extractInlineText node = [] ↔ ∀ placed ∈ blockTexts offset node, placed.2.chars = []
  | .text content => by
    rw [extractInlineText, toString_eq_nil, blockTexts_text, List.forall_mem_singleton]
  | .element nodeName children => extractInlineTexts_eq_nil offset nodeName children

theorem extractInlineTexts_eq_nil (offset : ℕ) (nodeName : JsString) : ∀ nodes,
    extractInlineTexts nodes = [] ↔
      ∀ placed ∈ blockTexts offset (.element nodeName nodes), placed.2.chars = []
  | [] => iff_of_true rfl fun _ h => absurd h List.not_mem_nil
  | child :: children => by
    rw [blockTexts_cons, List.forall_mem_append, extractInlineTexts, List.append_eq_nil_iff,
      extractInlineText_eq_nil offset child, extractInlineTexts_eq_nil _ nodeName children]

end

mutual

theorem extractInlineText_delete_eq_nil (offset : ℕ) : ∀ node,
    extractInlineText (mapPlaced (rangeEdit start length XmlText.delete) offset node) = [] ↔
      ∀ placed ∈ blockTexts offset node, ∀ k < placed.2.chars.length,
        InRange start length (placed.1.start + k)
  | .text content => by
    rw [mapPlaced, extractInlineText, toString_eq_nil, ← List.length_eq_zero_iff,
      length_rangeEdit_delete, List.length_eq_zero_iff, outsideRange, keepOutside_eq_nil,
      blockTexts_text, List.forall_mem_singleton]
  | .element nodeName children => extractInlineTexts_delete_eq_nil offset nodeName children

theorem extractInlineTexts_delete_eq_nil (offset : ℕ) (nodeName : JsString) : ∀ nodes,
    extractInlineTexts (mapPlaceds (rangeEdit start length XmlText.delete) offset nodes) = [] ↔
      ∀ placed ∈ blockTexts offset (.element nodeName nodes), ∀ k < placed.2.chars.length,
        InRange start length (placed.1.start + k)
  | [] => iff_of_true rfl fun _ h => absurd h List.not_mem_nil
  | child :: children => by
    rw [blockTexts_cons, List.forall_mem_append, mapPlaceds, extractInlineTexts,
      List.append_eq_nil_iff, extractInlineText_delete_eq_nil offset child,
      extractInlineTexts_delete_eq_nil _ nodeName children]

end

mutual

theorem blockTexts_le (offset : ℕ) : ∀ node, ∀ placed ∈ blockTexts offset node,
    offset ≤ placed.1.start ∧
      placed.1.start + placed.2.chars.length ≤ offset + (extractInlineText node).length
  | .text content, placed, h => by
    obtain rfl := List.mem_singleton.mp h
    exact ⟨le_rfl, Nat.add_le_add_left content.length_le_toString _⟩
  | .element nodeName children, placed, h => blockTextsOf_le offset nodeName children placed h

theorem blockTextsOf_le (offset : ℕ) (nodeName : JsString) : ∀ nodes,
    ∀ placed ∈ blockTexts offset (.element nodeName nodes),
      offset ≤ placed.1.start ∧
        placed.1.start + placed.2.chars.length ≤ offset + (extractInlineTexts nodes).length
  | [], _, h => absurd h List.not_mem_nil
  | child :: children, placed, h => by
    rw [blockTexts_cons, List.mem_append] at h
    rw [extractInlineTexts, List.length_append]
    rcases h with h | h
    · have := blockTexts_le offset child placed h
      omega
    · have := blockTextsOf_le _ nodeName children placed h
      omega

end

end Trees

section Blocks

variable [XmlTextCalls]

variable {start length : ℤ} {fragment : XmlFragment} {goes : ℕ → Bool} {n : ℕ}

omit [XmlTextCalls] in
theorem keptIndices_sublist : (keptIndices goes n).Sublist (List.range n) := by
  unfold keptIndices
  dsimp only
  split
  · cases hlast : (List.range n).getLast? with
    | none => exact List.nil_sublist _
    | some i => exact List.singleton_sublist.mpr (List.mem_of_getLast? hlast)
  · exact List.filter_sublist

omit [XmlTextCalls] in
theorem goes_of_not_mem_keptIndices {i : ℕ} (hi : i < n) (h : i ∉ keptIndices goes n) :
    goes i = true := by
  by_contra hstays
  have hmem : i ∈ (List.range n).filter fun j => !goes j :=
    List.mem_filter.mpr ⟨List.mem_range.mpr hi, by simpa using hstays⟩
  unfold keptIndices at h
  dsimp only at h
  rw [if_neg fun hempty => List.ne_nil_of_mem hmem (List.isEmpty_iff.mp hempty)] at h
  exact h hmem

theorem covered_eq_true {i offset : ℕ} {block : XmlNode}
    (hoffset : (blockStarts 0 fragment)[i]? = some offset) (hblock : fragment[i]? = some block) :
    covered start length fragment i = true ↔ block.isElement = true ∧
      (∃ placed ∈ blockTexts offset block, placed.2.chars ≠ []) ∧
      ∀ placed ∈ blockTexts offset block, ∀ k < placed.2.chars.length,
        InRange start length (placed.1.start + k) := by
  rw [covered, hoffset, hblock, Option.bind_some, Option.map_some, Option.getD_some,
    Bool.and_eq_true, Bool.and_eq_true, List.any_eq_true, List.all_eq_true, and_assoc]
  refine and_congr_right fun _ => and_congr ?_ ?_
  · simp only [Bool.not_eq_true', List.isEmpty_eq_false_iff]
  · refine forall₂_congr fun placed _ => ?_
    simp only [List.all_eq_true, List.mem_range, decide_eq_true_eq]

theorem affected_eq_true {i offset : ℕ} {block : XmlNode}
    (hoffset : (blockStarts 0 fragment)[i]? = some offset) (hblock : fragment[i]? = some block) :
    affected start length fragment i = true ↔
      block.isElement = true ∧ Meets start length offset (extractInlineText block).length := by
  rw [affected, hoffset, hblock, Option.bind_some, Option.map_some, Option.getD_some,
    Bool.and_eq_true, decide_eq_true_eq]
  refine and_congr_right fun _ => ⟨fun hlt => not_not.mp fun hout => hlt.ne ?_,
    length_keepOutside_lt⟩
  rw [keepOutside_of_not_meets hout]

/-- A block goes, unless it is the last one and all would, exactly if it is covered. -/
theorem affected_and_empty :
    (fun i => affected start length fragment i &&
      (afterDelete start length fragment)[i]?.any blockIsEmpty) =
        covered start length fragment := by
  funext i
  cases hoffset : (blockStarts 0 fragment)[i]? with
  | none =>
    rw [affected, covered, hoffset]
    rfl
  | some offset =>
    cases hblock : fragment[i]? with
    | none =>
      rw [affected, covered, hoffset, hblock]
      rfl
    | some block =>
      have hempty : (afterDelete start length fragment)[i]?.any blockIsEmpty = true ↔
          ∀ placed ∈ blockTexts offset block, ∀ k < placed.2.chars.length,
            InRange start length (placed.1.start + k) := by
        rw [afterDelete, getElem?_mapBlocks, hoffset, hblock, Option.bind_some, Option.map_some,
          Option.any_some, blockIsEmpty, List.isEmpty_iff, extractInlineText_delete_eq_nil]
      rw [Bool.eq_iff_iff, Bool.and_eq_true, affected_eq_true hoffset hblock, hempty,
        covered_eq_true hoffset hblock, and_assoc]
      refine and_congr_right fun _ => and_congr_left fun hall => ?_
      constructor
      · rintro ⟨j, hj, -⟩
        by_contra hnone
        push Not at hnone
        rw [(extractInlineText_eq_nil offset block).mpr hnone] at hj
        exact Nat.not_lt_zero j hj
      · rintro ⟨placed, hplaced, hchars⟩
        obtain ⟨hle, hstop⟩ := blockTexts_le offset block placed hplaced
        have hpos := List.length_pos_iff.mpr hchars
        refine ⟨placed.1.start - offset, by omega, ?_⟩
        rw [Nat.add_sub_cancel' hle]
        exact hall placed hplaced 0 hpos

theorem deleteText_eq_covered :
    deleteText fragment start length =
      (keptIndices (covered start length fragment) fragment.length).filterMap fun i =>
        (afterDelete start length fragment)[i]? := by
  rw [deleteText_eq_filterMap, affected_and_empty]

omit [XmlTextCalls] in
theorem leafElementsOf_filterMap (kept : List ℕ) (blocks : List XmlNode) :
    leafElementsOf (kept.filterMap fun i => blocks[i]?) =
      kept.flatMap fun i => (blocks[i]?.map leafElements).getD [] := by
  induction kept with
  | nil => rfl
  | cons i kept ih =>
    rw [List.filterMap_cons, List.flatMap_cons, ← ih]
    cases blocks[i]? <;> rfl

omit [XmlTextCalls] in
theorem leafElementsOf_eq_flatMap (blocks : List XmlNode) :
    leafElementsOf blocks =
      (List.range blocks.length).flatMap fun i => (blocks[i]?.map leafElements).getD [] := by
  induction blocks with
  | nil => rfl
  | cons block blocks ih =>
    rw [List.length_cons, List.range_succ_eq_map, List.flatMap_cons, List.flatMap_map,
      leafElementsOf, ih]
    rfl

/-- The elements that hold something else than text all stay exactly if no block with one goes. -/
theorem leafElementsOf_deleteText_iff :
    leafElementsOf (deleteText fragment start length) = leafElementsOf fragment ↔
      LeafBlocksStay start length fragment := by
  have hsame (i : ℕ) : ((afterDelete start length fragment)[i]?.map leafElements).getD [] =
      (fragment[i]?.map leafElements).getD [] := by
    rw [afterDelete, getElem?_mapBlocks]
    cases hblock : fragment[i]? with
    | none => cases (blockStarts 0 fragment)[i]? <;> rfl
    | some block =>
      obtain ⟨offset, hoffset⟩ := exists_blockStart hblock
      rw [hoffset, Option.bind_some, Option.map_some, Option.map_some, leafElements_mapPlaced]
      rfl
  rw [deleteText_eq_covered, leafElementsOf_filterMap, leafElementsOf_eq_flatMap fragment]
  simp only [hsame]
  rw [flatMap_sublist_eq_iff keptIndices_sublist List.nodup_range, LeafBlocksStay]
  constructor
  · intro h i block hi hblock
    have := h i (List.mem_range.mpr (List.getElem?_eq_some_iff.mp hblock).1) hi
    rwa [hblock] at this
  · intro h i hi hgoes
    have hlt := List.mem_range.mp hi
    rw [List.getElem?_eq_getElem hlt]
    exact h i _ hgoes (List.getElem?_eq_getElem hlt)

theorem loses_outsideRange {content : XmlText} {node : LinearXmlText}
    (h : ∀ k j : ℕ, content.shown[k]? = some j → InRange start length (node.start + k) →
      InRange start length (node.start + j)) :
    Loses start length node.start content (outsideRange start length node content) := by
  refine ⟨fun k => decide (InRange start length (node.start + k)), ?_, fun k j hgone hj =>
    h k j hj (of_decide_eq_true hgone)⟩
  rw [← keepOutside_eq_filter]
  rfl

theorem Unformatted.charactersAddressed (h : Unformatted fragment) :
    CharactersAddressed start length fragment := by
  intro placed hplaced k j hj hin
  obtain ⟨rfl, -, -⟩ := shown_eq_of_plain hplaced (unformatted_iff.mp h placed hplaced) hj
  exact hin

/-- A delete takes nothing but text, if every character has its number for its place and no pair is
divided, exactly if no block goes that holds more than text. -/
theorem onlyTextGoes_deleteText (fragment : XmlFragment) (start length : ℤ) :
    (OnlyTextGoes start length fragment (deleteText fragment start length) →
      LeafBlocksStay start length fragment) ∧
    (CharactersAddressed start length fragment → PairsWhole start length fragment →
      LeafBlocksStay start length fragment →
        OnlyTextGoes start length fragment (deleteText fragment start length)) := by
  refine ⟨fun h => leafElementsOf_deleteText_iff.mp h.elements, fun haddressed hwhole hstay =>
    ⟨leafElementsOf_deleteText_iff.mpr hstay,
      keptIndices (covered start length fragment) fragment.length, keptIndices_sublist, ?_, ?_⟩⟩
  · rw [deleteText_eq_covered, afterDelete_of_pairsWhole hwhole]
    refine forall₂_filterMap fun i hi => ?_
    have hlt := List.mem_range.mp (keptIndices_sublist.subset hi)
    have hblock := List.getElem?_eq_getElem hlt
    obtain ⟨offset, hoffset⟩ := exists_blockStart hblock
    refine ⟨mapPlaced (outsideRange start length) offset fragment[i], ?_, offset, fragment[i],
      hoffset, hblock, outsideRange start length, rfl, fun placed hplaced => ?_⟩
    · rw [withoutRange, getElem?_mapBlocks, hoffset, hblock]
      rfl
    · exact loses_outsideRange (haddressed placed
        (mem_placedTexts_iff.mpr ⟨i, offset, _, hoffset, hblock, hplaced⟩))
  · intro i offset block hgoes hoffset hblock
    have hlt := (List.getElem?_eq_some_iff.mp hblock).1
    obtain ⟨helement, -, hall⟩ :=
      (covered_eq_true hoffset hblock).mp (goes_of_not_mem_keptIndices hlt hgoes)
    refine ⟨helement, hstay i block hgoes hblock, fun placed hplaced j hj => ?_⟩
    obtain ⟨k, hk⟩ := List.getElem?_of_mem hj
    exact haddressed placed (mem_placedTexts_iff.mpr ⟨i, offset, _, hoffset, hblock, hplaced⟩) k j
      hk (hall placed hplaced k (placed.2.shown_room hk).1)

end Blocks

def imageDocument : XmlFragment :=
  [.element (js "paragraph") [.text (.ofText (js "a")), .element (js "image") []],
    .element (js "paragraph") [.text (.ofText (js "b"))]]

/-- With its only character the first paragraph goes, and the image in it. -/
theorem onlyTextGoes_fails :
    letI := itemTexts
    ¬ OnlyTextGoes 0 1 imageDocument (deleteText imageDocument 0 1) := by
  intro h
  have hlost : leafElementsOf (@deleteText itemTexts imageDocument 0 1) ≠
      leafElementsOf imageDocument := by
    decide
  exact hlost (@OnlyTextGoes.elements itemTexts _ _ _ _ h)

/-- A delete of the other paragraph takes nothing but its text. -/
theorem onlyTextGoes_imageDocument :
    letI := itemTexts
    OnlyTextGoes 4 1 imageDocument (deleteText imageDocument 4 1) := by
  have hplain : Unformatted imageDocument := unformatted_of_all (by decide)
  refine (@onlyTextGoes_deleteText itemTexts imageDocument 4 1).2
    (@Unformatted.charactersAddressed itemTexts _ _ _ hplain)
    (@pairsWhole_of_noPairs itemTexts _ _ _ (by decide)) ?_
  rw [← @leafElementsOf_deleteText_iff itemTexts]
  decide

end Meridian
