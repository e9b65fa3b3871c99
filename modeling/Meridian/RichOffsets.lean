import Meridian.FormattedText

/-! Edits of a rich document by offset. The service lists the texts with their ranges and changes
them by their number in the list; along the tree this is a walk that carries the offset at which
every node starts. -/
namespace Meridian

section Walks

variable [XmlTextCalls]

mutual

/-- Change every text under a node, given the range that it is listed with. -/
def mapPlaced (f : LinearXmlText → XmlText → XmlText) : ℕ → XmlNode → XmlNode
  | offset, .text content => .text (f ⟨offset, offset + content.toString.length⟩ content)
  | offset, .element nodeName children => .element nodeName (mapPlaceds f offset children)

def mapPlaceds (f : LinearXmlText → XmlText → XmlText) : ℕ → List XmlNode → List XmlNode
  | _, [] => []
  | offset, child :: children =>
    mapPlaced f offset child :: mapPlaceds f (offset + (extractInlineText child).length) children

end

def mapBlocks (f : LinearXmlText → XmlText → XmlText) : ℕ → XmlFragment → XmlFragment
  | _, [] => []
  | offset, child :: children => mapPlaced f offset child ::
      mapBlocks f (offset + (extractInlineText child).length + blockSeparator.length) children

def blockStarts : ℕ → XmlFragment → List ℕ
  | _, [] => []
  | offset, child :: children => offset ::
      blockStarts (offset + (extractInlineText child).length + blockSeparator.length) children

def rangeEdit (start length : ℤ) (callback : XmlText → ℕ → ℕ → XmlText) (node : LinearXmlText)
    (content : XmlText) : XmlText :=
  match overlap start length node with
  | some window => callback content window.1 window.2
  | none => content

variable {f : LinearXmlText → XmlText → XmlText} {g : ℕ → XmlText → XmlText}
  {nodes : List LinearXmlText}

mutual

theorem length_collectXmlText (offset : ℕ) :
    ∀ node, (collectXmlText node offset).1.length = textCount node
  | .text _ => rfl
  | .element _ children => length_collectXmlTexts offset children

theorem length_collectXmlTexts (offset : ℕ) :
    ∀ nodes, (collectXmlTexts nodes offset).1.length = textCounts nodes
  | [] => rfl
  | child :: children => by
    rw [collectXmlTexts, textCounts, List.length_append, length_collectXmlText offset child,
      length_collectXmlTexts _ children]

end

omit [XmlTextCalls] in
theorem prefix_drop_append {first rest : List LinearXmlText} {i : ℕ}
    (h : first ++ rest <+: nodes.drop i) :
    first <+: nodes.drop i ∧ rest <+: nodes.drop (i + first.length) := by
  obtain ⟨after, h⟩ := h
  refine ⟨⟨rest ++ after, by rw [← List.append_assoc, h]⟩, ⟨after, ?_⟩⟩
  rw [← List.drop_drop, ← h, List.append_assoc, List.drop_left]

mutual

theorem mapText_eq_mapPlaced (hg : ∀ j node, nodes[j]? = some node → g j = f node) (offset i : ℕ) :
    ∀ node, (collectXmlText node offset).1 <+: nodes.drop i →
      mapText g node i = (mapPlaced f offset node, i + textCount node)
  | .text content, h => by
    obtain ⟨after, h⟩ := h
    have hnode : nodes[i]? = some ⟨offset, offset + content.toString.length⟩ := by
      rw [← Nat.add_zero i, ← List.getElem?_drop, ← h]
      rfl
    rw [mapText, hg i _ hnode]
    rfl
  | .element nodeName children, h => by
    rw [mapText, mapTexts_eq_mapPlaceds hg offset i children h]
    rfl

theorem mapTexts_eq_mapPlaceds (hg : ∀ j node, nodes[j]? = some node → g j = f node)
    (offset i : ℕ) :
    ∀ children, (collectXmlTexts children offset).1 <+: nodes.drop i →
      mapTexts g children i = (mapPlaceds f offset children, i + textCounts children)
  | [], _ => rfl
  | child :: children, h => by
    rw [collectXmlTexts, collectXmlText_snd] at h
    obtain ⟨hchild, hchildren⟩ := prefix_drop_append h
    rw [length_collectXmlText] at hchildren
    rw [mapTexts, mapText_eq_mapPlaced hg offset i child hchild]
    simp only
    rw [mapTexts_eq_mapPlaceds hg _ _ children hchildren, mapPlaceds, textCounts, Nat.add_assoc]

end

theorem mapTexts_eq_mapBlocks (hg : ∀ j node, nodes[j]? = some node → g j = f node)
    (offset i : ℕ) (fragment : XmlFragment)
    (h : (linearizeBlocks offset fragment).flatten <+: nodes.drop i) :
    (mapTexts g fragment i).1 = mapBlocks f offset fragment := by
  induction fragment generalizing offset i with
  | nil => rfl
  | cons child children ih =>
    rw [linearizeBlocks, List.flatten_cons, collectXmlText_snd] at h
    obtain ⟨hchild, hchildren⟩ := prefix_drop_append h
    rw [length_collectXmlText] at hchildren
    rw [mapTexts, mapText_eq_mapPlaced hg offset i child hchild, mapBlocks]
    exact congrArg _ (ih _ _ hchildren)

theorem mapTexts_linearizeXmlText {fragment : XmlFragment}
    (hg : ∀ j node, (linearizeXmlText fragment)[j]? = some node → g j = f node) :
    (mapTexts g fragment 0).1 = mapBlocks f 0 fragment :=
  mapTexts_eq_mapBlocks hg 0 0 fragment (List.prefix_refl _)

theorem forEachXmlTextRange_eq (start length : ℤ) (callback : XmlText → ℕ → ℕ → XmlText)
    (fragment : XmlFragment) :
    forEachXmlTextRange start length callback fragment =
      mapBlocks (rangeEdit start length callback) 0 fragment := by
  refine mapTexts_linearizeXmlText fun j node hnode => ?_
  funext content
  simp only [hnode, Option.bind_some, rangeEdit]
  cases overlap start length node <;> rfl

@[simp] theorem length_mapBlocks (offset : ℕ) (fragment : XmlFragment) :
    (mapBlocks f offset fragment).length = fragment.length := by
  induction fragment generalizing offset with
  | nil => rfl
  | cons child children ih => simp [mapBlocks, ih]

@[simp] theorem length_blockStarts (offset : ℕ) (fragment : XmlFragment) :
    (blockStarts offset fragment).length = fragment.length := by
  induction fragment generalizing offset with
  | nil => rfl
  | cons child children ih => simp [blockStarts, ih]

theorem getElem?_mapBlocks (offset : ℕ) (fragment : XmlFragment) (i : ℕ) :
    (mapBlocks f offset fragment)[i]? =
      (blockStarts offset fragment)[i]?.bind fun start =>
        fragment[i]?.map (mapPlaced f start) := by
  induction fragment generalizing offset i with
  | nil => rfl
  | cons child children ih =>
    cases i with
    | zero => rfl
    | succ i => exact ih _ i

theorem getElem?_linearizeBlocks (offset : ℕ) (fragment : XmlFragment) (i : ℕ) :
    (linearizeBlocks offset fragment)[i]? =
      (blockStarts offset fragment)[i]?.bind fun start =>
        fragment[i]?.map fun child => (collectXmlText child start).1 := by
  induction fragment generalizing offset i with
  | nil => rfl
  | cons child children ih =>
    cases i with
    | zero => rfl
    | succ i =>
      simp only [linearizeBlocks, blockStarts, List.getElem?_cons_succ]
      rw [← ih, collectXmlText_snd]

end Walks

section Places

variable {f : ℕ → XmlText → XmlText} {i : ℕ}

mutual

theorem mapText_of_id (i : ℕ) : ∀ node : XmlNode,
    (∀ j, i ≤ j → j < i + textCount node → ∀ content, f j content = content) →
      mapText f node i = (node, i + textCount node)
  | .text content, h => by
    rw [mapText, h i le_rfl (Nat.lt_succ_self i), textCount]
  | .element nodeName children, h => by
    rw [mapText, mapTexts_of_id i children h]
    rfl

theorem mapTexts_of_id (i : ℕ) : ∀ nodes : List XmlNode,
    (∀ j, i ≤ j → j < i + textCounts nodes → ∀ content, f j content = content) →
      mapTexts f nodes i = (nodes, i + textCounts nodes)
  | [], _ => rfl
  | child :: children, h => by
    rw [textCounts] at h
    rw [mapTexts, mapText_of_id i child fun j hi hj => h j hi (by omega)]
    simp only
    rw [mapTexts_of_id _ children fun j hi hj => h j (by omega) (by omega), textCounts,
      Nat.add_assoc]

end

mutual

theorem length_texts : ∀ node : XmlNode, node.texts.length = textCount node
  | .text _ => rfl
  | .element _ children => length_textsOf children

theorem length_textsOf : ∀ nodes : List XmlNode, (textsOf nodes).length = textCounts nodes
  | [] => rfl
  | child :: children => by
    rw [textsOf, textCounts, List.length_append, length_texts child, length_textsOf children]

end

theorem mapTexts_append (before after : List XmlNode)
    (h : ∀ j, i ≤ j → j < i + textCounts before → ∀ content, f j content = content) :
    (mapTexts f (before ++ after) i).1 =
      before ++ (mapTexts f after (i + textCounts before)).1 := by
  induction before generalizing i with
  | nil => rfl
  | cons node before ih =>
    rw [textCounts] at h
    rw [List.cons_append, mapTexts, mapText_of_id i node fun j hi hj => h j hi (by omega)]
    simp only
    rw [ih fun j hi hj => h j (by omega) (by omega), textCounts, Nat.add_assoc]
    rfl

variable [XmlTextCalls] {offset : ℕ} {segments : List JsString}

theorem insertBlocks_append (before after : List XmlNode) (k : ℕ) :
    insertBlocks offset segments (before ++ after) (textCounts before + k) =
      before ++ insertBlocks offset segments after k := by
  induction before with
  | nil => rw [textCounts, Nat.zero_add, List.nil_append, List.nil_append]
  | cons node before ih =>
    rw [List.cons_append, textCounts, insertBlocks, if_pos (by omega), Nat.add_assoc,
      Nat.add_sub_cancel_left, ih]
    rfl

end Places

end Meridian
