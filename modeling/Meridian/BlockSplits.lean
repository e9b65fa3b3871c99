import Meridian.EditorBlocks
import Meridian.ItemTexts

/-! Inserts with blank lines in a tree of any shape. The parent element of the text is split after
this text alone: what stands behind the text in the same element stays there, before the new
paragraphs. -/
namespace Meridian

open Splice

section Shown

variable [XmlTextCalls]

def textBefore (nodes : List XmlNode) (k : ℕ) : JsString :=
  ((textsOf nodes).take k).flatMap XmlText.toString

def textAt (nodes : List XmlNode) (k : ℕ) : JsString :=
  ((textsOf nodes)[k]?.getD ⟨[]⟩).toString

def textBehind (nodes : List XmlNode) (k : ℕ) : JsString :=
  ((textsOf nodes).drop (k + 1)).flatMap XmlText.toString

mutual

/-- The characters that stand behind a text in its own parent element. -/
def laterTextAt : XmlNode → ℕ → JsString
  | .text _, _ => []
  | .element _ children, k =>
    if isChild children k then textBehind children k else laterText children k

def laterText : List XmlNode → ℕ → JsString
  | [], _ => []
  | node :: siblings, k =>
    if textCount node ≤ k then laterText siblings (k - textCount node) else laterTextAt node k

end

end Shown

section Places

variable {node : XmlNode} {siblings : List XmlNode} {nodeName : JsString}
  {children : List XmlNode} {k : ℕ}

theorem isChild_behind (h : textCount node ≤ k) :
    isChild (node :: siblings) k = isChild siblings (k - textCount node) := by
  cases node with
  | text content =>
    obtain ⟨k, rfl⟩ := Nat.exists_eq_add_of_lt (Nat.lt_of_lt_of_le Nat.zero_lt_one h)
    rw [Nat.zero_add]
    rfl
  | element nodeName children => exact if_neg (not_lt.mpr h)

theorem isChild_element (h : k < textCounts children) :
    isChild (.element nodeName children :: siblings) k = false :=
  if_pos h

variable [XmlTextCalls]

mutual

theorem extractInlineText_eq_flatMap : ∀ node : XmlNode,
    extractInlineText node = node.texts.flatMap XmlText.toString
  | .text _ => (List.append_nil _).symm
  | .element _ children => extractInlineTexts_eq_flatMap children

theorem extractInlineTexts_eq_flatMap : ∀ nodes : List XmlNode,
    extractInlineTexts nodes = (textsOf nodes).flatMap XmlText.toString
  | [] => rfl
  | child :: children => by
    rw [extractInlineTexts, textsOf, List.flatMap_append, extractInlineText_eq_flatMap child,
      extractInlineTexts_eq_flatMap children]

end

theorem extractInlineTexts_append (before after : List XmlNode) :
    extractInlineTexts (before ++ after) =
      extractInlineTexts before ++ extractInlineTexts after := by
  induction before with
  | nil => rfl
  | cons node before ih =>
    rw [List.cons_append, extractInlineTexts, ih, extractInlineTexts, List.append_assoc]

theorem textBefore_behind (h : textCount node ≤ k) :
    textBefore (node :: siblings) k =
      extractInlineText node ++ textBefore siblings (k - textCount node) := by
  rw [textBefore, textsOf, List.take_append, length_texts,
    List.take_of_length_le (by rwa [length_texts]), List.flatMap_append,
    extractInlineText_eq_flatMap]
  rfl

theorem textAt_behind (h : textCount node ≤ k) :
    textAt (node :: siblings) k = textAt siblings (k - textCount node) := by
  rw [textAt, textsOf, List.getElem?_append_right (by rwa [length_texts]), length_texts]
  rfl

theorem textBehind_behind (h : textCount node ≤ k) :
    textBehind (node :: siblings) k = textBehind siblings (k - textCount node) := by
  rw [textBehind, textsOf, List.drop_append, length_texts,
    List.drop_of_length_le (by rw [length_texts]; omega), Nat.sub_add_comm h]
  rfl

theorem textBefore_element (h : k < textCounts children) :
    textBefore (.element nodeName children :: siblings) k = textBefore children k := by
  rw [textBefore, textsOf, XmlNode.texts,
    List.take_append_of_le_length (by rw [length_textsOf]; exact h.le)]
  rfl

theorem textAt_element (h : k < textCounts children) :
    textAt (.element nodeName children :: siblings) k = textAt children k := by
  rw [textAt, textsOf, XmlNode.texts, List.getElem?_append_left (by rwa [length_textsOf])]
  rfl

theorem textBehind_element (h : k < textCounts children) :
    textBehind (.element nodeName children :: siblings) k =
      textBehind children k ++ extractInlineTexts siblings := by
  rw [textBehind, textsOf, XmlNode.texts,
    List.drop_append_of_le_length (by rw [length_textsOf]; exact h), List.flatMap_append,
    ← extractInlineTexts_eq_flatMap]
  rfl

end Places

mutual

theorem texts_mapText (f : ℕ → XmlText → XmlText) (i : ℕ) : ∀ node,
    (mapText f node i).1.texts = node.texts.mapIdx (fun j => f (i + j)) ∧
      (mapText f node i).2 = i + textCount node
  | .text _ => ⟨rfl, rfl⟩
  | .element _ children => textsOf_mapTexts f i children

theorem textsOf_mapTexts (f : ℕ → XmlText → XmlText) (i : ℕ) : ∀ nodes,
    textsOf (mapTexts f nodes i).1 = (textsOf nodes).mapIdx (fun j => f (i + j)) ∧
      (mapTexts f nodes i).2 = i + textCounts nodes
  | [] => ⟨rfl, rfl⟩
  | child :: children => by
    obtain ⟨hchild, hnext⟩ := texts_mapText f i child
    obtain ⟨hchildren, hstop⟩ := textsOf_mapTexts f (i + textCount child) children
    rw [mapTexts]
    simp only [hnext]
    rw [textsOf, textsOf, List.mapIdx_append, hchild, hchildren, hstop, length_texts, textCounts]
    exact ⟨by simp only [Nat.add_comm, Nat.add_left_comm], Nat.add_assoc _ _ _⟩

end

theorem mapIdx_single {α : Type*} (g : α → α) {l : List α} {k : ℕ} {a : α} (h : l[k]? = some a) :
    l.mapIdx (fun j b => if j = k then g b else b) = l.take k ++ g a :: l.drop (k + 1) := by
  obtain ⟨hlt, rfl⟩ := List.getElem?_eq_some_iff.mp h
  have hset : l.take k ++ g l[k] :: l.drop (k + 1) = l.set k (g l[k]) := by
    rw [List.set_eq_take_append_cons_drop, if_pos hlt]
  rw [hset]
  refine List.ext_getElem? fun j => ?_
  rw [List.getElem?_mapIdx, List.getElem?_set]
  split
  · next hj => subst hj; simp [hlt]
  · next hj => cases l[j]? <;> simp [Ne.symm hj]

section Splits

variable [XmlTextCalls] {offset : ℕ} {first last : JsString} {middle : List JsString}

theorem extractInlineTexts_mapTexts (g : XmlText → XmlText) {nodes : List XmlNode} {k : ℕ}
    {content : XmlText} (h : (textsOf nodes)[k]? = some content) :
    extractInlineTexts (mapTexts (fun i c => if i = k then g c else c) nodes 0).1 =
      textBefore nodes k ++ (g content).toString ++ textBehind nodes k := by
  rw [extractInlineTexts_eq_flatMap, (textsOf_mapTexts _ 0 nodes).1]
  simp only [Nat.zero_add]
  rw [mapIdx_single g h, List.flatMap_append, List.flatMap_cons, textBefore, textBehind,
    List.append_assoc]

theorem extractInlineTexts_block (blocks : List (JsString × JsString)) :
    extractInlineTexts (blocks.map block) = (blocks.map Prod.snd).flatten := by
  induction blocks with
  | nil => rfl
  | cons b blocks ih =>
    rw [List.map_cons, extractInlineTexts, extractInlineText_block, ih]
    rfl

/-- The new paragraphs hold all segments but the first, and what was cut off. -/
theorem extractInlineTexts_newBlocks (content : JsString) :
    extractInlineTexts (newBlocks offset (first :: (middle ++ [last])) (.ofText content)) =
      middle.flatten ++ last ++ content.drop offset := by
  have hlast : (first :: (middle ++ [last])).getLastD [] = last := by
    rw [← List.cons_append, List.getLastD_concat]
  rw [newBlocks_ofText, extractInlineTexts_block, hlast]
  simp [Function.comp_def]

/-- The characters after an insert of several segments into a text: the new paragraphs stand behind
all texts of its parent element. -/
def SplitsAt (offset : ℕ) (first : JsString) (middle : List JsString) (last : JsString)
    (nodes : List XmlNode) (k : ℕ) (later : JsString) (result : List XmlNode) : Prop :=
  ∃ rest, textBehind nodes k = later ++ rest ∧
    extractInlineTexts result =
      textBefore nodes k ++ (XmlText.splitText (textAt nodes k) offset).take offset ++ first ++
        later ++ middle.flatten ++ last ++ (textAt nodes k).drop offset ++ rest

theorem exists_textAt {nodes : List XmlNode} {k : ℕ} (hk : k < textCounts nodes)
    (hplain : ∀ content ∈ textsOf nodes, content.Plain) :
    (textsOf nodes)[k]? = some (.ofText (textAt nodes k)) := by
  have hlt : k < (textsOf nodes).length := by rwa [length_textsOf]
  have hget := List.getElem?_eq_getElem hlt
  have hcontent := (hplain _ (List.getElem_mem hlt)).eq_ofText
  rw [textAt, hget, Option.getD_some, hcontent, XmlText.toString_ofText]

theorem splitsAt_parent {nodeName : JsString} {children : List XmlNode} {k : ℕ}
    (hk : k < textCounts children) (hchild : isChild children k = true)
    (hplain : ∀ content ∈ textsOf children, content.Plain) :
    SplitsAt offset first middle last children k (textBehind children k)
      (insertBlocksAt offset (first :: (middle ++ [last])) (.element nodeName children) k) := by
  have hcontent := exists_textAt hk hplain
  refine ⟨[], (List.append_nil _).symm, ?_⟩
  rw [insertBlocksAt, if_pos hchild, hcontent, Option.getD_some, extractInlineTexts,
    extractInlineText, extractInlineTexts_mapTexts _ hcontent, extractInlineTexts_newBlocks,
    cutText_ofText, XmlText.toString_ofText, List.headD_cons]
  simp only [List.append_assoc, List.append_nil]

theorem SplitsAt.element {nodeName : JsString} {children siblings result : List XmlNode} {k : ℕ}
    {later : JsString} (hk : k < textCounts children)
    (h : SplitsAt offset first middle last children k later result) :
    SplitsAt offset first middle last (.element nodeName children :: siblings) k later
      (result ++ siblings) := by
  obtain ⟨rest, hrest, htext⟩ := h
  refine ⟨rest ++ extractInlineTexts siblings, ?_, ?_⟩
  · rw [textBehind_element hk, hrest, List.append_assoc]
  · rw [extractInlineTexts_append, htext, textBefore_element hk, textAt_element hk]
    simp only [List.append_assoc]

theorem SplitsAt.behind {node : XmlNode} {siblings result : List XmlNode} {k : ℕ}
    {later : JsString} (hk : textCount node ≤ k)
    (h : SplitsAt offset first middle last siblings (k - textCount node) later result) :
    SplitsAt offset first middle last (node :: siblings) k later (node :: result) := by
  obtain ⟨rest, hrest, htext⟩ := h
  refine ⟨rest, ?_, ?_⟩
  · rw [textBehind_behind hk, hrest]
  · rw [extractInlineTexts, htext, textBefore_behind hk, textAt_behind hk]
    simp only [List.append_assoc]

mutual

/-- Wherever its text is in the tree, the split happens at the parent of the text. -/
theorem splitsAt_insertBlocksAt (siblings : List XmlNode) : ∀ (node : XmlNode) (k : ℕ),
    k < textCount node → isChild (node :: siblings) k = false →
      (∀ content ∈ node.texts, content.Plain) →
      SplitsAt offset first middle last (node :: siblings) k (laterTextAt node k)
        (insertBlocksAt offset (first :: (middle ++ [last])) node k ++ siblings)
  | .text _, k, hk, hchild, _ => by
    obtain rfl : k = 0 := Nat.lt_one_iff.mp hk
    exact absurd hchild Bool.false_ne_true.symm
  | .element nodeName children, k, hk, _, hplain => by
    refine SplitsAt.element hk ?_
    rw [laterTextAt]
    cases hparent : isChild children k with
    | true => exact splitsAt_parent hk hparent hplain
    | false =>
      rw [if_neg Bool.false_ne_true]
      obtain ⟨rest, hrest, htext⟩ := splitsAt_insertBlocks children k hk hparent hplain
      refine ⟨rest, hrest, ?_⟩
      rw [insertBlocksAt, hparent, if_neg Bool.false_ne_true, extractInlineTexts,
        extractInlineText, htext, extractInlineTexts, List.append_nil]

theorem splitsAt_insertBlocks : ∀ (nodes : List XmlNode) (k : ℕ),
    k < textCounts nodes → isChild nodes k = false →
      (∀ content ∈ textsOf nodes, content.Plain) →
      SplitsAt offset first middle last nodes k (laterText nodes k)
        (insertBlocks offset (first :: (middle ++ [last])) nodes k)
  | [], k, hk, _, _ => absurd hk (Nat.not_lt_zero k)
  | node :: siblings, k, hk, hchild, hplain => by
    rw [textsOf, List.forall_mem_append] at hplain
    rw [textCounts] at hk
    rw [laterText, insertBlocks]
    by_cases hbehind : textCount node ≤ k
    · rw [if_pos hbehind, if_pos hbehind]
      rw [isChild_behind hbehind] at hchild
      exact (splitsAt_insertBlocks siblings _ (by omega) hchild hplain.2).behind hbehind
    · rw [if_neg hbehind, if_neg hbehind]
      exact splitsAt_insertBlocksAt siblings node k (not_le.mp hbehind) hchild hplain.1

end

theorem extractInlineTexts_insertBlocks_root {segments : List JsString}
    (hsegments : blockSeparator.intercalate segments ≠ []) :
    ∀ (nodes : List XmlNode) (k : ℕ), isChild nodes k = true →
      (∀ content ∈ textsOf nodes, content.Plain) →
      extractInlineTexts (insertBlocks offset segments nodes k) =
        textBefore nodes k ++ insertAt (XmlText.splitText (textAt nodes k) offset) offset
          (blockSeparator.intercalate segments) ++ textBehind nodes k
  | [], k, hchild, _ => absurd hchild Bool.false_ne_true
  | node :: siblings, k, hchild, hplain => by
    rw [textsOf, List.forall_mem_append] at hplain
    rw [insertBlocks]
    by_cases hbehind : textCount node ≤ k
    · rw [isChild_behind hbehind] at hchild
      rw [if_pos hbehind, extractInlineTexts,
        extractInlineTexts_insertBlocks_root hsegments siblings _ hchild hplain.2,
        textBefore_behind hbehind, textAt_behind hbehind, textBehind_behind hbehind]
      simp only [List.append_assoc]
    · rw [if_neg hbehind]
      match node, hbehind, hchild, hplain with
      | .text content, hbehind, _, hplain =>
        obtain rfl : k = 0 := Nat.lt_one_iff.mp (not_le.mp hbehind)
        obtain ⟨shown, rfl⟩ : ∃ shown, content = .ofText shown :=
          ⟨_, (hplain.1 content (.head _)).eq_ofText⟩
        rw [insertBlocksAt, List.singleton_append, extractInlineTexts, extractInlineText,
          XmlText.insert_ofText hsegments, XmlText.toString_ofText, extractInlineTexts_eq_flatMap]
        simp [textBefore, textAt, textBehind, textsOf, XmlNode.texts]
      | .element nodeName children, hbehind, hchild, _ =>
        rw [isChild_element (not_le.mp hbehind)] at hchild
        exact absurd hchild Bool.false_ne_true

end Splits

theorem two_le_length_splitFrom {text : JsString} {segment : JsString} {newlines : ℕ}
    (h : blockSeparator <:+: List.replicate newlines newline ++ text) :
    2 ≤ (splitFrom segment newlines text).length := by
  induction text generalizing segment newlines with
  | nil =>
    rw [List.append_nil] at h
    have hmany : 2 ≤ newlines := by simpa using h.length_le
    rw [splitFrom, if_pos hmany]
    exact le_rfl
  | cons c text ih =>
    rw [splitFrom]
    split
    · next hc =>
      refine ih ?_
      rw [List.replicate_succ', List.append_assoc, List.singleton_append]
      rwa [hc] at h
    · next hc =>
      split
      · exact Nat.succ_le_succ (List.length_pos_iff.mpr (splitFrom_ne_nil _ _ _))
      · next hfew =>
        refine ih ?_
        have hsep : blockSeparator = [newline, newline] := rfl
        have hskip {l : JsString} (h : blockSeparator <:+: c :: l) : blockSeparator <:+: l := by
          refine (List.infix_cons_iff.mp h).resolve_left fun hstart => hc ?_
          rw [hsep, List.cons_prefix_cons] at hstart
          exact hstart.1.symm
        obtain rfl | rfl : newlines = 0 ∨ newlines = 1 := by omega
        · exact hskip h
        · refine (List.infix_cons_iff.mp h).elim (fun hstart => absurd ?_ hc) hskip
          have hstart : [newline, newline] <+: newline :: c :: text := hstart
          rw [List.cons_prefix_cons, List.cons_prefix_cons] at hstart
          exact hstart.2.1.symm

theorem exists_segments {text : JsString} (h : blockSeparator <:+: text) :
    ∃ first middle last, splitBlocks text = first :: (middle ++ [last]) := by
  have hmany : 2 ≤ (splitBlocks text).length := two_le_length_splitFrom (by simpa using h)
  obtain ⟨first, rest, hsplit⟩ := List.exists_cons_of_ne_nil (splitBlocks_ne_nil text)
  obtain rfl | ⟨middle, last, rfl⟩ := List.eq_nil_or_concat' rest
  · rw [hsplit] at hmany
    exact absurd hmany (Nat.not_succ_le_self 1)
  · exact ⟨first, middle, last, hsplit⟩

/-- An insert with a blank line that divides no surrogate pair loses nothing. At the root it is put
in at its position as it is. Anywhere else the old text before the position stays before the new
text, and behind the first segment stands what is left of the parent element; the other segments
follow, and then the rest of the divided text and all that stood behind the parent element. -/
theorem insertText_split [XmlTextCalls] {fragment : XmlFragment} (h : Unformatted fragment)
    {text : JsString} (hblank : blockSeparator <:+: text) (position : ℤ) {target : LinearXmlText}
    (htarget : (linearizeXmlText fragment)[targetIndex (linearizeXmlText fragment) position]? =
      some target)
    (hwhole : dividesPair (textAt fragment (targetIndex (linearizeXmlText fragment) position))
      (localOffset position target) = false) :
    let k := targetIndex (linearizeXmlText fragment) position
    let offset := localOffset position target
    let result := extractInlineTexts (insertText fragment position text)
    if isChild fragment k then
      result = textBefore fragment k ++ (textAt fragment k).take offset ++
        blockSeparator.intercalate (splitBlocks text) ++ (textAt fragment k).drop offset ++
          textBehind fragment k
    else ∃ first middle last rest, splitBlocks text = first :: (middle ++ [last]) ∧
      textBehind fragment k = laterText fragment k ++ rest ∧
      result = textBefore fragment k ++ (textAt fragment k).take offset ++ first ++
        laterText fragment k ++ middle.flatten ++ last ++ (textAt fragment k).drop offset ++
          rest := by
  intro k offset result
  obtain ⟨first, middle, last, hsplit⟩ := exists_segments hblank
  have hk : k < textCounts fragment := by
    rw [← length_textsOf, ← (shows_linearizeXmlText fragment).length_eq]
    exact (List.getElem?_eq_some_iff.mp htarget).1
  have hresult : result =
      extractInlineTexts (insertBlocks offset (splitBlocks text) fragment k) := by
    refine congrArg extractInlineTexts ?_
    rw [insertText_eq htarget, if_neg (by rw [hsplit]; simp)]
  have hkept : XmlText.splitText (textAt fragment k) offset = textAt fragment k :=
    XmlText.splitText_of_not_dividesPair hwhole
  split
  · next hchild =>
    have hsegments : blockSeparator.intercalate (splitBlocks text) ≠ [] := by
      rw [hsplit, List.intercalate_cons_of_ne_nil (by simp)]
      simp [blockSeparator, js]
    rw [hresult, extractInlineTexts_insertBlocks_root hsegments fragment k hchild h, hkept,
      insertAt]
    simp only [List.append_assoc]
  · next hchild =>
    obtain ⟨rest, hrest, htext⟩ :=
      @splitsAt_insertBlocks _ offset first last middle fragment k hk (by simpa using hchild) h
    exact ⟨first, middle, last, rest, hsplit, hrest, by rw [hresult, hsplit, htext, hkept]⟩

/-- The new segments all stand at the position, between the characters before it and those after
it. -/
def KeepsOrder [XmlTextCalls] (fragment : XmlFragment) (position : ℤ) (text : JsString) : Prop :=
  let k := targetIndex (linearizeXmlText fragment) position
  ∃ target inserted, (linearizeXmlText fragment)[k]? = some target ∧
    extractInlineTexts (insertText fragment position text) =
      textBefore fragment k ++ (textAt fragment k).take (localOffset position target) ++ inserted ++
        (textAt fragment k).drop (localOffset position target) ++ textBehind fragment k

def brokenLine : XmlFragment :=
  [.element (js "paragraph") [.text (.ofText (js "ab")), .element (js "hardBreak") [],
    .text (.ofText (js "cd"))]]

/-- The rest of the divided text comes to stand behind the text of the next line. -/
theorem keepsOrder_fails :
    letI := itemTexts
    ¬ KeepsOrder brokenLine 1 (js "X\n\nY") := by
  rintro ⟨target, inserted, htarget, htext⟩
  have hresult : @extractInlineTexts itemTexts
      (@insertText itemTexts brokenLine 1 (js "X\n\nY")) = js "aXcdYb" := by
    decide
  have hbehind : @textBehind itemTexts brokenLine
      (targetIndex (@linearizeXmlText itemTexts brokenLine) 1) = js "cd" := by decide
  rw [hresult, hbehind] at htext
  have hlast := congrArg List.getLast? htext
  rw [List.getLast?_append_of_ne_nil _ (by decide)] at hlast
  exact absurd hlast (by decide)

/-- The second segment stands behind the next line. -/
theorem insertText_split_brokenLine :
    letI := itemTexts
    ∃ first middle last rest, splitBlocks (js "X\n\nY") = first :: (middle ++ [last]) ∧
      js "cd" = js "cd" ++ rest ∧ extractInlineTexts (insertText brokenLine 1 (js "X\n\nY")) =
        js "a" ++ first ++ js "cd" ++ middle.flatten ++ last ++ js "b" ++ rest := by
  have hplain : Unformatted brokenLine := unformatted_of_all (by decide)
  obtain ⟨first, middle, last, rest, hsplit, hbehind, htext⟩ :=
    @insertText_split itemTexts brokenLine hplain (js "X\n\nY") ⟨js "X", js "Y", rfl⟩ 1 ⟨0, 2⟩ rfl
      rfl
  exact ⟨first, middle, last, rest, hsplit, hbehind, htext⟩

end Meridian
