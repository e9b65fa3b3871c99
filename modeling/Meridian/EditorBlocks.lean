import Meridian.Replacement
import Meridian.RichOffsets

/-! Inserts in a document of editor blocks. A block of the editor is an element that holds one text
or, while it is blank, nothing at all; the offsets of the flat text are found by the texts. -/
namespace Meridian

open Splice

/-- The name of a block, and its text without formats, if it has one. -/
abbrev EditorBlock := JsString × Option JsString

def editorBlock (b : EditorBlock) : XmlNode :=
  .element b.1 (b.2.toList.map fun text => .text (.ofText text))

/-- What a block shows: its name and its text, which is empty for a blank one. -/
def shownBlock (b : EditorBlock) : JsString × JsString := (b.1, b.2.getD [])

def textRanges : ℕ → List EditorBlock → List LinearXmlText
  | _, [] => []
  | offset, (_, none) :: blocks => textRanges (offset + blockSeparator.length) blocks
  | offset, (_, some text) :: blocks => ⟨offset, offset + text.length⟩ ::
      textRanges (offset + text.length + blockSeparator.length) blocks

/-- A block with some segments put into its text at an offset: the first goes on its own text, and
the last takes over what stood behind the offset. -/
def spliceBlock (offset : ℕ) (b : JsString × JsString) : List JsString → List (JsString × JsString)
  | [] => [b]
  | [segment] => [(b.1, b.2.take offset ++ segment ++ b.2.drop offset)]
  | segment :: next :: segments => (b.1, b.2.take offset ++ segment) ::
      ((next :: segments).dropLast.map fun middle => (js "paragraph", middle)) ++
        [(js "paragraph", (next :: segments).getLastD [] ++ b.2.drop offset)]

/-- `spliceBlock` with the call on the text, which may divide a surrogate pair. The rest of a text
that is cut was read before. -/
def insertedBlock [XmlTextCalls] (offset : ℕ) (b : JsString × JsString) :
    List JsString → List (JsString × JsString)
  | [] => [b]
  | [segment] =>
    [(b.1, if segment = [] then b.2
      else insertAt (XmlText.splitText b.2 offset) offset segment)]
  | segment :: next :: segments =>
    (b.1, (XmlText.splitText b.2 offset).take offset ++ segment) ::
      ((next :: segments).dropLast.map fun middle => (js "paragraph", middle)) ++
        [(js "paragraph", (next :: segments).getLastD [] ++ b.2.drop offset)]

def filled (b : JsString × JsString) : EditorBlock := (b.1, some b.2)

section Reading

theorem textRanges_append (offset : ℕ) (before after : List EditorBlock) :
    textRanges offset (before ++ after) =
      textRanges offset before ++
        textRanges (offset + offsetOf (before.map shownBlock)) after := by
  induction before generalizing offset with
  | nil => rfl
  | cons b before ih =>
    rcases b with ⟨name, _ | text⟩ <;>
      simp [textRanges, ih, offsetOf, shownBlock, Nat.add_assoc]

@[simp] theorem textCounts_editorBlock (offset : ℕ) (blocks : List EditorBlock) :
    textCounts (blocks.map editorBlock) = (textRanges offset blocks).length := by
  induction blocks generalizing offset with
  | nil => rfl
  | cons b blocks ih =>
    rcases b with ⟨name, _ | text⟩
    · simp [textCounts, textCount, textRanges, editorBlock, ih (offset + blockSeparator.length)]
    · simp [textCounts, textCount, textRanges, editorBlock,
        ih (offset + text.length + blockSeparator.length), Nat.add_comm]

theorem textRanges_eq_nil (offset : ℕ) {blocks : List EditorBlock} (h : ∀ b ∈ blocks, b.2 = none) :
    textRanges offset blocks = [] := by
  induction blocks generalizing offset with
  | nil => rfl
  | cons b blocks ih =>
    obtain ⟨name, text⟩ := b
    rw [List.forall_mem_cons] at h
    obtain rfl : text = none := h.1
    exact ih _ h.2

theorem mapTexts_editorBlock {before after : List EditorBlock} {name text : JsString}
    {f : ℕ → XmlText → XmlText}
    (h : ∀ j, j ≠ (textRanges 0 before).length → ∀ content, f j content = content) :
    (mapTexts f (before.map editorBlock ++ block (name, text) :: after.map editorBlock) 0).1 =
      before.map editorBlock ++
        .element name [.text (f (textRanges 0 before).length (.ofText text))] ::
          after.map editorBlock := by
  rw [mapTexts_append _ _ fun j _ hj => h j (by rw [textCounts_editorBlock 0] at hj; omega),
    textCounts_editorBlock 0, Nat.zero_add, mapTexts]
  simp only [block, mapText, mapTexts]
  rw [mapTexts_of_id _ _ fun j hj _ => h j (by omega)]

variable [XmlTextCalls]

theorem extractInlineText_editorBlock (b : EditorBlock) :
    extractInlineText (editorBlock b) = (shownBlock b).2 := by
  rcases b with ⟨name, _ | text⟩ <;>
    simp [editorBlock, shownBlock, extractInlineText, extractInlineTexts]

theorem linearizeBlocks_editorBlock (offset : ℕ) (blocks : List EditorBlock) :
    (linearizeBlocks offset (blocks.map editorBlock)).flatten = textRanges offset blocks := by
  induction blocks generalizing offset with
  | nil => rfl
  | cons b blocks ih =>
    rcases b with ⟨name, _ | text⟩
    · exact ih _
    · simp [linearizeBlocks, textRanges, editorBlock, collectXmlText, collectXmlTexts, ← ih]

theorem linearizeXmlText_editorBlock (blocks : List EditorBlock) :
    linearizeXmlText (blocks.map editorBlock) = textRanges 0 blocks :=
  linearizeBlocks_editorBlock 0 blocks

end Reading

section Segments

theorem splitFrom_ne_nil (segment : JsString) (newlines : ℕ) (text : JsString) :
    splitFrom segment newlines text ≠ [] := by
  induction text generalizing segment newlines with
  | nil =>
    rw [splitFrom]
    split <;> exact List.cons_ne_nil _ _
  | cons c text ih =>
    rw [splitFrom]
    split
    · exact ih _ _
    · split
      · exact List.cons_ne_nil _ _
      · exact ih _ _

theorem splitBlocks_ne_nil (text : JsString) : splitBlocks text ≠ [] := splitFrom_ne_nil [] 0 text

theorem splitFrom_eq_singleton {segment : JsString} {newlines : ℕ} {text : JsString}
    (h : (splitFrom segment newlines text).length ≤ 1) :
    splitFrom segment newlines text =
      [segment ++ List.replicate newlines newline ++ text] := by
  induction text generalizing segment newlines with
  | nil =>
    rw [splitFrom] at h ⊢
    split at h
    · cases h
      contradiction
    · next hfew => rw [if_neg hfew, List.append_nil]
  | cons c text ih =>
    rw [splitFrom] at h ⊢
    split at h
    · next hc =>
      rw [if_pos hc, ih h, hc, List.replicate_succ']
      simp
    · next hc =>
      rw [if_neg hc]
      split at h
      · rw [List.length_cons] at h
        have := List.length_pos_iff.mpr (splitFrom_ne_nil [c] 0 text)
        omega
      · next hfew =>
        rw [if_neg hfew, ih h]
        simp

theorem splitBlocks_eq_singleton {text : JsString} (h : (splitBlocks text).length ≤ 1) :
    splitBlocks text = [text] :=
  splitFrom_eq_singleton h

theorem length_spliceBlock (offset : ℕ) (b : JsString × JsString) {segments : List JsString}
    (h : segments ≠ []) : (spliceBlock offset b segments).length = segments.length := by
  rcases segments with _ | ⟨segment, _ | ⟨next, segments⟩⟩
  · contradiction
  · rfl
  · simp [spliceBlock]

end Segments

section Editing

variable [XmlTextCalls] {before after : List EditorBlock} {name text inserted : JsString}

theorem insertedBlock_eq {offset : ℕ} {b : JsString × JsString}
    (h : XmlText.splitText b.2 offset = b.2) (segments : List JsString) :
    insertedBlock offset b segments = spliceBlock offset b segments := by
  obtain _ | ⟨segment, _ | ⟨next, segments⟩⟩ := segments
  · rfl
  · rw [insertedBlock, spliceBlock, h, insertAt]
    split
    · next hnil => rw [hnil, List.append_nil, List.take_append_drop]
    · rfl
  · rw [insertedBlock, spliceBlock, h]

theorem insertedBlock_end {offset : ℕ} {b : JsString × JsString} (h : b.2.length ≤ offset)
    (segments : List JsString) :
    insertedBlock offset b segments = spliceBlock offset b segments :=
  insertedBlock_eq (XmlText.splitText_of_length_le h) segments

theorem insertedBlock_start (b : JsString × JsString) (segments : List JsString) :
    insertedBlock 0 b segments = spliceBlock 0 b segments :=
  insertedBlock_eq (XmlText.splitText_of_not_dividesPair (by simp [dividesPair])) segments

theorem length_insertedBlock (offset : ℕ) (b : JsString × JsString) {segments : List JsString}
    (h : segments ≠ []) : (insertedBlock offset b segments).length = segments.length := by
  rcases segments with _ | ⟨segment, _ | ⟨next, segments⟩⟩
  · contradiction
  · rfl
  · simp [insertedBlock]

theorem cutText_ofText (offset : ℕ) (segments : List JsString) (text : JsString) :
    cutText offset segments (.ofText text) =
      .ofText ((XmlText.splitText text offset).take offset ++ segments.headD []) := by
  have hhead : (if (text.drop offset).isEmpty then XmlText.ofText text
      else (XmlText.ofText text).delete offset (text.length - offset)) =
        .ofText ((XmlText.splitText text offset).take offset) := by
    split
    · next hnone =>
      rw [List.isEmpty_iff, List.drop_eq_nil_iff] at hnone
      rw [XmlText.splitText_of_length_le hnone, List.take_of_length_le hnone]
    · next hsome =>
      rw [List.isEmpty_iff, List.drop_eq_nil_iff, not_le] at hsome
      rw [XmlText.delete_ofText _ _ (by omega), XmlText.deleted, Nat.add_sub_cancel' hsome.le,
        XmlText.splitText_of_length_le (p := text.length) (by simp), deleteAt,
        Nat.add_sub_cancel' hsome.le, List.drop_of_length_le (by simp), List.append_nil]
  unfold cutText
  simp only [XmlText.toString_ofText, hhead]
  split
  · next hnil => rw [hnil, List.append_nil]
  · next first hfirst =>
    have hlen : ((XmlText.splitText text offset).take offset).length ≤ offset := by simp
    rw [XmlText.insert_ofText (fun hnil => hfirst hnil), XmlText.splitText_of_length_le hlen,
      insertAt, List.take_of_length_le hlen, List.drop_of_length_le hlen, List.append_nil]

theorem insert_ofText (text inserted : JsString) (offset : ℕ) :
    (XmlText.ofText text).insert offset inserted = .ofText (if inserted = [] then text
      else insertAt (XmlText.splitText text offset) offset inserted) := by
  split
  · next hnil =>
    rw [hnil]
    exact XmlTextCalls.insert_nil _ _
  · next hne => exact XmlText.insert_ofText hne text offset

theorem newBlocks_ofText (offset : ℕ) (segments : List JsString) (text : JsString) :
    newBlocks offset segments (.ofText text) =
      ((segments.tail.dropLast.map fun middle => (js "paragraph", middle)) ++
        [(js "paragraph", segments.getLastD [] ++ text.drop offset)]).map block := by
  rw [newBlocks, List.map_append, List.map_map, XmlText.toString_ofText]
  rfl

theorem insertBlocks_block (offset : ℕ) {segments : List JsString} (h : ¬ segments.length ≤ 1)
    (siblings : List XmlNode) :
    insertBlocks offset segments (block (name, text) :: siblings) 0 =
      (insertedBlock offset (name, text) segments).map block ++ siblings := by
  obtain _ | ⟨segment, _ | ⟨next, segments⟩⟩ := segments
  · exact absurd (Nat.zero_le 1) h
  · exact absurd le_rfl h
  · have hchild : isChild [XmlNode.text (.ofText text)] 0 = true := rfl
    rw [insertBlocks, if_neg (by simp [block, textCount, textCounts]), block, insertBlocksAt,
      if_pos hchild]
    simp only [textsOf, XmlNode.texts, mapTexts, mapText, if_pos, List.append_nil,
      List.getElem?_cons_zero, Option.getD_some, cutText_ofText, newBlocks_ofText]
    rfl

theorem insertText_editorBlock {p : ℕ} (hbefore : ∀ node ∈ textRanges 0 before, node.stop < p)
    (hend : p ≤ offsetOf (before.map shownBlock) + text.length ∨
      ∀ b ∈ after, b.2 = none) :
    insertText ((before ++ (name, some text) :: after).map editorBlock) p inserted =
      before.map editorBlock ++
        (insertedBlock (min (p - offsetOf (before.map shownBlock)) text.length) (name, text)
          (splitBlocks inserted)).map block ++ after.map editorBlock := by
  have hranges : linearizeXmlText ((before ++ (name, some text) :: after).map editorBlock) =
      textRanges 0 before ++ ⟨offsetOf (before.map shownBlock),
        offsetOf (before.map shownBlock) + text.length⟩ ::
          textRanges (offsetOf (before.map shownBlock) + text.length + blockSeparator.length)
            after := by
    rw [linearizeXmlText_editorBlock, textRanges_append, Nat.zero_add, textRanges]
  have htarget : targetIndex (linearizeXmlText
      ((before ++ (name, some text) :: after).map editorBlock)) p =
        (textRanges 0 before).length := by
    rw [hranges]
    refine targetIndex_append (fun node hnode => Int.ofNat_lt.mpr (hbefore node hnode)) ?_
    exact hend.imp Int.ofNat_le.mpr fun hblank => textRanges_eq_nil _ hblank
  have hnode : (linearizeXmlText
      ((before ++ (name, some text) :: after).map editorBlock))[targetIndex (linearizeXmlText
        ((before ++ (name, some text) :: after).map editorBlock)) p]? =
      some ⟨offsetOf (before.map shownBlock), offsetOf (before.map shownBlock) + text.length⟩ := by
    rw [htarget, hranges, List.getElem?_append_right le_rfl, Nat.sub_self, List.getElem?_cons_zero]
  have hoffset : localOffset p ⟨offsetOf (before.map shownBlock),
      offsetOf (before.map shownBlock) + text.length⟩ =
        min (p - offsetOf (before.map shownBlock)) text.length := by
    unfold localOffset
    simp only
    omega
  have hblocks : (before ++ (name, some text) :: after).map editorBlock =
      before.map editorBlock ++ block (name, text) :: after.map editorBlock := by
    rw [List.map_append, List.map_cons]
    rfl
  rw [insertText_eq hnode, htarget, hoffset, hblocks]
  split
  · next hone =>
    rw [mapTexts_editorBlock fun j hj content => if_neg hj, if_pos rfl,
      insert_ofText, splitBlocks_eq_singleton hone, List.append_assoc (before.map editorBlock)]
    rfl
  · next hmany =>
    rw [← Nat.add_zero (textRanges 0 before).length, ← textCounts_editorBlock 0,
      insertBlocks_append, insertBlocks_block _ hmany, List.append_assoc]

theorem insertText_blank {blocks : List EditorBlock} (h : ∀ b ∈ blocks, b.2 = none) (p : ℤ) :
    insertText (blocks.map editorBlock) p inserted =
      createParagraphs inserted ++ blocks.map editorBlock := by
  unfold insertText
  simp only [linearizeXmlText_editorBlock, textRanges_eq_nil 0 h]
  rfl

end Editing

end Meridian
