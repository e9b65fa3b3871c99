import Meridian.EditorBlocks
import Meridian.ItemTexts

/-! Where the text of an insert goes. When every block holds a text, an insert is a splice into the
flat text, at the nearest place that is not inside of a separator. A blank block of the editor,
though, has no text that could take the insert up, and then a neighbour does. -/
namespace Meridian

open Splice

/-- A text in which every run of at least two newlines is made one of two, with the newlines since
its last other character. -/
def collapseFrom (newlines : ℕ) : JsString → JsString
  | [] => List.replicate (min newlines 2) newline
  | c :: text =>
    if c = newline then collapseFrom (newlines + 1) text
    else List.replicate (min newlines 2) newline ++ c :: collapseFrom 0 text

def collapseBlankLines (text : JsString) : JsString := collapseFrom 0 text

/-- The place at which a position puts text into the flat text of some blocks from an offset on:
itself within a block, the start of the next block inside of a separator, and the end behind it. -/
def splicePoint : ℕ → List (JsString × JsString) → ℕ → ℕ
  | offset, [], _ => offset
  | offset, [b], p => min p (offset + b.2.length)
  | offset, b :: next :: blocks, p =>
    let nextStart := offset + b.2.length + blockSeparator.length
    if p ≤ offset + b.2.length then p
    else if p < nextStart then nextStart
    else splicePoint nextStart (next :: blocks) p

section Separators

variable {α : Type*} {sep : List α}

theorem intercalate_append (before after : List (List α)) {mid : List (List α)} (h : mid ≠ []) :
    sep.intercalate (before ++ mid ++ after) =
      before.flatMap (fun l => l ++ sep) ++ sep.intercalate mid ++
        after.flatMap (fun l => sep ++ l) := by
  induction before with
  | nil =>
    obtain ⟨first, rest, rfl⟩ := List.exists_cons_of_ne_nil h
    rw [List.nil_append, List.cons_append, intercalate_cons_flatMap, intercalate_cons_flatMap,
      List.flatMap_append]
    simp only [List.flatMap_nil, List.nil_append, List.append_assoc]
  | cons l before ih =>
    rw [List.append_assoc] at ih ⊢
    rw [List.cons_append, List.intercalate_cons_of_ne_nil (by simp [h]), ih, List.flatMap_cons]
    simp only [List.append_assoc]

theorem intercalate_append_head (first l : List α) (ls : List (List α)) :
    sep.intercalate ((first ++ l) :: ls) = first ++ sep.intercalate (l :: ls) := by
  rw [intercalate_cons_flatMap, intercalate_cons_flatMap, List.append_assoc]

theorem intercalate_append_last (ls : List (List α)) (l last : List α) :
    sep.intercalate (ls ++ [l ++ last]) = sep.intercalate (ls ++ [l]) ++ last := by
  induction ls with
  | nil => simp
  | cons first ls ih =>
    rw [List.cons_append, List.cons_append, List.intercalate_cons_of_ne_nil (by simp),
      List.intercalate_cons_of_ne_nil (by simp), ih]
    simp only [List.append_assoc]

/-- The segments of a text, joined by blank lines, are the text with its blank lines made one. -/
theorem intercalate_splitFrom (segment : JsString) (newlines : ℕ) (text : JsString) :
    blockSeparator.intercalate (splitFrom segment newlines text) =
      segment ++ collapseFrom newlines text := by
  induction text generalizing segment newlines with
  | nil =>
    rw [splitFrom, collapseFrom]
    split
    · next hmany =>
      rw [min_eq_right hmany]
      exact congrArg (segment ++ ·) (List.append_nil blockSeparator)
    · next hfew => rw [min_eq_left (by omega), List.intercalate_singleton]
  | cons c text ih =>
    rw [splitFrom, collapseFrom]
    split
    · exact ih _ _
    · split
      · next hmany =>
        rw [List.intercalate_cons_of_ne_nil (splitFrom_ne_nil _ _ _), ih, min_eq_right hmany,
          List.append_assoc]
        rfl
      · next hfew =>
        rw [ih, min_eq_left (by omega)]
        simp only [List.append_assoc, List.singleton_append]

theorem intercalate_splitBlocks (text : JsString) :
    blockSeparator.intercalate (splitBlocks text) = collapseBlankLines text :=
  intercalate_splitFrom [] 0 text

theorem intercalate_spliceBlock (offset : ℕ) (b : JsString × JsString) {segments : List JsString}
    (h : segments ≠ []) :
    blockSeparator.intercalate ((spliceBlock offset b segments).map Prod.snd) =
      b.2.take offset ++ blockSeparator.intercalate segments ++ b.2.drop offset := by
  obtain _ | ⟨segment, _ | ⟨next, segments⟩⟩ := segments
  · contradiction
  · simp [spliceBlock]
  · have hlast : (next :: segments).dropLast ++ [(next :: segments).getLastD []] =
        next :: segments := by
      rw [List.getLastD_eq_getLast?, List.getLast?_eq_some_getLast (List.cons_ne_nil _ _),
        Option.getD_some, List.dropLast_append_getLast]
    rw [spliceBlock, List.map_append, List.map_cons, List.map_map, List.map_singleton,
      List.cons_append, intercalate_append_head]
    simp only [Function.comp_def, List.map_id']
    rw [← List.cons_append, intercalate_append_last, List.cons_append, hlast, List.append_assoc]

end Separators

section Owners

def Owner (before : List EditorBlock) (b : EditorBlock) (p : ℕ) : Prop :=
  offsetOf (before.map shownBlock) < p + blockSeparator.length ∧
    p ≤ offsetOf (before.map shownBlock) + (shownBlock b).2.length

theorem mem_textRanges {offset : ℕ} {blocks : List EditorBlock} {node : LinearXmlText}
    (h : node ∈ textRanges offset blocks) :
    node.stop + blockSeparator.length ≤ offset + offsetOf (blocks.map shownBlock) := by
  induction blocks generalizing offset with
  | nil => cases h
  | cons b blocks ih =>
    have hsum : offsetOf ((b :: blocks).map shownBlock) =
        (shownBlock b).2.length + blockSeparator.length + offsetOf (blocks.map shownBlock) := by
      simp [offsetOf]
    obtain ⟨name, _ | text⟩ := b
    · have := ih h
      simp only [shownBlock, Option.getD_none, List.length_nil] at hsum
      omega
    · rcases List.mem_cons.mp h with rfl | h
      · simp only [shownBlock, Option.getD_some] at hsum ⊢
        omega
      · have := ih h
        simp only [shownBlock, Option.getD_some] at hsum
        omega

theorem stop_lt_of_owner {before : List EditorBlock} {p : ℕ}
    (h : offsetOf (before.map shownBlock) < p + blockSeparator.length) :
    ∀ node ∈ textRanges 0 before, node.stop < p := by
  intro node hnode
  have := mem_textRanges hnode
  omega

theorem exists_splicePoint {blocks : List (JsString × JsString)} (hne : blocks ≠ [])
    {offset p : ℕ} (hp : offset ≤ p) :
    ∃ before b after, blocks = before ++ b :: after ∧
      offset + offsetOf before < p + blockSeparator.length ∧
      (p ≤ offset + offsetOf before + b.2.length ∨ after = []) ∧
      splicePoint offset blocks p =
        offset + offsetOf before + min (p - (offset + offsetOf before)) b.2.length := by
  induction blocks generalizing offset with
  | nil => contradiction
  | cons b blocks ih =>
    cases blocks with
    | nil =>
      refine ⟨[], b, [], rfl, ?_, .inr rfl, ?_⟩
      · rw [offsetOf, List.map_nil, List.sum_nil, blockSeparator_length]
        omega
      · rw [splicePoint, offsetOf, List.map_nil, List.sum_nil]
        omega
    | cons next blocks =>
      rw [splicePoint]
      split
      · next hin =>
        have hnone : offsetOf [] = 0 := rfl
        refine ⟨[], b, next :: blocks, rfl, ?_, .inl ?_, ?_⟩ <;> rw [hnone]
        · exact Nat.lt_of_le_of_lt hp (Nat.lt_add_of_pos_right Nat.two_pos)
        · exact hin
        · omega
      · next hbehind =>
        have hstart : offsetOf [b] = b.2.length + blockSeparator.length := by simp [offsetOf]
        split
        · next hsep =>
          refine ⟨[b], next, blocks, rfl, ?_, .inl ?_, ?_⟩ <;> rw [hstart] <;> omega
        · next hnext =>
          obtain ⟨before, b', after, hsplit, hfrom, hto, hpoint⟩ :=
            ih (List.cons_ne_nil _ _) (not_lt.mp hnext)
          have hsum : offset + offsetOf (b :: before) =
              offset + b.2.length + blockSeparator.length + offsetOf before := by
            simp [offsetOf]
            omega
          refine ⟨b :: before, b', after, by rw [hsplit]; rfl, ?_, ?_, ?_⟩
          · rwa [hsum]
          · rwa [hsum]
          · rwa [hsum]

theorem map_filled (blocks : List (JsString × JsString)) :
    (blocks.map filled).map editorBlock = blocks.map block ∧
      (blocks.map filled).map shownBlock = blocks := by
  refine ⟨by rw [List.map_map]; rfl, ?_⟩
  rw [List.map_map]
  exact List.map_id blocks

end Owners

section Inserts

variable [XmlTextCalls]

theorem insertText_filled {before after : List (JsString × JsString)} {b : JsString × JsString}
    {p : ℕ} (hfrom : offsetOf before < p + blockSeparator.length)
    (hto : p ≤ offsetOf before + b.2.length ∨ after = []) (text : JsString) :
    insertText ((before ++ b :: after).map block) p text =
      (before ++ insertedBlock (min (p - offsetOf before) b.2.length) b (splitBlocks text) ++
        after).map block := by
  have hblocks : (before.map filled ++ (b.1, some b.2) :: after.map filled).map editorBlock =
      (before ++ b :: after).map block := by
    rw [List.map_append, List.map_cons, (map_filled before).1, (map_filled after).1,
      List.map_append]
    rfl
  rw [← hblocks, insertText_editorBlock (stop_lt_of_owner (by rwa [(map_filled before).2]))
    (by
      rw [(map_filled before).2]
      exact hto.imp_right fun hnil => by simp [hnil]),
    (map_filled before).1, (map_filled after).1, (map_filled before).2, List.map_append,
    List.map_append]

/-- An insert among blocks that all hold a text splices it, with one blank line for each of its
own, into the flat text, if the calls on the texts divide no surrogate pair. -/
theorem insertText_splice (hwhole : ∀ (t : XmlText) (offset : ℕ), t.split offset = t)
    (blocks : List (JsString × JsString)) (p : ℕ) (text : JsString) :
    ∃ blocks' : List (JsString × JsString),
      insertText (blocks.map block) p text = blocks'.map block ∧
      extractFragmentText (blocks'.map block) =
        insertAt (extractFragmentText (blocks.map block)) (splicePoint 0 blocks p)
          (collapseBlankLines text) := by
  by_cases hne : blocks = []
  · subst hne
    refine ⟨(splitBlocks text).map fun segment => (js "paragraph", segment), ?_, ?_⟩
    · rw [List.map_map]
      exact List.append_nil _
    · rw [extractFragmentText_block, List.map_map, Function.comp_def, List.map_id',
        intercalate_splitBlocks]
      simp [extractFragmentText, insertAt]
  obtain ⟨before, b, after, rfl, hfrom, hto, hpoint⟩ := exists_splicePoint hne (Nat.zero_le p)
  rw [Nat.zero_add] at hfrom hto hpoint
  have hsplit (offset : ℕ) : XmlText.splitText b.2 offset = b.2 := by
    rw [XmlText.splitText, hwhole, XmlText.text_ofText]
  refine ⟨_, insertText_filled hfrom hto text, ?_⟩
  rw [insertedBlock_eq (hsplit _)]
  have hmid : (spliceBlock (min (p - offsetOf before) b.2.length) b (splitBlocks text)).map
      Prod.snd ≠ [] := by
    rw [← List.length_pos_iff, List.length_map, length_spliceBlock _ _ (splitBlocks_ne_nil text),
      List.length_pos_iff]
    exact splitBlocks_ne_nil text
  have hle := min_le_right (p - offsetOf before) b.2.length
  rw [extractFragmentText_split, extractFragmentText_block, List.map_append, List.map_append,
    intercalate_append _ _ hmid, intercalate_spliceBlock _ _ (splitBlocks_ne_nil text),
    intercalate_splitBlocks, hpoint, List.flatMap_map, List.flatMap_map]
  generalize min (p - offsetOf before) b.2.length = q at hle
  rw [insertAt, ← length_before before, List.append_assoc _ b.2, List.take_length_add_append,
    List.drop_length_add_append, List.take_append_of_le_length hle,
    List.drop_append_of_le_length hle]
  simp only [List.append_assoc]

end Inserts

/-- Inside of a separator the text goes to the start of the next block. -/
theorem insertText_splice_paragraphs :
    letI := listTexts
    ∃ blocks' : List (JsString × JsString),
      insertText ([(js "paragraph", js "ab"), (js "heading", js "c")].map block) 3 (js "X\n\n\nY") =
        blocks'.map block ∧
      extractFragmentText (blocks'.map block) = js "ab\n\nX\n\nYc" :=
  @insertText_splice listTexts (fun _ _ => rfl)
    [(js "paragraph", js "ab"), (js "heading", js "c")] 3 (js "X\n\n\nY")

end Meridian
