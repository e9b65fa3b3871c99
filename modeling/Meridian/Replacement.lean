import Meridian.ItemTexts
import Meridian.RichEdits

/-! Replacements in a document of plain blocks: a delete and an insert at its start, which the
server applies in this order. Inside a block this puts the new text where the old one was;
a delete of a whole block, though, also removes the block, unless it is the only one, and the
insert then lands in a neighbour. -/
namespace Meridian

open Splice XmlText

def block (b : JsString × JsString) : XmlNode := .element b.1 [.text (.ofText b.2)]

def offsetOf (blocks : List (JsString × JsString)) : ℕ :=
  (blocks.map fun b => b.2.length + blockSeparator.length).sum

@[simp] theorem blockSeparator_length : blockSeparator.length = 2 := rfl

section Ranges

variable {before after : List (JsString × JsString)} {name text : JsString}
  {f : ℕ → XmlText → XmlText}

theorem intercalate_cons_flatMap {α : Type*} (sep l : List α) (ls : List (List α)) :
    sep.intercalate (l :: ls) = l ++ ls.flatMap (sep ++ ·) := by
  induction ls generalizing l with
  | nil => simp
  | cons l' ls ih => rw [List.intercalate_cons_cons, ih, List.flatMap_cons, List.append_assoc,
      List.append_assoc]

theorem length_before (before : List (JsString × JsString)) :
    (before.flatMap fun b => b.2 ++ blockSeparator).length = offsetOf before := by
  simp [List.length_flatMap, offsetOf]

def ranges : ℕ → List (JsString × JsString) → List LinearXmlText
  | _, [] => []
  | offset, b :: blocks =>
    ⟨offset, offset + b.2.length⟩ :: ranges (offset + b.2.length + blockSeparator.length) blocks

@[simp] theorem length_ranges (offset : ℕ) (blocks : List (JsString × JsString)) :
    (ranges offset blocks).length = blocks.length := by
  induction blocks generalizing offset with
  | nil => rfl
  | cons b blocks ih => simp [ranges, ih]

theorem ranges_append (offset : ℕ) (before after : List (JsString × JsString)) :
    ranges offset (before ++ after) =
      ranges offset before ++ ranges (offset + offsetOf before) after := by
  induction before generalizing offset with
  | nil => simp [ranges, offsetOf]
  | cons b before ih =>
    simp [ranges, ih, offsetOf, Nat.add_assoc]

theorem mem_ranges {offset : ℕ} {blocks : List (JsString × JsString)} {node : LinearXmlText}
    (h : node ∈ ranges offset blocks) :
    offset ≤ node.start ∧ node.start ≤ node.stop ∧
      node.stop + 2 ≤ offset + offsetOf blocks := by
  induction blocks generalizing offset with
  | nil => cases h
  | cons b blocks ih =>
    have hsum : offsetOf (b :: blocks) = b.2.length + 2 + offsetOf blocks := by
      simp [offsetOf]
    rcases List.mem_cons.mp h with rfl | h
    · refine ⟨le_rfl, Nat.le_add_right _ _, ?_⟩
      simp only
      omega
    · have := ih h
      simp only [blockSeparator_length] at this
      omega

theorem ranges_split :
    ranges 0 (before ++ (name, text) :: after) = ranges 0 before ++
      ⟨offsetOf before, offsetOf before + text.length⟩ ::
        ranges (offsetOf before + text.length + 2) after := by
  rw [ranges_append, Nat.zero_add]
  rfl

theorem overlap_block {s e : ℕ} (hs : offsetOf before ≤ s) (hse : s < e)
    (he : e ≤ offsetOf before + text.length) (j : ℕ) :
    (ranges 0 (before ++ (name, text) :: after))[j]?.bind (overlap s (e - s : ℤ)) =
      if j = before.length then some (s - offsetOf before, e - s) else none := by
  rw [ranges_split]
  rcases lt_trichotomy j before.length with hlt | rfl | hgt
  · rw [List.getElem?_append_left (by simpa), if_neg hlt.ne]
    cases hnode : (ranges 0 before)[j]? with
    | none => rfl
    | some node =>
      obtain ⟨-, -, hstop⟩ := mem_ranges (List.mem_of_getElem? hnode)
      exact if_pos (by omega)
  · rw [List.getElem?_append_right (by simp), length_ranges, Nat.sub_self, List.getElem?_cons_zero,
      if_pos rfl, Option.bind_some, overlap]
    simp only
    rw [if_neg (by omega), Option.some.injEq, Prod.mk.injEq]
    exact ⟨by omega, by omega⟩
  · obtain ⟨k, rfl⟩ := Nat.exists_eq_add_of_lt hgt
    rw [List.getElem?_append_right (by simp; omega), length_ranges, if_neg (by omega),
      show before.length + k + 1 - before.length = k + 1 by omega, List.getElem?_cons_succ]
    cases hnode : (ranges (offsetOf before + text.length + 2) after)[k]? with
    | none => rfl
    | some node =>
      obtain ⟨hstart, -, -⟩ := mem_ranges (List.mem_of_getElem? hnode)
      exact if_pos (by omega)

theorem targetIndex_append {nodes₁ nodes₂ : List LinearXmlText} {node : LinearXmlText} {p : ℤ}
    (hbefore : ∀ node ∈ nodes₁, (node.stop : ℤ) < p) (hend : p ≤ node.stop ∨ nodes₂ = []) :
    targetIndex (nodes₁ ++ node :: nodes₂) p = nodes₁.length := by
  have hnone : nodes₁.findIdx? (fun node => decide (p ≤ node.stop)) = none :=
    List.findIdx?_eq_none_iff.mpr fun node hnode =>
      decide_eq_false (not_le.mpr (hbefore node hnode))
  rw [targetIndex, List.findIdx?_append, hnone, Option.none_or, List.findIdx?_cons]
  split
  · simp
  · next hgt =>
    have hnil : nodes₂ = [] := hend.resolve_left (by simpa using hgt)
    subst hnil
    simp

theorem targetIndex_block {p : ℕ} (hp : offsetOf before ≤ p)
    (hend : p ≤ offsetOf before + text.length ∨ after = []) :
    targetIndex (ranges 0 (before ++ (name, text) :: after)) p = before.length := by
  have hbefore : ∀ node ∈ ranges 0 before, (node.stop : ℤ) < p := by
    intro node hnode
    obtain ⟨-, -, hstop⟩ := mem_ranges hnode
    omega
  have hafter : (p : ℤ) ≤ (offsetOf before + text.length : ℕ) ∨
      ranges (offsetOf before + text.length + 2) after = [] :=
    hend.imp Int.ofNat_le.mpr fun hnil => by rw [hnil, ranges]
  rw [ranges_split, targetIndex_append hbefore hafter, length_ranges]

theorem mapTexts_block_of_id {blocks : List (JsString × JsString)} {i : ℕ}
    (h : ∀ j, i ≤ j → ∀ content, f j content = content) :
    (mapTexts f (blocks.map block) i).1 = blocks.map block := by
  induction blocks generalizing i with
  | nil => rfl
  | cons b blocks ih =>
    have hrest := ih (i := i + 1) fun j hj => h j (Nat.le_of_succ_le hj)
    simp [mapTexts, mapText, block, h i le_rfl] at hrest ⊢
    exact hrest

theorem mapTexts_block {i : ℕ} (h : ∀ j, j ≠ i + before.length → ∀ content, f j content = content) :
    (mapTexts f ((before ++ (name, text) :: after).map block) i).1 =
      before.map block ++
        .element name [.text (f (i + before.length) (.ofText text))] :: after.map block := by
  induction before generalizing i with
  | nil =>
    have hafter : (mapTexts f (after.map block) (i + 1)).1 = after.map block :=
      mapTexts_block_of_id fun j hj => h j (by simp; omega)
    simp [mapTexts, mapText, block] at hafter ⊢
    exact hafter
  | cons b before ih =>
    have hrest := ih (i := i + 1) fun j hj => h j (by simp; omega)
    have hfirst := h i (by simp)
    rw [show i + 1 + before.length = i + (before.length + 1) by omega] at hrest
    simp [mapTexts, mapText, block, hfirst] at hrest ⊢
    exact hrest

theorem splitBlocks_of_no_blank {text : JsString} (h : ¬ blockSeparator <:+: text) :
    splitBlocks text = [text] := by
  have hgo : ∀ (text segment : JsString) (newlines : ℕ), newlines ≤ 1 →
      ¬ blockSeparator <:+: List.replicate newlines newline ++ text →
      splitFrom segment newlines text = [segment ++ List.replicate newlines newline ++ text] := by
    intro text
    induction text with
    | nil =>
      intro segment newlines hle _
      rw [splitFrom, if_neg (by omega), List.append_nil]
    | cons c text ih =>
      intro segment newlines hle hblank
      rw [splitFrom]
      split
      · next hc =>
        subst hc
        obtain rfl : newlines = 0 := by
          by_contra hne
          obtain rfl : newlines = 1 := by omega
          exact hblank ⟨[], text, rfl⟩
        rw [ih segment 1 le_rfl (by simpa using hblank)]
        simp
      · rw [if_neg (by omega), ih _ 0 (by omega) fun hin => hblank ?_]
        · simp
        · exact hin.trans (List.IsSuffix.isInfix ⟨List.replicate newlines newline ++ [c], by simp⟩)
  exact hgo text [] 0 (by omega) (by simpa using h)

theorem orderOpsForApplication_replacement {s : ℤ} {range : TextRange} (hs : range.start = s)
    {text : JsString} {anchor : Option Anchor} {ops : List AiOp}
    (hops : ops = [.delete range, .insert s text anchor] ∨
      ops = [.insert s text anchor, .delete range]) :
    orderOpsForApplication ops = [.delete range, .insert s text anchor] := by
  rcases hops with rfl | rfl <;>
    simp [orderOpsForApplication, hasRangeEdit, AiOp.isInsert, appliesBefore, AiOp.position, hs]

theorem insertAt_left_inj {α : Type*} {l l' t : List α} {p : ℕ} (hlength : l.length = l'.length)
    (h : insertAt l p t = insertAt l' p t) : l = l' := by
  have htake : (l.take p).length = (l'.take p).length := by simp [hlength]
  rw [insertAt, insertAt, List.append_assoc, List.append_assoc] at h
  obtain ⟨hfront, hrest⟩ := List.append_inj h htake
  rw [← List.take_append_drop p l, ← List.take_append_drop p l', hfront,
    List.append_cancel_left hrest]

end Ranges

section Calls

variable [XmlTextCalls]

section Reading

theorem extractInlineText_block (b : JsString × JsString) : extractInlineText (block b) = b.2 := by
  simp [block, extractInlineText, extractInlineTexts]

theorem extractFragmentText_block (blocks : List (JsString × JsString)) :
    extractFragmentText (blocks.map block) = blockSeparator.intercalate (blocks.map Prod.snd) := by
  rw [extractFragmentText, List.map_map]
  congr 1
  exact List.map_congr_left fun b _ => extractInlineText_block b

theorem extractFragmentText_split (before after : List (JsString × JsString))
    (b : JsString × JsString) :
    extractFragmentText ((before ++ b :: after).map block) =
      before.flatMap (fun b => b.2 ++ blockSeparator) ++ b.2 ++
        after.flatMap fun b => blockSeparator ++ b.2 := by
  rw [extractFragmentText_block]
  induction before with
  | nil => simp [intercalate_cons_flatMap, List.flatMap_map]
  | cons a before ih =>
    rw [List.cons_append, List.map_cons, List.intercalate_cons_of_ne_nil (by simp), ih,
      List.flatMap_cons]
    simp only [List.append_assoc]

theorem linearizeBlocks_block (offset : ℕ) (blocks : List (JsString × JsString)) :
    linearizeBlocks offset (blocks.map block) = (ranges offset blocks).map fun node => [node] := by
  induction blocks generalizing offset with
  | nil => rfl
  | cons b blocks ih =>
    simp [linearizeBlocks, ranges, block, collectXmlText, collectXmlTexts, ← ih]

theorem linearizeXmlText_block (blocks : List (JsString × JsString)) :
    linearizeXmlText (blocks.map block) = ranges 0 blocks := by
  rw [linearizeXmlText, linearizeBlocks_block, ← List.flatMap_def, List.flatMap_singleton']

end Reading

section Editing

variable {before after : List (JsString × JsString)} {name text : JsString}

theorem forEachXmlTextRange_block {s e : ℕ} (hs : offsetOf before ≤ s) (hse : s < e)
    (he : e ≤ offsetOf before + text.length) :
    forEachXmlTextRange s (e - s : ℤ) XmlText.delete ((before ++ (name, text) :: after).map block) =
      (before ++ (name, deleted text (s - offsetOf before) (e - s)) :: after).map block := by
  rw [forEachXmlTextRange]
  simp only [linearizeXmlText_block, overlap_block hs hse he]
  rw [mapTexts_block fun j hj content => by rw [if_neg (by omega)]]
  simp [block, delete_ofText text _ (Nat.sub_pos_of_lt hse)]

theorem affectedBlocks_block {s e : ℕ} (hs : offsetOf before ≤ s) (hse : s < e)
    (he : e ≤ offsetOf before + text.length) :
    affectedBlocks s (e - s : ℤ) ((before ++ (name, text) :: after).map block) =
      [before.length] := by
  have htouched : ∀ offset (blocks : List (JsString × JsString)),
      (blocks.map block).zipWith (fun child nodes => child.isElement &&
        nodes.any fun node => (overlap s (e - s : ℤ) node).isSome)
        (linearizeBlocks offset (blocks.map block)) =
      (ranges offset blocks).map fun node => (overlap s (e - s : ℤ) node).isSome := by
    intro offset blocks
    induction blocks generalizing offset with
    | nil => rfl
    | cons b blocks ih =>
      have hrest := ih (offset + b.2.length + blockSeparator.length)
      simp [linearizeBlocks, ranges, block, collectXmlText, collectXmlTexts, XmlNode.isElement]
        at hrest ⊢
      exact hrest
  have hone : ∀ i, (((ranges 0 (before ++ (name, text) :: after)).map fun node =>
      (overlap s (e - s : ℤ) node).isSome)[i]?.getD false) = decide (i = before.length) := by
    intro i
    have := @overlap_block before after name text s e hs hse he i
    rw [List.getElem?_map]
    cases hnode : (ranges 0 (before ++ (name, text) :: after))[i]? with
    | none =>
      rw [hnode] at this
      by_cases hi : i = before.length
      · rw [if_pos hi] at this
        cases this
      · simp [hi]
    | some node =>
      rw [hnode, Option.bind_some] at this
      simp only [Option.map_some, Option.getD_some, this]
      split <;> simp [*]
  have hmem : before.length ∈ List.range ((before ++ (name, text) :: after).map block).length := by
    simp
  rw [affectedBlocks]
  simp only [htouched, hone]
  rw [List.filter_eq, List.count_eq_one_of_mem List.nodup_range hmem]
  rfl

theorem pruneEmptyBlocks_block :
    pruneEmptyBlocks [before.length] 0 ((before ++ (name, text) :: after).map block) =
      if text = [] ∧ (before ≠ [] ∨ after ≠ []) then (before ++ after).map block
      else (before ++ (name, text) :: after).map block := by
  have hget : ((before ++ (name, text) :: after).map block)[before.length - 0]? =
      some (block (name, text)) := by
    simp
  have herase : ((before ++ (name, text) :: after).map block).eraseIdx (before.length - 0) =
      (before ++ after).map block := by
    simp [List.eraseIdx_append_of_length_le]
  have hlength : ((before ++ (name, text) :: after).map block).length ≤ 1 ↔
      ¬ (before ≠ [] ∨ after ≠ []) := by
    cases before <;> cases after <;> simp
  simp only [pruneEmptyBlocks, hget, herase, hlength, Option.any_some, blockIsEmpty,
    extractInlineText_block, List.isEmpty_iff]
  by_cases hothers : before ≠ [] ∨ after ≠ []
  · rw [if_neg (not_not.mpr hothers)]
    simp only [hothers, and_true]
  · rw [if_pos hothers, if_neg fun h => hothers h.2]

/-- A delete inside a block removes the block if nothing is left of it and there are others. -/
theorem deleteText_block {s e : ℕ} (hs : offsetOf before ≤ s) (hse : s < e)
    (he : e ≤ offsetOf before + text.length) :
    deleteText ((before ++ (name, text) :: after).map block) s (e - s : ℤ) =
      if deleted text (s - offsetOf before) (e - s) = [] ∧ (before ≠ [] ∨ after ≠ []) then
        (before ++ after).map block
      else (before ++ (name, deleted text (s - offsetOf before) (e - s)) :: after).map block := by
  rw [deleteText, affectedBlocks_block hs hse he, forEachXmlTextRange_block hs hse he,
    pruneEmptyBlocks_block]

theorem insertText_block {p : ℕ} {inserted : JsString} (hp : offsetOf before ≤ p)
    (hend : p ≤ offsetOf before + text.length ∨ after = [])
    (hne : inserted ≠ []) (hsplit : splitBlocks inserted = [inserted]) :
    insertText ((before ++ (name, text) :: after).map block) p inserted =
      (before ++ (name, insertAt (splitText text (p - offsetOf before)) (p - offsetOf before)
        inserted) :: after).map block := by
  have hoffset : (min (max ((p : ℤ) - offsetOf before) 0)
      (((offsetOf before + text.length : ℕ) : ℤ) - offsetOf before)).toNat =
      min (p - offsetOf before) text.length := by
    omega
  have htarget : (ranges 0 (before ++ (name, text) :: after))[before.length]? =
      some ⟨offsetOf before, offsetOf before + text.length⟩ := by
    rw [ranges_split]
    simp
  rw [insertText]
  simp only [linearizeXmlText_block, targetIndex_block hp hend, htarget, hsplit, hoffset]
  rw [if_pos (by simp), mapTexts_block fun j hj content => if_neg (by omega), if_pos (by omega),
    insert_ofText hne, splitText_min, insertAt_clip _ _ (p - offsetOf before), length_splitText]
  simp [block]

end Editing

/-- No pair is divided of which a half stays beside the range: not at its start, not at its end,
where a U+FFFD may stand, and not at its start once it is gone. -/
structure KeepsBeside (text : JsString) (offset length : ℕ) : Prop where
  start : splitText text offset = text
  stop : splitText text (offset + length) = text ∨
    text[offset + length]? = some replacementCharacter
  rest : splitText (deleteAt text offset length) offset = deleteAt text offset length

theorem keepsBeside_of_not_dividesPair {text : JsString} {offset length : ℕ}
    (hstart : dividesPair text offset = false) (hstop : dividesPair text (offset + length) = false)
    (hrest : dividesPair (deleteAt text offset length) offset = false) :
    KeepsBeside text offset length where
  start := splitText_of_not_dividesPair hstart
  stop := .inl (splitText_of_not_dividesPair hstop)
  rest := splitText_of_not_dividesPair hrest

theorem keepsBeside_iff {text : JsString} {offset length : ℕ} (h : 0 < length) :
    KeepsBeside text offset length ↔
      splitText (deleted text offset length) offset = deleteAt text offset length := by
  constructor
  · rintro ⟨hstart, hstop, hrest⟩
    rwa [(deleted_eq_iff h).mpr ⟨hstart, hstop⟩]
  · intro heq
    have hdeleted : deleted text offset length = deleteAt text offset length := by
      by_contra hne
      obtain ⟨hpos, hreplaced, hother⟩ := splitText_ne fun hsame => hne (hsame.symm.trans heq)
      -- a U+FFFD in front of the range was there before the insert
      rw [heq, getElem?_deleteAt, if_pos (by omega)] at hreplaced
      refine hother ?_
      rw [deleted, getElem?_deleteAt, if_pos (by omega),
        getElem?_splitText_of_ne _ (by omega) (by omega)]
      by_cases hsame : splitText text offset = text
      · rw [hsame, hreplaced]
      · exact (splitText_ne hsame).2.1
    obtain ⟨hstart, hstop⟩ := (deleted_eq_iff h).mp hdeleted
    exact ⟨hstart, hstop, by rwa [hdeleted] at heq⟩

/-- A replacement in one block puts the new text where the old one was, unless it replaces the
whole text of a block that is not the only one, or divides a pair. -/
theorem applyOps_replacement_iff {before after : List (JsString × JsString)} {name text : JsString}
    {s e : ℕ} (hs : offsetOf before ≤ s) (hse : s < e) (he : e ≤ offsetOf before + text.length)
    {inserted expectedText : JsString} (hne : inserted ≠ [])
    (hline : ¬ blockSeparator <:+: inserted) {anchor : Option Anchor} {ops : List AiOp}
    (hops : ops = [.delete ⟨s, e, expectedText⟩, .insert s inserted anchor] ∨
      ops = [.insert s inserted anchor, .delete ⟨s, e, expectedText⟩]) :
    richService.extractText
        (applyOps richService ((before ++ (name, text) :: after).map block) ops) =
      (richService.extractText ((before ++ (name, text) :: after).map block)).take s ++ inserted ++
        (richService.extractText ((before ++ (name, text) :: after).map block)).drop e ↔
    ¬ (s = offsetOf before ∧ e = offsetOf before + text.length ∧ (before ≠ [] ∨ after ≠ [])) ∧
      KeepsBeside text (s - offsetOf before) (e - s) := by
  rw [keepsBeside_iff (Nat.sub_pos_of_lt hse)]
  have hsplit := splitBlocks_of_no_blank hline
  have happly : applyOps richService ((before ++ (name, text) :: after).map block) ops =
      insertText (deleteText ((before ++ (name, text) :: after).map block) s (e - s : ℤ)) s
        inserted := by
    rw [applyOps, orderOpsForApplication_replacement rfl hops]
    rfl
  have hlength : (deleteAt text (s - offsetOf before) (e - s)).length = text.length - (e - s) := by
    simp [deleteAt]
    omega
  have hempty : deleted text (s - offsetOf before) (e - s) = [] ↔
      s = offsetOf before ∧ e = offsetOf before + text.length := by
    rw [← List.length_eq_zero_iff, length_deleted, hlength]
    omega
  have hbefore : (before.flatMap fun b => b.2 ++ blockSeparator).length = offsetOf before :=
    length_before before
  rw [happly, deleteText_block hs hse he]
  change extractFragmentText _ = (extractFragmentText _).take s ++ inserted ++
    (extractFragmentText _).drop e ↔ _
  rw [extractFragmentText_split before after]
  by_cases hwhole : (s = offsetOf before ∧ e = offsetOf before + text.length) ∧
      (before ≠ [] ∨ after ≠ [])
  · rw [if_pos ⟨hempty.mpr hwhole.1, hwhole.2⟩]
    refine iff_of_false (fun heq => ?_) fun h => h.1 ⟨hwhole.1.1, hwhole.1.2, hwhole.2⟩
    obtain ⟨⟨rfl, rfl⟩, hothers⟩ := hwhole
    -- a separator is missing: the text landed in a neighbour
    have hsize := congrArg List.length heq
    cases after with
    | cons a after =>
      obtain ⟨name', text'⟩ := a
      rw [insertText_block le_rfl (.inl (Nat.le_add_right _ _)) hne hsplit,
        extractFragmentText_split] at hsize
      simp [hbefore] at hsize
      omega
    | nil =>
      obtain ⟨before', b, rfl⟩ :=
        (List.eq_nil_or_concat' before).resolve_left (by simpa using hothers)
      obtain ⟨name', text'⟩ := b
      rw [List.append_nil, insertText_block (by simp [offsetOf]) (.inr rfl) hne hsplit,
        extractFragmentText_split] at hsize
      simp [offsetOf] at hsize
      omega
  · rw [if_neg fun h => hwhole ⟨hempty.mp h.1, h.2⟩,
      and_iff_right fun h => hwhole ⟨⟨h.1, h.2.1⟩, h.2.2⟩,
      insertText_block hs (.inl (by rw [length_deleted, hlength]; omega)) hne hsplit,
      extractFragmentText_split]
    have hinserted := replace_between (before.flatMap fun b => b.2 ++ blockSeparator) text
      (after.flatMap fun b => blockSeparator ++ b.2) inserted
      (show s - offsetOf before + (e - s) ≤ text.length by omega)
    rw [hbefore, Nat.add_sub_cancel' hs, Nat.add_sub_cancel' hse.le] at hinserted
    rw [hinserted, List.append_left_inj, List.append_right_inj]
    exact ⟨fun h => insertAt_left_inj (by simp) h, fun h => congrArg (insertAt · _ inserted) h⟩

end Calls

def twoParagraphs (first second : String) : XmlFragment :=
  [(js "paragraph", js first), (js "paragraph", js second)].map block

theorem applyOps_replaceWord :
    letI := itemTexts
    richService.extractText (applyOps richService (twoParagraphs "abcd" "xyz")
      [.insert 1 (js "XX") none, .delete ⟨1, 3, js "bc"⟩]) =
    (richService.extractText (twoParagraphs "abcd" "xyz")).take 1 ++ js "XX" ++
      (richService.extractText (twoParagraphs "abcd" "xyz")).drop 3 :=
  (@applyOps_replacement_iff itemTexts [] [(js "paragraph", js "xyz")] (js "paragraph") (js "abcd")
    1 3 (by decide) (by decide) (by decide) (js "XX") (js "bc") (by decide) (by decide) none _
    (.inr rfl)).mpr
      ⟨by decide,
        @keepsBeside_of_not_dividesPair itemTexts _ _ _ (by decide) (by decide) (by decide)⟩

/-- Replacing the first paragraph puts the new text into the second. -/
theorem applyOps_replaceParagraph_fails :
    letI := itemTexts
    richService.extractText (applyOps richService (twoParagraphs "alpha" "beta")
      [.delete ⟨0, 5, js "alpha"⟩, .insert 0 (js "new") none]) ≠
    (richService.extractText (twoParagraphs "alpha" "beta")).take 0 ++ js "new" ++
      (richService.extractText (twoParagraphs "alpha" "beta")).drop 5 := by
  decide

end Meridian
