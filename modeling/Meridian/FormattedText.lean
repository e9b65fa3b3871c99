import Meridian.Replacement
import Mathlib

/-! Flat offsets of formatted documents. The flat text shows every formatted run between tags,
and a text is listed with the length it is shown at; its own calls count its characters only. So
a flat range names the characters that it shows as long as no character has a format. -/
namespace Meridian

/-- Listed ranges in order, between two offsets. -/
structure Ordered (low high : ℕ) (nodes : List LinearXmlText) : Prop where
  le : low ≤ high
  bounds : ∀ node ∈ nodes, low ≤ node.start ∧ node.start ≤ node.stop ∧ node.stop ≤ high
  pairwise : nodes.Pairwise fun a b => a.stop ≤ b.start

theorem Ordered.nil {low high : ℕ} (h : low ≤ high) : Ordered low high [] :=
  ⟨h, by simp, .nil⟩

theorem Ordered.append {low middle high : ℕ} {first rest : List LinearXmlText}
    (hfirst : Ordered low middle first) (hrest : Ordered middle high rest) :
    Ordered low high (first ++ rest) := by
  refine ⟨hfirst.le.trans hrest.le, ?_, ?_⟩
  · rintro node hnode
    rcases List.mem_append.mp hnode with h | h
    · obtain ⟨hlow, hle, hhigh⟩ := hfirst.bounds node h
      exact ⟨hlow, hle, hhigh.trans hrest.le⟩
    · obtain ⟨hlow, hle, hhigh⟩ := hrest.bounds node h
      exact ⟨hfirst.le.trans hlow, hle, hhigh⟩
  · refine List.pairwise_append.mpr ⟨hfirst.pairwise, hrest.pairwise, fun a ha b hb => ?_⟩
    exact (hfirst.bounds a ha).2.2.trans (hrest.bounds b hb).1

theorem Ordered.widen {low low' high high' : ℕ} {nodes : List LinearXmlText}
    (h : Ordered low high nodes) (hlow : low' ≤ low) (hhigh : high ≤ high') :
    Ordered low' high' nodes := by
  refine ⟨hlow.trans (h.le.trans hhigh), fun node hnode => ?_, h.pairwise⟩
  obtain ⟨hl, hle, hh⟩ := h.bounds node hnode
  exact ⟨hlow.trans hl, hle, hh.trans hhigh⟩

section Flat

variable [XmlTextCalls]

structure Shows (flat : JsString) (node : LinearXmlText) (content : XmlText) : Prop where
  stop_eq : node.stop = node.start + content.toString.length
  shows : ∀ j c, content.toString[j]? = some c → flat[node.start + j]? = some c

section Reading

theorem extractFragmentText_cons (child : XmlNode) {children : XmlFragment} (h : children ≠ []) :
    extractFragmentText (child :: children) =
      extractInlineText child ++ (blockSeparator ++ extractFragmentText children) := by
  rw [extractFragmentText, List.map_cons, List.intercalate_cons_of_ne_nil (by simpa using h),
    List.append_assoc]
  rfl

mutual

theorem collectXmlText_snd (offset : ℕ) :
    ∀ node, (collectXmlText node offset).2 = offset + (extractInlineText node).length
  | .text _ => rfl
  | .element _ children => collectXmlTexts_snd offset children

theorem collectXmlTexts_snd (offset : ℕ) :
    ∀ nodes, (collectXmlTexts nodes offset).2 = offset + (extractInlineTexts nodes).length
  | [] => rfl
  | child :: children => by
    rw [collectXmlTexts, extractInlineTexts, List.length_append]
    simp only
    rw [collectXmlTexts_snd _ children, collectXmlText_snd offset child, Nat.add_assoc]

end

mutual

theorem ordered_collectXmlText (offset : ℕ) :
    ∀ node, Ordered offset (collectXmlText node offset).2 (collectXmlText node offset).1
  | .text content => by
    refine ⟨Nat.le_add_right _ _, fun node hnode => ?_, List.pairwise_singleton _ _⟩
    cases List.mem_singleton.mp hnode
    exact ⟨le_rfl, Nat.le_add_right _ _, le_rfl⟩
  | .element _ children => ordered_collectXmlTexts offset children

theorem ordered_collectXmlTexts (offset : ℕ) :
    ∀ nodes, Ordered offset (collectXmlTexts nodes offset).2 (collectXmlTexts nodes offset).1
  | [] => .nil le_rfl
  | child :: children =>
    (ordered_collectXmlText offset child).append (ordered_collectXmlTexts _ children)

end

theorem ordered_linearizeBlocks (offset : ℕ) (fragment : XmlFragment) :
    ∃ high, Ordered offset high (linearizeBlocks offset fragment).flatten := by
  induction fragment generalizing offset with
  | nil => exact ⟨offset, .nil le_rfl⟩
  | cons child children ih =>
    obtain ⟨high, hrest⟩ := ih ((collectXmlText child offset).2 + blockSeparator.length)
    have hfirst := ordered_collectXmlText offset child
    exact ⟨high, (hfirst.widen le_rfl (Nat.le_add_right _ _)).append hrest⟩

theorem pairwise_linearizeXmlText (fragment : XmlFragment) :
    (linearizeXmlText fragment).Pairwise fun a b => a.stop ≤ b.start :=
  (ordered_linearizeBlocks 0 fragment).choose_spec.pairwise

mutual

theorem shows_collectXmlText (before after : JsString) : ∀ node,
    List.Forall₂ (Shows (before ++ extractInlineText node ++ after))
      (collectXmlText node before.length).1 node.texts
  | .text content => by
    refine .cons ⟨rfl, fun j c hj => ?_⟩ .nil
    have hlt : j < content.toString.length := (List.getElem?_eq_some_iff.mp hj).1
    rw [extractInlineText, List.append_assoc, List.getElem?_append_right (Nat.le_add_right _ _),
      Nat.add_sub_cancel_left, List.getElem?_append_left hlt, hj]
  | .element _ children => shows_collectXmlTexts before after children

theorem shows_collectXmlTexts (before after : JsString) : ∀ nodes,
    List.Forall₂ (Shows (before ++ extractInlineTexts nodes ++ after))
      (collectXmlTexts nodes before.length).1 (textsOf nodes)
  | [] => .nil
  | child :: children => by
    have hfirst := shows_collectXmlText before (extractInlineTexts children ++ after) child
    have hrest := shows_collectXmlTexts (before ++ extractInlineText child) after children
    simp only [List.length_append, List.append_assoc] at hfirst hrest
    rw [collectXmlTexts, extractInlineTexts, textsOf]
    simp only [List.append_assoc, collectXmlText_snd]
    exact List.rel_append hfirst hrest

end

theorem shows_linearizeBlocks (before after : JsString) (fragment : XmlFragment) :
    List.Forall₂ (Shows (before ++ extractFragmentText fragment ++ after))
      (linearizeBlocks before.length fragment).flatten (textsOf fragment) := by
  induction fragment generalizing before with
  | nil => exact .nil
  | cons child children ih =>
    rw [linearizeBlocks, List.flatten_cons, textsOf, collectXmlText_snd]
    cases children with
    | nil =>
      refine List.rel_append ?_ .nil
      simpa [extractFragmentText] using shows_collectXmlText before after child
    | cons next children =>
      have htext := extractFragmentText_cons child (List.cons_ne_nil next children)
      have hfirst := shows_collectXmlText before
        (blockSeparator ++ extractFragmentText (next :: children) ++ after) child
      have hrest := ih (before ++ extractInlineText child ++ blockSeparator)
      simp only [List.length_append, List.append_assoc] at hfirst hrest
      rw [htext]
      simp only [List.append_assoc]
      refine List.rel_append hfirst ?_
      rw [Nat.add_assoc]
      exact hrest

theorem shows_linearizeXmlText (fragment : XmlFragment) :
    List.Forall₂ (Shows (extractFragmentText fragment)) (linearizeXmlText fragment)
      (textsOf fragment) := by
  simpa [linearizeXmlText] using shows_linearizeBlocks [] [] fragment

end Reading

def placedTexts (fragment : XmlFragment) : List (LinearXmlText × XmlText) :=
  (linearizeXmlText fragment).zip (textsOf fragment)

/-- A flat place where a character of the document is shown, and no tag or separator. -/
def IsCharacter (fragment : XmlFragment) (p : ℤ) : Prop :=
  ∃ placed ∈ placedTexts fragment, ∃ j ∈ placed.2.shown, p = placed.1.start + j

/-- A flat range of characters is handed to every text as the places of those of its characters
that are shown in the range. -/
def RangesAddressed (fragment : XmlFragment) : Prop :=
  ∀ start length : ℤ, (∀ p, start ≤ p → p < start + length → IsCharacter fragment p) →
    ∀ placed ∈ placedTexts fragment, ∀ k j : ℕ, placed.2.shown[k]? = some j →
      ((∃ window ∈ overlap start length placed.1, window.1 ≤ k ∧ k < window.1 + window.2) ↔
        start ≤ placed.1.start + j ∧ (placed.1.start + j : ℤ) < start + length)

def localOffset (position : ℤ) (target : LinearXmlText) : ℕ :=
  (min (max (position - target.start) 0) (target.stop - target.start)).toNat

theorem insertText_eq {fragment : XmlFragment} {position : ℤ} {target : LinearXmlText}
    (h : (linearizeXmlText fragment)[targetIndex (linearizeXmlText fragment) position]? =
      some target) (text : JsString) :
    insertText fragment position text =
      if (splitBlocks text).length ≤ 1 then
        (mapTexts (fun i content => if i = targetIndex (linearizeXmlText fragment) position then
          content.insert (localOffset position target) text else content) fragment 0).1
      else insertBlocks (localOffset position target) (splitBlocks text) fragment
        (targetIndex (linearizeXmlText fragment) position) := by
  unfold insertText
  simp only [h]
  rfl

/-- An insert at a character divides its text as the flat text is divided there. -/
def InsertsAddressed (fragment : XmlFragment) : Prop :=
  ∀ p, IsCharacter fragment p → ∀ placed,
    (placedTexts fragment)[targetIndex (linearizeXmlText fragment) p]? = some placed →
    ∀ k j : ℕ, placed.2.shown[k]? = some j →
      (k < localOffset p placed.1 ↔ (placed.1.start + j : ℤ) < p)

def SizesAgree (fragment : XmlFragment) : Prop :=
  ∀ placed ∈ placedTexts fragment, placed.1.stop - placed.1.start = placed.2.chars.length

def Unformatted (fragment : XmlFragment) : Prop := ∀ content ∈ textsOf fragment, content.Plain

section Addressing

variable {fragment : XmlFragment} {placed : LinearXmlText × XmlText}

theorem shows_of_mem (h : placed ∈ placedTexts fragment) :
    Shows (extractFragmentText fragment) placed.1 placed.2 :=
  (List.forall₂_iff_zip.mp (shows_linearizeXmlText fragment)).2 h

theorem map_snd_placedTexts : (placedTexts fragment).map Prod.snd = textsOf fragment :=
  List.map_snd_zip (List.forall₂_iff_zip.mp (shows_linearizeXmlText fragment)).1.ge

theorem unformatted_iff :
    Unformatted fragment ↔ ∀ placed ∈ placedTexts fragment, placed.2.Plain := by
  rw [Unformatted, ← map_snd_placedTexts, List.forall_mem_map]

omit [XmlTextCalls] in
theorem unformatted_of_all
    (h : (textsOf fragment).all (fun content => content.chars.all fun c => c.2.isEmpty) = true) :
    Unformatted fragment := by
  intro content hcontent c hc
  have hempty := List.all_eq_true.mp (List.all_eq_true.mp h content hcontent) c hc
  exact List.isEmpty_iff.mp hempty

/-- The flat text has a character where its text is said to show it. -/
theorem extractFragmentText_shown (h : placed ∈ placedTexts fragment) {k j : ℕ}
    (hj : placed.2.shown[k]? = some j) :
    (extractFragmentText fragment)[placed.1.start + j]? =
      placed.2.chars[k]?.map Prod.fst := by
  have hk := congrArg (·[k]?) placed.2.toString_shown
  simp only [XmlText.text, List.getElem?_map, hj, Option.map_some] at hk
  cases hc : placed.2.chars[k]? with
  | none => simp [hc] at hk
  | some c =>
    rw [hc, Option.map_some, Option.map_some, Option.some.injEq] at hk
    exact (shows_of_mem h).shows j c.1 hk

theorem shown_le_length (h : placed ∈ placedTexts fragment) {k j : ℕ}
    (hj : placed.2.shown[k]? = some j) :
    k < placed.2.chars.length ∧
      placed.1.start + j + (placed.2.chars.length - k) ≤ placed.1.stop := by
  have hroom := placed.2.shown_room hj
  have hstop := (shows_of_mem h).stop_eq
  omega

/-- In a text without formats the places are those of its own characters. -/
theorem shown_eq_of_plain (h : placed ∈ placedTexts fragment) (hplain : placed.2.Plain) {k j : ℕ}
    (hj : placed.2.shown[k]? = some j) :
    j = k ∧ placed.1.stop = placed.1.start + placed.2.chars.length ∧
      k < placed.2.chars.length := by
  refine ⟨hplain.shown_eq hj, ?_, (placed.2.shown_room hj).1⟩
  rw [(shows_of_mem h).stop_eq, hplain.length_toString]

theorem rangesAddressed_iff : RangesAddressed fragment ↔ Unformatted fragment := by
  rw [unformatted_iff]
  constructor
  · intro h placed hmem
    by_contra hplain
    obtain ⟨k, j, hj, hlt⟩ := XmlText.exists_displaced hplain
    have hstop := shown_le_length hmem hj
    -- The range of the one displaced character is handed on as that of another.
    have hone := h (placed.1.start + j) 1 (fun p hle hlt => ⟨placed, hmem, j,
      List.mem_of_getElem? hj, by omega⟩) placed hmem k j hj
    obtain ⟨window, hwindow, hle, -⟩ := hone.mpr ⟨le_rfl, by omega⟩
    simp only [overlap] at hwindow
    split at hwindow
    · cases hwindow
    · cases hwindow
      omega
  · intro h start length _ placed hmem k j hj
    obtain ⟨rfl, hstop, hk⟩ := shown_eq_of_plain hmem (h placed hmem) hj
    simp only [overlap]
    split
    · simp only [Option.mem_def, reduceCtorEq, false_and, exists_false, false_iff]
      omega
    · simp only [Option.mem_some_iff, exists_eq_left']
      omega

theorem targetIndex_shown {i j : ℕ} {node : LinearXmlText}
    (hi : (linearizeXmlText fragment)[i]? = some node) (hpos : 0 < j)
    (hj : node.start + j ≤ node.stop) :
    targetIndex (linearizeXmlText fragment) (node.start + j) = i := by
  obtain ⟨hlt, hget⟩ := List.getElem?_eq_some_iff.mp hi
  have hfind : (linearizeXmlText fragment).findIdx?
      (fun other => decide ((node.start + j : ℤ) ≤ other.stop)) = some i := by
    rw [List.findIdx?_eq_some_iff_getElem]
    refine ⟨hlt, ?_, fun l hl => ?_⟩
    · rw [hget, decide_eq_true_eq]
      omega
    · have hbefore := List.pairwise_iff_getElem.mp (pairwise_linearizeXmlText fragment) l i
        (hl.trans hlt) hlt hl
      rw [hget] at hbefore
      rw [decide_eq_true_eq]
      omega
  rw [targetIndex, hfind, Option.getD_some]

theorem insertsAddressed_iff : InsertsAddressed fragment ↔ Unformatted fragment := by
  rw [unformatted_iff]
  constructor
  · intro h placed hmem
    by_contra hplain
    obtain ⟨k, j, hj, hlt⟩ := XmlText.exists_displaced hplain
    have hstop := shown_le_length hmem hj
    obtain ⟨i, hi⟩ := List.getElem?_of_mem hmem
    have hnode : (linearizeXmlText fragment)[i]? = some placed.1 :=
      (List.getElem?_zip_eq_some.mp hi).1
    have htarget := targetIndex_shown hnode (Nat.zero_lt_of_lt hlt) (by omega)
    have hone := h (placed.1.start + j) ⟨placed, hmem, j, List.mem_of_getElem? hj, rfl⟩ placed
      (by rw [htarget, hi]) k j hj
    unfold localOffset at hone
    omega
  · intro h p _ placed hplaced k j hj
    have hmem := List.mem_of_getElem? hplaced
    obtain ⟨rfl, hstop, hk⟩ := shown_eq_of_plain hmem (h placed hmem) hj
    unfold localOffset
    omega

theorem sizesAgree_iff : SizesAgree fragment ↔ Unformatted fragment := by
  rw [unformatted_iff]
  refine forall₂_congr fun placed hmem => ⟨fun h => ?_, fun hplain => ?_⟩
  · by_contra hplain
    obtain ⟨k, j, hj, hlt⟩ := XmlText.exists_displaced hplain
    have := shown_le_length hmem hj
    omega
  · rw [(shows_of_mem hmem).stop_eq, hplain.length_toString, Nat.add_sub_cancel_left]

/-- The flat offsets of a document address the characters that they show exactly if no character
has a format. -/
theorem addressed_iff (fragment : XmlFragment) :
    (RangesAddressed fragment ↔ Unformatted fragment) ∧
      (InsertsAddressed fragment ↔ Unformatted fragment) ∧
      (SizesAgree fragment ↔ Unformatted fragment) :=
  ⟨rangesAddressed_iff, insertsAddressed_iff, sizesAgree_iff⟩

end Addressing

end Flat

/-- In a paragraph whose first character has been made bold, no call finds its characters. -/
theorem addressed_fails :
    letI := itemTexts
    let fragment := formatText (createParagraphs (js "abc")) 0 1 [(js "bold", .bool true)]
    ¬ RangesAddressed fragment ∧ ¬ InsertsAddressed fragment ∧ ¬ SizesAgree fragment := by
  intro fragment
  have hbold : ¬ Unformatted fragment := by
    intro h
    cases h _ (.head _) _ (.head _)
  exact ⟨fun h => hbold ((@rangesAddressed_iff itemTexts _).mp h),
    fun h => hbold ((@insertsAddressed_iff itemTexts _).mp h),
    fun h => hbold ((@sizesAgree_iff itemTexts _).mp h)⟩

/-- The delete of the character that is shown second leaves the text as it is. -/
example :
    letI := itemTexts
    let fragment := formatText (createParagraphs (js "abc")) 0 1 [(js "bold", .bool true)]
    extractFragmentText fragment = js "<bold>a</bold>bc" ∧
      extractFragmentText (deleteText fragment 14 1) = extractFragmentText fragment := by
  decide

end Meridian
