import Meridian.BlockInserts

/-! Inserts at a blank block. The block that owns the position has no text to take the insert up, so
the insert goes into the next block that has one, or else into the last, and a document of blank
blocks alone gets new paragraphs in front. -/
namespace Meridian

def readBlock [XmlTextCalls] : XmlNode → JsString × JsString
  | .text content => ([], content.toString)
  | .element nodeName children => (nodeName, extractInlineTexts children)

def newParagraphs (segments : List JsString) : List (JsString × JsString) :=
  segments.map fun segment => (js "paragraph", segment)

/-- An insert puts its segments into the block that owns its position and leaves all other blocks
as they are; the first insert of all makes a paragraph of every segment. -/
structure PutsIntoOwner [XmlTextCalls] (blocks : List EditorBlock) (p : ℕ) (text : JsString) :
    Prop where
  first : blocks = [] →
    (insertText (blocks.map editorBlock) p text).map readBlock = newParagraphs (splitBlocks text)
  owner : ∀ (before : List EditorBlock) (b : EditorBlock) (after : List EditorBlock),
    blocks = before ++ b :: after → Owner before b p →
      (insertText (blocks.map editorBlock) p text).map readBlock =
        before.map shownBlock ++
          insertedBlock (p - offsetOf (before.map shownBlock)) (shownBlock b) (splitBlocks text) ++
            after.map shownBlock

/-- The blocks that an insert passes by on its way from a blank owner to a text: those up to the
next text, or else those behind the last one. -/
def passed (before : List EditorBlock) (b : EditorBlock) (after : List EditorBlock) :
    List EditorBlock :=
  match after.findIdx? fun b => b.2.isSome with
  | some i => after.take (i + 1)
  | none => before.rtakeWhile (fun b => b.2.isNone) ++ [b]

/-- The owner of the position holds a text; or it is blank, another block holds one, and nothing
but newlines is inserted, which only between paragraphs may happen at another place. -/
def OwnerTakesText (blocks : List EditorBlock) (p : ℕ) (text : JsString) : Prop :=
  ∀ (before : List EditorBlock) (b : EditorBlock) (after : List EditorBlock),
    blocks = before ++ b :: after → Owner before b p →
      b.2.isSome = true ∨
        (∃ c ∈ blocks, c.2.isSome = true) ∧ (∀ segment ∈ splitBlocks text, segment = []) ∧
          ((splitBlocks text).length ≤ 1 ∨ ∀ c ∈ passed before b after, c.1 = js "paragraph")

section Commuting

variable {α : Type*} {x y : List α}

theorem forall_mem_of_append_comm {P : α → Prop} (h : x ++ y = y ++ x) (hy : y ≠ [])
    (hP : ∀ a ∈ y, P a) : ∀ a ∈ x, P a := by
  have hindex : ∀ (i : ℕ) (a : α), x[i]? = some a → P a := by
    intro i
    induction i using Nat.strong_induction_on with
    | h i ih =>
      intro a ha
      have hlt := (List.getElem?_eq_some_iff.mp ha).1
      have hboth := congrArg (fun l : List α => l[i]?) h
      simp only [List.getElem?_append_left hlt, ha] at hboth
      by_cases hin : i < y.length
      · rw [List.getElem?_append_left hin] at hboth
        exact hP a (List.mem_of_getElem? hboth.symm)
      · have hpos := List.length_pos_iff.mpr hy
        rw [List.getElem?_append_right (not_lt.mp hin)] at hboth
        exact ih (i - y.length) (by omega) a hboth.symm
  intro a ha
  obtain ⟨i, hi⟩ := List.getElem?_of_mem ha
  exact hindex i a hi

theorem newParagraphs_comm_iff {segments : List JsString} {blanks : List (JsString × JsString)}
    (hblanks : ∀ b ∈ blanks, b.2 = []) (hne : blanks ≠ []) :
    newParagraphs segments ++ blanks = blanks ++ newParagraphs segments ↔
      segments = [] ∨
        (∀ segment ∈ segments, segment = []) ∧ ∀ b ∈ blanks, b.1 = js "paragraph" := by
  constructor
  · intro h
    by_cases hnil : segments = []
    · exact .inl hnil
    · have hnew : newParagraphs segments ≠ [] := by
        rw [newParagraphs, Ne, List.map_eq_nil_iff]
        exact hnil
      refine .inr ⟨fun segment hsegment => ?_, ?_⟩
      · exact forall_mem_of_append_comm h hne hblanks (js "paragraph", segment)
          (List.mem_map_of_mem hsegment)
      · refine forall_mem_of_append_comm h.symm hnew fun b hb => ?_
        obtain ⟨segment, -, rfl⟩ := List.mem_map.mp hb
        rfl
  · rintro (rfl | ⟨hsegments, hnames⟩)
    · exact (List.append_nil blanks).symm
    · have hnew : newParagraphs segments =
          List.replicate segments.length (js "paragraph", []) := by
        refine List.eq_replicate_iff.mpr ⟨List.length_map _, fun b hb => ?_⟩
        obtain ⟨segment, hsegment, rfl⟩ := List.mem_map.mp hb
        rw [hsegments segment hsegment]
      have hold : blanks = List.replicate blanks.length (js "paragraph", []) :=
        List.eq_replicate_iff.mpr ⟨rfl, fun b hb => Prod.ext (hnames b hb) (hblanks b hb)⟩
      rw [hnew, hold, List.replicate_append_replicate, List.replicate_append_replicate,
        Nat.add_comm]

end Commuting

section Reading

theorem spliceBlock_concat (offset : ℕ) (b : JsString × JsString) (segment last : JsString)
    (init : List JsString) :
    spliceBlock offset b (segment :: (init ++ [last])) =
      (b.1, b.2.take offset ++ segment) :: newParagraphs init ++
        [(js "paragraph", last ++ b.2.drop offset)] := by
  obtain ⟨next, rest, hrest⟩ := List.exists_cons_of_ne_nil (List.concat_ne_nil last init)
  rw [hrest, spliceBlock, ← hrest]
  simp [newParagraphs]

theorem newParagraphs_concat (init : List JsString) (last : JsString) :
    newParagraphs (init ++ [last]) = newParagraphs init ++ [(js "paragraph", last)] := by
  rw [newParagraphs, List.map_append]
  rfl

theorem spliceBlock_end {offset : ℕ} {b : JsString × JsString} (h : b.2.length ≤ offset)
    (segment : JsString) (segments : List JsString) :
    spliceBlock offset b (segment :: segments) =
      (b.1, b.2 ++ segment) :: newParagraphs segments := by
  rcases List.eq_nil_or_concat' segments with rfl | ⟨init, last, rfl⟩
  · rw [spliceBlock, List.take_of_length_le h, List.drop_of_length_le h, List.append_nil]
    rfl
  · rw [spliceBlock_concat, newParagraphs_concat, List.take_of_length_le h,
      List.drop_of_length_le h, List.append_nil]
    rfl

variable [XmlTextCalls]

theorem readBlock_editorBlock (blocks : List EditorBlock) :
    (blocks.map editorBlock).map readBlock = blocks.map shownBlock := by
  rw [List.map_map]
  refine List.map_congr_left fun b _ => ?_
  exact Prod.ext rfl (extractInlineText_editorBlock b)

theorem readBlock_block (blocks : List (JsString × JsString)) :
    (blocks.map block).map readBlock = blocks := by
  have := readBlock_editorBlock (blocks.map filled)
  rwa [(map_filled blocks).1, (map_filled blocks).2] at this

theorem exists_owner {blocks : List EditorBlock} (hne : blocks ≠ [])
    (hp : p ≤ (extractFragmentText (blocks.map editorBlock)).length) :
    ∃ before b after, blocks = before ++ b :: after ∧ Owner before b p := by
  obtain ⟨before', b', after', hsplit, hfrom, hto, -⟩ :=
    @exists_splicePoint (blocks.map shownBlock) (by simpa using hne) 0 p (Nat.zero_le p)
  rw [Nat.zero_add] at hfrom hto
  have htext : extractFragmentText (blocks.map editorBlock) =
      extractFragmentText ((before' ++ b' :: after').map block) := by
    rw [← hsplit, extractFragmentText_block, extractFragmentText, List.map_map, List.map_map]
    congr 1
    exact List.map_congr_left fun b _ => extractInlineText_editorBlock b
  obtain ⟨before, tail, rfl, rfl, htail⟩ := List.map_eq_append_iff.mp hsplit
  obtain ⟨b, after, rfl, rfl, rfl⟩ := List.map_eq_cons_iff.mp htail
  refine ⟨before, b, after, rfl, hfrom, hto.elim id fun hlast => ?_⟩
  rw [htext, hlast, extractFragmentText_split] at hp
  simpa [← length_before] using hp

end Reading

section Neighbours

variable {blanks : List (JsString × JsString)} {owner neighbour : JsString × JsString}
  {segment : JsString} {segments : List JsString}

/-- The insert at the end of an earlier block shows as one into the blank owner exactly if only
newlines are inserted and, for more than one segment, there are only paragraphs from there on. -/
theorem earlier_iff (howner : owner.2 = []) (hblanks : ∀ b ∈ blanks, b.2 = []) {p : ℕ} :
    spliceBlock neighbour.2.length neighbour (segment :: segments) ++ blanks ++ [owner] =
        neighbour :: blanks ++ spliceBlock p owner (segment :: segments) ↔
      (∀ s ∈ segment :: segments, s = []) ∧
        ((segment :: segments).length ≤ 1 ∨ ∀ b ∈ blanks ++ [owner], b.1 = js "paragraph") := by
  have hempty : owner.2.length ≤ p := by simp [howner]
  have hall : ∀ b ∈ blanks ++ [owner], b.2 = [] := by
    rw [List.forall_mem_append, List.forall_mem_singleton]
    exact ⟨hblanks, howner⟩
  have hsplit : spliceBlock neighbour.2.length neighbour (segment :: segments) ++ blanks ++
      [owner] =
        neighbour :: blanks ++ spliceBlock p owner (segment :: segments) ↔
      segment = [] ∧
        newParagraphs segments ++ (blanks ++ [owner]) =
          blanks ++ [owner] ++ newParagraphs segments := by
    rw [spliceBlock_end le_rfl, spliceBlock_end hempty, List.cons_append, List.cons_append,
      List.cons_append, List.cons.injEq, Prod.ext_iff]
    simp only [List.append_right_eq_self, true_and]
    refine and_congr_right fun hnil => ?_
    rw [hnil, List.append_nil, List.append_assoc, List.append_assoc]
    rfl
  rw [hsplit, newParagraphs_comm_iff hall (by simp), List.forall_mem_cons, List.length_cons,
    and_assoc]
  refine and_congr_right fun _ => ?_
  constructor
  · rintro (rfl | ⟨hsegments, hnames⟩)
    · exact ⟨fun s hs => absurd hs List.not_mem_nil, .inl le_rfl⟩
    · exact ⟨hsegments, .inr hnames⟩
  · rintro ⟨hsegments, hfew | hnames⟩
    · exact .inl (List.length_eq_zero_iff.mp (by omega))
    · exact .inr ⟨hsegments, hnames⟩

/-- The insert at the start of a later block shows as one into the blank owner in the same cases. -/
theorem later_iff (howner : owner.2 = []) (hblanks : ∀ b ∈ blanks, b.2 = []) {p : ℕ} :
    owner :: blanks ++ spliceBlock 0 neighbour (segment :: segments) =
        spliceBlock p owner (segment :: segments) ++ blanks ++ [neighbour] ↔
      (∀ s ∈ segment :: segments, s = []) ∧
        ((segment :: segments).length ≤ 1 ∨
          ∀ b ∈ blanks ++ [(neighbour.1, [])], b.1 = js "paragraph") := by
  have hempty : owner.2.length ≤ p := by simp [howner]
  have hall : ∀ b ∈ blanks ++ [(neighbour.1, [])], b.2 = [] := by
    rw [List.forall_mem_append, List.forall_mem_singleton]
    exact ⟨hblanks, rfl⟩
  have hhead (x y : List (JsString × JsString)) :
      owner :: x = (owner.1, segment) :: y ↔ segment = [] ∧ x = y := by
    rw [List.cons.injEq, Prod.ext_iff, howner]
    simp [eq_comm]
  rw [spliceBlock_end hempty, howner, List.nil_append, List.cons_append, List.cons_append,
    List.cons_append, hhead, List.forall_mem_cons]
  rcases List.eq_nil_or_concat' segments with rfl | ⟨init, last, rfl⟩
  · refine ⟨fun h => ⟨⟨h.1, fun s hs => absurd hs List.not_mem_nil⟩, .inl le_rfl⟩,
      fun h => ⟨h.1.1, ?_⟩⟩
    rw [h.1.1]
    rfl
  · -- the last block is the neighbour, whose text went to a new paragraph
    have hlast : segment = [] → (blanks ++ spliceBlock 0 neighbour (segment :: (init ++ [last])) =
        newParagraphs (init ++ [last]) ++ blanks ++ [neighbour] ↔
          blanks ++ [(neighbour.1, [])] ++ newParagraphs init =
            newParagraphs (init ++ [last]) ++ blanks ∧
          neighbour.1 = js "paragraph" ∧ last = []) := by
      rintro rfl
      rw [spliceBlock_concat, ← List.append_assoc, List.append_singleton_inj, Prod.ext_iff,
        List.append_cons]
      simp [eq_comm]
    have hcomm := @newParagraphs_comm_iff (init ++ [last]) _ hall (by simp)
    rw [newParagraphs_concat] at hcomm hlast
    rw [newParagraphs_concat, or_iff_right (by simp), and_assoc]
    refine and_congr_right fun hsegment => ?_
    rw [hlast hsegment]
    constructor
    · rintro ⟨hrest, hname, rfl⟩
      refine (or_iff_right (by simp)).mp (hcomm.mp ?_)
      rw [← List.append_assoc _ blanks, ← hrest, hname, List.append_assoc _ (newParagraphs init)]
    · intro h
      have hname : neighbour.1 = js "paragraph" := h.2 (neighbour.1, []) (by simp)
      have hlast : last = [] := h.1 last (by simp)
      have hrest := hcomm.mpr (.inr h)
      rw [hname, hlast, ← List.append_assoc, ← List.append_assoc, List.append_left_inj] at hrest
      rw [hname, hlast, hrest]
      exact ⟨rfl, rfl, rfl⟩

end Neighbours

section Inserts

variable {before after : List EditorBlock} {b : EditorBlock} {p : ℕ} {text : JsString}

theorem exists_first_text {blocks : List EditorBlock} (h : ∃ b ∈ blocks, b.2.isSome = true) :
    ∃ blanks name shown rest, blocks = blanks ++ (name, some shown) :: rest ∧
      ∀ b ∈ blanks, b.2 = none := by
  induction blocks with
  | nil =>
    obtain ⟨b, hb, -⟩ := h
    cases hb
  | cons b blocks ih =>
    obtain ⟨name, _ | shown⟩ := b
    · obtain ⟨c, hc, hsome⟩ := h
      rcases List.mem_cons.mp hc with rfl | hc
      · cases hsome
      · obtain ⟨blanks, name', shown, rest, rfl, hblanks⟩ := ih ⟨c, hc, hsome⟩
        exact ⟨(name, none) :: blanks, name', shown, rest, rfl,
          List.forall_mem_cons.mpr ⟨rfl, hblanks⟩⟩
    · exact ⟨[], name, shown, blocks, rfl, fun _ h => absurd h List.not_mem_nil⟩

theorem exists_last_text {blocks : List EditorBlock} (h : ∃ b ∈ blocks, b.2.isSome = true) :
    ∃ front name shown blanks, blocks = front ++ (name, some shown) :: blanks ∧
      ∀ b ∈ blanks, b.2 = none := by
  obtain ⟨blanks, name, shown, rest, hreverse, hblanks⟩ :=
    @exists_first_text blocks.reverse (by simpa using h)
  refine ⟨rest.reverse, name, shown, blanks.reverse, ?_, fun b hb =>
    hblanks b (List.mem_reverse.mp hb)⟩
  rw [← List.reverse_reverse blocks, hreverse]
  simp

theorem map_shownBlock_blank {blanks : List EditorBlock} (h : ∀ b ∈ blanks, b.2 = none) :
    ∀ b ∈ blanks.map shownBlock, b.2 = [] := by
  intro b hb
  obtain ⟨c, hc, rfl⟩ := List.mem_map.mp hb
  rw [shownBlock, h c hc]
  rfl

theorem textRanges_append_blank {blanks : List EditorBlock} (h : ∀ b ∈ blanks, b.2 = none) :
    textRanges 0 (before ++ blanks) = textRanges 0 before := by
  rw [textRanges_append, textRanges_eq_nil _ h, List.append_nil]

theorem passed_later {blanks rest : List EditorBlock} (h : ∀ b ∈ blanks, b.2 = none)
    (name shown : JsString) :
    passed before b (blanks ++ (name, some shown) :: rest) = blanks ++ [(name, some shown)] := by
  have hfind : (blanks ++ (name, some shown) :: rest).findIdx? (fun b => b.2.isSome) =
      some blanks.length := by
    have hnone : blanks.findIdx? (fun b => b.2.isSome) = none :=
      List.findIdx?_eq_none_iff.mpr fun b hb => by rw [h b hb, Option.isSome_none]
    rw [List.findIdx?_append, hnone, Option.none_or, List.findIdx?_cons]
    simp
  rw [passed, hfind]
  simp [List.take_append]

theorem passed_earlier {front blanks : List EditorBlock} (hafter : ∀ b ∈ after, b.2 = none)
    (h : ∀ b ∈ blanks, b.2 = none) (name shown : JsString) :
    passed (front ++ (name, some shown) :: blanks) b after = blanks ++ [b] := by
  have hnone : after.findIdx? (fun b => b.2.isSome) = none :=
    List.findIdx?_eq_none_iff.mpr fun b hb => by rw [hafter b hb, Option.isSome_none]
  have hblanks : ∀ b ∈ blanks.reverse, b.2.isNone = true := fun b hb => by
    rw [h b (List.mem_reverse.mp hb), Option.isNone_none]
  rw [passed, hnone, List.rtakeWhile, List.reverse_append, List.reverse_cons, List.append_assoc,
    List.takeWhile_append_of_pos hblanks]
  simp

theorem forall_paragraph_iff {blanks : List EditorBlock} {c : EditorBlock} :
    (∀ b ∈ blanks ++ [c], b.1 = js "paragraph") ↔
      ∀ b ∈ blanks.map shownBlock ++ [(c.1, [])], b.1 = js "paragraph" := by
  rw [List.forall_mem_append, List.forall_mem_append, List.forall_mem_map,
    List.forall_mem_singleton, List.forall_mem_singleton]
  rfl

theorem offsetOf_append (x y : List (JsString × JsString)) :
    offsetOf (x ++ y) = offsetOf x + offsetOf y := by
  rw [offsetOf, List.map_append, List.sum_append]
  rfl

variable [XmlTextCalls]

theorem readBlock_insertText {name shown : JsString}
    (hbefore : ∀ node ∈ textRanges 0 before, node.stop < p)
    (hend : p ≤ offsetOf (before.map shownBlock) + shown.length ∨ ∀ b ∈ after, b.2 = none) :
    (insertText ((before ++ (name, some shown) :: after).map editorBlock) p text).map readBlock =
      before.map shownBlock ++
        insertedBlock (min (p - offsetOf (before.map shownBlock)) shown.length) (name, shown)
          (splitBlocks text) ++ after.map shownBlock := by
  rw [insertText_editorBlock hbefore hend, List.map_append, List.map_append, readBlock_editorBlock,
    readBlock_editorBlock, readBlock_block]

theorem later_owner_iff {name name' shown : JsString} {blanks rest : List EditorBlock}
    (hblanks : ∀ b ∈ blanks, b.2 = none) (howner : Owner before (name, none) p) :
    (insertText ((before ++ (name, none) :: (blanks ++ (name', some shown) :: rest)).map
        editorBlock) p text).map readBlock =
        before.map shownBlock ++
          insertedBlock (p - offsetOf (before.map shownBlock)) (name, []) (splitBlocks text) ++
            (blanks ++ (name', some shown) :: rest).map shownBlock ↔
      (∀ segment ∈ splitBlocks text, segment = []) ∧
        ((splitBlocks text).length ≤ 1 ∨
          ∀ c ∈ passed before (name, none) (blanks ++ (name', some shown) :: rest),
            c.1 = js "paragraph") := by
  obtain ⟨segment, segments, hsegments⟩ := List.exists_cons_of_ne_nil (splitBlocks_ne_nil text)
  have hsplit : before ++ (name, none) :: (blanks ++ (name', some shown) :: rest) =
      (before ++ (name, none) :: blanks) ++ (name', some shown) :: rest := by simp
  have hranges : textRanges 0 (before ++ (name, none) :: blanks) = textRanges 0 before :=
    textRanges_append_blank (List.forall_mem_cons.mpr ⟨rfl, hblanks⟩)
  have hle : p ≤ offsetOf ((before ++ (name, none) :: blanks).map shownBlock) := by
    rw [List.map_append, offsetOf_append]
    exact howner.2.trans (Nat.add_le_add_left (Nat.zero_le _) _)
  rw [insertedBlock_end (b := (name, [])) (Nat.zero_le _), hsplit,
    readBlock_insertText (by rw [hranges]; exact stop_lt_of_owner howner.1)
      (.inl (hle.trans (Nat.le_add_right _ _))), Nat.sub_eq_zero_of_le hle, Nat.zero_min,
    insertedBlock_start,
    passed_later hblanks, forall_paragraph_iff, hsegments,
    ← @later_iff (blanks.map shownBlock) (name, []) (name', shown) segment segments rfl
      (map_shownBlock_blank hblanks) (p - offsetOf (before.map shownBlock))]
  have hcancel : ∀ x y z : List (JsString × JsString),
      before.map shownBlock ++ (name, []) :: blanks.map shownBlock ++ x ++ rest.map shownBlock =
          before.map shownBlock ++ y ++ (blanks.map shownBlock ++ z ++ rest.map shownBlock) ↔
        (name, []) :: blanks.map shownBlock ++ x = y ++ blanks.map shownBlock ++ z := by
    intro x y z
    simp only [← List.append_assoc, List.append_left_inj]
    simp only [List.append_assoc, List.append_right_inj]
  rw [← hcancel, List.map_append, List.map_append, List.map_cons, List.map_cons,
    List.append_assoc _ [(name', shown)]]
  rfl

theorem earlier_owner_iff {name name' shown : JsString} {front blanks : List EditorBlock}
    (hblanks : ∀ b ∈ blanks, b.2 = none) (hafter : ∀ b ∈ after, b.2 = none)
    (howner : Owner (front ++ (name', some shown) :: blanks) (name, none) p) :
    (insertText ((front ++ (name', some shown) :: blanks ++ (name, none) :: after).map
        editorBlock) p text).map readBlock =
        (front ++ (name', some shown) :: blanks).map shownBlock ++
          insertedBlock (p - offsetOf ((front ++ (name', some shown) :: blanks).map shownBlock))
            (name, []) (splitBlocks text) ++ after.map shownBlock ↔
      (∀ segment ∈ splitBlocks text, segment = []) ∧
        ((splitBlocks text).length ≤ 1 ∨
          ∀ c ∈ passed (front ++ (name', some shown) :: blanks) (name, none) after,
            c.1 = js "paragraph") := by
  obtain ⟨segment, segments, hsegments⟩ := List.exists_cons_of_ne_nil (splitBlocks_ne_nil text)
  have hsplit : front ++ (name', some shown) :: blanks ++ (name, none) :: after =
      front ++ (name', some shown) :: (blanks ++ (name, none) :: after) := by simp
  have hstops := stop_lt_of_owner howner.1
  rw [textRanges_append, Nat.zero_add, textRanges, List.forall_mem_append,
    List.forall_mem_cons] at hstops
  obtain ⟨hfront, hstop, -⟩ := hstops
  have hstop : offsetOf (front.map shownBlock) + shown.length < p := hstop
  have hrest : ∀ b ∈ blanks ++ (name, none) :: after, b.2 = none :=
    List.forall_mem_append.mpr ⟨hblanks, List.forall_mem_cons.mpr ⟨rfl, hafter⟩⟩
  rw [insertedBlock_end (b := (name, [])) (Nat.zero_le _), hsplit,
    readBlock_insertText hfront (.inr hrest), min_eq_right (by omega),
    insertedBlock_end (b := (name', shown)) le_rfl,
    passed_earlier hafter hblanks, forall_paragraph_iff, hsegments,
    ← @earlier_iff (blanks.map shownBlock) (name, []) (name', shown) segment segments rfl
      (map_shownBlock_blank hblanks)
      (p - offsetOf ((front ++ (name', some shown) :: blanks).map shownBlock))]
  have hcancel : ∀ x y : List (JsString × JsString),
      front.map shownBlock ++ x ++ (blanks.map shownBlock ++ (name, []) :: after.map shownBlock) =
          front.map shownBlock ++ (name', shown) :: blanks.map shownBlock ++ y ++
            after.map shownBlock ↔
        x ++ blanks.map shownBlock ++ [(name, [])] =
          (name', shown) :: blanks.map shownBlock ++ y := by
    intro x y
    rw [List.append_cons (blanks.map shownBlock)]
    simp only [← List.append_assoc, List.append_left_inj]
    simp only [List.append_assoc, List.append_right_inj]
  rw [← hcancel, List.map_append, List.map_append, List.map_cons, List.map_cons]
  rfl

theorem blank_owner_fails {name : JsString} (hbefore : ∀ b ∈ before, b.2 = none)
    (hafter : ∀ b ∈ after, b.2 = none) (offset : ℕ) :
    (insertText ((before ++ (name, none) :: after).map editorBlock) p text).map readBlock ≠
      before.map shownBlock ++ insertedBlock offset (name, []) (splitBlocks text) ++
        after.map shownBlock := by
  intro h
  have hlength := congrArg List.length h
  rw [insertText_blank (List.forall_mem_append.mpr ⟨hbefore, List.forall_mem_cons.mpr
    ⟨rfl, hafter⟩⟩)] at hlength
  simp [createParagraphs, length_insertedBlock _ _ (splitBlocks_ne_nil text)] at hlength
  omega

/-- One owner: the insert shows as one into it exactly if it holds a text, or nothing but newlines
are inserted and no block with another name is passed. -/
theorem owner_iff (howner : Owner before b p) :
    (insertText ((before ++ b :: after).map editorBlock) p text).map readBlock =
        before.map shownBlock ++
          insertedBlock (p - offsetOf (before.map shownBlock)) (shownBlock b) (splitBlocks text) ++
            after.map shownBlock ↔
      b.2.isSome = true ∨
        (∃ c ∈ before ++ b :: after, c.2.isSome = true) ∧
          (∀ segment ∈ splitBlocks text, segment = []) ∧
          ((splitBlocks text).length ≤ 1 ∨ ∀ c ∈ passed before b after, c.1 = js "paragraph") := by
  have hbefore := stop_lt_of_owner howner.1
  obtain ⟨name, _ | shown⟩ := b
  · have hblank {blocks : List EditorBlock} (h : ¬ ∃ b ∈ blocks, b.2.isSome = true) :
        ∀ b ∈ blocks, b.2 = none := fun b hb =>
      Option.not_isSome_iff_eq_none.mp fun hsome => h ⟨b, hb, hsome⟩
    rw [or_iff_right (show ¬ (none : Option JsString).isSome = true from Bool.false_ne_true)]
    by_cases hafter : ∃ b ∈ after, b.2.isSome = true
    · obtain ⟨blanks, name', shown, rest, rfl, hblanks⟩ := exists_first_text hafter
      rw [and_iff_right ⟨(name', some shown), by simp, rfl⟩]
      exact later_owner_iff hblanks howner
    · by_cases hearlier : ∃ b ∈ before, b.2.isSome = true
      · obtain ⟨front, name', shown, blanks, rfl, hblanks⟩ := exists_last_text hearlier
        rw [and_iff_right ⟨(name', some shown), by simp, rfl⟩]
        exact earlier_owner_iff hblanks (hblank hafter) howner
      · refine iff_of_false (blank_owner_fails (hblank hearlier) (hblank hafter) _) ?_
        rintro ⟨⟨c, hc, hsome⟩, -⟩
        rw [List.mem_append, List.mem_cons] at hc
        rcases hc with hc | rfl | hc
        · exact hearlier ⟨c, hc, hsome⟩
        · cases hsome
        · exact hafter ⟨c, hc, hsome⟩
  · refine iff_of_true ?_ (.inl rfl)
    have hto : p ≤ offsetOf (before.map shownBlock) + shown.length := howner.2
    rw [readBlock_insertText hbefore (.inl hto), min_eq_left (by omega)]
    rfl

/-- An insert goes into the block that owns its position exactly if this holds a text. -/
theorem putsIntoOwner_iff (blocks : List EditorBlock) (p : ℕ) (text : JsString) :
    PutsIntoOwner blocks p text ↔ OwnerTakesText blocks p text := by
  constructor
  · rintro h before b after rfl howner
    exact (owner_iff howner).mp (h.owner before b after rfl howner)
  · intro h
    refine ⟨?_, ?_⟩
    · rintro rfl
      have hnew : createParagraphs text = (newParagraphs (splitBlocks text)).map block := by
        rw [newParagraphs, List.map_map]
        rfl
      rw [insertText_blank (fun _ h => absurd h List.not_mem_nil), hnew, List.map_nil,
        List.append_nil, readBlock_block]
    · rintro before b after rfl howner
      exact (owner_iff howner).mpr (h before b after rfl howner)

theorem PutsIntoOwner.length_eq {blocks : List EditorBlock} {p : ℕ} {text : JsString}
    (h : PutsIntoOwner blocks p text) (hne : blocks ≠ [])
    (hp : p ≤ (extractFragmentText (blocks.map editorBlock)).length) :
    (insertText (blocks.map editorBlock) p text).length + 1 =
      blocks.length + (splitBlocks text).length := by
  obtain ⟨before, b, after, rfl, howner⟩ := exists_owner hne hp
  have hlength := congrArg List.length (h.owner before b after rfl howner)
  simp only [List.length_map, List.length_append,
    length_insertedBlock _ _ (splitBlocks_ne_nil text)] at hlength
  rw [hlength, List.length_append, List.length_cons]
  omega

end Inserts

def blankFirst : List EditorBlock := [(js "paragraph", none), (js "paragraph", some (js "abc"))]

/-- The text for the blank paragraph goes into the other one. -/
theorem putsIntoOwner_fails :
    letI := itemTexts
    ¬ PutsIntoOwner blankFirst 0 (js "x") := by
  intro h
  have howner : Owner [] (js "paragraph", none) 0 := ⟨by decide, by decide⟩
  have hputs := @PutsIntoOwner.owner itemTexts _ _ _ h [] (js "paragraph", none)
    [(js "paragraph", some (js "abc"))] rfl howner
  revert hputs
  decide

end Meridian
