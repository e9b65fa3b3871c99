import Meridian.RichBatch

/-! A batch and the flat text. The language model names flat offsets, of a text that joins all
texts of the document and the blank lines between its blocks. A batch without formats that deletes
characters only does to the flat text what its operations do at once, as on a document that is
nothing but its text. -/
namespace Meridian

open Splice

/-- Ranges that follow each other without a gap, from an offset to another. -/
def Consecutive : ℕ → ℕ → List LinearXmlText → Prop
  | low, high, [] => low = high
  | low, high, node :: nodes => node.start = low ∧ Consecutive node.stop high nodes

section Ranges

variable {low middle high : ℕ} {nodes nodes' : List LinearXmlText}

theorem Consecutive.append (h : Consecutive low middle nodes)
    (h' : Consecutive middle high nodes') : Consecutive low high (nodes ++ nodes') := by
  induction nodes generalizing low with
  | nil => exact (h : low = middle) ▸ h'
  | cons node nodes ih => exact ⟨h.1, ih h.2⟩

theorem Consecutive.start_eq (h : Consecutive low high nodes) {j : ℕ} {node : LinearXmlText}
    (hj : nodes[j + 1]? = some node) : ∃ previous, nodes[j]? = some previous ∧
      previous.stop = node.start := by
  induction nodes generalizing low j with
  | nil => cases hj
  | cons first nodes ih =>
    cases j with
    | zero =>
      refine ⟨first, rfl, ?_⟩
      cases nodes with
      | nil => cases hj
      | cons second nodes =>
        cases hj
        exact h.2.1.symm
    | succ j => exact ih h.2 hj

variable [XmlTextCalls]

mutual

theorem consecutive_collectXmlText (offset : ℕ) : ∀ node,
    Consecutive offset (collectXmlText node offset).2 (collectXmlText node offset).1
  | .text _ => ⟨rfl, rfl⟩
  | .element _ children => consecutive_collectXmlTexts offset children

theorem consecutive_collectXmlTexts (offset : ℕ) : ∀ nodes,
    Consecutive offset (collectXmlTexts nodes offset).2 (collectXmlTexts nodes offset).1
  | [] => rfl
  | child :: children =>
    (consecutive_collectXmlText offset child).append (consecutive_collectXmlTexts _ children)

end

end Ranges

section Trails

variable [XmlTextCalls] {edits : List (Edit CodeUnit)} {f : ℕ → XmlText → XmlText}

/-- The text under a node, of which every text is edited at its range. The first text also has what
is inserted in front of it. -/
def Trails (edits : List (Edit CodeUnit)) (f : ℕ → XmlText → XmlText) (i : ℕ) (first : JsString)
    (placed : List (LinearXmlText × XmlText)) : Prop :=
  ∀ j p, placed[j]? = some p → (f (i + j) p.2).toString =
    (if j = 0 then first else []) ++ trailFrom edits p.1.start p.2.toString

theorem Trails.of_append {i : ℕ} {first : JsString}
    {placed placed' : List (LinearXmlText × XmlText)}
    (h : Trails edits f i first (placed ++ placed')) :
    Trails edits f i first placed ∧
      Trails edits f (i + placed.length) (if placed.length = 0 then first else []) placed' := by
  constructor
  · intro j p hp
    refine h j p ?_
    rw [List.getElem?_append_left (List.getElem?_eq_some_iff.mp hp).1, hp]
  · intro j p hp
    rw [Nat.add_assoc, h (placed.length + j) p (by
      rw [List.getElem?_append_right (Nat.le_add_right _ _), Nat.add_sub_cancel_left, hp])]
    congr 1
    grind

mutual

theorem extractInlineText_trail (offset i : ℕ) (first : JsString) : ∀ node,
    Trails edits f i first ((collectXmlText node offset).1.zip node.texts) →
      extractInlineText (mapText f node i).1 =
        (if textCount node = 0 then [] else first) ++
          trailFrom edits offset (extractInlineText node)
  | .text _, h => h 0 _ rfl
  | .element _ children, h => extractInlineTexts_trail offset i first children h

theorem extractInlineTexts_trail (offset i : ℕ) (first : JsString) : ∀ nodes,
    Trails edits f i first ((collectXmlTexts nodes offset).1.zip (textsOf nodes)) →
      extractInlineTexts (mapTexts f nodes i).1 =
        (if textCounts nodes = 0 then [] else first) ++
          trailFrom edits offset (extractInlineTexts nodes)
  | [], _ => rfl
  | child :: children, h => by
    rw [collectXmlTexts, textsOf,
      List.zip_append (by rw [length_collectXmlText, length_texts])] at h
    obtain ⟨hchild, hchildren⟩ := h.of_append
    rw [length_zip_texts] at hchildren
    rw [mapTexts]
    simp only [(texts_mapText f i child).2]
    rw [extractInlineTexts, extractInlineTexts, extractInlineText_trail offset i first child hchild,
      extractInlineTexts_trail _ _ _ children hchildren, collectXmlText_snd, trailFrom_append,
      textCounts]
    by_cases hnone : textCount child = 0
    · have hempty : extractInlineText child = [] := by
        rw [extractInlineText_eq_flatMap, List.eq_nil_of_length_eq_zero
          ((length_texts child).trans hnone)]
        rfl
      simp [hnone, hempty, trailFrom]
    · simp [hnone]

end

end Trails

/-- Edits of the flat text that insert into texts and delete characters of texts. -/
structure InTexts (nodes : List LinearXmlText) (edits : List (Edit CodeUnit)) : Prop where
  inserted : ∀ p, insertedAt edits p ≠ [] → ∃ node ∈ nodes, node.start ≤ p ∧ p ≤ node.stop
  deleted : ∀ p, deletedAt edits p = true → ∃ node ∈ nodes, node.start ≤ p ∧ p < node.stop

section Flat

variable {nodes before : List LinearXmlText} {edits : List (Edit CodeUnit)}
  {f : ℕ → XmlText → XmlText} {node : LinearXmlText}

theorem targetIndex_le {k : ℕ} {position : ℤ} (hnode : nodes[k]? = some node)
    (h : position ≤ node.stop) : targetIndex nodes position ≤ k := by
  obtain ⟨hk, rfl⟩ := List.getElem?_eq_some_iff.mp hnode
  rw [targetIndex]
  cases hfind : nodes.findIdx? fun node => decide (position ≤ node.stop) with
  | none =>
    have hnone := List.findIdx?_eq_none_iff.mp hfind _ (List.getElem_mem hk)
    exact absurd h (of_decide_eq_false hnone)
  | some t =>
    obtain ⟨ht, -, hbefore⟩ := List.findIdx?_eq_some_iff_getElem.mp hfind
    rw [Option.getD_some]
    by_contra hlt
    exact hbefore k (not_le.mp hlt) (decide_eq_true h)

theorem InTexts.separator (hin : InTexts nodes edits) {q : ℕ}
    (h : ∀ node ∈ nodes, node.stop ≤ q ∨ q + 2 ≤ node.start) :
    trailFrom edits q blockSeparator = blockSeparator ++ insertedAt edits (q + 2) := by
  have hkept : ∀ p, q ≤ p → p < q + 2 → deletedAt edits p = false := by
    intro p hlow hhigh
    refine Bool.eq_false_iff.mpr fun hgone => ?_
    obtain ⟨node, hnode, hstart, hstop⟩ := hin.deleted p hgone
    have := h node hnode
    omega
  have hnone : insertedAt edits (q + 1) = [] := by
    by_contra hsome
    obtain ⟨node, hnode, hstart, hstop⟩ := hin.inserted _ hsome
    have := h node hnode
    omega
  have hfirst := hkept q le_rfl (by omega)
  have hsecond := hkept (q + 1) (by omega) (by omega)
  simp [blockSeparator, js, trailFrom, hfirst, hsecond, hnone]

variable [XmlTextCalls] {rest : List LinearXmlText} {offset : ℕ}

/-- The inserts at the start of a block go into its first text, and no later text has them. -/
theorem extractInlineText_block_trail (hin : InTexts nodes edits) (child : XmlNode)
    (hnodes : nodes = before ++ ((collectXmlText child offset).1 ++ rest))
    (hbefore : ∀ node ∈ before, node.stop < offset)
    (hrest : ∀ node ∈ rest, offset < node.start)
    (htexts : ∀ j p, ((collectXmlText child offset).1.zip child.texts)[j]? = some p →
      (f (before.length + j) p.2).toString =
        (if targetIndex nodes p.1.start = before.length + j then insertedAt edits p.1.start
          else []) ++ trailFrom edits p.1.start p.2.toString) :
    extractInlineText (mapText f child before.length).1 =
      insertedAt edits offset ++ trailFrom edits offset (extractInlineText child) := by
  have hconsecutive := consecutive_collectXmlText offset child
  have hbounds := (ordered_collectXmlText offset child).bounds
  have htrails : Trails edits f before.length (insertedAt edits offset)
      ((collectXmlText child offset).1.zip child.texts) := by
    intro j p hp
    have hnode := (List.getElem?_zip_eq_some.mp hp).1
    rw [htexts j p hp]
    congr 1
    cases j with
    | zero =>
      obtain ⟨first, others, hlist⟩ : ∃ first others,
          (collectXmlText child offset).1 = first :: others := by
        cases hlist : (collectXmlText child offset).1 with
        | nil => rw [hlist] at hnode; cases hnode
        | cons first others => exact ⟨first, others, rfl⟩
      rw [hlist] at hnode hconsecutive hnodes
      cases hnode
      have hstart : p.1.start = offset := hconsecutive.1
      have htarget : targetIndex nodes p.1.start = before.length := by
        rw [hnodes]
        refine targetIndex_append (fun node hnode => ?_) (.inl ?_)
        · have := hbefore node hnode
          omega
        · have := (hbounds p.1 (hlist ▸ List.mem_cons_self)).2.1
          omega
      rw [Nat.add_zero, if_pos htarget, if_pos rfl, hstart]
    | succ j =>
      obtain ⟨previous, hprevious, hstop⟩ := hconsecutive.start_eq hnode
      have hindex : nodes[before.length + j]? = some previous := by
        rw [hnodes, List.getElem?_append_right (Nat.le_add_right _ _), Nat.add_sub_cancel_left,
          List.getElem?_append_left (List.getElem?_eq_some_iff.mp hprevious).1, hprevious]
      have htarget : targetIndex nodes p.1.start ≤ before.length + j :=
        targetIndex_le hindex (by omega)
      rw [if_neg (by omega), if_neg (Nat.succ_ne_zero j)]
  rw [extractInlineText_trail offset _ _ child htrails]
  by_cases hnone : textCount child = 0
  · have hempty : (collectXmlText child offset).1 = [] :=
      List.eq_nil_of_length_eq_zero ((length_collectXmlText offset child).trans hnone)
    have hno : insertedAt edits offset = [] := by
      by_contra hsome
      obtain ⟨node, hnode, hstart, hstop⟩ := hin.inserted _ hsome
      rw [hnodes, hempty, List.nil_append] at hnode
      rcases List.mem_append.mp hnode with h | h
      · have := hbefore node h
        omega
      · have := hrest node h
        omega
    rw [if_pos hnone, hno]
  · rw [if_neg hnone]

/-- The text that is edited text by text is the flat text under the edits. -/
theorem extractFragmentText_trail (hin : InTexts nodes edits) (before : List LinearXmlText)
    {fragment : XmlFragment}
    (hne : fragment ≠ []) (hnodes : nodes = before ++ (linearizeBlocks offset fragment).flatten)
    (hbefore : ∀ node ∈ before, node.stop < offset)
    (htexts : ∀ j p,
      ((linearizeBlocks offset fragment).flatten.zip (textsOf fragment))[j]? = some p →
      (f (before.length + j) p.2).toString =
        (if targetIndex nodes p.1.start = before.length + j then insertedAt edits p.1.start
          else []) ++ trailFrom edits p.1.start p.2.toString) :
    extractFragmentText (mapTexts f fragment before.length).1 =
      insertedAt edits offset ++ trailFrom edits offset (extractFragmentText fragment) := by
  induction fragment generalizing before offset with
  | nil => exact absurd rfl hne
  | cons child children ih =>
    have hlist := ordered_collectXmlText offset child
    obtain ⟨high, hothers⟩ := ordered_linearizeBlocks
      ((collectXmlText child offset).2 + blockSeparator.length) children
    rw [linearizeBlocks, List.flatten_cons] at hnodes htexts
    rw [textsOf, List.zip_append (by rw [length_collectXmlText, length_texts])] at htexts
    have hblock := extractInlineText_block_trail hin child hnodes hbefore (f := f)
      (fun node hnode => by
        have := (hothers.bounds node hnode).1
        have := hlist.le
        rw [blockSeparator_length] at *
        omega)
      fun j p hp => htexts j p <| by
        rw [List.getElem?_append_left (List.getElem?_eq_some_iff.mp hp).1, hp]
    rw [mapTexts]
    simp only [(texts_mapText f before.length child).2]
    cases children with
    | nil =>
      rw [mapTexts]
      simpa [extractFragmentText] using hblock
    | cons next children =>
      have hnodes' : nodes = (before ++ (collectXmlText child offset).1) ++
          (linearizeBlocks ((collectXmlText child offset).2 + blockSeparator.length)
            (next :: children)).flatten := by
        rw [hnodes, List.append_assoc]
      have hbefore' : ∀ node ∈ before ++ (collectXmlText child offset).1,
          node.stop ≤ (collectXmlText child offset).2 := by
        intro node hnode
        rcases List.mem_append.mp hnode with h | h
        · exact (hbefore node h).le.trans hlist.le
        · exact (hlist.bounds node h).2.2
      have hnext := ih _ (List.cons_ne_nil next children) hnodes'
        (fun node hnode => (hbefore' node hnode).trans_lt (Nat.lt_add_of_pos_right (by decide)))
        fun j p hp => by
          rw [List.length_append, Nat.add_assoc]
          refine htexts _ p ?_
          rw [length_collectXmlText, ← length_zip_texts offset child,
            List.getElem?_append_right (Nat.le_add_right _ _), Nat.add_sub_cancel_left, hp]
      have hseparator := hin.separator (q := (collectXmlText child offset).2) fun node hnode => by
        rw [hnodes'] at hnode
        rcases List.mem_append.mp hnode with h | h
        · exact .inl (hbefore' node h)
        · exact .inr (hothers.bounds node h).1
      have hsome : (mapTexts f (next :: children) (before.length + textCount child)).1 ≠ [] := by
        rw [mapTexts]
        exact List.cons_ne_nil _ _
      rw [List.length_append, length_collectXmlText] at hnext
      rw [extractFragmentText_cons _ hsome, extractFragmentText_cons child
        (List.cons_ne_nil next children), hblock, hnext, trailFrom_append, trailFrom_append,
        ← collectXmlText_snd, hseparator, blockSeparator_length]
      simp only [List.append_assoc]

end Flat

section Batch

variable {fragment : XmlFragment} {ops : List AiOp} {i k : ℕ} {node : LinearXmlText}
  {content : XmlText}

theorem EditsApart.distinctInserts {n : ℕ} (h : EditsApart n ops) :
    DistinctInserts (ops.filterMap toEdit) := by
  refine List.Pairwise.filterMap toEdit (fun a b hab e he e' he' hi hi' heq => ?_)
    (h.distinct.imp_of_mem fun ha hb hab => And.intro (h.inside ha) (And.intro (h.inside hb) hab))
  obtain ⟨ha, hb, hne⟩ := hab
  obtain ⟨hposition, -, hkind⟩ := toEdit_spec ha.1 ha.2.1 he
  obtain ⟨hposition', -, hkind'⟩ := toEdit_spec hb.1 hb.2.1 he'
  exact hne (hkind ▸ hi) (hkind' ▸ hi') (by omega)

theorem EditsApart.insert_mem {n : ℕ} (h : EditsApart n ops) {p : ℕ} {text : JsString} :
    .insert p text ∈ ops.filterMap toEdit ↔ ∃ anchor, .insert (p : ℤ) text anchor ∈ ops := by
  rw [List.mem_filterMap]
  constructor
  · rintro ⟨op, hop, hedit⟩
    cases op with
    | insert position text' anchor =>
      obtain ⟨hp, rfl⟩ := Edit.insert.inj (Option.some.inj hedit)
      have hnonneg : 0 ≤ position := (h.inside hop).1
      obtain rfl : position = p := by omega
      exact ⟨anchor, hop⟩
    | delete range => cases hedit
    | format range formats => cases hedit
  · rintro ⟨anchor, hop⟩
    exact ⟨_, hop, rfl⟩

theorem EditsApart.deletedAt_iff {n : ℕ} (h : EditsApart n ops) {p : ℕ} :
    deletedAt (ops.filterMap toEdit) p = true ↔
      ∃ range : TextRange, .delete range ∈ ops ∧ range.start ≤ p ∧ p < range.stop := by
  rw [Splice.deletedAt_iff]
  constructor
  · rintro ⟨start, length, hmem, hlow, hhigh⟩
    obtain ⟨op, hop, hedit⟩ := List.mem_filterMap.mp hmem
    cases op with
    | insert position text anchor => cases hedit
    | delete range =>
      obtain ⟨hnonneg, hlt, -⟩ := h.ranges _ hop range rfl
      obtain ⟨rfl, rfl⟩ := Edit.delete.inj (Option.some.inj hedit)
      exact ⟨range, hop, by omega, by omega⟩
    | format range formats => cases hedit
  · rintro ⟨range, hop, hlow, hhigh⟩
    obtain ⟨hnonneg, hlt, -⟩ := h.ranges _ hop range rfl
    exact ⟨_, _, List.mem_filterMap.mpr ⟨_, hop, rfl⟩, by omega, by omega⟩

def plainChar (c : CodeUnit) : CodeUnit × Attributes := (c, [])

theorem formatted_of_noFormat (hformats : ∀ range formats, .format range formats ∉ ops) (start : ℕ)
    (chars : List (CodeUnit × Attributes)) : formatted ops start chars = chars := by
  induction ops with
  | nil => exact formatted_nil start chars
  | cons op ops ih =>
    have hop : formatted [op] start chars = chars := by
      refine formatted_eq_self fun k _ attributes => ?_
      cases op with
      | insert position text anchor => rfl
      | delete range => rfl
      | format range formats => exact absurd List.mem_cons_self (hformats range formats)
    rw [formatted_cons, hop, ih fun range formats hmem =>
      hformats range formats (List.mem_cons_of_mem _ hmem)]

variable [XmlTextCalls]

/-- What is inserted at a place of a text is what is inserted at its flat offset, if this falls to
the text. -/
theorem insertedAt_ownEdit (h : BatchFits fragment ops)
    (hnode : (linearizeXmlText fragment)[i]? = some node) (hk : node.start + k ≤ node.stop) :
    insertedAt (ops.filterMap (ownEdit (linearizeXmlText fragment) i node)) k =
      (if targetIndex (linearizeXmlText fragment) (node.start + k : ℕ) = i then
        insertedAt (ops.filterMap toEdit) (node.start + k) else []).map plainChar := by
  by_cases hown : ∃ text anchor, AiOp.insert (node.start + k : ℕ) text anchor ∈ ops ∧
      targetIndex (linearizeXmlText fragment) (node.start + k : ℕ) = i
  · obtain ⟨text, anchor, hop, htarget⟩ := hown
    have hedit : ownEdit (linearizeXmlText fragment) i node
        (.insert (node.start + k : ℕ) text anchor) = some (.insert k (text.map plainChar)) := by
      have hoffset : localOffset (node.start + k : ℕ) node = k := by
        unfold localOffset
        omega
      rw [ownEdit, if_pos htarget.symm, hoffset]
      rfl
    rw [if_pos htarget, insertedAt_eq (h.distinctInserts hnode)
      (List.mem_filterMap.mpr ⟨_, hop, hedit⟩),
      insertedAt_eq h.apart.distinctInserts (h.apart.insert_mem.mpr ⟨anchor, hop⟩)]
  · rw [insertedAt_eq_nil fun text hmem => ?_]
    · split
      · next htarget =>
        rw [insertedAt_eq_nil fun text hmem => ?_]
        · rfl
        · obtain ⟨anchor, hop⟩ := h.apart.insert_mem.mp hmem
          exact hown ⟨text, anchor, hop, htarget⟩
      · rfl
    · obtain ⟨op, hop, hedit⟩ := List.mem_filterMap.mp hmem
      obtain ⟨-, -, -, hkind, hat⟩ := ownEdit_spec (h.fits hop hnode).1 hedit
      cases op with
      | insert position text' anchor =>
        have hposition : (node.start + k : ℕ) = position := (Nat.cast_add _ _).trans (hat rfl)
        rw [ownEdit] at hedit
        split at hedit
        · next hi => exact hown ⟨text', anchor, hposition ▸ hop, hposition ▸ hi.symm⟩
        · cases hedit
      | delete range => cases hkind
      | format range formats => cases hedit

theorem deletedAt_ownEdit (h : BatchFits fragment ops) (hk : node.start + k < node.stop) :
    deletedAt (ops.filterMap (ownEdit (linearizeXmlText fragment) i node)) k =
      deletedAt (ops.filterMap toEdit) (node.start + k) := by
  rw [Bool.eq_iff_iff, h.apart.deletedAt_iff, Splice.deletedAt_iff]
  constructor
  · rintro ⟨start, length, hmem, hlow, hhigh⟩
    obtain ⟨op, hop, hedit⟩ := List.mem_filterMap.mp hmem
    cases op with
    | insert position text anchor =>
      rw [ownEdit] at hedit
      split at hedit <;> cases hedit
    | delete range =>
      rw [ownEdit] at hedit
      obtain ⟨window, hwindow, hsame⟩ := Option.map_eq_some_iff.mp hedit
      cases hsame
      refine ⟨range, hop, ?_⟩
      unfold overlap at hwindow
      dsimp only at hwindow
      split at hwindow
      · cases hwindow
      · cases hwindow
        omega
    | format range formats => cases hedit
  · rintro ⟨range, hop, hlow, hhigh⟩
    cases hwindow : overlap range.start (range.stop - range.start) node with
    | none =>
      unfold overlap at hwindow
      dsimp only at hwindow
      split at hwindow
      · omega
      · cases hwindow
    | some window =>
      refine ⟨window.1, window.2, List.mem_filterMap.mpr ⟨_, hop, ?_⟩, ?_⟩
      · rw [ownEdit, hwindow]
        rfl
      · unfold overlap at hwindow
        dsimp only at hwindow
        split at hwindow
        · cases hwindow
        · cases hwindow
          omega

theorem toString_editedText (h : BatchFits fragment ops)
    (hformats : ∀ range formats, .format range formats ∉ ops)
    (hplaced : (placedTexts fragment)[i]? = some (node, content)) (hplain : content.Plain) :
    (editedText (linearizeXmlText fragment) ops i node content).toString =
      (if targetIndex (linearizeXmlText fragment) node.start = i then
        insertedAt (ops.filterMap toEdit) node.start else []) ++
          trailFrom (ops.filterMap toEdit) node.start content.toString := by
  have hnode : (linearizeXmlText fragment)[i]? = some node :=
    (List.getElem?_zip_eq_some.mp hplaced).1
  have hstop : node.stop = node.start + content.toString.length :=
    (shows_of_mem (List.mem_of_getElem? hplaced)).stop_eq
  obtain ⟨text, rfl⟩ : ∃ text, content = .ofText text := ⟨_, hplain.eq_ofText⟩
  rw [XmlText.toString_ofText] at hstop ⊢
  have htrail : trailFrom (ops.filterMap (ownEdit (linearizeXmlText fragment) i node)) 0
      (text.map plainChar) = (trailFrom (ops.filterMap toEdit) node.start text).map plainChar := by
    refine trailFrom_map plainChar fun j hj => ⟨?_, ?_⟩
    · rw [Nat.zero_add, deletedAt_ownEdit h (by omega)]
    · have htarget := targetIndex_shown hnode (Nat.zero_lt_succ j) (by omega)
      rw [Nat.zero_add, insertedAt_ownEdit h hnode (by omega), if_pos (by exact_mod_cast htarget)]
  have hchars : editedText (linearizeXmlText fragment) ops i node (.ofText text) =
      .ofText ((if targetIndex (linearizeXmlText fragment) node.start = i then
        insertedAt (ops.filterMap toEdit) node.start else []) ++
          trailFrom (ops.filterMap toEdit) node.start text) := by
    have hhead := insertedAt_ownEdit h hnode (k := 0) (by omega)
    rw [Nat.add_zero] at hhead
    rw [editedText, formatted_of_noFormat hformats, simultaneous_eq_trail, XmlText.ofText,
      XmlText.ofText, List.map_append]
    exact congrArg XmlText.mk (congrArg₂ (· ++ ·) hhead htrail)
  rw [hchars, XmlText.toString_ofText]

/-- A batch without formats that deletes nothing but characters does to the flat text of a rich
document what it does at once to a plain text. -/
theorem extractText_applyOps_rich (hplain : Unformatted fragment)
    (hrange : hasRangeEdit ops = true) (h : BatchFits fragment ops)
    (hformats : ∀ range formats, .format range formats ∉ ops)
    (hdeletes : ∀ range : TextRange, .delete range ∈ ops → ∀ p : ℕ, range.start ≤ p →
      p < range.stop → ∃ node ∈ linearizeXmlText fragment, node.start ≤ p ∧ p < node.stop) :
    richService.extractText (applyOps richService fragment ops) =
      simultaneousEdit (richService.extractText fragment) ops := by
  have hin : InTexts (linearizeXmlText fragment) (ops.filterMap toEdit) := by
    constructor
    · intro p hsome
      obtain ⟨text, hmem⟩ := mem_insertedAt_ne_nil hsome
      obtain ⟨anchor, hop⟩ := h.apart.insert_mem.mp hmem
      obtain ⟨-, node, hnode, hlow, hhigh⟩ := h.inserts _ _ _ hop
      exact ⟨node, hnode, by omega, by omega⟩
    · intro p hgone
      obtain ⟨range, hop, hlow, hhigh⟩ := h.apart.deletedAt_iff.mp hgone
      exact hdeletes range hop p hlow hhigh
  have hne : fragment ≠ [] := by
    rintro rfl
    obtain ⟨op, hop, hkind⟩ := List.any_eq_true.mp hrange
    have hkind : op.isInsert = false := by simpa using hkind
    obtain ⟨range, hr, -⟩ := AiOp.exists_range hkind
    have := h.apart.ranges op hop range hr
    simp [extractFragmentText] at this
    omega
  rw [applyOps_onPlaced hplain hrange h, simultaneousEdit, simultaneous_eq_trail]
  refine extractFragmentText_trail hin [] hne rfl (by simp) fun j p hp => ?_
  have hp : (placedTexts fragment)[j]? = some p := hp
  have hnode := (List.getElem?_zip_eq_some.mp hp).1
  have hmem := List.mem_of_getElem? hp
  simp only [List.length_nil, Nat.zero_add, onPlaced, hnode]
  exact toString_editedText h hformats hp (unformatted_iff.mp hplain p hmem)

end Batch

def listEdits : List AiOp :=
  [.insert 10 (js "Y") none, .insert 2 (js "X") none, .delete ⟨2, 5, js "cde"⟩]

theorem batchFits_listEdits :
    letI := itemTexts
    BatchFits listDocument listEdits := by
  have hlength : (@extractFragmentText itemTexts listDocument).length = 11 := by decide
  have hnodes : @linearizeXmlText itemTexts listDocument = [⟨0, 6⟩, ⟨8, 11⟩] := by decide
  have hblocks : @linearizeBlocks itemTexts 0 listDocument = [[⟨0, 6⟩], [⟨8, 11⟩]] := by decide
  refine @BatchFits.mk itemTexts _ _ ?_ (fun op _ => sparesPairs_listDocument op) ?_ (.inr ?_)
  · rw [hlength]
    constructor <;> simp [listEdits, AiOp.range?, AiOp.isInsert, AiOp.position]
  · intro position text anchor hmem
    rw [hnodes]
    simp only [listEdits, List.mem_cons, List.not_mem_nil, reduceCtorEq, AiOp.insert.injEq,
      or_false] at hmem
    rcases hmem with ⟨rfl, rfl, -⟩ | ⟨rfl, rfl, -⟩
    · exact ⟨by decide, ⟨8, 11⟩, by simp, by simp, by simp⟩
    · exact ⟨by decide, ⟨0, 6⟩, by simp, by simp, by simp⟩
  · intro nodes hnodes range hdelete hany
    rw [hblocks] at hnodes
    simp only [listEdits, List.mem_cons, List.not_mem_nil, reduceCtorEq, AiOp.delete.injEq,
      false_or, or_false] at hdelete hnodes
    subst hdelete
    rcases hnodes with rfl | rfl
    · exact ⟨_, .head _, 0, by simp, by simp, by simp [listEdits]⟩
    · exact absurd hany (by decide)

theorem extractText_applyOps_rich_listEdits :
    letI := itemTexts
    richService.extractText (applyOps richService listDocument listEdits) =
      js "abXf\n\nxyYz" := by
  have hplain : Unformatted listDocument := unformatted_of_all (by decide)
  refine (@extractText_applyOps_rich _ _ itemTexts hplain rfl batchFits_listEdits
    (by simp [listEdits]) ?_).trans (by decide)
  intro range hdelete p hlow hhigh
  have hnodes : @linearizeXmlText itemTexts listDocument = [⟨0, 6⟩, ⟨8, 11⟩] := by decide
  simp only [listEdits, List.mem_cons, List.not_mem_nil, reduceCtorEq, AiOp.delete.injEq,
    false_or, or_false] at hdelete
  subst hdelete
  rw [hnodes]
  exact ⟨_, .head _, Nat.zero_le p, by simp only at hhigh ⊢; omega⟩

end Meridian
