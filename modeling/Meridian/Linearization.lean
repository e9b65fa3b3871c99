import Meridian.FormattedText

/-! The list of the texts of a fragment, against the flat text. The flat text is built by one walk
through the tree and the list by another that counts offsets. The list has every text once, in
document order, at the range where the flat text has it, and the flat text has nothing else but
the separators between the blocks. -/
namespace Meridian

/-- The place of a node: the index of the child to go to on each level. -/
abbrev NodePath := List ℕ

mutual

def XmlNode.textAt? : XmlNode → NodePath → Option XmlText
  | .text content, [] => some content
  | .element _ children, i :: path => childTextAt? children i path
  | _, _ => none

def childTextAt? : List XmlNode → ℕ → NodePath → Option XmlText
  | [], _, _ => none
  | child :: _, 0, path => child.textAt? path
  | _ :: children, i + 1, path => childTextAt? children i path

end

def fragmentTextAt? (fragment : XmlFragment) : NodePath → Option XmlText
  | [] => none
  | i :: path => childTextAt? fragment i path

/-- A listed text: where it is in the tree and its range of the flat text. -/
abbrev LinearNode := NodePath × LinearXmlText

def LinearNode.under (i : ℕ) (node : LinearNode) : LinearNode := (i :: node.1, node.2)

theorem pairwise_under {i : ℕ} {first rest : List LinearNode}
    (hfirst : (first.map Prod.fst).Pairwise (· < ·)) (hrest : (rest.map Prod.fst).Pairwise (· < ·))
    (hlater : ∀ node ∈ rest, ∃ j path, node.1 = j :: path ∧ i < j) :
    ((first.map (LinearNode.under i) ++ rest).map Prod.fst).Pairwise (· < ·) := by
  rw [List.map_append, List.map_map]
  refine List.pairwise_append.mpr ⟨?_, hrest, ?_⟩
  · rw [List.pairwise_map] at hfirst ⊢
    exact hfirst.imp fun h => List.Lex.cons h
  · intro a ha b hb
    obtain ⟨node, -, rfl⟩ := List.mem_map.mp ha
    obtain ⟨later, hmem, rfl⟩ := List.mem_map.mp hb
    obtain ⟨j, path, hpath, hlt⟩ := hlater later hmem
    rw [hpath]
    exact List.Lex.rel hlt

def Covered (nodes : List LinearXmlText) (p : ℕ) : Prop :=
  ∃ node ∈ nodes, node.start ≤ p ∧ p < node.stop

theorem covered_append (first rest : List LinearXmlText) (p : ℕ) :
    Covered (first ++ rest) p ↔ Covered first p ∨ Covered rest p := by
  simp only [Covered, List.mem_append, or_and_right, exists_or]

theorem slice_middle (before content after : JsString) :
    slice (before ++ content ++ after) before.length
      ((before.length + content.length : ℕ) : ℤ) = content := by
  rw [slice_natCast _ (by simp) (Nat.le_add_right _ _), List.append_assoc, List.drop_left,
    Nat.add_sub_cancel_left, List.take_left]

variable [XmlTextCalls]

mutual

/-- The texts that `collectXmlText` lists, each with the node itself. -/
def collectNodes : XmlNode → ℕ → List LinearNode
  | .text content, offset => [([], ⟨offset, offset + content.toString.length⟩)]
  | .element _ children, offset => collectChildNodes 0 children offset

def collectChildNodes : ℕ → List XmlNode → ℕ → List LinearNode
  | _, [], _ => []
  | i, child :: children, offset => (collectNodes child offset).map (LinearNode.under i) ++
      collectChildNodes (i + 1) children (collectXmlText child offset).2

end

def linearizeNodesFrom : ℕ → ℕ → XmlFragment → List LinearNode
  | _, _, [] => []
  | i, offset, child :: children => (collectNodes child offset).map (LinearNode.under i) ++
      linearizeNodesFrom (i + 1) ((collectXmlText child offset).2 + blockSeparator.length) children

def linearizeNodes (fragment : XmlFragment) : List LinearNode := linearizeNodesFrom 0 0 fragment

section Ranges

mutual

theorem collectNodes_ranges (offset : ℕ) :
    ∀ node, (collectNodes node offset).map Prod.snd = (collectXmlText node offset).1
  | .text _ => rfl
  | .element _ children => collectChildNodes_ranges 0 offset children

theorem collectChildNodes_ranges (i offset : ℕ) : ∀ children,
    (collectChildNodes i children offset).map Prod.snd = (collectXmlTexts children offset).1
  | [] => rfl
  | child :: children => by
    rw [collectChildNodes, List.map_append, List.map_map,
      collectChildNodes_ranges (i + 1) _ children, collectXmlTexts,
      ← collectNodes_ranges offset child]
    rfl

end

theorem linearizeNodesFrom_ranges (i offset : ℕ) (fragment : XmlFragment) :
    (linearizeNodesFrom i offset fragment).map Prod.snd =
      (linearizeBlocks offset fragment).flatten := by
  induction fragment generalizing i offset with
  | nil => rfl
  | cons child children ih =>
    rw [linearizeNodesFrom, List.map_append, List.map_map, ih, linearizeBlocks, List.flatten_cons,
      ← collectNodes_ranges offset child]
    rfl

theorem linearizeNodes_ranges (fragment : XmlFragment) :
    (linearizeNodes fragment).map Prod.snd = linearizeXmlText fragment :=
  linearizeNodesFrom_ranges 0 0 fragment

end Ranges

section Order

mutual

/-- A listed node is a text of the tree, and its range is where a text is that has the text of the
node at the offset. -/
theorem mem_collectNodes (before after : JsString) : ∀ node, ∀ listed ∈
    collectNodes node before.length, ∃ content b a, node.textAt? listed.1 = some content ∧
      before ++ extractInlineText node ++ after = b ++ content.toString ++ a ∧
      listed.2 = ⟨b.length, b.length + content.toString.length⟩
  | .text content, listed, h => by
    obtain rfl := List.mem_singleton.mp h
    exact ⟨content, before, after, rfl, rfl, rfl⟩
  | .element _ children, listed, h => by
    obtain ⟨i, path, content, b, a, hpath, htext, hflat, hrange⟩ :=
      mem_collectChildNodes before after 0 children listed h
    refine ⟨content, b, a, ?_, hflat, hrange⟩
    rw [hpath, Nat.zero_add]
    exact htext

theorem mem_collectChildNodes (before after : JsString) (k : ℕ) : ∀ children, ∀ listed ∈
    collectChildNodes k children before.length, ∃ i path content b a, listed.1 = (k + i) :: path ∧
      childTextAt? children i path = some content ∧
      before ++ extractInlineTexts children ++ after = b ++ content.toString ++ a ∧
      listed.2 = ⟨b.length, b.length + content.toString.length⟩
  | [], listed, h => by simp [collectChildNodes] at h
  | child :: children, listed, h => by
    rw [collectChildNodes, collectXmlText_snd, ← List.length_append] at h
    rcases List.mem_append.mp h with h | h
    · obtain ⟨inner, hinner, rfl⟩ := List.mem_map.mp h
      obtain ⟨content, b, a, htext, hflat, hrange⟩ :=
        mem_collectNodes before (extractInlineTexts children ++ after) child inner hinner
      refine ⟨0, inner.1, content, b, a, rfl, htext, ?_, hrange⟩
      rw [← hflat, extractInlineTexts]
      simp only [List.append_assoc]
    · obtain ⟨i, path, content, b, a, hpath, htext, hflat, hrange⟩ :=
        mem_collectChildNodes (before ++ extractInlineText child) after (k + 1) children listed h
      refine ⟨i + 1, path, content, b, a, by rw [hpath, Nat.add_right_comm, Nat.add_assoc], htext,
        ?_, hrange⟩
      rw [← hflat, extractInlineTexts]
      simp only [List.append_assoc]

end

mutual

theorem collectNodes_complete (offset : ℕ) : ∀ node path content,
    node.textAt? path = some content → ∃ range, (path, range) ∈ collectNodes node offset
  | .text _, [], content, _ => ⟨_, List.mem_singleton.mpr rfl⟩
  | .text _, _ :: _, content, h => by simp [XmlNode.textAt?] at h
  | .element _ _, [], content, h => by simp [XmlNode.textAt?] at h
  | .element _ children, i :: path, content, h => by
    have hlisted := collectChildNodes_complete 0 offset children i path content h
    rwa [Nat.zero_add] at hlisted

theorem collectChildNodes_complete (k offset : ℕ) : ∀ children i path content,
    childTextAt? children i path = some content →
      ∃ range, ((k + i) :: path, range) ∈ collectChildNodes k children offset
  | [], i, path, content, h => by simp [childTextAt?] at h
  | child :: children, 0, path, content, h => by
    obtain ⟨range, hrange⟩ := collectNodes_complete offset child path content h
    exact ⟨range, List.mem_append_left _ (List.mem_map.mpr ⟨_, hrange, rfl⟩)⟩
  | child :: children, i + 1, path, content, h => by
    obtain ⟨range, hrange⟩ := collectChildNodes_complete (k + 1) (collectXmlText child offset).2
      children i path content h
    rw [Nat.add_right_comm, Nat.add_assoc] at hrange
    exact ⟨range, List.mem_append_right _ hrange⟩

end

theorem le_of_mem_collectChildNodes {k offset : ℕ} {children : List XmlNode} {node : LinearNode}
    (h : node ∈ collectChildNodes k children offset) : ∃ j path, node.1 = j :: path ∧ k ≤ j := by
  induction children generalizing k offset with
  | nil => simp [collectChildNodes] at h
  | cons child children ih =>
    rcases List.mem_append.mp h with h | h
    · obtain ⟨inner, -, rfl⟩ := List.mem_map.mp h
      exact ⟨k, inner.1, rfl, le_rfl⟩
    · obtain ⟨j, path, hpath, hle⟩ := ih h
      exact ⟨j, path, hpath, (Nat.le_succ k).trans hle⟩

theorem le_of_mem_linearizeNodesFrom {k offset : ℕ} {fragment : XmlFragment} {node : LinearNode}
    (h : node ∈ linearizeNodesFrom k offset fragment) : ∃ j path, node.1 = j :: path ∧ k ≤ j := by
  induction fragment generalizing k offset with
  | nil => simp [linearizeNodesFrom] at h
  | cons child children ih =>
    rcases List.mem_append.mp h with h | h
    · obtain ⟨inner, -, rfl⟩ := List.mem_map.mp h
      exact ⟨k, inner.1, rfl, le_rfl⟩
    · obtain ⟨j, path, hpath, hle⟩ := ih h
      exact ⟨j, path, hpath, (Nat.le_succ k).trans hle⟩

mutual

theorem collectNodes_sorted (offset : ℕ) :
    ∀ node, ((collectNodes node offset).map Prod.fst).Pairwise (· < ·)
  | .text _ => List.pairwise_singleton _ _
  | .element _ children => collectChildNodes_sorted 0 offset children

theorem collectChildNodes_sorted (k offset : ℕ) :
    ∀ children, ((collectChildNodes k children offset).map Prod.fst).Pairwise (· < ·)
  | [] => .nil
  | child :: children =>
    pairwise_under (collectNodes_sorted offset child) (collectChildNodes_sorted (k + 1) _ children)
      fun _ hnode => le_of_mem_collectChildNodes hnode

end

theorem mem_linearizeNodesFrom (before after : JsString) {k : ℕ} {fragment : XmlFragment}
    {listed : LinearNode} (h : listed ∈ linearizeNodesFrom k before.length fragment) :
    ∃ i path content b a, listed.1 = (k + i) :: path ∧
      childTextAt? fragment i path = some content ∧
      before ++ extractFragmentText fragment ++ after = b ++ content.toString ++ a ∧
      listed.2 = ⟨b.length, b.length + content.toString.length⟩ := by
  induction fragment generalizing k before with
  | nil => simp [linearizeNodesFrom] at h
  | cons child children ih =>
    rw [linearizeNodesFrom, collectXmlText_snd] at h
    rcases List.mem_append.mp h with h | h
    · obtain ⟨inner, hinner, rfl⟩ := List.mem_map.mp h
      -- what follows the first block in the flat text
      obtain ⟨tail, htail⟩ : ∃ tail, extractFragmentText (child :: children) =
          extractInlineText child ++ tail := by
        cases children with
        | nil => exact ⟨[], by simp [extractFragmentText]⟩
        | cons next children => exact ⟨_, extractFragmentText_cons child (List.cons_ne_nil _ _)⟩
      obtain ⟨content, b, a, htext, hflat, hrange⟩ :=
        mem_collectNodes before (tail ++ after) child inner hinner
      refine ⟨0, inner.1, content, b, a, rfl, htext, ?_, hrange⟩
      rw [← hflat, htail]
      simp only [List.append_assoc]
    · have hne : children ≠ [] := by
        rintro rfl
        simp [linearizeNodesFrom] at h
      rw [← List.length_append, ← List.length_append] at h
      obtain ⟨i, path, content, b, a, hpath, htext, hflat, hrange⟩ := ih _ h
      refine ⟨i + 1, path, content, b, a, by rw [hpath, Nat.add_right_comm, Nat.add_assoc], htext,
        ?_, hrange⟩
      rw [← hflat, extractFragmentText_cons child hne]
      simp only [List.append_assoc]

theorem linearizeNodesFrom_complete (k offset : ℕ) {fragment : XmlFragment} {i : ℕ}
    {path : NodePath} {content : XmlText} (h : childTextAt? fragment i path = some content) :
    ∃ range, ((k + i) :: path, range) ∈ linearizeNodesFrom k offset fragment := by
  induction fragment generalizing k offset i with
  | nil => simp [childTextAt?] at h
  | cons child children ih =>
    cases i with
    | zero =>
      obtain ⟨range, hrange⟩ := collectNodes_complete offset child path content h
      exact ⟨range, List.mem_append_left _ (List.mem_map.mpr ⟨_, hrange, rfl⟩)⟩
    | succ i =>
      obtain ⟨range, hrange⟩ :=
        ih (k + 1) ((collectXmlText child offset).2 + blockSeparator.length) h
      rw [Nat.add_right_comm, Nat.add_assoc] at hrange
      exact ⟨range, List.mem_append_right _ hrange⟩

theorem linearizeNodesFrom_sorted (k offset : ℕ) (fragment : XmlFragment) :
    ((linearizeNodesFrom k offset fragment).map Prod.fst).Pairwise (· < ·) := by
  induction fragment generalizing k offset with
  | nil => exact .nil
  | cons child children ih =>
    exact pairwise_under (collectNodes_sorted offset child) (ih (k + 1) _)
      fun _ hnode => le_of_mem_linearizeNodesFrom hnode

end Order

/-- An offset of the flat text in the separator between two blocks that follow each other. -/
def InSeparator (fragment : XmlFragment) (p : ℕ) : Prop :=
  ∃ first rest, fragment = first ++ rest ∧ first ≠ [] ∧ rest ≠ [] ∧
    (extractFragmentText first).length ≤ p ∧
    p < (extractFragmentText first).length + blockSeparator.length

section Coverage

mutual

theorem covered_collectXmlText (offset p : ℕ) : ∀ node,
    Covered (collectXmlText node offset).1 p ↔
      offset ≤ p ∧ p < offset + (extractInlineText node).length
  | .text content => by
    simp [Covered, collectXmlText, extractInlineText]
  | .element _ children => covered_collectXmlTexts offset p children

theorem covered_collectXmlTexts (offset p : ℕ) : ∀ nodes,
    Covered (collectXmlTexts nodes offset).1 p ↔
      offset ≤ p ∧ p < offset + (extractInlineTexts nodes).length
  | [] => by
    simp only [Covered, collectXmlTexts, List.not_mem_nil, false_and, exists_false,
      extractInlineTexts, List.length_nil, false_iff]
    omega
  | child :: children => by
    rw [collectXmlTexts, extractInlineTexts, List.length_append]
    simp only
    rw [covered_append, covered_collectXmlText, covered_collectXmlTexts, collectXmlText_snd]
    omega

end

theorem inSeparator_cons (child : XmlNode) {children : XmlFragment} (h : children ≠ []) (p : ℕ) :
    InSeparator (child :: children) p ↔
      ((extractInlineText child).length ≤ p ∧
        p < (extractInlineText child).length + blockSeparator.length) ∨
      ∃ q, p = (extractInlineText child).length + blockSeparator.length + q ∧
        InSeparator children q := by
  have hone : (extractFragmentText [child]).length = (extractInlineText child).length := by
    simp [extractFragmentText]
  have hmore : ∀ first : XmlFragment, first ≠ [] →
      (extractFragmentText (child :: first)).length = (extractInlineText child).length +
        blockSeparator.length + (extractFragmentText first).length := by
    intro first hfirst
    rw [extractFragmentText_cons child hfirst, List.length_append, List.length_append,
      Nat.add_assoc]
  constructor
  · rintro ⟨first, rest, heq, hfirst, hrest, hle, hlt⟩
    obtain ⟨head, first, rfl⟩ := List.exists_cons_of_ne_nil hfirst
    obtain ⟨rfl, rfl⟩ := List.cons.inj heq
    by_cases hnil : first = []
    · subst hnil
      rw [hone] at hle hlt
      exact .inl ⟨hle, hlt⟩
    · rw [hmore first hnil] at hle hlt
      exact .inr ⟨p - ((extractInlineText child).length + blockSeparator.length), by omega, first,
        rest, rfl, hnil, hrest, by omega, by omega⟩
  · rintro (⟨hle, hlt⟩ | ⟨q, rfl, first, rest, rfl, hfirst, hrest, hle, hlt⟩)
    · exact ⟨[child], children, rfl, List.cons_ne_nil _ _, h, by rwa [hone], by rwa [hone]⟩
    · refine ⟨child :: first, rest, rfl, List.cons_ne_nil _ _, hrest, ?_, ?_⟩
      · rw [hmore first hfirst]
        omega
      · rw [hmore first hfirst]
        omega

/-- What no range covers of the flat text are the separators. -/
theorem covered_linearizeBlocks (offset : ℕ) (fragment : XmlFragment) {p : ℕ}
    (hp : p < (extractFragmentText fragment).length) :
    ¬ Covered (linearizeBlocks offset fragment).flatten (offset + p) ↔ InSeparator fragment p := by
  induction fragment generalizing offset p with
  | nil => simp [extractFragmentText] at hp
  | cons child children ih =>
    rw [linearizeBlocks, List.flatten_cons, covered_append, covered_collectXmlText,
      collectXmlText_snd]
    by_cases hnil : children = []
    · subst hnil
      have hlength : (extractFragmentText [child]).length = (extractInlineText child).length := by
        simp [extractFragmentText]
      rw [hlength] at hp
      refine iff_of_false (fun h => h (.inl (by omega))) ?_
      rintro ⟨first, rest, heq, hfirst, hrest, -⟩
      obtain ⟨head, first, rfl⟩ := List.exists_cons_of_ne_nil hfirst
      obtain ⟨-, htail⟩ := List.cons.inj heq
      exact hrest (List.append_eq_nil_iff.mp htail.symm).2
    · rw [extractFragmentText_cons child hnil, List.length_append, List.length_append] at hp
      rw [inSeparator_cons child hnil]
      obtain ⟨high, hordered⟩ := ordered_linearizeBlocks
        (offset + (extractInlineText child).length + blockSeparator.length) children
      by_cases hrest : (extractInlineText child).length + blockSeparator.length ≤ p
      · obtain ⟨q, rfl⟩ := Nat.exists_eq_add_of_le hrest
        have hq := ih (offset + (extractInlineText child).length + blockSeparator.length) (p := q)
          (by omega)
        rw [show offset + ((extractInlineText child).length + blockSeparator.length + q) =
          offset + (extractInlineText child).length + blockSeparator.length + q by omega]
        rw [not_or, hq]
        constructor
        · rintro ⟨-, h⟩
          exact .inr ⟨q, rfl, h⟩
        · rintro (h | ⟨q', hq', h⟩)
          · omega
          · obtain rfl : q' = q := by omega
            exact ⟨by omega, h⟩
      · have hnot : ¬ Covered (linearizeBlocks
            (offset + (extractInlineText child).length + blockSeparator.length) children).flatten
            (offset + p) := by
          rintro ⟨node, hnode, hle, -⟩
          have := (hordered.bounds node hnode).1
          omega
        rw [not_or, and_iff_left hnot]
        constructor
        · intro h
          exact .inl (by omega)
        · rintro (h | ⟨q, hq, -⟩)
          · omega
          · omega

end Coverage

/-- The list of the texts of a fragment is aligned with a flat text: it has the texts of the tree,
each once and in document order, their ranges do not overlap and are where the flat text has the
texts, and all that the flat text has beside is in the separators. -/
structure Aligned (fragment : XmlFragment) (flat : JsString) (nodes : List LinearNode) : Prop where
  ranges : nodes.map Prod.snd = linearizeXmlText fragment
  enumerates : ∀ path, (∃ range, (path, range) ∈ nodes) ↔
    ∃ content, fragmentTextAt? fragment path = some content
  documentOrder : nodes.Pairwise fun a b => a.1 < b.1
  disjoint : nodes.Pairwise fun a b => a.2.stop ≤ b.2.start
  inside : ∀ node ∈ nodes, node.2.start ≤ node.2.stop ∧ node.2.stop ≤ flat.length
  slices : ∀ node ∈ nodes, ∃ content, fragmentTextAt? fragment node.1 = some content ∧
    slice flat node.2.start node.2.stop = content.toString
  separators : ∀ p, p < flat.length →
    ((∀ node ∈ nodes, ¬ (node.2.start ≤ p ∧ p < node.2.stop)) ↔ InSeparator fragment p)

section Alignment

variable {fragment : XmlFragment}

theorem extractFragmentText_append {first rest : XmlFragment} (hfirst : first ≠ [])
    (hrest : rest ≠ []) : extractFragmentText (first ++ rest) =
      extractFragmentText first ++ blockSeparator ++ extractFragmentText rest := by
  induction first with
  | nil => exact absurd rfl hfirst
  | cons child first ih =>
    rw [List.cons_append, extractFragmentText_cons child (by simp [hrest])]
    by_cases hnil : first = []
    · subst hnil
      simp [extractFragmentText]
    · rw [ih hnil, extractFragmentText_cons child hnil]
      simp only [List.append_assoc]

/-- Inside of a separator the flat text shows the separator. -/
theorem InSeparator.getElem? {p : ℕ} (h : InSeparator fragment p) :
    ∃ c ∈ blockSeparator, (extractFragmentText fragment)[p]? = some c := by
  obtain ⟨first, rest, rfl, hfirst, hrest, hle, hlt⟩ := h
  obtain ⟨q, rfl⟩ := Nat.exists_eq_add_of_le hle
  have hq : q < blockSeparator.length := Nat.lt_of_add_lt_add_left hlt
  refine ⟨blockSeparator[q], List.getElem_mem hq, ?_⟩
  rw [extractFragmentText_append hfirst hrest, List.append_assoc,
    List.getElem?_append_right (Nat.le_add_right _ _), Nat.add_sub_cancel_left,
    List.getElem?_append_left hq, List.getElem?_eq_getElem hq]

theorem linearizeNodes_slices {node : LinearNode} (h : node ∈ linearizeNodes fragment) :
    ∃ content, fragmentTextAt? fragment node.1 = some content ∧
      slice (extractFragmentText fragment) node.2.start node.2.stop = content.toString ∧
      node.2.start ≤ node.2.stop ∧ node.2.stop ≤ (extractFragmentText fragment).length := by
  obtain ⟨i, path, content, before, after, hpath, htext, hflat, hrange⟩ :=
    mem_linearizeNodesFrom [] [] h
  rw [List.nil_append, List.append_nil] at hflat
  rw [Nat.zero_add] at hpath
  refine ⟨content, by rw [hpath]; exact htext, ?_, ?_, ?_⟩
  · rw [hflat, hrange]
    exact slice_middle before content.toString after
  · rw [hrange]
    exact Nat.le_add_right _ _
  · rw [hflat, hrange, List.length_append, List.length_append]
    exact Nat.le_add_right _ _

theorem linearizeNodes_enumerates (path : NodePath) :
    (∃ range, (path, range) ∈ linearizeNodes fragment) ↔
      ∃ content, fragmentTextAt? fragment path = some content := by
  constructor
  · rintro ⟨range, hmem⟩
    obtain ⟨content, htext, -⟩ := linearizeNodes_slices hmem
    exact ⟨content, htext⟩
  · rintro ⟨content, htext⟩
    cases path with
    | nil => simp [fragmentTextAt?] at htext
    | cons i path =>
      have hlisted := linearizeNodesFrom_complete 0 0 htext
      rwa [Nat.zero_add] at hlisted

theorem linearizeNodes_disjoint :
    (linearizeNodes fragment).Pairwise fun a b => a.2.stop ≤ b.2.start := by
  have hpairwise := pairwise_linearizeXmlText fragment
  rwa [← linearizeNodes_ranges, List.pairwise_map] at hpairwise

theorem linearizeNodes_separators {p : ℕ} (hp : p < (extractFragmentText fragment).length) :
    (∀ node ∈ linearizeNodes fragment, ¬ (node.2.start ≤ p ∧ p < node.2.stop)) ↔
      InSeparator fragment p := by
  have hcovered := covered_linearizeBlocks 0 fragment hp
  rw [← linearizeNodesFrom_ranges 0, Nat.zero_add] at hcovered
  rw [← hcovered]
  constructor
  · rintro h ⟨range, hrange, hin⟩
    obtain ⟨node, hnode, rfl⟩ := List.mem_map.mp hrange
    exact h node hnode hin
  · intro h node hnode hin
    exact h ⟨node.2, List.mem_map_of_mem hnode, hin⟩

/-- The list that `linearizeXmlText` builds is aligned with the text that `extractText` gives. -/
theorem linearizeNodes_aligned (fragment : XmlFragment) :
    Aligned fragment (extractFragmentText fragment) (linearizeNodes fragment) where
  ranges := linearizeNodes_ranges fragment
  enumerates := linearizeNodes_enumerates
  documentOrder := List.pairwise_map.mp (linearizeNodesFrom_sorted 0 0 fragment)
  disjoint := linearizeNodes_disjoint
  inside node h := by
    obtain ⟨_, -, -, hinside⟩ := linearizeNodes_slices h
    exact hinside
  slices node h := by
    obtain ⟨content, htext, hslice, -⟩ := linearizeNodes_slices h
    exact ⟨content, htext, hslice⟩
  separators _ hp := linearizeNodes_separators hp

end Alignment

end Meridian
