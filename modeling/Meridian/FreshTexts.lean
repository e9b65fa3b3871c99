import Meridian.BlockSplits
import Meridian.Lib.BackToFront
import Meridian.SimultaneousEdit

/-! Texts of a rich document under edits from its back to its front. An edit may leave a text
longer, shorter or with tags in its characters, but everything in front of the edit is listed
where it was; so the operations that follow find their own places in a text by the ranges of the
first document, and edit it as if all had come at once. -/
namespace Meridian

open Splice

structure Near (q : ℕ) (a b : LinearXmlText) : Prop where
  start_eq : min a.start q = min b.start q
  stop_eq : min a.stop q = min b.stop q

/-- A text whose range was this one before edits behind an offset: it has no format in front of
the offset, and its length is the old one if it ended in front of the offset. -/
structure Fresh (q : ℕ) (node : LinearXmlText) (content : XmlText) : Prop where
  plain : ∀ k c, content.chars[k]? = some c → node.start + k < q → c.2 = []
  stop_eq : min (node.start + content.chars.length) q = min node.stop q

section Frontier

variable {q : ℕ} {node a b : LinearXmlText} {content : XmlText}

theorem Fresh.mono (h : Fresh q node content) {q' : ℕ} (hq : q' ≤ q) : Fresh q' node content where
  plain k c hc hlt := h.plain k c hc (hlt.trans_le hq)
  stop_eq := by
    have := h.stop_eq
    omega

theorem XmlText.Plain.fresh (h : content.Plain)
    (hstop : node.stop = node.start + content.chars.length) : Fresh q node content where
  plain _ c hc _ := h c (List.mem_of_getElem? hc)
  stop_eq := by rw [hstop]

theorem Fresh.shown_eq [XmlTextCalls] (h : Fresh q node content) :
    min (node.start + content.toString.length) q = min node.stop q := by
  have hstop := h.stop_eq
  rcases lt_or_ge node.stop q with hlt | hge
  · have hplain : content.Plain := by
      intro c hc
      obtain ⟨k, hk⟩ := List.getElem?_of_mem hc
      have hkl := (List.getElem?_eq_some_iff.mp hk).1
      exact h.plain k c hk (by omega)
    rw [hplain.length_toString, hstop]
  · have hle : content.chars.length ≤ content.toString.length :=
      XmlText.length_le_toString content
    omega

theorem Near.overlap_eq (h : Near q a b) {start length : ℤ} (hq : start + length ≤ q) :
    overlap start length a = overlap start length b := by
  obtain ⟨hstart, hstop⟩ := h
  unfold overlap
  dsimp only
  rcases lt_or_ge b.start q with hlt | hge
  · have hsame : a.start = b.start := by omega
    have hend : min (start + length) (a.stop : ℤ) = min (start + length) b.stop := by omega
    rw [hsame, hend]
  · rw [if_pos (by omega), if_pos (by omega)]

theorem Near.localOffset_eq (h : Near q a b) {position : ℤ} (hq : position ≤ q) :
    localOffset position a = localOffset position b := by
  obtain ⟨hstart, hstop⟩ := h
  unfold localOffset
  omega

theorem targetIndex_near {nodes nodes' : List LinearXmlText}
    (h : List.Forall₂ (Near q) nodes' nodes) {position : ℤ} (hq : position ≤ q) :
    targetIndex nodes' position = targetIndex nodes position := by
  have hfind : nodes'.findIdx? (fun node => decide (position ≤ node.stop)) =
      nodes.findIdx? fun node => decide (position ≤ node.stop) := by
    induction h with
    | nil => rfl
    | @cons a b nodes' nodes hab _ ih =>
      have hsame : position ≤ a.stop ↔ position ≤ b.stop := by
        have := hab.stop_eq
        omega
      rw [List.findIdx?_cons, List.findIdx?_cons, ih, decide_eq_decide.mpr hsame]
  rw [targetIndex, targetIndex, hfind, h.length_eq]

end Frontier

section Changes

def FreshFrom (q : ℕ) (f : ℕ → XmlText → XmlText) (i : ℕ)
    (placed : List (LinearXmlText × XmlText)) : Prop :=
  ∀ j p, placed[j]? = some p → Fresh q p.1 (f (i + j) p.2)

variable {q : ℕ} {f g : ℕ → XmlText → XmlText}

theorem FreshFrom.of_append {i : ℕ} {first rest : List (LinearXmlText × XmlText)}
    (h : FreshFrom q f i (first ++ rest)) :
    FreshFrom q f i first ∧ FreshFrom q f (i + first.length) rest := by
  constructor
  · intro j p hp
    refine h j p ?_
    rw [List.getElem?_append_left (List.getElem?_eq_some_iff.mp hp).1, hp]
  · intro j p hp
    rw [Nat.add_assoc]
    refine h _ p ?_
    rw [List.getElem?_append_right (Nat.le_add_right _ _), Nat.add_sub_cancel_left, hp]

mutual

theorem mapText_mapText (i : ℕ) : ∀ node,
    mapText g (mapText f node i).1 i = mapText (fun j content => g j (f j content)) node i
  | .text _ => rfl
  | .element _ children => by
    rw [mapText, mapText, mapText]
    simp only [mapTexts_mapTexts i children]

theorem mapTexts_mapTexts (i : ℕ) : ∀ nodes,
    mapTexts g (mapTexts f nodes i).1 i = mapTexts (fun j content => g j (f j content)) nodes i
  | [] => rfl
  | child :: children => by
    have hsame := (texts_mapText f i child).2.trans
      (texts_mapText (fun j content => g j (f j content)) i child).2.symm
    rw [mapTexts, mapTexts, mapTexts]
    simp only [mapText_mapText i child, hsame, mapTexts_mapTexts _ children]

end

mutual

theorem mapText_congr (i : ℕ) : ∀ node,
    (∀ j content, node.texts[j]? = some content → f (i + j) content = g (i + j) content) →
      mapText f node i = mapText g node i
  | .text content, h => by
    have hone : f i content = g i content := h 0 content rfl
    rw [mapText, mapText, hone]
  | .element nodeName children, h => by
    rw [mapText, mapText, mapTexts_congr i children h]

theorem mapTexts_congr (i : ℕ) : ∀ nodes,
    (∀ j content, (textsOf nodes)[j]? = some content → f (i + j) content = g (i + j) content) →
      mapTexts f nodes i = mapTexts g nodes i
  | [], _ => rfl
  | child :: children, h => by
    rw [textsOf] at h
    have hchild := mapText_congr i child fun j content hj => h j content <| by
      rw [List.getElem?_append_left (List.getElem?_eq_some_iff.mp hj).1, hj]
    have hchildren := mapTexts_congr (i + textCount child) children fun j content hj => by
      rw [Nat.add_assoc]
      refine h _ content ?_
      rw [← length_texts, List.getElem?_append_right (Nat.le_add_right _ _),
        Nat.add_sub_cancel_left, hj]
    rw [mapTexts, mapTexts, hchild]
    simp only [(texts_mapText g i child).2, hchildren]

end

variable [XmlTextCalls]

theorem length_zip_texts (offset : ℕ) (node : XmlNode) :
    ((collectXmlText node offset).1.zip node.texts).length = textCount node := by
  rw [List.length_zip, length_collectXmlText, length_texts, min_self]

mutual

theorem near_collectXmlText (offset offset' i : ℕ) (hoffset : min offset' q = min offset q) :
    ∀ node, FreshFrom q f i ((collectXmlText node offset).1.zip node.texts) →
      List.Forall₂ (Near q) (collectXmlText (mapText f node i).1 offset').1
          (collectXmlText node offset).1 ∧
        min (collectXmlText (mapText f node i).1 offset').2 q =
          min (collectXmlText node offset).2 q
  | .text content, h => by
    have hshown : min (offset + (f i content).toString.length) q =
        min (offset + content.toString.length) q := (h 0 _ rfl).shown_eq
    have hstop : min (offset' + (f i content).toString.length) q =
        min (offset + content.toString.length) q := by omega
    exact ⟨.cons ⟨hoffset, hstop⟩ .nil, hstop⟩
  | .element _ children, h => near_collectXmlTexts offset offset' i hoffset children h

theorem near_collectXmlTexts (offset offset' i : ℕ) (hoffset : min offset' q = min offset q) :
    ∀ nodes, FreshFrom q f i ((collectXmlTexts nodes offset).1.zip (textsOf nodes)) →
      List.Forall₂ (Near q) (collectXmlTexts (mapTexts f nodes i).1 offset').1
          (collectXmlTexts nodes offset).1 ∧
        min (collectXmlTexts (mapTexts f nodes i).1 offset').2 q =
          min (collectXmlTexts nodes offset).2 q
  | [], _ => ⟨.nil, hoffset⟩
  | child :: children, h => by
    rw [collectXmlTexts, textsOf,
      List.zip_append (by rw [length_collectXmlText, length_texts])] at h
    obtain ⟨hchild, hchildren⟩ := h.of_append
    rw [length_zip_texts] at hchildren
    obtain ⟨hfirst, hnext⟩ := near_collectXmlText offset offset' i hoffset child hchild
    obtain ⟨hrest, hstop⟩ := near_collectXmlTexts _ _ _ hnext children hchildren
    rw [mapTexts]
    simp only [(texts_mapText f i child).2]
    exact ⟨List.rel_append hfirst hrest, hstop⟩

end

theorem near_linearizeBlocks (offset offset' i : ℕ) (hoffset : min offset' q = min offset q)
    (fragment : XmlFragment)
    (h : FreshFrom q f i ((linearizeBlocks offset fragment).flatten.zip (textsOf fragment))) :
    List.Forall₂ (List.Forall₂ (Near q)) (linearizeBlocks offset' (mapTexts f fragment i).1)
      (linearizeBlocks offset fragment) := by
  induction fragment generalizing offset offset' i with
  | nil => exact .nil
  | cons child children ih =>
    rw [linearizeBlocks, List.flatten_cons, textsOf,
      List.zip_append (by rw [length_collectXmlText, length_texts])] at h
    obtain ⟨hchild, hchildren⟩ := h.of_append
    rw [length_zip_texts] at hchildren
    obtain ⟨hfirst, hnext⟩ := near_collectXmlText offset offset' i hoffset child hchild
    rw [mapTexts]
    simp only [(texts_mapText f i child).2]
    exact .cons hfirst (ih _ _ _ (by omega) hchildren)

theorem near_linearizeXmlText {fragment : XmlFragment}
    (h : FreshFrom q f 0 (placedTexts fragment)) :
    List.Forall₂ (Near q) (linearizeXmlText (mapTexts f fragment 0).1)
      (linearizeXmlText fragment) :=
  List.rel_flatten (near_linearizeBlocks 0 0 0 rfl fragment h)

end Changes

section Own

def ownOp [XmlTextCalls] (nodes : List LinearXmlText) (i : ℕ) (node : LinearXmlText)
    (content : XmlText) : AiOp → XmlText
  | .insert position text _ =>
    if i = targetIndex nodes position then content.insert (localOffset position node) text
    else content
  | .delete range => rangeEdit range.start (range.stop - range.start) XmlText.delete node content
  | .format range attributes =>
    rangeEdit range.start (range.stop - range.start)
      (fun content offset size => content.format offset size attributes) node content

/-- The edit of the characters of this text that an operation is. -/
def ownEdit (nodes : List LinearXmlText) (i : ℕ) (node : LinearXmlText) :
    AiOp → Option (Edit (CodeUnit × Attributes))
  | .insert position text _ =>
    if i = targetIndex nodes position then
      some (.insert (localOffset position node) (text.map fun c => (c, [])))
    else none
  | .delete range =>
    (overlap range.start (range.stop - range.start) node).map fun window =>
      .delete window.1 window.2
  | .format _ _ => none

def AiOp.formatAt (op : AiOp) (p : ℤ) (attributes : Attributes) : Attributes :=
  match op with
  | .format range formats =>
    if range.start ≤ p ∧ p < range.stop then formats.foldl XmlText.setFormat attributes
    else attributes
  | _ => attributes

/-- The characters of a text that starts at an offset, each with the formats that operations give
to its place. -/
def formatted (ops : List AiOp) (start : ℕ) (chars : List (CodeUnit × Attributes)) :
    List (CodeUnit × Attributes) :=
  chars.mapIdx fun k c =>
    (c.1, ops.foldl (fun attributes op => op.formatAt (start + k : ℕ) attributes) c.2)

/-- What operations make of a text at once: its characters get their formats, every text that is
inserted stands without formats at its place, and what is deleted is gone. -/
def editedText (nodes : List LinearXmlText) (ops : List AiOp) (i : ℕ) (node : LinearXmlText)
    (content : XmlText) : XmlText :=
  ⟨simultaneous (ops.filterMap (ownEdit nodes i node)) (formatted ops node.start content.chars)⟩

/-- An operation with its end behind its start, and in its text if it inserts into this one. -/
structure AiOp.Fits (nodes : List LinearXmlText) (i : ℕ) (node : LinearXmlText) (op : AiOp) :
    Prop where
  nonneg : 0 ≤ op.position
  range : ∀ range ∈ op.range?, range.start < range.stop
  inside : op.isInsert = true → i = targetIndex nodes op.position →
    node.start ≤ op.position ∧ op.position ≤ node.stop

/-- An operation that neither begins nor ends behind the first half of a surrogate pair. -/
def AiOp.SparesPairs (node : LinearXmlText) (content : XmlText) (op : AiOp) : Prop :=
  ∀ k c, content.chars[k]? = some c →
    ((node.start + k + 1 : ℕ) = op.position ∨ (node.start + k + 1 : ℕ) = op.stop) →
      isHighSurrogate c.1 = false

variable {nodes : List LinearXmlText} {i q : ℕ} {node : LinearXmlText} {content : XmlText}
  {op : AiOp} {ops : List AiOp}

/-- An edit that leaves what stands in front of an offset leaves the text fresh there. -/
theorem Fresh.of_take (h : Fresh q node content) {q' : ℕ} (hq : q' ≤ q) {content' : XmlText}
    (htake : content'.chars.take (q' - node.start) = content.chars.take (q' - node.start)) :
    Fresh q' node content' where
  plain k c hc hlt := by
    have hk := congrArg (·[k]?) htake
    simp only [List.getElem?_take, if_pos (by omega : k < q' - node.start)] at hk
    exact h.plain k c (hk ▸ hc) (hlt.trans_le hq)
  stop_eq := by
    have hstop := h.stop_eq
    have hlen := congrArg List.length htake
    rw [List.length_take, List.length_take] at hlen
    omega

@[simp] theorem length_formatted (ops : List AiOp) (start : ℕ)
    (chars : List (CodeUnit × Attributes)) : (formatted ops start chars).length = chars.length :=
  List.length_mapIdx

@[simp] theorem formatted_nil (start : ℕ) (chars : List (CodeUnit × Attributes)) :
    formatted [] start chars = chars := by
  refine List.ext_getElem? fun k => ?_
  rw [formatted, List.getElem?_mapIdx]
  exact Option.map_id'

theorem formatted_cons (op : AiOp) (ops : List AiOp) (start : ℕ)
    (chars : List (CodeUnit × Attributes)) :
    formatted (op :: ops) start chars = formatted ops start (formatted [op] start chars) := by
  rw [formatted, formatted, formatted, List.mapIdx_mapIdx]
  rfl

theorem AiOp.formatAt_behind {p : ℤ} (h : op.stop ≤ p) (attributes : Attributes) :
    op.formatAt p attributes = attributes := by
  cases op with
  | insert position text anchor => rfl
  | delete range => rfl
  | format range formats =>
    have hstop : range.stop ≤ p := h
    exact if_neg (by omega)

theorem AiOp.formatAt_front {p : ℤ} (h : p < op.position) (attributes : Attributes) :
    op.formatAt p attributes = attributes := by
  cases op with
  | insert position text anchor => rfl
  | delete range => rfl
  | format range formats =>
    have hstart : p < range.start := h
    exact if_neg (by omega)

theorem foldl_formatAt_behind {p : ℤ} (h : ∀ op ∈ ops, op.stop ≤ p) (attributes : Attributes) :
    ops.foldl (fun attributes op => op.formatAt p attributes) attributes = attributes := by
  induction ops with
  | nil => rfl
  | cons op ops ih =>
    obtain ⟨hop, hrest⟩ := List.forall_mem_cons.mp h
    rw [List.foldl_cons, AiOp.formatAt_behind hop, ih hrest]

theorem formatted_apply {e : Edit (CodeUnit × Attributes)} {start : ℕ}
    {chars : List (CodeUnit × Attributes)} (he : e.position ≤ chars.length)
    (h : ∀ op ∈ ops, op.stop ≤ start + e.position) :
    formatted ops start (e.apply chars) = e.apply (formatted ops start chars) :=
  mapIdx_apply he fun k hk c => Prod.ext rfl <|
    foldl_formatAt_behind (fun op hop => (h op hop).trans (by omega)) c.2

theorem getElem?_formatted_one (op : AiOp) (start : ℕ) (chars : List (CodeUnit × Attributes))
    (k : ℕ) : (formatted [op] start chars)[k]? =
      chars[k]?.map fun c => (c.1, op.formatAt (start + k : ℕ) c.2) :=
  List.getElem?_mapIdx

theorem formatted_eq_self {start : ℕ} {chars : List (CodeUnit × Attributes)}
    (h : ∀ k, k < chars.length → ∀ attributes,
      op.formatAt (start + k : ℕ) attributes = attributes) :
    formatted [op] start chars = chars := by
  refine List.ext_getElem? fun k => ?_
  rw [getElem?_formatted_one]
  cases hc : chars[k]? with
  | none => rfl
  | some c => rw [Option.map_some, h k (List.getElem?_eq_some_iff.mp hc).1]

theorem AiOp.SparesPairs.of_take (h : op.SparesPairs node content) {q' : ℕ}
    (hposition : op.position ≤ q') (hstop : op.stop ≤ q') {content' : XmlText}
    (htake : content'.chars.take (q' - node.start) = content.chars.take (q' - node.start)) :
    op.SparesPairs node content' := by
  intro k c hc hend
  refine h k c ?_ hend
  have hk := congrArg (·[k]?) htake
  simp only [List.getElem?_take, if_pos (by omega : k < q' - node.start)] at hk
  exact hk ▸ hc

theorem formatChars_chars (content : XmlText) (offset length : ℕ) (attributes : Attributes)
    (k : ℕ) : (content.formatChars offset length attributes).chars[k]? =
      content.chars[k]?.map fun c =>
        (c.1, if offset ≤ k ∧ k < offset + length then attributes.foldl XmlText.setFormat c.2
          else c.2) := by
  rw [XmlText.formatChars, List.append_assoc]
  simp only [List.getElem?_append, List.length_take, List.length_map, List.length_drop,
    List.getElem?_take, List.getElem?_map, List.getElem?_drop]
  rcases lt_or_ge k offset with hfront | hbehind
  · have hnot : ¬ (offset ≤ k ∧ k < offset + length) := by omega
    simp only [hnot, if_false, Option.map_id']
    grind
  · grind

theorem ownEdit_spec (hfits : op.Fits nodes i node) {e : Edit (CodeUnit × Attributes)}
    (he : ownEdit nodes i node op = some e) :
    op.position ≤ node.start + e.position ∧ node.start + e.stop ≤ op.stop ∧
      node.start + e.stop ≤ node.stop ∧ e.isInsert = op.isInsert ∧
      (op.isInsert = true → node.start + e.position = op.position) := by
  cases op with
  | insert position text anchor =>
    rw [ownEdit] at he
    split at he
    · next hi =>
      cases he
      have hin : node.start ≤ position ∧ position ≤ node.stop := hfits.inside rfl hi
      have hoffset : (node.start + localOffset position node : ℤ) = position := by
        unfold localOffset
        omega
      have hle : position ≤ (node.stop : ℤ) := hin.2
      exact ⟨hoffset.ge, hoffset.le, by simp only [Edit.stop]; omega, rfl, fun _ => hoffset⟩
    · cases he
  | delete range =>
    have hrange := hfits.range range rfl
    rw [ownEdit] at he
    obtain ⟨window, hwindow, rfl⟩ := Option.map_eq_some_iff.mp he
    unfold overlap at hwindow
    dsimp only at hwindow
    split at hwindow
    · cases hwindow
    · cases hwindow
      simp only [AiOp.position, AiOp.stop, Edit.position, Edit.stop]
      exact ⟨by omega, by omega, by omega, rfl, fun h => by cases h⟩
  | format range formats => cases he

theorem Fresh.ownEdit_stop_le (hfresh : Fresh q node content) (hfits : op.Fits nodes i node)
    (hq : op.stop ≤ q) {e : Edit (CodeUnit × Attributes)}
    (he : ownEdit nodes i node op = some e) : e.stop ≤ content.chars.length := by
  obtain ⟨-, hstop, hin, -⟩ := ownEdit_spec hfits he
  have := hfresh.stop_eq
  omega

/-- An insert in front of all formats brings none along. -/
theorem Fresh.inherited_eq (hfresh : Fresh q node content) {p : ℕ} (hp : node.start + p ≤ q) :
    ((content.chars.take p).getLast?.map Prod.snd).getD [] = [] := by
  cases hlast : (content.chars.take p).getLast? with
  | none => rfl
  | some c =>
    obtain ⟨k, hk⟩ := List.getElem?_of_mem (List.mem_of_getLast? hlast)
    rw [List.getElem?_take] at hk
    split at hk
    · next hlt => exact hfresh.plain k c hk (by omega)
    · cases hk

variable [XmlTextCalls]

theorem AiOp.SparesPairs.split_eq (h : op.SparesPairs node content) {p : ℕ}
    (hp : (node.start + p : ℕ) = op.position ∨ (node.start + p : ℕ) = op.stop) :
    content.split p = content := by
  refine XmlText.split_of_not_dividesPair (Bool.eq_false_iff.mpr fun hdivides => ?_)
  simp only [dividesPair, XmlText.text, List.getElem?_map, Bool.and_eq_true, decide_eq_true_eq,
    Option.any_map] at hdivides
  obtain ⟨⟨hpos, -⟩, hhigh⟩ := hdivides
  obtain ⟨c, hc, hhigh⟩ := (Option.any_eq_true _ _).mp hhigh
  rw [h (p - 1) c hc (by
    rwa [show node.start + (p - 1) + 1 = node.start + p by omega])] at hhigh
  cases hhigh

/-- A call for a range of such an operation finds no pair to divide at the ends of its window, and
the text does not end before. -/
theorem AiOp.SparesPairs.split_window (h : op.SparesPairs node content)
    (hfresh : Fresh q node content) (hq : op.stop ≤ q) {window : ℕ × ℕ}
    (hwindow : overlap op.position (op.stop - op.position) node = some window) :
    0 < window.2 ∧ window.1 + window.2 ≤ content.chars.length ∧
      (content.split window.1).split (window.1 + window.2) = content := by
  have hstop := hfresh.stop_eq
  have hzero : content.split 0 = content :=
    XmlText.split_of_not_dividesPair (by simp [dividesPair])
  have hlast : content.split content.chars.length = content :=
    XmlText.split_of_not_dividesPair (by simp [dividesPair, XmlText.text])
  unfold overlap at hwindow
  dsimp only at hwindow
  split at hwindow
  · cases hwindow
  · obtain rfl := Option.some.inj hwindow
    dsimp only
    refine ⟨by omega, by omega, ?_⟩
    have hfirst : content.split (max op.position node.start - node.start).toNat = content := by
      rcases lt_or_ge (node.start : ℤ) op.position with hlt | hge
      · exact h.split_eq (.inl (by omega))
      · rw [max_eq_right hge, sub_self, Int.toNat_zero, hzero]
    rw [hfirst]
    rcases lt_or_ge (op.stop - 1) (node.stop : ℤ) with hlt | hge
    · exact h.split_eq (.inr (by omega))
    · rw [show (max op.position (node.start : ℤ) - node.start).toNat +
        (min (op.position + (op.stop - op.position)) (node.stop : ℤ) -
          max op.position node.start).toNat = content.chars.length by omega, hlast]

theorem insert_chars (hfresh : Fresh q node content) {position : ℤ} {text : JsString}
    {anchor : Option Anchor} (hspares : (AiOp.insert position text anchor).SparesPairs node content)
    (hin : node.start ≤ position ∧ position ≤ node.stop) (hq : position ≤ q) :
    (content.insert (localOffset position node) text).chars =
      insertAt content.chars (localOffset position node) (text.map fun c => (c, [])) := by
  have hoffset : (node.start + localOffset position node : ℕ) = position := by
    unfold localOffset
    omega
  by_cases hnil : text = []
  · rw [hnil, XmlText.insert, XmlTextCalls.insert_nil]
    simp [insertAt]
  · have hsplit : XmlTextCalls.split content (localOffset position node) = content :=
      hspares.split_eq (.inl hoffset)
    rw [XmlText.insert, XmlTextCalls.insert_eq _ _ _ hnil, hsplit, XmlText.insertChars,
      hfresh.inherited_eq (by omega)]

theorem delete_chars (hfresh : Fresh q node content) {range : TextRange}
    (hspares : (AiOp.delete range).SparesPairs node content) (hq : range.stop ≤ q) {window : ℕ × ℕ}
    (hwindow : overlap range.start (range.stop - range.start) node = some window) :
    (content.delete window.1 window.2).chars = deleteAt content.chars window.1 window.2 := by
  obtain ⟨hpos, -, hsplit⟩ := hspares.split_window hfresh hq hwindow
  have hsplit : XmlTextCalls.split (XmlTextCalls.split content window.1)
      (window.1 + window.2) = content := hsplit
  rw [XmlText.delete, XmlTextCalls.delete_eq _ _ _ hpos, hsplit]
  rfl

theorem format_chars (hfresh : Fresh q node content) {range : TextRange} {formats : Attributes}
    (hspares : (AiOp.format range formats).SparesPairs node content) (hq : range.stop ≤ q)
    {window : ℕ × ℕ}
    (hwindow : overlap range.start (range.stop - range.start) node = some window) :
    (content.format window.1 window.2 formats).chars =
      formatted [.format range formats] node.start content.chars := by
  obtain ⟨hpos, hend, hsplit⟩ := hspares.split_window hfresh hq hwindow
  have hsplit : XmlTextCalls.split (XmlTextCalls.split content window.1)
      (window.1 + window.2) = content := hsplit
  obtain ⟨padding, hformat, hpadding⟩ :=
    XmlTextCalls.format_eq content window.1 window.2 formats hpos
  have hstop := hfresh.stop_eq
  obtain rfl : padding = [] := by
    by_contra hne
    have := (hpadding hne).2
    omega
  rw [XmlText.format, hformat, hsplit, List.append_nil]
  unfold overlap at hwindow
  dsimp only at hwindow
  split at hwindow
  · cases hwindow
  · cases hwindow
    refine List.ext_getElem? fun k => ?_
    rw [getElem?_formatted_one]
    dsimp only
    rw [formatChars_chars]
    cases hc : content.chars[k]? with
    | none => rfl
    | some c =>
      have hk := (List.getElem?_eq_some_iff.mp hc).1
      rw [Option.map_some, Option.map_some, AiOp.formatAt]
      congr 3
      refine propext ⟨fun h => ?_, fun h => ?_⟩ <;> omega

/-- An operation gives its formats to the characters of a text, or is an edit of them. -/
theorem ownOp_chars (hfresh : Fresh q node content) (hspares : op.SparesPairs node content)
    (hfits : op.Fits nodes i node) (hq : op.stop ≤ q) :
    (ownOp nodes i node content op).chars =
      run (ownEdit nodes i node op).toList (formatted [op] node.start content.chars) := by
  cases op with
  | insert position text anchor =>
    rw [formatted_eq_self fun k _ attributes => rfl, ownOp, ownEdit]
    split
    · next hi => exact insert_chars hfresh hspares (hfits.inside rfl hi) hq
    · rfl
  | delete range =>
    rw [formatted_eq_self fun k _ attributes => rfl, ownOp, ownEdit, rangeEdit]
    cases hwindow : overlap range.start (range.stop - range.start) node with
    | none => rfl
    | some window => exact delete_chars hfresh hspares hq hwindow
  | format range formats =>
    have hrange := hfits.range range rfl
    have hstop := hfresh.stop_eq
    have hq : range.stop ≤ q := hq
    rw [ownOp, ownEdit, Option.toList, run_nil, rangeEdit]
    cases hwindow : overlap range.start (range.stop - range.start) node with
    | none =>
      change content.chars = _
      unfold overlap at hwindow
      dsimp only at hwindow
      split at hwindow
      · refine (formatted_eq_self fun k hk attributes => ?_).symm
        exact if_neg (by omega)
      · cases hwindow
    | some window => exact format_chars hfresh hspares hq hwindow

theorem take_ownOp (hfresh : Fresh q node content) (hspares : op.SparesPairs node content)
    (hfits : op.Fits nodes i node) (hq : op.stop ≤ q) :
    (ownOp nodes i node content op).chars.take (op.position.toNat - node.start) =
      content.chars.take (op.position.toNat - node.start) := by
  have hnonneg := hfits.nonneg
  have hformats : (formatted [op] node.start content.chars).take (op.position.toNat - node.start) =
      content.chars.take (op.position.toNat - node.start) := by
    refine List.ext_getElem? fun k => ?_
    rw [List.getElem?_take, List.getElem?_take, getElem?_formatted_one]
    split
    · cases hc : content.chars[k]? with
      | none => rfl
      | some c => rw [Option.map_some, AiOp.formatAt_front (by omega)]
    · rfl
  rw [ownOp_chars hfresh hspares hfits hq, ← hformats]
  cases hedit : ownEdit nodes i node op with
  | none => rfl
  | some e =>
    have hspec := ownEdit_spec hfits hedit
    have hstop := hfresh.ownEdit_stop_le hfits hq hedit
    cases e with
    | insert position text =>
      refine take_insertAt ?_ ?_ text
      · rw [length_formatted]
        exact hstop
      · simp only [Edit.position] at hspec
        omega
    | delete start length =>
      refine take_deleteAt ?_ length
      simp only [Edit.position] at hspec
      omega

theorem Fresh.ownOp (hfresh : Fresh q node content) (hspares : op.SparesPairs node content)
    (hfits : op.Fits nodes i node) (hle : op.position ≤ op.stop) (hq : op.stop ≤ q) :
    Fresh op.position.toNat node (Meridian.ownOp nodes i node content op) :=
  hfresh.of_take (by omega) (take_ownOp hfresh hspares hfits hq)

/-- Operations that each stand in front of those before them edit a text as all at once. -/
theorem foldl_ownOp (hfresh : Fresh q node content) (hfront : ops.Pairwise fun a b => b.InFront a)
    (hspares : ∀ op ∈ ops, op.SparesPairs node content)
    (hfits : ∀ op ∈ ops, op.Fits nodes i node ∧ op.position ≤ op.stop)
    (hq : ∀ op ∈ ops, op.stop ≤ q) :
    ops.foldl (ownOp nodes i node) content = editedText nodes ops i node content := by
  induction ops generalizing q content with
  | nil => rw [List.foldl_nil, editedText, List.filterMap_nil, simultaneous_nil, formatted_nil]
  | cons op ops ih =>
    obtain ⟨hhead, htail⟩ := List.pairwise_cons.mp hfront
    obtain ⟨⟨hop, hle⟩, hrest⟩ := List.forall_mem_cons.mp hfits
    obtain ⟨hstop, -⟩ := List.forall_mem_cons.mp hq
    obtain ⟨hspare, hspares⟩ := List.forall_mem_cons.mp hspares
    have hnonneg := hop.nonneg
    have hbehind : ∀ b ∈ ops, b.stop ≤ op.position.toNat := fun b hb => by
      have := (hhead b hb).stop_le
      omega
    have hspares' : ∀ b ∈ ops, b.SparesPairs node (ownOp nodes i node content op) := fun b hb =>
      (hspares b hb).of_take (by have := hbehind b hb; have := (hrest b hb).2; omega)
        (hbehind b hb) (take_ownOp hfresh hspare hop hstop)
    rw [List.foldl_cons, ih (hfresh.ownOp hspare hop hle hstop) htail hspares' hrest hbehind,
      editedText, editedText, formatted_cons, ownOp_chars hfresh hspare hop hstop]
    refine congrArg XmlText.mk ?_
    cases hedit : ownEdit nodes i node op with
    | none => rw [List.filterMap_cons_none hedit, Option.toList, run_nil]
    | some e =>
      obtain ⟨hposition, hend, -, hkind, hat⟩ := ownEdit_spec hop hedit
      have hlen : e.stop ≤ (formatted [op] node.start content.chars).length :=
        (hfresh.ownEdit_stop_le hop hstop hedit).trans_eq (length_formatted _ _ _).symm
      rw [List.filterMap_cons_some hedit, Option.toList, run_cons, run_nil,
        formatted_apply ((e.position_le_stop).trans hlen) fun b hb => ?_, ← simultaneous_cons]
      · intro b hb
        obtain ⟨op', hop', hedit'⟩ := List.mem_filterMap.mp hb
        obtain ⟨hposition', hend', -, hkind', hat'⟩ := ownEdit_spec (hrest op' hop').1 hedit'
        have hbefore := (hhead op' hop').stop_le
        refine ⟨by omega, fun he hb' heq => ?_⟩
        refine (hhead op' hop').distinct (hkind ▸ he) (hkind' ▸ hb') ?_
        rw [← hat (hkind ▸ he), ← hat' (hkind' ▸ hb'), heq]
      · rwa [length_formatted]
      · have := (hhead b hb).stop_le
        omega

end Own

end Meridian
