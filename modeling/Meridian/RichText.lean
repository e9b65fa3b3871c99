import Meridian.Js
import Meridian.Lib.Splice

/-! The rich content of a document: a fragment of elements, with texts of formatted
characters in them, and the flat text that it is shown as. Blocks of the fragment are
separated by a blank line, and every text knows its range of the flat text. The calls on a text
are those of Yjs and a parameter here. -/
namespace Meridian

open Splice

/-- The formats of a character, by name and in the order of their names. -/
abbrev Attributes := List (JsString × Json)

structure XmlText where
  chars : List (CodeUnit × Attributes)

namespace XmlText

def ofText (text : JsString) : XmlText := ⟨text.map fun c => (c, [])⟩

def Plain (t : XmlText) : Prop := ∀ c ∈ t.chars, c.2 = []

def text (t : XmlText) : JsString := t.chars.map Prod.fst

theorem plain_ofText (text : JsString) : (ofText text).Plain := by
  intro c hc
  obtain ⟨u, -, rfl⟩ := List.mem_map.mp hc
  rfl

@[simp] theorem text_ofText (text : JsString) : (ofText text).text = text := by
  rw [XmlText.text, ofText, List.map_map]
  exact List.map_id text

theorem ofText_inj {text text' : JsString} : ofText text = ofText text' ↔ text = text' :=
  ⟨fun h => by rw [← text_ofText text, h, text_ofText], fun h => by rw [h]⟩

theorem Plain.eq_ofText {t : XmlText} (h : t.Plain) : t = ofText t.text := by
  obtain ⟨chars⟩ := t
  rw [ofText, XmlText.text, List.map_map]
  congr 1
  conv_lhs => rw [← List.map_id chars]
  exact List.map_congr_left fun c hc => Prod.ext rfl (h c hc)

/-- The text with U+FFFD on both sides of an offset. -/
def broken (t : XmlText) (p : ℕ) : XmlText :=
  ⟨t.chars.mapIdx fun i c => if i + 1 = p ∨ i = p then (replacementCharacter, c.2) else c⟩

/-- A text that is inserted takes on the formats of the character before it. -/
def insertChars (t : XmlText) (offset : ℕ) (text : JsString) : XmlText :=
  let attributes := ((t.chars.take offset).getLast?.map Prod.snd).getD []
  ⟨insertAt t.chars offset (text.map fun c => (c, attributes))⟩

def deleteChars (t : XmlText) (offset length : ℕ) : XmlText := ⟨deleteAt t.chars offset length⟩

def setFormat (attributes : Attributes) (format : JsString × Json) : Attributes :=
  let others := attributes.filter fun a => a.1 ≠ format.1
  match format.2 with
  | .null => others
  | _ => others.orderedInsert (fun a b => a.1 ≤ b.1) format

def formatChars (t : XmlText) (offset length : ℕ) (attributes : Attributes) : XmlText :=
  ⟨t.chars.take offset ++
    ((t.chars.drop offset).take length).map
      (fun c => (c.1, attributes.foldl setFormat c.2)) ++
    t.chars.drop (offset + length)⟩

end XmlText

/-- The calls on a `Y.XmlText`, with what the service relies on. A call splits the text at its
ends, and where that divides a surrogate pair in an item, both halves become U+FFFD; `split` leaves
open which pairs lie in one item. A format pads a text that ends inside its range. The text is
shown with tags around its formatted runs, every character at a place of its own. -/
class XmlTextCalls where
  toString : XmlText → JsString
  insert : XmlText → ℕ → JsString → XmlText
  delete : XmlText → ℕ → ℕ → XmlText
  format : XmlText → ℕ → ℕ → Attributes → XmlText
  split : XmlText → ℕ → XmlText
  shown : XmlText → List ℕ
  split_eq : ∀ t p, split t p = t ∨ dividesPair t.text p = true ∧ split t p = t.broken p
  insert_nil : ∀ t offset, insert t offset [] = t
  insert_eq : ∀ t offset text, text ≠ [] →
    insert t offset text = (split t offset).insertChars offset text
  delete_zero : ∀ t offset, delete t offset 0 = t
  delete_eq : ∀ t offset length, 0 < length →
    delete t offset length = (split (split t offset) (offset + length)).deleteChars offset length
  format_eq : ∀ t offset length attributes, 0 < length → ∃ padding,
    format t offset length attributes = ⟨((split (split t offset) (offset + length)).formatChars
      offset length attributes).chars ++ padding⟩ ∧
      (padding ≠ [] → offset ≤ t.chars.length ∧ t.chars.length < offset + length)
  toString_plain : ∀ t : XmlText, t.Plain → toString t = t.text
  toString_shown : ∀ t, (shown t).map (fun j => (toString t)[j]?) = t.text.map some
  shown_lt : ∀ t, (shown t).Pairwise (· < ·)
  shown_behind : ∀ (t : XmlText) (k : ℕ) (c : CodeUnit × Attributes), t.chars[k]? = some c →
    c.2 ≠ [] → ∃ j, (shown t)[k]? = some j ∧ k < j

section Increasing

variable {l : List ℕ} {k j : ℕ}

theorem le_of_pairwise_lt (h : l.Pairwise (· < ·)) (hj : l[k]? = some j) : k ≤ j := by
  induction k generalizing j with
  | zero => exact Nat.zero_le j
  | succ k ih =>
    obtain ⟨hk, rfl⟩ := List.getElem?_eq_some_iff.mp hj
    have hlt := List.pairwise_iff_getElem.mp h k (k + 1) (by omega) hk (Nat.lt_succ_self k)
    have hle := ih (List.getElem?_eq_getElem (by omega))
    omega

theorem room_of_pairwise_lt {n : ℕ} (h : l.Pairwise (· < ·)) (hn : ∀ j ∈ l, j < n)
    (hj : l[k]? = some j) : j + (l.length - k) ≤ n := by
  induction l generalizing k j with
  | nil => cases hj
  | cons a l ih =>
    obtain ⟨ha, hl⟩ := List.forall_mem_cons.mp hn
    cases k with
    | zero =>
      cases hj
      cases l with
      | nil => exact ha
      | cons b l =>
        have hroom := ih (List.Pairwise.of_cons h) hl (k := 0) rfl
        have hlt := List.rel_of_pairwise_cons h List.mem_cons_self
        simp only [List.length_cons] at *
        omega
    | succ k =>
      have hroom := ih (List.Pairwise.of_cons h) hl hj
      rw [List.length_cons]
      omega

end Increasing

namespace XmlText

variable [XmlTextCalls]

def toString (t : XmlText) : JsString := XmlTextCalls.toString t

def insert (t : XmlText) (offset : ℕ) (text : JsString) : XmlText :=
  XmlTextCalls.insert t offset text

def delete (t : XmlText) (offset length : ℕ) : XmlText := XmlTextCalls.delete t offset length

def format (t : XmlText) (offset length : ℕ) (attributes : Attributes) : XmlText :=
  XmlTextCalls.format t offset length attributes

/-- The text as a call leaves it that begins or ends at an offset. -/
def split (t : XmlText) (p : ℕ) : XmlText := XmlTextCalls.split t p

def shown (t : XmlText) : List ℕ := XmlTextCalls.shown t

@[simp] theorem toString_ofText (text : JsString) : (ofText text).toString = text :=
  (XmlTextCalls.toString_plain _ (plain_ofText text)).trans (text_ofText text)

theorem Plain.toString_inj {t t' : XmlText} (h : t.Plain) (h' : t'.Plain) :
    t.toString = t'.toString ↔ t = t' := by
  refine ⟨fun heq => ?_, fun heq => by rw [heq]⟩
  rw [h.eq_ofText, h'.eq_ofText, toString_ofText, toString_ofText] at heq
  rw [h.eq_ofText, h'.eq_ofText, heq]

theorem Plain.length_toString {t : XmlText} (h : t.Plain) :
    t.toString.length = t.chars.length := by
  rw [h.eq_ofText, toString_ofText, XmlText.text, List.length_map]
  simp [ofText]

section Splitting

theorem split_eq (t : XmlText) (p : ℕ) :
    t.split p = t ∨ dividesPair t.text p = true ∧ t.split p = t.broken p :=
  XmlTextCalls.split_eq t p

theorem split_of_not_dividesPair {t : XmlText} {p : ℕ} (h : dividesPair t.text p = false) :
    t.split p = t :=
  (split_eq t p).resolve_right fun hbroken => by simp [h] at hbroken

@[simp] theorem map_snd_split (t : XmlText) (p : ℕ) :
    (t.split p).chars.map Prod.snd = t.chars.map Prod.snd := by
  rcases split_eq t p with h | ⟨-, h⟩
  · rw [h]
  · rw [h, broken]
    apply List.ext_getElem
    · simp
    · intro i _ _
      simp only [List.getElem_map, List.getElem_mapIdx]
      split <;> rfl

@[simp] theorem length_split (t : XmlText) (p : ℕ) :
    (t.split p).chars.length = t.chars.length := by
  have h := congrArg List.length (map_snd_split t p)
  rwa [List.length_map, List.length_map] at h

omit [XmlTextCalls] in
theorem getElem?_broken (t : XmlText) (p i : ℕ) : (t.broken p).chars[i]? =
    t.chars[i]?.map fun c => if i + 1 = p ∨ i = p then (replacementCharacter, c.2) else c :=
  List.getElem?_mapIdx

theorem getElem?_split_of_ne (t : XmlText) {p i : ℕ} (hbefore : i + 1 ≠ p) (hbehind : i ≠ p) :
    (t.split p).chars[i]? = t.chars[i]? := by
  rcases split_eq t p with h | ⟨-, h⟩
  · rw [h]
  · rw [h, getElem?_broken]
    simp [hbefore, hbehind]

/-- A text that is split changes, if at all, before and behind the offset. -/
theorem split_ne {t : XmlText} {p : ℕ} (h : t.split p ≠ t) :
    0 < p ∧ (t.split p).chars[p - 1]? ≠ t.chars[p - 1]? ∧
      (t.split p).chars[p]? = t.chars[p]?.map fun c => (replacementCharacter, c.2) := by
  obtain ⟨hdivides, hbroken⟩ := (split_eq t p).resolve_left h
  simp only [dividesPair, text, List.getElem?_map, Bool.and_eq_true, decide_eq_true_eq,
    Option.any_map] at hdivides
  obtain ⟨⟨hpos, -⟩, hhigh⟩ := hdivides
  obtain ⟨c, hc, hhigh⟩ := (Option.any_eq_true _ _).mp hhigh
  refine ⟨hpos, ?_, ?_⟩
  · rw [hbroken, getElem?_broken, hc, Option.map_some, if_pos (.inl (Nat.sub_add_cancel hpos)),
      ne_eq, Option.some.injEq]
    intro heq
    rw [← heq] at hhigh
    cases hhigh
  · rw [hbroken, getElem?_broken]
    simp

/-- The rest of a text is left as it is exactly if a delete divides no pair at its start, and none
at its end, where a U+FFFD may stand. -/
theorem delete_eq_deleteChars_iff {t : XmlText} {offset length : ℕ} (h : 0 < length) :
    t.delete offset length = t.deleteChars offset length ↔ t.split offset = t ∧
      (t.split (offset + length) = t ∨ t.text[offset + length]? = some replacementCharacter) := by
  have hdelete : t.delete offset length =
      ((t.split offset).split (offset + length)).deleteChars offset length :=
    XmlTextCalls.delete_eq t offset length h
  rw [hdelete]
  constructor
  · intro heq
    have hget : ∀ i : ℕ, (((t.split offset).split (offset + length)).deleteChars offset
        length).chars[i]? = (t.deleteChars offset length).chars[i]? := fun i => by rw [heq]
    simp only [deleteChars, getElem?_deleteAt] at hget
    have hstart : t.split offset = t := by
      by_contra hne
      obtain ⟨hpos, hchanged, -⟩ := split_ne hne
      have hlast := hget (offset - 1)
      rw [if_pos (by omega), if_pos (by omega),
        getElem?_split_of_ne _ (by omega) (by omega)] at hlast
      exact hchanged hlast
    refine ⟨hstart, or_iff_not_imp_left.mpr fun hne => ?_⟩
    have hfirst := hget offset
    rw [if_neg (Nat.lt_irrefl _), if_neg (Nat.lt_irrefl _), hstart, (split_ne hne).2.2] at hfirst
    have hbehind : offset + length < t.chars.length := by
      obtain ⟨hdivides, -⟩ := (split_eq t (offset + length)).resolve_left hne
      simp [dividesPair, text] at hdivides
      exact hdivides.1.2
    rw [List.getElem?_eq_getElem hbehind, Option.map_some, Option.some.injEq] at hfirst
    rw [text, List.getElem?_map, List.getElem?_eq_getElem hbehind, Option.map_some, ← hfirst]
  · rintro ⟨hstart, hstop⟩
    rw [hstart]
    refine congrArg XmlText.mk (List.ext_getElem? fun i => ?_)
    rw [getElem?_deleteAt, getElem?_deleteAt]
    split
    · next hi => exact getElem?_split_of_ne _ (by omega) (by omega)
    · next hi =>
      rcases Nat.eq_or_lt_of_le (Nat.le_of_not_lt hi) with rfl | hlt
      · by_cases hsame : t.split (offset + length) = t
        · rw [hsame]
        · have hstands := hstop.resolve_left hsame
          rw [text, List.getElem?_map] at hstands
          obtain ⟨c, hc, hreplaced⟩ := Option.map_eq_some_iff.mp hstands
          rw [(split_ne hsame).2.2, hc, Option.map_some, ← hreplaced]
      · exact getElem?_split_of_ne _ (by omega) (by omega)

theorem length_delete (t : XmlText) (offset : ℕ) {length : ℕ} (h : 0 < length) :
    (t.delete offset length).chars.length = (t.deleteChars offset length).chars.length := by
  rw [delete, XmlTextCalls.delete_eq t offset length h]
  change (deleteAt ((t.split offset).split (offset + length)).chars offset length).length = _
  simp [deleteChars, deleteAt]

theorem Plain.split {t : XmlText} (h : t.Plain) (p : ℕ) : (t.split p).Plain := by
  intro c hc
  have hmem : c.2 ∈ (t.split p).chars.map Prod.snd := List.mem_map_of_mem hc
  rw [map_snd_split] at hmem
  obtain ⟨d, hd, hdc⟩ := List.mem_map.mp hmem
  exact hdc.symm.trans (h d hd)

theorem Plain.delete {t : XmlText} (h : t.Plain) (offset length : ℕ) :
    (t.delete offset length).Plain := by
  rcases Nat.eq_zero_or_pos length with rfl | hpos
  · rw [XmlText.delete, XmlTextCalls.delete_zero]
    exact h
  · rw [XmlText.delete, XmlTextCalls.delete_eq t offset length hpos]
    intro c hc
    refine ((h.split offset).split (offset + length)) c ?_
    exact (List.mem_append.mp hc).elim List.mem_of_mem_take List.mem_of_mem_drop

def splitText (text : JsString) (p : ℕ) : JsString := ((ofText text).split p).text

theorem split_ofText (text : JsString) (p : ℕ) :
    (ofText text).split p = ofText (splitText text p) :=
  ((plain_ofText text).split p).eq_ofText

@[simp] theorem length_splitText (text : JsString) (p : ℕ) :
    (splitText text p).length = text.length := by
  simp [splitText, XmlText.text, ofText]

theorem splitText_of_not_dividesPair {text : JsString} {p : ℕ} (h : dividesPair text p = false) :
    splitText text p = text := by
  rw [splitText, split_of_not_dividesPair (by rwa [text_ofText]), text_ofText]

theorem getElem?_splitText_of_ne (text : JsString) {p i : ℕ} (hbefore : i + 1 ≠ p)
    (hbehind : i ≠ p) : (splitText text p)[i]? = text[i]? := by
  rw [splitText, XmlText.text, List.getElem?_map, getElem?_split_of_ne _ hbefore hbehind,
    ← List.getElem?_map]
  exact congrArg (·[i]?) (text_ofText text)

theorem splitText_ne {text : JsString} {p : ℕ} (h : splitText text p ≠ text) :
    0 < p ∧ (splitText text p)[p - 1]? = some replacementCharacter ∧
      text[p - 1]? ≠ some replacementCharacter := by
  rcases split_eq (ofText text) p with hsame | ⟨hdivides, hbroken⟩
  · exact absurd (by rw [splitText, hsame, text_ofText]) h
  · rw [text_ofText, dividesPair, Bool.and_eq_true, Bool.and_eq_true, decide_eq_true_eq] at hdivides
    obtain ⟨⟨hpos, -⟩, hhigh⟩ := hdivides
    obtain ⟨c, hc, hhigh⟩ := (Option.any_eq_true _ _).mp hhigh
    refine ⟨hpos, ?_, fun hreplaced => ?_⟩
    · rw [splitText, hbroken, XmlText.text, List.getElem?_map, getElem?_broken, ofText,
        List.getElem?_map, hc]
      simp [Nat.sub_add_cancel hpos]
    · rw [hreplaced, Option.some.injEq] at hc
      subst hc
      cases hhigh

theorem splitText_of_length_le {text : JsString} {p : ℕ} (h : text.length ≤ p) :
    splitText text p = text :=
  splitText_of_not_dividesPair (by simp [dividesPair, Nat.not_lt.mpr h])

theorem splitText_min (text : JsString) (p : ℕ) :
    splitText text (min p text.length) = splitText text p := by
  rcases le_total p text.length with h | h
  · rw [min_eq_left h]
  · rw [min_eq_right h, splitText_of_length_le le_rfl, splitText_of_length_le h]

def deleted (text : JsString) (offset length : ℕ) : JsString :=
  deleteAt (splitText (splitText text offset) (offset + length)) offset length

@[simp] theorem length_deleted (text : JsString) (offset length : ℕ) :
    (deleted text offset length).length = (deleteAt text offset length).length := by
  simp [deleted, deleteAt]

theorem delete_ofText (text : JsString) (offset : ℕ) {length : ℕ} (h : 0 < length) :
    (ofText text).delete offset length = ofText (deleted text offset length) := by
  rw [delete, XmlTextCalls.delete_eq _ _ _ h]
  change ((((ofText text).split offset).split (offset + length)).deleteChars offset length) = _
  rw [split_ofText, split_ofText, deleteChars, deleted, ofText, ofText, map_deleteAt]

theorem deleted_eq_iff {text : JsString} {offset length : ℕ} (h : 0 < length) :
    deleted text offset length = deleteAt text offset length ↔ splitText text offset = text ∧
      (splitText text (offset + length) = text ∨
        text[offset + length]? = some replacementCharacter) := by
  have hsame (p : ℕ) : (ofText text).split p = ofText text ↔ splitText text p = text := by
    rw [split_ofText]
    exact ofText_inj
  have hdeleted : (ofText text).deleteChars offset length =
      ofText (deleteAt text offset length) := by
    rw [deleteChars, ofText, ofText, map_deleteAt]
  rw [← hsame, ← hsame, ← ofText_inj, ← delete_ofText text offset h, ← hdeleted,
    delete_eq_deleteChars_iff h, text_ofText]

theorem insert_ofText {inserted : JsString} (h : inserted ≠ []) (text : JsString) (offset : ℕ) :
    (ofText text).insert offset inserted =
      ofText (insertAt (splitText text offset) offset inserted) := by
  rw [insert, XmlTextCalls.insert_eq _ _ _ h]
  change (((ofText text).split offset).insertChars offset inserted) = _
  rw [split_ofText]
  have hplain : (((ofText (splitText text offset)).chars.take offset).getLast?.map
      Prod.snd).getD [] = [] := by
    cases hlast : ((ofText (splitText text offset)).chars.take offset).getLast? with
    | none => rfl
    | some c =>
      exact plain_ofText _ c (List.mem_of_mem_take (List.mem_of_getLast? hlast))
  rw [insertChars, hplain, ofText, ofText, map_insertAt]

end Splitting

section Shown

theorem toString_shown (t : XmlText) :
    t.shown.map (fun j => t.toString[j]?) = t.text.map some :=
  XmlTextCalls.toString_shown t

theorem length_shown (t : XmlText) : t.shown.length = t.chars.length := by
  have h := congrArg List.length (toString_shown t)
  rwa [List.length_map, List.length_map, XmlText.text, List.length_map] at h

theorem shown_room (t : XmlText) {k j : ℕ} (hj : t.shown[k]? = some j) :
    k < t.chars.length ∧ j + (t.chars.length - k) ≤ t.toString.length := by
  have hlt : ∀ j ∈ t.shown, j < t.toString.length := by
    intro j hj
    obtain ⟨c, -, hc⟩ := List.mem_map.mp ((toString_shown t) ▸
      List.mem_map_of_mem (f := fun j => t.toString[j]?) hj)
    exact (List.getElem?_eq_some_iff.mp hc.symm).1
  rw [← length_shown]
  exact ⟨(List.getElem?_eq_some_iff.mp hj).1,
    room_of_pairwise_lt (XmlTextCalls.shown_lt t) hlt hj⟩

theorem length_le_toString (t : XmlText) : t.chars.length ≤ t.toString.length := by
  rw [← length_shown]
  cases hshown : t.shown with
  | nil => exact Nat.zero_le _
  | cons j rest =>
    have h := (shown_room t (k := 0) (by rw [hshown]; rfl)).2
    rw [← length_shown, hshown] at h
    omega

theorem le_of_shown (t : XmlText) {k j : ℕ} (hj : t.shown[k]? = some j) : k ≤ j :=
  le_of_pairwise_lt (XmlTextCalls.shown_lt t) hj

theorem Plain.shown_eq {t : XmlText} (h : t.Plain) {k j : ℕ} (hj : t.shown[k]? = some j) :
    j = k := by
  have hle := le_of_shown t hj
  have hroom := shown_room t hj
  rw [h.length_toString] at hroom
  omega

/-- The first formatted character is shown behind its place. -/
theorem exists_displaced {t : XmlText} (h : ¬ t.Plain) :
    ∃ k j : ℕ, t.shown[k]? = some j ∧ k < j := by
  simp only [Plain, not_forall] at h
  obtain ⟨c, hmem, hc⟩ := h
  obtain ⟨k, hk⟩ := List.getElem?_of_mem hmem
  obtain ⟨j, hj, hlt⟩ := XmlTextCalls.shown_behind t k c hk hc
  exact ⟨k, j, hj, hlt⟩

end Shown

end XmlText

/-- A node of the fragment, of a class of its own for a text. -/
inductive XmlNode
  | text (content : XmlText)
  | element (nodeName : JsString) (children : List XmlNode)

abbrev XmlFragment := List XmlNode

def blockSeparator : JsString := js "\n\n"

section Reading

variable [XmlTextCalls]

mutual

def extractInlineText : XmlNode → JsString
  | .text content => content.toString
  | .element _ children => extractInlineTexts children

def extractInlineTexts : List XmlNode → JsString
  | [] => []
  | child :: children => extractInlineText child ++ extractInlineTexts children

end

def extractFragmentText (fragment : XmlFragment) : JsString :=
  blockSeparator.intercalate (fragment.map extractInlineText)

/-- The range of a text in the flat text; the node itself is told by its place in the list. -/
structure LinearXmlText where
  start : ℕ
  stop : ℕ
  deriving DecidableEq

mutual

/-- The texts under a node, and the offset after them. -/
def collectXmlText : XmlNode → ℕ → List LinearXmlText × ℕ
  | .text content, offset =>
    ([⟨offset, offset + content.toString.length⟩], offset + content.toString.length)
  | .element _ children, offset => collectXmlTexts children offset

def collectXmlTexts : List XmlNode → ℕ → List LinearXmlText × ℕ
  | [], offset => ([], offset)
  | child :: children, offset =>
    let first := collectXmlText child offset
    let rest := collectXmlTexts children first.2
    (first.1 ++ rest.1, rest.2)

end

/-- The texts of each child from an offset on. -/
def linearizeBlocks : ℕ → XmlFragment → List (List LinearXmlText)
  | _, [] => []
  | offset, child :: children =>
    let collected := collectXmlText child offset
    collected.1 :: linearizeBlocks (collected.2 + blockSeparator.length) children

def linearizeXmlText (fragment : XmlFragment) : List LinearXmlText :=
  (linearizeBlocks 0 fragment).flatten

end Reading

mutual

/-- Change every text under a node, by its place among all texts from a number on. -/
def mapText (f : ℕ → XmlText → XmlText) : XmlNode → ℕ → XmlNode × ℕ
  | .text content, i => (.text (f i content), i + 1)
  | .element nodeName children, i =>
    let mapped := mapTexts f children i
    (.element nodeName mapped.1, mapped.2)

def mapTexts (f : ℕ → XmlText → XmlText) : List XmlNode → ℕ → List XmlNode × ℕ
  | [], i => ([], i)
  | child :: children, i =>
    let first := mapText f child i
    let rest := mapTexts f children first.2
    (first.1 :: rest.1, rest.2)

end

mutual

def textCount : XmlNode → ℕ
  | .text _ => 1
  | .element _ children => textCounts children

def textCounts : List XmlNode → ℕ
  | [] => 0
  | child :: children => textCount child + textCounts children

end

end Meridian
