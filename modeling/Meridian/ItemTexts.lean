import Meridian.RichText
import Mathlib

/-! Texts whose calls divide given pairs. Every run of characters with the same formats is shown
between their tags. -/
namespace Meridian

open Splice

mutual

def Json.same : Json → Json → Bool
  | .null, .null => true
  | .bool a, .bool b => a == b
  | .num a, .num b => a == b
  | .str a, .str b => a == b
  | .arr a, .arr b => Json.sameItems a b
  | .obj a, .obj b => Json.sameFields a b
  | _, _ => false

def Json.sameItems : List Json → List Json → Bool
  | [], [] => true
  | a :: as, b :: bs => Json.same a b && Json.sameItems as bs
  | _, _ => false

def Json.sameFields : List (JsString × Json) → List (JsString × Json) → Bool
  | [], [] => true
  | (key, a) :: as, (key', b) :: bs => key == key' && Json.same a b && Json.sameFields as bs
  | _, _ => false

end

/-- The keys and the texts of the entries of a value, as `for … in` goes through them. -/
def Json.entries : Json → List (JsString × JsString)
  | .obj fields => fields.map fun field => (field.1, field.2.toText)
  | .arr items => items.mapIdx fun i item => (js (toString i), item.toText)
  | .str s => s.mapIdx fun i c => (js (toString i), [c])
  | _ => []

namespace XmlText

def openTag (format : JsString × Json) : JsString :=
  let entries := (Json.entries format.2).insertionSort fun a b => a.1 ≤ b.1
  js "<" ++ format.1 ++
    entries.flatMap (fun entry => js " " ++ entry.1 ++ js "=\"" ++ entry.2 ++ js "\"") ++ js ">"

def closeTag (format : JsString × Json) : JsString := js "</" ++ format.1 ++ js ">"

/-- The characters from one on, when the tags of some formats are open. -/
def renderFrom (current : Attributes) : List (CodeUnit × Attributes) → JsString
  | [] => current.reverse.flatMap closeTag
  | (c, attributes) :: rest =>
    (if Json.sameFields attributes current then []
      else current.reverse.flatMap closeTag ++ attributes.flatMap openTag) ++
      c :: renderFrom attributes rest

def tagsBetween (current attributes : Attributes) : JsString :=
  if Json.sameFields attributes current then []
  else current.reverse.flatMap closeTag ++ attributes.flatMap openTag

def shownFrom (current : Attributes) : ℕ → List (CodeUnit × Attributes) → List ℕ
  | _, [] => []
  | offset, c :: rest =>
    let place := offset + (tagsBetween current c.2).length
    place :: shownFrom c.2 (place + 1) rest

theorem renderFrom_cons (current : Attributes) (c : CodeUnit × Attributes)
    (rest : List (CodeUnit × Attributes)) :
    renderFrom current (c :: rest) = tagsBetween current c.2 ++ c.1 :: renderFrom c.2 rest :=
  rfl

theorem map_shownFrom (current : Attributes) (before : JsString)
    (chars : List (CodeUnit × Attributes)) :
    (shownFrom current before.length chars).map
        (fun j => (before ++ renderFrom current chars)[j]?) =
      chars.map fun c => some c.1 := by
  induction chars generalizing current before with
  | nil => rfl
  | cons c rest ih =>
    have hrest := ih c.2 (before ++ tagsBetween current c.2 ++ [c.1])
    simp only [List.length_append, List.length_singleton, List.append_assoc,
      List.singleton_append] at hrest
    rw [shownFrom, List.map_cons, List.map_cons, renderFrom_cons]
    refine congrArg₂ List.cons ?_ ?_
    · simp
    · rw [← hrest, Nat.add_assoc]

theorem renderFrom_plain {chars : List (CodeUnit × Attributes)} (h : ∀ c ∈ chars, c.2 = []) :
    renderFrom [] chars = chars.map Prod.fst := by
  induction chars with
  | nil => rfl
  | cons c chars ih =>
    obtain ⟨hc, hchars⟩ := List.forall_mem_cons.mp h
    rw [renderFrom_cons, hc, ih hchars]
    rfl

theorem tagsBetween_pos {attributes : Attributes} (h : attributes ≠ []) :
    0 < (tagsBetween [] attributes).length := by
  obtain ⟨format, formats, rfl⟩ := List.exists_cons_of_ne_nil h
  simp [tagsBetween, Json.sameFields, openTag, js]

theorem le_of_mem_shownFrom {current : Attributes} {offset j : ℕ}
    {chars : List (CodeUnit × Attributes)} (h : j ∈ shownFrom current offset chars) :
    offset ≤ j := by
  induction chars generalizing current offset with
  | nil => cases h
  | cons c rest ih =>
    rw [shownFrom] at h
    rcases List.mem_cons.mp h with rfl | h
    · omega
    · have := ih h
      omega

theorem pairwise_shownFrom (current : Attributes) (offset : ℕ)
    (chars : List (CodeUnit × Attributes)) :
    (shownFrom current offset chars).Pairwise (· < ·) := by
  induction chars generalizing current offset with
  | nil => exact .nil
  | cons c rest ih => exact .cons (fun j hj => le_of_mem_shownFrom hj) (ih _ _)

/-- A formatted character is shown behind its place, or a tag was open before. -/
theorem shownFrom_behind (current : Attributes) (offset : ℕ)
    {chars : List (CodeUnit × Attributes)} {k : ℕ} {c : CodeUnit × Attributes}
    (hk : chars[k]? = some c) (hc : c.2 ≠ []) :
    ∃ j, (shownFrom current offset chars)[k]? = some j ∧
      (offset + k < j ∨ current ≠ [] ∧ offset + k ≤ j) := by
  induction chars generalizing current offset k with
  | nil => cases hk
  | cons d rest ih =>
    have hopen : d.2 ≠ [] → 0 < (tagsBetween current d.2).length ∨ current ≠ [] := by
      intro hd
      by_cases hcurrent : current = []
      · exact .inl (hcurrent ▸ tagsBetween_pos hd)
      · exact .inr hcurrent
    cases k with
    | zero =>
      cases hk
      refine ⟨offset + (tagsBetween current c.2).length, rfl, ?_⟩
      exact (hopen hc).imp (fun h => by omega) fun h => ⟨h, by omega⟩
    | succ k =>
      obtain ⟨j, hj, hbehind⟩ := ih d.2 (offset + (tagsBetween current d.2).length + 1) hk
      refine ⟨j, hj, ?_⟩
      rcases hbehind with h | ⟨hd, h⟩
      · exact .inl (by omega)
      · exact (hopen hd).imp (fun h => by omega) fun h => ⟨h, by omega⟩

/-- What a format of a range puts behind a text that ends in it. -/
def newlinesBehind (t : XmlText) (offset length : ℕ) (attributes : Attributes) :
    List (CodeUnit × Attributes) :=
  if t.chars.length ≤ offset then []
  else List.replicate (offset + length - t.chars.length)
    (0x0a, attributes.foldl setFormat ((t.chars.getLast?.map Prod.snd).getD []))

end XmlText

open XmlText

/-- The calls, when `split` says which pairs are divided. -/
@[reducible] def textsSplitBy (split : XmlText → ℕ → XmlText)
    (hsplit : ∀ t p, split t p = t ∨ dividesPair t.text p = true ∧ split t p = t.broken p) :
    XmlTextCalls where
  toString t := renderFrom [] t.chars
  insert t offset text := if text = [] then t else (split t offset).insertChars offset text
  delete t offset length :=
    if length = 0 then t
    else (split (split t offset) (offset + length)).deleteChars offset length
  format t offset length attributes :=
    ⟨((split (split t offset) (offset + length)).formatChars offset length attributes).chars ++
      t.newlinesBehind offset length attributes⟩
  split := split
  shown t := shownFrom [] 0 t.chars
  split_eq := hsplit
  insert_nil t offset := if_pos rfl
  insert_eq t offset text h := if_neg h
  delete_zero t offset := if_pos rfl
  delete_eq t offset length h := if_neg (Nat.ne_of_gt h)
  format_eq t offset length attributes h := by
    refine ⟨_, rfl, fun hne => ?_⟩
    rw [newlinesBehind, ne_eq, ite_eq_left_iff, not_forall] at hne
    obtain ⟨hinside, hne⟩ := hne
    rw [List.replicate_eq_nil_iff] at hne
    omega
  toString_plain t h := renderFrom_plain h
  toString_shown t := by
    rw [text, List.map_map]
    exact map_shownFrom [] [] t.chars
  shown_lt t := pairwise_shownFrom [] 0 t.chars
  shown_behind t k c hk hc := by
    obtain ⟨j, hj, hbehind⟩ := shownFrom_behind [] 0 hk hc
    exact ⟨j, hj, by simpa using hbehind⟩

/-- Texts that each are one item: every pair is divided. -/
@[reducible] def itemTexts : XmlTextCalls :=
  textsSplitBy (fun t p => if dividesPair t.text p then t.broken p else t) fun t p => by
    split
    · next h => exact .inr ⟨h, rfl⟩
    · exact .inl rfl

/-- Texts of which no pair is divided: the calls act on the characters as on a list. -/
@[reducible] def listTexts : XmlTextCalls := textsSplitBy (fun t _ => t) fun _ _ => .inl rfl

end Meridian
