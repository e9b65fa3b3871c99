import Mathlib

/-! JavaScript values that the server computes with. A string is its list of UTF-16
code units, the unit in which `length`, `slice` and `indexOf` count; a number is an
integer, since every number the server reads out of an edit is a character offset. -/
namespace Meridian

abbrev CodeUnit := UInt16
abbrev JsString := List CodeUnit

def js (s : String) : JsString := s.toList.map fun c => c.val.toUInt16

/-- The first half of a character outside the basic plane. -/
def isHighSurrogate (c : CodeUnit) : Bool := 0xd800 ≤ c && c ≤ 0xdbff

def replacementCharacter : CodeUnit := 0xfffd

/-- The offset is inside the text, right behind the first half of a surrogate pair. -/
def dividesPair (text : JsString) (p : ℕ) : Bool :=
  decide (0 < p) && decide (p < text.length) && (text[p - 1]?).any isHighSurrogate

/-- A value returned by `JSON.parse`. -/
inductive Json
  | null
  | bool (b : Bool)
  | num (n : ℤ)
  | str (s : JsString)
  | arr (items : List Json)
  | obj (fields : List (JsString × Json))

/-- Property access; an absent property reads as `undefined`, here `none`. -/
def Json.get (fields : List (JsString × Json)) (key : JsString) : Option Json :=
  (fields.find? fun f => f.1 = key).map Prod.snd

mutual

/-- `String(value)`. -/
def Json.toText : Json → JsString
  | .null => js "null"
  | .bool b => js (toString b)
  | .num n => js (toString n)
  | .str s => s
  | .arr items => Json.joinTexts items
  | .obj _ => js "[object Object]"

/-- The items of an array, joined by commas; a `null` item is left empty. -/
def Json.joinTexts : List Json → JsString
  | [] => []
  | [item] => Json.itemText item
  | item :: items => Json.itemText item ++ js "," ++ Json.joinTexts items

def Json.itemText : Json → JsString
  | .null => []
  | item => Json.toText item

end

def isSpace (c : CodeUnit) : Bool :=
  (9 ≤ c && c ≤ 13) || c = 0x20 || c = 0xa0 || c = 0x1680 || (0x2000 ≤ c && c ≤ 0x200a) ||
    c = 0x2028 || c = 0x2029 || c = 0x202f || c = 0x205f || c = 0x3000 || c = 0xfeff

def trim (s : JsString) : JsString :=
  ((s.dropWhile isSpace).reverse.dropWhile isSpace).reverse

section Slices

variable {α : Type*}

/-- The offset that an argument of `slice` denotes: negative ones count from the end. -/
def sliceIndex (n : ℕ) (i : ℤ) : ℕ :=
  if i < 0 then (n + i).toNat else min i.toNat n

def slice (text : List α) (start stop : ℤ) : List α :=
  (text.take (sliceIndex text.length stop)).drop (sliceIndex text.length start)

@[simp] theorem sliceIndex_natCast {n i : ℕ} (h : i ≤ n) : sliceIndex n i = i := by
  simp [sliceIndex, h]

theorem slice_natCast (text : List α) {a b : ℕ} (hb : b ≤ text.length) (hab : a ≤ b) :
    slice text a b = (text.drop a).take (b - a) := by
  simp only [slice, sliceIndex_natCast hb, sliceIndex_natCast (hab.trans hb), List.drop_take]

end Slices

section Searching

variable {α : Type*} [DecidableEq α]

def occursAt (text needle : List α) (i : ℕ) : Bool :=
  decide ((text.drop i).take needle.length = needle)

def indexOf (text needle : List α) (start : ℕ) : Option ℕ :=
  (List.range' start (text.length + 1 - start)).find? (occursAt text needle)

theorem occursAt_iff {text needle : List α} {i : ℕ} :
    occursAt text needle i = true ↔ (text.drop i).take needle.length = needle := by
  simp [occursAt]

theorem indexOf_some {text needle : List α} {start i : ℕ} (h : indexOf text needle start = some i) :
    occursAt text needle i = true ∧ start ≤ i ∧ i ≤ text.length ∧
      ∀ k, start ≤ k → k < i → occursAt text needle k = false := by
  obtain ⟨hi, j, hj, hji, hfirst⟩ := List.find?_eq_some_iff_getElem.mp h
  simp only [List.length_range', List.getElem_range', one_mul] at hj hji hfirst
  refine ⟨hi, by omega, by omega, fun k hk hki => ?_⟩
  have := hfirst (k - start) (by omega)
  rw [show start + (k - start) = k by omega] at this
  simpa using this

theorem indexOf_none {text needle : List α} {start : ℕ} (h : indexOf text needle start = none)
    {k : ℕ} (hk : start ≤ k) (hkn : k ≤ text.length) : occursAt text needle k = false := by
  have := List.find?_eq_none.mp h k (List.mem_range'_1.mpr ⟨hk, by omega⟩)
  simpa using this

end Searching

end Meridian
