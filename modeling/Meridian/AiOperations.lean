import Meridian.Js

/-! The edit operations that the language model returns, and their format check. A list
that passes has texts, quotes and anchors that are not empty, insert positions that are
not negative, and ranges that end after they start; the ends of a range may still lie
anywhere. -/
namespace Meridian

inductive AnchorPosition
  | before | after
  deriving DecidableEq

/-- A quote of the document next to which an insert belongs. -/
structure Anchor where
  text : JsString
  position : AnchorPosition
  deriving DecidableEq

structure TextRange where
  start : ℤ
  stop : ℤ
  expectedText : JsString
  deriving DecidableEq

inductive AiOp
  | insert (position : ℤ) (text : JsString) (anchor : Option Anchor)
  | delete (range : TextRange)
  | format (range : TextRange) (attributes : List (JsString × Json))

namespace AiOp

def range? : AiOp → Option TextRange
  | .insert _ _ _ => none
  | .delete range | .format range _ => some range

def position : AiOp → ℤ
  | .insert position _ _ => position
  | .delete range | .format range _ => range.start

def isInsert : AiOp → Bool
  | .insert _ _ _ => true
  | _ => false

def moveTo (op : AiOp) (start stop : ℤ) : AiOp :=
  match op with
  | .insert _ text anchor => .insert start text anchor
  | .delete range => .delete { range with start := start, stop := stop }
  | .format range attributes => .format { range with start := start, stop := stop } attributes

/-- What the format check promises of an operation. -/
def Valid : AiOp → Prop
  | .insert position text anchor => 0 ≤ position ∧ text ≠ [] ∧ ∀ a ∈ anchor, a.text ≠ []
  | .delete range | .format range _ => range.start < range.stop ∧ range.expectedText ≠ []

theorem Valid.range {op : AiOp} {range : TextRange} (h : op.Valid) (hr : op.range? = some range) :
    range.start < range.stop ∧ range.expectedText ≠ [] := by
  cases op with
  | insert position text anchor => cases hr
  | delete r =>
    cases hr
    exact h
  | format r attributes =>
    cases hr
    exact h

end AiOp

/-- The reason of an `AiValidationError` about one operation. -/
def opError (name : String) (index : ℕ) (message : String) : JsString :=
  js (name ++ " at index " ++ toString index ++ ": " ++ message)

section Checks

variable (index : ℕ) (op : List (JsString × Json))

def validateRange (name : String) : Except JsString (ℤ × ℤ) :=
  match Json.get op (js "start"), Json.get op (js "end") with
  | some (.num start), some (.num stop) =>
    if stop ≤ start then
      throw (opError name index "\"start\" must be less than \"end\"")
    else pure (start, stop)
  | _, _ => throw (opError name index "\"start\" and \"end\" must be numbers")

def validateText (name field : String) : Except JsString JsString :=
  match Json.get op (js field) with
  | some (.str text) =>
    if text = [] then
      throw (opError name index ("\"" ++ field ++ "\" must be a non-empty string"))
    else pure text
  | _ => throw (opError name index ("\"" ++ field ++ "\" must be a non-empty string"))

def validatePosition : Except JsString ℤ :=
  match Json.get op (js "position") with
  | some (.num position) =>
    if position < 0 then
      throw (opError "insert" index "\"position\" must be a non-negative number")
    else pure position
  | _ => throw (opError "insert" index "\"position\" must be a non-negative number")

/-- An absent or empty anchor is no anchor; its position defaults to `after`. -/
def validateAnchor : Except JsString (Option Anchor) :=
  match Json.get op (js "anchor_text") with
  | none => pure none
  | some (.str text) =>
    if text = [] then pure none
    else
      match Json.get op (js "anchor_position") with
      | none | some .null => pure (some ⟨text, .after⟩)
      | some (.str side) =>
        if side = js "before" then pure (some ⟨text, .before⟩)
        else if side = js "after" then pure (some ⟨text, .after⟩)
        else throw (opError "insert" index "\"anchor_position\" must be \"before\" or \"after\"")
      | some _ =>
        throw (opError "insert" index "\"anchor_position\" must be \"before\" or \"after\"")
  | some _ =>
    throw (opError "insert" index "\"anchor_text\" must be a non-empty string when provided")

def validateAttributes : Except JsString (List (JsString × Json)) :=
  match Json.get op (js "attributes") with
  | some (.obj attributes) => pure attributes
  | _ => throw (opError "format" index "\"attributes\" must be a plain object")

def validateInsert : Except JsString AiOp := do
  let position ← validatePosition index op
  let text ← validateText index op "insert" "text"
  let anchor ← validateAnchor index op
  pure (.insert position text anchor)

def validateDelete : Except JsString AiOp := do
  let (start, stop) ← validateRange index op "delete"
  let expectedText ← validateText index op "delete" "expected_text"
  pure (.delete ⟨start, stop, expectedText⟩)

def validateFormat : Except JsString AiOp := do
  let (start, stop) ← validateRange index op "format"
  let attributes ← validateAttributes index op
  let expectedText ← validateText index op "format" "expected_text"
  pure (.format ⟨start, stop, expectedText⟩ attributes)

def unknownType (type : Option Json) : JsString :=
  js ("Operation at index " ++ toString index ++ " has unknown type \"") ++
    (type.map Json.toText).getD (js "undefined") ++ js "\""

def validateFields : Except JsString AiOp :=
  match Json.get op (js "type") with
  | some (.str type) =>
    if type = js "insert" then validateInsert index op
    else if type = js "delete" then validateDelete index op
    else if type = js "format" then validateFormat index op
    else throw (unknownType index (some (.str type)))
  | type => throw (unknownType index type)

end Checks

/-- One item of the list. An array is an object too, without a `type`. -/
def validateOperation (index : ℕ) : Json → Except JsString AiOp
  | .obj op => validateFields index op
  | .arr _ => validateFields index []
  | _ => throw (js ("Operation at index " ++ toString index ++ " is not an object"))

def validateItems : ℕ → List Json → Except JsString (List AiOp)
  | _, [] => pure []
  | index, item :: items => do
    let op ← validateOperation index item
    let ops ← validateItems (index + 1) items
    pure (op :: ops)

/-- `validateOperations`; an error is the reason of the first `AiValidationError`. -/
def validateOperations : Json → Except JsString (List AiOp)
  | .arr items => validateItems 0 items
  | _ => throw (js "LLM response is not a JSON array")

theorem passed_bind {E A B : Type} {check : Except E A} {next : A → Except E B}
    {result : B} (h : check >>= next = .ok result) :
    ∃ a, check = .ok a ∧ next a = .ok result :=
  match check, h with
  | .ok a, h => ⟨a, rfl, h⟩

theorem validateRange_ok {index : ℕ} {op : List (JsString × Json)} {name : String} {r : ℤ × ℤ}
    (h : validateRange index op name = .ok r) : r.1 < r.2 := by
  unfold validateRange at h
  split at h
  · split at h
    · cases h
    · next hlt =>
      cases h
      exact not_le.mp hlt
  · cases h

theorem validateText_ok {index : ℕ} {op : List (JsString × Json)} {name field : String}
    {text : JsString} (h : validateText index op name field = .ok text) : text ≠ [] := by
  unfold validateText at h
  split at h
  · split at h
    · cases h
    · next hne =>
      cases h
      exact hne
  · cases h

theorem validatePosition_ok {index : ℕ} {op : List (JsString × Json)} {position : ℤ}
    (h : validatePosition index op = .ok position) : 0 ≤ position := by
  unfold validatePosition at h
  split at h
  · split at h
    · cases h
    · next hlt =>
      cases h
      exact not_lt.mp hlt
  · cases h

theorem validateAnchor_ok {index : ℕ} {op : List (JsString × Json)} {anchor : Option Anchor}
    (h : validateAnchor index op = .ok anchor) : ∀ a ∈ anchor, a.text ≠ [] := by
  unfold validateAnchor at h
  split at h
  · cases h
    simp
  · split at h
    · cases h
      simp
    · next hne =>
      split at h <;> try split at h <;> try split at h
      all_goals cases h
      all_goals simpa using hne
  · cases h

theorem validateOperation_valid {index : ℕ} {item : Json} {op : AiOp}
    (h : validateOperation index item = .ok op) : op.Valid := by
  have hfields : ∀ fields, validateFields index fields = .ok op → op.Valid := by
    intro fields h
    unfold validateFields at h
    split at h
    · split at h
      · obtain ⟨position, hposition, h⟩ := passed_bind h
        obtain ⟨text, htext, h⟩ := passed_bind h
        obtain ⟨anchor, hanchor, h⟩ := passed_bind h
        cases h
        exact ⟨validatePosition_ok hposition, validateText_ok htext, validateAnchor_ok hanchor⟩
      · split at h
        · obtain ⟨r, hr, h⟩ := passed_bind h
          obtain ⟨text, htext, h⟩ := passed_bind h
          cases h
          exact ⟨validateRange_ok hr, validateText_ok htext⟩
        · split at h
          · obtain ⟨r, hr, h⟩ := passed_bind h
            obtain ⟨attributes, -, h⟩ := passed_bind h
            obtain ⟨text, htext, h⟩ := passed_bind h
            cases h
            exact ⟨validateRange_ok hr, validateText_ok htext⟩
          · cases h
    · cases h
  unfold validateOperation at h
  split at h
  · exact hfields _ h
  · exact hfields _ h
  · cases h

theorem validateItems_valid {index : ℕ} {items : List Json} {ops : List AiOp}
    (h : validateItems index items = .ok ops) : ∀ op ∈ ops, op.Valid := by
  induction items generalizing index ops with
  | nil =>
    cases h
    simp
  | cons item items ih =>
    obtain ⟨op, hop, h⟩ := passed_bind h
    obtain ⟨rest, hrest, h⟩ := passed_bind h
    cases h
    intro x hx
    rcases List.mem_cons.mp hx with rfl | hx
    · exact validateOperation_valid hop
    · exact ih hrest x hx

/-- Every operation of an accepted list has what the format check promises. -/
theorem validateOperations_valid {json : Json} {ops : List AiOp}
    (h : validateOperations json = .ok ops) : ∀ op ∈ ops, op.Valid := by
  unfold validateOperations at h
  split at h
  · exact validateItems_valid h
  · cases h

end Meridian
