import Meridian.ContentCheck
import Meridian.Lib.Splice

/-! The application of checked operations to a document, in the order that the server puts
them in. -/
namespace Meridian

open Splice

structure YjsService (Doc : Type*) where
  extractText : Doc → JsString
  insertText : Doc → ℤ → JsString → Doc
  deleteText : Doc → ℤ → ℤ → Doc
  formatText : Doc → ℤ → ℤ → List (JsString × Json) → Doc

section Application

variable {Doc : Type*} (service : YjsService Doc) (maxDocChars : ℕ)

def truncateText (text : JsString) : JsString :=
  if text.length ≤ maxDocChars then text
  else text.take maxDocChars ++ js ("\n\n[Document truncated at " ++ toString maxDocChars ++
    " characters. Remaining content omitted.]")

/-- The comparison of the sort: from the back to the front, and at one position ranges
before inserts. -/
def appliesBefore (a b : AiOp) : Prop :=
  b.position < a.position ∨
    (b.position = a.position ∧ ¬ (a.isInsert = true ∧ b.isInsert = false))

instance : DecidableRel appliesBefore := fun a b => by
  unfold appliesBefore
  infer_instance

def hasRangeEdit (ops : List AiOp) : Bool := ops.any fun op => !op.isInsert

/-- A list without ranges keeps its order. -/
def orderOpsForApplication (ops : List AiOp) : List AiOp :=
  if hasRangeEdit ops then ops.insertionSort appliesBefore else ops

def applyOp (doc : Doc) : AiOp → Doc
  | .insert position text _ => service.insertText doc position text
  | .delete range => service.deleteText doc range.start (range.stop - range.start)
  | .format range attributes =>
    service.formatText doc range.start (range.stop - range.start) attributes

/-- The loop over the operations, the same in the preview and in `applyOps`. -/
def applyOps (doc : Doc) (ops : List AiOp) : Doc :=
  (orderOpsForApplication ops).foldl (applyOp service) doc

def computeAfterText (doc : Doc) (ops : List AiOp) : JsString :=
  truncateText maxDocChars (service.extractText (applyOps service doc ops))

end Application

instance : Std.Total appliesBefore where
  total a b := by
    unfold appliesBefore
    grind

instance : IsTrans AiOp appliesBefore where
  trans a b c := by
    unfold appliesBefore
    grind

/-- The document of a `Y.Text` of which no surrogate pair is divided and no format reaches behind
the end: a call clips what lies outside the text, and formats are no part of the text. -/
structure YjsService.PlainText {Doc : Type*} (service : YjsService Doc) : Prop where
  insertText : ∀ doc position text, service.extractText (service.insertText doc position text) =
    insertAt (service.extractText doc) position.toNat text
  deleteText : ∀ doc start length, 0 ≤ length →
    service.extractText (service.deleteText doc start length) =
      deleteAt (service.extractText doc) start.toNat length.toNat
  formatText : ∀ doc start length attributes,
    service.extractText (service.formatText doc start length attributes) = service.extractText doc

def textService : YjsService JsString where
  extractText text := text
  insertText text position inserted := insertAt text position.toNat inserted
  deleteText text start length := deleteAt text start.toNat length.toNat
  formatText text _ _ _ := text

theorem textService_plainText : textService.PlainText :=
  ⟨fun _ _ _ => rfl, fun _ _ _ _ => rfl, fun _ _ _ _ => rfl⟩

section PlainText

def toEdit : AiOp → Option (Edit CodeUnit)
  | .insert position text _ => some (.insert position.toNat text)
  | .delete range => some (.delete range.start.toNat (range.stop - range.start).toNat)
  | .format _ _ => none

def plainEdits (ops : List AiOp) : List (Edit CodeUnit) :=
  (orderOpsForApplication ops).filterMap toEdit

theorem perm_orderOpsForApplication (ops : List AiOp) :
    (orderOpsForApplication ops).Perm ops := by
  unfold orderOpsForApplication
  split
  · exact List.perm_insertionSort _ _
  · exact List.Perm.refl _

variable {Doc : Type*} {service : YjsService Doc}

theorem extractText_applyOps (hplain : service.PlainText) (doc : Doc) {ops : List AiOp}
    (hranges : ∀ op ∈ ops, ∀ range ∈ op.range?, range.start < range.stop) :
    service.extractText (applyOps service doc ops) =
      run (plainEdits ops) (service.extractText doc) := by
  have hordered : ∀ op ∈ orderOpsForApplication ops, ∀ range ∈ op.range?,
      range.start < range.stop :=
    fun op hop => hranges op ((perm_orderOpsForApplication ops).subset hop)
  unfold applyOps plainEdits
  generalize orderOpsForApplication ops = ordered at hordered ⊢
  induction ordered generalizing doc with
  | nil => rfl
  | cons op rest ih =>
    rw [List.foldl_cons, ih _ fun op hop => hordered op (List.mem_cons_of_mem _ hop)]
    cases op with
    | insert position text anchor =>
      rw [applyOp, hplain.insertText]
      rfl
    | delete range =>
      have := hordered (.delete range) List.mem_cons_self range rfl
      rw [applyOp, hplain.deleteText _ _ _ (by omega)]
      rfl
    | format range attributes =>
      rw [applyOp, hplain.formatText]
      rfl

/-- What every valid operation of an accepted list keeps of its format check; and a text that
has valid ranges is not empty. -/
theorem checkContentExistence_valid {fuzzyThreshold : ℚ} {currentText : JsString} {json : Json}
    {ops validOps : List AiOp} {rejectedOps : List RejectedOp}
    (hops : validateOperations json = .ok ops)
    (h : (checkContentExistence fuzzyThreshold ops currentText).outcome? =
      some (validOps, rejectedOps)) :
    ∀ op ∈ validOps,
      (∀ range ∈ op.range?, range.start < range.stop ∧ currentText ≠ []) ∧
      ∀ position text anchor, op = .insert position text anchor → text ≠ [] := by
  intro op' hop'
  obtain ⟨op, hop, hres⟩ := (checkContentExistence_accounted h).source op' hop'
  have hvalid := validateOperations_valid hops op hop
  obtain ⟨start, stop, hmoved⟩ := hres.moved
  refine ⟨fun range' hrange' => ?_, fun position text anchor heq => ?_⟩
  · by_cases hat : ExactAt currentText op
    · have hkind : op.isInsert = false := by
        subst hmoved
        cases op <;> first | rfl | cases hrange'
      obtain rfl := hres.stays hkind hat
      obtain ⟨hlt, hne⟩ := hvalid.range hrange'
      refine ⟨hlt, fun hnil => hne ?_⟩
      rw [← hat range' hrange', hnil]
      simp [slice]
    · obtain ⟨range, hrange, m, hm, rfl⟩ := hres.found hat
      rw [moveTo_range hrange] at hrange'
      obtain rfl := Option.some.inj hrange'
      have hpos := List.length_pos_iff.mpr (hvalid.range hrange).2
      obtain ⟨hlen, hle, -⟩ := findNearestExactText_spec hm
      refine ⟨by simp; omega, fun hnil => ?_⟩
      rw [hnil, List.length_nil] at hle
      omega
  · subst hmoved
    cases op with
    | insert position' text' anchor' =>
      obtain ⟨-, rfl, -⟩ := AiOp.insert.inj heq
      exact hvalid.2.1
    | delete range => cases heq
    | format range attributes => cases heq

theorem mem_plainEdits {ops : List AiOp} {e : Edit CodeUnit} :
    e ∈ plainEdits ops ↔ ∃ op ∈ ops, toEdit op = some e := by
  simp [plainEdits, List.mem_filterMap, (perm_orderOpsForApplication ops).mem_iff]

theorem ne_nil_of_mem_plainEdits {ops : List AiOp}
    (h : ∀ op ∈ ops, ∀ position text anchor, op = .insert position text anchor → text ≠ [])
    {position : ℕ} {text : JsString} (hmem : .insert position text ∈ plainEdits ops) :
    text ≠ [] := by
  obtain ⟨op, hop, hedit⟩ := mem_plainEdits.mp hmem
  cases op with
  | insert position' text' anchor =>
    obtain ⟨-, rfl⟩ := Edit.insert.inj (Option.some.inj hedit)
    exact h _ hop _ _ _ rfl
  | delete range => cases hedit
  | format range attributes => cases hedit

theorem isInsert_of_mem_plainEdits {ops : List AiOp} (h : ∀ op ∈ ops, op.isInsert = true)
    {e : Edit CodeUnit} (he : e ∈ plainEdits ops) : e.isInsert = true := by
  obtain ⟨op, hop, hedit⟩ := mem_plainEdits.mp he
  have hkind := h op hop
  cases op with
  | insert position text anchor =>
    cases hedit
    rfl
  | delete range => cases hkind
  | format range attributes => cases hkind

theorem pairwise_orderOpsForApplication {ops : List AiOp} (hrange : hasRangeEdit ops = true) :
    (orderOpsForApplication ops).Pairwise appliesBefore := by
  rw [orderOpsForApplication, if_pos hrange]
  exact List.pairwise_insertionSort _ _

section Checked

variable {fuzzyThreshold : ℚ} {currentText : JsString} {json : Json} {ops validOps : List AiOp}
  {rejectedOps : List RejectedOp}

/-- What has passed the content check is applied to a plain text as edits of its characters. -/
theorem extractText_applyOps_of_check (hplain : service.PlainText) (doc : Doc)
    (hops : validateOperations json = .ok ops)
    (hcheck : (checkContentExistence fuzzyThreshold ops currentText).outcome? =
      some (validOps, rejectedOps)) :
    service.extractText (applyOps service doc validOps) =
      run (plainEdits validOps) (service.extractText doc) :=
  extractText_applyOps hplain doc fun op hop range hrange =>
    ((checkContentExistence_valid hops hcheck op hop).1 range hrange).1

theorem ne_nil_of_check (hops : validateOperations json = .ok ops)
    (hcheck : (checkContentExistence fuzzyThreshold ops currentText).outcome? =
      some (validOps, rejectedOps)) (position : ℕ) (text : JsString)
    (hmem : .insert position text ∈ plainEdits validOps) : text ≠ [] :=
  ne_nil_of_mem_plainEdits (fun op hop => (checkContentExistence_valid hops hcheck op hop).2) hmem

end Checked

end PlainText

end Meridian
