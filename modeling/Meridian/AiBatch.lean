import Meridian.BlockSplits
import Meridian.ItemTexts
import Meridian.KeptText
import Meridian.WriteMachine

/-! The persisting of a checked batch. Every operation is stored as the difference that it makes to
the document, and the rows of all of them are one transaction. A difference with neither structs nor
a delete set cannot be classified, and then nothing of the batch is committed. -/
namespace Meridian

open Splice

def XmlText.blank (t : XmlText) : XmlText := ⟨t.chars.map fun c => (0, c.2)⟩

structure YTextCalls where
  insert : XmlText → ℤ → JsString → XmlText
  delete : XmlText → ℤ → ℤ → XmlText
  format : XmlText → ℤ → ℤ → Attributes → XmlText

/-- `YjsService` on the content of a document, a `Y.Text` or a `Y.XmlFragment`. -/
def contentService [XmlTextCalls] (ytext : YTextCalls) : YjsService (XmlText ⊕ XmlFragment) where
  extractText := Sum.elim (fun text => text.chars.map Prod.fst) extractFragmentText
  insertText content position inserted := content.map
    (fun text => ytext.insert text position inserted)
    (fun fragment => insertText fragment position inserted)
  deleteText content start length := content.map
    (fun text => ytext.delete text start length)
    (fun fragment => deleteText fragment start length)
  formatText content start length attributes := content.map
    (fun text => ytext.format text start length attributes)
    (fun fragment => formatText fragment start length attributes)

mutual

/-- A node without its characters, of which only the formats are kept. -/
def XmlNode.blank : XmlNode → XmlNode
  | .text content => .text content.blank
  | .element nodeName children => .element nodeName (blankNodes children)

def blankNodes : List XmlNode → List XmlNode
  | [] => []
  | child :: children => child.blank :: blankNodes children

end

/-- The documents of the Yjs package, with the calls of the service on them. -/
structure YjsDocs (Doc V : Type) where
  service : YjsService Doc
  content : Doc → XmlText ⊕ XmlFragment
  deleteSet : Doc → List (ℕ × List DeleteRange)
  encodeStateVector : Doc → V
  encodeStateAsUpdate : Doc → V → Buffer
  decodeUpdate : Buffer → Option DecodedUpdate

section Batch

variable {Doc V : Type} (Y : YjsDocs Doc V)

namespace YjsDocs

def diff (doc : Doc) (op : AiOp) : Buffer :=
  Y.encodeStateAsUpdate (applyOp Y.service doc op) (Y.encodeStateVector doc)

def classifyUpdate (update : Buffer) : Option Classified :=
  (Y.decodeUpdate update).bind classifyDecoded

/-- The blocks and the formats of the characters. A character that U+FFFD replaces where a call
divides a surrogate pair is no change that is sent. -/
def shape (doc : Doc) : XmlText ⊕ XmlFragment := (Y.content doc).map XmlText.blank blankNodes

/-- What is relied on of the package: an insert acts as its calls do, a difference carries the whole
delete set, it has no structs where nothing changes, and it has something where something does. -/
structure Lawful (ytext : YTextCalls) : Prop where
  insert : ∀ text position inserted, inserted ≠ [] →
    (ytext.insert text position inserted).blank ≠ text.blank
  content : ∀ doc position inserted, ∃ _ : XmlTextCalls,
    Y.content (Y.service.insertText doc position inserted) =
      (contentService ytext).insertText (Y.content doc) position inserted
  decodes : ∀ doc op, ∃ decoded, Y.decodeUpdate (Y.diff doc op) = some decoded ∧
    decoded.ds = Y.deleteSet (applyOp Y.service doc op) ∧
      (Y.shape (applyOp Y.service doc op) = Y.shape doc → decoded.structs = []) ∧
      (Y.shape (applyOp Y.service doc op) ≠ Y.shape doc →
        decoded.structs ≠ [] ∨ decoded.ds ≠ [])
  ranges : ∀ doc, ∀ client ∈ Y.deleteSet doc, client.2 ≠ []

end YjsDocs

/-- The operations in the order of their application, each with the document it is applied to. -/
def editsFrom : Doc → List AiOp → List (Doc × AiOp)
  | _, [] => []
  | doc, op :: ops => (doc, op) :: editsFrom (applyOp Y.service doc op) ops

def perOpBinaries (doc : Doc) (ops : List AiOp) : List Buffer :=
  (editsFrom Y doc (orderOpsForApplication ops)).map fun edit => Y.diff edit.1 edit.2

end Batch

section Classifying

end Classifying

section Inserts

theorem length_blankNodes (nodes : List XmlNode) : (blankNodes nodes).length = nodes.length := by
  induction nodes with
  | nil => rfl
  | cons node nodes ih => rw [blankNodes, List.length_cons, ih, List.length_cons]

mutual

theorem texts_blank : ∀ node : XmlNode, node.blank.texts = node.texts.map XmlText.blank
  | .text _ => rfl
  | .element _ children => textsOf_blankNodes children

theorem textsOf_blankNodes : ∀ nodes : List XmlNode,
    textsOf (blankNodes nodes) = (textsOf nodes).map XmlText.blank
  | [] => rfl
  | child :: children => by
    rw [blankNodes, textsOf, textsOf, List.map_append, texts_blank child,
      textsOf_blankNodes children]

end

variable [XmlTextCalls] {offset : ℕ} {first last : JsString} {middle : List JsString}

theorem XmlText.length_insert (content : XmlText) (offset : ℕ) (inserted : JsString) :
    (content.insert offset inserted).chars.length = content.chars.length + inserted.length := by
  by_cases h : inserted = []
  · rw [h, XmlText.insert, XmlTextCalls.insert_nil]
    rfl
  · rw [XmlText.insert, XmlTextCalls.insert_eq _ _ _ h]
    change (insertAt (content.split offset).chars offset _).length = _
    simp [insertAt]
    omega

theorem XmlText.blank_insert_ne {content : XmlText} {inserted : JsString} (h : inserted ≠ []) :
    (content.insert offset inserted).blank ≠ content.blank := by
  intro heq
  have hlength := congrArg (fun t : XmlText => t.chars.length) heq
  have hpos := List.length_pos_iff.mpr h
  simp only [blank, List.length_map, length_insert] at hlength
  omega

mutual

theorem insertBlocksAt_ne : ∀ (node : XmlNode) (siblings : List XmlNode) (k : ℕ),
    k < textCount node →
      blankNodes (insertBlocksAt offset (first :: (middle ++ [last])) node k ++ siblings) ≠
        blankNodes (node :: siblings)
  | .text content, siblings, k, _ => by
    intro heq
    rw [insertBlocksAt, List.singleton_append, blankNodes, blankNodes, List.cons.injEq,
      XmlNode.blank, XmlNode.blank, XmlNode.text.injEq] at heq
    refine XmlText.blank_insert_ne ?_ heq.1
    rw [List.intercalate_cons_of_ne_nil (by simp)]
    simp [blockSeparator, js]
  | .element nodeName children, siblings, k, hk => by
    rw [insertBlocksAt]
    split
    · intro heq
      have hlength := congrArg List.length heq
      rw [length_blankNodes, length_blankNodes] at hlength
      simp [newBlocks] at hlength
      omega
    · intro heq
      rw [List.singleton_append, blankNodes, blankNodes, List.cons.injEq, XmlNode.blank,
        XmlNode.blank, XmlNode.element.injEq] at heq
      exact insertBlocks_ne children k hk heq.1.2

theorem insertBlocks_ne : ∀ (nodes : List XmlNode) (k : ℕ), k < textCounts nodes →
    blankNodes (insertBlocks offset (first :: (middle ++ [last])) nodes k) ≠ blankNodes nodes
  | [], k, hk => absurd hk (Nat.not_lt_zero k)
  | node :: siblings, k, hk => by
    rw [textCounts] at hk
    rw [insertBlocks]
    split
    · next hbehind =>
      intro heq
      rw [blankNodes, blankNodes, List.cons.injEq] at heq
      exact insertBlocks_ne siblings (k - textCount node) (by omega) heq.2
    · next hin => exact insertBlocksAt_ne node siblings k (not_le.mp hin)

end

end Inserts

section Persisting

variable {Doc V : Type} {Y : YjsDocs Doc V} {classify : Buffer → Option Classified}
  {sequence : ℕ → ℕ} {outboxId : ℕ → Uuid}

end Persisting

section Batches

variable {Doc V : Type} {Y : YjsDocs Doc V} {ytext : YTextCalls}

@[simp] theorem length_editsFrom (doc : Doc) (ops : List AiOp) :
    (editsFrom Y doc ops).length = ops.length := by
  induction ops generalizing doc with
  | nil => rfl
  | cons op ops ih => simp [editsFrom, ih]

theorem length_perOpBinaries (doc : Doc) (ops : List AiOp) :
    (perOpBinaries Y doc ops).length = ops.length := by
  rw [perOpBinaries, List.length_map, length_editsFrom,
    (perm_orderOpsForApplication ops).length_eq]

end Batches

section OneClient

structure ClientDoc where
  content : XmlText ⊕ XmlFragment
  written : JsString
  deleted : Bool

open Classical in
/-- An edit that changes nothing writes no struct. -/
noncomputable def ClientDoc.edit (doc : ClientDoc) (content : XmlText ⊕ XmlFragment)
    (written : JsString) (deleted : Bool) : ClientDoc :=
  if content.map XmlText.blank blankNodes = doc.content.map XmlText.blank blankNodes then
    { doc with content }
  else ⟨content, doc.written ++ written, doc.deleted || deleted⟩

variable [XmlTextCalls]

namespace ClientDoc

variable (doc : ClientDoc) (content' : XmlText ⊕ XmlFragment) (written' : JsString)
  (deleted' : Bool)

end ClientDoc

end OneClient

end Meridian
