import Meridian.Lib.Runs
import Meridian.RichEdits
import Meridian.ItemTexts
import Mathlib

/-! The type of the shared `content`. A document that is rebuilt from updates has a root without
a class, which is guessed from its first live child; a root whose children have all been deleted
is taken for a `Y.Text`, and what is inserted next stands loose in it. -/
namespace Meridian

structure YText where
  insert : JsString → ℤ → JsString → JsString
  delete : JsString → ℤ → ℤ → JsString
  format : JsString → ℤ → ℤ → Attributes → JsString

/-- How the calls act on a text whose characters have all been deleted: an insert writes its
text, and a format from the start on writes the newlines that it is longer than the text. -/
structure YText.Lawful (ytext : YText) : Prop where
  insert : ∀ position text, ytext.insert [] position text = [] ↔ text = []
  delete : ∀ start length, ytext.delete [] start length = []
  format : ∀ start length attributes,
    ytext.format [] start length attributes = [] ↔ ¬ (start ≤ 0 ∧ 0 < length)

inductive RootChildren
  | nodes (fragment : XmlFragment)
  | loose (chars : JsString)

def RootChildren.length : RootChildren → ℕ
  | .nodes fragment => fragment.length
  | .loose chars => chars.length

inductive ContentType
  | abstractType (children : RootChildren)
  | xmlFragment (fragment : XmlFragment)
  | text (chars : JsString)

def ContentType.children : ContentType → RootChildren
  | .abstractType children => children
  | .xmlFragment fragment => .nodes fragment
  | .text chars => .loose chars

/-- `doc.share.get('content')`, and whether deleted items have it as their parent. -/
structure ContentDoc where
  content : Option ContentType
  deletedItems : Bool

namespace ContentDoc

/-- The document that its updates make: the root has lost its class, and is there only if some
item, deleted or not, belongs to it. -/
def rebuild (doc : ContentDoc) : ContentDoc :=
  { doc with content := doc.content.bind fun content =>
      if content.children.length = 0 ∧ doc.deletedItems = false then none
      else some (.abstractType content.children) }

def looksLikeXmlFragment : RootChildren → Bool
  | .nodes fragment => !fragment.isEmpty
  | .loose _ => false

def getXmlFragment : RootChildren → XmlFragment
  | .nodes fragment => fragment
  | .loose _ => []

def getText : RootChildren → JsString
  | .nodes _ => []
  | .loose chars => chars

def materializeContentType (doc : ContentDoc) : ContentDoc :=
  match doc.content with
  | some (.abstractType children) =>
    { doc with content := some (if looksLikeXmlFragment children then
        .xmlFragment (getXmlFragment children) else .text (getText children)) }
  | _ => doc

/-- The type that an edit is written to: a text, or else a fragment. -/
def resolveWritableContent (doc : ContentDoc) : JsString ⊕ XmlFragment :=
  match doc.content with
  | some (.text chars) => .inl chars
  | some (.xmlFragment fragment) => .inr fragment
  | some (.abstractType children) => .inr (getXmlFragment children)
  | none => .inr []

def write (doc : ContentDoc) (onText : JsString → JsString)
    (onFragment : XmlFragment → XmlFragment) : ContentDoc :=
  match doc.resolveWritableContent with
  | .inl chars => ⟨some (.text (onText chars)),
      doc.deletedItems || decide ((onText chars).length < chars.length)⟩
  | .inr fragment => ⟨some (.xmlFragment (onFragment fragment)),
      doc.deletedItems || decide ((onFragment fragment).length < fragment.length)⟩

end ContentDoc

/-- The calls of `YjsService`, and the reload of a document from its updates. -/
inductive ContentAction
  | reload
  | insertText (position : ℤ) (text : JsString)
  | deleteText (start length : ℤ)
  | formatText (start length : ℤ) (attributes : Attributes)

namespace ContentDoc

def step [XmlTextCalls] (ytext : YText) (doc : ContentDoc) : ContentAction → ContentDoc
  | .reload => doc.rebuild.materializeContentType
  | .insertText position text =>
    doc.write (fun chars => ytext.insert chars position text)
      fun fragment => Meridian.insertText fragment position text
  | .deleteText start length =>
    doc.write (fun chars => ytext.delete chars start length)
      fun fragment => Meridian.deleteText fragment start length
  | .formatText start length attributes =>
    doc.write (fun chars => ytext.format chars start length attributes)
      fun fragment => Meridian.formatText fragment start length attributes

def run [XmlTextCalls] (ytext : YText) (doc : ContentDoc) (actions : List ContentAction) :
    ContentDoc :=
  actions.foldl (step ytext) doc

def AllElements (doc : ContentDoc) : Prop :=
  match doc.content.map ContentType.children with
  | some (.nodes fragment) => ∀ child ∈ fragment, child.isElement = true
  | some (.loose chars) => chars = []
  | none => True

def isText (doc : ContentDoc) : Bool :=
  match doc.content with
  | some (.text _) => true
  | _ => false

/-- Nothing is inserted, and no format is laid over the start, while the content is a text. -/
def Blockwise (doc : ContentDoc) : ContentAction → Prop
  | .insertText _ text => doc.isText = true → text = []
  | .formatText start length _ => doc.isText = true → ¬ (start ≤ 0 ∧ 0 < length)
  | _ => True

instance (doc : ContentDoc) (a : ContentAction) : Decidable (doc.Blockwise a) := by
  cases a <;> unfold Blockwise <;> infer_instance

end ContentDoc

section Fragments

theorem isElement_mapText (f : ℕ → XmlText → XmlText) (node : XmlNode) (i : ℕ) :
    (mapText f node i).1.isElement = node.isElement := by
  cases node <;> rfl

theorem isElement_mapTexts (f : ℕ → XmlText → XmlText) {nodes : List XmlNode}
    (h : ∀ node ∈ nodes, node.isElement = true) (i : ℕ) :
    ∀ node ∈ (mapTexts f nodes i).1, node.isElement = true := by
  induction nodes generalizing i with
  | nil => simp [mapTexts]
  | cons child children ih =>
    rw [List.forall_mem_cons] at h
    rw [mapTexts, List.forall_mem_cons]
    exact ⟨(isElement_mapText f child i).trans h.1, ih h.2 _⟩

theorem isElement_createParagraphs (text : JsString) :
    ∀ node ∈ createParagraphs text, node.isElement = true := by
  simp [createParagraphs, createParagraph, XmlNode.isElement]

variable [XmlTextCalls]

theorem isElement_newBlocks (offset : ℕ) (segments : List JsString) (content : XmlText) :
    ∀ node ∈ newBlocks offset segments content, node.isElement = true := by
  simp only [newBlocks, List.mem_append, List.mem_map, List.mem_singleton]
  rintro _ (⟨segment, -, rfl⟩ | rfl) <;> rfl

theorem isElement_insertBlocksAt (offset : ℕ) (segments : List JsString) {node : XmlNode}
    (h : node.isElement = true) (k : ℕ) :
    ∀ n ∈ insertBlocksAt offset segments node k, n.isElement = true := by
  cases node with
  | text content => cases h
  | element nodeName children =>
    rw [insertBlocksAt]
    split
    · rw [List.forall_mem_cons]
      exact ⟨rfl, isElement_newBlocks offset segments _⟩
    · simp [XmlNode.isElement]

theorem isElement_insertBlocks (offset : ℕ) (segments : List JsString) {nodes : List XmlNode}
    (h : ∀ node ∈ nodes, node.isElement = true) (k : ℕ) :
    ∀ node ∈ insertBlocks offset segments nodes k, node.isElement = true := by
  induction nodes generalizing k with
  | nil => simp [insertBlocks]
  | cons node siblings ih =>
    rw [List.forall_mem_cons] at h
    rw [insertBlocks]
    split
    · rw [List.forall_mem_cons]
      exact ⟨h.1, ih h.2 _⟩
    · rw [List.forall_mem_append]
      exact ⟨isElement_insertBlocksAt offset segments h.1 k, h.2⟩

theorem isElement_insertText {fragment : XmlFragment}
    (h : ∀ child ∈ fragment, child.isElement = true) (position : ℤ) (text : JsString) :
    ∀ child ∈ insertText fragment position text, child.isElement = true := by
  unfold insertText
  dsimp only
  split
  · rw [List.forall_mem_append]
    exact ⟨isElement_createParagraphs text, h⟩
  · split
    · exact isElement_mapTexts _ h 0
    · exact isElement_insertBlocks _ _ h _

theorem isElement_forEachXmlTextRange {fragment : XmlFragment}
    (h : ∀ child ∈ fragment, child.isElement = true) (start length : ℤ)
    (callback : XmlText → ℕ → ℕ → XmlText) :
    ∀ child ∈ forEachXmlTextRange start length callback fragment, child.isElement = true :=
  isElement_mapTexts _ h 0

theorem pruneEmptyBlocks_subset (blocks : List ℕ) (removed : ℕ) (fragment : XmlFragment) :
    pruneEmptyBlocks blocks removed fragment ⊆ fragment := by
  fun_induction pruneEmptyBlocks blocks removed fragment with
  | case1 removed fragment => exact List.Subset.refl _
  | case2 removed fragment => exact List.Subset.refl _
  | case3 block blocks removed fragment hlen hempty ih =>
    exact List.Subset.trans ih (List.eraseIdx_subset ..)
  | case4 block blocks removed fragment hlen hempty ih => exact ih

theorem isElement_deleteText {fragment : XmlFragment}
    (h : ∀ child ∈ fragment, child.isElement = true) (start length : ℤ) :
    ∀ child ∈ deleteText fragment start length, child.isElement = true :=
  fun child hchild => isElement_forEachXmlTextRange h start length XmlText.delete child
    (pruneEmptyBlocks_subset _ _ _ hchild)

theorem isElement_formatText {fragment : XmlFragment}
    (h : ∀ child ∈ fragment, child.isElement = true) (start length : ℤ)
    (attributes : Attributes) :
    ∀ child ∈ formatText fragment start length attributes, child.isElement = true :=
  isElement_forEachXmlTextRange h start length _

end Fragments

namespace ContentDoc

variable {ytext : YText} {doc : ContentDoc}

/-- A call keeps the elements if it writes nothing to an empty text. -/
theorem allElements_write (hdoc : doc.AllElements) {onText : JsString → JsString}
    {onFragment : XmlFragment → XmlFragment}
    (hfragment : ∀ fragment, (∀ child ∈ fragment, child.isElement = true) →
      ∀ child ∈ onFragment fragment, child.isElement = true) :
    (doc.write onText onFragment).AllElements ↔ (doc.isText = true → onText [] = []) := by
  obtain ⟨content, deletedItems⟩ := doc
  match content, hdoc with
  | some (.text chars), hdoc =>
    cases (hdoc : chars = [])
    simp [write, resolveWritableContent, AllElements, isText, ContentType.children]
  | some (.xmlFragment fragment), hdoc => exact iff_of_true (hfragment fragment hdoc) nofun
  | some (.abstractType (.nodes fragment)), hdoc =>
    exact iff_of_true (hfragment fragment hdoc) nofun
  | some (.abstractType (.loose _)), _ => exact iff_of_true (hfragment [] (by simp)) nofun
  | none, _ => exact iff_of_true (hfragment [] (by simp)) nofun

/-- The guess is right for a fragment with elements left, and nothing is loose in the others. -/
theorem allElements_reload (hdoc : doc.AllElements) :
    doc.rebuild.materializeContentType.AllElements := by
  obtain ⟨content, deletedItems⟩ := doc
  cases content with
  | none => trivial
  | some content =>
    unfold rebuild
    simp only [Option.bind_some]
    split
    · trivial
    · change (ContentDoc.AllElements ⟨some _, _⟩)
      generalize hchildren : content.children = children
      have hdoc' : (⟨some (.abstractType children), deletedItems⟩ : ContentDoc).AllElements := by
        subst hchildren
        exact hdoc
      match children, hdoc' with
      | .nodes [], _ => exact rfl
      | .nodes (child :: siblings), hnodes => exact hnodes
      | .loose chars, hchars => exact hchars

section Sequences

variable [XmlTextCalls]

theorem allElements_step (hy : ytext.Lawful) (hdoc : doc.AllElements) (a : ContentAction) :
    (doc.step ytext a).AllElements ↔ doc.Blockwise a := by
  cases a with
  | reload => exact iff_of_true (allElements_reload hdoc) trivial
  | insertText position text =>
    rw [step, allElements_write hdoc fun _ h => isElement_insertText h position text, hy.insert]
    rfl
  | deleteText start length =>
    rw [step, allElements_write hdoc fun _ h => isElement_deleteText h start length]
    exact iff_of_true (fun _ => hy.delete start length) trivial
  | formatText start length attributes =>
    rw [step, allElements_write hdoc fun _ h => isElement_formatText h start length attributes,
      hy.format]
    rfl

/-- The root keeps to elements, at every point of a sequence of calls and reloads, exactly if
nothing is written while the content is taken for a text. -/
theorem allElements_run_iff (hy : ytext.Lawful) (hdoc : doc.AllElements)
    (actions : List ContentAction) :
    (∀ n, (doc.run ytext (actions.take n)).AllElements) ↔
      Runs.Follows (fun doc a => some (step ytext doc a)) Blockwise doc actions := by
  induction actions generalizing doc with
  | nil => simp [run, Runs.Follows, hdoc]
  | cons a actions ih =>
    rw [Runs.Follows, ← allElements_step hy hdoc]
    constructor
    · intro h
      refine ⟨h 1, ?_⟩
      rintro _ ⟨⟩
      exact (ih (h 1)).mp fun n => h (n + 1)
    · rintro ⟨ha, h⟩ n
      cases n with
      | zero => exact hdoc
      | succ n => exact (ih ha).mpr (h _ rfl) n

end Sequences

def plainYText : YText where
  insert chars position text := Splice.insertAt chars position.toNat text
  delete chars start length := Splice.deleteAt chars start.toNat length.toNat
  format chars start length _ :=
    if start.toNat ≤ chars.length then
      chars ++ List.replicate (start.toNat + length.toNat - chars.length) newline
    else chars

theorem plainYText_lawful : plainYText.Lawful where
  insert position text := by simp [plainYText, Splice.insertAt]
  delete start length := by simp [plainYText, Splice.deleteAt]
  format start length attributes := by
    simp [plainYText]
    omega

theorem allElements_run_paragraph :
    letI := itemTexts
    ((ContentDoc.mk (some (.xmlFragment (createParagraphs (js "ab")))) false).run plainYText
      [.reload, .insertText 1 (js "c\n\nd"), .reload, .deleteText 0 9]).AllElements := by
  have hdoc : AllElements ⟨some (.xmlFragment (createParagraphs (js "ab"))), false⟩ :=
    isElement_createParagraphs (js "ab")
  exact (@allElements_run_iff _ _ itemTexts plainYText_lawful hdoc
    [.reload, .insertText 1 (js "c\n\nd"), .reload, .deleteText 0 9]).mpr (by decide) 4

/-- All blocks have been deleted: the root is taken for a text. -/
theorem allElements_run_fails :
    letI := itemTexts
    ¬ ∀ (doc : ContentDoc) (actions : List ContentAction),
      doc.AllElements → ∀ n, (doc.run plainYText (actions.take n)).AllElements := by
  intro h
  have hloose := h ⟨some (.xmlFragment []), true⟩ [.reload, .insertText 0 (js "ab")]
    (fun _ => nofun) 2
  cases (hloose : js "ab" = [])

end ContentDoc

end Meridian
