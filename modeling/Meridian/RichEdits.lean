import Meridian.EditOrder
import Meridian.RichText

/-! The edits of `YjsService` on a rich document: a flat range or position is mapped to the
texts that own it, a blank line in an inserted text starts a new block, and a block that a
delete has emptied goes, unless it is the last one. -/
namespace Meridian

def newline : CodeUnit := 0x0a

/-- `text.split(/\n{2,}/)`, with the segment so far and the newlines since it. -/
def splitFrom (segment : JsString) (newlines : ℕ) : JsString → List JsString
  | [] =>
    if 2 ≤ newlines then [segment, []] else [segment ++ List.replicate newlines newline]
  | c :: text =>
    if c = newline then splitFrom segment (newlines + 1) text
    else if 2 ≤ newlines then segment :: splitFrom [c] 0 text
    else splitFrom (segment ++ List.replicate newlines newline ++ [c]) 0 text

def splitBlocks (text : JsString) : List JsString := splitFrom [] 0 text

def createParagraph (text : JsString) : XmlNode :=
  .element (js "paragraph") [.text (.ofText text)]

def createParagraphs (text : JsString) : List XmlNode := (splitBlocks text).map createParagraph

variable [XmlTextCalls]

/-- The part of a text that lies in a flat range, in coordinates of the text. -/
def overlap (start length : ℤ) (node : LinearXmlText) : Option (ℕ × ℕ) :=
  let overlapStart := max start node.start
  let overlapEnd := min (start + length) node.stop
  if overlapEnd ≤ overlapStart then none
  else some ((overlapStart - node.start).toNat, (overlapEnd - overlapStart).toNat)

def forEachXmlTextRange (start length : ℤ) (callback : XmlText → ℕ → ℕ → XmlText)
    (fragment : XmlFragment) : XmlFragment :=
  let nodes := linearizeXmlText fragment
  (mapTexts (fun i content =>
    match nodes[i]?.bind (overlap start length) with
    | some (offset, size) => callback content offset size
    | none => content) fragment 0).1

def XmlNode.isElement : XmlNode → Bool
  | .element _ _ => true
  | .text _ => false

def affectedBlocks (start length : ℤ) (fragment : XmlFragment) : List ℕ :=
  let touched := fragment.zipWith
    (fun child nodes => child.isElement && nodes.any fun node => (overlap start length node).isSome)
    (linearizeBlocks 0 fragment)
  (List.range fragment.length).filter fun i => touched[i]?.getD false

def blockIsEmpty (block : XmlNode) : Bool := (extractInlineText block).isEmpty

/-- Remove the empty ones of some blocks, but never the last block of the fragment. An index
counts the blocks that were `removed` before it. -/
def pruneEmptyBlocks : List ℕ → ℕ → XmlFragment → XmlFragment
  | [], _, fragment => fragment
  | block :: blocks, removed, fragment =>
    if fragment.length ≤ 1 then fragment
    else if fragment[block - removed]?.any blockIsEmpty then
      pruneEmptyBlocks blocks (removed + 1) (fragment.eraseIdx (block - removed))
    else pruneEmptyBlocks blocks removed fragment

def deleteText (fragment : XmlFragment) (start length : ℤ) : XmlFragment :=
  pruneEmptyBlocks (affectedBlocks start length fragment) 0
    (forEachXmlTextRange start length XmlText.delete fragment)

def formatText (fragment : XmlFragment) (start length : ℤ) (attributes : Attributes) :
    XmlFragment :=
  forEachXmlTextRange start length
    (fun content offset size => content.format offset size attributes) fragment

def isChild : List XmlNode → ℕ → Bool
  | [], _ => false
  | .text _ :: _, 0 => true
  | .text _ :: children, k + 1 => isChild children k
  | .element _ nested :: children, k =>
    if k < textCounts nested then false else isChild children (k - textCounts nested)

/-- A text cut at an offset, before its first new segment. -/
def cutText (offset : ℕ) (segments : List JsString) (content : XmlText) : XmlText :=
  let nodeText := content.toString
  let head :=
    if (nodeText.drop offset).isEmpty then content
    else content.delete offset (nodeText.length - offset)
  match segments.headD [] with
  | [] => head
  | first => head.insert offset first

/-- The paragraphs after a block that is split: the middle segments, and the last one with
what was cut off. -/
def newBlocks (offset : ℕ) (segments : List JsString) (content : XmlText) : List XmlNode :=
  (segments.tail.dropLast.map createParagraph) ++
    [createParagraph (segments.getLastD [] ++ content.toString.drop offset)]

mutual

def XmlNode.texts : XmlNode → List XmlText
  | .text content => [content]
  | .element _ children => textsOf children

def textsOf : List XmlNode → List XmlText
  | [] => []
  | child :: children => child.texts ++ textsOf children

end

mutual

/-- `insertBlocks` for the text at a place among those under a node: the element that has it
as a child is split, and a text without such an element gets the segments inline. -/
def insertBlocksAt (offset : ℕ) (segments : List JsString) : XmlNode → ℕ → List XmlNode
  | .text content, _ => [.text (content.insert offset (blockSeparator.intercalate segments))]
  | .element nodeName children, k =>
    if isChild children k then
      .element nodeName (mapTexts (fun i content =>
          if i = k then cutText offset segments content else content) children 0).1 ::
        newBlocks offset segments ((textsOf children)[k]?.getD ⟨[]⟩)
    else [.element nodeName (insertBlocks offset segments children k)]

/-- The same among some siblings. -/
def insertBlocks (offset : ℕ) (segments : List JsString) : List XmlNode → ℕ → List XmlNode
  | [], _ => []
  | node :: siblings, k =>
    if textCount node ≤ k then
      node :: insertBlocks offset segments siblings (k - textCount node)
    else insertBlocksAt offset segments node k ++ siblings

end

/-- The place of the text that a position falls to: the first that does not end before it, or
else the last. -/
def targetIndex (nodes : List LinearXmlText) (position : ℤ) : ℕ :=
  (nodes.findIdx? fun node => decide (position ≤ node.stop)).getD (nodes.length - 1)

def insertText (fragment : XmlFragment) (position : ℤ) (text : JsString) : XmlFragment :=
  let nodes := linearizeXmlText fragment
  match nodes[targetIndex nodes position]? with
  | none => createParagraphs text ++ fragment
  | some target =>
    let localOffset := (min (max (position - target.start) 0) (target.stop - target.start)).toNat
    let segments := splitBlocks text
    if segments.length ≤ 1 then
      (mapTexts (fun i content =>
        if i = targetIndex nodes position then content.insert localOffset text else content)
        fragment 0).1
    else insertBlocks localOffset segments fragment (targetIndex nodes position)

def richService : YjsService XmlFragment where
  extractText := extractFragmentText
  insertText := insertText
  deleteText := deleteText
  formatText := formatText

end Meridian
