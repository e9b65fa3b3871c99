import Meridian.Js
import Meridian.Lib.Joins

/-! Binary Yjs updates: how the server classifies a decoded update, and what it relies
on from the Yjs package when it merges updates into a document. -/
namespace Meridian

abbrev Uuid := ℕ

abbrev Buffer := List UInt8

/-- The identity of a struct, printed by the server as `client:clock`. -/
structure StructId where
  client : ℕ
  clock : ℕ
  deriving DecidableEq

/-- The contents that `classifyUpdate` tells apart: a string has `str`, a mark has `key`. -/
inductive StructContent
  | string (str : JsString)
  | format (key : JsString) (value : Json)
  | other

/-- A decoded struct; only an item has content, a skip or a collected range has none. -/
structure YjsStruct where
  id : StructId
  length : ℕ
  content : Option StructContent

structure DeleteRange where
  clock : ℕ
  len : ℕ

structure DecodedUpdate where
  structs : List YjsStruct
  ds : List (ℕ × List DeleteRange)

inductive OperationType
  | insert | delete | format | yjs_update
  deriving DecidableEq

inductive OperationPayload
  | insert (insertId : StructId) (content : JsString)
  | format (startId endId : StructId) (formatting : JsString × Json)
  | delete (deleteId : StructId)
  | structCount (n : ℕ)

structure Classified where
  type : OperationType
  payload : OperationPayload
  receivedClock : ℕ

def YjsStruct.str? (s : YjsStruct) : Option JsString :=
  match s.content with
  | some (.string str) => some str
  | _ => none

def YjsStruct.mark? (s : YjsStruct) : Option (JsString × Json) :=
  match s.content with
  | some (.format key value) => some (key, value)
  | _ => none

/-- The structs of the list that carry some value, each with it. -/
def carrying {β : Type} (f : YjsStruct → Option β) (structs : List YjsStruct) :
    List (YjsStruct × β) :=
  structs.filterMap fun s => (f s).map fun b => (s, b)

/-- The highest clock position that the structs of an update occupy. -/
def receivedClock (structs : List YjsStruct) : ℕ :=
  (structs.map fun s => s.id.clock + s.length).foldr max 0

/-- `YjsService.classifyUpdate` after `Y.decodeUpdate`; `none` is a thrown error. -/
def classifyDecoded (decoded : DecodedUpdate) : Option Classified :=
  let clock := receivedClock decoded.structs
  match carrying YjsStruct.str? decoded.structs, carrying YjsStruct.mark? decoded.structs,
    decoded.ds, decoded.structs with
  | (s, str) :: _, _, _, _ => some ⟨.insert, .insert s.id str, clock⟩
  -- the closing mark is the second mark of the update, of whatever key
  | [], (s, mark) :: marks, _, _ =>
    some ⟨.format, .format s.id ((marks.head?.map fun m => m.1.id).getD s.id) mark, clock⟩
  | [], [], (client, ranges) :: _, _ =>
    ranges.head?.map fun r => ⟨.delete, .delete ⟨client, r.clock⟩, clock⟩
  | [], [], [], _ :: _ => some ⟨.yjs_update, .structCount decoded.structs.length, clock⟩
  | [], [], [], [] => none

/-- The Yjs package as the server uses it. Documents are ordered by the updates they
hold, so applying an update is a join: commutative, associative and idempotent; and
applying an encoded state to an empty document gives that state back. -/
structure Yjs (Y : Type) [SemilatticeSup Y] [OrderBot Y] where
  content : Buffer → Y
  encodeStateAsUpdate : Y → Buffer
  decodeUpdate : Buffer → Option DecodedUpdate
  content_encodeStateAsUpdate : ∀ doc, content (encodeStateAsUpdate doc) = doc

namespace Yjs

variable {Y : Type} [SemilatticeSup Y] [OrderBot Y] (E : Yjs Y)

def applyUpdate (doc : Y) (update : Buffer) : Y := doc ⊔ E.content update

def classifyUpdate (update : Buffer) : Option Classified :=
  (E.decodeUpdate update).bind classifyDecoded

/-- A small engine that satisfies the laws: each byte of an update is one inserted
character of client 1, and a document is the set of those it holds. -/
def bytes : Yjs (Finset (Fin 256)) where
  content update := (update.map UInt8.toFin).toFinset
  encodeStateAsUpdate doc := (doc.sort (· ≤ ·)).map UInt8.ofFin
  decodeUpdate update :=
    some ⟨update.map fun c => ⟨⟨1, c.toNat⟩, 1, some (.string [c.toUInt16])⟩, []⟩
  content_encodeStateAsUpdate doc := by simp [List.map_map, Function.comp_def]

end Yjs

end Meridian
