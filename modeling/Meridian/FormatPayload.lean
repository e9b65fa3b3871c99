import Meridian.YjsUpdate

/-! The payload that the server logs for a formatting update. A formatting writes an opening mark
for each of its attributes and behind the range a closing mark for each. The payload names the
first two marks of the update as its range and the attribute of the first. -/
namespace Meridian

abbrev Mark := YjsStruct × (JsString × Json)

def Mark.id (m : Mark) : StructId := m.1.id

def Mark.key (m : Mark) : JsString := m.2.1

def Mark.value (m : Mark) : Json := m.2.2

def DecodedUpdate.marks (decoded : DecodedUpdate) : List Mark :=
  carrying YjsStruct.mark? decoded.structs

/-- The two ids are those of an opening mark, the first one with its key, and of its closing mark,
the next one with the key. A mark that is not closed in the update stands for both. -/
def MarksRange (marks : List Mark) (startId endId : StructId) : Prop :=
  ∃ before m after, marks = before ++ m :: after ∧ (∀ m' ∈ before, m'.key ≠ m.key) ∧
    startId = m.id ∧ endId = ((after.find? fun m' => m'.key = m.key).getD m).id

/-- Each attribute that a mark opens is recorded with the value of the mark. -/
def RecordsOpened (marks : List Mark) (formatting : JsString × Json) : Prop :=
  ∀ m, (marks.find? fun m' => m'.key = m.key) = some m →
    Json.get [formatting] m.key = some m.value

/-- The payload is that of the formatting that the marks of the update make. -/
def DescribesFormat (marks : List Mark) : OperationPayload → Prop
  | .format startId endId formatting =>
    MarksRange marks startId endId ∧ RecordsOpened marks formatting
  | _ => False

section Payload

variable {decoded : DecodedUpdate} {c : Classified}

/-- An update that is classified as a formatting has a mark; the payload has the ids of the first
two, or of the only one, and the attribute of the first. -/
theorem classifyDecoded_format (h : classifyDecoded decoded = some c) (htype : c.type = .format) :
    ∃ m marks, decoded.marks = m :: marks ∧
      c.payload = .format m.id ((marks.head?.map Mark.id).getD m.id) m.2 := by
  unfold classifyDecoded at h
  dsimp only at h
  split at h
  · cases h
    exact OperationType.noConfusion htype
  · next s mark marks _ hmarks =>
    cases h
    exact ⟨(s, mark), marks, hmarks, rfl⟩
  · obtain ⟨r, -, rfl⟩ := Option.map_eq_some_iff.mp h
    exact OperationType.noConfusion htype
  · cases h
    exact OperationType.noConfusion htype
  · simp at h

theorem marksRange_of_key {m : Mark} {marks : List Mark} (h : ∀ m' ∈ marks, m'.key = m.key) :
    MarksRange (m :: marks) m.id ((marks.head?.map Mark.id).getD m.id) := by
  refine ⟨[], m, marks, rfl, by simp, rfl, ?_⟩
  cases marks with
  | nil => rfl
  | cons m' marks => rw [List.find?_cons_of_pos (by simpa using h m' List.mem_cons_self)]; rfl

/-- One record holds the attributes that a list of marks opens exactly when there is only one. -/
theorem recordsOpened_iff {m : Mark} {marks : List Mark} :
    RecordsOpened (m :: marks) m.2 ↔ ∀ m' ∈ marks, m'.key = m.key := by
  have hget : ∀ key, Json.get [m.2] key = if m.key = key then some m.value else none := by
    intro key
    by_cases h : m.2.1 = key <;> simp [Json.get, Mark.key, Mark.value, h]
  constructor
  · intro h m' hm'
    -- the first mark with the key of this one opens it
    cases hfind : (m :: marks).find? fun m'' => m''.key = m'.key with
    | none =>
      have := List.find?_eq_none.mp hfind m' (List.mem_cons_of_mem _ hm')
      simp at this
    | some opened =>
      have hkey : opened.key = m'.key := by simpa using List.find?_some hfind
      have hrecord := h opened (by rw [hkey]; exact hfind)
      rw [hget] at hrecord
      split at hrecord
      · next heq => exact (heq.trans hkey).symm
      · simp at hrecord
  · intro h opened hopened
    have hkey : opened.key = m.key := by
      rcases List.mem_cons.mp (List.mem_of_find?_eq_some hopened) with rfl | hmem
      · rfl
      · exact h opened hmem
    rw [List.find?_cons_of_pos (by simp [hkey])] at hopened
    obtain rfl := Option.some.inj hopened
    rw [hget, if_pos rfl]

end Payload

/-- The payload describes the formatting exactly when all marks of the update have one key. -/
theorem describesFormat_iff (decoded : DecodedUpdate) (c : Classified)
    (h : classifyDecoded decoded = some c) (htype : c.type = .format) :
    DescribesFormat decoded.marks c.payload ↔
      ∀ m ∈ decoded.marks, ∀ m' ∈ decoded.marks, m.key = m'.key := by
  obtain ⟨m, marks, hmarks, hpayload⟩ := classifyDecoded_format h htype
  rw [hmarks, hpayload]
  constructor
  · rintro ⟨-, hrecords⟩
    have hkeys := recordsOpened_iff.mp hrecords
    have hfirst : ∀ m' ∈ m :: marks, m'.key = m.key := by
      rintro m' (_ | ⟨_, hm'⟩)
      · rfl
      · exact hkeys m' hm'
    exact fun m' hm' m'' hm'' => (hfirst m' hm').trans (hfirst m'' hm'').symm
  · intro hkeys
    have hrest : ∀ m' ∈ marks, m'.key = m.key :=
      fun m' hm' => hkeys m' (List.mem_cons_of_mem _ hm') m List.mem_cons_self
    exact ⟨marksRange_of_key hrest, recordsOpened_iff.mpr hrest⟩

section Attributes

/-- The structs of client 7 that set attributes: one mark after the other. -/
def formatUpdate (marks : List (JsString × Json)) : DecodedUpdate :=
  ⟨marks.zipIdx.map fun mark => ⟨⟨7, mark.2⟩, 1, some (.format mark.1.1 mark.1.2)⟩, []⟩

def boldUpdate : DecodedUpdate := formatUpdate [(js "bold", .bool true), (js "bold", .null)]

theorem describesFormat_boldUpdate :
    DescribesFormat boldUpdate.marks (.format ⟨7, 0⟩ ⟨7, 1⟩ (js "bold", .bool true)) := by
  have hkey : ∀ m ∈ boldUpdate.marks, m.key = js "bold" := by
    rintro m (_ | ⟨_, _ | ⟨_, hm⟩⟩)
    · rfl
    · rfl
    · cases hm
  have hclassify : classifyDecoded boldUpdate =
      some ⟨.format, .format ⟨7, 0⟩ ⟨7, 1⟩ (js "bold", .bool true), 2⟩ := rfl
  exact (describesFormat_iff boldUpdate _ hclassify rfl).mpr
    fun m hm m' hm' => (hkey m hm).trans (hkey m' hm').symm

def boldItalicUpdate : DecodedUpdate :=
  formatUpdate [(js "bold", .bool true), (js "italic", .bool true), (js "bold", .null),
    (js "italic", .null)]

/-- The range of bold and italic text is said to end where italic opens, and italic is not
recorded. -/
theorem not_describesFormat_boldItalicUpdate : ∃ startId endId formatting,
    classifyDecoded boldItalicUpdate = some ⟨.format, .format startId endId formatting, 4⟩ ∧
      ¬ MarksRange boldItalicUpdate.marks startId endId ∧
      ¬ RecordsOpened boldItalicUpdate.marks formatting := by
  refine ⟨⟨7, 0⟩, ⟨7, 1⟩, (js "bold", .bool true), rfl, ?_, ?_⟩
  · rintro ⟨before, m, after, heq, -, hstart, hend⟩
    cases before with
    | nil =>
      obtain ⟨rfl, rfl⟩ := List.cons.inj heq
      exact absurd hend (by decide)
    | cons _ before =>
      have hm : m ∈ boldItalicUpdate.marks.tail := by
        rw [heq]
        simp
      have hlater : ∀ m ∈ boldItalicUpdate.marks.tail, m.id ≠ ⟨7, 0⟩ := by decide
      exact hlater m hm hstart.symm
  · intro hrecords
    have hitalic := recordsOpened_iff.mp hrecords (⟨⟨7, 1⟩, 1, _⟩, (js "italic", .bool true))
      (List.mem_cons_self)
    exact absurd hitalic (by decide)

end Attributes

end Meridian
