import Meridian.CheckOrder
import Meridian.EditOrder
import Meridian.Lib.Gather

/-! Inserts that the content check resolves to the same position. Each of them is applied at the
offset of the first text, and so lands in front of those that were listed before it: their texts
stand in the document in the reverse of the listed order, or do not stand together at all. -/
namespace Meridian

open Splice

def insertsAt (position : ℕ) : Edit CodeUnit → Bool
  | .insert p _ => p = position
  | .delete _ _ => false

/-- In the text after the edits the texts of all inserts at one position stand one behind the
other, in the order in which the list has them. -/
structure InListedOrder (text : JsString) (ops : List AiOp) (after : JsString) : Prop where
  reads : (origins text.length (plainEdits ops)).map (look text (plainEdits ops)) =
    after.map some
  listed : ∀ position, (plainEdits ops).filter (insertsAt position) =
    (ops.filterMap toEdit).filter (insertsAt position)
  contiguous : ∀ position, placedFrom position 0 (plainEdits ops) <:+:
    origins text.length (plainEdits ops)

section Positions

variable {fuzzyThreshold : ℚ} {currentText : JsString}

/-- Ranges that start in the text have been relocated into the text. -/
def NonnegRanges (ranges : ℤ → Option ℤ) : Prop := ∀ k v, 0 ≤ k → ranges k = some v → 0 ≤ v

theorem resolvedStart_nonneg {range : TextRange} {start : ℤ} (h : 0 ≤ range.start)
    (hstart : resolvedStart currentText range = some start) : 0 ≤ start := by
  unfold resolvedStart at hstart
  split at hstart
  · cases hstart
    exact h
  · obtain ⟨m, -, rfl⟩ := Option.map_eq_some_iff.mp hstart
    exact Int.natCast_nonneg _

theorem checkOp_nonneg {ranges ranges' : ℤ → Option ℤ} {op op' : AiOp}
    (hranges : NonnegRanges ranges) (hvalid : op.Valid)
    (h : checkOp fuzzyThreshold currentText ranges op = .valid op' ranges') :
    (op'.isInsert = true → 0 ≤ op'.position) ∧ NonnegRanges ranges' := by
  constructor
  · intro hkind
    cases op with
    | insert position text anchor =>
      cases anchor with
      | none =>
        cases h
        cases hposition : ranges position with
        | none => exact hvalid.1
        | some v => exact hranges position v hvalid.1 hposition
      | some anchor =>
        obtain ⟨m, -, rfl⟩ := (checkOp_resolved h).anchored position text anchor rfl
        exact Int.natCast_nonneg _
    | delete range =>
      obtain ⟨start, stop, rfl⟩ := (checkOp_resolved h).moved
      cases hkind
    | format range attributes =>
      obtain ⟨start, stop, rfl⟩ := (checkOp_resolved h).moved
      cases hkind
  · have hrelocated : (checkOp fuzzyThreshold currentText ranges op).relocated ranges = _ :=
      checkOp_relocated op
    rw [h] at hrelocated
    change ranges' = _ at hrelocated
    intro k v hk hv
    rw [hrelocated] at hv
    cases hrange : op.range? with
    | none => exact hranges k v hk (by simpa [hrange] using hv)
    | some range =>
      cases hstart : resolvedStart currentText range with
      | none => exact hranges k v hk (by simpa [hrange, hstart] using hv)
      | some start =>
        rw [hrange, Option.bind_some, hstart, Option.map_some, Option.getD_some] at hv
        by_cases hkey : k = range.start
        · subst hkey
          rw [Function.update_self] at hv
          cases hv
          exact resolvedStart_nonneg hk hstart
        · rw [Function.update_of_ne hkey] at hv
          exact hranges k v hk hv

theorem checkLoop_nonneg {i : ℕ} {ops validOps valid : List AiOp}
    {rejectedOps rejected : List RejectedOp} {ranges : ℤ → Option ℤ}
    (hranges : NonnegRanges ranges) (hops : ∀ op ∈ ops, op.Valid)
    (hvalid : ∀ op ∈ valid, op.isInsert = true → 0 ≤ op.position)
    (h : (checkLoop fuzzyThreshold currentText i ops ranges valid rejected).outcome? =
      some (validOps, rejectedOps)) :
    ∀ op ∈ validOps, op.isInsert = true → 0 ≤ op.position := by
  induction ops generalizing i ranges valid rejected with
  | nil =>
    unfold checkLoop at h
    split at h <;>
    · cases h
      exact hvalid
  | cons op ops ih =>
    obtain ⟨hop, hrest⟩ := List.forall_mem_cons.mp hops
    unfold checkLoop at h
    split at h
    next op' ranges' hcheck =>
      obtain ⟨hposition, hranges'⟩ := checkOp_nonneg hranges hop hcheck
      refine ih hranges' hrest (fun x hx => ?_) h
      rcases List.mem_append.mp hx with hx | hx
      · exact hvalid x hx
      · obtain rfl := List.mem_singleton.mp hx
        exact hposition
    next reason hcheck => exact ih hranges hrest hvalid h
    next => cases h

theorem checkContentExistence_nonneg {json : Json} {ops validOps : List AiOp}
    {rejectedOps : List RejectedOp} (hops : validateOperations json = .ok ops)
    (h : (checkContentExistence fuzzyThreshold ops currentText).outcome? =
      some (validOps, rejectedOps)) :
    ∀ op ∈ validOps, op.isInsert = true → 0 ≤ op.position :=
  checkLoop_nonneg (fun _ _ _ h => by cases h) (validateOperations_valid hops) (by simp) h

end Positions

/-- The texts of the inserts at a position, as the list has them, are a part of the text after
the edits. -/
theorem InListedOrder.texts_infix {text after : JsString} {ops : List AiOp}
    (h : InListedOrder text ops after) (position : ℕ) :
    textsAt position (ops.filterMap toEdit) <:+: after := by
  have hfilter : ∀ edits : List (Edit CodeUnit),
      textsAt position (edits.filter (insertsAt position)) = textsAt position edits := by
    intro edits
    induction edits with
    | nil => rfl
    | cons e edits ih =>
      cases e with
      | insert p t =>
        by_cases hp : p = position
        · rw [List.filter_cons_of_pos (by simpa [insertsAt]), textsAt, textsAt, ih]
        · rw [List.filter_cons_of_neg (by simpa [insertsAt]), textsAt, if_neg hp, ih]
          rfl
      | delete s m => exact ih
  have := textsAt_infix (h.contiguous position) h.reads
  rwa [← hfilter, h.listed, hfilter] at this

section Order

variable {ops : List AiOp}

def insertsThere (position : ℕ) (op : AiOp) : Bool := (toEdit op).any (insertsAt position)

theorem insertsThere_spec {position : ℕ} {op : AiOp} (hop : op.isInsert = true → 0 ≤ op.position)
    (h : insertsThere position op = true) : op.isInsert = true ∧ op.position = position := by
  cases op with
  | insert p t anchor =>
    have hp : p.toNat = position := by simpa [insertsThere, toEdit, insertsAt] using h
    have hnonneg : 0 ≤ p := hop rfl
    exact ⟨rfl, by change p = _; omega⟩
  | delete range => cases h
  | format range attributes => cases h

/-- The sort is stable, so that the inserts at one position keep their order. -/
theorem filter_orderOpsForApplication (hops : ∀ op ∈ ops, op.isInsert = true → 0 ≤ op.position)
    (position : ℕ) :
    (orderOpsForApplication ops).filter (insertsThere position) =
      ops.filter (insertsThere position) := by
  unfold orderOpsForApplication
  split
  · have hsorted : (ops.filter (insertsThere position)).Pairwise appliesBefore := by
      refine List.pairwise_of_forall_mem_list fun a ha b hb => ?_
      obtain ⟨ha, hpa⟩ := List.mem_filter.mp ha
      obtain ⟨hb, hpb⟩ := List.mem_filter.mp hb
      obtain ⟨-, hposa⟩ := insertsThere_spec (hops a ha) hpa
      obtain ⟨hkind, hposb⟩ := insertsThere_spec (hops b hb) hpb
      exact .inr ⟨hposb.trans hposa.symm, by simp [hkind]⟩
    have hsub := (List.sublist_insertionSort hsorted List.filter_sublist).filter
      (insertsThere position)
    rw [List.filter_filter] at hsub
    simp only [Bool.and_self] at hsub
    refine (hsub.eq_of_length ?_).symm
    exact ((List.perm_insertionSort appliesBefore ops).filter _).length_eq.symm
  · rfl

theorem filter_filterMap_toEdit (position : ℕ) (l : List AiOp) :
    (l.filterMap toEdit).filter (insertsAt position) =
      (l.filter (insertsThere position)).filterMap toEdit := by
  induction l with
  | nil => rfl
  | cons op l ih =>
    cases hedit : toEdit op with
    | none =>
      have hnot : insertsThere position op = false := by simp [insertsThere, hedit]
      rw [List.filterMap_cons_none hedit, List.filter_cons_of_neg (by simp [hnot]), ih]
    | some e =>
      have hsame : insertsThere position op = insertsAt position e := by simp [insertsThere, hedit]
      rw [List.filterMap_cons_some hedit, List.filter_cons, List.filter_cons, hsame]
      split
      · rw [List.filterMap_cons_some hedit, ih]
      · exact ih

theorem filter_plainEdits (hops : ∀ op ∈ ops, op.isInsert = true → 0 ≤ op.position)
    (position : ℕ) : (plainEdits ops).filter (insertsAt position) =
      (ops.filterMap toEdit).filter (insertsAt position) := by
  rw [plainEdits, filter_filterMap_toEdit, filter_orderOpsForApplication hops,
    ← filter_filterMap_toEdit]

theorem exists_ops_of_sublist {e : Edit CodeUnit} {edits : List (Edit CodeUnit)} {l : List AiOp}
    (h : (e :: edits).Sublist (l.filterMap toEdit)) :
    ∃ op rest, (op :: rest).Sublist l ∧ toEdit op = some e ∧ rest.filterMap toEdit = edits := by
  obtain ⟨l', hsub, heq⟩ := List.sublist_filterMap_iff.mp h
  obtain ⟨l₁, op, rest, rfl, -, hop, hrest⟩ := List.filterMap_eq_cons_iff.mp heq.symm
  exact ⟨op, rest, (List.sublist_append_right _ _).trans hsub, hop, hrest⟩

theorem toEdit_eq_insert {op : AiOp} {position : ℕ} {text : JsString}
    (hop : op.isInsert = true → 0 ≤ op.position)
    (h : toEdit op = some (.insert position text)) :
    op.isInsert = true ∧ op.position = position := by
  refine insertsThere_spec hop ?_
  simp [insertsThere, h, insertsAt]

theorem toEdit_eq_delete {op : AiOp} {start length : ℕ}
    (h : toEdit op = some (.delete start length)) :
    op.isInsert = false ∧ op.position.toNat = start := by
  cases op with
  | insert position text anchor => cases h
  | delete range =>
    cases h
    exact ⟨rfl, rfl⟩
  | format range attributes => cases h

theorem le_start_of_sublist (hops : ∀ op ∈ ops, op.isInsert = true → 0 ≤ op.position)
    {position start length : ℕ} {text : JsString}
    (h : [.delete start length, .insert position text].Sublist (plainEdits ops)) :
    position ≤ start := by
  cases hrange : hasRangeEdit ops with
  | false =>
    have hkind : ∀ op ∈ ops, op.isInsert = true := by simpa [hasRangeEdit] using hrange
    cases isInsert_of_mem_plainEdits hkind (h.subset List.mem_cons_self)
  | true =>
    obtain ⟨a, rest, hsub, ha, hrest⟩ := exists_ops_of_sublist h
    obtain ⟨l, b, l', rfl, -, hb, -⟩ := List.filterMap_eq_cons_iff.mp hrest
    have hbefore : appliesBefore a b := List.rel_of_pairwise_cons
      ((pairwise_orderOpsForApplication hrange).sublist hsub) (by simp)
    have hmem : b ∈ ops := (perm_orderOpsForApplication ops).subset (hsub.subset (by simp))
    obtain ⟨-, hstart⟩ := toEdit_eq_delete ha
    obtain ⟨-, hposition⟩ := toEdit_eq_insert (hops b hmem) hb
    have hle : b.position ≤ a.position := hbefore.elim le_of_lt fun heq => heq.1.le
    omega

theorem undivided_plainEdits (hops : ∀ op ∈ ops, op.isInsert = true → 0 ≤ op.position) :
    Undivided (plainEdits ops) := by
  intro position text start length text' h
  cases hrange : hasRangeEdit ops with
  | false =>
    have hkind : ∀ op ∈ ops, op.isInsert = true := by simpa [hasRangeEdit] using hrange
    cases isInsert_of_mem_plainEdits hkind
      (h.subset (List.mem_cons_of_mem _ List.mem_cons_self : Edit.delete start length ∈ _))
  | true =>
    obtain ⟨a, rest, hsub, ha, hrest⟩ := exists_ops_of_sublist h
    obtain ⟨l, b, l', rfl, -, hb, hrest⟩ := List.filterMap_eq_cons_iff.mp hrest
    obtain ⟨m, c, m', rfl, -, hc, -⟩ := List.filterMap_eq_cons_iff.mp hrest
    have hsorted := (pairwise_orderOpsForApplication hrange).sublist hsub
    have hab : appliesBefore a b := List.rel_of_pairwise_cons hsorted (by simp)
    have hbc : appliesBefore b c :=
      List.rel_of_pairwise_cons (List.pairwise_append.mp (List.Pairwise.of_cons hsorted)).2.1
        (by simp)
    have hmem : ∀ x ∈ a :: (l ++ b :: (m ++ c :: m')), x ∈ ops :=
      fun x hx => (perm_orderOpsForApplication ops).subset (hsub.subset hx)
    obtain ⟨hkinda, hpositiona⟩ := toEdit_eq_insert (hops a (hmem a (by simp))) ha
    obtain ⟨hkindc, hpositionc⟩ := toEdit_eq_insert (hops c (hmem c (by simp))) hc
    obtain ⟨hkindb, -⟩ := toEdit_eq_delete hb
    have hle : c.position ≤ b.position := hbc.elim le_of_lt fun heq => heq.1.le
    rcases hab with hlt | ⟨-, hnot⟩
    · omega
    · exact hnot ⟨hkinda, hkindb⟩

end Order

variable {Doc : Type*} {service : YjsService Doc}

/-- After a list that passes the content check, inserts that were resolved to one position stand
together in the listed order exactly when every position gathers what is inserted there. A divided
surrogate pair or a format that pads the text does not touch that: U+FFFD stands where the halves
stood, and the newlines stand behind all later edits. -/
theorem applyOps_inListedOrder_iff (hplain : service.PlainText) (fuzzyThreshold : ℚ)
    (maxDocChars : ℕ) (doc : Doc) {json : Json} {ops validOps : List AiOp}
    {rejectedOps : List RejectedOp} (hops : validateOperations json = .ok ops)
    (hcheck : (checkContentExistence fuzzyThreshold ops
      (truncateText maxDocChars (service.extractText doc))).outcome? =
        some (validOps, rejectedOps)) :
    InListedOrder (service.extractText doc) validOps
        (service.extractText (applyOps service doc validOps)) ↔
      Gathered (service.extractText doc).length (plainEdits validOps) := by
  have hnonneg := checkContentExistence_nonneg hops hcheck
  have hafter := extractText_applyOps_of_check hplain doc hops hcheck
  have hne := ne_nil_of_check hops hcheck
  rw [← placedFrom_infix_iff hne (undivided_plainEdits hnonneg), hafter]
  exact ⟨fun h => h.contiguous,
    fun h => ⟨origins_look _ _, filter_plainEdits hnonneg, h⟩⟩

/-- In particular two inserts that are resolved to the same position of the text never do. -/
theorem not_inListedOrder_of_pair (fuzzyThreshold : ℚ) (maxDocChars : ℕ) (doc : Doc) {json : Json}
    {ops validOps : List AiOp} {rejectedOps : List RejectedOp}
    (hops : validateOperations json = .ok ops)
    (hcheck : (checkContentExistence fuzzyThreshold ops
      (truncateText maxDocChars (service.extractText doc))).outcome? =
        some (validOps, rejectedOps)) {a b : AiOp} (hpair : [a, b].Sublist validOps)
    (ha : a.isInsert = true) (hb : b.isInsert = true) (hsame : a.position = b.position)
    (hinside : a.position ≤ (service.extractText doc).length) :
    ¬ InListedOrder (service.extractText doc) validOps
        (service.extractText (applyOps service doc validOps)) := by
  have hnonneg := checkContentExistence_nonneg hops hcheck
  have hne := ne_nil_of_check hops hcheck
  have happlied : [a, b].Sublist (orderOpsForApplication validOps) := by
    unfold orderOpsForApplication
    split
    · exact List.pair_sublist_insertionSort (.inr ⟨hsame.symm, by simp [hb]⟩) hpair
    · exact hpair
  have hnonnega := hnonneg a (hpair.subset (by simp)) ha
  intro h
  have hgathers := (placedFrom_infix_iff hne (undivided_plainEdits hnonneg)).mp h.contiguous
  cases a with
  | insert position text anchor =>
    cases b with
    | insert position' text' anchor' =>
      obtain rfl : position = position' := hsame
      have hedits : [Edit.insert position.toNat text, .insert position.toNat text'].Sublist
          (plainEdits validOps) := happlied.filterMap toEdit
      have hgathered := hgathers _ (hedits.subset List.mem_cons_self) rfl
      refine not_gatheredAt_of_pair ?_ hedits hne (undivided_plainEdits hnonneg)
        (fun s m t hsub => le_start_of_sublist hnonneg hsub) hgathered
      simp only [AiOp.position] at hinside
      omega
    | delete range => cases hb
    | format range attributes => cases hb
  | delete range => cases ha
  | format range attributes => cases ha

def putBehind : Json :=
  .arr [.obj [(js "type", .str (js "insert")), (js "position", .num 9), (js "text", .str (js "A"))],
    .obj [(js "type", .str (js "delete")), (js "start", .num 3), (js "end", .num 4),
      (js "expected_text", .str (js "d"))],
    .obj [(js "type", .str (js "insert")), (js "position", .num 9), (js "text", .str (js "B"))]]

theorem applyOps_putBehind :
    InListedOrder (js "abcd") [.insert 9 (js "A") none, .delete ⟨3, 4, js "d"⟩,
      .insert 9 (js "B") none] (js "abcAB") :=
  (applyOps_inListedOrder_iff textService_plainText (7 / 10) 60000 (js "abcd")
    (show validateOperations putBehind = _ from rfl)
    (show ContentCheckResult.outcome? _ = some (_, []) from rfl)).mpr (by decide)

structure RangesClear (ops : List AiOp) : Prop where
  disjoint : ops.Pairwise fun a b => ∀ r ∈ a.range?, ∀ r' ∈ b.range?,
    r.stop ≤ r'.start ∨ r'.stop ≤ r.start
  outside : ∀ a ∈ ops, a.isInsert = true → ∀ b ∈ ops, ∀ r ∈ b.range?,
    a.position < r.start ∨ r.stop ≤ a.position

/-- A heading and what follows it, both put at the start, and a letter that is deleted. -/
def putTwice : Json :=
  .arr [.obj [(js "type", .str (js "insert")), (js "position", .num 0), (js "text", .str (js "A"))],
    .obj [(js "type", .str (js "delete")), (js "start", .num 3), (js "end", .num 4),
      (js "expected_text", .str (js "d"))],
    .obj [(js "type", .str (js "insert")), (js "position", .num 0), (js "text", .str (js "B"))]]

def appendTwice : Json :=
  .arr [.obj [(js "type", .str (js "insert")), (js "position", .num 0), (js "text", .str (js "A")),
      (js "anchor_text", .str (js "cd"))],
    .obj [(js "type", .str (js "insert")), (js "position", .num 0), (js "text", .str (js "B")),
      (js "anchor_text", .str (js "cd"))]]

/-- The texts "BAabc" and "abcdBA", where the lists say A and then B. -/
theorem applyOps_coinciding : (¬ ∀ ops validOps, validateOperations putTwice = .ok ops →
      checkContentExistence (7 / 10) ops (truncateText 60000 (js "abcd")) = .allExact validOps →
      RangesClear validOps →
      InListedOrder (js "abcd") validOps
        (textService.extractText (applyOps textService (js "abcd") validOps))) ∧
    ¬ ∀ ops validOps, validateOperations appendTwice = .ok ops →
      checkContentExistence (7 / 10) ops (truncateText 60000 (js "abcd")) = .allExact validOps →
      RangesClear validOps →
      InListedOrder (js "abcd") validOps
        (textService.extractText (applyOps textService (js "abcd") validOps)) := by
  constructor
  · intro h
    have horder := h _ _ rfl rfl
      ⟨by simp [AiOp.range?], by simp [AiOp.range?, AiOp.isInsert, AiOp.position]⟩
    exact absurd (horder.texts_infix 0) (by decide +kernel)
  · intro h
    have horder := h _ _ rfl rfl
      ⟨by simp [AiOp.range?], by simp [AiOp.range?, AiOp.isInsert, AiOp.position]⟩
    exact absurd (horder.texts_infix 4) (by decide +kernel)

end Meridian
