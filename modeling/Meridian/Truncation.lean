import Meridian.DividedPairs
import Meridian.Lib.Suffix

/-! Documents that are longer than what the language model gets to see. Its operations are
checked against the text that has been cut off and marked so, and applied to the whole text;
so the part that was not shown stays the end of the text exactly if the operations leave it
alone, wherever the marker let them match, and do not divide the pair that the cut goes through. -/
namespace Meridian

open Splice

section Edits

variable {Doc : Type*} (service : YjsService Doc)

/-- What an operation does to the text of a document. What a format puts behind the text is an
insert at a position that no text reaches. -/
def opEdit (doc : Doc) : AiOp → Option (Edit CodeUnit)
  | .insert position text _ => some (.insert position.toNat text)
  | .delete range => some (.delete range.start.toNat (range.stop - range.start).toNat)
  | .format range attributes =>
    let text := service.extractText doc
    let padding := (service.extractText (applyOp service doc (.format range attributes))).drop
      text.length
    if padding = [] then none
    else some (.insert (text.length + range.start.toNat + 1) padding)

def textEdits : Doc → List AiOp → List (Edit CodeUnit)
  | _, [] => []
  | doc, op :: ops => (opEdit service doc op).toList ++ textEdits (applyOp service doc op) ops

def appliedEdits (doc : Doc) (ops : List AiOp) : List (Edit CodeUnit) :=
  textEdits service doc (orderOpsForApplication ops)

end Edits

def paddedPasses {Doc : Type*} (service : YjsService Doc) (divided : Doc → AiOp → ℕ → Bool)
    (doc : Doc) (ops : List AiOp) : List (Pass CodeUnit) :=
  passesFrom service divided (opEdit service) doc (orderOpsForApplication ops)

/-- The text after the edits reads what the edits leave of the first text and insert, but for
divided halves, and ends with all that was not shown, no character of it changed. -/
structure KeepsUnseen (text : JsString) (maxDocChars : ℕ) (edits : List (Edit CodeUnit))
    (after : JsString) : Prop where
  reads : ∃ read : Origin → Option CodeUnit, (origins text.length edits).map read = after.map some ∧
    ∀ o, read o = look text edits o ∨ read o = some replacementCharacter
  suffix : ∃ front, origins text.length edits =
    front ++ (List.range' maxDocChars (text.length - maxDocChars)).map .original
  unchanged : text.drop maxDocChars <:+ after

variable {Doc : Type*} {service : YjsService Doc} {divided : Doc → AiOp → ℕ → Bool}

theorem run_opEdit (hcalls : service.YText divided) (doc : Doc) {op : AiOp}
    (hrange : ∀ range ∈ op.range?, range.start < range.stop) :
    service.extractText (applyOp service doc op) =
      run (opEdit service doc op).toList (service.dividedText divided doc op) := by
  cases op with
  | insert position text anchor => exact hcalls.insert doc position text anchor
  | delete range => exact hcalls.delete doc range (hrange range rfl)
  | format range attributes =>
    obtain ⟨padding, hpad, -⟩ := hcalls.format doc range attributes (hrange range rfl)
    have hlength : (service.dividedText divided doc (.format range attributes)).length =
        (service.extractText doc).length := length_overwrite _ _ _
    simp only [opEdit, hpad, ← hlength, List.drop_left]
    split
    next hnil => simp [hnil]
    next =>
      rw [Option.toList_some, run_cons, run_nil, Edit.apply, insertAt,
        List.take_of_length_le (by omega), List.drop_of_length_le (by omega), List.append_nil]

theorem passEdits_paddedPasses (doc : Doc) (ops : List AiOp) :
    passEdits (paddedPasses service divided doc ops) = appliedEdits service doc ops := by
  unfold paddedPasses appliedEdits
  generalize orderOpsForApplication ops = ordered
  induction ordered generalizing doc with
  | nil => rfl
  | cons op ops ih =>
    have hcons : passEdits (passesFrom service divided (opEdit service) doc (op :: ops)) =
        (opEdit service doc op).toList ++
          passEdits (passesFrom service divided (opEdit service) (applyOp service doc op) ops) :=
      List.flatMap_cons
    rw [hcons, ih, textEdits]

theorem runPasses_paddedPasses (hcalls : service.YText divided) (doc : Doc) {ops : List AiOp}
    (hranges : ∀ op ∈ ops, ∀ range ∈ op.range?, range.start < range.stop) :
    service.extractText (applyOps service doc ops) =
      runPasses replacementCharacter (paddedPasses service divided doc ops)
        (service.extractText doc) :=
  extractText_foldl_of_edits (fun op hop doc' => run_opEdit hcalls doc' (hranges op
    ((perm_orderOpsForApplication ops).subset hop))) doc

theorem mem_textEdits {doc : Doc} {ops : List AiOp} {e : Edit CodeUnit}
    (h : e ∈ textEdits service doc ops) : ∃ doc', ∃ op ∈ ops, opEdit service doc' op = some e := by
  induction ops generalizing doc with
  | nil => cases h
  | cons op ops ih =>
    rcases List.mem_append.mp h with h | h
    · exact ⟨doc, op, List.mem_cons_self, Option.mem_toList.mp h⟩
    · obtain ⟨doc', op', hop', he⟩ := ih h
      exact ⟨doc', op', List.mem_cons_of_mem _ hop', he⟩

theorem delete_of_opEdit {doc : Doc} {op : AiOp} {e : Edit CodeUnit}
    (h : opEdit service doc op = some e) (he : e.isInsert = false) :
    op.isInsert = false ∧ e.position = op.position.toNat := by
  cases op with
  | insert position text anchor =>
    cases h
    cases he
  | delete range =>
    cases h
    exact ⟨rfl, rfl⟩
  | format range attributes =>
    simp only [opEdit] at h
    split at h <;> cases h
    cases he

theorem ne_nil_of_opEdit {doc : Doc} {op : AiOp}
    (hop : ∀ position text anchor, op = .insert position text anchor → text ≠ []) {p : ℕ}
    {t : JsString} (h : opEdit service doc op = some (.insert p t)) : t ≠ [] := by
  cases op with
  | insert position text anchor =>
    cases h
    exact hop _ _ _ rfl
  | delete range => cases h
  | format range attributes =>
    simp only [opEdit] at h
    split at h
    · cases h
    next hne =>
      cases h
      exact hne

theorem deletesDown_textEdits (doc : Doc) {ops : List AiOp} (h : ops.Pairwise appliesBefore) :
    DeletesDown (textEdits service doc ops) := by
  induction ops generalizing doc with
  | nil => exact .nil
  | cons op ops ih =>
    obtain ⟨hop, hrest⟩ := List.pairwise_cons.mp h
    refine List.pairwise_append.mpr ⟨?_, ih _ hrest, fun a ha b hb hkind => ?_⟩
    · cases opEdit service doc op <;> simp
    · obtain ⟨doc', op', hop', hedit⟩ := mem_textEdits hb
      obtain ⟨hkind', hposition⟩ := delete_of_opEdit hedit hkind
      have hbefore : op'.position < op.position ∨ (op'.position = op.position ∧
          ¬ (op.isInsert = true ∧ op'.isInsert = false)) := hop op' hop'
      obtain ⟨position, hp⟩ : ∃ position, op'.position = position := ⟨_, rfl⟩
      rw [hposition, hp]
      rw [hkind', hp] at hbefore
      have ha := Option.mem_toList.mp ha
      cases op with
      | insert start text anchor =>
        cases ha
        have hlt : position < start := by simpa [AiOp.position, AiOp.isInsert] using hbefore
        change position.toNat ≤ start.toNat ∧
          (_ → position.toNat < start.toNat ∨ start.toNat = 0)
        exact ⟨by omega, fun _ => by omega⟩
      | delete range =>
        cases ha
        simp only [AiOp.position] at hbefore
        change position.toNat ≤ range.start.toNat ∧ _
        exact ⟨by omega, fun hinsert => absurd hinsert Bool.false_ne_true⟩
      | format range attributes =>
        simp only [opEdit] at ha
        split at ha <;> cases ha
        simp only [AiOp.position] at hbefore
        simp only [Edit.position]
        omega

/-- In the order of application no delete comes too late; a list that is not ordered has none. -/
theorem deletesDown_appliedEdits (doc : Doc) (ops : List AiOp) :
    DeletesDown (appliedEdits service doc ops) := by
  unfold appliedEdits orderOpsForApplication
  split
  next => exact deletesDown_textEdits doc (List.pairwise_insertionSort _ _)
  next hnone =>
    refine List.Pairwise.imp_of_mem (fun _ hb _ hkind => ?_) (List.pairwise_of_forall
      fun _ _ => trivial)
    obtain ⟨doc', op, hop, hedit⟩ := mem_textEdits hb
    refine absurd (List.any_eq_true.mpr ⟨op, hop, ?_⟩) hnone
    rw [(delete_of_opEdit hedit hkind).1]
    rfl

/-- No character that was not shown is a half that a call divides off; a U+FFFD may be. -/
def UnseenWhole {Doc : Type*} (service : YjsService Doc) (divided : Doc → AiOp → ℕ → Bool)
    (maxDocChars : ℕ) (doc : Doc) (ops : List AiOp) : Prop :=
  ∀ i, maxDocChars ≤ i → i < (service.extractText doc).length →
    .original i ∈ overwritten 0 (paddedPasses service divided doc ops)
      (originalText (service.extractText doc).length) →
    (service.extractText doc)[i]? = some replacementCharacter

theorem UnseenWhole.of_dividesNone (hcalls : service.YText divided) {maxDocChars : ℕ} {doc : Doc}
    {ops : List AiOp} (h : DividesNone service doc (orderOpsForApplication ops)) :
    UnseenWhole service divided maxDocChars doc ops := by
  intro i _ _ hi
  rw [paddedPasses, overwritten_of_dividesNone hcalls h] at hi
  cases hi

/-- After a list that passes the content check, a text keeps what was not shown as its end exactly
if no edit meets it, none leaves anything behind it, and no call divides off a half of it. -/
theorem applyOps_keepsUnseen_iff (hcalls : service.YText divided) (fuzzyThreshold : ℚ)
    (maxDocChars : ℕ) (doc : Doc) {json : Json} {ops validOps : List AiOp}
    {rejectedOps : List RejectedOp} (hops : validateOperations json = .ok ops)
    (hlong : maxDocChars < (service.extractText doc).length)
    (hcheck : (checkContentExistence fuzzyThreshold ops
      (truncateText maxDocChars (service.extractText doc))).outcome? =
        some (validOps, rejectedOps)) :
    KeepsUnseen (service.extractText doc) maxDocChars (appliedEdits service doc validOps)
        (service.extractText (applyOps service doc validOps)) ↔
      PassesBy ((service.extractText doc).length - maxDocChars) maxDocChars 0
        (appliedEdits service doc validOps) ∧
        UnseenWhole service divided maxDocChars doc validOps := by
  have hvalid := checkContentExistence_valid hops hcheck
  have hne : ∀ p t, .insert p t ∈ appliedEdits service doc validOps → t ≠ [] := by
    intro p t hmem
    obtain ⟨doc', op, hop, hedit⟩ := mem_textEdits hmem
    exact ne_nil_of_opEdit (hvalid op ((perm_orderOpsForApplication validOps).subset hop)).2 hedit
  have hreads := origins_lookOver replacementCharacter (service.extractText doc)
    (paddedPasses service divided doc validOps)
  rw [← runPasses_paddedPasses hcalls doc fun op hop range hrange =>
    ((hvalid op hop).1 range hrange).1, passEdits_paddedPasses] at hreads
  have hwhole : (∃ front, origins (service.extractText doc).length
        (appliedEdits service doc validOps) = front ++ (List.range' maxDocChars
          ((service.extractText doc).length - maxDocChars)).map .original) →
      ((service.extractText doc).drop maxDocChars <:+
          service.extractText (applyOps service doc validOps) ↔
        UnseenWhole service divided maxDocChars doc validOps) := by
    rintro ⟨front, hfront⟩
    rw [hfront] at hreads
    rw [drop_suffix_iff hreads]
    refine forall₃_congr fun i _ _ => ?_
    rw [lookOver, passEdits_paddedPasses]
    change (if _ then _ else (service.extractText doc)[i]?) = _ ↔ _
    split
    · next hmem => exact ⟨fun h _ => h.symm, fun h => (h hmem).symm⟩
    · next hmem => exact ⟨fun _ h => absurd h hmem, fun _ => rfl⟩
  rw [← suffix_origins_iff hlong (deletesDown_appliedEdits doc validOps) hne]
  constructor
  · intro h
    exact ⟨h.suffix, (hwhole h.suffix).mp h.unchanged⟩
  · rintro ⟨hsuffix, hunseen⟩
    refine ⟨⟨_, hreads, fun o => ?_⟩, hsuffix, (hwhole hsuffix).mpr hunseen⟩
    rw [lookOver, passEdits_paddedPasses]
    split
    · exact .inr rfl
    · exact .inl rfl

def deleteShown : Json :=
  .arr [.obj [(js "type", .str (js "delete")), (js "start", .num 1), (js "end", .num 3),
    (js "expected_text", .str (js "bc"))]]

theorem applyOps_deleteShown :
    KeepsUnseen (js "abcdef") 4 [.delete 1 2] (js "adef") :=
  (applyOps_keepsUnseen_iff itemService_yText (7 / 10) 4 (js "abcdef")
    (show validateOperations deleteShown = .ok [.delete ⟨1, 3, js "bc"⟩] from rfl) (by decide)
    (show _ = some ([.delete ⟨1, 3, js "bc"⟩], []) from rfl)).mpr
      ⟨by decide, UnseenWhole.of_dividesNone itemService_yText (by decide)⟩

/-- A text is inserted where the text that was shown says that something is omitted. -/
def insertOmitted : Json :=
  .arr [.obj [(js "type", .str (js "insert")), (js "position", .num 5), (js "text", .str (js "X"))]]

theorem applyOps_insertOmitted : ¬ ∀ ops validOps rejectedOps,
    validateOperations insertOmitted = .ok ops →
    (checkContentExistence (7 / 10) ops (truncateText 4 (js "abcdef"))).outcome? =
      some (validOps, rejectedOps) →
    KeepsUnseen (js "abcdef") 4 (appliedEdits itemService (js "abcdef") validOps)
      (itemService.extractText (applyOps itemService (js "abcdef") validOps)) := by
  intro h
  have hkeeps := (h [.insert 5 (js "X") none] [.insert 5 (js "X") none] [] rfl rfl).unchanged
  exact absurd hkeeps (by decide)

end Meridian
