import Meridian.DividedPairs
import Meridian.Lib.BackToFront

/-! What a list of checked operations keeps of a plain text. The edits keep everything that no
delete names exactly when the deletes leave room for it and no half of a divided pair is left. -/
namespace Meridian

open Splice

/-- A place that a delete names, its ends read as `slice` reads them. -/
def namedBy (currentText : JsString) (ops : List AiOp) (i : ℕ) : Bool :=
  ops.any fun
    | .delete range => sliceIndex currentText.length range.start ≤ i ∧
        i < sliceIndex currentText.length range.stop
    | _ => false

/-- The text after the edits reads what the edits leave of the first text and insert, which
is everything that no delete names and every inserted text whole; a format may have put something
behind it. -/
structure KeepsRest (text currentText : JsString) (ops : List AiOp) (after : JsString) : Prop where
  reads : ∃ padding : JsString, (origins text.length (plainEdits ops)).map
      (look text (plainEdits ops)) ++ padding.map some = after.map some ∧
    (padding ≠ [] → ∃ range attributes, .format range attributes ∈ ops)
  keeps : Keeps (namedBy currentText ops) text.length (plainEdits ops)

theorem namedBy_inserts {currentText : JsString} {ops : List AiOp}
    (h : ∀ op ∈ ops, op.isInsert = true) : namedBy currentText ops = fun _ => false := by
  funext i
  refine List.any_eq_false.mpr fun op hop => ?_
  have hkind := h op hop
  cases op with
  | insert position text anchor => simp
  | delete range => cases hkind
  | format range attributes => cases hkind

theorem backToFront_plainEdits {ops : List AiOp} {n : ℕ} (hrange : hasRangeEdit ops = true)
    (hn : 0 < n) : BackToFront n (plainEdits ops) := by
  have hsorted := pairwise_orderOpsForApplication hrange
  refine List.Pairwise.filterMap toEdit (fun a b hab e he e' he' => ?_) hsorted
  cases a <;> cases b <;> cases he <;> cases he' <;>
    simp_all [appliesBefore, AiOp.position, AiOp.isInsert, Edit.position, Edit.isInsert] <;> omega

variable {Doc : Type*} {service : YjsService Doc} {divided : Doc → AiOp → ℕ → Bool}

/-- After a list that passes the content check, a plain text keeps what it should exactly
when the inserts alone are apart, the deletes leave room for what stays, and no half of a
divided pair is left. -/
theorem applyOps_keepsRest_iff (hcalls : service.YText divided) (fuzzyThreshold : ℚ)
    (maxDocChars : ℕ) (doc : Doc) {json : Json} {ops validOps : List AiOp}
    (hops : validateOperations json = .ok ops)
    (hcheck : checkContentExistence fuzzyThreshold ops
      (truncateText maxDocChars (service.extractText doc)) = .allExact validOps) :
    KeepsRest (service.extractText doc) (truncateText maxDocChars (service.extractText doc))
        validOps (service.extractText (applyOps service doc validOps)) ↔
      Apart (service.extractText doc).length (plainEdits validOps) ∧
        Spared (namedBy (truncateText maxDocChars (service.extractText doc)) validOps)
          (service.extractText doc).length (plainEdits validOps) ∧
        HalvesGone service divided doc validOps := by
  have houtcome := congrArg ContentCheckResult.outcome? hcheck
  have hvalid := checkContentExistence_valid hops houtcome
  have hreads := reads_padded_iff (extractText_applyOps_padded hcalls doc fun op hop range hrange =>
    ((hvalid op hop).1 range hrange).1)
  have hne := ne_nil_of_check hops houtcome
  have hkeeps : KeepsRest (service.extractText doc)
      (truncateText maxDocChars (service.extractText doc)) validOps
        (service.extractText (applyOps service doc validOps)) ↔
      Keeps (namedBy (truncateText maxDocChars (service.extractText doc)) validOps)
        (service.extractText doc).length (plainEdits validOps) ∧
          HalvesGone service divided doc validOps :=
    ⟨fun h => ⟨h.keeps, hreads.mp h.reads⟩, fun h => ⟨hreads.mpr h.2, h.1⟩⟩
  rw [hkeeps, keeps_iff_safe hne, ← and_assoc]
  refine and_congr_left' ?_
  generalize service.extractText doc = text at hvalid hne ⊢
  cases hrange : hasRangeEdit validOps with
  | true =>
    refine safe_iff_spared (backToFront_plainEdits hrange ?_)
      fun position text hmem => List.length_pos_iff.mpr (hne position text hmem)
    obtain ⟨op, hop, hkind⟩ := List.any_eq_true.mp hrange
    obtain ⟨range, hr⟩ : ∃ range, op.range? = some range := by
      cases op <;> simp_all [AiOp.isInsert, AiOp.range?]
    refine List.length_pos_iff.mpr fun hnil => ((hvalid op hop).1 range hr).2 ?_
    rw [hnil]
    rfl
  | false =>
    have hkind : ∀ op ∈ validOps, op.isInsert = true := by
      simpa [hasRangeEdit] using hrange
    have hinserts : ∀ e ∈ plainEdits validOps, e.isInsert = true :=
      fun e he => isInsert_of_mem_plainEdits hkind he
    rw [namedBy_inserts hkind, safe_iff_apart hinserts]
    exact (and_iff_left (spared_of_inserts hinserts)).symm

def replacement : Json :=
  .arr [.obj [(js "type", .str (js "insert")), (js "position", .num 1), (js "text", .str (js "X"))],
    .obj [(js "type", .str (js "delete")), (js "start", .num 1), (js "end", .num 3),
      (js "expected_text", .str (js "bc"))]]

theorem applyOps_replacement :
    KeepsRest (js "abcdef") (js "abcdef") [.insert 1 (js "X") none, .delete ⟨1, 3, js "bc"⟩]
      (js "aXdef") := by
  have hcheck : checkContentExistence (7 / 10) [.insert 1 (js "X") none, .delete ⟨1, 3, js "bc"⟩]
      (js "abcdef") = .allExact [.insert 1 (js "X") none, .delete ⟨1, 3, js "bc"⟩] := rfl
  have hedits : plainEdits [.insert 1 (js "X") none, .delete ⟨1, 3, js "bc"⟩] =
      [.delete 1 2, .insert 1 (js "X")] := by decide
  have hnamed : ∀ i, namedBy (js "abcdef") [.insert 1 (js "X") none, .delete ⟨1, 3, js "bc"⟩] i =
      (decide (1 ≤ i) && decide (i < 3)) := fun i => by simp [namedBy, sliceIndex, js]
  refine (applyOps_keepsRest_iff itemService_yText (7 / 10) 60000 (js "abcdef")
    (show validateOperations replacement = _ from rfl) hcheck).mpr
      ⟨by decide, ?_, HalvesGone.of_dividesNone itemService_yText (by decide)⟩
  change Spared (namedBy (js "abcdef") [.insert 1 (js "X") none, .delete ⟨1, 3, js "bc"⟩]) 6 _
  rw [hedits]
  constructor
  · intro s m hdelete _ hstart
    obtain ⟨rfl, rfl⟩ : s = 1 ∧ m = 2 := by simpa using hdelete
    rcases hstart with hfree | ⟨text, hpair⟩
    · cases (hnamed 1).symm.trans hfree
    · cases hpair with
      | cons _ h => exact absurd h.length_le (by simp)
  · intro s m hdelete q hq hobstacle
    obtain ⟨rfl, rfl⟩ : s = 1 ∧ m = 2 := by simpa using hdelete
    have hpast : 3 ≤ q := by
      rcases hobstacle with ⟨-, hfree⟩ | ⟨position, text, hinsert, rfl⟩
      · have := (hnamed q).symm.trans hfree
        simp only [Bool.and_eq_false_iff, decide_eq_false_iff_not] at this
        omega
      · obtain ⟨rfl, -⟩ : position = 1 ∧ text = js "X" := by simpa using hinsert
        omega
    simp [load, Edit.deleted, hq]
    omega
  · intro s m hdelete hn
    obtain ⟨rfl, rfl⟩ : s = 1 ∧ m = 2 := by simpa using hdelete
    exact absurd hn (by decide)

def overlapping : Json :=
  .arr [.obj [(js "type", .str (js "delete")), (js "start", .num 0), (js "end", .num 3),
      (js "expected_text", .str (js "abc"))],
    .obj [(js "type", .str (js "delete")), (js "start", .num 2), (js "end", .num 5),
      (js "expected_text", .str (js "cde"))]]

theorem applyOps_overlapping : ¬ ∀ ops validOps, validateOperations overlapping = .ok ops →
    checkContentExistence (7 / 10) ops (truncateText 60000 (js "abcdef")) = .allExact validOps →
    KeepsRest (js "abcdef") (truncateText 60000 (js "abcdef")) validOps
      (itemService.extractText (applyOps itemService (js "abcdef") validOps)) := by
  intro h
  have hkeeps := (h [.delete ⟨0, 3, js "abc"⟩, .delete ⟨2, 5, js "cde"⟩]
    [.delete ⟨0, 3, js "abc"⟩, .delete ⟨2, 5, js "cde"⟩] rfl rfl).keeps.originals
  exact absurd (hkeeps.subset (a := .original 5) (by decide)) (by decide)

end Meridian
