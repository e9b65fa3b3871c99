import Meridian.DividedPairs
import Meridian.Lib.Layout

/-! Lists of inserts that are all found by their anchors. Such a list is applied in its own
order, although every position was found in the first text; so the texts end up at their
anchors exactly when the list already goes from the back of the text to its front and no
insert breaks a pair up. -/
namespace Meridian

open Splice

/-- The text after the edits reads as the first text with every inserted text at the position
that was found for it, between the characters on both sides of that position. -/
structure LaidOut (text : JsString) (ops : List AiOp) (after : JsString) : Prop where
  reads : (origins text.length (plainEdits ops)).map (look text (plainEdits ops)) =
    after.map some
  layout : origins text.length (plainEdits ops) = layout text.length (plainEdits ops)
  beside : ∀ k position inserted, (plainEdits ops)[k]? = some (.insert position inserted) →
    (if 0 < position then [.original (position - 1)] else []) ++ insertedText k inserted.length ++
      (if position < text.length then [.original position] else []) <:+:
        origins text.length (plainEdits ops)

def AllAnchored (ops : List AiOp) : Prop :=
  ∀ op ∈ ops, ∃ position text anchor, op = .insert position text (some anchor)

def anchoredInsert (x : ℕ × JsString × Anchor) : AiOp := .insert x.1 x.2.1 (some x.2.2)

theorem valid_of_allAnchored {fuzzyThreshold : ℚ} {currentText : JsString}
    {ops validOps : List AiOp} {rejectedOps : List RejectedOp} (hanchored : AllAnchored ops)
    (h : (checkContentExistence fuzzyThreshold ops currentText).outcome? =
      some (validOps, rejectedOps)) : ∃ placed, validOps = List.map anchoredInsert placed := by
  have hmem : ∀ op ∈ validOps, op ∈ Set.range anchoredInsert := by
    intro op' hop'
    obtain ⟨op, hop, hres⟩ := (checkContentExistence_accounted h).source op' hop'
    obtain ⟨position, text, anchor, rfl⟩ := hanchored op hop
    obtain ⟨m, -, rfl⟩ := hres.anchored position text anchor rfl
    exact ⟨(_, text, anchor), rfl⟩
  obtain ⟨placed, rfl⟩ := (Set.range_list_map anchoredInsert).ge hmem
  exact ⟨placed, rfl⟩

theorem plainEdits_anchored (placed : List (ℕ × JsString × Anchor)) :
    plainEdits (placed.map anchoredInsert) = placed.map fun x => .insert x.1 x.2.1 := by
  have hrange : hasRangeEdit (placed.map anchoredInsert) = false := by
    simp [hasRangeEdit, anchoredInsert, AiOp.isInsert]
  rw [plainEdits, orderOpsForApplication, if_neg (by simp [hrange]), List.filterMap_map,
    ← List.filterMap_eq_map]
  rfl

variable {Doc : Type*} {service : YjsService Doc} {divided : Doc → AiOp → ℕ → Bool}

/-- Inserts found by their anchors at positions that differ end up there exactly when their
positions go down along the list and lie in the document, and no half of a divided pair is left. -/
theorem applyOps_laidOut_iff (hcalls : service.YText divided) (fuzzyThreshold : ℚ)
    (maxDocChars : ℕ) (doc : Doc) {json : Json} {ops validOps : List AiOp}
    (hops : validateOperations json = .ok ops) (hanchored : AllAnchored ops)
    (hcheck : checkContentExistence fuzzyThreshold ops
      (truncateText maxDocChars (service.extractText doc)) = .allExact validOps)
    (hdistinct : validOps.Pairwise fun a b => a.position ≠ b.position) :
    LaidOut (service.extractText doc) validOps
        (service.extractText (applyOps service doc validOps)) ↔
      validOps.Pairwise (fun a b => b.position < a.position) ∧
        (∀ op ∈ validOps, op.position ≤ (service.extractText doc).length) ∧
        HalvesGone service divided doc validOps := by
  have houtcome := congrArg ContentCheckResult.outcome? hcheck
  have hranges : ∀ op ∈ validOps, ∀ range ∈ op.range?, range.start < range.stop :=
    fun op hop range hrange => ((checkContentExistence_valid hops houtcome op hop).1 range hrange).1
  have htexts := ne_nil_of_check hops houtcome
  obtain ⟨placed, rfl⟩ := valid_of_allAnchored hanchored houtcome
  obtain ⟨padding, hafter, hpadding⟩ := extractText_applyOps_padded hcalls doc hranges
  obtain rfl : padding = [] := by
    refine not_ne_iff.mp fun hne => ?_
    obtain ⟨range, attributes, hformat⟩ := hpadding hne
    obtain ⟨x, -, hx⟩ := List.mem_map.mp hformat
    cases hx
  rw [List.append_nil] at hafter
  rw [← origins_look_iff_halvesGone, ← hafter]
  generalize service.extractText (applyOps service doc _) = after
  generalize service.extractText doc = text at *
  have hne : ∀ position inserted,
      .insert position inserted ∈ plainEdits (placed.map anchoredInsert) → 0 < inserted.length :=
    fun position inserted hmem => List.length_pos_iff.mpr (htexts position inserted hmem)
  have hkind : ∀ e ∈ plainEdits (placed.map anchoredInsert), e.isInsert = true :=
    fun e he => isInsert_of_mem_plainEdits (List.forall_mem_map.mpr fun x _ => rfl) he
  have hapart : (plainEdits (placed.map anchoredInsert)).Pairwise
      fun a b => a.position ≠ b.position := by
    rw [plainEdits_anchored]
    simpa [List.pairwise_map, anchoredInsert, AiOp.position, Edit.position] using hdistinct
  have hdown : (placed.map anchoredInsert).Pairwise (fun a b => b.position < a.position) ∧
      (∀ op ∈ placed.map anchoredInsert, op.position ≤ text.length) ↔
      (plainEdits (placed.map anchoredInsert)).Pairwise (fun a b => b.position < a.position) ∧
        ∀ e ∈ plainEdits (placed.map anchoredInsert), e.position ≤ text.length := by
    rw [plainEdits_anchored, List.pairwise_map, List.pairwise_map, List.forall_mem_map,
      List.forall_mem_map]
    simp only [anchoredInsert, AiOp.position, Edit.position, Nat.cast_lt, Nat.cast_le]
  rw [← and_assoc, hdown, ← origins_eq_layout_iff hne hkind hapart]
  refine ⟨fun h => ⟨h.layout, h.reads⟩, ?_⟩
  rintro ⟨h, hreads⟩
  refine ⟨hreads, h, fun k position inserted hk => ?_⟩
  have hle := ((origins_eq_layout_iff hne hkind hapart).mp h).2 _ (List.mem_of_getElem? hk)
  rw [h]
  exact beside_of_layout hapart hk hle

def insertsBackwards : Json :=
  .arr [.obj [(js "type", .str (js "insert")), (js "position", .num 2), (js "text", .str (js "Y")),
      (js "anchor_text", .str (js "b"))],
    .obj [(js "type", .str (js "insert")), (js "position", .num 1), (js "text", .str (js "X")),
      (js "anchor_text", .str (js "a"))]]

theorem applyOps_insertsBackwards :
    LaidOut (js "ab") [.insert 2 (js "Y") (some ⟨js "b", .after⟩),
      .insert 1 (js "X") (some ⟨js "a", .after⟩)] (js "aXbY") :=
  (applyOps_laidOut_iff itemService_yText (7 / 10) 60000 (js "ab")
    (show validateOperations insertsBackwards = _ from rfl)
    (by simp [AllAnchored]) rfl (by decide)).mpr
      ⟨by decide, by decide, HalvesGone.of_dividesNone itemService_yText (by decide)⟩

def insertsForwards : Json :=
  .arr [.obj [(js "type", .str (js "insert")), (js "position", .num 1), (js "text", .str (js "X")),
      (js "anchor_text", .str (js "a"))],
    .obj [(js "type", .str (js "insert")), (js "position", .num 2), (js "text", .str (js "Y")),
      (js "anchor_text", .str (js "b"))]]

theorem applyOps_insertsForwards : ¬ ∀ ops validOps, validateOperations insertsForwards = .ok ops →
    AllAnchored ops →
    checkContentExistence (7 / 10) ops (truncateText 60000 (js "ab")) = .allExact validOps →
    (validOps.Pairwise fun a b => a.position ≠ b.position) →
    LaidOut (js "ab") validOps
      (itemService.extractText (applyOps itemService (js "ab") validOps)) := by
  intro h
  have hlaid := h
    [.insert 1 (js "X") (some ⟨js "a", .after⟩), .insert 2 (js "Y") (some ⟨js "b", .after⟩)]
    [.insert 1 (js "X") (some ⟨js "a", .after⟩), .insert 2 (js "Y") (some ⟨js "b", .after⟩)]
    rfl (by simp [AllAnchored]) rfl (by decide)
  exact absurd hlaid.layout (by decide)

end Meridian
