import Meridian.EditOrder
import Meridian.Lib.Overwrites

/-! Surrogate pairs that a call divides. The offsets of an operation count code units, and a
character outside the basic plane is two of them; where a call divides an item of a `Y.Text`
between the two, Yjs puts U+FFFD in the place of both. So operations do to a text what their edits
do, except that a divided half reads as U+FFFD as long as it is not deleted. -/
namespace Meridian

open Splice

/-- The offsets at which an operation divides the text. -/
def AiOp.ends : AiOp → List ℕ
  | .insert position _ _ => [position.toNat]
  | .delete range | .format range _ =>
    [range.start.toNat, range.start.toNat + (range.stop - range.start).toNat]

section Calls

variable {Doc : Type*} (service : YjsService Doc) (divided : Doc → AiOp → ℕ → Bool)

def YjsService.dividedText (doc : Doc) (op : AiOp) : JsString :=
  overwrite replacementCharacter (divided doc op) (service.extractText doc)

/-- The document of a `Y.Text`. A call clips what lies outside the text, and a format leaves the
characters alone, but pads a text that ends inside its range. `divided` tells where an operation
divides a pair off; this depends on the items, which the text does not show, but it happens
only right beside an end of the operation that is behind the first half of a pair. -/
structure YjsService.YText : Prop where
  insert : ∀ doc position text anchor,
    service.extractText (applyOp service doc (.insert position text anchor)) =
      insertAt (service.dividedText divided doc (.insert position text anchor)) position.toNat text
  delete : ∀ doc (range : TextRange), range.start < range.stop →
    service.extractText (applyOp service doc (.delete range)) =
      deleteAt (service.dividedText divided doc (.delete range)) range.start.toNat
        (range.stop - range.start).toNat
  format : ∀ doc (range : TextRange) attributes, range.start < range.stop → ∃ padding,
    service.extractText (applyOp service doc (.format range attributes)) =
      service.dividedText divided doc (.format range attributes) ++ padding ∧
    (padding ≠ [] → range.start.toNat ≤ (service.extractText doc).length ∧
      (service.extractText doc).length <
        range.start.toNat + (range.stop - range.start).toNat)
  ends : ∀ doc op i, divided doc op i = true →
    ∃ p ∈ op.ends, dividesPair (service.extractText doc) p = true ∧ (i + 1 = p ∨ i = p)

def passesFrom (edit : Doc → AiOp → Option (Edit CodeUnit)) : Doc → List AiOp →
    List (Pass CodeUnit)
  | _, [] => []
  | doc, op :: ops =>
    ⟨divided doc op, (edit doc op).toList⟩ :: passesFrom edit (applyOp service doc op) ops

def appliedPasses (doc : Doc) (ops : List AiOp) : List (Pass CodeUnit) :=
  passesFrom service divided (fun _ => toEdit) doc (orderOpsForApplication ops)

/-- No operation addresses an offset between the halves of a pair, in the text that it finds. -/
def DividesNone : Doc → List AiOp → Prop
  | _, [] => True
  | doc, op :: ops => (∀ p ∈ op.ends, dividesPair (service.extractText doc) p = false) ∧
      DividesNone (applyOp service doc op) ops

instance DividesNone.decidable : ∀ doc ops, Decidable (DividesNone service doc ops)
  | _, [] => isTrue trivial
  | doc, op :: ops =>
    haveI := DividesNone.decidable (applyOp service doc op) ops
    inferInstanceAs (Decidable (_ ∧ _))

/-- Every half of a pair that was divided off is deleted later; a U+FFFD may stay. -/
def HalvesGone (doc : Doc) (ops : List AiOp) : Prop :=
  ∀ o ∈ origins (service.extractText doc).length (plainEdits ops),
    o ∈ overwritten 0 (appliedPasses service divided doc ops)
      (originalText (service.extractText doc).length) →
    look (service.extractText doc) (plainEdits ops) o = some replacementCharacter

end Calls

variable {Doc : Type*} {service : YjsService Doc} {divided : Doc → AiOp → ℕ → Bool}

theorem YjsService.dividedText_of_none (doc : Doc) (op : AiOp) :
    service.dividedText (fun _ _ _ => false) doc op = service.extractText doc :=
  overwrite_eq_self fun _ _ => rfl

/-- A text whose items are never divided inside a pair. -/
theorem YjsService.PlainText.yText (h : service.PlainText) :
    service.YText fun _ _ _ => false where
  insert doc position text anchor := by
    rw [dividedText_of_none]
    exact h.insertText doc position text
  delete doc range hrange := by
    rw [dividedText_of_none]
    exact h.deleteText doc range.start _ (by omega)
  format doc range attributes _ := by
    rw [dividedText_of_none]
    exact ⟨[], by rw [List.append_nil]; exact h.formatText doc _ _ attributes, by simp⟩
  ends doc op i hi := by cases hi

theorem passEdits_passesFrom (doc : Doc) (ops : List AiOp) :
    passEdits (passesFrom service divided (fun _ => toEdit) doc ops) = ops.filterMap toEdit := by
  induction ops generalizing doc with
  | nil => rfl
  | cons op ops ih =>
    have hcons : passEdits (passesFrom service divided (fun _ => toEdit) doc (op :: ops)) =
        (toEdit op).toList ++
          passEdits (passesFrom service divided (fun _ => toEdit) (applyOp service doc op) ops) :=
      List.flatMap_cons
    rw [hcons, ih, List.filterMap_cons]
    cases toEdit op <;> rfl

theorem passEdits_appliedPasses (doc : Doc) (ops : List AiOp) :
    passEdits (appliedPasses service divided doc ops) = plainEdits ops :=
  passEdits_passesFrom doc _

theorem overwritten_of_dividesNone (hcalls : service.YText divided)
    {edit : Doc → AiOp → Option (Edit CodeUnit)} {doc : Doc} {ops : List AiOp}
    (h : DividesNone service doc ops) (k : ℕ) (t : List Origin) :
    overwritten k (passesFrom service divided edit doc ops) t = [] := by
  induction ops generalizing doc k t with
  | nil => rfl
  | cons op ops ih =>
    rw [passesFrom, overwritten, ih h.2, List.append_nil, List.eq_nil_iff_forall_not_mem]
    intro o ho
    obtain ⟨i, hi, -⟩ := mem_markedOf.mp ho
    obtain ⟨p, hp, hdivides, -⟩ := hcalls.ends doc op i hi
    rw [h.1 p hp] at hdivides
    cases hdivides

theorem HalvesGone.of_dividesNone (hcalls : service.YText divided) {doc : Doc} {ops : List AiOp}
    (h : DividesNone service doc (orderOpsForApplication ops)) :
    HalvesGone service divided doc ops := by
  intro o _ ho
  rw [appliedPasses, overwritten_of_dividesNone hcalls h] at ho
  cases ho

/-- The edits of a list read as the text of some passes exactly if no divided half is left. -/
theorem origins_look_iff_halvesGone (doc : Doc) (ops : List AiOp) :
    (origins (service.extractText doc).length (plainEdits ops)).map
        (look (service.extractText doc) (plainEdits ops)) =
      (runPasses replacementCharacter (appliedPasses service divided doc ops)
        (service.extractText doc)).map some ↔ HalvesGone service divided doc ops := by
  have h := origins_look_iff replacementCharacter (service.extractText doc)
    (appliedPasses service divided doc ops)
  rwa [passEdits_appliedPasses] at h

theorem extractText_foldl_of_edits {edit : Doc → AiOp → Option (Edit CodeUnit)} {ops : List AiOp}
    (h : ∀ op ∈ ops, ∀ doc, service.extractText (applyOp service doc op) =
      run (edit doc op).toList (service.dividedText divided doc op)) (doc : Doc) :
    service.extractText (ops.foldl (applyOp service) doc) =
      runPasses replacementCharacter (passesFrom service divided edit doc ops)
        (service.extractText doc) := by
  induction ops generalizing doc with
  | nil => rfl
  | cons op ops ih =>
    obtain ⟨hop, hops⟩ := List.forall_mem_cons.mp h
    rw [List.foldl_cons, ih hops, hop doc]
    rfl

section Padding

theorem overwrite_append {α : Type*} (x : α) (marked : ℕ → Bool) (l l' : List α) :
    overwrite x marked (l ++ l') =
      overwrite x marked l ++ overwrite x (fun i => marked (l.length + i)) l' := by
  simp [overwrite, List.mapIdx_append, Nat.add_comm]

theorem insertAt_append {α : Type*} {l l' : List α} {p : ℕ} (h : l' ≠ [] → p ≤ l.length)
    (text : List α) : insertAt (l ++ l') p text = insertAt l p text ++ l' := by
  by_cases hl : l' = []
  · simp [hl]
  · simp [insertAt, List.take_append_of_le_length (h hl), List.drop_append_of_le_length (h hl)]

theorem deleteAt_append {α : Type*} {l l' : List α} {s : ℕ} (h : l' ≠ [] → s ≤ l.length) (n : ℕ) :
    deleteAt (l ++ l') s n = deleteAt l s n ++ l'.drop (s + n - l.length) := by
  by_cases hl : l' = []
  · simp [hl]
  · simp [deleteAt, List.take_append_of_le_length (h hl), List.drop_append]

/-- What stands behind the text stays there under an operation in the text, and is still behind
every place that the operation does not stand in front of. -/
theorem extractText_applyOp_padded (hcalls : service.YText divided) {op : AiOp}
    (hrange : ∀ range ∈ op.range?, range.start < range.stop) {doc : Doc} {text padding : JsString}
    (htext : service.extractText doc = text ++ padding)
    (hfront : padding ≠ [] → op.position.toNat ≤ text.length) :
    ∃ padding', service.extractText (applyOp service doc op) =
        run (toEdit op).toList (overwrite replacementCharacter (divided doc op) text) ++ padding' ∧
      (padding' ≠ [] → padding ≠ [] ∨ ∃ range attributes, op = .format range attributes) ∧
      ∀ p : ℤ, (padding ≠ [] → p.toNat ≤ text.length) →
        (op.isInsert = false → p ≤ op.position) → padding' ≠ [] →
          p.toNat ≤ (run (toEdit op).toList
            (overwrite replacementCharacter (divided doc op) text)).length := by
  have hdivided : service.dividedText divided doc op =
      overwrite replacementCharacter (divided doc op) text ++
        overwrite replacementCharacter (fun i => divided doc op (text.length + i)) padding := by
    rw [YjsService.dividedText, htext, overwrite_append]
  generalize hpad : overwrite replacementCharacter
    (fun i => divided doc op (text.length + i)) padding = pad at hdivided
  have hlength : pad.length = padding.length := by rw [← hpad, length_overwrite]
  have hne : pad ≠ [] ↔ padding ≠ [] := by
    rw [← List.length_pos_iff, ← List.length_pos_iff, hlength]
  have hop : pad ≠ [] → op.position.toNat ≤ text.length := fun hp => hfront (hne.mp hp)
  cases op with
  | insert position inserted anchor =>
    have hnext := hcalls.insert doc position inserted anchor
    rw [hdivided, insertAt_append (by simpa [AiOp.position] using hop)] at hnext
    refine ⟨pad, hnext, fun hp => .inl (hne.mp hp), fun p hlater _ hp => ?_⟩
    have := hlater (hne.mp hp)
    simp only [toEdit, Option.toList, run_cons, run_nil, Edit.apply, length_insertAt,
      length_overwrite]
    omega
  | delete range =>
    have hnext := hcalls.delete doc range (hrange range rfl)
    rw [hdivided, deleteAt_append (by simpa [AiOp.position] using hop)] at hnext
    have hkept : ∀ {n}, pad.drop n ≠ [] → pad ≠ [] := by
      rintro n hdrop rfl
      exact hdrop List.drop_nil
    refine ⟨_, hnext, fun hp => .inl (hne.mp (hkept hp)), fun p _ hdown hp => ?_⟩
    have hle := hdown rfl
    have := hop (hkept hp)
    simp only [toEdit, Option.toList, run_cons, run_nil, Edit.apply, AiOp.position,
      length_deleteAt, length_overwrite] at *
    omega
  | format range attributes =>
    obtain ⟨more, hnext, hbehind⟩ := hcalls.format doc range attributes (hrange range rfl)
    rw [hdivided, List.append_assoc] at hnext
    refine ⟨pad ++ more, hnext, fun _ => .inr ⟨range, attributes, rfl⟩, fun p hlater hdown hp => ?_⟩
    simp only [toEdit, Option.toList, run_nil, length_overwrite]
    by_cases hnil : pad = []
    · have hempty : padding = [] := not_ne_iff.mp fun h => hne.mpr h hnil
      have hinside := (hbehind (by simpa [hnil] using hp)).1
      have hle := hdown rfl
      rw [htext, hempty, List.append_nil] at hinside
      simp only [AiOp.position] at hle
      omega
    · exact hlater (hne.mp hnil)

/-- What a format has put behind the text stays behind it, since nothing that comes later is
applied there. -/
theorem extractText_foldl_padded (hcalls : service.YText divided) {ops : List AiOp}
    (hranges : ∀ op ∈ ops, ∀ range ∈ op.range?, range.start < range.stop)
    (horder : ops.Pairwise appliesBefore ∨ ∀ op ∈ ops, op.isInsert = true) {doc : Doc}
    {text padding : JsString} (htext : service.extractText doc = text ++ padding)
    (hfront : padding ≠ [] → ∀ op ∈ ops, op.position.toNat ≤ text.length) :
    ∃ padding', service.extractText (ops.foldl (applyOp service) doc) =
        runPasses replacementCharacter (passesFrom service divided (fun _ => toEdit) doc ops)
          text ++ padding' ∧
      (padding' ≠ [] → padding ≠ [] ∨ ∃ range attributes, .format range attributes ∈ ops) := by
  induction ops generalizing doc text padding with
  | nil => exact ⟨padding, htext, .inl⟩
  | cons op ops ih =>
    obtain ⟨hrange, hrest⟩ := List.forall_mem_cons.mp hranges
    have horder' : ops.Pairwise appliesBefore ∨ ∀ op ∈ ops, op.isInsert = true :=
      horder.imp List.Pairwise.of_cons fun h => (List.forall_mem_cons.mp h).2
    have hdown : op.isInsert = false → ∀ b ∈ ops, b.position ≤ op.position := by
      intro hkind b hb
      rcases horder with h | h
      · exact (List.rel_of_pairwise_cons h hb).elim le_of_lt fun heq => heq.1.le
      · rw [h op List.mem_cons_self] at hkind
        cases hkind
    obtain ⟨pad, hnext, hbrought, hroom⟩ := extractText_applyOp_padded hcalls hrange htext
      fun hp => hfront hp op List.mem_cons_self
    obtain ⟨padding', hresult, hsource⟩ := ih hrest horder' hnext fun hp b hb =>
      hroom b.position (fun hne => hfront hne b (List.mem_cons_of_mem _ hb))
        (fun hkind => hdown hkind b hb) hp
    refine ⟨padding', hresult, fun hp => ?_⟩
    rcases hsource hp with hbehind | ⟨range, attributes, hmem⟩
    · refine (hbrought hbehind).imp id ?_
      rintro ⟨range, attributes, rfl⟩
      exact ⟨range, attributes, List.mem_cons_self⟩
    · exact .inr ⟨range, attributes, List.mem_cons_of_mem _ hmem⟩

/-- The operations are edits of a plain text, but for divided pairs and for what a format puts
behind the text. -/
theorem extractText_applyOps_padded (hcalls : service.YText divided) (doc : Doc) {ops : List AiOp}
    (hranges : ∀ op ∈ ops, ∀ range ∈ op.range?, range.start < range.stop) :
    ∃ padding, service.extractText (applyOps service doc ops) =
        runPasses replacementCharacter (appliedPasses service divided doc ops)
          (service.extractText doc) ++ padding ∧
      (padding ≠ [] → ∃ range attributes, .format range attributes ∈ ops) := by
  have hmem : ∀ op, op ∈ orderOpsForApplication ops ↔ op ∈ ops :=
    fun op => (perm_orderOpsForApplication ops).mem_iff
  have horder : (orderOpsForApplication ops).Pairwise appliesBefore ∨
      ∀ op ∈ orderOpsForApplication ops, op.isInsert = true := by
    cases hrange : hasRangeEdit ops with
    | true => exact .inl (pairwise_orderOpsForApplication hrange)
    | false =>
      refine .inr fun op hop => ?_
      have hkind : ∀ op ∈ ops, op.isInsert = true := by simpa [hasRangeEdit] using hrange
      exact hkind op ((hmem op).mp hop)
  obtain ⟨padding, hafter, hsource⟩ := extractText_foldl_padded hcalls
    (fun op hop => hranges op ((hmem op).mp hop)) horder (List.append_nil _).symm
    (fun h => absurd rfl h)
  refine ⟨padding, hafter, fun hne => ?_⟩
  obtain ⟨range, attributes, hformat⟩ := (hsource hne).resolve_left (by simp)
  exact ⟨range, attributes, (hmem _).mp hformat⟩

theorem reads_padded_iff {doc : Doc} {ops : List AiOp} {after : JsString} {P : Prop}
    (h : ∃ padding, after = runPasses replacementCharacter (appliedPasses service divided doc ops)
      (service.extractText doc) ++ padding ∧ (padding ≠ [] → P)) :
    (∃ padding : JsString, (origins (service.extractText doc).length (plainEdits ops)).map
        (look (service.extractText doc) (plainEdits ops)) ++ padding.map some = after.map some ∧
          (padding ≠ [] → P)) ↔ HalvesGone service divided doc ops := by
  rw [← origins_look_iff_halvesGone]
  obtain ⟨padding, rfl, hsource⟩ := h
  constructor
  · rintro ⟨padding', hreads, -⟩
    rw [List.map_append] at hreads
    refine (List.append_inj hreads ?_).1
    rw [List.length_map, List.length_map, length_runPasses, passEdits_appliedPasses]
  · intro hreads
    exact ⟨padding, by rw [hreads, List.map_append], hsource⟩

end Padding

section OneItem

def itemHalves (text : JsString) (p i : ℕ) : Bool :=
  dividesPair text p && decide (i + 1 = p ∨ i = p)

def divideItem (p : ℕ) (text : JsString) : JsString :=
  overwrite replacementCharacter (itemHalves text p) text

/-- A `Y.Text` that holds its text as one item. -/
def itemService : YjsService JsString where
  extractText text := text
  insertText text position inserted :=
    insertAt (divideItem position.toNat text) position.toNat inserted
  deleteText text start length :=
    deleteAt (divideItem (start.toNat + length.toNat) (divideItem start.toNat text)) start.toNat
      length.toNat
  formatText text start length _ :=
    if text.length ≤ start.toNat then text
    else divideItem (start.toNat + length.toNat) (divideItem start.toNat text) ++
      List.replicate (start.toNat + length.toNat - text.length) 0x0a

def itemDivided (text : JsString) : AiOp → ℕ → Bool
  | .insert position _ _, i => itemHalves text position.toNat i
  | .delete range, i | .format range _, i =>
    itemHalves text range.start.toNat i ||
      itemHalves (divideItem range.start.toNat text)
        (range.start.toNat + (range.stop - range.start).toNat) i

@[simp] theorem length_divideItem (p : ℕ) (text : JsString) :
    (divideItem p text).length = text.length := length_overwrite _ _ _

theorem itemHalves_spec {text : JsString} {p i : ℕ} (h : itemHalves text p i = true) :
    dividesPair text p = true ∧ (i + 1 = p ∨ i = p) := by
  simpa [itemHalves] using h

/-- Once a pair is divided, its first half is none any more. -/
theorem dividesPair_divideItem {text : JsString} {p q : ℕ}
    (h : dividesPair (divideItem p text) q = true) : dividesPair text q = true := by
  simp only [dividesPair, length_divideItem, Bool.and_eq_true] at h ⊢
  refine ⟨h.1, ?_⟩
  obtain ⟨c, hc, hhigh⟩ := (Option.any_eq_true _ _).mp h.2
  rw [divideItem, getElem?_overwrite, Option.map_eq_some_iff] at hc
  obtain ⟨c', hc', rfl⟩ := hc
  rw [hc', Option.any_some]
  split at hhigh
  · cases hhigh
  · exact hhigh

theorem divideItem_divideItem (p q : ℕ) (text : JsString) :
    divideItem q (divideItem p text) = overwrite replacementCharacter
      (fun i => itemHalves text p i || itemHalves (divideItem p text) q i) text :=
  overwrite_overwrite _ _ _ _

theorem divideItem_of_length_le {text : JsString} {p : ℕ} (h : text.length ≤ p) :
    divideItem p text = text := by
  refine overwrite_eq_self fun i _ => ?_
  simp [itemHalves, dividesPair, Nat.not_lt.mpr h]

theorem itemService_yText : itemService.YText itemDivided where
  insert text position inserted anchor := rfl
  delete text range _ := congrArg (fun l => deleteAt l _ _) (divideItem_divideItem _ _ text)
  format text range attributes _ := by
    have hdivided : itemService.dividedText itemDivided text (.format range attributes) =
        divideItem (range.start.toNat + (range.stop - range.start).toNat)
          (divideItem range.start.toNat text) :=
      (divideItem_divideItem _ _ text).symm
    rw [hdivided]
    change ∃ padding, (if text.length ≤ range.start.toNat then text else _) = _ ∧
      (_ → range.start.toNat ≤ text.length ∧ text.length < _)
    split
    next hle =>
      refine ⟨[], ?_, by simp⟩
      rw [divideItem_of_length_le hle, divideItem_of_length_le (by omega), List.append_nil]
    next hlt =>
      refine ⟨_, rfl, fun hne => ?_⟩
      rw [ne_eq, List.replicate_eq_nil_iff] at hne
      omega
  ends text op i h := by
    have htwo : ∀ start stop, itemHalves text start i ||
        itemHalves (divideItem start text) stop i → ∃ p ∈ [start, stop],
          dividesPair text p = true ∧ (i + 1 = p ∨ i = p) := by
      intro start stop h
      rcases Bool.or_eq_true_iff.mp h with h | h
      · exact ⟨start, by simp, itemHalves_spec h⟩
      · obtain ⟨hdivides, hbeside⟩ := itemHalves_spec h
        exact ⟨stop, by simp, dividesPair_divideItem hdivides, hbeside⟩
    cases op with
    | insert position inserted anchor =>
      exact ⟨position.toNat, List.mem_singleton_self _, itemHalves_spec h⟩
    | delete range => exact htwo _ _ h
    | format range attributes => exact htwo _ _ h

end OneItem

end Meridian
