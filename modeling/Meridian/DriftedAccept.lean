import Meridian.ProposalMachine

/-! Accepting a proposal whose document has changed. The content check of the accept path
keeps what it can still locate and drops the rest, so a proposal that was staged and shown
as a whole is applied in part exactly when the changes have taken away some of its places,
have left others, and nothing that was taken away is nearly there. -/
namespace Meridian

def Locatable (currentText : JsString) : AiOp → Prop
  | .insert _ _ none => True
  | .insert position _ (some anchor) => findNearestExactText currentText anchor.text position ≠ none
  | .delete range | .format range _ =>
    range.expectedText = slice currentText range.start range.stop ∨
      findNearestExactText currentText range.expectedText range.start ≠ none

instance (currentText : JsString) : ∀ op, Decidable (Locatable currentText op)
  | .insert _ _ none => inferInstanceAs (Decidable True)
  | .insert position _ (some anchor) =>
    inferInstanceAs (Decidable (findNearestExactText currentText anchor.text position ≠ none))
  | .delete range | .format range _ =>
    inferInstanceAs (Decidable (range.expectedText = slice currentText range.start range.stop ∨
      findNearestExactText currentText range.expectedText range.start ≠ none))

/-- The text of a range is not found, but what stands at its offsets is close to it. -/
def NearlyThere (fuzzyThreshold : ℚ) (currentText : JsString) (op : AiOp) : Prop :=
  ¬ Locatable currentText op ∧ ∃ range ∈ op.range?,
    fuzzyThreshold ≤ similarity range.expectedText (slice currentText range.start range.stop)

theorem SameEdit.refl (op : AiOp) : SameEdit op op :=
  match op with
  | .insert position _ _ => ⟨position, position, rfl⟩
  | .delete range | .format range _ => ⟨range.start, range.stop, rfl⟩

section Check

variable {fuzzyThreshold : ℚ} {currentText : JsString} {ranges : ℤ → Option ℤ} {op : AiOp}

theorem checkRange_unlocated {range : TextRange}
    (hexact : range.expectedText ≠ slice currentText range.start range.stop)
    (hfind : findNearestExactText currentText range.expectedText range.start = none) :
    (∃ expectedText actualText,
        checkRange fuzzyThreshold currentText ranges op range = .fuzzy expectedText actualText ∧
        fuzzyThreshold ≤
          similarity range.expectedText (slice currentText range.start range.stop)) ∨
      ∃ reason, checkRange fuzzyThreshold currentText ranges op range = .rejected reason ∧
        ¬ fuzzyThreshold ≤
          similarity range.expectedText (slice currentText range.start range.stop) := by
  unfold checkRange
  simp only [hexact, if_false, hfind]
  split
  · next hnear => exact .inl ⟨_, _, rfl, hnear⟩
  · next hfar => exact .inr ⟨_, rfl, hfar⟩

theorem checkRange_located {range : TextRange}
    (h : range.expectedText = slice currentText range.start range.stop ∨
      findNearestExactText currentText range.expectedText range.start ≠ none) :
    ∃ op' ranges', checkRange fuzzyThreshold currentText ranges op range = .valid op' ranges' := by
  unfold checkRange
  dsimp only
  split
  · exact ⟨_, _, rfl⟩
  · next hne =>
    obtain ⟨m, hm⟩ := Option.ne_none_iff_exists'.mp (h.resolve_left hne)
    rw [hm]
    exact ⟨_, _, rfl⟩

theorem checkOp_located (fuzzyThreshold : ℚ) (ranges : ℤ → Option ℤ)
    (h : Locatable currentText op) :
    ∃ op' ranges', checkOp fuzzyThreshold currentText ranges op = .valid op' ranges' := by
  match op, h with
  | .insert _ _ none, _ => exact ⟨_, _, rfl⟩
  | .insert position _ (some anchor), h =>
    obtain ⟨m, hm⟩ := Option.ne_none_iff_exists'.mp h
    simp only [checkOp, checkInsert, hm]
    exact ⟨_, _, rfl⟩
  | .delete range, h => exact checkRange_located h
  | .format range _, h => exact checkRange_located h

/-- What is not located stops the check if it is nearly there, and is rejected otherwise. -/
theorem checkOp_unlocated (fuzzyThreshold : ℚ) (ranges : ℤ → Option ℤ)
    (h : ¬ Locatable currentText op) :
    (∃ expectedText actualText,
        checkOp fuzzyThreshold currentText ranges op = .fuzzy expectedText actualText ∧
        NearlyThere fuzzyThreshold currentText op) ∨
      ∃ reason, checkOp fuzzyThreshold currentText ranges op = .rejected reason ∧
        ¬ NearlyThere fuzzyThreshold currentText op := by
  have hrange (range : TextRange) (hr : op.range? = some range)
      (hcheck : checkOp fuzzyThreshold currentText ranges op =
        checkRange fuzzyThreshold currentText ranges op range)
      (hnot : ¬ (range.expectedText = slice currentText range.start range.stop ∨
        findNearestExactText currentText range.expectedText range.start ≠ none)) :
      (∃ expectedText actualText,
        checkOp fuzzyThreshold currentText ranges op = .fuzzy expectedText actualText ∧
        NearlyThere fuzzyThreshold currentText op) ∨
      ∃ reason, checkOp fuzzyThreshold currentText ranges op = .rejected reason ∧
        ¬ NearlyThere fuzzyThreshold currentText op := by
    rw [not_or, not_not] at hnot
    rw [hcheck]
    rcases checkRange_unlocated hnot.1 hnot.2 with ⟨e, a, hfuzzy, hnear⟩ | ⟨r, hrejected, hfar⟩
    · exact .inl ⟨e, a, hfuzzy, h, range, hr, hnear⟩
    · refine .inr ⟨r, hrejected, ?_⟩
      rintro ⟨-, range', hr', hnear⟩
      obtain rfl := Option.some.inj (hr.symm.trans hr')
      exact hfar hnear
  match op, h, hrange with
  | .insert _ _ none, h, _ => exact (h trivial).elim
  | .insert position _ (some anchor), h, _ =>
    refine .inr ⟨js "Check 2 failed: insert anchor text not found (document may have changed)",
      ?_, ?_⟩
    · simp only [checkOp, checkInsert, not_not.mp h]
    · rintro ⟨-, range, hr, -⟩
      cases hr
  | .delete range, h, hrange => exact hrange range rfl rfl h
  | .format range _, h, hrange => exact hrange range rfl rfl h

end Check

section List

variable {fuzzyThreshold : ℚ} {currentText : JsString}

theorem checkLoop_outcome_none {i : ℕ} {ops valid : List AiOp} {rejected : List RejectedOp}
    {ranges : ℤ → Option ℤ} (h : ∃ op ∈ ops, NearlyThere fuzzyThreshold currentText op) :
    (checkLoop fuzzyThreshold currentText i ops ranges valid rejected).outcome? = none := by
  induction ops generalizing i ranges valid rejected with
  | nil => simp at h
  | cons op ops ih =>
    have hrest (hnot : ¬ NearlyThere fuzzyThreshold currentText op) :
        ∃ op ∈ ops, NearlyThere fuzzyThreshold currentText op := by
      obtain ⟨near, hmem, hnear⟩ := h
      rcases List.mem_cons.mp hmem with rfl | hmem
      · exact (hnot hnear).elim
      · exact ⟨near, hmem, hnear⟩
    unfold checkLoop
    by_cases hloc : Locatable currentText op
    · obtain ⟨op', ranges', hop⟩ := checkOp_located fuzzyThreshold ranges hloc
      rw [hop]
      exact ih (hrest fun hnear => hnear.1 hloc)
    · rcases checkOp_unlocated fuzzyThreshold ranges hloc with
        ⟨_, _, hop, -⟩ | ⟨_, hop, hnot⟩
      · rw [hop]
        rfl
      · rw [hop]
        exact ih (hrest hnot)

theorem checkLoop_outcome_some {ops : List AiOp} (i : ℕ) (valid : List AiOp)
    (rejected : List RejectedOp) (ranges : ℤ → Option ℤ)
    (h : ∀ op ∈ ops, ¬ NearlyThere fuzzyThreshold currentText op) :
    ∃ moreValid moreRejected,
      (checkLoop fuzzyThreshold currentText i ops ranges valid rejected).outcome? =
          some (valid ++ moreValid, rejected ++ moreRejected) ∧
        Accounted (fun op op' => Locatable currentText op ∧ SameEdit op op')
          (fun op => ¬ Locatable currentText op) i ops moreValid moreRejected := by
  induction ops generalizing i ranges valid rejected with
  | nil =>
    refine ⟨[], [], ?_, .nil i⟩
    unfold checkLoop
    split
    · next hempty => simp [List.isEmpty_iff.mp hempty, ContentCheckResult.outcome?]
    · simp [ContentCheckResult.outcome?]
  | cons op ops ih =>
    obtain ⟨hop, hops⟩ := List.forall_mem_cons.mp h
    unfold checkLoop
    by_cases hloc : Locatable currentText op
    · obtain ⟨op', ranges', hcheck⟩ := checkOp_located fuzzyThreshold ranges hloc
      obtain ⟨v, r, houtcome, hacc⟩ := ih (i + 1) (valid ++ [op']) rejected ranges' hops
      rw [hcheck]
      refine ⟨op' :: v, r, ?_, .keep ⟨hloc, (checkOp_resolved hcheck).moved⟩ hacc⟩
      simpa using houtcome
    · rcases checkOp_unlocated fuzzyThreshold ranges hloc with
        ⟨_, _, -, hnear⟩ | ⟨reason, hcheck, -⟩
      · exact (hop hnear).elim
      · obtain ⟨v, r, houtcome, hacc⟩ := ih (i + 1) valid (rejected ++ [⟨i, reason⟩]) ranges hops
        rw [hcheck]
        refine ⟨v, ⟨i, reason⟩ :: r, ?_, .reject reason hloc hacc⟩
        simpa using houtcome

theorem Accounted.length_add {kept : AiOp → AiOp → Prop} {dropped : AiOp → Prop} {i : ℕ}
    {ops validOps : List AiOp} {rejectedOps : List RejectedOp}
    (h : Accounted kept dropped i ops validOps rejectedOps) :
    validOps.length + rejectedOps.length = ops.length := by
  induction h with
  | nil => rfl
  | keep _ _ ih | reject _ _ _ ih =>
    simp only [List.length_cons]
    omega

/-- The valid operations are the whole list, each at its place, when none was dropped. -/
theorem Accounted.whole_iff {kept : AiOp → AiOp → Prop} {dropped : AiOp → Prop} {i : ℕ}
    {ops validOps : List AiOp} {rejectedOps : List RejectedOp}
    (hkept : ∀ op op', kept op op' → ¬ dropped op ∧ SameEdit op op')
    (h : Accounted kept dropped i ops validOps rejectedOps) :
    List.Forall₂ SameEdit ops validOps ↔ ∀ op ∈ ops, ¬ dropped op := by
  induction h with
  | nil => simp
  | keep hop _ ih =>
    rw [List.forall₂_cons, List.forall_mem_cons, ih]
    exact and_congr_left' (iff_of_true (hkept _ _ hop).2 (hkept _ _ hop).1)
  | @reject i op ops validOps rejectedOps _ hop hrest _ =>
    refine iff_of_false (fun hall => ?_) (fun hall => hall op List.mem_cons_self hop)
    have hshort := hrest.length_add
    have hlong := hall.length_eq
    simp only [List.length_cons] at hlong
    omega

theorem Accounted.valid_eq_nil_iff {kept : AiOp → AiOp → Prop} {dropped : AiOp → Prop} {i : ℕ}
    {ops validOps : List AiOp} {rejectedOps : List RejectedOp}
    (hkept : ∀ op op', kept op op' → ¬ dropped op)
    (h : Accounted kept dropped i ops validOps rejectedOps) :
    validOps = [] ↔ ∀ op ∈ ops, dropped op := by
  induction h with
  | nil => simp
  | keep hop _ _ =>
    exact iff_of_false (List.cons_ne_nil _ _) fun hall =>
      hkept _ _ hop (hall _ List.mem_cons_self)
  | reject _ hop _ ih =>
    rw [List.forall_mem_cons, ih]
    exact (and_iff_right hop).symm

end List

section Accept

variable {D U Doc : Type} [DecidableEq D] [DecidableEq U] (service : YjsService Doc)
  (fuzzyThreshold : ℚ) (maxDocChars : ℕ)

/-- An accept that applies anything applies every staged operation, each at the place where
it is now, and leaves the document that this makes. -/
def AppliesWhole (doc : Doc) (proposal : StagedProposal D U)
    (accepted : Except AiError (Accepted Doc)) : Prop :=
  ∀ result, accepted = .ok result → result.operations ≠ [] →
    List.Forall₂ SameEdit proposal.operations result.operations ∧
      result.doc = applyOps service doc result.operations

variable {fuzzyThreshold}

theorem acceptProposal_owner {doc : Doc} (proposal : StagedProposal D U) (confirm : Bool) :
    (∃ op ∈ proposal.operations,
        NearlyThere fuzzyThreshold (currentText service maxDocChars doc) op) ∨
      ∃ validOps rejectedOps,
        acceptProposal service fuzzyThreshold maxDocChars doc proposal.documentId
          proposal.authorId (some proposal) confirm =
            .ok ⟨applyOps service doc validOps, validOps, rejectedOps⟩ ∧
        Accounted
          (fun op op' => Locatable (currentText service maxDocChars doc) op ∧ SameEdit op op')
          (fun op => ¬ Locatable (currentText service maxDocChars doc) op) 0
          proposal.operations validOps rejectedOps := by
  rw [or_iff_not_imp_left]
  intro hnear
  push Not at hnear
  obtain ⟨v, r, houtcome, hacc⟩ := checkLoop_outcome_some 0 [] [] (fun _ => none) hnear
  rw [List.nil_append, List.nil_append] at houtcome
  refine ⟨v, r, ?_, hacc⟩
  unfold acceptProposal
  simp only [ne_eq, not_true_eq_false, or_self, if_false]
  change (checkContentExistence fuzzyThreshold proposal.operations
    (currentText service maxDocChars doc)).outcome? = _ at houtcome
  split
  · next heq =>
    rw [heq] at houtcome
    cases houtcome
  · next heq =>
    rw [heq] at houtcome
    cases houtcome
    rw [applyOps_unless_isEmpty]
    rfl
  · next heq =>
    rw [heq] at houtcome
    cases houtcome
    rw [applyOps_unless_isEmpty]
    rfl

variable {service maxDocChars}

/-- An accept applies all staged operations or none of them exactly when it is refused, when
the check stops at an operation that is nearly there, or when all or none are located. -/
theorem acceptProposal_whole_iff {doc : Doc} {documentId : D} {userId : U}
    {proposal : StagedProposal D U} {confirm : Bool} :
    AppliesWhole service doc proposal
        (acceptProposal service fuzzyThreshold maxDocChars doc documentId userId (some proposal)
          confirm) ↔
      (proposal.documentId ≠ documentId ∨ proposal.authorId ≠ userId) ∨
      (∃ op ∈ proposal.operations,
        NearlyThere fuzzyThreshold (currentText service maxDocChars doc) op) ∨
      (∀ op ∈ proposal.operations, Locatable (currentText service maxDocChars doc) op) ∨
      ∀ op ∈ proposal.operations, ¬ Locatable (currentText service maxDocChars doc) op := by
  by_cases howner : proposal.documentId ≠ documentId ∨ proposal.authorId ≠ userId
  · refine iff_of_true (fun result h => ?_) (.inl howner)
    unfold acceptProposal at h
    simp only [howner, if_true] at h
    cases h
  · simp only [howner, false_or]
    rw [not_or, not_not, not_not] at howner
    obtain ⟨rfl, rfl⟩ := howner
    by_cases hnear : ∃ op ∈ proposal.operations,
        NearlyThere fuzzyThreshold (currentText service maxDocChars doc) op
    · refine iff_of_true (fun result h _ => ?_) (.inl hnear)
      obtain ⟨hdoc, hops⟩ := acceptProposal_ok h
      have hstop : (checkContentExistence fuzzyThreshold proposal.operations
          (currentText service maxDocChars doc)).outcome? = none := checkLoop_outcome_none hnear
      rw [hstop] at hops
      have heq := (hops.resolve_left (by simp)).2
      exact ⟨heq ▸ List.forall₂_same.mpr fun op _ => SameEdit.refl op, hdoc⟩
    · simp only [hnear, false_or]
      obtain ⟨v, r, haccept, hacc⟩ :=
        (acceptProposal_owner service maxDocChars proposal confirm).resolve_left hnear
      have hwhole := hacc.whole_iff fun _ _ hkept => ⟨not_not.mpr hkept.1, hkept.2⟩
      have hnone := hacc.valid_eq_nil_iff fun _ _ hkept => not_not.mpr hkept.1
      simp only [not_not] at hwhole
      rw [← hwhole, ← hnone]
      constructor
      · intro h
        by_cases hv : v = []
        · exact .inr hv
        · exact .inl (h _ haccept hv).1
      · rintro hor result hresult hne
        rw [haccept] at hresult
        cases hresult
        exact ⟨hor.resolve_right hne, rfl⟩

end Accept

def replaceOld : Json :=
  .arr [.obj [(js "type", .str (js "delete")), (js "start", .num 4), (js "end", .num 7),
      (js "expected_text", .str (js "old"))],
    .obj [(js "type", .str (js "insert")), (js "position", .num 4), (js "text", .str (js "new"))]]

def stagedReplacement : StagedProposal Unit Unit where
  documentId := ()
  authorId := ()
  operations := [.delete ⟨4, 7, js "old"⟩, .insert 4 (js "new") none]
  diff := ⟨js "the old end", js "the new end"⟩

/-- The replacement is staged as a whole, and applied as an insert once the word is gone. -/
theorem acceptProposal_whole_fails : ¬ ∀ ops (proposal : StagedProposal Unit Unit) liveText,
    validateOperations replaceOld = .ok ops →
    proposeChat textService (7 / 10) 60000 (js "the old end") () () ops true = .ok proposal →
    AppliesWhole textService liveText proposal
      (acceptProposal textService (7 / 10) 60000 liveText () () (some proposal) false) := by
  intro h
  have hwhole := h _ stagedReplacement (js "the end") rfl rfl
  have hone : (acceptProposal textService (7 / 10) 60000 (js "the end") () ()
      (some stagedReplacement) false).toOption.map (fun result => result.operations.length) =
        some 1 := by decide +kernel
  cases haccept : acceptProposal textService (7 / 10) 60000 (js "the end") () ()
      (some stagedReplacement) false with
  | error e =>
    rw [haccept] at hone
    cases hone
  | ok result =>
    rw [haccept] at hone
    have hlength : result.operations.length = 1 := Option.some.inj hone
    have hne : result.operations ≠ [] := by
      intro hnil
      simp [hnil] at hlength
    have hall := (hwhole result haccept hne).1.length_eq
    rw [hlength] at hall
    cases hall

end Meridian
