import Meridian.EditOrder
import Meridian.Lib.Runs
import Meridian.Recheck

/-! Proposals: staged by a proposal, shown to the author as a diff, and accepted or dropped
later, while documents change. The content check runs again when a proposal is accepted;
what it applies then is what the author has seen exactly when every insert that was put
after its anchor is found there again. -/
namespace Meridian

inductive AiError
  | contentExistence (operationIndex : ℕ) (expectedText actualText : JsString)
  | conflict (message : JsString)
  | scope
  | proposalGone
  | reconfirm (before after : JsString) (operationIndex : ℕ) (expectedText actualText : JsString)

structure Diff where
  before : JsString
  after : JsString

structure StagedProposal (D U : Type) where
  documentId : D
  authorId : U
  operations : List AiOp
  diff : Diff

/-- What a successful accept applies, reports, and leaves of the document. -/
structure Accepted (Doc : Type) where
  doc : Doc
  operations : List AiOp
  rejectedOps : List RejectedOp

section Handlers

variable {D U Doc : Type} (service : YjsService Doc) (fuzzyThreshold : ℚ) (maxDocChars : ℕ)

def currentText (doc : Doc) : JsString := truncateText maxDocChars (service.extractText doc)

/-- A fuzzy match is an error, a partial match reports what it drops. -/
def resolveContentCheck (ops : List AiOp) (text : JsString) :
    Except AiError (List AiOp × List RejectedOp) :=
  match checkContentExistence fuzzyThreshold ops text with
  | .fuzzyMatch index expectedText actualText =>
    throw (.contentExistence index expectedText actualText)
  | .partialMatch validOps rejectedOps => pure (validOps, rejectedOps)
  | .allExact validOps => pure (validOps, [])

/-- From the validated operations on. `inScope` is the answer of the scope check. -/
def proposeChat (doc : Doc) (documentId : D) (authorId : U) (ops : List AiOp) (inScope : Bool) :
    Except AiError (StagedProposal D U) := do
  let text := currentText service maxDocChars doc
  let (opsToApply, rejectedOps) ← resolveContentCheck fuzzyThreshold ops text
  if opsToApply.isEmpty || !rejectedOps.isEmpty then
    throw (.conflict
      (js "Referenced text not found; the document may have changed. Ask the AI again."))
  else if !inScope then throw .scope
  else
    pure ⟨documentId, authorId, opsToApply,
      ⟨text, computeAfterText service maxDocChars doc opsToApply⟩⟩

variable {service fuzzyThreshold maxDocChars} in
/-- A proposal stages a list that has passed the check as a whole, and shows its effect. -/
theorem proposeChat_ok {doc : Doc} {documentId : D} {authorId : U} {ops : List AiOp}
    {inScope : Bool} {proposal : StagedProposal D U}
    (h : proposeChat service fuzzyThreshold maxDocChars doc documentId authorId ops inScope =
      .ok proposal) :
    (checkContentExistence fuzzyThreshold ops (currentText service maxDocChars doc)).outcome? =
        some (proposal.operations, []) ∧
      proposal.diff.after = computeAfterText service maxDocChars doc proposal.operations := by
  obtain ⟨⟨opsToApply, rejectedOps⟩, hcheck, h⟩ := passed_bind h
  dsimp only at h
  have houtcome : (checkContentExistence fuzzyThreshold ops
      (currentText service maxDocChars doc)).outcome? = some (opsToApply, rejectedOps) := by
    unfold resolveContentCheck at hcheck
    split at hcheck
    · cases hcheck
    · next heq =>
      cases hcheck
      rw [heq]
      rfl
    · next heq =>
      cases hcheck
      rw [heq]
      rfl
  split at h
  · cases h
  · next hall =>
    split at h
    · cases h
    · cases h
      have hnone : rejectedOps = [] := by
        by_contra hne
        simp [hne] at hall
      exact ⟨hnone ▸ houtcome, rfl⟩

variable [DecidableEq D] [DecidableEq U]

/-- `acceptProposal`, with what the store holds under the proposal's name. -/
def acceptProposal (doc : Doc) (documentId : D) (userId : U)
    (raw : Option (StagedProposal D U)) (confirm : Bool) : Except AiError (Accepted Doc) :=
  let apply (opsToApply : List AiOp) (rejectedOps : List RejectedOp) :=
    pure ⟨if opsToApply.isEmpty then doc else applyOps service doc opsToApply, opsToApply,
      rejectedOps⟩
  match raw with
  | none => throw .proposalGone
  | some proposal =>
    if proposal.documentId ≠ documentId ∨ proposal.authorId ≠ userId then throw .proposalGone
    else
      let text := currentText service maxDocChars doc
      match checkContentExistence fuzzyThreshold proposal.operations text with
      | .fuzzyMatch index expectedText actualText =>
        if confirm then apply proposal.operations []
        else
          throw (.reconfirm text (computeAfterText service maxDocChars doc proposal.operations)
            index expectedText actualText)
      | .partialMatch validOps rejectedOps => apply validOps rejectedOps
      | .allExact validOps => apply validOps []

section Outcomes

variable {service fuzzyThreshold maxDocChars} {doc : Doc} {documentId : D} {userId : U}

theorem applyOps_unless_isEmpty (service : YjsService Doc) (doc : Doc) (ops : List AiOp) :
    (if ops.isEmpty then doc else applyOps service doc ops) = applyOps service doc ops := by
  split
  · next hempty =>
    rw [List.isEmpty_iff.mp hempty]
    rfl
  · rfl

theorem acceptProposal_reconfirm {raw : Option (StagedProposal D U)} {confirm : Bool}
    {before after expectedText actualText : JsString} {index : ℕ}
    (h : acceptProposal service fuzzyThreshold maxDocChars doc documentId userId raw confirm =
      .error (.reconfirm before after index expectedText actualText)) :
    ∃ proposal, raw = some proposal ∧
      checkContentExistence fuzzyThreshold proposal.operations
          (currentText service maxDocChars doc) = .fuzzyMatch index expectedText actualText ∧
      after = computeAfterText service maxDocChars doc proposal.operations := by
  unfold acceptProposal at h
  dsimp only at h
  split at h
  · cases h
  · next proposal =>
    split at h
    · cases h
    · split at h
      · next heq =>
        split at h
        · cases h
        · cases h
          exact ⟨proposal, rfl, heq, rfl⟩
      · cases h
      · cases h

/-- An accept applies what the check makes of the staged operations, or all of them when a
fuzzy match is confirmed. -/
theorem acceptProposal_ok {proposal : StagedProposal D U} {confirm : Bool} {result : Accepted Doc}
    (h : acceptProposal service fuzzyThreshold maxDocChars doc documentId userId (some proposal)
      confirm = .ok result) :
    result.doc = applyOps service doc result.operations ∧
      ((checkContentExistence fuzzyThreshold proposal.operations
          (currentText service maxDocChars doc)).outcome? =
        some (result.operations, result.rejectedOps) ∨
      ((checkContentExistence fuzzyThreshold proposal.operations
          (currentText service maxDocChars doc)).outcome? = none ∧
        result.operations = proposal.operations)) := by
  unfold acceptProposal at h
  dsimp only at h
  split at h
  · cases h
  · split at h
    · next heq =>
      split at h
      · cases h
        exact ⟨applyOps_unless_isEmpty _ _ _, .inr ⟨by rw [heq]; rfl, rfl⟩⟩
      · cases h
    · next heq =>
      cases h
      exact ⟨applyOps_unless_isEmpty _ _ _, .inl (by rw [heq]; rfl)⟩
    · next heq =>
      cases h
      exact ⟨applyOps_unless_isEmpty _ _ _, .inl (by rw [heq]; rfl)⟩

end Outcomes

end Handlers

/-- The last diff that the author of a proposal was shown, and the document it was shown of. -/
structure Shown (Doc : Type) where
  doc : Doc
  diff : Diff
  reconfirm : Bool

/-- Documents `D`, proposals `P` and users `U`; `shown` is kept for the author's side. -/
structure ProposalState (D P U Doc : Type) where
  documents : D → Doc
  proposals : P → Option (StagedProposal D U)
  shown : P → Option (Shown Doc)

/-- `drop` is a decline or the end of the proposal's time. -/
inductive ProposalAction (D P U Doc : Type)
  | edit (documentId : D) (doc : Doc)
  | proposeChat (proposalId : P) (documentId : D) (authorId : U) (response : Json) (inScope : Bool)
  | acceptProposal (proposalId : P) (documentId : D) (userId : U) (confirm : Bool)
  | drop (proposalId : P)

namespace ProposalState

variable {D P U Doc : Type} [DecidableEq D] [DecidableEq P] [DecidableEq U]
  (service : YjsService Doc) (fuzzyThreshold : ℚ) (maxDocChars : ℕ)

def Initial (s : ProposalState D P U Doc) : Prop :=
  (∀ p, s.proposals p = none) ∧ ∀ p, s.shown p = none

/-- The name of a new proposal is a new one; a call that fails leaves the state alone. -/
def step (s : ProposalState D P U Doc) : ProposalAction D P U Doc →
    Option (ProposalState D P U Doc)
  | .edit d doc => some { s with documents := Function.update s.documents d doc }
  | .proposeChat p d u response inScope =>
    if (s.shown p).isSome then none
    else
      match validateOperations response with
      | .error _ => some s
      | .ok ops =>
        match Meridian.proposeChat service fuzzyThreshold maxDocChars (s.documents d) d u ops
          inScope with
        | .error _ => some s
        | .ok proposal => some { s with
            proposals := Function.update s.proposals p (some proposal)
            shown := Function.update s.shown p (some ⟨s.documents d, proposal.diff, false⟩) }
  | .acceptProposal p d u confirm =>
    match Meridian.acceptProposal service fuzzyThreshold maxDocChars (s.documents d) d u
      (s.proposals p) confirm with
    | .ok result => some { s with
        documents := Function.update s.documents d result.doc
        proposals := Function.update s.proposals p none }
    | .error (.reconfirm before after _ _ _) => some { s with
        shown := Function.update s.shown p (some ⟨s.documents d, ⟨before, after⟩, true⟩) }
    | .error _ => some s
  | .drop p => some { s with proposals := Function.update s.proposals p none }

/-- What a shown diff tells of the proposal while it is staged. -/
structure AsShown (sh : Shown Doc) (proposal : StagedProposal D U) : Prop where
  after : sh.diff.after = computeAfterText service maxDocChars sh.doc proposal.operations
  exact : sh.reconfirm = false → ∃ ops,
    (checkContentExistence fuzzyThreshold ops (currentText service maxDocChars sh.doc)).outcome? =
      some (proposal.operations, [])
  fuzzy : sh.reconfirm = true →
    (checkContentExistence fuzzyThreshold proposal.operations
      (currentText service maxDocChars sh.doc)).outcome? = none

variable {service fuzzyThreshold maxDocChars}

/-- What a step can do to proposals and to what is shown of them: nothing new, a proposal, or a
diff in answer to a fuzzy match. -/
theorem step_cases {s t : ProposalState D P U Doc} {a : ProposalAction D P U Doc}
    (h : step service fuzzyThreshold maxDocChars s a = some t) :
    (t.shown = s.shown ∧ ∀ p, t.proposals p = s.proposals p ∨ t.proposals p = none) ∨
    (∃ p sh proposal, t.shown = Function.update s.shown p (some sh) ∧
      t.proposals = Function.update s.proposals p (some proposal) ∧
      AsShown service fuzzyThreshold maxDocChars sh proposal) ∨
    ∃ p sh proposal, t.shown = Function.update s.shown p (some sh) ∧ t.proposals = s.proposals ∧
      s.proposals p = some proposal ∧ AsShown service fuzzyThreshold maxDocChars sh proposal := by
  have hdrop (p p' : P) : Function.update s.proposals p none p' = s.proposals p' ∨
      Function.update s.proposals p none p' = none := by
    by_cases hp : p' = p
    · subst hp
      simp
    · exact .inl (Function.update_of_ne hp _ _)
  cases a with
  | edit d doc =>
    cases h
    exact .inl ⟨rfl, fun p => .inl rfl⟩
  | proposeChat p d u response inScope =>
    unfold step at h
    dsimp only at h
    split at h
    · cases h
    · split at h
      · cases h
        exact .inl ⟨rfl, fun p => .inl rfl⟩
      · next ops _ =>
        split at h
        · cases h
          exact .inl ⟨rfl, fun p => .inl rfl⟩
        · next proposal hproposal =>
          cases h
          obtain ⟨hcheck, hafter⟩ := proposeChat_ok hproposal
          exact .inr (.inl ⟨p, _, proposal, rfl, rfl, hafter, fun _ => ⟨ops, hcheck⟩,
            fun hre => by cases hre⟩)
  | acceptProposal p d u confirm =>
    unfold step at h
    dsimp only at h
    split at h
    · cases h
      exact .inl ⟨rfl, hdrop p⟩
    · next hreconfirm =>
      cases h
      obtain ⟨proposal, hstaged, hcheck, hafter⟩ := acceptProposal_reconfirm hreconfirm
      exact .inr (.inr ⟨p, _, proposal, rfl, rfl, hstaged, hafter, fun hre => (by cases hre),
        fun _ => by rw [hcheck]; rfl⟩)
    · cases h
      exact .inl ⟨rfl, fun p => .inl rfl⟩
  | drop p =>
    cases h
    exact .inl ⟨rfl, hdrop p⟩

def staged (text : JsString) (position : ℕ) (anchor : String) (after : JsString) :
    ProposalState Unit Unit Unit JsString where
  documents _ := text
  proposals := Function.update (fun _ => none) ()
    (some ⟨(), (), [.insert position (js "X") (some ⟨js anchor, .after⟩)], ⟨text, after⟩⟩)
  shown := Function.update (fun _ => none) () (some ⟨text, ⟨text, after⟩, false⟩)

end ProposalState

end Meridian
