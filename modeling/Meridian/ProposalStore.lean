import Meridian.Lib.Runs
import Meridian.Lib.Tables
import Meridian.ProposalMachine

/-! Staged proposals as expiring keys of redis, under accepts and declines that interleave at
their awaits. An accept reads the key, refreshes its time, reads the document, checks, and
then claims the key; whoever claims it is the only one that applies the proposal. Its owner
is checked only after the key has been refreshed, and not at all by a decline. -/
namespace Meridian

structure AcceptCall (D P U : Type) where
  documentId : D
  userId : U
  proposalId : P
  confirm : Bool

inductive AcceptOutcome
  | accepted (operationsApplied : ℕ) (rejectedOps : List RejectedOp)
  | refused (error : AiError)
  | failed

/-- An accept between two of its awaits, named after the one it is in. -/
inductive AcceptPhase (D P U : Type)
  | idle
  | expiring (call : AcceptCall D P U) (proposal : StagedProposal D U)
  | reconstructing (call : AcceptCall D P U) (proposal : StagedProposal D U)
  | claiming (call : AcceptCall D P U) (opsToApply : List AiOp) (rejectedOps : List RejectedOp)
  | applying (call : AcceptCall D P U) (opsToApply : List AiOp) (rejectedOps : List RejectedOp)
  | done (call : AcceptCall D P U) (outcome : AcceptOutcome)

def AcceptPhase.remaining : AcceptPhase D P U → ℕ
  | .expiring _ _ => 4
  | .reconstructing _ _ => 3
  | .claiming _ _ _ => 2
  | .applying _ _ _ => 1
  | .idle | .done _ _ => 0

def AcceptPhase.call? : AcceptPhase D P U → Option (AcceptCall D P U)
  | .idle => none
  | .expiring call _ | .reconstructing call _ | .claiming call _ _ | .applying call _ _
  | .done call _ => some call

inductive Removal (H : Type)
  | claimed (request : H)
  | declined
  | expired
  deriving DecidableEq

/-- Documents `D`, proposals `P`, users `U`, and accept requests `H`. A key holds a proposal
and the time at which it expires. `removed`, `started` and the requests that have written
rows are kept for the statements. -/
structure ProposalStore (D P U H : Type) where
  now : ℕ
  isAuthor : D → U → Bool
  proposals : P → Option (StagedProposal D U × ℕ)
  removed : P → Option (Removal H)
  requests : H → AcceptPhase D P U
  started : P → List H
  operations : List H
  outbox : List H

/-- The steps of the requests are named after the call that has been answered. `tick` is one
second; the document an accept or a proposal reads is whatever it is by then. -/
inductive StoreAction (D P U H Doc : Type)
  | setAuthor (documentId : D) (userId : U) (isAuthor : Bool)
  | tick
  | proposeChat (proposalId : P) (documentId : D) (userId : U) (doc : Doc) (ops : List AiOp)
      (inScope : Bool)
  | get (request : H) (call : AcceptCall D P U)
  | expire (request : H)
  | reconstructDocument (request : H) (doc : Doc)
  | getDel (request : H)
  | commit (request : H) (enqueued : Bool)
  | rollback (request : H)
  | declineProposal (proposalId : P) (documentId : D) (userId : U)

namespace ProposalStore

variable {D P U H Doc : Type}

def Initial (s : ProposalStore D P U H) : Prop :=
  (∀ p, s.proposals p = none) ∧ (∀ p, s.removed p = none) ∧ (∀ h, s.requests h = .idle) ∧
    (∀ p, s.started p = []) ∧ s.operations = [] ∧ s.outbox = []

def setRequest [DecidableEq H] (s : ProposalStore D P U H) (h : H) (x : AcceptPhase D P U) :
    ProposalStore D P U H :=
  { s with requests := Function.update s.requests h x }

@[simp] theorem setRequest_self [DecidableEq H] (s : ProposalStore D P U H) (h : H)
    (x : AcceptPhase D P U) : (s.setRequest h x).requests h = x := by
  simp [setRequest]

theorem setRequest_of_ne [DecidableEq H] (s : ProposalStore D P U H) {h h' : H}
    (x : AcceptPhase D P U) (hne : h' ≠ h) : (s.setRequest h x).requests h' = s.requests h' := by
  simp [setRequest, hne]

def expiresNext (s : ProposalStore D P U H) (p : P) : Bool :=
  (s.proposals p).any fun staged => staged.2 ≤ s.now + 1

section Keys

variable [DecidableEq P]

def remove (s : ProposalStore D P U H) (p : P) (removal : Removal H) : ProposalStore D P U H :=
  { s with
    proposals := Function.update s.proposals p none
    removed := if (s.proposals p).isSome then Function.update s.removed p (some removal)
      else s.removed }

def refresh (ttlSeconds : ℕ) (s : ProposalStore D P U H) (p : P) : ProposalStore D P U H :=
  { s with
    proposals := Function.update s.proposals p
      ((s.proposals p).map fun staged => (staged.1, s.now + ttlSeconds)) }

/-- From the answer of `GETDEL` that holds the proposal: `applyOps` starts unless there is
nothing to apply. -/
def claim [DecidableEq H] (s : ProposalStore D P U H) (h : H) (call : AcceptCall D P U)
    (opsToApply : List AiOp) (rejectedOps : List RejectedOp) : ProposalStore D P U H :=
  let t := s.remove call.proposalId (.claimed h)
  if opsToApply.isEmpty then t.setRequest h (.done call (.accepted 0 rejectedOps))
  else { t.setRequest h (.applying call opsToApply rejectedOps) with
    started := Function.update s.started call.proposalId (s.started call.proposalId ++ [h]) }

/-- What a step can do to one key: stage a proposal under a new id, give the proposal another
time, or take it away. -/
inductive KeyEffect (s t : ProposalStore D P U H) (p : P) : Prop
  | same (hp : t.proposals p = s.proposals p) (hr : t.removed p = s.removed p)
  | staged (hp : s.proposals p = none) (hr : s.removed p = none) (hr' : t.removed p = none)
  | refreshed (staged : StagedProposal D U × ℕ) (deadline : ℕ) (hp : s.proposals p = some staged)
      (hp' : t.proposals p = some (staged.1, deadline)) (hr : t.removed p = s.removed p)
  | removed (removal : Removal H) (hp : s.proposals p ≠ none) (hp' : t.proposals p = none)
      (hr : t.removed p = some removal)

section

variable {s : ProposalStore D P U H} {h : H}

theorem remove_keyEffect (p : P) (removal : Removal H) (p' : P) :
    KeyEffect s (s.remove p removal) p' := by
  by_cases hp : p' = p
  · subst hp
    cases hkey : s.proposals p' with
    | none => exact .same (by simp [remove, hkey]) (by simp [remove, hkey])
    | some staged =>
      exact .removed removal (by simp [hkey]) (by simp [remove]) (by simp [remove, hkey])
  · refine .same (by simp [remove, hp]) ?_
    unfold remove
    dsimp only
    split
    · exact Function.update_of_ne hp _ _
    · rfl

theorem refresh_keyEffect (ttlSeconds : ℕ) (p p' : P) :
    KeyEffect s (refresh ttlSeconds s p) p' := by
  by_cases hp : p' = p
  · subst hp
    cases hkey : s.proposals p' with
    | none => exact .same (by simp [refresh, hkey]) rfl
    | some staged => exact .refreshed staged (s.now + ttlSeconds) hkey (by simp [refresh, hkey]) rfl
  · exact .same (by simp [refresh, hp]) rfl

theorem claim_proposals [DecidableEq H] (call : AcceptCall D P U) (ops : List AiOp)
    (rejectedOps : List RejectedOp) :
    (s.claim h call ops rejectedOps).proposals =
      (s.remove call.proposalId (.claimed h)).proposals := by
  unfold claim
  dsimp only
  split <;> rfl

theorem claim_removed [DecidableEq H] (call : AcceptCall D P U) (ops : List AiOp)
    (rejectedOps : List RejectedOp) :
    (s.claim h call ops rejectedOps).removed =
      (s.remove call.proposalId (.claimed h)).removed := by
  unfold claim
  dsimp only
  split <;> rfl

end

end Keys

theorem KeyEffect.congr {s t t' : ProposalStore D P U H} {p : P} (h : KeyEffect s t p)
    (hp : t'.proposals p = t.proposals p) (hr : t'.removed p = t.removed p) : KeyEffect s t' p := by
  cases h with
  | same hp' hr' => exact .same (hp.trans hp') (hr.trans hr')
  | staged hs hr' ht => exact .staged hs hr' (hr.trans ht)
  | refreshed staged deadline hs ht hr' =>
    exact .refreshed staged deadline hs (hp.trans ht) (hr.trans hr')
  | removed removal hs ht hr' => exact .removed removal hs (hp.trans ht) (hr.trans hr')

def Drawn (s : ProposalStore D P U H) (p : P) : Prop := s.proposals p ≠ none ∨ s.removed p ≠ none

def Kept (s : ProposalStore D P U H) : Prop := ∀ p, s.proposals p ≠ none → s.removed p = none

section Effects

variable {s t : ProposalStore D P U H} {p : P}

theorem KeyEffect.kept (h : KeyEffect s t p) (hkept : Kept s) (hp : t.proposals p ≠ none) :
    t.removed p = none := by
  cases h with
  | same hp' hr => exact hr.trans (hkept p (hp' ▸ hp))
  | staged _ _ hr => exact hr
  | refreshed staged _ hs _ hr => exact hr.trans (hkept p (by simp [hs]))
  | removed _ _ hp' _ => exact (hp hp').elim

theorem KeyEffect.removed_eq (h : KeyEffect s t p) (hkept : Kept s) {removal : Removal H}
    (hr : s.removed p = some removal) : t.removed p = some removal := by
  cases h with
  | same _ hr' => exact hr'.trans hr
  | staged _ hr' _ =>
    rw [hr'] at hr
    cases hr
  | refreshed _ _ _ _ hr' => exact hr'.trans hr
  | removed _ hp _ _ =>
    rw [hkept p hp] at hr
    cases hr

theorem KeyEffect.drawn (h : KeyEffect s t p) (hdrawn : Drawn s p) :
    Drawn t p ∧ ∀ staged' ∈ t.proposals p, ∃ staged ∈ s.proposals p, staged.1 = staged'.1 := by
  cases h with
  | same hp hr =>
    refine ⟨?_, fun staged' hs => ⟨staged', hp ▸ hs, rfl⟩⟩
    unfold Drawn
    rwa [hp, hr]
  | staged hp hr _ => exact (hdrawn.elim (fun h => h hp) fun h => h hr).elim
  | refreshed staged deadline hp hp' _ =>
    refine ⟨.inl (by simp [hp']), fun staged' hs => ⟨staged, hp, ?_⟩⟩
    obtain rfl := Option.some.inj (hp'.symm.trans hs)
    rfl
  | removed removal _ hp' hr =>
    refine ⟨.inr (by simp [hr]), fun staged' hs => ?_⟩
    rw [hp'] at hs
    cases hs

end Effects

def Owns (call : AcceptCall D P U) (proposal : StagedProposal D U) : Prop :=
  proposal.documentId = call.documentId ∧ proposal.authorId = call.userId

def Won (s : ProposalStore D P U H) (h : H) (call : AcceptCall D P U) : Prop :=
  s.removed call.proposalId = some (.claimed h)

/-- The errors with which an accept turns its caller away. -/
def TurnsAway : AiError → Prop
  | .proposalGone | .reconfirm _ _ _ _ _ => True
  | _ => False

/-- What a request knows of the key: the proposal it has read is the only one that will ever
be there, and past the check of the owner it is the caller's own. -/
def Consistent (s : ProposalStore D P U H) (h : H) : AcceptPhase D P U → Prop
  | .idle => True
  | .expiring call proposal => Drawn s call.proposalId ∧
    ∀ staged ∈ s.proposals call.proposalId, staged.1 = proposal
  | .reconstructing call _ | .claiming call _ _ => Drawn s call.proposalId ∧
    ∀ staged ∈ s.proposals call.proposalId, Owns call staged.1
  | .applying call _ _ => Won s h call
  | .done call outcome => Won s h call ∨ ∃ error, outcome = .refused error ∧ TurnsAway error

/-- The invariant: what is started or written belongs to the request that has claimed it. -/
structure Orderly (s : ProposalStore D P U H) : Prop where
  kept : Kept s
  requests : ∀ h, Consistent s h (s.requests h)
  started : ∀ p, s.started p = [] ∨ ∃ h, s.started p = [h] ∧ s.removed p = some (.claimed h)
  rows : ∀ h, h ∈ s.operations ∨ h ∈ s.outbox →
    ∃ call outcome, s.requests h = .done call outcome ∧ Won s h call

section Invariant

variable {s t : ProposalStore D P U H} {h : H}

theorem Consistent.frame {x : AcceptPhase D P U} (hkey : ∀ p, KeyEffect s t p) (hkept : Kept s)
    (hx : Consistent s h x) : Consistent t h x := by
  cases x with
  | idle => trivial
  | expiring call _ | reconstructing call _ | claiming call _ _ =>
    obtain ⟨hdrawn, hsame⟩ := (hkey call.proposalId).drawn hx.1
    refine ⟨hdrawn, fun staged' hs' => ?_⟩
    obtain ⟨staged, hs, heq⟩ := hsame staged' hs'
    exact heq ▸ hx.2 staged hs
  | applying call _ _ => exact (hkey call.proposalId).removed_eq hkept hx
  | done call outcome => exact hx.imp_left fun hw => (hkey call.proposalId).removed_eq hkept hw

/-- A step keeps the invariant if the requests that move know what they must, and if what it
starts or writes is their own. -/
theorem Orderly.next (hs : Orderly s) (hkey : ∀ p, KeyEffect s t p)
    (hrequests : ∀ h, t.requests h = s.requests h ∨
      (Consistent t h (t.requests h) ∧ ∀ call outcome, s.requests h ≠ .done call outcome))
    (hstarted : ∀ p, t.started p = s.started p ∨ ∃ h, t.started p = s.started p ++ [h] ∧
      s.proposals p ≠ none ∧ t.removed p = some (.claimed h))
    (hrows : ∀ h, h ∈ t.operations ∨ h ∈ t.outbox → (h ∈ s.operations ∨ h ∈ s.outbox) ∨
      ∃ call outcome, t.requests h = .done call outcome ∧ Won t h call) : Orderly t where
  kept p hp := (hkey p).kept hs.kept hp
  requests h := by
    rcases hrequests h with heq | ⟨hnew, -⟩
    · rw [heq]
      exact (hs.requests h).frame hkey hs.kept
    · exact hnew
  started p := by
    rcases hstarted p with heq | ⟨h, hcons, hkeep, hclaimed⟩
    · rw [heq]
      exact (hs.started p).imp_right fun ⟨h, hone, hclaimed⟩ =>
        ⟨h, hone, (hkey p).removed_eq hs.kept hclaimed⟩
    · rcases hs.started p with hnil | ⟨h', -, hclaimed'⟩
      · exact .inr ⟨h, by rw [hcons, hnil]; rfl, hclaimed⟩
      · rw [hs.kept p hkeep] at hclaimed'
        cases hclaimed'
  rows h hh := by
    rcases hrows h hh with hold | hnew
    · obtain ⟨call, outcome, hdone, hwon⟩ := hs.rows h hold
      rcases hrequests h with heq | ⟨-, hnot⟩
      · exact ⟨call, outcome, heq.trans hdone, (hkey call.proposalId).removed_eq hs.kept hwon⟩
      · exact (hnot call outcome hdone).elim
    · exact hnew

theorem setRequest_moves [DecidableEq H] {x : AcceptPhase D P U}
    (hreq : t.requests = (s.setRequest h x).requests) (hx : Consistent t h x)
    (hnot : ∀ call outcome, s.requests h ≠ .done call outcome) (h' : H) :
    t.requests h' = s.requests h' ∨
      (Consistent t h' (t.requests h') ∧ ∀ call outcome, s.requests h' ≠ .done call outcome) := by
  by_cases hh : h' = h
  · subst hh
    refine .inr ⟨?_, hnot⟩
    rw [hreq, setRequest_self]
    exact hx
  · exact .inl (by rw [hreq, setRequest_of_ne _ _ hh])

/-- The request that claims a proposal starts to apply it, unless nothing is left of it. -/
theorem Orderly.claim [DecidableEq P] [DecidableEq H] (hs : Orderly s) {call : AcceptCall D P U}
    {ops : List AiOp} {rejectedOps : List RejectedOp}
    (hphase : s.requests h = .claiming call ops rejectedOps)
    (hvalue : s.proposals call.proposalId ≠ none)
    (hkey : ∀ p, KeyEffect s (s.claim h call ops rejectedOps) p) :
    Orderly (s.claim h call ops rejectedOps) := by
  have hnot : ∀ call outcome, s.requests h ≠ .done call outcome := by simp [hphase]
  have hwon : Won (s.claim h call ops rejectedOps) h call := by
    unfold Won
    rw [claim_removed]
    simp [remove, Option.isSome_iff_ne_none.mpr hvalue]
  unfold ProposalStore.claim at hkey hwon ⊢
  dsimp only at hkey hwon ⊢
  split at hkey
  · next hempty =>
    rw [if_pos hempty] at hwon ⊢
    exact hs.next hkey (setRequest_moves rfl (.inl hwon) hnot) (fun _ => .inl rfl) fun _ => .inl
  · next hne =>
    rw [if_neg hne] at hwon ⊢
    refine hs.next hkey (setRequest_moves rfl hwon hnot) (fun p => ?_) fun _ => .inl
    by_cases hp : p = call.proposalId
    · subst hp
      exact .inr ⟨h, Function.update_self .., hvalue, hwon⟩
    · exact .inl (Function.update_of_ne hp _ _)

end Invariant

section Steps

variable [DecidableEq D] [DecidableEq P] [DecidableEq U] [DecidableEq H]
  (service : YjsService Doc) (fuzzyThreshold : ℚ) (maxDocChars ttlSeconds : ℕ)

def step (s : ProposalStore D P U H) : StoreAction D P U H Doc → Option (ProposalStore D P U H)
  | .setAuthor d u isAuthor =>
    some { s with isAuthor := Tables.set s.isAuthor d u isAuthor }
  | .tick => some { s with
      now := s.now + 1
      proposals := fun p => if s.expiresNext p then none else s.proposals p
      removed := fun p => if s.expiresNext p then some .expired else s.removed p }
  | .proposeChat p d u doc ops inScope =>
    -- the id is drawn at random: no key has ever had it
    if s.isAuthor d u ∧ s.proposals p = none ∧ s.removed p = none then
      match Meridian.proposeChat service fuzzyThreshold maxDocChars doc d u ops inScope with
      | .error _ => some s
      | .ok proposal => some { s with
          proposals := Function.update s.proposals p (some (proposal, s.now + ttlSeconds)) }
    else none
  | .get h call =>
    match s.requests h with
    | .idle =>
      if s.isAuthor call.documentId call.userId then
        match s.proposals call.proposalId with
        | none => some (s.setRequest h (.done call (.refused .proposalGone)))
        | some (proposal, _) => some (s.setRequest h (.expiring call proposal))
      else none
    | _ => none
  | .expire h =>
    match s.requests h with
    | .expiring call proposal =>
      some ((refresh ttlSeconds s call.proposalId).setRequest h
        (if proposal.documentId ≠ call.documentId ∨ proposal.authorId ≠ call.userId then
          .done call (.refused .proposalGone)
        else .reconstructing call proposal))
    | _ => none
  | .reconstructDocument h doc =>
    match s.requests h with
    | .reconstructing call proposal =>
      match Meridian.acceptProposal service fuzzyThreshold maxDocChars doc call.documentId
        call.userId (some proposal) call.confirm with
      | .ok result =>
        some (s.setRequest h (.claiming call result.operations result.rejectedOps))
      | .error error => some (s.setRequest h (.done call (.refused error)))
    | _ => none
  | .getDel h =>
    match s.requests h with
    | .claiming call opsToApply rejectedOps =>
      match s.proposals call.proposalId with
      | none => some (s.setRequest h (.done call (.refused .proposalGone)))
      | some _ => some (s.claim h call opsToApply rejectedOps)
    | _ => none
  | .commit h enqueued =>
    match s.requests h with
    | .applying call opsToApply rejectedOps => some
        { s.setRequest h (.done call
            (if enqueued then .accepted opsToApply.length rejectedOps else .failed)) with
          operations := s.operations ++ List.replicate opsToApply.length h
          outbox := s.outbox ++ List.replicate opsToApply.length h }
    | _ => none
  | .rollback h =>
    match s.requests h with
    | .applying call _ _ => some (s.setRequest h (.done call .failed))
    | _ => none
  | .declineProposal p d u => if s.isAuthor d u then some (s.remove p .declined) else none

/-- What a step can do, one case for each answer that a request can get. -/
inductive StepCase (s : ProposalStore D P U H) :
    StoreAction D P U H Doc → ProposalStore D P U H → Prop
  | setAuthor (d : D) (u : U) (isAuthor : Bool) : StepCase s (.setAuthor d u isAuthor)
      { s with isAuthor := Tables.set s.isAuthor d u isAuthor }
  | tick : StepCase s .tick { s with
      now := s.now + 1
      proposals := fun p => if s.expiresNext p then none else s.proposals p
      removed := fun p => if s.expiresNext p then some .expired else s.removed p }
  | rejected (p : P) (d : D) (u : U) (doc : Doc) (ops : List AiOp) (inScope : Bool) :
      StepCase s (.proposeChat p d u doc ops inScope) s
  | staged (p : P) (d : D) (u : U) (doc : Doc) (ops : List AiOp) (inScope : Bool)
      (proposal : StagedProposal D U) (hp : s.proposals p = none) (hr : s.removed p = none) :
      StepCase s (.proposeChat p d u doc ops inScope) { s with
        proposals := Function.update s.proposals p (some (proposal, s.now + ttlSeconds)) }
  | missing (h : H) (call : AcceptCall D P U) (hphase : s.requests h = .idle) :
      StepCase s (.get h call) (s.setRequest h (.done call (.refused .proposalGone)))
  | found (h : H) (call : AcceptCall D P U) (proposal : StagedProposal D U) (deadline : ℕ)
      (hphase : s.requests h = .idle)
      (hvalue : s.proposals call.proposalId = some (proposal, deadline)) :
      StepCase s (.get h call) (s.setRequest h (.expiring call proposal))
  | foreign (h : H) (call : AcceptCall D P U) (proposal : StagedProposal D U)
      (hphase : s.requests h = .expiring call proposal) :
      StepCase s (.expire h) ((refresh ttlSeconds s call.proposalId).setRequest h
        (.done call (.refused .proposalGone)))
  | owned (h : H) (call : AcceptCall D P U) (proposal : StagedProposal D U)
      (hphase : s.requests h = .expiring call proposal) (howner : Owns call proposal) :
      StepCase s (.expire h) ((refresh ttlSeconds s call.proposalId).setRequest h
        (.reconstructing call proposal))
  | checked (h : H) (doc : Doc) (call : AcceptCall D P U) (proposal : StagedProposal D U)
      (opsToApply : List AiOp) (rejectedOps : List RejectedOp)
      (hphase : s.requests h = .reconstructing call proposal) :
      StepCase s (.reconstructDocument h doc)
        (s.setRequest h (.claiming call opsToApply rejectedOps))
  | turnedAway (h : H) (doc : Doc) (call : AcceptCall D P U) (proposal : StagedProposal D U)
      (error : AiError) (hphase : s.requests h = .reconstructing call proposal)
      (herror : TurnsAway error) :
      StepCase s (.reconstructDocument h doc) (s.setRequest h (.done call (.refused error)))
  | lost (h : H) (call : AcceptCall D P U) (opsToApply : List AiOp)
      (rejectedOps : List RejectedOp)
      (hphase : s.requests h = .claiming call opsToApply rejectedOps) :
      StepCase s (.getDel h) (s.setRequest h (.done call (.refused .proposalGone)))
  | claimed (h : H) (call : AcceptCall D P U) (opsToApply : List AiOp)
      (rejectedOps : List RejectedOp)
      (hphase : s.requests h = .claiming call opsToApply rejectedOps)
      (hvalue : s.proposals call.proposalId ≠ none) :
      StepCase s (.getDel h) (s.claim h call opsToApply rejectedOps)
  | committed (h : H) (enqueued : Bool) (call : AcceptCall D P U) (opsToApply : List AiOp)
      (rejectedOps : List RejectedOp) (outcome : AcceptOutcome)
      (hphase : s.requests h = .applying call opsToApply rejectedOps) :
      StepCase s (.commit h enqueued) { s.setRequest h (.done call outcome) with
        operations := s.operations ++ List.replicate opsToApply.length h
        outbox := s.outbox ++ List.replicate opsToApply.length h }
  | rolledBack (h : H) (call : AcceptCall D P U) (opsToApply : List AiOp)
      (rejectedOps : List RejectedOp)
      (hphase : s.requests h = .applying call opsToApply rejectedOps) :
      StepCase s (.rollback h) (s.setRequest h (.done call .failed))
  | declined (p : P) (d : D) (u : U) (hauthor : s.isAuthor d u = true) :
      StepCase s (.declineProposal p d u) (s.remove p .declined)

variable {service fuzzyThreshold maxDocChars ttlSeconds}

theorem acceptProposal_turnsAway {doc : Doc} {documentId : D} {userId : U}
    {raw : Option (StagedProposal D U)} {confirm : Bool} {error : AiError}
    (h : Meridian.acceptProposal service fuzzyThreshold maxDocChars doc documentId userId raw
      confirm = .error error) : TurnsAway error := by
  unfold Meridian.acceptProposal at h
  dsimp only at h
  split at h
  · cases h
    trivial
  · split at h
    · cases h
      trivial
    · split at h
      · split at h
        · cases h
        · cases h
          trivial
      · cases h
      · cases h

theorem step_cases {s t : ProposalStore D P U H} {a : StoreAction D P U H Doc}
    (h : step service fuzzyThreshold maxDocChars ttlSeconds s a = some t) :
    StepCase ttlSeconds s a t := by
  cases a with
  | setAuthor d u isAuthor =>
    cases h
    exact .setAuthor d u isAuthor
  | tick =>
    cases h
    exact .tick
  | proposeChat p d u doc ops inScope =>
    unfold step at h
    dsimp only at h
    split at h
    · next hnew =>
      split at h
      · cases h
        exact .rejected p d u doc ops inScope
      · next proposal _ =>
        cases h
        exact .staged p d u doc ops inScope proposal hnew.2.1 hnew.2.2
    · cases h
  | get h' call =>
    unfold step at h
    dsimp only at h
    split at h
    · next hphase =>
      split at h
      · split at h
        · cases h
          exact .missing h' call hphase
        · next proposal deadline hvalue =>
          cases h
          exact .found h' call proposal deadline hphase hvalue
      · cases h
    · cases h
  | expire h' =>
    unfold step at h
    dsimp only at h
    split at h
    · next call proposal hphase =>
      cases h
      split
      · exact .foreign h' call proposal hphase
      · next howner =>
        rw [not_or, not_not, not_not] at howner
        exact .owned h' call proposal hphase howner
    · cases h
  | reconstructDocument h' doc =>
    unfold step at h
    dsimp only at h
    split at h
    · next call proposal hphase =>
      split at h
      · next result _ =>
        cases h
        exact .checked h' doc call proposal result.operations result.rejectedOps hphase
      · next error herror =>
        cases h
        exact .turnedAway h' doc call proposal error hphase (acceptProposal_turnsAway herror)
    · cases h
  | getDel h' =>
    unfold step at h
    dsimp only at h
    split at h
    · next call opsToApply rejectedOps hphase =>
      split at h
      · cases h
        exact .lost h' call opsToApply rejectedOps hphase
      · next hvalue =>
        cases h
        exact .claimed h' call opsToApply rejectedOps hphase (by simp [hvalue])
    · cases h
  | commit h' enqueued =>
    unfold step at h
    dsimp only at h
    split at h
    · next call opsToApply rejectedOps hphase =>
      cases h
      exact .committed h' enqueued call opsToApply rejectedOps _ hphase
    · cases h
  | rollback h' =>
    unfold step at h
    dsimp only at h
    split at h
    · next call opsToApply rejectedOps hphase =>
      cases h
      exact .rolledBack h' call opsToApply rejectedOps hphase
    · cases h
  | declineProposal p d u =>
    unfold step at h
    dsimp only at h
    split at h
    · next hauthor =>
      cases h
      exact .declined p d u hauthor
    · cases h

theorem StepCase.keyEffect {s t : ProposalStore D P U H} {a : StoreAction D P U H Doc}
    (h : StepCase ttlSeconds s a t) (p : P) : KeyEffect s t p := by
  cases h with
  | tick =>
    cases hexpires : s.expiresNext p with
    | false => exact .same (by simp [hexpires]) (by simp [hexpires])
    | true =>
      refine .removed .expired ?_ (by simp [hexpires]) (by simp [hexpires])
      rintro hnone
      simp [expiresNext, hnone] at hexpires
  | staged p' _ _ _ _ _ proposal hp hr =>
    by_cases hpp : p = p'
    · subst hpp
      exact .staged hp hr hr
    · exact .same (Function.update_of_ne hpp _ _) rfl
  | foreign _ call | owned _ call =>
    exact (refresh_keyEffect ttlSeconds call.proposalId p).congr rfl rfl
  | claimed h' call ops rejectedOps =>
    exact (remove_keyEffect call.proposalId (.claimed h') p).congr
      (congrFun (claim_proposals call ops rejectedOps) p)
      (congrFun (claim_removed call ops rejectedOps) p)
  | declined p' => exact remove_keyEffect p' .declined p
  | setAuthor | rejected | missing | found | checked | turnedAway | lost | committed
  | rolledBack => exact .same rfl rfl

theorem StepCase.consistent {s t : ProposalStore D P U H} {a : StoreAction D P U H Doc}
    (h : StepCase ttlSeconds s a t) (hs : Orderly s) {h' : H} {x : AcceptPhase D P U}
    (hphase : s.requests h' = x) : Consistent t h' x :=
  (hphase ▸ hs.requests h').frame h.keyEffect hs.kept

theorem Orderly.step {s t : ProposalStore D P U H} {a : StoreAction D P U H Doc} (hs : Orderly s)
    (h : StepCase ttlSeconds s a t) : Orderly t := by
  have hkey := h.keyEffect
  have hreads {h' : H} {x : AcceptPhase D P U} (hphase : s.requests h' = x) :
      Consistent t h' x := h.consistent hs hphase
  cases h with
  | setAuthor | tick | staged | declined =>
    exact hs.next hkey (fun _ => .inl rfl) (fun _ => .inl rfl) fun _ => .inl
  | rejected => exact hs
  | missing h' call hphase =>
    exact hs.next hkey (setRequest_moves rfl (.inr ⟨_, rfl, trivial⟩) (by simp [hphase]))
      (fun _ => .inl rfl) fun _ => .inl
  | found h' call proposal deadline hphase hvalue =>
    refine hs.next hkey (setRequest_moves rfl ⟨?_, fun staged hstaged => ?_⟩ (by simp [hphase]))
      (fun _ => .inl rfl) fun _ => .inl
    · exact .inl (by simp [setRequest, hvalue])
    · obtain rfl := Option.some.inj (hvalue.symm.trans hstaged)
      rfl
  | foreign h' call proposal hphase =>
    exact hs.next hkey (setRequest_moves rfl (.inr ⟨_, rfl, trivial⟩) (by simp [hphase]))
      (fun _ => .inl rfl) fun _ => .inl
  | owned h' call proposal hphase howner =>
    obtain ⟨hdrawn, hsame⟩ := hreads hphase
    exact hs.next hkey (setRequest_moves rfl
      ⟨hdrawn, fun staged hstaged => hsame staged hstaged ▸ howner⟩ (by simp [hphase]))
      (fun _ => .inl rfl) fun _ => .inl
  | checked h' doc call proposal opsToApply rejectedOps hphase =>
    have hread := hreads hphase
    exact hs.next hkey (setRequest_moves rfl hread (by simp [hphase])) (fun _ => .inl rfl)
      fun _ => .inl
  | turnedAway h' doc call proposal error hphase herror =>
    exact hs.next hkey (setRequest_moves rfl (.inr ⟨error, rfl, herror⟩) (by simp [hphase]))
      (fun _ => .inl rfl) fun _ => .inl
  | lost h' call opsToApply rejectedOps hphase =>
    exact hs.next hkey (setRequest_moves rfl (.inr ⟨_, rfl, trivial⟩) (by simp [hphase]))
      (fun _ => .inl rfl) fun _ => .inl
  | claimed h' call opsToApply rejectedOps hphase hvalue => exact hs.claim hphase hvalue hkey
  | committed h' enqueued call opsToApply rejectedOps outcome hphase =>
    have hwon := hreads hphase
    refine hs.next hkey (setRequest_moves rfl (.inl hwon) (by simp [hphase]))
      (fun _ => .inl rfl) fun h'' hmem => ?_
    have hcases : (h'' ∈ s.operations ∨ h'' ∈ s.outbox) ∨ h'' = h' := by
      simp only [List.mem_append, List.mem_replicate] at hmem
      tauto
    refine hcases.imp_right ?_
    rintro rfl
    exact ⟨call, _, setRequest_self _ _ _, hwon⟩
  | rolledBack h' call opsToApply rejectedOps hphase =>
    exact hs.next hkey (setRequest_moves rfl (.inl (hreads hphase)) (by simp [hphase]))
      (fun _ => .inl rfl) fun _ => .inl

theorem orderly_of_reachable {s : ProposalStore D P U H}
    (h : Runs.Reachable (step service fuzzyThreshold maxDocChars ttlSeconds) Initial s) :
    Orderly s := by
  refine h.invariant (fun s hinit => ?_) fun s a t hs _ hstep => hs.step (step_cases hstep)
  obtain ⟨hproposals, -, hrequests, hstarted, hoperations, houtbox⟩ := hinit
  refine ⟨fun p hp => (hp (hproposals p)).elim, fun h => ?_, fun p => .inl (hstarted p),
    fun h hmem => ?_⟩
  · rw [hrequests h]
    trivial
  · simp [hoperations, houtbox] at hmem

/-- A request that is under way can take its next step, whatever the others have done. -/
theorem step_remaining [Inhabited Doc] (s : ProposalStore D P U H) (h : H)
    (hway : (s.requests h).remaining ≠ 0) :
    ∃ (a : StoreAction D P U H Doc) (t : ProposalStore D P U H),
      step service fuzzyThreshold maxDocChars ttlSeconds s a = some t ∧
        (t.requests h).remaining < (s.requests h).remaining := by
  cases hphase : s.requests h with
  | idle | done _ _ => simp [hphase, AcceptPhase.remaining] at hway
  | expiring call proposal =>
    refine ⟨.expire h, _, by simp only [step, hphase]; rfl, ?_⟩
    rw [setRequest_self]
    split <;> simp [AcceptPhase.remaining]
  | reconstructing call proposal =>
    cases haccept : Meridian.acceptProposal service fuzzyThreshold maxDocChars default
        call.documentId call.userId (some proposal) call.confirm with
    | ok result =>
      refine ⟨.reconstructDocument h default, _, by simp only [step, hphase, haccept]; rfl, ?_⟩
      simp [AcceptPhase.remaining]
    | error error =>
      refine ⟨.reconstructDocument h default, _, by simp only [step, hphase, haccept]; rfl, ?_⟩
      simp [AcceptPhase.remaining]
  | claiming call opsToApply rejectedOps =>
    cases hvalue : s.proposals call.proposalId with
    | none =>
      refine ⟨.getDel h, _, by simp only [step, hphase, hvalue]; rfl, ?_⟩
      simp [AcceptPhase.remaining]
    | some staged =>
      refine ⟨.getDel h, _, by simp only [step, hphase, hvalue]; rfl, ?_⟩
      unfold claim
      dsimp only
      split <;> simp [setRequest, AcceptPhase.remaining]
  | applying call opsToApply rejectedOps =>
    refine ⟨.rollback h, _, by simp only [step, hphase]; rfl, ?_⟩
    simp [AcceptPhase.remaining]

/-- A proposal is applied at most once, and never after a decline or the end of its time; an
accept that does not claim it comes to an end, is turned away, and writes nothing. -/
theorem applyOps_started_once [Inhabited Doc] {s : ProposalStore D P U H}
    (h : Runs.Reachable
      (step service fuzzyThreshold maxDocChars ttlSeconds) Initial s) :
    (∀ p, (s.started p).length ≤ 1) ∧
    (∀ p, s.removed p = some .declined ∨ s.removed p = some .expired → s.started p = []) ∧
    (∀ h call outcome, s.requests h = .done call outcome →
      s.removed call.proposalId ≠ some (.claimed h) →
        (∃ error, outcome = .refused error ∧ TurnsAway error) ∧ h ∉ s.operations ∧ h ∉ s.outbox) ∧
    ∀ h, (s.requests h).remaining ≠ 0 → ∃ (a : StoreAction D P U H Doc) (t : ProposalStore D P U H),
      step service fuzzyThreshold maxDocChars ttlSeconds s a = some t ∧
        (t.requests h).remaining < (s.requests h).remaining := by
  have hs := orderly_of_reachable h
  refine ⟨fun p => ?_, fun p hp => ?_, fun h call outcome hdone hlost => ?_, step_remaining s⟩
  · rcases hs.started p with hnil | ⟨h, hone, -⟩
    · simp [hnil]
    · simp [hone]
  · refine (hs.started p).resolve_right ?_
    rintro ⟨h, -, hclaimed⟩
    rw [hclaimed] at hp
    simp at hp
  · have hrows : ¬ (h ∈ s.operations ∨ h ∈ s.outbox) := by
      intro hmem
      obtain ⟨call', outcome', hdone', hwon⟩ := hs.rows h hmem
      obtain ⟨rfl, -⟩ := AcceptPhase.done.inj (hdone.symm.trans hdone')
      exact hlost hwon
    have hout := hs.requests h
    rw [hdone] at hout
    exact ⟨hout.resolve_left hlost, not_or.mp hrows⟩

section Race

def opened : ProposalStore Bool Unit Bool Bool where
  now := 0
  isAuthor d u := d == u
  proposals _ := none
  removed _ := none
  requests _ := .idle
  started _ := []
  operations := []
  outbox := []

theorem opened_initial : Initial opened :=
  ⟨fun _ => rfl, fun _ => rfl, fun _ => rfl, fun _ => rfl, rfl, rfl⟩

def stageDelete : StoreAction Bool Unit Bool Bool JsString :=
  .proposeChat () true true (js "abc") [.delete ⟨0, 1, js "a"⟩] true

/-- Two accepts by the author take turns up to the claim. -/
def race : List (StoreAction Bool Unit Bool Bool JsString) :=
  [stageDelete, .get false ⟨true, true, (), false⟩, .get true ⟨true, true, (), false⟩,
    .expire false, .expire true, .reconstructDocument false (js "abc"),
    .reconstructDocument true (js "abc"), .getDel true, .getDel false, .commit true true]

theorem applyOps_started_once_race : ∃ s,
    Runs.exec (step textService (7 / 10) 60000 900) opened race = some s ∧
      s.started () = [true] ∧ (s.started ()).length ≤ 1 ∧ false ∉ s.operations := by
  refine ⟨_, rfl, rfl, ?_⟩
  have h := applyOps_started_once (Runs.reachable_exec opened_initial
    (show Runs.exec (step textService (7 / 10) 60000 900) opened race = _ from rfl))
  exact ⟨h.1 (), (h.2.2.1 false ⟨true, true, (), false⟩ _ rfl (by decide)).2.1⟩

end Race

def requester (s : ProposalStore D P U H) : StoreAction D P U H Doc → Option (D × U)
  | .setAuthor _ _ _ | .tick => none
  | .proposeChat _ d u _ _ _ | .declineProposal _ d u => some (d, u)
  | .get _ call => some (call.documentId, call.userId)
  | .expire h | .reconstructDocument h _ | .getDel h | .commit h _ | .rollback h =>
    (s.requests h).call?.map fun call => (call.documentId, call.userId)

variable (service fuzzyThreshold maxDocChars ttlSeconds)

/-- A staged proposal changes, or gets another time, only by a request of its author on its
document, or because its time is up. -/
def Rightful (s : ProposalStore D P U H) (a : StoreAction D P U H Doc) : Prop :=
  ∀ t ∈ step service fuzzyThreshold maxDocChars ttlSeconds s a, ∀ p,
    ∀ staged ∈ s.proposals p, t.proposals p = s.proposals p ∨
      requester s a = some (staged.1.documentId, staged.1.authorId) ∨
      (requester s a = none ∧ staged.2 ≤ t.now ∧ t.proposals p = none)

/-- No decline, and no refresh of an accept, reaches the key of a proposal that is not the
caller's own; a refresh that gives it the time it has does no harm. -/
def SparesOthers (s : ProposalStore D P U H) : StoreAction D P U H Doc → Prop
  | .expire h =>
    match s.requests h with
    | .expiring call _ => ∀ staged ∈ s.proposals call.proposalId,
      Owns call staged.1 ∨ staged.2 = s.now + ttlSeconds
    | _ => True
  | .declineProposal p d u => s.isAuthor d u = true →
    ∀ staged ∈ s.proposals p, staged.1.documentId = d ∧ staged.1.authorId = u
  | _ => True

instance (s : ProposalStore D P U H) : ∀ a : StoreAction D P U H Doc,
    Decidable (SparesOthers ttlSeconds s a)
  | .expire h =>
    match hphase : s.requests h with
    | .expiring call _ => decidable_of_iff (∀ staged ∈ s.proposals call.proposalId,
        (staged.1.documentId = call.documentId ∧ staged.1.authorId = call.userId) ∨
          staged.2 = s.now + ttlSeconds) (by simp only [SparesOthers, hphase, Owns])
    | .idle | .reconstructing _ _ | .claiming _ _ _ | .applying _ _ _ | .done _ _ =>
      isTrue (by simp only [SparesOthers, hphase])
  | .declineProposal p d u => inferInstanceAs (Decidable (s.isAuthor d u = true →
      ∀ staged ∈ s.proposals p, staged.1.documentId = d ∧ staged.1.authorId = u))
  | .setAuthor _ _ _ | .tick | .proposeChat _ _ _ _ _ _ | .get _ _ | .reconstructDocument _ _
  | .getDel _ | .commit _ _ | .rollback _ => isTrue trivial

variable {service fuzzyThreshold maxDocChars ttlSeconds}

/-- The claim of an accept needs no condition: its owner has been checked. -/
theorem rightful_of_sparesOthers {s : ProposalStore D P U H} (hs : Orderly s)
    {a : StoreAction D P U H Doc} (hspares : SparesOthers ttlSeconds s a) :
    Rightful service fuzzyThreshold maxDocChars ttlSeconds s a := by
  intro t ht p staged hstaged
  have hexpire {h : H} {call : AcceptCall D P U} {proposal : StagedProposal D U}
      (ha : a = .expire h) (hphase : s.requests h = .expiring call proposal) :
      (refresh ttlSeconds s call.proposalId).proposals p = s.proposals p ∨
        requester s a = some (staged.1.documentId, staged.1.authorId) := by
    subst ha
    by_cases hp : p = call.proposalId
    · subst hp
      simp only [SparesOthers, hphase] at hspares
      rcases hspares staged hstaged with howner | htime
      · exact .inr (by simp [requester, hphase, AcceptPhase.call?, howner.1, howner.2])
      · refine .inl ?_
        simp only [refresh, Function.update_self]
        rw [hstaged, Option.map_some, ← htime]
    · exact .inl (Function.update_of_ne hp _ _)
  cases step_cases ht with
  | setAuthor | rejected | missing | found | checked | turnedAway | lost | committed
  | rolledBack => exact .inl rfl
  | tick =>
    cases hexpires : s.expiresNext p with
    | false => exact .inl (by simp [hexpires])
    | true =>
      refine .inr (.inr ⟨rfl, ?_, by simp [hexpires]⟩)
      rw [expiresNext, hstaged] at hexpires
      exact of_decide_eq_true hexpires
  | staged p' _ _ _ _ _ proposal hp =>
    refine .inl (Function.update_of_ne ?_ _ _)
    rintro rfl
    rw [hp] at hstaged
    cases hstaged
  | foreign h call proposal hphase | owned h call proposal hphase =>
    exact (hexpire rfl hphase).imp_right .inl
  | claimed h call ops rejectedOps hphase =>
    by_cases hp : p = call.proposalId
    · subst hp
      obtain ⟨-, howner⟩ : Consistent s h (.claiming call ops rejectedOps) := hphase ▸ hs.requests h
      obtain ⟨hd, hu⟩ := howner staged hstaged
      exact .inr (.inl (by simp [requester, hphase, AcceptPhase.call?, hd, hu]))
    · rw [claim_proposals]
      exact .inl (Function.update_of_ne hp _ _)
  | declined p' d u hauthor =>
    by_cases hp : p = p'
    · subst hp
      obtain ⟨hd, hu⟩ := hspares hauthor staged hstaged
      exact .inr (.inl (by simp [requester, hd, hu]))
    · exact .inl (Function.update_of_ne hp _ _)

theorem sparesOthers_of_rightful {s : ProposalStore D P U H} {a : StoreAction D P U H Doc}
    (hrightful : Rightful service fuzzyThreshold maxDocChars ttlSeconds s a) :
    SparesOthers ttlSeconds s a := by
  cases a with
  | expire h =>
    unfold SparesOthers
    dsimp only
    split
    · next call proposal hphase =>
      intro staged hstaged
      rcases hrightful _ (by simp only [step, hphase]; rfl) call.proposalId staged hstaged with
        hsame | howner | ⟨hnone, -⟩
      · simp only [setRequest, refresh, Function.update_self] at hsame
        rw [hstaged] at hsame
        exact .inr (congrArg Prod.snd (Option.some.inj hsame)).symm
      · simp only [requester, hphase, AcceptPhase.call?, Option.map_some, Option.some.injEq,
          Prod.mk.injEq] at howner
        exact .inl ⟨howner.1.symm, howner.2.symm⟩
      · simp [requester, hphase, AcceptPhase.call?] at hnone
    · trivial
  | declineProposal p d u =>
    intro hauthor staged hstaged
    rcases hrightful _ (by simp only [step, hauthor, if_true]; rfl) p staged hstaged with
      hsame | howner | ⟨hnone, -⟩
    · rw [hstaged] at hsame
      simp [remove] at hsame
    · obtain ⟨hd, hu⟩ := Prod.mk.inj (Option.some.inj howner)
      exact ⟨hd.symm, hu.symm⟩
    · cases hnone
  | setAuthor _ _ _ | tick | proposeChat _ _ _ _ _ _ | get _ _ | reconstructDocument _ _
  | getDel _ | commit _ _ | rollback _ => trivial

/-- Staged proposals change only by the right of their authors, in exactly the runs in which
no decline and no refresh reaches the proposal of another. -/
theorem rightful_run_iff {s : ProposalStore D P U H} (h : Initial s)
    (as : List (StoreAction D P U H Doc)) :
    Runs.Follows (step service fuzzyThreshold maxDocChars ttlSeconds)
        (Rightful service fuzzyThreshold maxDocChars ttlSeconds) s as ↔
      Runs.Follows (step service fuzzyThreshold maxDocChars ttlSeconds)
        (SparesOthers ttlSeconds) s as :=
  Runs.Reachable.follows_congr (.start h)
    (fun _ _ hreach => ⟨sparesOthers_of_rightful,
      rightful_of_sparesOthers (orderly_of_reachable hreach)⟩) as

theorem rightful_run_race :
    Runs.Follows (step textService (7 / 10) 60000 900)
      (Rightful textService (7 / 10) 60000 900) opened race :=
  (rightful_run_iff opened_initial race).mpr (by decide)

/-- An author declines the proposal of another, under a document of their own. -/
theorem rightful_run_fails : ¬ ∀ as,
    Runs.Follows (step textService (7 / 10) 60000 900)
      (Rightful textService (7 / 10) 60000 900) opened as := by
  intro h
  have hdecline := (h [stageDelete, .declineProposal () false false]).2 _ rfl
  rcases hdecline.1 _ rfl () _ rfl with hsame | howner | ⟨hnone, -⟩
  · cases hsame
  · exact absurd howner (by decide)
  · cases hnone

end Steps

end ProposalStore

end Meridian
