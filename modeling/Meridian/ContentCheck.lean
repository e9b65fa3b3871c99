import Meridian.AiOperations

/-! The content check: every operation is looked up in the current text, inserts by their
anchor and ranges by the text they expect, exactly or up to white space; what is not found
is rejected, and what is nearly found stops the whole check. -/
namespace Meridian

structure Match where
  start : ℕ
  stop : ℕ
  deriving DecidableEq

/-- White space of any kind stands for a blank. No white space lies outside the basic
plane, so this works on code units as it does on characters. -/
def normalizeAnchorChar (c : CodeUnit) : CodeUnit := if isSpace c then 0x20 else c

def normalizeAnchorText (text : JsString) : JsString := text.map normalizeAnchorChar

@[simp] theorem normalizeAnchorText_length (text : JsString) :
    (normalizeAnchorText text).length = text.length := List.length_map _

def distance (preferredStart : ℤ) (index : ℕ) : ℕ := (index - preferredStart).natAbs

def closer (preferredStart : ℤ) (best : Option ℕ) (index : ℕ) : Option ℕ :=
  match best with
  | none => some index
  | some b => if distance preferredStart index < distance preferredStart b then some index else best

def nearestLoop (text needle : JsString) (preferredStart : ℤ) :
    ℕ → ℕ → Option ℕ → Option ℕ
  | 0, _, best => best
  | fuel + 1, start, best =>
    match indexOf text needle start with
    | none => best
    | some index => nearestLoop text needle preferredStart fuel (index + 1)
        (closer preferredStart best index)

/-- The inner loop from one start: as many characters as the needle has, or all there are. -/
def normalizedFrom (text needle : JsString) (start : ℕ) : JsString :=
  normalizeAnchorText ((text.drop start).take needle.length)

def findNearestWhitespaceInsensitiveText (text needle : JsString) (preferredStart : ℤ) :
    Option Match :=
  if needle = [] then none
  else
    let starts := (List.range text.length).filter fun start =>
      normalizedFrom text needle start = normalizeAnchorText needle
    (starts.foldl (closer preferredStart) none).map fun start => ⟨start, start + needle.length⟩

/-- `findNearestExactText`. Every round of its loop moves the offset on, so the length of
the text bounds the rounds. -/
def findNearestExactText (text needle : JsString) (preferredStart : ℤ) : Option Match :=
  match nearestLoop text needle preferredStart (text.length + 1) 0 none with
  | some index => some ⟨index, index + needle.length⟩
  | none => findNearestWhitespaceInsensitiveText text needle preferredStart

theorem foldl_closer (preferredStart : ℤ) (l : List ℕ) :
    l.foldl (closer preferredStart) none = l.argmin (distance preferredStart) := by
  have hstep : closer preferredStart =
      List.argAux fun b c => distance preferredStart b < distance preferredStart c := by
    funext best index
    cases best <;> rfl
  rw [hstep]
  rfl

theorem filter_occursAt_of_indexOf {text needle : JsString} {start index : ℕ}
    (h : indexOf text needle start = some index) :
    (List.range' start (text.length + 1 - start)).filter (occursAt text needle) =
      index :: (List.range' (index + 1) (text.length + 1 - (index + 1))).filter
        (occursAt text needle) := by
  obtain ⟨hocc, hstart, hle, hfirst⟩ := indexOf_some h
  have hsplit : List.range' start (text.length + 1 - start) =
      List.range' start (index - start) ++
        index :: List.range' (index + 1) (text.length + 1 - (index + 1)) := by
    have hcons : index :: List.range' (index + 1) (text.length + 1 - (index + 1)) =
        List.range' index (text.length + 1 - index) := by
      rw [show text.length + 1 - index = text.length + 1 - (index + 1) + 1 by omega,
        List.range'_succ]
    rw [hcons, show text.length + 1 - start = index - start + (text.length + 1 - index) by omega]
    have := @List.range'_append_1 start (index - start) (text.length + 1 - index)
    rw [show start + (index - start) = index by omega] at this
    exact this.symm
  have hnil : (List.range' start (index - start)).filter (occursAt text needle) = [] := by
    refine List.filter_eq_nil_iff.mpr fun k hk => ?_
    obtain ⟨hk, hki⟩ := List.mem_range'_1.mp hk
    simp [hfirst k hk (by omega)]
  rw [hsplit, List.filter_append, hnil, List.filter_cons_of_pos hocc, List.nil_append]

theorem nearestLoop_eq (text needle : JsString) (preferredStart : ℤ) {fuel start : ℕ}
    (best : Option ℕ) (h : text.length + 1 - start ≤ fuel) :
    nearestLoop text needle preferredStart fuel start best =
      ((List.range' start (text.length + 1 - start)).filter (occursAt text needle)).foldl
        (closer preferredStart) best := by
  induction fuel generalizing start best with
  | zero =>
    rw [show text.length + 1 - start = 0 by omega]
    rfl
  | succ fuel ih =>
    unfold nearestLoop
    split
    · next hnone =>
      have hnil : (List.range' start (text.length + 1 - start)).filter (occursAt text needle) =
          [] := by
        refine List.filter_eq_nil_iff.mpr fun k hk => ?_
        obtain ⟨hk, hkn⟩ := List.mem_range'_1.mp hk
        simp [indexOf_none hnone hk (by omega)]
      rw [hnil]
      rfl
    · next index hsome =>
      obtain ⟨-, hstart, hle, -⟩ := indexOf_some hsome
      rw [ih _ (by omega), filter_occursAt_of_indexOf hsome, List.foldl_cons]

/-- Where a needle may be matched: at its exact occurrences, or, when there are none, at
those up to white space. -/
def candidates (text needle : JsString) : List ℕ :=
  let exactMatches := (List.range (text.length + 1)).filter (occursAt text needle)
  if exactMatches = [] then
    (List.range text.length).filter fun start =>
      needle ≠ [] ∧ normalizedFrom text needle start = normalizeAnchorText needle
  else exactMatches

/-- The search finds the closest candidate, the leftmost of two equally close ones. -/
theorem findNearestExactText_eq (text needle : JsString) (preferredStart : ℤ) :
    findNearestExactText text needle preferredStart =
      ((candidates text needle).argmin (distance preferredStart)).map
        fun start => ⟨start, start + needle.length⟩ := by
  have hloop : nearestLoop text needle preferredStart (text.length + 1) 0 none = _ :=
    nearestLoop_eq text needle preferredStart none le_rfl
  rw [Nat.sub_zero, ← List.range_eq_range', foldl_closer] at hloop
  unfold findNearestExactText candidates
  rw [hloop]
  split
  · next index hsome =>
    have hne : (List.range (text.length + 1)).filter (occursAt text needle) ≠ [] := by
      intro hnil
      rw [hnil] at hsome
      cases hsome
    simp only [if_neg hne, hsome, Option.map_some]
  · next hnone =>
    rw [List.argmin_eq_none] at hnone
    simp only [hnone, if_true]
    unfold findNearestWhitespaceInsensitiveText
    split
    · next hempty => simp [hempty]
    · next hne => simp only [hne, foldl_closer, ne_eq, not_false_iff, true_and]

theorem mem_candidates {text needle : JsString} {start : ℕ} (h : start ∈ candidates text needle) :
    start + needle.length ≤ text.length ∧
      normalizedFrom text needle start = normalizeAnchorText needle := by
  have hbound : start ≤ text.length →
      normalizedFrom text needle start = normalizeAnchorText needle →
        start + needle.length ≤ text.length := by
    intro hle heq
    have := congrArg List.length heq
    simp only [normalizedFrom, normalizeAnchorText_length, List.length_take,
      List.length_drop] at this
    omega
  unfold candidates at h
  dsimp only at h
  split at h
  · obtain ⟨hlt, hmatch⟩ := List.mem_filter.mp h
    have heq := (of_decide_eq_true hmatch).2
    exact ⟨hbound (List.mem_range.mp hlt).le heq, heq⟩
  · obtain ⟨hlt, hocc⟩ := List.mem_filter.mp h
    have heq : normalizedFrom text needle start = normalizeAnchorText needle := by
      rw [normalizedFrom, occursAt_iff.mp hocc]
    exact ⟨hbound (by have := List.mem_range.mp hlt; omega) heq, heq⟩

theorem findNearestExactText_spec {text needle : JsString} {preferredStart : ℤ} {m : Match}
    (h : findNearestExactText text needle preferredStart = some m) :
    m.start + needle.length = m.stop ∧ m.stop ≤ text.length ∧
      normalizedFrom text needle m.start = normalizeAnchorText needle := by
  rw [findNearestExactText_eq] at h
  obtain ⟨start, hstart, rfl⟩ := Option.map_eq_some_iff.mp h
  exact ⟨rfl, mem_candidates (List.argmin_mem hstart)⟩

section Similarity

/-- The rest of one row of the distance table: `left` is the entry before it, `above` the
previous row from the entry diagonal to the next one on. -/
def levenshteinRow (c : CodeUnit) : ℕ → JsString → List ℕ → List ℕ
  | left, d :: b, diagonal :: up :: above =>
    let entry := if c = d then diagonal else 1 + min up (min left diagonal)
    entry :: levenshteinRow c entry b (up :: above)
  | _, _, _ => []

def levenshteinRows (b : JsString) : ℕ → JsString → List ℕ → List ℕ
  | _, [], row => row
  | i, c :: a, row => levenshteinRows b (i + 1) a ((i + 1) :: levenshteinRow c (i + 1) b row)

def levenshtein (a b : JsString) : ℕ :=
  (levenshteinRows b 0 a (List.range (b.length + 1))).getLastD 0

def similarity (a b : JsString) : ℚ :=
  if a = b then 1
  else
    let maxLen := max a.length b.length
    if maxLen = 0 then 1 else 1 - levenshtein (trim a) (trim b) / maxLen

end Similarity

structure RejectedOp where
  index : ℕ
  reason : JsString

/-- The outcome of the content check; `partialMatch` is the source's `partial`. -/
inductive ContentCheckResult
  | allExact (validOps : List AiOp)
  | fuzzyMatch (operationIndex : ℕ) (expectedText actualText : JsString)
  | partialMatch (validOps : List AiOp) (rejectedOps : List RejectedOp)

def ContentCheckResult.outcome? : ContentCheckResult → Option (List AiOp × List RejectedOp)
  | .allExact validOps => some (validOps, [])
  | .fuzzyMatch _ _ _ => none
  | .partialMatch validOps rejectedOps => some (validOps, rejectedOps)

inductive OpCheck
  | valid (op : AiOp) (relocatedRanges : ℤ → Option ℤ)
  | rejected (reason : JsString)
  | fuzzy (expectedText actualText : JsString)

/-- An insert goes next to its anchor, or else where its position has been relocated to. -/
def checkInsert (currentText : JsString) (relocatedRanges : ℤ → Option ℤ) (position : ℤ)
    (text : JsString) : Option Anchor → OpCheck
  | some anchor =>
    match findNearestExactText currentText anchor.text position with
    | none => .rejected
        (js "Check 2 failed: insert anchor text not found (document may have changed)")
    | some m =>
      let resolved : ℕ := if anchor.position = .before then m.start else m.stop
      .valid (.insert resolved text (some anchor)) relocatedRanges
  | none =>
    .valid (.insert ((relocatedRanges position).getD position) text none) relocatedRanges

/-- A range stays where its expected text is, or moves to the nearest place that has it. -/
def checkRange (fuzzyThreshold : ℚ) (currentText : JsString) (relocatedRanges : ℤ → Option ℤ)
    (op : AiOp) (range : TextRange) : OpCheck :=
  let actualText := slice currentText range.start range.stop
  if range.expectedText = actualText then
    .valid op (Function.update relocatedRanges range.start (some range.start))
  else
    match findNearestExactText currentText range.expectedText range.start with
    | some m =>
      .valid (op.moveTo m.start m.stop)
        (Function.update relocatedRanges range.start (some m.start))
    | none =>
      if fuzzyThreshold ≤ similarity range.expectedText actualText then
        .fuzzy range.expectedText actualText
      else
        .rejected (js ("Check 2 failed: referenced text not found at positions " ++
          toString range.start ++ "-" ++ toString range.stop ++ " (document may have changed)"))

def checkOp (fuzzyThreshold : ℚ) (currentText : JsString) (relocatedRanges : ℤ → Option ℤ) :
    AiOp → OpCheck
  | .insert position text anchor => checkInsert currentText relocatedRanges position text anchor
  | .delete range => checkRange fuzzyThreshold currentText relocatedRanges (.delete range) range
  | .format range attributes =>
    checkRange fuzzyThreshold currentText relocatedRanges (.format range attributes) range

def checkLoop (fuzzyThreshold : ℚ) (currentText : JsString) :
    ℕ → List AiOp → (ℤ → Option ℤ) → List AiOp → List RejectedOp → ContentCheckResult
  | _, [], _, validOps, rejectedOps =>
    if rejectedOps.isEmpty then .allExact validOps else .partialMatch validOps rejectedOps
  | i, op :: ops, relocatedRanges, validOps, rejectedOps =>
    match checkOp fuzzyThreshold currentText relocatedRanges op with
    | .valid op' relocatedRanges' =>
      checkLoop fuzzyThreshold currentText (i + 1) ops relocatedRanges' (validOps ++ [op'])
        rejectedOps
    | .rejected reason =>
      checkLoop fuzzyThreshold currentText (i + 1) ops relocatedRanges validOps
        (rejectedOps ++ [⟨i, reason⟩])
    | .fuzzy expectedText actualText => .fuzzyMatch i expectedText actualText

def checkContentExistence (fuzzyThreshold : ℚ) (ops : List AiOp) (currentText : JsString) :
    ContentCheckResult :=
  checkLoop fuzzyThreshold currentText 0 ops (fun _ => none) [] []

/-- Every operation, from an index on, is either kept, in order, or rejected under its own
index: `kept` relates it to the valid operation it became, `dropped` holds of the others. -/
inductive Accounted (kept : AiOp → AiOp → Prop) (dropped : AiOp → Prop) :
    ℕ → List AiOp → List AiOp → List RejectedOp → Prop
  | nil (i : ℕ) : Accounted kept dropped i [] [] []
  | keep {i : ℕ} {op op' : AiOp} {ops validOps : List AiOp} {rejectedOps : List RejectedOp}
      (h : kept op op') (rest : Accounted kept dropped (i + 1) ops validOps rejectedOps) :
      Accounted kept dropped i (op :: ops) (op' :: validOps) rejectedOps
  | reject {i : ℕ} {op : AiOp} {ops validOps : List AiOp} {rejectedOps : List RejectedOp}
      (reason : JsString) (h : dropped op)
      (rest : Accounted kept dropped (i + 1) ops validOps rejectedOps) :
      Accounted kept dropped i (op :: ops) validOps (⟨i, reason⟩ :: rejectedOps)

def ExactAt (currentText : JsString) (op : AiOp) : Prop :=
  ∀ range ∈ op.range?, slice currentText range.start range.stop = range.expectedText

/-- What becomes of a valid operation: only its place changes, and a range moves only when
its text is not where it says, to a place where it is. -/
structure Resolved (currentText : JsString) (op op' : AiOp) : Prop where
  moved : ∃ start stop, op' = op.moveTo start stop
  stays : op.isInsert = false → ExactAt currentText op → op' = op
  found : ¬ ExactAt currentText op → ∃ range ∈ op.range?, ∃ m,
    findNearestExactText currentText range.expectedText range.start = some m ∧
      op' = op.moveTo m.start m.stop
  anchored : ∀ position text anchor, op = .insert position text (some anchor) → ∃ m,
    findNearestExactText currentText anchor.text position = some m ∧
      op' = .insert (if anchor.position = .before then m.start else m.stop : ℕ) text (some anchor)

theorem checkRange_resolved {fuzzyThreshold : ℚ} {currentText : JsString}
    {ranges ranges' : ℤ → Option ℤ} {op op' : AiOp} {range : TextRange}
    (hr : op.range? = some range)
    (h : checkRange fuzzyThreshold currentText ranges op range = .valid op' ranges') :
    Resolved currentText op op' := by
  have hself : op.moveTo range.start range.stop = op := by
    cases op <;> simp_all [AiOp.moveTo, AiOp.range?]
  have hexact : ExactAt currentText op ↔
      range.expectedText = slice currentText range.start range.stop := by
    simp [ExactAt, hr, eq_comm]
  have hinsert : ∀ position text anchor, op ≠ .insert position text anchor := by
    rintro position text anchor rfl
    cases hr
  unfold checkRange at h
  dsimp only at h
  split at h
  · next heq =>
    cases h
    exact ⟨⟨_, _, hself.symm⟩, fun _ _ => rfl, fun hn => (hn (hexact.mpr heq)).elim,
      fun _ _ _ hi => (hinsert _ _ _ hi).elim⟩
  · next hne =>
    split at h
    · next m hm =>
      cases h
      exact ⟨⟨_, _, rfl⟩, fun _ he => (hne (hexact.mp he)).elim, fun _ => ⟨range, hr, m, hm, rfl⟩,
        fun _ _ _ hi => (hinsert _ _ _ hi).elim⟩
    · split at h <;> cases h

theorem checkRange_rejected {fuzzyThreshold : ℚ} {currentText : JsString}
    {ranges : ℤ → Option ℤ} {op : AiOp} {range : TextRange} {reason : JsString}
    (hr : op.range? = some range)
    (h : checkRange fuzzyThreshold currentText ranges op range = .rejected reason) :
    ¬ ExactAt currentText op := by
  unfold checkRange at h
  dsimp only at h
  split at h
  · cases h
  · next hne => exact fun he => hne (he range hr).symm

theorem checkOp_resolved {fuzzyThreshold : ℚ} {currentText : JsString}
    {ranges ranges' : ℤ → Option ℤ} {op op' : AiOp}
    (h : checkOp fuzzyThreshold currentText ranges op = .valid op' ranges') :
    Resolved currentText op op' := by
  cases op with
  | insert position text anchor =>
    have hexact : ExactAt currentText (.insert position text anchor) := by
      simp [ExactAt, AiOp.range?]
    have hvalid : (∃ start, op' = .insert start text anchor) ∧ ∀ a, anchor = some a → ∃ m,
        findNearestExactText currentText a.text position = some m ∧
          op' = .insert (if a.position = .before then m.start else m.stop : ℕ) text (some a) := by
      cases anchor with
      | none =>
        cases h
        exact ⟨⟨_, rfl⟩, by simp⟩
      | some a =>
        simp only [checkOp, checkInsert] at h
        split at h
        · cases h
        · next m hm =>
          cases h
          refine ⟨⟨_, rfl⟩, fun a' ha' => ?_⟩
          obtain rfl := Option.some.inj ha'
          exact ⟨m, hm, rfl⟩
    obtain ⟨⟨start, rfl⟩, hanchor⟩ := hvalid
    refine ⟨⟨start, start, rfl⟩, fun hi _ => (by cases hi), fun hn => (hn hexact).elim, ?_⟩
    intro position' text' anchor' heq
    obtain ⟨rfl, rfl, rfl⟩ := AiOp.insert.inj heq
    exact hanchor anchor' rfl
  | delete range => exact checkRange_resolved rfl h
  | format range attributes => exact checkRange_resolved rfl h

theorem checkOp_rejected {fuzzyThreshold : ℚ} {currentText : JsString} {ranges : ℤ → Option ℤ}
    {op : AiOp} {reason : JsString}
    (h : checkOp fuzzyThreshold currentText ranges op = .rejected reason) :
    op.isInsert = true ∨ ¬ ExactAt currentText op := by
  cases op with
  | insert position text anchor => exact .inl rfl
  | delete range => exact .inr (checkRange_rejected rfl h)
  | format range attributes => exact .inr (checkRange_rejected rfl h)

theorem checkLoop_accounted {fuzzyThreshold : ℚ} {currentText : JsString} {i : ℕ}
    {ops validOps valid : List AiOp} {rejectedOps rejected : List RejectedOp}
    {ranges : ℤ → Option ℤ}
    (h : (checkLoop fuzzyThreshold currentText i ops ranges valid rejected).outcome? =
      some (validOps, rejectedOps)) :
    ∃ moreValid moreRejected, validOps = valid ++ moreValid ∧
      rejectedOps = rejected ++ moreRejected ∧
      Accounted (Resolved currentText) (fun op => op.isInsert = true ∨ ¬ ExactAt currentText op)
        i ops moreValid moreRejected := by
  induction ops generalizing i ranges valid rejected with
  | nil =>
    refine ⟨[], [], ?_⟩
    unfold checkLoop at h
    split at h
    · next hempty =>
      cases h
      simp [List.isEmpty_iff.mp hempty, Accounted.nil]
    · cases h
      simp [Accounted.nil]
  | cons op ops ih =>
    unfold checkLoop at h
    split at h
    · next op' ranges' hop =>
      obtain ⟨v, r, hv, hr, hacc⟩ := ih h
      exact ⟨op' :: v, r, by simp [hv], hr, .keep (checkOp_resolved hop) hacc⟩
    · next reason hop =>
      obtain ⟨v, r, hv, hr, hacc⟩ := ih h
      exact ⟨v, ⟨i, reason⟩ :: r, hv, by simp [hr], .reject reason (checkOp_rejected hop) hacc⟩
    · cases h

theorem checkContentExistence_accounted {fuzzyThreshold : ℚ} {currentText : JsString}
    {ops validOps : List AiOp} {rejectedOps : List RejectedOp}
    (h : (checkContentExistence fuzzyThreshold ops currentText).outcome? =
      some (validOps, rejectedOps)) :
    Accounted (Resolved currentText) (fun op => op.isInsert = true ∨ ¬ ExactAt currentText op)
      0 ops validOps rejectedOps := by
  obtain ⟨v, r, hv, hr, hacc⟩ := checkLoop_accounted h
  simpa [hv, hr] using hacc

theorem Accounted.mono {kept kept' : AiOp → AiOp → Prop} {dropped dropped' : AiOp → Prop} {i : ℕ}
    {ops validOps : List AiOp} {rejectedOps : List RejectedOp}
    (hk : ∀ op op', kept op op' → kept' op op') (hd : ∀ op, dropped op → dropped' op)
    (h : Accounted kept dropped i ops validOps rejectedOps) :
    Accounted kept' dropped' i ops validOps rejectedOps := by
  induction h with
  | nil i => exact .nil i
  | keep h _ ih => exact .keep (hk _ _ h) ih
  | reject reason h _ ih => exact .reject reason (hd _ h) ih

theorem Accounted.source {kept : AiOp → AiOp → Prop} {dropped : AiOp → Prop} {i : ℕ}
    {ops validOps : List AiOp} {rejectedOps : List RejectedOp}
    (h : Accounted kept dropped i ops validOps rejectedOps) :
    ∀ op' ∈ validOps, ∃ op ∈ ops, kept op op' := by
  induction h with
  | nil i => simp
  | @keep i op op' _ _ _ h _ ih =>
    intro x hx
    rcases List.mem_cons.mp hx with rfl | hx
    · exact ⟨op, List.mem_cons_self, h⟩
    · obtain ⟨y, hy, hk⟩ := ih x hx
      exact ⟨y, List.mem_cons_of_mem _ hy, hk⟩
  | reject _ _ _ ih =>
    intro x hx
    obtain ⟨y, hy, hk⟩ := ih x hx
    exact ⟨y, List.mem_cons_of_mem _ hy, hk⟩

theorem Accounted.target {kept : AiOp → AiOp → Prop} {dropped : AiOp → Prop} {i : ℕ}
    {ops validOps : List AiOp} {rejectedOps : List RejectedOp}
    (h : Accounted kept dropped i ops validOps rejectedOps) :
    ∀ op ∈ ops, dropped op ∨ ∃ op' ∈ validOps, kept op op' := by
  induction h with
  | nil i => simp
  | @keep i op op' _ _ _ h _ ih =>
    intro x hx
    rcases List.mem_cons.mp hx with rfl | hx
    · exact .inr ⟨op', List.mem_cons_self, h⟩
    · exact (ih x hx).imp_right fun ⟨y, hy, hk⟩ => ⟨y, List.mem_cons_of_mem _ hy, hk⟩
  | reject _ h _ ih =>
    intro x hx
    rcases List.mem_cons.mp hx with rfl | hx
    · exact .inl h
    · exact ih x hx

/-- Nothing but the place of an operation has changed. -/
def SameEdit (op op' : AiOp) : Prop := ∃ start stop, op' = op.moveTo start stop

/-- A range of the text that holds the text it expects, up to white space. -/
structure InText (currentText : JsString) (range : TextRange) : Prop where
  start_nonneg : 0 ≤ range.start
  start_lt_stop : range.start < range.stop
  stop_le : range.stop ≤ currentText.length
  text : normalizeAnchorText (slice currentText range.start range.stop) =
    normalizeAnchorText range.expectedText

theorem moveTo_range {op : AiOp} {range : TextRange} {start stop : ℤ}
    (h : op.range? = some range) :
    (op.moveTo start stop).range? = some { range with start := start, stop := stop } := by
  cases op <;> simp_all [AiOp.moveTo, AiOp.range?]

/-- A range that is moved to a match lies in the text, over the text it expects. -/
theorem inText_of_match {currentText : JsString} {range : TextRange} {m : Match}
    (hne : range.expectedText ≠ [])
    (h : findNearestExactText currentText range.expectedText range.start = some m) :
    InText currentText { range with start := m.start, stop := m.stop } := by
  obtain ⟨hlen, hle, htext⟩ := findNearestExactText_spec h
  have hpos := List.length_pos_iff.mpr hne
  refine ⟨by simp, by simp; omega, by simpa using hle, ?_⟩
  rw [slice_natCast _ hle (by omega), ← htext, normalizedFrom, ← hlen, Nat.add_sub_cancel_left]

/-- The check accounts for every operation of an accepted list; and its valid ranges all
lie in the text over what they expect, exactly when no range of the list reads its
expected text through offsets outside the text. -/
theorem checkContentExistence_sound_iff (fuzzyThreshold : ℚ) (currentText : JsString) {json : Json}
    {ops validOps : List AiOp} {rejectedOps : List RejectedOp}
    (hops : validateOperations json = .ok ops)
    (h : (checkContentExistence fuzzyThreshold ops currentText).outcome? =
      some (validOps, rejectedOps)) :
    (Accounted SameEdit (fun _ => True) 0 ops validOps rejectedOps ∧
      ∀ op ∈ validOps, ∀ range ∈ op.range?, InText currentText range) ↔
    ∀ op ∈ ops, ∀ range ∈ op.range?,
      slice currentText range.start range.stop = range.expectedText →
        0 ≤ range.start ∧ range.stop ≤ currentText.length := by
  have hacc := checkContentExistence_accounted h
  have hvalid : ∀ op ∈ ops, ∀ range ∈ op.range?,
      range.start < range.stop ∧ range.expectedText ≠ [] :=
    fun op hop range hrange => (validateOperations_valid hops op hop).range hrange
  constructor
  · rintro ⟨-, hall⟩ op hop range hrange hexact
    have hat : ExactAt currentText op := fun r hr => by
      obtain rfl := Option.some.inj (hr.symm.trans hrange)
      exact hexact
    have hkind : op.isInsert = false := by cases op <;> simp_all [AiOp.range?, AiOp.isInsert]
    rcases hacc.target op hop with hdropped | ⟨op', hop', hres⟩
    · simp [hkind, hat] at hdropped
    · obtain rfl := hres.stays hkind hat
      have := hall _ hop' range hrange
      exact ⟨this.start_nonneg, this.stop_le⟩
  · intro hbounds
    refine ⟨hacc.mono (fun _ _ hr => hr.moved) (fun _ _ => trivial),
      fun op' hop' range' hrange' => ?_⟩
    obtain ⟨op, hop, hres⟩ := hacc.source op' hop'
    by_cases hat : ExactAt currentText op
    · cases hkind : op.isInsert with
      | true =>
        obtain ⟨start, stop, rfl⟩ := hres.moved
        cases op <;> simp_all [AiOp.isInsert, AiOp.moveTo, AiOp.range?]
      | false =>
        obtain rfl := hres.stays hkind hat
        have hexact := hat range' hrange'
        obtain ⟨hstart, hstop⟩ := hbounds _ hop range' hrange' hexact
        exact ⟨hstart, (hvalid _ hop range' hrange').1, hstop, by rw [hexact]⟩
    · obtain ⟨range, hrange, m, hm, rfl⟩ := hres.found hat
      rw [moveTo_range hrange] at hrange'
      obtain rfl := Option.some.inj hrange'
      exact inText_of_match (hvalid op hop range hrange).2 hm

def misplaced : Json :=
  .arr [.obj [(js "type", .str (js "delete")), (js "start", .num 0), (js "end", .num 2),
      (js "expected_text", .str (js "cd"))],
    .obj [(js "type", .str (js "insert")), (js "position", .num 1), (js "text", .str (js "!")),
      (js "anchor_text", .str (js "x"))]]

theorem checkContentExistence_misplaced :
    Accounted SameEdit (fun _ => True) 0
      [.delete ⟨0, 2, js "cd"⟩, .insert 1 (js "!") (some ⟨js "x", .after⟩)]
      [.delete ⟨2, 4, js "cd"⟩]
      [⟨1, js "Check 2 failed: insert anchor text not found (document may have changed)"⟩] ∧
    ∀ op ∈ [AiOp.delete ⟨2, 4, js "cd"⟩], ∀ range ∈ op.range?, InText (js "abcdef") range :=
  (checkContentExistence_sound_iff (7 / 10) (js "abcdef")
    (show validateOperations misplaced = _ from rfl) rfl).mpr (by decide)

/-- A delete whose ends count from the end of the text, as `slice` reads them. -/
def deleteFromTheEnd : Json :=
  .arr [.obj [(js "type", .str (js "delete")), (js "start", .num (-3)), (js "end", .num (-1)),
    (js "expected_text", .str (js "de"))]]

theorem checkContentExistence_deleteFromTheEnd : ¬ ∀ ops validOps rejectedOps,
    validateOperations deleteFromTheEnd = .ok ops →
    (checkContentExistence (7 / 10) ops (js "abcdef")).outcome? = some (validOps, rejectedOps) →
    Accounted SameEdit (fun _ => True) 0 ops validOps rejectedOps ∧
      ∀ op ∈ validOps, ∀ range ∈ op.range?, InText (js "abcdef") range := by
  intro h
  have hvalid := (h [.delete ⟨-3, -1, js "de"⟩] [.delete ⟨-3, -1, js "de"⟩] [] rfl rfl).2
  exact absurd (hvalid _ List.mem_cons_self ⟨-3, -1, js "de"⟩ rfl).start_nonneg (by decide)

end Meridian
