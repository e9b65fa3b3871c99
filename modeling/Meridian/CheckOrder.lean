import Meridian.ContentCheck

/-! The content check and the order of the list. Only an insert without an anchor depends on
what stands before it: it follows the range that has last been found at its position. So the
order matters exactly when such an insert shares its position with a range that is found
somewhere else. -/
namespace Meridian

/-- The verdicts on the operations from an index on: an index is rejected, or it is that of the
next valid operation. -/
def readVerdicts : ℕ → ℕ → List AiOp → List RejectedOp → List (Option AiOp)
  | 0, _, _, _ => []
  | n + 1, i, validOps, rejectedOps =>
    if rejectedOps.any fun r => r.index = i then none :: readVerdicts n (i + 1) validOps rejectedOps
    else validOps.head? :: readVerdicts n (i + 1) validOps.tail rejectedOps

/-- What the result says of each operation of a list of this length; nothing after a fuzzy
match. -/
def ContentCheckResult.verdicts (result : ContentCheckResult) (n : ℕ) : List (Option AiOp) :=
  (result.outcome?.map fun found => readVerdicts n 0 found.1 found.2).getD []

/-- The list in another order: what stands at an index, by the index it had. -/
def permuted (ops : List AiOp) (order : Equiv.Perm (Fin ops.length)) : List AiOp :=
  List.ofFn fun i => ops.get (order i)

/-- In every order of the list each operation gets the same verdict. -/
def OrderIndependent (fuzzyThreshold : ℚ) (currentText : JsString) (ops : List AiOp) : Prop :=
  ∀ (order : Equiv.Perm (Fin ops.length)) (i : Fin ops.length),
    ((checkContentExistence fuzzyThreshold (permuted ops order) currentText).verdicts
        ops.length)[(i : ℕ)]? =
      ((checkContentExistence fuzzyThreshold ops currentText).verdicts ops.length)[(order i : ℕ)]?

def resolvedStart (currentText : JsString) (range : TextRange) : Option ℤ :=
  if range.expectedText = slice currentText range.start range.stop then some range.start
  else (findNearestExactText currentText range.expectedText range.start).map fun m => m.start

/-- A range at whose start the list inserts without an anchor is not found anywhere else. -/
def PairsStay (currentText : JsString) (ops : List AiOp) : Prop :=
  ∀ position text, .insert position text none ∈ ops → ∀ op ∈ ops, ∀ range ∈ op.range?,
    range.start = position → ∀ start ∈ resolvedStart currentText range, start = position

namespace OpCheck

def op? : OpCheck → Option AiOp
  | .valid op _ => some op
  | _ => none

def relocated (ranges : ℤ → Option ℤ) : OpCheck → ℤ → Option ℤ
  | .valid _ ranges' => ranges'
  | _ => ranges

def isFuzzy : OpCheck → Bool
  | .fuzzy _ _ => true
  | _ => false

end OpCheck

section Checks

variable (fuzzyThreshold : ℚ) (currentText : JsString)

def verdictsFrom : (ℤ → Option ℤ) → List AiOp → List (Option AiOp)
  | _, [] => []
  | ranges, op :: ops =>
    (checkOp fuzzyThreshold currentText ranges op).op? ::
      verdictsFrom ((checkOp fuzzyThreshold currentText ranges op).relocated ranges) ops

def relocations (ranges : ℤ → Option ℤ) (ops : List AiOp) : ℤ → Option ℤ :=
  ops.foldl (fun ranges op => (checkOp fuzzyThreshold currentText ranges op).relocated ranges)
    ranges

variable {fuzzyThreshold currentText} {ranges ranges' : ℤ → Option ℤ}

theorem checkRange_spec (ranges ranges' : ℤ → Option ℤ) (op : AiOp) (range : TextRange) :
    (checkRange fuzzyThreshold currentText ranges op range).op? =
        (checkRange fuzzyThreshold currentText ranges' op range).op? ∧
      (checkRange fuzzyThreshold currentText ranges op range).isFuzzy =
        (checkRange fuzzyThreshold currentText ranges' op range).isFuzzy ∧
      (checkRange fuzzyThreshold currentText ranges op range).relocated ranges =
        match resolvedStart currentText range with
        | some start => Function.update ranges range.start (some start)
        | none => ranges := by
  unfold checkRange resolvedStart
  dsimp only
  split
  · exact ⟨rfl, rfl, rfl⟩
  · cases findNearestExactText currentText range.expectedText range.start with
    | some m => exact ⟨rfl, rfl, rfl⟩
    | none =>
      dsimp only
      split <;> exact ⟨rfl, rfl, rfl⟩

theorem checkInsert_spec (ranges ranges' : ℤ → Option ℤ) (position : ℤ) (text : JsString)
    (anchor : Option Anchor) :
    (checkInsert currentText ranges position text anchor).isFuzzy = false ∧
      (checkInsert currentText ranges position text anchor).relocated ranges = ranges ∧
      (anchor ≠ none → (checkInsert currentText ranges position text anchor).op? =
        (checkInsert currentText ranges' position text anchor).op?) := by
  cases anchor with
  | none => exact ⟨rfl, rfl, fun h => (h rfl).elim⟩
  | some a =>
    unfold checkInsert
    dsimp only
    cases findNearestExactText currentText a.text position with
    | none => exact ⟨rfl, rfl, fun _ => rfl⟩
    | some m => exact ⟨rfl, rfl, fun _ => rfl⟩

theorem checkOp_isFuzzy (ranges ranges' : ℤ → Option ℤ) (op : AiOp) :
    (checkOp fuzzyThreshold currentText ranges op).isFuzzy =
      (checkOp fuzzyThreshold currentText ranges' op).isFuzzy := by
  cases op with
  | insert position text anchor =>
    exact (checkInsert_spec ranges ranges' position text anchor).1.trans
      (checkInsert_spec ranges' ranges position text anchor).1.symm
  | delete range => exact (checkRange_spec ranges ranges' _ range).2.1
  | format range attributes => exact (checkRange_spec ranges ranges' _ range).2.1

/-- Only an insert without an anchor gets its verdict from what has been met before. -/
theorem checkOp_op? {op : AiOp} (h : ∀ position text, op ≠ .insert position text none) :
    (checkOp fuzzyThreshold currentText ranges op).op? =
      (checkOp fuzzyThreshold currentText ranges' op).op? := by
  cases op with
  | insert position text anchor =>
    refine (checkInsert_spec ranges ranges' position text anchor).2.2 ?_
    rintro rfl
    exact h _ _ rfl
  | delete range => exact (checkRange_spec ranges ranges' _ range).1
  | format range attributes => exact (checkRange_spec ranges ranges' _ range).1

theorem checkOp_relocated (op : AiOp) :
    (checkOp fuzzyThreshold currentText ranges op).relocated ranges =
      ((op.range?.bind fun range => (resolvedStart currentText range).map fun start =>
        Function.update ranges range.start (some start)).getD ranges) := by
  have hrange : ∀ op range, (checkRange fuzzyThreshold currentText ranges op range).relocated
      ranges = ((resolvedStart currentText range).map fun start =>
        Function.update ranges range.start (some start)).getD ranges := by
    intro op range
    rw [(checkRange_spec ranges ranges op range).2.2]
    cases resolvedStart currentText range <;> rfl
  cases op with
  | insert position text anchor => exact (checkInsert_spec ranges ranges position text anchor).2.1
  | delete range => exact hrange _ range
  | format range attributes => exact hrange _ range

theorem relocations_some {ops : List AiOp} {position start : ℤ}
    (h : relocations fuzzyThreshold currentText ranges ops position = some start) :
    ranges position = some start ∨ ∃ op ∈ ops, ∃ range ∈ op.range?, range.start = position ∧
      resolvedStart currentText range = some start := by
  induction ops generalizing ranges with
  | nil => exact .inl h
  | cons op ops ih =>
    rcases ih h with hranges | ⟨op', hop', hrange⟩
    · simp only [checkOp_relocated] at hranges
      cases hr : op.range? with
      | none =>
        rw [hr] at hranges
        exact .inl hranges
      | some range =>
        rw [hr, Option.bind_some] at hranges
        cases hstart : resolvedStart currentText range with
        | none =>
          rw [hstart] at hranges
          exact .inl hranges
        | some start' =>
          rw [hstart, Option.map_some, Option.getD_some] at hranges
          by_cases hposition : position = range.start
          · subst hposition
            rw [Function.update_self] at hranges
            exact .inr ⟨op, List.mem_cons_self, range, hr, rfl, hstart.trans hranges⟩
          · rw [Function.update_of_ne hposition] at hranges
            exact .inl hranges
    · exact .inr ⟨op', List.mem_cons_of_mem _ hop', hrange⟩

theorem getElem?_verdictsFrom (ops : List AiOp) (k : ℕ) :
    (verdictsFrom fuzzyThreshold currentText ranges ops)[k]? = ops[k]?.map fun op =>
      (checkOp fuzzyThreshold currentText
        (relocations fuzzyThreshold currentText ranges (ops.take k)) op).op? := by
  induction ops generalizing ranges k with
  | nil => rfl
  | cons op ops ih =>
    cases k with
    | zero => rfl
    | succ k => exact ih k

theorem any_index_eq_false {rejected : List RejectedOp} {i : ℕ} (h : ∀ r ∈ rejected, r.index ≠ i) :
    rejected.any (fun r => decide (r.index = i)) = false :=
  List.any_eq_false.mpr fun r hr hindex => h r hr (of_decide_eq_true hindex)

/-- The loop finishes unless it meets a fuzzy match, and the verdicts can be read off its
result: the rejected indices before this loop are smaller. -/
theorem checkLoop_reads {i : ℕ} (ops valid : List AiOp) {rejected : List RejectedOp}
    (hsmall : ∀ r ∈ rejected, r.index < i)
    (hfuzzy : ∀ op ∈ ops, (checkOp fuzzyThreshold currentText ranges op).isFuzzy = false) :
    ∃ moreValid moreRejected,
      (checkLoop fuzzyThreshold currentText i ops ranges valid rejected).outcome? =
        some (valid ++ moreValid, rejected ++ moreRejected) ∧
      (∀ r ∈ moreRejected, i ≤ r.index) ∧
      readVerdicts ops.length i moreValid (rejected ++ moreRejected) =
        verdictsFrom fuzzyThreshold currentText ranges ops := by
  induction ops generalizing i ranges valid rejected with
  | nil =>
    refine ⟨[], [], ?_, by simp, rfl⟩
    unfold checkLoop
    split
    · next hempty => simp [List.isEmpty_iff.mp hempty, ContentCheckResult.outcome?]
    · simp [ContentCheckResult.outcome?]
  | cons op ops ih =>
    obtain ⟨hop, hops⟩ := List.forall_mem_cons.mp hfuzzy
    have hops' : ∀ ranges', ∀ op ∈ ops,
        (checkOp fuzzyThreshold currentText ranges' op).isFuzzy = false :=
      fun ranges' op hop => (checkOp_isFuzzy ranges' ranges op).trans (hops op hop)
    have hnone : rejected.any (fun r => decide (r.index = i)) = false :=
      any_index_eq_false fun r hr => (hsmall r hr).ne
    have hsmall' : ∀ r ∈ rejected, r.index < i + 1 :=
      fun r hr => (hsmall r hr).trans (Nat.lt_succ_self i)
    unfold checkLoop
    rw [verdictsFrom]
    split
    · next op' ranges' heq =>
      obtain ⟨v, r, houtcome, hlarge, hread⟩ :=
        @ih ranges' (i + 1) (valid ++ [op']) rejected hsmall' (hops' ranges')
      refine ⟨op' :: v, r, by rw [houtcome]; simp, fun x hx => (Nat.le_succ i).trans (hlarge x hx),
        ?_⟩
      have hlater : r.any (fun r => decide (r.index = i)) = false :=
        any_index_eq_false fun x hx => (Nat.lt_of_succ_le (hlarge x hx)).ne'
      rw [List.length_cons, readVerdicts, List.any_append, hnone, hlater, Bool.or_false,
        if_neg Bool.false_ne_true, List.tail_cons, hread, heq]
      rfl
    · next reason heq =>
      have hsmaller : ∀ r ∈ rejected ++ [⟨i, reason⟩], r.index < i + 1 :=
        List.forall_mem_append.mpr
          ⟨hsmall', List.forall_mem_singleton.mpr (Nat.lt_succ_self i)⟩
      obtain ⟨v, r, houtcome, hlarge, hread⟩ :=
        @ih ranges (i + 1) valid (rejected ++ [⟨i, reason⟩]) hsmaller (hops' ranges)
      refine ⟨v, ⟨i, reason⟩ :: r, by rw [houtcome]; simp, fun x hx => ?_, ?_⟩
      · rcases List.mem_cons.mp hx with rfl | hx
        · exact le_rfl
        · exact (Nat.le_succ i).trans (hlarge x hx)
      · rw [List.append_assoc] at hread
        rw [List.length_cons, readVerdicts, if_pos (by simp), heq]
        exact congrArg (List.cons none) hread
    · next expected actual heq =>
      rw [heq] at hop
      cases hop

theorem checkLoop_fuzzy {i : ℕ} {ops valid : List AiOp} {rejected : List RejectedOp}
    (h : (checkLoop fuzzyThreshold currentText i ops ranges valid rejected).outcome?.isSome) :
    ∀ op ∈ ops, (checkOp fuzzyThreshold currentText ranges' op).isFuzzy = false := by
  induction ops generalizing i ranges valid rejected with
  | nil => simp
  | cons op ops ih =>
    unfold checkLoop at h
    rw [List.forall_mem_cons, checkOp_isFuzzy ranges' ranges]
    split at h
    · next heq =>
      rw [heq]
      exact ⟨rfl, ih h⟩
    · next heq =>
      rw [heq]
      exact ⟨rfl, ih h⟩
    · cases h

theorem verdicts_eq {ops : List AiOp} (hfuzzy : ∀ op ∈ ops,
    (checkOp fuzzyThreshold currentText (fun _ => none) op).isFuzzy = false) :
    (checkContentExistence fuzzyThreshold ops currentText).verdicts ops.length =
      verdictsFrom fuzzyThreshold currentText (fun _ => none) ops := by
  obtain ⟨valid, rejected, houtcome, -, hread⟩ :=
    @checkLoop_reads fuzzyThreshold currentText (fun _ => none) 0 ops [] [] (by simp) hfuzzy
  rw [ContentCheckResult.verdicts, checkContentExistence, houtcome]
  exact hread

end Checks

section Orders

variable {fuzzyThreshold : ℚ} {currentText : JsString} {ops : List AiOp}

theorem getElem?_permuted (order : Equiv.Perm (Fin ops.length)) (i : Fin ops.length) :
    (permuted ops order)[(i : ℕ)]? = some (ops.get (order i)) := by
  rw [permuted, List.getElem?_ofFn, dif_pos i.isLt]

theorem mem_permuted {order : Equiv.Perm (Fin ops.length)} {op : AiOp} :
    op ∈ permuted ops order ↔ op ∈ ops := by
  rw [permuted, List.mem_ofFn, List.mem_iff_get]
  exact ⟨fun ⟨i, hi⟩ => ⟨order i, hi⟩, fun ⟨i, hi⟩ => ⟨order.symm i, by simpa using hi⟩⟩

theorem verdict_permuted (hfuzzy : ∀ op ∈ ops,
    (checkOp fuzzyThreshold currentText (fun _ => none) op).isFuzzy = false)
    (order : Equiv.Perm (Fin ops.length)) (i : Fin ops.length) :
    ((checkContentExistence fuzzyThreshold (permuted ops order) currentText).verdicts
        ops.length)[(i : ℕ)]? =
      some (checkOp fuzzyThreshold currentText (relocations fuzzyThreshold currentText
        (fun _ => none) ((permuted ops order).take i)) (ops.get (order i))).op? := by
  have hlength : (permuted ops order).length = ops.length := List.length_ofFn
  have heq := @verdicts_eq fuzzyThreshold currentText (permuted ops order) fun op hop =>
    hfuzzy op (mem_permuted.mp hop)
  rw [hlength] at heq
  rw [heq, getElem?_verdictsFrom, getElem?_permuted]
  rfl

/-- When the pairs stay, what has been met before changes no verdict. -/
theorem checkOp_of_pairsStay (h : PairsStay currentText ops) {met : List AiOp}
    (hmet : ∀ op ∈ met, op ∈ ops) {op : AiOp} (hop : op ∈ ops) :
    (checkOp fuzzyThreshold currentText
        (relocations fuzzyThreshold currentText (fun _ => none) met) op).op? =
      (checkOp fuzzyThreshold currentText (fun _ => none) op).op? := by
  by_cases hfree : ∃ position text, op = .insert position text none
  · obtain ⟨position, text, rfl⟩ := hfree
    have hstay : (relocations fuzzyThreshold currentText (fun _ => none) met position).getD
        position = position := by
      cases hstart : relocations fuzzyThreshold currentText (fun _ => none) met position with
      | none => rfl
      | some start =>
        rcases relocations_some hstart with hnone | ⟨op', hop', range, hrange, hposition, hfound⟩
        · cases hnone
        · exact h position text hop op' (hmet op' hop') range hrange hposition start hfound
    exact congrArg (fun start => some (AiOp.insert start text none)) hstay
  · exact checkOp_op? fun position text heq => hfree ⟨position, text, heq⟩

/-- An insert without an anchor stands where it says when it is the first of the list. -/
theorem verdict_first (hfuzzy : ∀ op ∈ ops,
    (checkOp fuzzyThreshold currentText (fun _ => none) op).isFuzzy = false)
    (h : OrderIndependent fuzzyThreshold currentText ops) {j : Fin ops.length} {position : ℤ}
    {text : JsString} (hj : ops.get j = .insert position text none) :
    ((checkContentExistence fuzzyThreshold ops currentText).verdicts ops.length)[(j : ℕ)]? =
      some (some (.insert position text none)) := by
  let first : Fin ops.length := ⟨0, Nat.zero_lt_of_lt j.isLt⟩
  have hsame := h (Equiv.swap first j) first
  rw [verdict_permuted hfuzzy, Equiv.swap_apply_left, hj] at hsame
  exact hsame.symm

theorem exists_order {n : ℕ} {j k : Fin n} (hne : j ≠ k) :
    ∃ (htwo : 1 < n) (order : Equiv.Perm (Fin n)),
      order ⟨0, Nat.zero_lt_of_lt htwo⟩ = k ∧ order ⟨1, htwo⟩ = j := by
  have htwo : 1 < n := by
    have hj := j.isLt
    have hk := k.isLt
    have hval : (j : ℕ) ≠ k := fun heq => hne (Fin.ext heq)
    omega
  let first : Fin n := ⟨0, Nat.zero_lt_of_lt htwo⟩
  let second : Fin n := ⟨1, htwo⟩
  have hapart : first ≠ second := fun heq => absurd (Fin.mk.inj heq) (by decide)
  -- bring the one to the front, and then the other behind it
  let j' := Equiv.swap first k j
  have hj' : j' ≠ first := by
    intro heq
    exact hne ((Equiv.swap first k).injective (heq.trans (Equiv.swap_apply_right first k).symm))
  refine ⟨htwo, Equiv.swap first k * Equiv.swap second j', ?_, ?_⟩
  · change Equiv.swap first k (Equiv.swap second j' first) = k
    rw [Equiv.swap_apply_of_ne_of_ne hapart hj'.symm, Equiv.swap_apply_left]
  · change Equiv.swap first k (Equiv.swap second j' second) = j
    rw [Equiv.swap_apply_left, Equiv.swap_apply_self]

theorem verdict_second (hfuzzy : ∀ op ∈ ops,
    (checkOp fuzzyThreshold currentText (fun _ => none) op).isFuzzy = false)
    (h : OrderIndependent fuzzyThreshold currentText ops) {j k : Fin ops.length} {position : ℤ}
    {text : JsString} (hj : ops.get j = .insert position text none) {range : TextRange}
    (hk : (ops.get k).range? = some range) (hposition : range.start = position) {start : ℤ}
    (hstart : resolvedStart currentText range = some start) :
    ((checkContentExistence fuzzyThreshold ops currentText).verdicts ops.length)[(j : ℕ)]? =
      some (some (.insert start text none)) := by
  have hne : j ≠ k := by
    rintro rfl
    rw [hj] at hk
    cases hk
  obtain ⟨htwo, order, hfirst, hsecond⟩ := exists_order hne
  have htake : (permuted ops order).take 1 = [ops.get k] := by
    have hhead := getElem?_permuted order ⟨0, Nat.zero_lt_of_lt htwo⟩
    rw [hfirst] at hhead
    rw [List.take_one, List.head?_eq_getElem?]
    exact congrArg Option.toList hhead
  have hsame := h order ⟨1, htwo⟩
  rw [verdict_permuted hfuzzy, hsecond, hj] at hsame
  rw [← hsame]
  change some (some (AiOp.insert ((relocations fuzzyThreshold currentText (fun _ => none)
    ((permuted ops order).take 1) position).getD position) text none)) = _
  rw [htake]
  simp only [relocations, List.foldl_cons, List.foldl_nil, checkOp_relocated, hk, hstart,
    Option.bind_some, Option.map_some, Option.getD_some, hposition, Function.update_self]

/-- Without a fuzzy match, the result of the content check does not depend on the order of the
list exactly when no insert without an anchor shares its position with a range that is found
somewhere else. -/
theorem orderIndependent_iff
    (h : (checkContentExistence fuzzyThreshold ops currentText).outcome?.isSome) :
    OrderIndependent fuzzyThreshold currentText ops ↔ PairsStay currentText ops := by
  have hfuzzy : ∀ op ∈ ops,
      (checkOp fuzzyThreshold currentText (fun _ => none) op).isFuzzy = false := checkLoop_fuzzy h
  constructor
  · intro hindependent position text hinsert op hop range hrange hposition start hstart
    obtain ⟨j, hj⟩ := List.mem_iff_get.mp hinsert
    obtain ⟨k, hk⟩ := List.mem_iff_get.mp hop
    have hfirst := verdict_first hfuzzy hindependent hj
    rw [verdict_second hfuzzy hindependent hj (hk ▸ hrange) hposition hstart] at hfirst
    simpa using hfirst
  · intro hstay order i
    rw [verdict_permuted hfuzzy, verdicts_eq hfuzzy, getElem?_verdictsFrom,
      List.getElem?_eq_getElem (order i).isLt, Option.map_some]
    rw [checkOp_of_pairsStay hstay (fun op hop => mem_permuted.mp (List.mem_of_mem_take hop))
      (List.get_mem _ _)]
    exact congrArg some (checkOp_of_pairsStay hstay (fun op hop => List.mem_of_mem_take hop)
      (List.get_mem _ _)).symm

/-- A replacement whose text is where it says, beside a delete that has moved. -/
theorem orderIndependent_replacement : OrderIndependent (7 / 10) (js "abcdef")
    [.insert 0 (js "X") none, .delete ⟨0, 3, js "abc"⟩, .delete ⟨2, 4, js "ef"⟩] := by
  refine (orderIndependent_iff rfl).mpr ?_
  rintro position text hinsert op hop range hrange rfl start hstart
  simp only [List.mem_cons, List.not_mem_nil, or_false] at hinsert hop
  rcases hop with rfl | rfl | rfl
  · cases hrange
  · cases hrange
    cases hstart
    rfl
  · cases hrange
    simp at hinsert

/-- A replacement at an offset that is out of date: the insert goes with the delete only if it
stands behind it. -/
theorem orderIndependent_fails :
    (checkContentExistence (7 / 10) [.insert 0 (js "X") none, .delete ⟨0, 3, js "def"⟩]
        (js "abcdef")).outcome?.isSome ∧
      ¬ OrderIndependent (7 / 10) (js "abcdef")
        [.insert 0 (js "X") none, .delete ⟨0, 3, js "def"⟩] := by
  refine ⟨rfl, fun h => ?_⟩
  have hsame := congrArg (Option.map (Option.map AiOp.position)) (h (Equiv.swap 0 1) 1)
  exact absurd hsame (by decide)

end Orders

end Meridian
