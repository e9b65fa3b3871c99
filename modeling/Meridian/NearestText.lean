import Meridian.Recheck

/-! The search for a quote, round by round. The loops of the service come to an end, and what
they find is the nearest of the places where the quote stands, exactly or else up to white space;
of two that are equally near the first. -/
namespace Meridian

section Rounds

variable (text needle : JsString) (preferredStart : ℤ)

/-- A round of the loop of `findNearestExactText` on `fromIndex` and `bestIndex`; `none` is its
end. -/
def exactRound : ℕ × Option ℕ → Option (ℕ × Option ℕ)
  | (fromIndex, bestIndex) =>
    if fromIndex ≤ text.length then
      (indexOf text needle fromIndex).map fun index =>
        (index + 1, closer preferredStart bestIndex index)
    else none

/-- A round of the inner loop of `findNearestWhitespaceInsensitiveText` on `end` and
`normalized`. -/
def windowRound : ℕ × JsString → Option (ℕ × JsString)
  | (stop, normalized) =>
    if normalized.length < (normalizeAnchorText needle).length then
      (text[stop]?).map fun c => (stop + 1, normalized ++ [normalizeAnchorChar c])
    else none

end Rounds

def Ends {S : Type} (round : S → Option S) (first last : S) : Prop :=
  Relation.ReflTransGen (fun s s' => round s = some s') first last ∧ round last = none

/-- Whether a code unit is the first half of a pair, or the second. -/
def isLead (c : CodeUnit) : Bool := 0xd800 ≤ c && c ≤ 0xdbff

def isTrail (c : CodeUnit) : Bool := 0xdc00 ≤ c && c ≤ 0xdfff

def arrayFrom : JsString → List JsString
  | [] => []
  | [c] => [[c]]
  | c :: d :: rest =>
    if isLead c && isTrail d then [c, d] :: arrayFrom rest else [c] :: arrayFrom (d :: rest)

def normalizeCharacter (char : JsString) : JsString := if char.any isSpace then [0x20] else char

def StandsAt (text needle : JsString) (start : ℕ) : Prop :=
  start + needle.length ≤ text.length ∧ (text.drop start).take needle.length = needle

/-- The window of the length of the needle is the needle when each white space is a blank. -/
def StandsUpToSpace (text needle : JsString) (start : ℕ) : Prop :=
  start + needle.length ≤ text.length ∧
    ((text.drop start).take needle.length).map normalizeAnchorChar =
      needle.map normalizeAnchorChar

/-- The nearest to an offset of the places with a property, the first of two equally near. -/
structure NearestOf (place : ℕ → Prop) (preferredStart : ℤ) (start : ℕ) : Prop where
  stands : place start
  nearest : ∀ other, place other → |(start : ℤ) - preferredStart| ≤ |(other : ℤ) - preferredStart|
  leftmost : ∀ other, place other →
    |(other : ℤ) - preferredStart| = |(start : ℤ) - preferredStart| → start ≤ other

/-- What the search is to return: the nearest occurrence; if there is none the nearest up to
white space; and nothing if there is none of these either. -/
def FoundNearest (text needle : JsString) (preferredStart : ℤ) : Option Match → Prop
  | some m => m.stop = m.start + needle.length ∧ m.stop ≤ text.length ∧
      (NearestOf (StandsAt text needle) preferredStart m.start ∨
        (∀ start, ¬ StandsAt text needle start) ∧
          NearestOf (StandsUpToSpace text needle) preferredStart m.start)
  | none => ∀ start, ¬ StandsAt text needle start ∧ ¬ StandsUpToSpace text needle start

section Ending

variable {text needle : JsString} {preferredStart : ℤ}

/-- Every round moves the offset on, and behind the text the loop ends with the best match. -/
theorem exactRound_ends {fuel start : ℕ} (best : Option ℕ) (h : text.length + 1 - start ≤ fuel) :
    ∃ fromIndex, Ends (exactRound text needle preferredStart) (start, best)
      (fromIndex, nearestLoop text needle preferredStart fuel start best) := by
  induction fuel generalizing start best with
  | zero =>
    refine ⟨start, .refl, ?_⟩
    rw [exactRound, if_neg (by omega)]
  | succ fuel ih =>
    unfold nearestLoop
    split
    · next hnone =>
      refine ⟨start, .refl, ?_⟩
      rw [exactRound, hnone]
      simp
    · next index hsome =>
      obtain ⟨-, hstart, hle, -⟩ := indexOf_some hsome
      have hfuel : text.length + 1 - (index + 1) ≤ fuel := by omega
      obtain ⟨fromIndex, hsteps, hend⟩ := ih (closer preferredStart best index) hfuel
      refine ⟨fromIndex, .head ?_ hsteps, hend⟩
      rw [exactRound, if_pos (by omega), hsome, Option.map_some]

theorem windowRound_steps (text needle : JsString) (start k : ℕ)
    (hk : k ≤ (normalizedFrom text needle start).length) :
    Relation.ReflTransGen (fun s s' => windowRound text needle s = some s') (start, [])
      (start + k, (normalizedFrom text needle start).take k) := by
  induction k with
  | zero => exact .refl
  | succ k ih =>
    have hwindow : k < needle.length ∧ start + k < text.length := by
      simp only [normalizedFrom, normalizeAnchorText_length, List.length_take,
        List.length_drop] at hk
      omega
    have hlength : ((normalizedFrom text needle start).take k).length = k :=
      List.length_take_of_le (Nat.le_of_succ_le hk)
    have hchar : (normalizedFrom text needle start)[k]? =
        some (normalizeAnchorChar text[start + k]) := by
      simp [normalizedFrom, normalizeAnchorText, List.getElem?_take_of_lt hwindow.1,
        List.getElem?_eq_getElem hwindow.2]
    refine .tail (ih (Nat.le_of_succ_le hk)) ?_
    rw [windowRound, hlength, normalizeAnchorText_length, if_pos hwindow.1,
      List.getElem?_eq_getElem hwindow.2, List.take_add_one, hchar]
    rfl

theorem windowRound_ends (start : ℕ) : ∃ stop, Ends (windowRound text needle) (start, [])
    (stop, normalizedFrom text needle start) ∧
      (normalizedFrom text needle start = normalizeAnchorText needle →
        stop = start + needle.length) := by
  have hlength : (normalizedFrom text needle start).length =
      min needle.length (text.length - start) := by
    simp [normalizedFrom]
  have hsteps := windowRound_steps text needle start _ le_rfl
  rw [List.take_length] at hsteps
  refine ⟨_, ⟨hsteps, ?_⟩, fun heq => by rw [heq, normalizeAnchorText_length]⟩
  rw [windowRound]
  split
  · next hlt =>
    rw [normalizeAnchorText_length] at hlt
    rw [List.getElem?_eq_none (by omega), Option.map_none]
  · rfl

theorem not_isSpace_of_isLead {c : CodeUnit} (h : isLead c || isTrail c) : isSpace c = false := by
  simp only [isLead, isTrail, isSpace, Bool.or_eq_true, Bool.and_eq_true, decide_eq_true_eq,
    UInt16.le_iff_toNat_le, UInt16.toNat_inj.symm, UInt16.toNat_ofNat, Bool.or_eq_false_iff,
    Bool.and_eq_false_iff, decide_eq_false_iff_not] at *
  omega

/-- No half of a pair is white space, so that code units can be normalised one by one. -/
theorem flatMap_arrayFrom (text : JsString) :
    (arrayFrom text).flatMap normalizeCharacter = normalizeAnchorText text := by
  have hunit : ∀ c : CodeUnit, normalizeCharacter [c] = [normalizeAnchorChar c] := by
    intro c
    cases hc : isSpace c <;> simp [normalizeCharacter, normalizeAnchorChar, hc]
  induction text using List.twoStepInduction with
  | nil => rfl
  | singleton c => simpa [arrayFrom, normalizeAnchorText] using hunit c
  | cons_cons c d rest ih ih' =>
    rw [arrayFrom]
    split
    · next hpair =>
      obtain ⟨hlead, htrail⟩ := Bool.and_eq_true_iff.mp hpair
      have hc := not_isSpace_of_isLead (c := c) (by simp [hlead])
      have hd := not_isSpace_of_isLead (c := d) (by simp [htrail])
      rw [List.flatMap_cons, ih]
      simp [normalizeCharacter, normalizeAnchorText, normalizeAnchorChar, hc, hd]
    · rw [List.flatMap_cons, ih' d, hunit]
      rfl

end Ending

section Nearest

variable {text needle : JsString} {preferredStart : ℤ}

theorem standsAt_iff {start : ℕ} : StandsAt text needle start ↔
    start ∈ (List.range (text.length + 1)).filter (occursAt text needle) := by
  rw [List.mem_filter, List.mem_range, occursAt_iff, StandsAt]
  constructor
  · rintro ⟨hle, heq⟩
    exact ⟨by omega, heq⟩
  · rintro ⟨hlt, heq⟩
    have hlength := congrArg List.length heq
    rw [List.length_take, List.length_drop] at hlength
    exact ⟨by omega, heq⟩

theorem mem_candidates_iff {start : ℕ} : start ∈ candidates text needle ↔
    StandsAt text needle start ∨
      (∀ other, ¬ StandsAt text needle other) ∧ StandsUpToSpace text needle start := by
  have hnone : (List.range (text.length + 1)).filter (occursAt text needle) = [] ↔
      ∀ other, ¬ StandsAt text needle other := by
    simp only [standsAt_iff, List.eq_nil_iff_forall_not_mem]
  unfold candidates
  dsimp only
  split
  · next hnil =>
    have hnot := hnone.mp hnil
    have hne : needle ≠ [] := by
      rintro rfl
      exact hnot 0 ⟨Nat.zero_le _, rfl⟩
    rw [List.mem_filter, List.mem_range, decide_eq_true_eq]
    constructor
    · rintro ⟨hlt, -, heq⟩
      have hlength := congrArg List.length heq
      simp only [normalizedFrom, normalizeAnchorText_length, List.length_take,
        List.length_drop] at hlength
      exact .inr ⟨hnot, by omega, heq⟩
    · rintro (h | ⟨-, hle, heq⟩)
      · exact absurd h (hnot start)
      · have := List.length_pos_iff.mpr hne
        exact ⟨by omega, hne, heq⟩
  · next hne =>
    rw [← standsAt_iff]
    constructor
    · exact .inl
    · rintro (h | ⟨hnot, -⟩)
      · exact h
      · exact absurd (hnone.mpr hnot) hne

theorem distance_eq (preferredStart : ℤ) (start : ℕ) :
    (distance preferredStart start : ℤ) = |(start : ℤ) - preferredStart| := Int.natCast_natAbs _

/-- The closest candidate is the nearest place, when the candidates are those places. -/
theorem nearestOf_of_closest {place : ℕ → Prop} {start : ℕ}
    (hplace : ∀ other, place other ↔ other ∈ candidates text needle)
    (hmem : start ∈ candidates text needle)
    (hclosest : ∀ other ∈ candidates text needle,
      distance preferredStart start < distance preferredStart other ∨
        (distance preferredStart start = distance preferredStart other ∧ start ≤ other)) :
    NearestOf place preferredStart start := by
  refine ⟨(hplace start).mpr hmem, fun other hother => ?_, fun other hother heq => ?_⟩
  · have h := hclosest other ((hplace other).mp hother)
    rw [← distance_eq, ← distance_eq]
    omega
  · have h := hclosest other ((hplace other).mp hother)
    rw [← distance_eq, ← distance_eq] at heq
    omega

theorem foundNearest (text needle : JsString) (preferredStart : ℤ) :
    FoundNearest text needle preferredStart (findNearestExactText text needle preferredStart) := by
  cases hfound : findNearestExactText text needle preferredStart with
  | none =>
    rw [findNearestExactText_eq, Option.map_eq_none_iff, List.argmin_eq_none] at hfound
    have hnot : ∀ start, ¬ StandsAt text needle start := fun start h => by
      have hmem := mem_candidates_iff.mpr (.inl h)
      simp [hfound] at hmem
    refine fun start => ⟨hnot start, fun h => ?_⟩
    have hmem := mem_candidates_iff.mpr (.inr ⟨hnot, h⟩)
    simp [hfound] at hmem
  | some m =>
    obtain ⟨hstop, hmem, hclosest⟩ := findNearestExactText_eq_some_iff.mp hfound
    refine ⟨hstop, (findNearestExactText_spec hfound).2.1, ?_⟩
    by_cases hexact : ∃ other, StandsAt text needle other
    · obtain ⟨other, hother⟩ := hexact
      refine .inl (nearestOf_of_closest (fun start => ?_) hmem hclosest)
      rw [mem_candidates_iff]
      exact ⟨.inl, fun h => h.resolve_right fun h => h.1 other hother⟩
    · have hnot : ∀ other, ¬ StandsAt text needle other := not_exists.mp hexact
      refine .inr ⟨hnot, nearestOf_of_closest (fun start => ?_) hmem hclosest⟩
      rw [mem_candidates_iff]
      exact ⟨fun h => .inr ⟨hnot, h⟩, fun h => (h.resolve_left (hnot start)).2⟩

end Nearest

/-- The search of `findNearestExactText`: its loops end, the needle is normalised as the windows
are, and the result is the nearest place. -/
structure Searches (text needle : JsString) (preferredStart : ℤ) : Prop where
  exactLoop : ∃ fromIndex, Ends (exactRound text needle preferredStart) (0, none)
    (fromIndex, nearestLoop text needle preferredStart (text.length + 1) 0 none)
  windowLoop : ∀ start, ∃ stop, Ends (windowRound text needle) (start, [])
    (stop, normalizedFrom text needle start) ∧
      (normalizedFrom text needle start = normalizeAnchorText needle →
        stop = start + needle.length)
  normalizes : (arrayFrom needle).flatMap normalizeCharacter = normalizeAnchorText needle
  found : FoundNearest text needle preferredStart (findNearestExactText text needle preferredStart)

/-- Every search ends with the nearest exact occurrence, or else the nearest one up to white
space, or else nothing. -/
theorem findNearestExactText_searches (text needle : JsString) (preferredStart : ℤ) :
    Searches text needle preferredStart where
  exactLoop := exactRound_ends none le_rfl
  windowLoop := windowRound_ends
  normalizes := flatMap_arrayFrom needle
  found := foundNearest text needle preferredStart

end Meridian
