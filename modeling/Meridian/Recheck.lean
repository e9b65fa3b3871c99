import Meridian.ContentCheck

/-! The content check of operations that have passed it before, on the same text. Ranges and
inserts before their anchor are found where they are; an insert after its anchor is looked
for from the end of the match, and may be taken to a later one. -/
namespace Meridian

section Nearest

variable {text needle : JsString} {preferredStart : ℤ} {m : Match}

theorem candidates_pairwise (text needle : JsString) :
    (candidates text needle).Pairwise (· < ·) := by
  unfold candidates
  dsimp only
  split
  · exact List.pairwise_lt_range.filter _
  · exact List.pairwise_lt_range.filter _

theorem idxOf_le_idxOf_iff {l : List ℕ} (h : l.Pairwise (· < ·)) {a b : ℕ} (ha : a ∈ l)
    (hb : b ∈ l) : l.idxOf a ≤ l.idxOf b ↔ a ≤ b := by
  have hget := List.pairwise_iff_getElem.mp h
  have ha' := List.idxOf_lt_length_iff.mpr ha
  have hb' := List.idxOf_lt_length_iff.mpr hb
  rcases lt_trichotomy (l.idxOf a) (l.idxOf b) with hlt | heq | hgt
  · have := hget _ _ ha' hb' hlt
    simp only [List.getElem_idxOf] at this
    omega
  · have hab : a = b := by
      rw [← List.getElem_idxOf ha', ← List.getElem_idxOf hb']
      simp only [heq]
    omega
  · have := hget _ _ hb' ha' hgt
    simp only [List.getElem_idxOf] at this
    omega

theorem findNearestExactText_eq_some_iff :
    findNearestExactText text needle preferredStart = some m ↔
      m.stop = m.start + needle.length ∧ m.start ∈ candidates text needle ∧
        ∀ start ∈ candidates text needle,
          distance preferredStart m.start < distance preferredStart start ∨
            (distance preferredStart m.start = distance preferredStart start ∧
              m.start ≤ start) := by
  have hsome : findNearestExactText text needle preferredStart = some m ↔
      m.stop = m.start + needle.length ∧
        (candidates text needle).argmin (distance preferredStart) = some m.start := by
    rw [findNearestExactText_eq, Option.map_eq_some_iff]
    constructor
    · rintro ⟨start, hstart, rfl⟩
      exact ⟨rfl, hstart⟩
    · rintro ⟨hstop, hstart⟩
      exact ⟨m.start, hstart, by rw [← hstop]⟩
  rw [hsome, List.argmin_eq_some_iff, and_congr_right_iff]
  intro _
  rw [and_congr_right_iff]
  intro hmem
  constructor
  · rintro ⟨hclosest, hfirst⟩ start hstart
    rcases (hclosest start hstart).lt_or_eq with hlt | heq
    · exact .inl hlt
    · exact .inr ⟨heq, (idxOf_le_idxOf_iff (candidates_pairwise _ _) hmem hstart).mp
        (hfirst start hstart heq.ge)⟩
  · intro h
    refine ⟨fun start hstart => ?_, fun start hstart hle => ?_⟩
    · rcases h start hstart with hlt | ⟨heq, -⟩
      · exact hlt.le
      · exact heq.le
    · rcases h start hstart with hlt | ⟨-, hfirst⟩
      · exact absurd hle (not_le.mpr hlt)
      · exact (idxOf_le_idxOf_iff (candidates_pairwise _ _) hmem hstart).mpr hfirst

end Nearest

/-- No other match of the anchor starts closer to the end of the match than the match does. -/
def Steady (currentText : JsString) : AiOp → Prop
  | .insert position _ (some anchor) => anchor.position = .after →
    ∀ start ∈ candidates currentText anchor.text,
      ¬ (position - anchor.text.length < start ∧ (start : ℤ) < position + anchor.text.length)
  | _ => True

instance (currentText : JsString) (op : AiOp) : Decidable (Steady currentText op) := by
  unfold Steady
  split <;> infer_instance

section Again

variable {fuzzyThreshold : ℚ} {currentText : JsString}

def Fixed (relocatedRanges : ℤ → Option ℤ) : Prop := ∀ k v, relocatedRanges k = some v → v = k

theorem Fixed.update {ranges : ℤ → Option ℤ} (h : Fixed ranges) (k : ℤ) :
    Fixed (Function.update ranges k (some k)) := by
  intro k' v hv
  by_cases hk : k' = k
  · subst hk
    simpa using hv.symm
  · rw [Function.update_of_ne hk] at hv
    exact h k' v hv

end Again

end Meridian
